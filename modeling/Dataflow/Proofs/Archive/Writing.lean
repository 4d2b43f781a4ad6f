import Dataflow.Builtin.Basic
import Dataflow.Model.Archive
import Dataflow.Proofs.Action

/-! # What is written

Sizes and positions are the only parts of an object that may have no archived form. Objects are written
in a fixed order, so writing one either leaves the same record whatever else goes on, or fails at the
first number that is out of range. -/

namespace Dataflow
namespace Archive
variable {α β : Type} {a : α} {ns ns' : List Nat}

/-! ### Readings and writings one after the other -/

theorem from_bind {x : α} (first : Reading α Unit) (second : Unit → Reading α Unit) :
    Reading.from x (first >>= second) = Reading.from x first >>= fun y => Reading.from y (second ()) := by
  change (match runFrom x (first >>= second) with | (.ok _, y) => _ | (.error e, _) => _) =
    (match runFrom x first with | (.ok _, y) => _ | (.error e, _) => _) >>= _
  rw [runFrom_bind]
  rcases runFrom x first with ⟨_ | ⟨⟩, y⟩ <;> rfl

theorem from_lift_bind {x : α} (r : Result β) (rest : β → Reading α Unit) :
    Reading.from x (liftM r >>= rest) = r >>= fun b => Reading.from x (rest b) := by
  change (match runFrom x (liftM r >>= rest) with | (.ok _, y) => _ | (.error e, _) => _) = _
  rw [runFrom_bind, runFrom_lift]
  cases r <;> rfl

/-! ### Numbers out of range -/

/-- Whether a size or position has an archived form. -/
def isStorable (n : Nat) : Bool := n ≤ Int64.maxValue.toInt

theorem isStorable_iff {n : Nat} : isStorable n = true ↔ n ≤ 9223372036854775807 := by
  have hmax : Int64.maxValue.toInt = 9223372036854775807 := rfl
  rw [isStorable, hmax, decide_eq_true_eq]
  omega

theorem isSigned_natCast (n : Nat) : isSigned 64 n = isStorable n := by
  have hlimit : Int.ofNat (Nat.pow 2 (64 - 1)) = 9223372036854775808 := rfl
  rw [Bool.eq_iff_iff, isSigned_iff, isStorable_iff, hlimit]
  omega

/-- The first of the numbers that has no archived form. -/
def outOfRange? (ns : List Nat) : Option Nat := ns.find? fun n => !isStorable n

/-- What comes of writing the numbers in turn and `a` with them. -/
def stored (ns : List Nat) (a : α) : Result α :=
  match outOfRange? ns with
  | none => .ok a
  | some n => .error (.outOfRange (toString n) "int")

theorem stored_eq_ok {b : α} : stored ns a = .ok b ↔ (∀ n ∈ ns, isStorable n = true) ∧ a = b := by
  unfold stored
  rcases h : outOfRange? ns with _ | n
  · have hall : ∀ n ∈ ns, isStorable n = true := by simpa [outOfRange?] using h
    simp only [Except.ok.injEq]
    exact ⟨fun e => ⟨hall, e⟩, fun e => e.2⟩
  · have hn : (!isStorable n) = true := List.find?_some (p := fun n => !isStorable n) h
    simp only [reduceCtorEq, false_iff, not_and]
    intro hall
    simp [hall n (List.mem_of_find?_eq_some h)] at hn

theorem stored_eq_error {e : Error} (h : stored ns a = .error e) :
    ∃ n ∈ ns, isStorable n = false ∧ e = .outOfRange (toString n) "int" := by
  unfold stored at h
  rcases hn : outOfRange? ns with _ | n <;> rw [hn] at h <;> cases h
  exact ⟨n, List.mem_of_find?_eq_some hn, by simpa using List.find?_some hn, rfl⟩

theorem stored_bind {f : α → Result β} {b : β} (h : f a = stored ns' b) : stored ns a >>= f = stored (ns ++ ns') b := by
  unfold stored outOfRange?
  rw [List.find?_append]
  rcases ns.find? _ with _ | n
  · exact h
  · rfl

theorem stored_bind_ok {f : α → Result β} {b : β} (h : f a = .ok b) : stored ns a >>= f = stored ns b := by
  unfold stored
  cases outOfRange? ns
  · exact h
  · rfl

theorem mapM_stored {f : α → Result β} {g : α → List Nat} {r : α → β} {xs : List α}
    (h : ∀ x ∈ xs, f x = stored (g x) (r x)) : xs.mapM f = stored (xs.flatMap g) (xs.map r) := by
  induction xs with
  | nil => rfl
  | cons x rest ih =>
    have ih := ih fun y hy => h y (List.mem_cons_of_mem _ hy)
    rw [List.mapM_cons, h x List.mem_cons_self, ih, List.flatMap_cons]
    exact stored_bind (stored_bind_ok rfl)

/-! ### Fields one after the other -/

/-- Writing the numbers in turn, a writing puts the fields after those that there are. -/
def Leaves (w : Writing Unit) (ns : List Nat) (es : Fields Entry) : Prop :=
  ∀ fs : Fields Entry, (∀ name ∈ fs.names, name ∉ es.names) → Reading.from fs w = stored ns (fs ++ es)

theorem leaves_put (name : String) (e : Entry) : Leaves (Writing.put name e) [] [(name, e)] := by
  intro fs hfs
  have hname : name ∉ fs.names := fun hmem => hfs name hmem (by simp [Fields.names])
  show Except.ok (fs.put name e) = _
  rw [Fields.put_of_not_mem hname]
  rfl

/-- A field whose entry has to be got first. -/
theorem leaves_of_entry {name : String} {r : Result α} {f : α → Entry} (h : r = stored ns a) :
    Leaves (do Writing.put name (f (← liftM r))) ns [(name, f a)] := by
  intro fs hfs
  rw [from_lift_bind, h]
  exact stored_bind_ok (leaves_put name (f a) fs hfs)

theorem leaves_nat (name : String) (n : Nat) :
    Leaves (Writing.primitive name n) [n] [(name, .value (.int (Int64.ofInt n)))] := by
  apply leaves_of_entry
  show Value.ofInt n = _
  rw [Value.ofInt, isSigned_natCast, stored, outOfRange?]
  cases h : isStorable n
  · simp only [h, Bool.false_eq_true, if_false, Bool.not_false, List.find?_cons_of_pos]
    rfl
  · simp [h]

theorem leaves_value [Primitive α] (name : String) {x : α} {v : Value} (h : Primitive.toValue x = .ok v) :
    Leaves (Writing.primitive name x) [] [(name, .value v)] :=
  leaves_of_entry h

theorem leaves_object [Archivable α] (name : String) {x : α} {r : Record} (h : archive x = stored ns r) :
    Leaves (Writing.object name x) ns [(name, .record r)] :=
  leaves_of_entry h

theorem leaves_array [Archivable α] (name : String) {xs : List α} {g : α → List Nat} {r : α → Record}
    (h : ∀ x ∈ xs, archive x = stored (g x) (r x)) :
    Leaves (Writing.array name xs) (xs.flatMap g) [(name, .array (xs.map r))] :=
  leaves_of_entry (mapM_stored h)

theorem Leaves.followed {name : String} {e : Entry} {es : Fields Entry} {first second : Writing Unit}
    (h : Leaves first ns [(name, e)]) (h' : Leaves second ns' es) (fresh : name ∉ es.names) :
    Leaves (do first; second) (ns ++ ns') ((name, e) :: es) := by
  intro fs hfs
  rw [from_bind, h fs fun n hn hmem => hfs n hn (by simp_all [Fields.names])]
  refine stored_bind (f := fun fs => Reading.from fs second) ?_
  rw [h' (fs ++ [(name, e)]) ?_, List.append_assoc, List.singleton_append]
  intro n hn
  rw [Fields.names, List.map_append] at hn
  rcases List.mem_append.mp hn with hn | hn
  · intro hmem
    exact hfs n hn (List.mem_cons_of_mem _ hmem)
  · rw [List.mem_singleton.mp hn]
    exact fresh

theorem archive_of_leaves [Archivable α] {x : α} {es : Fields Entry} (h : Leaves (Archivable.write x) ns es) :
    archive x = stored ns (.mk (Describe.typeName x) es) := by
  have hrun : archive x = do return .mk (Describe.typeName x) (← Reading.from [] (Archivable.write x)) := by
    unfold archive Writing.toRecord Reading.from
    rcases (Archivable.write x).run.run [] with ⟨_ | ⟨⟩, fs⟩ <;> rfl
  rw [hrun, h [] (by simp [Fields.names])]
  exact stored_bind_ok rfl

end Archive

open Archive

/-! ### The records of spans, wires, outputs and predictors -/

namespace Span

def numbers (s : Span) : List Nat := [s.node, s.output, s.start, s.size]

def record (s : Span) : Record :=
  .mk typeName [("node", .value (.int (Int64.ofInt s.node))), ("output", .value (.int (Int64.ofInt s.output))),
    ("type", .value (.text s.type.name)), ("start", .value (.int (Int64.ofInt s.start))),
    ("size", .value (.int (Int64.ofInt s.size)))]

theorem archive_eq (s : Span) : archive s = stored s.numbers s.record := by
  have hstart := (leaves_nat "start" s.start).followed (leaves_nat "size" s.size) (by simp [Fields.names])
  have htype := (leaves_value "type" (x := s.type.name) rfl).followed hstart (by simp [Fields.names])
  have houtput := (leaves_nat "output" s.output).followed htype (by simp [Fields.names])
  exact archive_of_leaves ((leaves_nat "node" s.node).followed houtput (by simp [Fields.names]))

end Span

namespace Wire

def numbers (w : Wire) : List Nat := w.spans.flatMap Span.numbers

def record (w : Wire) : Record := .mk typeName [("ranges", .array (w.spans.map Span.record))]

theorem archive_eq (w : Wire) : archive w = stored w.numbers w.record :=
  archive_of_leaves (leaves_array _ fun s _ => s.archive_eq)

end Wire

namespace Output

def record (o : Output) : Record :=
  .mk typeName [("type", .value (.text o.type.name)), ("size", .value (.int (Int64.ofInt o.size)))]

theorem archive_eq (o : Output) : archive o = stored [o.size] o.record :=
  archive_of_leaves ((leaves_value "type" (x := o.type.name) rfl).followed (leaves_nat "size" o.size)
    (by simp [Fields.names]))

end Output

namespace LinearPredictor

def record (p : LinearPredictor) : Record :=
  .mk typeName [("weights", .value (.reals p.weights)), ("bias", .value (.real p.bias))]

theorem archive_eq (p : LinearPredictor) : archive p = stored [] p.record :=
  archive_of_leaves ((leaves_value "weights" (x := p.weights) rfl).followed (leaves_value "bias" (x := p.bias) rfl)
    (by simp [Fields.names]))

end LinearPredictor

/-! ### The records of nodes and models -/

/-- The numbers in the archive of a node, in the order in which they are written. -/
def Node.numbers {κ : Type} [Node κ] (n : κ) : List Nat :=
  (Node.inputs n).flatMap (·.wire.numbers) ++ (Node.outputs n).map (·.size)

def Signal.value : Signal → Value
  | real xs => .reals xs
  | int xs => .ints xs
  | bool xs => .bools xs

namespace Builtin

def fields (n : Builtin) : Fields Entry :=
  match n with
  | input .. => [("output", .record n.mainOutput.record)]
  | constant x => [("values", .value x.value), ("output", .record n.mainOutput.record)]
  | dot _ a b => [("input1", .record a.record), ("input2", .record b.record), ("output", .record n.mainOutput.record)]
  | binary _ op a b =>
    [("input1", .record a.record), ("input2", .record b.record), ("operation", .value (.text op.name)),
      ("output", .record n.mainOutput.record)]
  | linear x p =>
    [("input", .record x.record), ("output", .record n.mainOutput.record),
      ("weightedElements", .record (weightedOutput p).record), ("predictor", .record p.record)]

def record (n : Builtin) : Record := .mk n.typeName n.fields

theorem archive_eq (n : Builtin) : archive n = stored (Node.numbers n) n.record := by
  apply archive_of_leaves
  have houtput := leaves_object "output" n.mainOutput.archive_eq
  cases n with
  | input => exact houtput
  | constant x =>
    have hvalues : ∀ {w : Writing Unit}, Leaves w [] [("values", .value x.value)] →
        Leaves (do w; Writing.object "output" (constant x).mainOutput) (Node.numbers (constant x))
          (constant x).fields :=
      fun hw => hw.followed houtput (by simp [Fields.names])
    cases x with
    | real xs => exact (hvalues (leaves_value "values" (x := xs) rfl) :)
    | int xs => exact (hvalues (leaves_value "values" (x := xs) rfl) :)
    | bool xs => exact (hvalues (leaves_value "values" (x := xs) rfl) :)
  | dot t a b =>
    have hb := (leaves_object "input2" b.archive_eq).followed houtput (by simp [Fields.names])
    have ha := (leaves_object "input1" a.archive_eq).followed hb (by simp [Fields.names])
    have hnumbers : Node.numbers (dot t a b) = a.numbers ++ (b.numbers ++ [(dot t a b).mainOutput.size]) := by
      simp [Node.numbers, Node.inputs, Node.outputs, inputs, outputs]
    exact hnumbers ▸ ha
  | binary t op a b =>
    have hop := (leaves_value "operation" (x := op.name) rfl).followed houtput (by simp [Fields.names])
    have hb := (leaves_object "input2" b.archive_eq).followed hop (by simp [Fields.names])
    have ha := (leaves_object "input1" a.archive_eq).followed hb (by simp [Fields.names])
    have hnumbers : Node.numbers (binary t op a b) =
        a.numbers ++ (b.numbers ++ ([] ++ [(binary t op a b).mainOutput.size])) := by
      simp [Node.numbers, Node.inputs, Node.outputs, inputs, outputs]
    exact hnumbers ▸ ha
  | linear x p =>
    have hp := (leaves_object "weightedElements" (weightedOutput p).archive_eq).followed
      (leaves_object "predictor" p.archive_eq) (by simp [Fields.names])
    have hout := houtput.followed hp (by simp [Fields.names])
    have hx := (leaves_object "input" x.archive_eq).followed hout (by simp [Fields.names])
    have hnumbers : Node.numbers (linear x p) =
        x.numbers ++ ([(linear x p).mainOutput.size] ++ ([(weightedOutput p).size] ++ [])) := by
      simp [Node.numbers, Node.inputs, Node.outputs, inputs, outputs]
    exact hnumbers ▸ hx

end Builtin

namespace Model
variable {κ : Type} [Node κ]

def numbers (m : Model κ) : List Nat := m.nodes.flatMap Node.numbers

def record (m : Model Builtin) : Record := .mk typeName [("nodes", .array (m.nodes.map Builtin.record))]

theorem archive_eq (m : Model Builtin) : archive m = stored m.numbers m.record :=
  archive_of_leaves (leaves_array _ fun n _ => n.archive_eq)

end Model
end Dataflow
