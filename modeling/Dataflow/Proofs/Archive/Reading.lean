import Dataflow.Proofs.Archive.Writing
import Dataflow.Proofs.Builtin.Made
import Dataflow.Proofs.Value

/-! # What is read back

The record of an object whose numbers are in range is read back as that object: a field holds what was
put there, the fresh object of its type name is of the same kind, the checks of its constructor pass, and
so do those of the outputs that were archived beside it. Whatever else a record holds, a model that is read
from it is well built. -/

namespace Dataflow
namespace Archive
variable {α : Type} {r s : Record} {name : String}

@[simp] theorem from_modify_bind {x : α} (f : α → α) (rest : Unit → Reading α Unit) :
    Reading.from x (modify f >>= rest) = Reading.from (f x) (rest ()) := rfl

@[simp] theorem from_modify {x : α} (f : α → α) : Reading.from x (modify f) = .ok (f x) := rfl

@[simp] theorem from_get_bind {x : α} (rest : α → Reading α Unit) :
    Reading.from x (get >>= rest) = Reading.from x (rest x) := rfl

theorem from_lift_eq_ok {β : Type} {x y : α} {result : Result β} {rest : β → Reading α Unit} :
    Reading.from x (liftM result >>= rest) = .ok y ↔ ∃ b, result = .ok b ∧ Reading.from x (rest b) = .ok y := by
  rw [from_lift_bind, Result.bind_eq_ok]

theorem from_lift_ok {β : Type} {x : α} {b : β} {result : Result β} {rest : β → Reading α Unit} (h : result = .ok b) :
    Reading.from x (liftM result >>= rest) = Reading.from x (rest b) := by
  rw [from_lift_bind, h, Result.ok_bind]

theorem from_tagged [Describe α] {x : α} {read : Record → Reading α Unit} (htype : r.type = Describe.typeName x) :
    Reading.from x (Reading.tagged r read) = Reading.from x (read r) := by
  unfold Reading.tagged
  rw [from_get_bind, if_pos htype]

theorem from_tagged_eq_ok [Describe α] {x y : α} {read : Record → Reading α Unit} :
    Reading.from x (Reading.tagged r read) = .ok y ↔
      r.type = Describe.typeName x ∧ Reading.from x (read r) = .ok y := by
  by_cases htype : r.type = Describe.typeName x
  · rw [from_tagged htype]
    exact (and_iff_right htype).symm
  · unfold Reading.tagged
    rw [from_get_bind, if_neg htype]
    exact ⟨(fun h => nomatch h), fun h => absurd h.1 htype⟩

theorem entry_eq_ok {e : Entry} : r.entry name = .ok e ↔ Fields.get? name r.fields = some e := by
  unfold Record.entry
  split <;> simp [*]

theorem value_eq_ok {v : Value} : r.value name = .ok v ↔ Fields.get? name r.fields = some (.value v) := by
  rw [Record.value, Result.bind_eq_ok, ← entry_eq_ok]
  constructor
  · rintro ⟨e, he, h⟩
    cases e <;> cases h
    exact he
  · exact fun h => ⟨_, h, rfl⟩

theorem record_eq_ok : r.record name = .ok s ↔ Fields.get? name r.fields = some (.record s) := by
  rw [Record.record, Result.bind_eq_ok, ← entry_eq_ok]
  constructor
  · rintro ⟨e, he, h⟩
    cases e <;> cases h
    exact he
  · exact fun h => ⟨_, h, rfl⟩

theorem array_eq_ok {items : List Record} :
    r.array name = .ok items ↔ Fields.get? name r.fields = some (.array items) := by
  rw [Record.array, Result.bind_eq_ok, ← entry_eq_ok]
  constructor
  · rintro ⟨e, he, h⟩
    cases e <;> cases h
    exact he
  · exact fun h => ⟨_, h, rfl⟩

theorem get_eq_ok [Primitive α] {x : α} : r.get α name = .ok x ↔
    ∃ v, Fields.get? name r.fields = some (.value v) ∧ Primitive.ofValue? v = some x := by
  simp only [Record.get, Result.bind_eq_ok, value_eq_ok, Value.get_eq_ok]

theorem object_eq_ok [Readable α] {x y : α} : r.object name x = .ok y ↔ ∃ s,
    Fields.get? name r.fields = some (.record s) ∧ s.type = Describe.typeName x ∧
      Reading.from x (Readable.read s) = .ok y := by
  rw [Record.object, Reading.object, from_lift_eq_ok]
  simp only [record_eq_ok, from_tagged_eq_ok]

theorem instantiate_eq [Readable α] {registry : Registry α} {x y : α} (hcreate : registry.create r.type = .ok x)
    (hread : Reading.from x (Readable.read r) = .ok y) : registry.instantiate r = .ok y := by
  rw [Registry.instantiate, hcreate]
  exact hread

theorem ofValue?_nat {n : Nat} (h : isStorable n = true) : Primitive.ofValue? (.int (Int64.ofInt n)) = some n := by
  have hle := isStorable_iff.mp h
  have hint : (Int64.ofInt n).toInt = n := Int64.toInt_ofInt_of_le (by omega) (by omega)
  exact (Primitive.Width.ofValue?_int_eq_some (w := .size)).mpr hint.symm

/-- A number that was archived under a name. -/
theorem get_nat {n : Nat} (hfield : Fields.get? name r.fields = some (.value (.int (Int64.ofInt n))))
    (h : isStorable n = true) : r.get Nat name = .ok n :=
  get_eq_ok.mpr ⟨_, hfield, ofValue?_nat h⟩

end Archive

open Archive

/-! ### Spans, wires, outputs and predictors -/

theorem Span.read_record {s : Span} (h : ∀ n ∈ s.numbers, isStorable n = true) (fresh : Span) :
    Reading.from fresh (Readable.read s.record) = .ok s := by
  have hnode : s.record.get Nat "node" = .ok s.node := get_nat rfl (h _ (by simp [numbers]))
  have houtput : s.record.get Nat "output" = .ok s.output := get_nat rfl (h _ (by simp [numbers]))
  have htype : s.record.get String "type" = .ok s.type.name := get_eq_ok.mpr ⟨_, rfl, rfl⟩
  have hstart : s.record.get Nat "start" = .ok s.start := get_nat rfl (h _ (by simp [numbers]))
  have hsize : s.record.get Nat "size" = .ok s.size := get_nat rfl (h _ (by simp [numbers]))
  simp only [Readable.read, from_lift_ok hnode, from_lift_ok houtput, from_lift_ok htype,
    from_lift_ok (ElemType.ofName_name s.type), from_lift_ok hstart, from_lift_ok hsize, from_modify_bind, from_modify]

namespace Wire
variable {r : Record} {name : String}

theorem ofSpans_spans (w : Wire) : ofSpans w.spans = .ok w := by
  obtain ⟨spans, huniform⟩ := w
  cases spans with
  | nil => rfl
  | cons s rest =>
    have hnone : rest.find? (fun t => t.type ≠ s.type) = none := by
      rw [List.find?_eq_none]
      intro t ht
      simp [huniform t (List.mem_cons_of_mem _ ht) s List.mem_cons_self]
    unfold ofSpans
    dsimp only
    split
    · rename_i hfind
      rw [hnone] at hfind
      cases hfind
    · rfl

theorem read_record {w : Wire} (h : ∀ n ∈ w.numbers, isStorable n = true) (fresh : Wire) :
    Reading.from fresh (Readable.read w.record) = .ok w := by
  have hranges : w.record.array "ranges" = .ok (w.spans.map Span.record) := array_eq_ok.mpr rfl
  have hspans : (w.spans.map Span.record).mapM (fun item => Reading.from (default : Span) (Readable.read item)) =
      .ok w.spans := by
    rw [Result.mapM_eq_ok, List.forall₂_map_left_iff, List.forall₂_same]
    exact fun s hs => Span.read_record (fun n hn => h n (List.mem_flatMap.mpr ⟨s, hs, hn⟩)) _
  exact (from_lift_ok hranges).trans ((from_lift_ok hspans).trans (from_lift_ok w.ofSpans_spans))

theorem wire_eq {w : Wire} {t : ElemType} (hfield : Fields.get? name r.fields = some (.record w.record))
    (h : ∀ n ∈ w.numbers, isStorable n = true) (ht : w.Carries t) : r.wire name t = .ok w := by
  have hobject : r.object name empty = .ok w := object_eq_ok.mpr ⟨_, hfield, rfl, w.read_record h _⟩
  rw [Record.wire, hobject, Result.ok_bind, checkType_eq_ok.mpr ht]
  rfl

end Wire

/-- The name is that of the output that is read into. -/
theorem Output.read_record {o fresh : Output} (h : isStorable o.size = true) (hname : fresh.name = o.name) :
    Reading.from fresh (Readable.read o.record) = .ok o := by
  have htype : o.record.get String "type" = .ok o.type.name := get_eq_ok.mpr ⟨_, rfl, rfl⟩
  have hsize : o.record.get Nat "size" = .ok o.size := get_nat rfl h
  simp only [Readable.read, from_lift_ok htype, from_lift_ok (ElemType.ofName_name o.type), from_lift_ok hsize,
    from_modify_bind, from_modify, hname]

theorem Archive.Record.checkOutput_eq_ok {r : Record} {o : Output}
    (hfield : Fields.get? o.name r.fields = some (.record o.record)) (h : isStorable o.size = true) :
    r.checkOutput o = .ok () := by
  have hstored : r.object o.name ({ o with type := .real, size := 0 } : Output) = .ok o :=
    object_eq_ok.mpr ⟨_, hfield, rfl, Output.read_record h rfl⟩
  rw [checkOutput, hstored]
  simp

theorem LinearPredictor.read_record (p fresh : LinearPredictor) :
    Reading.from fresh (Readable.read p.record) = .ok p := by
  have hweights : p.record.get (List Float) "weights" = .ok p.weights := get_eq_ok.mpr ⟨_, rfl, rfl⟩
  have hbias : p.record.get Float "bias" = .ok p.bias := get_eq_ok.mpr ⟨_, rfl, rfl⟩
  simp only [Readable.read, from_lift_ok hweights, from_lift_ok hbias, from_modify_bind, from_modify]

/-! ### Nodes -/

namespace Builtin
variable {n : Builtin}

/-- The fresh node of the type of a node. -/
def fresh : Builtin → Builtin
  | input .. => input .real 0
  | constant x => constant (.empty x.type)
  | dot t .. => dot t .empty .empty
  | binary t .. => binary t default .empty .empty
  | linear .. => linear .empty default

/-- Every kind of node that has a constructor is registered under its own name. -/
theorem create_kind : ∀ k ∈ kinds, k ≠ dot .bool .empty .empty → registry.create k.typeName = .ok k := by
  decide +kernel

theorem typeName_fresh (n : Builtin) : n.fresh.typeName = n.typeName := by
  cases n with
  | constant x => cases x <;> rfl
  | _ => rfl

theorem fresh_mem_kinds (n : Builtin) : n.fresh ∈ kinds := by
  cases n with
  | input | linear => simp [kinds, fresh]
  | constant x => cases x <;> simp [kinds, fresh, Signal.type]
  | dot t | binary t => cases t <;> simp [kinds, fresh]

theorem create_typeName (h : n.Made) : registry.create n.typeName = .ok n.fresh := by
  rw [← typeName_fresh]
  refine create_kind _ (fresh_mem_kinds n) ?_
  cases n with
  | dot t a b =>
    rintro ⟨⟩
    cases h.1
  | _ => simp [fresh]

/-- Each input is archived under its own name. -/
theorem get?_input {i : Input} (hi : i ∈ n.inputs) : Fields.get? i.name n.fields = some (.record i.wire.record) := by
  cases n with
  | input | constant => cases hi
  | dot | binary => rcases List.mem_pair.mp hi with rfl | rfl <;> rfl
  | linear =>
    rw [List.mem_singleton.mp hi]
    rfl

/-- Each output is archived under its own name. -/
theorem get?_output {o : Output} (ho : o ∈ n.outputs) : Fields.get? o.name n.fields = some (.record o.record) := by
  cases n with
  | linear => rcases List.mem_pair.mp ho with rfl | rfl <;> rfl
  | _ =>
    rw [List.mem_singleton.mp ho]
    rfl

section
variable (hstorable : ∀ k ∈ Node.numbers n, isStorable k = true)
include hstorable

theorem wire_input (h : n.Made) {i : Input} (hi : i ∈ n.inputs) : n.record.wire i.name i.type = .ok i.wire := by
  refine Wire.wire_eq (get?_input hi) (fun k hk => ?_) (h.carries hi)
  exact hstorable k (List.mem_append_left _ (List.mem_flatMap.mpr ⟨i, hi, hk⟩))

/-- What the reading of a node ends with: its outputs are those that were archived. -/
theorem from_become {fresh : Builtin} : Reading.from fresh (read.become n.record n) = .ok n := by
  have hcheck : n.outputs.forM n.record.checkOutput = .ok () := by
    rw [Result.forM_eq_ok]
    intro o ho
    exact Record.checkOutput_eq_ok (get?_output ho) (hstorable _ (List.mem_append_right _ (List.mem_map_of_mem ho)))
  have hrun : runFrom fresh (read.become n.record n) = (.ok (), n) := by
    unfold read.become
    rw [runFrom_bind_ok runFrom_set, runFrom_forM_lift, hcheck]
  unfold Reading.from
  rw [show (read.become n.record n).run.run fresh = _ from hrun]

theorem read_record (h : n.Made) : Reading.from n.fresh (Readable.read n.record) = .ok n := by
  have hwire : ∀ i ∈ n.inputs, n.record.wire i.name i.type = .ok i.wire := fun i => wire_input hstorable h
  have hbecome : ∀ fresh, Reading.from fresh (read.become n.record n) = .ok n := fun fresh => from_become hstorable
  show Reading.from n.fresh (read n.record) = .ok n
  cases n with
  | input t size =>
    have houtput : (input t size).record.object "output" (⟨"output", .real, 0⟩ : Output) = .ok ⟨"output", t, size⟩ :=
      object_eq_ok.mpr ⟨_, rfl, rfl,
        Output.read_record (hstorable _ (by simp [Node.numbers, Node.outputs, outputs, mainOutput])) rfl⟩
    exact from_lift_ok houtput
  | constant x =>
    unfold read
    rw [from_get_bind]
    cases x with
    | real xs =>
      have hvalues : (constant (.real xs)).record.get (List Float) "values" = .ok xs := get_eq_ok.mpr ⟨_, rfl, rfl⟩
      exact (from_lift_ok hvalues).trans (hbecome _)
    | int xs =>
      have hvalues : (constant (.int xs)).record.get (List Int64) "values" = .ok xs := get_eq_ok.mpr ⟨_, rfl, rfl⟩
      exact (from_lift_ok hvalues).trans (hbecome _)
    | bool xs =>
      have hvalues : (constant (.bool xs)).record.get (List Bool) "values" = .ok xs := get_eq_ok.mpr ⟨_, rfl, rfl⟩
      exact (from_lift_ok hvalues).trans (hbecome _)
  | dot t a b =>
    have ha := hwire ⟨"input1", t, a⟩ (by simp [inputs])
    have hb := hwire ⟨"input2", t, b⟩ (by simp [inputs])
    have hmake : makeDot t a b = .ok (dot t a b) := makeDot_eq_ok.mpr ⟨h, rfl⟩
    exact (from_lift_ok ha).trans ((from_lift_ok hb).trans ((from_lift_ok hmake).trans (hbecome _)))
  | binary t op a b =>
    have ha := hwire ⟨"input1", t, a⟩ (by simp [inputs])
    have hb := hwire ⟨"input2", t, b⟩ (by simp [inputs])
    have hop : (binary t op a b).record.get String "operation" = .ok op.name := get_eq_ok.mpr ⟨_, rfl, rfl⟩
    have hmake : makeBinary t op a b = .ok (binary t op a b) := makeBinary_eq_ok.mpr ⟨h, rfl⟩
    exact (from_lift_ok ha).trans ((from_lift_ok hb).trans ((from_lift_ok hop).trans
      ((from_lift_ok (Operation.ofName_name op)).trans ((from_lift_ok hmake).trans (hbecome _)))))
  | linear x p =>
    have hx := hwire ⟨"input", .real, x⟩ (by simp [inputs])
    have hp : (linear x p).record.object "predictor" (default : LinearPredictor) = .ok p :=
      object_eq_ok.mpr ⟨_, rfl, rfl, p.read_record _⟩
    have hmake : makeLinear x p = .ok (linear x p) := makeLinear_eq_ok.mpr ⟨h, rfl⟩
    exact (from_lift_ok hx).trans ((from_lift_ok hp).trans ((from_lift_ok hmake).trans (hbecome _)))

theorem instantiate_record (h : n.Made) : registry.instantiate n.record = .ok n :=
  instantiate_eq (create_typeName h) (read_record hstorable h)

end

end Builtin

/-! ### Models -/

namespace Model

section
variable {κ : Type} [Node κ] {m : Model κ} {registry : Registry κ} {r : Record}

/-- A record that holds a model has a list of its nodes, which pass the checks again. -/
theorem ofRecord_inv (h : ofRecord registry r = .ok m) : m.WellFormed ∧
    ∃ items, Fields.get? "nodes" r.fields = some (.array items) ∧
      List.Forall₂ (fun item n => registry.instantiate item = .ok n) items m.nodes := by
  obtain ⟨items, hitems, h⟩ := Result.bind_eq_ok.mp h
  obtain ⟨ns, hns, h⟩ := Result.bind_eq_ok.mp h
  obtain ⟨rfl, hm⟩ := (addAll_eq_ok wellFormed_empty).mp h
  exact ⟨hm, items, array_eq_ok.mp hitems, Result.mapM_eq_ok.mp hns⟩

theorem unarchive_eq_ok : unarchive registry r = .ok m ↔ r.type = typeName ∧ ofRecord registry r = .ok m := by
  have hread : Reading.from empty (read registry r) = .ok m ↔ ofRecord registry r = .ok m := by
    constructor
    · intro h
      obtain ⟨_, hm, h⟩ := from_lift_eq_ok.mp h
      cases h
      exact hm
    · exact from_lift_ok
  rw [unarchive, from_tagged_eq_ok, hread]
  rfl

end

/-- A model that is read from an archive, whatever the archive holds. -/
theorem wellBuilt_of_unarchive {m : Model Builtin} {registry : Registry Builtin} {r : Record}
    (h : unarchive registry r = .ok m) : m.WellBuilt := by
  obtain ⟨hm, items, -, hnodes⟩ := ofRecord_inv (unarchive_eq_ok.mp h).2
  refine ⟨hm, fun n hn => ?_⟩
  obtain ⟨item, -, hread⟩ := forall₂_of_mem hnodes.flip n hn
  obtain ⟨fresh, -, hreads⟩ := Builtin.instantiate_inv hread
  exact hreads.made

end Model
end Dataflow
