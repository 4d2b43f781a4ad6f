import Dataflow.Builtin.Basic
import Dataflow.Model.Archive
import Dataflow.Proofs.Model
import Dataflow.Proofs.Wire

/-! # Nodes that pass their checks

A constructor of a built-in node checks that its element type supports the operation, that its wires are
of the sizes that go together and that they carry its element type. Nodes read from an archive pass the
same checks, so a model that is put together from constructed nodes or read from an archive is well
formed and has only nodes that pass them. -/

namespace Dataflow

namespace Builtin
variable {n n' : Builtin} {t : ElemType} {op : Operation} {a b x : Wire} {p : LinearPredictor}

/-- What the constructor of a node checks. -/
def Made : Builtin → Prop
  | input .. | constant _ => True
  | dot t a b => t.supportsDot = true ∧ a.size = b.size ∧ a.Carries t ∧ b.Carries t
  | binary t op a b => t.supports op = true ∧ a.size = b.size ∧ a.Carries t ∧ b.Carries t
  | linear x p => x.size = p.dimension ∧ x.Carries .real

theorem makeDot_eq_ok : makeDot t a b = .ok n ↔ (dot t a b).Made ∧ n = dot t a b := by
  simp only [makeDot, Made, ← Wire.checkType_eq_ok]
  by_cases hs : t.supportsDot = true <;> by_cases hsize : a.size = b.size <;>
    simp [hs, hsize, Result.guard_eq_ok, @eq_comm _ n, and_assoc]

theorem makeBinary_eq_ok : makeBinary t op a b = .ok n ↔ (binary t op a b).Made ∧ n = binary t op a b := by
  simp only [makeBinary, Made, ← Wire.checkType_eq_ok]
  by_cases hs : t.supports op = true <;> by_cases hsize : a.size = b.size <;>
    simp [hs, hsize, Result.guard_eq_ok, @eq_comm _ n, and_assoc]

theorem makeLinear_eq_ok : makeLinear x p = .ok n ↔ (linear x p).Made ∧ n = linear x p := by
  simp only [makeLinear, Made, ← Wire.checkType_eq_ok]
  by_cases hsize : x.size = p.dimension <;> simp [hsize, Result.guard_eq_ok, @eq_comm _ n]

inductive Constructed : Builtin → Prop
  | input (t : ElemType) (size : Nat) : Constructed (.input t size)
  | constant (value : Signal) : Constructed (.constant value)
  | dot {t : ElemType} {a b : Wire} {n : Builtin} : makeDot t a b = .ok n → Constructed n
  | binary {t : ElemType} {op : Operation} {a b : Wire} {n : Builtin} : makeBinary t op a b = .ok n → Constructed n
  | linear {x : Wire} {p : LinearPredictor} {n : Builtin} : makeLinear x p = .ok n → Constructed n

theorem constructed_iff : n.Constructed ↔ n.Made := by
  constructor
  · intro h
    cases h with
    | input => trivial
    | constant => trivial
    | dot h =>
      obtain ⟨hmade, rfl⟩ := makeDot_eq_ok.mp h
      exact hmade
    | binary h =>
      obtain ⟨hmade, rfl⟩ := makeBinary_eq_ok.mp h
      exact hmade
    | linear h =>
      obtain ⟨hmade, rfl⟩ := makeLinear_eq_ok.mp h
      exact hmade
  · intro h
    cases n with
    | input t size => exact .input t size
    | constant value => exact .constant value
    | dot => exact .dot (makeDot_eq_ok.mpr ⟨h, rfl⟩)
    | binary => exact .binary (makeBinary_eq_ok.mpr ⟨h, rfl⟩)
    | linear => exact .linear (makeLinear_eq_ok.mpr ⟨h, rfl⟩)

theorem Made.carries {i : Input} (h : n.Made) (hi : i ∈ n.inputs) : i.wire.Carries i.type := by
  cases n with
  | input | constant => cases hi
  | dot | binary =>
    obtain ⟨-, -, ha, hb⟩ := h
    rcases List.mem_pair.mp hi with rfl | rfl
    · exact ha
    · exact hb
  | linear =>
    rw [List.mem_singleton.mp hi]
    exact h.2

/-! ### Reading nodes -/

/-- The values of a constant are those in a record. -/
def Stored (r : Archive.Record) : Signal → Prop
  | .real xs => r.get (List Float) "values" = .ok xs
  | .int xs => r.get (List Int64) "values" = .ok xs
  | .bool xs => r.get (List Bool) "values" = .ok xs

/-- The outputs of a node are those in a record. -/
def Checked (r : Archive.Record) (n : Builtin) : Prop := ∀ o ∈ n.outputs, r.checkOutput o = .ok ()

/-- What a record makes of a fresh node of each kind. -/
inductive Reads (r : Archive.Record) : Builtin → Builtin → Prop
  | input {t : ElemType} {size : Nat} {out : Output} :
      r.object "output" (⟨"output", .real, 0⟩ : Output) = .ok out → Reads r (.input t size) (.input out.type out.size)
  | constant {value x : Signal} : x.type = value.type → Stored r x → Checked r (.constant x) →
      Reads r (.constant value) (.constant x)
  | dot {t : ElemType} {a b x y : Wire} : r.wire "input1" t = .ok x → r.wire "input2" t = .ok y →
      (dot t x y).Made → Checked r (.dot t x y) → Reads r (.dot t a b) (.dot t x y)
  | binary {t : ElemType} {op op' : Operation} {a b x y : Wire} {name : String} :
      r.wire "input1" t = .ok x → r.wire "input2" t = .ok y → r.get String "operation" = .ok name →
      Operation.ofName name = .ok op' → (binary t op' x y).Made → Checked r (.binary t op' x y) →
      Reads r (.binary t op a b) (.binary t op' x y)
  | linear {a x : Wire} {p q : LinearPredictor} : r.wire "input" .real = .ok x →
      r.object "predictor" (default : LinearPredictor) = .ok q → (linear x q).Made → Checked r (.linear x q) →
      Reads r (.linear a p) (.linear x q)

theorem become_inv {r : Archive.Record} {s s' : Builtin} {u : Unit} (h : runFrom s (read.become r n) = (.ok u, s')) :
    s' = n ∧ Checked r n := by
  unfold read.become at h
  rw [runFrom_bind_ok runFrom_set, runFrom_forM_lift] at h
  exact ⟨(Prod.ext_iff.mp h).2.symm, Result.forM_eq_ok.mp (Prod.ext_iff.mp h).1⟩

theorem reads_of_read {r : Archive.Record} {u : Unit} (h : runFrom n (read r) = (.ok u, n')) : Reads r n n' := by
  unfold read at h
  rw [runFrom_bind_ok runFrom_get] at h
  cases n with
  | input t size =>
    obtain ⟨out, hout, h⟩ := runFrom_lift_inv h
    cases h
    exact .input hout
  | constant value =>
    dsimp only at h
    cases htype : value.type <;> rw [htype] at h <;> obtain ⟨xs, hxs, h⟩ := runFrom_lift_inv h <;>
      obtain ⟨rfl, hcheck⟩ := become_inv h <;> exact .constant htype.symm hxs hcheck
  | dot t a b =>
    obtain ⟨x, hx, h⟩ := runFrom_lift_inv h
    obtain ⟨y, hy, h⟩ := runFrom_lift_inv h
    obtain ⟨n, hn, h⟩ := runFrom_lift_inv h
    obtain ⟨rfl, hcheck⟩ := become_inv h
    obtain ⟨hmade, rfl⟩ := makeDot_eq_ok.mp hn
    exact .dot hx hy hmade hcheck
  | binary t op a b =>
    obtain ⟨x, hx, h⟩ := runFrom_lift_inv h
    obtain ⟨y, hy, h⟩ := runFrom_lift_inv h
    obtain ⟨name, hname, h⟩ := runFrom_lift_inv h
    obtain ⟨op', hop, h⟩ := runFrom_lift_inv h
    obtain ⟨n, hn, h⟩ := runFrom_lift_inv h
    obtain ⟨rfl, hcheck⟩ := become_inv h
    obtain ⟨hmade, rfl⟩ := makeBinary_eq_ok.mp hn
    exact .binary hx hy hname hop hmade hcheck
  | linear a p =>
    obtain ⟨x, hx, h⟩ := runFrom_lift_inv h
    obtain ⟨q, hq, h⟩ := runFrom_lift_inv h
    obtain ⟨n, hn, h⟩ := runFrom_lift_inv h
    obtain ⟨rfl, hcheck⟩ := become_inv h
    obtain ⟨hmade, rfl⟩ := makeLinear_eq_ok.mp hn
    exact .linear hx hq hmade hcheck

/-- A node that is read passes the checks of its constructor. -/
theorem Reads.made {r : Archive.Record} (h : Reads r n n') : n'.Made := by
  cases h with
  | input | constant => trivial
  | dot _ _ hmade _ => exact hmade
  | binary _ _ _ _ hmade _ => exact hmade
  | linear _ _ hmade _ => exact hmade

theorem instantiate_inv {registry : Registry Builtin} {r : Archive.Record} (h : registry.instantiate r = .ok n) :
    ∃ fresh, registry.create r.type = .ok fresh ∧ Reads r fresh n := by
  unfold Registry.instantiate Archive.Reading.from at h
  obtain ⟨fresh, hcreate, h⟩ := Result.bind_eq_ok.mp h
  split at h
  · cases h
    exact ⟨fresh, hcreate, reads_of_read ‹_›⟩
  · cases h

end Builtin

/-! ### Well-built models -/

structure Model.WellBuilt (m : Model Builtin) : Prop where
  wellFormed : m.WellFormed
  made : ∀ n ∈ m.nodes, n.Made

/-- A well-built model in which no sum of sizes wraps around. -/
structure Model.Proper (m : Model Builtin) : Prop extends m.WellBuilt where
  exact : m.Exact

namespace Model
variable {m m' : Model Builtin} {n : Builtin} {k : Nat}

theorem wellBuilt_empty : (empty : Model Builtin).WellBuilt := ⟨wellFormed_empty, by simp [empty]⟩

theorem WellBuilt.push (h : m.WellBuilt) (hn : n.Made) (hcheck : m.check m.size n = .ok ()) : (m.push n).WellBuilt where
  wellFormed := h.wellFormed.push hcheck
  made n' hn' := by
    rcases List.mem_append.mp hn' with hn' | hn'
    · exact h.made n' hn'
    · rw [List.mem_singleton.mp hn']
      exact hn

theorem WellBuilt.truncate (h : m.WellBuilt) : (m.truncate k).WellBuilt where
  wellFormed := h.wellFormed.truncate
  made n hn := h.made n (List.mem_of_mem_take hn)

theorem WellBuilt.add (h : m.WellBuilt) (hn : n.Made) (hadd : m.add n = .ok m') : m'.WellBuilt := by
  obtain ⟨hcheck, rfl⟩ := add_eq_ok.mp hadd
  exact h.push hn hcheck

theorem proper_empty : (empty : Model Builtin).Proper := ⟨wellBuilt_empty, exact_empty⟩

theorem Proper.push (h : m.Proper) (hn : n.Made) (hexact : Node.Exact n) (hcheck : m.check m.size n = .ok ()) :
    (m.push n).Proper where
  toWellBuilt := h.toWellBuilt.push hn hcheck
  exact := exact_push.mpr ⟨h.exact, hexact⟩

theorem Proper.truncate (h : m.Proper) : (m.truncate k).Proper where
  toWellBuilt := h.toWellBuilt.truncate
  exact n hn := h.exact n (List.mem_of_mem_take hn)

end Model

end Dataflow
