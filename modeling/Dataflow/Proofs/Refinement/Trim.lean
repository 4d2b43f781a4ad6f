import Dataflow.Proofs.Refinement.Rewire

/-! # Models without empty spans

Leaving the empty spans out of all wires of a model keeps its outputs, its checks and the value of every
node that has one. A node may have a value without its empty spans and none with them, for it no longer
reads the nodes that they name. -/

namespace Dataflow

theorem Evaluator.Yields.trim {given : Nat → Result (List Signal)} {t : ElemType} {w : Wire} {l : List Scalar}
    (h : Yields given t w.spans l) : Yields given t w.trim.spans l := by
  unfold Wire.trim
  simp only
  generalize w.spans = spans at h
  induction h with
  | nil => exact .nil
  | @cons s rest xs x l hn ho ht hs _ ih =>
    rcases Nat.eq_zero_or_pos s.size with hsize | hsize
    · have hwindow : s.window x = [] := by
        rw [← List.length_eq_zero_iff, Span.length_window hs, hsize]
      rw [List.filter_cons_of_neg (by simp [hsize]), hwindow]
      exact ih
    · rw [List.filter_cons_of_pos (by simp [hsize])]
      exact .cons hn ho ht hs ih

def Builtin.trim (n : Builtin) : Builtin := n.rewire Wire.trim

namespace Builtin
variable {n : Builtin}

@[simp] theorem isInput_trim : Node.isInput n.trim = Node.isInput n := isInput_rewire

@[simp] theorem outputs_trim : Node.outputs n.trim = Node.outputs n := outputs_rewire fun _ _ => Wire.size_trim

theorem Made.trim (h : n.Made) : n.trim.Made := h.rewire (fun _ _ => Wire.size_trim) fun _ hi => (h.carries hi).trim

theorem mem_spans_trim {s : Span} : s ∈ Node.spans n.trim ↔ s ∈ Node.spans n ∧ 0 < s.size := by
  rw [trim, mem_spans_rewire]
  constructor
  · rintro ⟨i, hi, hs⟩
    obtain ⟨hs, hpos⟩ := Wire.mem_trim.mp hs
    exact ⟨List.mem_flatMap.mpr ⟨i, hi, hs⟩, hpos⟩
  · rintro ⟨hs, hpos⟩
    obtain ⟨i, hi, hs⟩ := List.mem_flatMap.mp hs
    exact ⟨i, hi, Wire.mem_trim.mpr ⟨hs, hpos⟩⟩

theorem rewirable_trim (n : Builtin) : n.Rewirable Wire.trim where
  outputs := outputs_trim
  spans u hu := ⟨u, (mem_spans_trim.mp hu).1, rfl, rfl, rfl⟩

theorem trim_eq_self (h : ∀ s ∈ Node.spans n, 0 < s.size) : n.trim = n := by
  have hwire : ∀ i ∈ n.inputs, i.wire.trim = i.wire := fun i hi =>
    Wire.trim_eq_self fun s hs => h s (List.mem_flatMap.mpr ⟨i, hi, hs⟩)
  calc n.trim = n.rewire id := rewire_congr hwire
    _ = n := by cases n <;> rfl

theorem arguments_trim {given : Nat → Result (List Signal)} {args : List Signal} (h : Model.Arguments given n args) :
    Model.Arguments given n.trim args := by
  refine arguments_rewire.mpr (List.Forall₂.imp (fun i x hx => ?_) h)
  obtain ⟨ht, hy⟩ := Evaluator.gather_eq_ok.mp hx
  exact Evaluator.gather_eq_ok.mpr ⟨ht, hy.trim⟩

end Builtin

namespace Model
variable {m : Model Builtin} {n : Builtin} {b a : Nat → Option Signal} {id : Nat} {xs : List Signal}

def trim (m : Model Builtin) : Model Builtin := m.rewire Wire.trim

@[simp] theorem size_trim : m.trim.size = m.size := size_rewire

theorem trim_push : (m.push n).trim = m.trim.push n.trim := rewire_push

theorem rewirable_trim : ∀ n ∈ m.nodes, n.Rewirable Wire.trim := fun n _ => n.rewirable_trim

theorem declares_trim {o : Outlet} {out : Output} : m.trim.Declares o out ↔ m.Declares o out :=
  declares_rewire rewirable_trim

theorem WellFormed.trim (h : m.WellFormed) : m.trim.WellFormed := h.rewire rewirable_trim

theorem WellBuilt.trim (h : m.WellBuilt) : m.trim.WellBuilt where
  wellFormed := h.wellFormed.trim
  made n' hn' := by
    obtain ⟨n, hn, rfl⟩ := List.mem_map.mp hn'
    exact (h.made n hn).trim

theorem Proper.trim (h : m.Proper) : m.trim.Proper where
  toWellBuilt := h.toWellBuilt.trim
  exact n' hn' := by
    obtain ⟨n, hn, rfl⟩ := List.mem_map.mp hn'
    refine ⟨fun s hs => (h.exact n hn).spans s (Builtin.mem_spans_trim.mp hs).1, ?_⟩
    rw [n.rewirable_trim.outputs]
    exact (h.exact n hn).outputs

theorem rank_trim : m.trim.rank id = m.rank id := rank_rewire

/-- What has a value keeps it when empty spans are left out. -/
theorem under_trim (hm : m.WellFormed) (h : m.under a id = .ok xs) : m.trim.under a id = .ok xs :=
  under_rewire hm rewirable_trim (fun _ _ _ => Builtin.arguments_trim) h

end Model
end Dataflow
