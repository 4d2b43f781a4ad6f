import Dataflow.Proofs.Action
import Dataflow.Signal

/-! # Signals as lists of scalars

A signal is its element type and the list of its elements, so what slicing and appending do is said once
for the three element types. -/

namespace Dataflow

inductive Scalar where
  | real (x : Float)
  | int (n : Int64)
  | bool (b : Bool)

namespace Signal
variable {x y z : Signal}

def scalars : Signal → List Scalar
  | real xs => xs.map .real
  | int xs => xs.map .int
  | bool xs => xs.map .bool

@[simp] theorem length_scalars (x : Signal) : x.scalars.length = x.size := by
  cases x <;> simp [scalars, size]

@[simp] theorem type_empty (t : ElemType) : (empty t).type = t := by cases t <;> rfl

@[simp] theorem scalars_empty (t : ElemType) : (empty t).scalars = [] := by cases t <;> rfl

theorem ext_scalars (ht : x.type = y.type) (hs : x.scalars = y.scalars) : x = y := by
  cases x <;> cases y <;> simp only [type, reduceCtorEq] at ht
  · exact congrArg _ ((List.map_inj_right fun _ _ h => Scalar.real.inj h).mp hs)
  · exact congrArg _ ((List.map_inj_right fun _ _ h => Scalar.int.inj h).mp hs)
  · exact congrArg _ ((List.map_inj_right fun _ _ h => Scalar.bool.inj h).mp hs)

theorem eq_empty_of_size (h : x.size = 0) : x = empty x.type := by
  refine ext_scalars (type_empty _).symm ?_
  rw [scalars_empty, ← List.length_eq_zero_iff, length_scalars, h]

@[simp] theorem type_part {start size : Nat} : (x.part start size).type = x.type := by cases x <;> rfl

@[simp] theorem scalars_part {start size : Nat} : (x.part start size).scalars = (x.scalars.drop start).take size := by
  cases x <;> simp [part, scalars]

theorem slice_eq_ok {start size : Nat} : x.slice start size = .ok y ↔
    start + size ≤ x.size ∧ y.type = x.type ∧ y.scalars = (x.scalars.drop start).take size := by
  unfold slice
  by_cases h : start + size ≤ x.size
  · simp only [h, if_true, Except.ok.injEq, true_and]
    constructor
    · rintro rfl
      exact ⟨type_part, scalars_part⟩
    · rintro ⟨ht, hs⟩
      exact ext_scalars (type_part.trans ht.symm) (scalars_part.trans hs.symm)
  · simp only [h, if_false, false_and, iff_false]
    split <;> nofun

/-- With sizes of 64 bits only, it takes two comparisons of the end to tell whether the elements exist: with the
    size of the signal, and with the start, which an end that has wrapped around lies before. -/
theorem slice_eq_of_sizes {start size : Nat} (hx : x.size < Size.limit) (hsize : size < Size.limit) :
    x.slice start size =
      let stop := Size.add start size
      if x.size < stop then .error (.dimensionMismatch "port value slice" x.size stop)
      else if stop < start then .error (.crash s!"slice index starts at {start} but ends at {stop}")
      else .ok (x.part start (stop - start)) := by
  unfold slice
  dsimp only
  rcases Nat.lt_or_ge (start + size) Size.limit with hstop | hstop
  · rw [Size.add_eq hstop, Nat.add_sub_cancel_left]
    by_cases h : start + size ≤ x.size
    · rw [if_pos h, if_neg (by omega), if_neg (by omega)]
    · rw [if_neg h, if_pos (by omega), if_pos (by omega)]
  · rw [if_neg (by omega), if_pos (Size.add_lt hstop hsize)]

theorem append_eq_ok : x.append y = .ok z ↔
    x.type = y.type ∧ z.type = x.type ∧ z.scalars = x.scalars ++ y.scalars := by
  constructor
  · intro h
    cases x <;> cases y <;> simp only [append, Except.ok.injEq, reduceCtorEq] at h <;> subst h <;>
      simp [type, scalars]
  · rintro ⟨ht, hz, hs⟩
    cases x <;> cases y <;> simp only [type, reduceCtorEq] at ht <;>
      exact congrArg Except.ok (ext_scalars hz.symm (by rw [hs]; simp [scalars]))

theorem exists_slice {start size : Nat} (h : start + size ≤ x.size) : ∃ y, x.slice start size = .ok y :=
  ⟨_, if_pos h⟩

theorem exists_append (h : x.type = y.type) : ∃ z, x.append y = .ok z := by
  cases x <;> cases y <;> simp only [type, reduceCtorEq] at h <;> exact ⟨_, rfl⟩

theorem append_mismatch (h : x.type ≠ y.type) : x.append y = .error (.typeMismatch x.type.name y.type.name) := by
  cases x <;> cases y <;> first | rfl | exact absurd rfl h

end Signal

end Dataflow
