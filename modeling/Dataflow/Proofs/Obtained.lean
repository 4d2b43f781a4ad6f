import Dataflow.Proofs.Archive.Reading
import Dataflow.Proofs.Builtin.Progress
import Dataflow.Proofs.Refinement.Reachable

/-! # Models that can be obtained

A model of built-in nodes is put together node by node, read from an archive, or made from another one by
copying or refining it. Every such model is well built. So whatever its evaluator was asked before, and
whatever was bound, an output has the type and size that it declares, unless an input holds no signal, a
computation fails, or a sum of sizes wraps around. -/

namespace Dataflow

/-- The models of built-in nodes that there are ways to get. -/
inductive Obtained : Model Builtin → Prop
  | empty : Obtained .empty
  | add {m m' : Model Builtin} {n : Builtin} : Obtained m → n.Constructed → m.add n = .ok m' → Obtained m'
  | unarchived {m : Model Builtin} {r : Archive.Record} : Model.unarchive Builtin.registry r = .ok m → Obtained m
  | copied {m m' : Model Builtin} {f : OutputMap} : Obtained m → Refinement.copy m = .ok (m', f) → Obtained m'
  | refined {m : Model Builtin} {limit : Nat} {r : Refinement Builtin} :
      Obtained m → Refinement.run limit m = .ok r → Obtained r.model

namespace Obtained
variable {m : Model Builtin}

theorem wellBuilt (h : Obtained m) : m.WellBuilt := by
  induction h with
  | empty => exact Model.wellBuilt_empty
  | add _ hn hadd ih => exact ih.add (Builtin.constructed_iff.mp hn) hadd
  | unarchived h => exact Model.wellBuilt_of_unarchive h
  | copied _ hcopy => exact Refinement.wellBuilt_of_copy hcopy
  | refined _ hrun ih => exact Refinement.wellBuilt_of_run ih hrun

theorem proper (h : Obtained m) (hexact : m.Exact) : m.Proper := ⟨h.wellBuilt, hexact⟩

theorem quotients : Obtained Evaluator.quotients := by
  let whole id := Wire.ofSpan (.whole ⟨id, 0⟩ .int 1)
  have h₀ := Obtained.add .empty (.input .int 1) rfl
  have h₁ := h₀.add (.constant (.int [7])) rfl
  have hquotient : Builtin.makeBinary .int .divide (whole 1) (whole 0) = .ok _ := rfl
  have hsum : Builtin.makeBinary .int .add (whole 2) (whole 1) = .ok _ := rfl
  exact (h₁.add (.binary hquotient) rfl).add (.binary hsum) rfl

/-- Where no sum of sizes wraps around, asking for a declared output gives a signal of its type and size, or fails
    because an input is unbound or because a computation fails, and in no other way. -/
theorem output_fits_or_fails (hm : Obtained m) (hsum : m.Summed) (calls : List Call) {o : Outlet} {out : Output}
    (ho : m.Declares o out) :
    let answer := (runFrom (m.evaluator.after calls) (Evaluator.computeOutput o)).1
    (∃ x, answer = .ok x ∧ x.type = out.type ∧ x.size = out.size) ∨
      (∃ id, answer = .error (.unboundInput id)) ∨ ∃ reason, answer = .error (.compute reason) := by
  intro answer
  have h : (m.evaluator.after calls).Serves m := Evaluator.serves_after hm.wellBuilt.wellFormed calls
  -- Between calls, what is bound to an input node is of its type and size.
  have hsafe : answer.Safe out.Fits := by
    show Result.Safe out.Fits (runFrom (m.evaluator.after calls) (Evaluator.computeOutput o)).1
    rw [Evaluator.answer_output h.sound, h.model]
    exact hm.wellBuilt.safe_output hsum (fun _ _ hx => h.accepts hx) ho
  rcases hanswer : answer with err | x
  · rw [hanswer] at hsafe
    cases err with
    | unboundInput id => exact .inr (.inl ⟨id, rfl⟩)
    | compute reason => exact .inr (.inr ⟨reason, rfl⟩)
    | _ => cases hsafe
  · rw [hanswer] at hsafe
    exact .inl ⟨x, rfl, hsafe⟩

/-- The quotient of seven by two and seven more. -/
theorem output_of_quotients :
    let answer :=
      (runFrom (Evaluator.quotients.evaluator.after [.bindAll (.int [2])]) (Evaluator.computeOutput ⟨3, 0⟩)).1
    ((∃ x, answer = .ok x ∧ x.type = .int ∧ x.size = 1) ∨
      (∃ id, answer = .error (.unboundInput id)) ∨ ∃ reason, answer = .error (.compute reason)) ∧
    answer = .ok (.int [10]) := by
  have hdeclares : Evaluator.quotients.Declares ⟨3, 0⟩ ⟨"output", .int, 1⟩ := ⟨_, rfl, rfl⟩
  exact ⟨output_fits_or_fails quotients (by decide) [.bindAll (.int [2])] hdeclares, by decide⟩

end Obtained
end Dataflow
