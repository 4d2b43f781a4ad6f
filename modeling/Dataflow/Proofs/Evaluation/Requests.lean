import Dataflow.Proofs.Evaluation.Dependence
import Dataflow.Proofs.Evaluation.Search
import Mathlib.Data.Set.Card

/-! # What requests evaluate

An evaluator evaluates a node only when a request needs it. Since a signal was last bound, it has evaluated
the cones of the nodes that it was asked for; where a request failed, it has evaluated that part of the cone
which comes before the first node that fails. -/

namespace Dataflow
namespace Model
variable {κ : Type} [Node κ] {m : Model κ} {b : Nat → Option Signal} {id j k : Nat} {err : Error}

/-- Of the nodes that a node depends on, the first that fails is `j`. -/
structure FailsFirst (m : Model κ) (bound : Nat → Option Signal) (id j : Nat) (err : Error) : Prop where
  depends : m.DependsOn id j
  fails : m.values bound j = .error err
  first : ∀ k, m.DependsOn id k → k < j → ∃ xs, m.values bound k = .ok xs

/-- A request for a node succeeds if no node of the cone fails, and fails otherwise with the first that does. -/
theorem demand_cases (hm : m.WellFormed) (b : Nat → Option Signal) (id : Nat) :
    discard (m.demand b id) = .ok () ∧ (∀ k, m.DependsOn id k → ∃ xs, m.values b k = .ok xs) ∨
      ∃ j err, discard (m.demand b id) = .error err ∧ m.FailsFirst b id j err := by
  have hsorted : (m.cone id).Pairwise (· < ·) := Evaluator.pairwise_pending
  unfold demand
  rcases hall : (m.cone id).forM (fun k => discard (m.values b k)) with err | _
  · obtain ⟨before, j, behind, hcone, hj, hbefore⟩ := Result.forM_error_inv hall
    have hmem : ∀ k, m.DependsOn id k ↔ k ∈ before ∨ k = j ∨ k ∈ behind := fun k => by
      rw [← mem_cone hm, hcone, List.mem_append, List.mem_cons]
    refine .inr ⟨j, err, rfl, (hmem j).mpr (.inr (.inl rfl)), ?_, fun k hk hlt => ?_⟩
    · rcases hv : m.values b j with err' | xs <;> rw [hv] at hj <;> cases hj
      rfl
    · rw [hcone, List.pairwise_append, List.pairwise_cons] at hsorted
      rcases (hmem k).mp hk with hk | rfl | hk
      · exact Evaluator.discard_eq_ok.mp (hbefore k hk)
      · exact absurd hlt (Nat.lt_irrefl k)
      · exact absurd (Nat.lt_trans hlt (hsorted.2.1.1 k hk)) (Nat.lt_irrefl k)
  · have hok : ∀ k, m.DependsOn id k → ∃ xs, m.values b k = .ok xs := fun k hk =>
      Evaluator.discard_eq_ok.mp (Result.forM_eq_ok.mp hall k ((mem_cone hm).mpr hk))
    obtain ⟨xs, hxs⟩ := hok id .refl
    refine .inl ⟨?_, hok⟩
    rw [Result.ok_bind, hxs]
    rfl

/-- A request evaluates the whole cone if it succeeds, and else what comes before the first failure in it. -/
theorem evaluates_iff (hm : m.WellFormed) : m.Evaluates b id k ↔ m.DependsOn id k ∧
    (discard (m.demand b id) = .ok () ∨ ∃ j err, discard (m.demand b id) = .error err ∧ m.FailsFirst b id j err ∧
      k < j) := by
  unfold Evaluates
  simp only [mem_cone hm]
  refine and_congr_right fun hk => ?_
  rcases demand_cases hm b id with ⟨hdemand, hok⟩ | ⟨j, err, hdemand, hj⟩
  · exact ⟨fun _ => .inl hdemand, fun _ i hi _ => hok i hi⟩
  constructor
  · intro hbefore
    refine .inr ⟨j, err, hdemand, hj, Nat.lt_of_not_le fun hle => ?_⟩
    obtain ⟨xs, hxs⟩ := hbefore j hj.depends hle
    cases hj.fails.symm.trans hxs
  · rintro (h | ⟨j', _, -, hj', hlt⟩) i hi hle
    · cases hdemand.symm.trans h
    · exact hj'.first i hi (Nat.lt_of_le_of_lt hle hlt)

/-- An output that is declared fails only where its node does. -/
theorem discard_demandOutput {o : Outlet} {out : Output} (ho : m.Declares o out) :
    discard (m.demandOutput b o) = discard (m.demand b o.node) := by
  unfold demandOutput
  rcases hd : m.demand b o.node with err | xs
  · rfl
  · obtain ⟨x, hx, -⟩ := values_declared (Evaluator.values_of_demand hd) ho
    rw [Result.ok_bind, hx]
    rfl

end Model

namespace Evaluator
variable {κ : Type} [Node κ] {m : Model κ} {e e' : Evaluator κ} {requests : List (Nat × Result Unit)} {id k : Nat}
    {x : Signal}

/-- How an evaluator of a model comes about, with the nodes that it has been asked for, and how each request
    ended, since a signal was last bound. -/
inductive History (m : Model κ) : (requests : List (Nat × Result Unit)) → (e : Evaluator κ) → Prop
  | new : History m [] m.evaluator
  | bound {requests : List (Nat × Result Unit)} {e e' : Evaluator κ} {id : Nat} {x : Signal}
      (before : History m requests e) (run : runFrom e (bind id x) = (.ok (), e')) : History m [] e'
  | refused {requests : List (Nat × Result Unit)} {e e' : Evaluator κ} {id : Nat} {x : Signal} {err : Error}
      (before : History m requests e) (run : runFrom e (bind id x) = (.error err, e')) : History m requests e'
  | output {requests : List (Nat × Result Unit)} {e e' : Evaluator κ} {o : Outlet} {out : Output}
      {answer : Result Signal}
      (before : History m requests e) (declared : m.Declares o out) (run : runFrom e (computeOutput o) = (answer, e')) :
      History m ((o.node, discard answer) :: requests) e'
  | node {requests : List (Nat × Result Unit)} {e e' : Evaluator κ} {id : Nat} {answer : Result (List Signal)}
      (before : History m requests e) (present : id < m.size) (run : runFrom e (evaluate id) = (answer, e')) :
      History m ((id, discard answer) :: requests) e'

/-- What an evaluator is like that has been asked for some nodes since a signal was last bound. -/
structure Asked (m : Model κ) (requests : List (Nat × Result Unit)) (e : Evaluator κ) : Prop extends Serves e m where
  outcomes : ∀ p ∈ requests, p.2 = discard (m.demand e.bound p.1)
  cached : ∀ k, e.isCached k = true ↔ ∃ p ∈ requests, m.Evaluates e.bound p.1 k

theorem Asked.continues {outcome : Result Unit} (h : Asked m requests e) (hcont : Continues e e')
    (hcached : ∀ k, e'.isCached k = true ↔ e.isCached k = true ∨ e.model.Evaluates e.bound id k)
    (houtcome : outcome = discard (m.demand e.bound id)) : Asked m ((id, outcome) :: requests) e' where
  toServes := h.toServes.continues hcont
  outcomes := by
    rw [hcont.bound]
    exact List.forall_mem_cons.mpr ⟨houtcome, h.outcomes⟩
  cached k := by
    rw [hcached, h.cached, hcont.bound, h.model, or_comm]
    simp [or_and_right, exists_or]

theorem History.asked (hm : m.WellFormed) (h : History m requests e) : Asked m requests e := by
  induction h with
  | new => exact ⟨serves_after hm [], by simp, by simp [isCached, Model.evaluator]⟩
  | @bound requests e e' id x _ hrun ih =>
    rcases runFrom_bind_input e id x with ⟨haccepts, h⟩ | ⟨-, err, h⟩ <;> cases hrun.symm.trans h
    exact ⟨ih.toServes.hold haccepts, by simp, by simp [isCached, hold]⟩
  | @refused requests e e' id x err _ hrun ih =>
    rcases runFrom_bind_input e id x with ⟨-, h⟩ | ⟨-, err, h⟩ <;> cases hrun.symm.trans h
    exact ih
  | @output requests e e' o out answer _ hdeclared hrun ih =>
    obtain ⟨_, h, hcont, hcached⟩ := ih.sound.computeOutput o
    cases hrun.symm.trans h
    exact ih.continues hcont hcached (by rw [ih.model, Model.discard_demandOutput hdeclared])
  | @node requests e e' id answer _ _ hrun ih =>
    obtain ⟨_, h, hcont, hcached⟩ := ih.sound.evaluate id
    cases hrun.symm.trans h
    exact ih.continues hcont hcached (by rw [ih.model])

theorem Sound.evaluated_eq (h : e.Sound) : e.evaluated = {k | e.isCached k = true}.ncard := by
  have hkeys : {k | e.isCached k = true} = ((e.cache.map (·.1)).toFinset : Set Nat) := by
    ext k
    simp [isCached_iff_mem]
  rw [hkeys, Set.ncard_coe_finset, List.toFinset_card_of_nodup h.once, List.length_map]
  rfl

/-- The nodes that have been evaluated, and counted, are the cones of the requests since a signal was last
    bound, up to the first node that fails in each. A request computes the part of its cone that is missing,
    which is what a search that stops at cached nodes finds, and no other node. -/
theorem evaluated_exactly (hm : m.Built) (h : History m requests e) :
    (∀ k, e.isCached k = true ↔ ∃ p ∈ requests, m.DependsOn p.1 k ∧
      (p.2 = .ok () ∨ ∃ j err, p.2 = .error err ∧ m.FailsFirst e.bound p.1 j err ∧ k < j)) ∧
    (∀ p ∈ requests, p.2 = .ok () ∨ ∃ j err, p.2 = .error err ∧ m.FailsFirst e.bound p.1 j err) ∧
    e.evaluated = {k | e.isCached k = true}.ncard ∧
    ∀ id < m.size, (∀ k, k ∈ e.pending id ↔ m.DependsOn id k ∧ e.isCached k = false) ∧
      (e.search [id] []).map (·.mergeSort) = .ok (e.pending id) := by
  have hasked := h.asked hm.wellFormed
  refine ⟨fun k => ?_, fun p hp => ?_, hasked.sound.evaluated_eq, fun id hid => ⟨fun k => ?_, ?_⟩⟩
  · rw [hasked.cached]
    refine exists_congr fun p => and_congr_right fun hp => ?_
    rw [Model.evaluates_iff hm.wellFormed, ← hasked.outcomes p hp]
  · rw [hasked.outcomes p hp]
    exact (Model.demand_cases hm.wellFormed e.bound p.1).imp And.left id
  · rw [hasked.sound.mem_pending_iff, hasked.model, Model.mem_cone hm.wellFormed]
  · exact sorted_search hasked.sound.wellFormed (hasked.model ▸ hid)

/-- A request that fails by a division by zero leaves what the division reads, which a later request finds. -/
theorem quotients_evaluated :
    let requests := [(1, .ok ()), (3, .error (.compute "integer division by zero"))]
    ∃ e, History quotients requests e ∧ e.cache.map (·.1) = [1, 0] ∧
      (∀ k, e.isCached k = true ↔ ∃ p ∈ requests, quotients.DependsOn p.1 k ∧
        (p.2 = .ok () ∨ ∃ j err, p.2 = .error err ∧ quotients.FailsFirst e.bound p.1 j err ∧ k < j)) ∧
      e.evaluated = {k | e.isCached k = true}.ncard ∧ (e.search [3] []).map (·.mergeSort) = .ok [2, 3] := by
  let e₁ := (runFrom quotients.evaluator (bind 0 (.int [0]))).2
  let e₂ := (runFrom e₁ (computeOutput ⟨3, 0⟩)).2
  let e₃ := (runFrom e₂ (evaluate 1)).2
  have hbind : runFrom quotients.evaluator (bind 0 (.int [0])) = (.ok (), e₁) := Prod.ext (by decide) rfl
  have hfails : runFrom e₁ (computeOutput ⟨3, 0⟩) = (.error (.compute "integer division by zero"), e₂) :=
    Prod.ext (by decide) rfl
  have hfound : runFrom e₂ (evaluate 1) = (.ok [.int [7]], e₃) := Prod.ext (by decide) rfl
  have h := ((History.new.bound hbind).output ⟨_, rfl, rfl⟩ hfails).node (by decide) hfound
  obtain ⟨hcached, -, hcount, hmissing⟩ := evaluated_exactly quotients_built h
  exact ⟨e₃, h, by decide, hcached, hcount, (hmissing 3 (by decide)).2.trans (by decide)⟩

end Evaluator
end Dataflow
