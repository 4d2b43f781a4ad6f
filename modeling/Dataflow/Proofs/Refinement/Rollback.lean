import Dataflow.Proofs.Refinement.Confined

/-! # Refinements that come to nothing

What a node did before it failed or declined to be refined is taken back. If every node maps none but its
own outputs, nothing was mapped for a node before its turn, so the transformer is again what it was, and
the whole pass goes on as if the node had declined at once. -/

namespace Dataflow

/-- The same nodes, except that whichever stands at `id` declines to be refined and does nothing. -/
@[reducible] def Refinable.declining {κ : Type} (R : Refinable κ) (id : Nat) : Refinable κ :=
  { R with refine := fun n k => if k = id then pure false else R.refine n k }

namespace Transformer
variable {κ α : Type} {id k : Nat}

section
variable [R : Refinable κ] {t u : Transformer κ} {n : κ} {source : Model κ}

theorem MapsOnly.refineNode (hcopy : MapsOnly id (Refinable.copy n id))
    (hrefine : MapsOnly id (Refinable.refine n id)) :
    MapsOnly id (refineNode n id) := by
  intro t p hp
  have hmapped := hrefine t
  rcases hrun : runFrom t (Refinable.refine n id) with ⟨r, u⟩
  rw [hrun] at hmapped
  by_cases hr : r = .ok true
  · subst hr
    rw [runFrom_refined hrun] at hp
    exact hmapped p hp
  · rw [runFrom_declined hrun hr] at hp
    rcases hcopy _ p hp with hp | hp
    · exact hmapped p (List.mem_filter.mp hp).1
    · exact .inr hp

/-- The transformers that a refinement pass over a model hands to its nodes, one after the other. -/
inductive Arrives (source : Model κ) : Nat → Transformer κ → Prop
  | start : Arrives source 0 (start source)
  | next {k : Nat} {n : κ} {t u : Transformer κ} : Arrives source k t → source.nodes[k]? = some n →
      runFrom t (refineNode n k) = (.ok (), u) → Arrives source (k + 1) u

/-- Copied or refined, every node of the model maps no outputs but its own, whatever else it does. -/
def MapOwn (source : Model κ) : Prop :=
  ∀ k n, source.nodes[k]? = some n → MapsOnly k (Refinable.copy n k) ∧ MapsOnly k (Refinable.refine n k)

/-- No output of a node is mapped before its turn. -/
theorem Arrives.keys_lt (h : Arrives source k t) (own : MapOwn source) : ∀ p ∈ t.outputMap, p.1.node < k := by
  induction h with
  | start => exact fun p hp => nomatch hp
  | @next k n t u _ hn hrun ih =>
    intro p hp
    obtain ⟨hcopy, hrefine⟩ := own k n hn
    have hmapped := hcopy.refineNode hrefine t p
    rw [hrun] at hmapped
    rcases hmapped hp with hp | hp
    · exact Nat.lt_succ_of_lt (ih p hp)
    · exact hp ▸ Nat.lt_succ_self k

theorem refineNode_declining_of_ne (h : k ≠ id) (n : κ) :
    @refineNode κ (R.declining id) n k = refineNode n k := by
  have hrefine : @Refinable.refine κ (R.declining id) n k = Refinable.refine n k := if_neg h
  unfold refineNode
  rw [hrefine]
  rfl

/-- A refinement that comes to nothing leaves the node to be copied into the target as it was before. -/
theorem Calls.runFrom_refineNode (h : Calls id t (runFrom t (Refinable.refine n id)).2)
    (hr : (runFrom t (Refinable.refine n id)).1 ≠ .ok true) (hfresh : ∀ p ∈ t.outputMap, p.1.node < id) :
    runFrom t (refineNode n id) = runFrom t (Refinable.copy n id) := by
  rcases hrun : runFrom t (Refinable.refine n id) with ⟨r, u⟩
  rw [hrun] at h hr
  rw [runFrom_declined hrun hr, h.rollback fun p hp => Nat.ne_of_lt (hfresh p hp)]

theorem runFrom_refineNode_declining (hfresh : ∀ p ∈ t.outputMap, p.1.node < id) :
    runFrom t (@refineNode κ (R.declining id) n id) = runFrom t (Refinable.copy n id) := by
  have hnothing : runFrom t (@Refinable.refine κ (R.declining id) n id) = (.ok false, t) := by
    show runFrom t (if id = id then pure false else R.refine n id) = _
    rw [if_pos rfl]
    rfl
  refine @Calls.runFrom_refineNode κ id (R.declining id) t n ?_ ?_ hfresh
  · rw [hnothing]
    exact .none
  · rw [hnothing]
    nofun

/-- If the refinement of a node fails or declines, after whatever calls for outputs of that node, then a
    pass ends as if the node had declined at once: with the same model or error, the same map of outputs
    and the same mark of whether a node was refined. -/
theorem refineModel_declining (own : MapOwn source)
    (declined : ∀ n t, source.nodes[id]? = some n → Arrives source id t →
      Calls id t (runFrom t (Refinable.refine n id)).2 ∧ (runFrom t (Refinable.refine n id)).1 ≠ .ok true)
    (s : Transformer κ) :
    runFrom s (refineModel source) = runFrom s (@refineModel κ (R.declining id) source) := by
  let turn (p : κ × Nat) : Transformation κ Unit := refineNode p.1 p.2
  let turn' (p : κ × Nat) : Transformation κ Unit := @refineNode κ (R.declining id) p.1 p.2
  have same : ∀ k p t, source.nodes.zipIdx[k]? = some p → Arrives source k t →
      runFrom t (turn p) = runFrom t (turn' p) := by
    rintro k ⟨n, k'⟩ t hp ht
    obtain ⟨hn, rfl⟩ := getElem?_zipIdx_inv hp
    by_cases hk : k' = id
    · subst hk
      have hfresh := ht.keys_lt own
      obtain ⟨hcalls, hr⟩ := declined n t hn ht
      exact (hcalls.runFrom_refineNode hr hfresh).trans (runFrom_refineNode_declining hfresh).symm
    · exact congrArg (runFrom t) (refineNode_declining_of_ne hk n).symm
  have next : ∀ k p t u, source.nodes.zipIdx[k]? = some p → Arrives source k t → runFrom t (turn p) = (.ok (), u) →
      Arrives source (k + 1) u := by
    rintro k ⟨n, k'⟩ t u hp ht hrun
    obtain ⟨hn, rfl⟩ := getElem?_zipIdx_inv hp
    exact ht.next hn hrun
  have hnodes : runFrom (start source) (source.nodes.zipIdx.forM turn) =
      runFrom (start source) (source.nodes.zipIdx.forM turn') :=
    runFrom_forM_congr same next .start
  show runFrom s (set (start source) >>= fun _ => source.nodes.zipIdx.forM turn >>= fun _ => finish source) =
    runFrom s (set (start source) >>= fun _ => source.nodes.zipIdx.forM turn' >>= fun _ => finish source)
  rw [runFrom_bind_ok runFrom_set, runFrom_bind_ok runFrom_set, runFrom_bind, runFrom_bind, hnodes]

end

/-- A predictor, and behind it a node that adds a constant, maps its output to it, and fails. -/
def failing : Model AnyNode where
  nodes := [
    .builtin (.constant (.real [2.0])),
    .builtin (.linear (.ofSpan (.whole ⟨0, 0⟩ .real 1)) ⟨[3.0], 0.5⟩),
    .scripted ⟨[.ofSpan (.whole ⟨1, 0⟩ .real 1)], [.real [1.0]], [(.real, 1)], .faithful, .fails⟩]

/-- The node is copied behind the constant and the parts of the predictor. -/
theorem pass_over_failing :
    runFrom .fresh (refineModel failing) =
      runFrom .fresh (@refineModel AnyNode (Refinable.declining inferInstance 2) failing) ∧
    ((runFrom .fresh (refineModel failing)).1.map Model.size) = .ok 7 ∧
    (runFrom .fresh (refineModel failing)).2.modified = true := by
  have own : MapOwn failing := fun k n _ => ⟨(AnyNode.confined n k).1.mapsOnly, (AnyNode.confined n k).2.mapsOnly⟩
  have declined : ∀ n t, failing.nodes[2]? = some n → Arrives failing 2 t →
      Calls 2 t (runFrom t (Refinable.refine n 2)).2 ∧ (runFrom t (Refinable.refine n 2)).1 ≠ .ok true := by
    intro n t hn _
    refine ⟨(AnyNode.confined n 2).2 t, ?_⟩
    cases hn
    exact AnyNode.refineScripted_ne (.inr (.inl rfl))
  exact ⟨refineModel_declining own declined _, by decide +kernel, by decide +kernel⟩

end Transformer
end Dataflow
