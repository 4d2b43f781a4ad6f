import Dataflow.Proofs.Evaluation.Cone
import Mathlib.Data.Finset.Card

/-! # Searching for what must be computed

The nodes that must be computed for a node can be found without an order of the nodes: they are visited from
a stack, on which every visited node puts the nodes that it reads from, and cached nodes are passed over as
visited ones are. Whatever is shared and whatever is cached, the search comes to an end and has then visited
what the sweep over the nodes in their order finds. -/

namespace Dataflow
namespace Evaluator
variable {κ : Type} {e : Evaluator κ} {m : Model κ} {id j k : Nat} {stack visited : List Nat}

/-- The number of nodes of a model that have not been visited. -/
def unvisited (m : Model κ) (visited : List Nat) : Nat := (Finset.range m.size \ visited.toFinset).card

theorem unvisited_cons_lt (hid : id < m.size) (h : id ∉ visited) :
    unvisited m (id :: visited) < unvisited m visited := by
  rw [unvisited, List.toFinset_cons, Finset.sdiff_insert]
  exact Finset.card_erase_lt_of_mem (by simp [hid, h])

theorem node_lt {n : κ} (h : m.node id = .ok n) : id < m.size :=
  (List.getElem?_eq_some_iff.mp (Model.node_eq_ok.mp h)).1

variable [Node κ]

/-- Visits the nodes on a stack, and what they read from, but for those that are cached or visited. -/
def search (e : Evaluator κ) : (stack visited : List Nat) → Result (List Nat)
  | [], visited => .ok visited
  | id :: stack, visited =>
    if _h : e.isCached id = true ∨ id ∈ visited then search e stack visited
    else match _hn : e.model.node id with
      | .error err => .error err
      | .ok _ => search e ((sources e.model id).reverse ++ stack) (id :: visited)
termination_by stack visited => (unvisited e.model visited, stack.length)
decreasing_by
  · exact .right _ (Nat.lt_succ_self _)
  · exact .left _ _ (unvisited_cons_lt (node_lt _hn) (not_or.mp _h).2)

/-- What a visited node reads from is cached, or has been visited, or will be. -/
def Explored (e : Evaluator κ) (stack visited : List Nat) : Prop :=
  ∀ v ∈ visited, ∀ j ∈ sources e.model v, e.isCached j = true ∨ j ∈ visited ∨ j ∈ stack

theorem Explored.skip (h : Explored e (id :: stack) visited) (hid : e.isCached id = true ∨ id ∈ visited) :
    Explored e stack visited := by
  intro v hv j hj
  rcases h v hv j hj with hc | hj | hj
  · exact .inl hc
  · exact .inr (.inl hj)
  · rcases List.mem_cons.mp hj with rfl | hj
    · exact hid.imp_right .inl
    · exact .inr (.inr hj)

theorem Explored.visit (h : Explored e (id :: stack) visited) :
    Explored e ((sources e.model id).reverse ++ stack) (id :: visited) := by
  intro v hv j hj
  rcases List.mem_cons.mp hv with rfl | hv
  · exact .inr (.inr (by simp [hj]))
  · rcases h v hv j hj with hc | hj | hj
    · exact .inl hc
    · exact .inr (.inl (List.mem_cons_of_mem _ hj))
    · rcases List.mem_cons.mp hj with rfl | hj
      · exact .inr (.inl List.mem_cons_self)
      · exact .inr (.inr (List.mem_append_right _ hj))

/-- A path from a visited node leaves the visited nodes over the stack. -/
theorem Explored.needs (h : Explored e stack visited) (hid : id ∈ visited) (hn : Needs e id k) :
    k ∈ visited ∨ ∃ w ∈ stack, Needs e w k := by
  induction hn with
  | self => exact .inl hid
  | read _ hj hn ih =>
    rcases h _ hid _ hj with hc | hj | hj
    · rw [hn.first] at hc
      cases hc
    · exact ih hj
    · exact .inr ⟨_, hj, hn⟩

theorem needs_iff (hid : e.isCached id = false) : Needs e id k ↔ k = id ∨ ∃ j ∈ sources e.model id, Needs e j k := by
  constructor
  · intro h
    cases h with
    | self => exact .inl rfl
    | read _ hj hn => exact .inr ⟨_, hj, hn⟩
  · rintro (rfl | ⟨j, hj, hn⟩)
    · exact .self hid
    · exact .read hid hj hn

/-- A search from a stack of nodes of the model visits, each once, what they need. -/
theorem search_spec (hm : e.model.WellFormed) (hstack : ∀ w ∈ stack, w < e.model.size) (hvisited : visited.Nodup)
    (hexplored : Explored e stack visited) : ∃ found, e.search stack visited = .ok found ∧ found.Nodup ∧
      ∀ k, k ∈ found ↔ k ∈ visited ∨ ∃ w ∈ stack, Needs e w k := by
  fun_induction search e stack visited with
  | case1 visited => exact ⟨visited, rfl, hvisited, by simp⟩
  | case2 id stack visited hid ih =>
    obtain ⟨found, hrun, hnodup, hfound⟩ :=
      ih (fun w hw => hstack w (List.mem_cons_of_mem _ hw)) hvisited (hexplored.skip hid)
    refine ⟨found, hrun, hnodup, fun k => (hfound k).trans ⟨?_, ?_⟩⟩
    · exact Or.imp_right fun ⟨w, hw, hn⟩ => ⟨w, List.mem_cons_of_mem _ hw, hn⟩
    · rintro (hk | ⟨w, hw, hn⟩)
      · exact .inl hk
      · rcases List.mem_cons.mp hw with rfl | hw
        · rcases hid with hc | hid
          · rw [hn.first] at hc
            cases hc
          · exact (hexplored.skip (.inr hid)).needs hid hn
        · exact .inr ⟨w, hw, hn⟩
  | case3 id stack visited hid err hn =>
    obtain ⟨n, hn'⟩ : ∃ n, e.model.nodes[id]? = some n := ⟨_, List.getElem?_eq_getElem (hstack id List.mem_cons_self)⟩
    cases hn.symm.trans (Model.node_eq_ok.mpr hn')
  | case4 id stack visited hid n hn ih =>
    obtain ⟨hc, hnew⟩ := not_or.mp hid
    have hc : e.isCached id = false := by simpa using hc
    have hstack' : ∀ w ∈ (sources e.model id).reverse ++ stack, w < e.model.size := fun w hw => by
      rcases List.mem_append.mp hw with hw | hw
      · exact Nat.lt_trans (sources_lt hm (List.mem_reverse.mp hw)) (node_lt hn)
      · exact hstack w (List.mem_cons_of_mem _ hw)
    obtain ⟨found, hrun, hnodup, hfound⟩ := ih hstack' (List.nodup_cons.mpr ⟨hnew, hvisited⟩) hexplored.visit
    refine ⟨found, hrun, hnodup, fun k => (hfound k).trans ?_⟩
    simp only [List.mem_cons, List.mem_append, List.mem_reverse, or_and_right, exists_or, exists_eq_left, needs_iff hc]
    rw [or_assoc, or_assoc, or_left_comm]

/-- A search from a node of the model finds what must be computed for it. -/
theorem sorted_search (hm : e.model.WellFormed) (hid : id < e.model.size) :
    (e.search [id] []).map (·.mergeSort) = .ok (e.pending id) := by
  have hstack : ∀ w ∈ [id], w < e.model.size := by simpa using hid
  have hexplored : Explored e [id] [] := by simp [Explored]
  obtain ⟨found, hrun, hnodup, hfound⟩ := search_spec hm hstack .nil hexplored
  have hperm : found.Perm (e.pending id) := (List.perm_ext_iff_of_nodup hnodup pairwise_pending.nodup).mpr fun k => by
    rw [hfound, mem_pending hm]
    simp
  have hsorted : found.mergeSort.Pairwise (· ≤ ·) := List.pairwise_mergeSort' _ found
  rw [hrun]
  exact congrArg Except.ok
    (((List.mergeSort_perm found _).trans hperm).eq_of_pairwise' hsorted (pairwise_pending.imp Nat.le_of_lt))

end Evaluator
end Dataflow
