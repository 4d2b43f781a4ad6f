import Dataflow.Proofs.Evaluation.Values
import Mathlib.Data.List.Sort

/-! # What must be computed for a node

An evaluator computes for a node those nodes that a path of reads leads to over nodes that are not cached
(`Needs`); the sweep down from the node finds them in ascending order. With nothing cached they are the
cone of the node. When every cached node has what it reads cached as well, what must still be computed is
the cone without the cached nodes. -/

namespace Dataflow
namespace Evaluator
variable {κ : Type} [Node κ] {e : Evaluator κ} {m : Model κ} {id j k bound : Nat} {wanted found : List Nat}

theorem mem_sources : j ∈ sources m id ↔ ∃ n, m.nodes[id]? = some n ∧ ∃ s ∈ Node.spans n, s.node = j := by
  unfold sources
  rcases m.nodes[id]? with _ | n
  · simp
  · simp

theorem sources_lt (hm : m.WellFormed) (h : j ∈ sources m id) : j < id := by
  obtain ⟨n, hn, s, hs, rfl⟩ := mem_sources.mp h
  exact (hm id n hn s hs).1

/-- A path of reads leads from the first node to the second, over nodes that are not cached. -/
inductive Needs (e : Evaluator κ) : Nat → Nat → Prop
  | self {id : Nat} : e.isCached id = false → Needs e id id
  | read {id j k : Nat} : e.isCached id = false → j ∈ sources e.model id → Needs e j k → Needs e id k

theorem Needs.first (h : Needs e id k) : e.isCached id = false := by
  cases h <;> assumption

theorem Needs.last (h : Needs e id k) : e.isCached k = false := by
  induction h with
  | self h => exact h
  | read _ _ _ ih => exact ih

theorem Needs.le (hm : e.model.WellFormed) (h : Needs e id k) : k ≤ id := by
  induction h with
  | self => exact Nat.le_refl _
  | read _ hj _ ih =>
    have := sources_lt hm hj
    omega

theorem Needs.snoc (h : Needs e id k) (hj : j ∈ sources e.model k) (hc : e.isCached j = false) : Needs e id j := by
  induction h with
  | self h => exact .read h hj (.self hc)
  | read h hi _ ih => exact .read h hi (ih hj)

theorem mem_sweep (hm : e.model.WellFormed) :
    k ∈ e.sweep bound wanted found ↔ k ∈ found ∨ ∃ w ∈ wanted, w < bound ∧ Needs e w k := by
  induction bound generalizing wanted found with
  | zero => simp [sweep]
  | succ id ih =>
    rw [sweep]
    by_cases hid : id ∈ wanted ∧ e.isCached id = false
    · rw [if_pos (by simp [hid]), ih, List.mem_cons]
      constructor
      · rintro ((rfl | hk) | ⟨w, hw, hlt, hn⟩)
        · exact Or.inr ⟨k, hid.1, Nat.lt_succ_self k, .self hid.2⟩
        · exact Or.inl hk
        · rcases List.mem_append.mp hw with hw | hw
          · exact Or.inr ⟨id, hid.1, Nat.lt_succ_self id, .read hid.2 hw hn⟩
          · exact Or.inr ⟨w, hw, Nat.lt_succ_of_lt hlt, hn⟩
      · rintro (hk | ⟨w, hw, hlt, hn⟩)
        · exact Or.inl (Or.inr hk)
        · rcases Nat.lt_succ_iff_lt_or_eq.mp hlt with hlt | rfl
          · exact Or.inr ⟨w, List.mem_append_right _ hw, hlt, hn⟩
          · cases hn with
            | self => exact Or.inl (Or.inl rfl)
            | read _ hj hn => exact Or.inr ⟨_, List.mem_append_left _ hj, sources_lt hm hj, hn⟩
    · rw [if_neg (by simpa using hid), ih]
      refine or_congr_right ⟨fun ⟨w, hw, hlt, hn⟩ => ⟨w, hw, Nat.lt_succ_of_lt hlt, hn⟩, ?_⟩
      rintro ⟨w, hw, hlt, hn⟩
      rcases Nat.lt_succ_iff_lt_or_eq.mp hlt with hlt | rfl
      · exact ⟨w, hw, hlt, hn⟩
      · exact absurd ⟨hw, hn.first⟩ hid

theorem pairwise_sweep (hf : found.Pairwise (· < ·)) (hb : ∀ i ∈ found, bound ≤ i) :
    (e.sweep bound wanted found).Pairwise (· < ·) := by
  induction bound generalizing wanted found with
  | zero => exact hf
  | succ id ih =>
    rw [sweep]
    split
    · refine ih (List.pairwise_cons.mpr ⟨hb, hf⟩) fun i hi => ?_
      rcases List.mem_cons.mp hi with rfl | hi
      · exact Nat.le_refl _
      · exact Nat.le_of_succ_le (hb i hi)
    · exact ih hf fun i hi => Nat.le_of_succ_le (hb i hi)

theorem mem_pending (hm : e.model.WellFormed) : k ∈ e.pending id ↔ Needs e id k := by
  rw [pending, mem_sweep hm]
  simp

theorem pairwise_pending : (e.pending id).Pairwise (· < ·) :=
  pairwise_sweep .nil (by simp)

end Evaluator

/-- The node and all nodes that it depends on, in ascending order. -/
def Model.cone {κ : Type} [Node κ] (m : Model κ) (id : Nat) : List Nat := m.evaluator.pending id

namespace Evaluator
variable {κ : Type} [Node κ] {e : Evaluator κ} {m : Model κ} {id j k : Nat}

theorem mem_cone_self (hm : m.WellFormed) : id ∈ m.cone id :=
  (mem_pending (e := m.evaluator) hm).mpr (.self rfl)

/-- Induction on the cone: what holds of the node and is handed on to what a node reads holds of the
    whole cone. -/
theorem cone_induction (hm : m.WellFormed) {P : Nat → Prop} (self : P id)
    (source : ∀ k j, P k → j ∈ sources m k → P j) : ∀ k ∈ m.cone id, P k := by
  intro k hk
  have hn := (mem_pending (e := m.evaluator) hm).mp hk
  clear hk
  induction hn with
  | self => exact self
  | read _ hj _ ih => exact ih (source _ _ self hj)

def Closed (e : Evaluator κ) : Prop := ∀ id j, e.isCached id = true → j ∈ sources e.model id → e.isCached j = true

theorem Closed.cone (h : e.Closed) (hm : e.model.WellFormed) (hid : e.isCached id = true) :
    ∀ k ∈ e.model.cone id, e.isCached k = true :=
  cone_induction hm hid fun k j hk hj => h k j hk hj

/-- What must still be computed is what the cone has beside the cached nodes. -/
theorem Closed.pending_eq (h : e.Closed) (hm : e.model.WellFormed) :
    e.pending id = (e.model.cone id).filter fun k => !e.isCached k := by
  refine List.Pairwise.eq_of_mem_iff pairwise_pending (pairwise_pending.filter _) fun k => ?_
  rw [List.mem_filter, mem_pending hm, Model.cone, mem_pending (e := e.model.evaluator) hm]
  constructor
  · intro hn
    refine ⟨?_, by simp [hn.last]⟩
    induction hn with
    | self => exact .self rfl
    | read _ hj _ ih => exact .read rfl hj ih
  · rintro ⟨hn, hk⟩
    induction hn with
    | self => exact .self (by simpa using hk)
    | @read id j k _ hj hn ih =>
      -- A cached node on the path would have its whole cone cached, the last node included.
      have hid : e.isCached id = false := by
        rcases hc : e.isCached id with _ | _
        · rfl
        · have := h.cone hm (h id j hc hj) k ((mem_pending (e := e.model.evaluator) hm).mpr hn)
          simp [this] at hk
      exact .read hid hj (ih hk)

end Evaluator
end Dataflow
