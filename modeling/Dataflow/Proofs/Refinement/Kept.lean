import Dataflow.Proofs.Refinement.Coverage

/-! # Nodes that come through unchanged

Nodes add to a target and take nothing away from it; what is taken back of a failed refinement is what that
refinement added. So a node that is copied as it is and declines to be refined, as input nodes are and do, is
a node of every copy and of every refinement of a model, however wrongly the other nodes are copied and
refined. -/

namespace Dataflow
namespace Refinable
variable {κ : Type} [Refinable κ]

/-- Copied or refined, whatever it does otherwise, no node takes a node of the target away. -/
def OnlyAdds (κ : Type) [Refinable κ] : Prop :=
  ∀ (n : κ) (id : Nat) (t : Transformer κ), t.model.Extends (runFrom t (copy n id)).2.model ∧
    t.model.Extends (runFrom t (refine n id)).2.model

theorem Confined.onlyAdds (h : Refinable.Confined κ) : OnlyAdds κ :=
  fun n id t => ⟨((h n id).1 t).grows.model, ((h n id).2 t).grows.model⟩

/-- A node that is copied as it is, and declines to be refined at once. -/
structure Plain (n : κ) : Prop where
  copy_eq : ∀ id, copy n id = do Transformer.mapOutputs n id (← Transformer.add n)
  refine_eq : ∀ id, refine n id = pure false

theorem plain_input (t : ElemType) (size : Nat) : Plain (AnyNode.builtin (.input t size)) :=
    ⟨fun _ => rfl, fun _ => rfl⟩

/-! ### A node in a pass -/

open Transformer

variable {t u : Transformer κ} {n : κ} {k : Nat}

theorem Plain.mem_of_copy (hn : Plain n) (h : runFrom t (Refinable.copy n k) = (.ok (), u)) : n ∈ u.model.nodes := by
  rw [hn.copy_eq] at h
  obtain ⟨target, mid, hadd, hmap⟩ := runFrom_bind_inv h
  have hgrows := ((Node.confined_mapOutputs n k target) mid).grows.model
  rw [hmap] at hgrows
  refine hgrows.mem ?_
  rcases runFrom_add_cases t n with ⟨e, hrun⟩ | ⟨-, hrun⟩ <;> cases hadd.symm.trans hrun
  exact List.mem_append_right _ (List.mem_singleton_self n)

theorem Plain.mem_of_refineNode (hn : Plain n) (h : runFrom t (refineNode n k) = (.ok (), u)) : n ∈ u.model.nodes := by
  have hrefine : runFrom t (Refinable.refine n k) = (.ok false, t) := by rw [hn.refine_eq]; rfl
  rw [runFrom_declined hrefine nofun] at h
  exact hn.mem_of_copy h

/-- A node leaves the target with the nodes that it had, refined or copied after its refinement came to nothing. -/
theorem OnlyAdds.extends_refineNode (hadd : OnlyAdds κ) (h : runFrom t (refineNode n k) = (.ok (), u)) :
    t.model.Extends u.model := by
  have hrefine := (hadd n k t).2
  rcases hrun : runFrom t (Refinable.refine n k) with ⟨r, v⟩
  rw [hrun] at hrefine
  by_cases hr : r = .ok true
  · subst hr
    rw [runFrom_refined hrun] at h
    cases h
    exact hrefine
  · rw [runFrom_declined hrun hr] at h
    have hback : (v.rollback t.model.size k).model = t.model := hrefine.truncate
    have hcopy := (hadd n k (v.rollback t.model.size k)).1
    rw [hback, h] at hcopy
    exact hcopy

theorem OnlyAdds.extends_copy (hadd : OnlyAdds κ) (h : runFrom t (Refinable.copy n k) = (.ok (), u)) :
    t.model.Extends u.model := by
  have hcopy := (hadd n k t).1
  rwa [h] at hcopy

end Refinable

open Refinable (OnlyAdds Plain)

/-! ### Passes -/

namespace Transformer
variable {κ : Type} [Refinable κ] {t u : Transformer κ} {source m : Model κ} {n : κ} {k : Nat}

/-- A node that every turn keeps, and that its own turn adds, is in the target that is handed over. -/
theorem mem_of_nodes {f : κ → Nat → Transformation κ Unit} (hmem : n ∈ source.nodes)
    (own : ∀ t u k, runFrom t (f n k) = (.ok (), u) → n ∈ u.model.nodes)
    (turn : ∀ t u n k, runFrom t (f n k) = (.ok (), u) → t.model.Extends u.model)
    (hrun : runFrom t (do
      set (start source)
      source.nodes.zipIdx.forM fun (n, id) => f n id
      finish source) = (.ok m, u)) : n ∈ m.nodes := by
  rw [runFrom_bind_ok runFrom_set] at hrun
  obtain ⟨_, last, hnodes, hrun⟩ := runFrom_bind_inv hrun
  have hlast : n ∈ last.model.nodes := by
    obtain ⟨j, hj⟩ := List.getElem?_of_mem hmem
    have hkept := runFrom_forM_inv (P := fun k t => j < k → n ∈ t.model.nodes) (fun k p t u hp ht hturn hlt => ?_)
      (fun hlt => absurd hlt (Nat.not_lt_zero j)) hnodes
    · rw [List.length_zipIdx] at hkept
      exact hkept (List.getElem?_eq_some_iff.mp hj).1
    · obtain ⟨hnode, rfl⟩ := getElem?_zipIdx_inv hp
      rcases Nat.lt_succ_iff_lt_or_eq.mp hlt with hlt | rfl
      · exact (turn t u p.1 p.2 hturn).mem (ht hlt)
      · rw [hj, Option.some.injEq] at hnode
        exact own t u p.2 (hnode ▸ hturn)
  unfold finish at hrun
  rw [runFrom_bind_ok runFrom_get] at hrun
  obtain ⟨_, -, hrun⟩ := runFrom_lift_inv hrun
  cases hrun
  exact hlast

end Transformer

namespace Refinement
variable {κ : Type} [Refinable κ] {m source m' : Model κ} {f : OutputMap} {n : κ} {limit : Nat} {r : Refinement κ}

section
variable (hadd : OnlyAdds κ) (hn : Plain n)
include hadd hn

theorem mem_of_pass {modified : Bool} (hmem : n ∈ source.nodes) (h : pass source = .ok (m', f, modified)) :
    n ∈ m'.nodes := by
  unfold pass at h
  split at h
  case h_1 t hrun =>
    cases h
    exact Transformer.mem_of_nodes (f := Transformer.refineNode) hmem (fun _ _ _ => hn.mem_of_refineNode)
      (fun _ _ _ _ => hadd.extends_refineNode) (t := .fresh) hrun
  case h_2 => cases h

theorem mem_of_copy (hmem : n ∈ source.nodes) (h : copy source = .ok (m', f)) : n ∈ m'.nodes := by
  unfold copy at h
  split at h
  case h_1 t hrun =>
    cases h
    exact Transformer.mem_of_nodes (f := Refinable.copy) hmem (fun _ _ _ => hn.mem_of_copy)
      (fun _ _ _ _ => hadd.extends_copy) (t := .fresh) hrun
  case h_2 => cases h

theorem mem_of_run (hmem : n ∈ m.nodes) (hrun : run limit m = .ok r) : n ∈ r.model.nodes :=
  run_keeps (I := fun source _ => n ∈ source.nodes) (fun _ _ _ _ _ _ h hpass _ => mem_of_pass hadd hn h hpass)
    (fun _ _ => mem_of_copy hadd hn hmem) hmem hrun

end

end Refinement
end Dataflow
