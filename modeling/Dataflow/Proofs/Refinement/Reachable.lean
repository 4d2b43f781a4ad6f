import Dataflow.Builtin.Refinement
import Dataflow.Proofs.Builtin.Made
import Dataflow.Proofs.Refinement.Calls
import Dataflow.Proofs.Refinement.Loop

/-! # The transformers that there can be

A target of built-in nodes is filled by adding nodes, each of which is checked, and by taking back nodes from
its end. So it is well built at every moment of a pass, whatever is mapped and whichever sums of sizes wrap
around, and so is the model that a pass hands over. -/

namespace Dataflow

namespace Builtin
variable {n n' : Builtin} {t u : Transformer Builtin}

theorem made_of_remapped (h : runFrom t (remapped n) = (.ok n', u)) : n'.Made := by
  cases n with
  | input | constant =>
    cases h
    trivial
  | dot type a b =>
    obtain ⟨a, _, -, h⟩ := runFrom_bind_inv h
    obtain ⟨b, _, -, h⟩ := runFrom_bind_inv h
    rw [runFrom_lift] at h
    exact constructed_iff.mp (.dot (Prod.ext_iff.mp h).1)
  | binary type op a b =>
    obtain ⟨a, _, -, h⟩ := runFrom_bind_inv h
    obtain ⟨b, _, -, h⟩ := runFrom_bind_inv h
    rw [runFrom_lift] at h
    exact constructed_iff.mp (.binary (Prod.ext_iff.mp h).1)
  | linear x p =>
    obtain ⟨x, _, -, h⟩ := runFrom_bind_inv h
    rw [runFrom_lift] at h
    exact constructed_iff.mp (.linear (Prod.ext_iff.mp h).1)

end Builtin

namespace Transformer
variable {t t' : Transformer Builtin} {old new : Wire}

/-- The transformers that there can be while built-in nodes are put into a target, whatever the nodes of the
    source do: each is new, or comes from another by a call that succeeds or fails, or by what a pass does
    itself before a node, after it and at its end. -/
inductive Reachable : Transformer Builtin → Prop
  | start (sourceSizes : List (Outlet × Nat)) : Reachable { fresh with sourceSizes }
  | add {t : Transformer Builtin} {n : Builtin} : n.Constructed → Reachable t → Reachable (runFrom t (add n)).2
  | map {t : Transformer Builtin} (old new : Wire) : Reachable t → Reachable (runFrom t (mapOutput old new)).2
  | mark {t : Transformer Builtin} : Reachable t → Reachable { t with modified := true }
  | rollback {t : Transformer Builtin} (size id : Nat) : Reachable t → Reachable (t.rollback size id)
  | handOver {t : Transformer Builtin} : Reachable t → Reachable { t with model := .empty }

theorem Reachable.wellBuilt (h : Reachable t) : t.model.WellBuilt := by
  induction h with
  | start => exact Model.wellBuilt_empty
  | @add t n hn _ ih =>
    rcases runFrom_add_cases t n with ⟨e, h⟩ | ⟨hcheck, h⟩ <;> rw [h]
    · exact ih
    · exact ih.push (Builtin.constructed_iff.mp hn) hcheck
  | @map t old new _ ih =>
    rcases @mapOutput_changes _ _ t old new with h | ⟨key, -, -, h⟩ <;> rw [h]
    · exact ih
    · exact ih
  | mark _ ih => exact ih
  | rollback size id _ ih => exact ih.truncate
  | handOver => exact Model.wellBuilt_empty

/-! Copying and refining models of built-in nodes leads from such transformers to such transformers. -/

theorem keeps_add {n : Builtin} (hn : n.Made) : Keeps Reachable (add n) :=
    fun _ ht => ht.add (Builtin.constructed_iff.mpr hn)

theorem keeps_remap (w : Wire) : Keeps Reachable (remap w) := fun _ ht => ht

theorem keeps_output (id index : Nat) : Keeps Reachable (output id index) := fun _ ht => ht

theorem keeps_mapOutput (old new : Wire) : Keeps Reachable (mapOutput old new) := fun _ ht => ht.map old new

theorem keeps_mapOutputs (n : Builtin) (id target : Nat) : Keeps Reachable (mapOutputs n id target) :=
  .forM fun index _ => .lift_bind fun old _ => (keeps_output target index).bind fun _ _ _ _ => keeps_mapOutput old _

theorem keeps_remapped (n : Builtin) : Keeps Reachable (Builtin.remapped n) := by
  cases n with
  | input | constant => exact .pure _
  | dot | binary => exact (keeps_remap _).bind fun _ _ _ _ => (keeps_remap _).bind fun _ _ _ _ => .lift _
  | linear => exact (keeps_remap _).bind fun _ _ _ _ => .lift _

theorem keeps_copy (n : Builtin) (k : Nat) : Keeps Reachable (Refinable.copy n k) := by
  show Keeps Reachable (Builtin.copy id n k)
  refine (keeps_remapped n).bind fun _ n' _ hn' => ?_
  exact (keeps_add (Builtin.made_of_remapped hn')).bind fun _ target _ _ => keeps_mapOutputs n k target

theorem keeps_addOutput {n : Builtin} (hn : n.Made) : Keeps Reachable (Builtin.addOutput id n) :=
  (keeps_add hn).bind fun _ target _ _ => keeps_output target 0

theorem keeps_refine (n : Builtin) (k : Nat) : Keeps Reachable (Refinable.refine n k) := by
  cases n with
  | input | constant | dot | binary => exact .pure false
  | linear x p =>
    have part {n : Builtin} (hn : n.Made) : Keeps Reachable (Builtin.addOutput id n) := keeps_addOutput hn
    have constant (x : Signal) : Keeps Reachable (Builtin.addOutput id (.constant x)) := keeps_addOutput trivial
    refine (keeps_remap x).bind fun _ x' _ _ => (constant _).bind fun _ weights _ _ => .lift_bind fun n₂ h₂ => ?_
    refine (part (Builtin.constructed_iff.mp (.dot h₂))).bind fun _ product _ _ => .lift_bind fun n₃ h₃ => ?_
    refine (part (Builtin.constructed_iff.mp (.binary h₃))).bind fun _ weighted _ _ =>
      (constant _).bind fun _ bias _ _ => ?_
    refine .lift_bind fun n₅ h₅ => (part (Builtin.constructed_iff.mp (.binary h₅))).bind fun _ sum _ _ => ?_
    refine .lift_bind fun first _ => (keeps_mapOutput first sum).bind fun _ _ _ _ => ?_
    exact .lift_bind fun second _ => (keeps_mapOutput second weighted).bind fun _ _ _ _ => .pure true

theorem keeps_refineNode (n : Builtin) (id : Nat) : Keeps Reachable (refineNode n id) := by
  intro t ht
  have hrefine := keeps_refine n id t ht
  rcases hrun : runFrom t (Refinable.refine n id) with ⟨r, u⟩
  rw [hrun] at hrefine
  by_cases hr : r = .ok true
  · subst hr
    rw [runFrom_refined hrun]
    exact hrefine.mark
  · rw [runFrom_declined hrun hr]
    exact keeps_copy n id _ (hrefine.rollback _ _)

/-- What hands over a target when every node of a source has had its turn hands over a well-built model. -/
theorem wellBuilt_of_nodes {f : Builtin → Nat → Transformation Builtin Unit} (hf : ∀ n id, Keeps Reachable (f n id))
    {source m : Model Builtin} (hrun : runFrom t (do
      set (start source)
      source.nodes.zipIdx.forM fun (n, id) => f n id
      finish source) = (.ok m, t')) : m.WellBuilt := by
  rw [runFrom_bind_ok runFrom_set] at hrun
  obtain ⟨_, last, hnodes, hrun⟩ := runFrom_bind_inv hrun
  have hkeeps : Keeps Reachable (source.nodes.zipIdx.forM fun (n, id) => f n id) := .forM fun p _ => hf p.1 p.2
  have hlast := hkeeps (start source) (.start _)
  rw [hnodes] at hlast
  unfold finish at hrun
  rw [runFrom_bind_ok runFrom_get] at hrun
  obtain ⟨_, -, hrun⟩ := runFrom_lift_inv hrun
  cases hrun
  exact Reachable.wellBuilt hlast

end Transformer

/-! ### Refinement -/

namespace Refinement
variable {m m' : Model Builtin} {f : OutputMap} {modified : Bool} {limit : Nat} {r : Refinement Builtin}

theorem wellBuilt_of_copy (h : copy m = .ok (m', f)) : m'.WellBuilt := by
  unfold copy at h
  split at h
  case h_1 t hrun =>
    cases h
    exact Transformer.wellBuilt_of_nodes (f := Refinable.copy) Transformer.keeps_copy (t := .fresh) hrun
  case h_2 => cases h

theorem wellBuilt_of_pass (h : pass m = .ok (m', f, modified)) : m'.WellBuilt := by
  unfold pass at h
  split at h
  case h_1 t hrun =>
    cases h
    exact Transformer.wellBuilt_of_nodes (f := Transformer.refineNode) Transformer.keeps_refineNode (t := .fresh) hrun
  case h_2 => cases h

/-- The model itself is handed on where a pass finds the limit used up. -/
theorem wellBuilt_of_run (hm : m.WellBuilt) (h : run limit m = .ok r) : r.model.WellBuilt :=
  run_keeps (I := fun source _ => source.WellBuilt) (fun _ _ _ _ _ _ _ hpass _ => wellBuilt_of_pass hpass)
    (fun _ _ => wellBuilt_of_copy) hm h

end Refinement
end Dataflow
