import Dataflow.Proofs.Archive.Reading
import Dataflow.Proofs.Refinement.Coverage

/-! # Models that validate

A model comes from the empty one by putting nodes last, by being cut off, by being read from an archive, and
by being copied or refined from another; and a node that is copied or refined may ask its transformer for
anything, in the midst of a pass. Putting a node last is the only step that makes a model longer, and it
checks the node against the nodes that stay before it. So every model validates, at every moment. What the check
says of a span is that it ends within an output; a span whose end wraps around need not lie within it. -/

namespace Dataflow

namespace Model
variable {κ : Type} [Node κ] {m m' : Model κ} {n : κ}

/-! ### Steps that may fail -/

/-- Reading a model fails and changes nothing, or replaces the model by one that was put together anew. -/
theorem runFrom_read_cases (m : Model κ) (registry : Registry κ) (r : Archive.Record) :
    (∃ e, runFrom m (read registry r) = (.error e, m)) ∨
      ∃ m', ofRecord registry r = .ok m' ∧ runFrom m (read registry r) = (.ok (), m') := by
  unfold read
  rcases hrecord : ofRecord registry r with e | m'
  · exact .inl ⟨e, by rw [runFrom_bind_error (runFrom_lift _)]⟩
  · exact .inr ⟨m', rfl, by rw [runFrom_lift_ok rfl]; rfl⟩

end Model

/-! ### What a transformer can be asked for -/

namespace Transformer
variable {κ : Type} [Node κ] {t u : Transformer κ} {id : Nat}

/-- What calls and whole passes, begun and ended anywhere, can make of a transformer. -/
inductive Moves (t : Transformer κ) : Transformer κ → Prop
  | none : Moves t t
  | start {u : Transformer κ} (source : Model κ) : Moves t u → Moves t (start source)
  | add {u : Transformer κ} (n : κ) : Moves t u → Moves t (runFrom u (add n)).2
  | map {u : Transformer κ} (old new : Wire) : Moves t u → Moves t (runFrom u (mapOutput old new)).2
  | mark {u : Transformer κ} : Moves t u → Moves t { u with modified := true }
  | rollback {u : Transformer κ} (size id : Nat) : Moves t u → Moves t (u.rollback size id)
  | handOver {u : Transformer κ} : Moves t u → Moves t { u with model := .empty }

theorem Moves.wellFormed (h : Moves t u) (ht : t.model.WellFormed) : u.model.WellFormed := by
  induction h with
  | none => exact ht
  | start => exact Model.wellFormed_empty
  | @add u n _ ih =>
    rcases runFrom_add_cases u n with ⟨e, h⟩ | ⟨hcheck, h⟩ <;> rw [h]
    · exact ih
    · exact ih.push hcheck
  | @map u old new _ ih =>
    rcases mapOutput_changes (t := u) with h | ⟨key, -, -, h⟩ <;> rw [h] <;> exact ih
  | mark _ ih => exact ih
  | rollback size id _ ih => exact ih.truncate
  | handOver => exact Model.wellFormed_empty

end Transformer

namespace Refinable
variable {κ : Type} [Refinable κ] {n : κ} {id : Nat}

/-- Copied or refined, no node does more to a transformer than ask it for something. -/
def Sealed (κ : Type) [Refinable κ] : Prop := ∀ (n : κ) (id : Nat) (t : Transformer κ),
  Transformer.Moves t (runFrom t (copy n id)).2 ∧ Transformer.Moves t (runFrom t (refine n id)).2

end Refinable

open Refinable (Sealed)

namespace Transformer
variable {κ : Type} [Refinable κ] {source m : Model κ} {s u : Transformer κ}

/-- The target of a transformer is well formed. -/
def Sound (t : Transformer κ) : Prop := t.model.WellFormed

theorem keeps_copy_sound (hsealed : Sealed κ) (n : κ) (id : Nat) : Keeps Sound (Refinable.copy n id) :=
  fun t ht => (hsealed n id t).1.wellFormed ht

theorem keeps_refineNode_sound (hsealed : Sealed κ) (n : κ) (id : Nat) : Keeps Sound (refineNode n id) := by
  intro t ht
  have hrefine : Sound (runFrom t (Refinable.refine n id)).2 := (hsealed n id t).2.wellFormed ht
  rcases hrun : runFrom t (Refinable.refine n id) with ⟨r, u⟩
  rw [hrun] at hrefine
  by_cases hr : r = .ok true
  · subst hr
    rw [runFrom_refined hrun]
    exact hrefine
  · rw [runFrom_declined hrun hr]
    exact keeps_copy_sound hsealed n id _ hrefine.truncate

/-- A pass hands over a well-formed model, if its nodes keep the target well formed. -/
theorem wellFormed_of_nodes {f : κ → Nat → Transformation κ Unit} (hf : ∀ n id, Keeps Sound (f n id))
    (hrun : runFrom s (do
      set (start source)
      source.nodes.zipIdx.forM fun (n, id) => f n id
      finish source) = (.ok m, u)) : m.WellFormed := by
  rw [runFrom_bind_ok runFrom_set] at hrun
  obtain ⟨_, last, hnodes, hrun⟩ := runFrom_bind_inv hrun
  have hlast : Sound (runFrom (start source) (source.nodes.zipIdx.forM fun (n, id) => f n id)).2 :=
    Keeps.forM (fun p _ => hf p.1 p.2) (start source) Model.wellFormed_empty
  rw [hnodes] at hlast
  unfold finish at hrun
  rw [runFrom_bind_ok runFrom_get] at hrun
  obtain ⟨_, -, hrun⟩ := runFrom_lift_inv hrun
  cases hrun
  exact hlast

end Transformer

/-! ### Models -/

namespace Model
variable {κ : Type} [Refinable κ] {m : Model κ}

/-- The models that there can be: the empty one, and what each step makes of such models. A step that may
    fail leaves a model too, and a target under construction is one. -/
inductive Arises : Model κ → Prop
  | empty : Arises .empty
  | put {m : Model κ} (n : κ) : Arises m → Arises (runFrom m (put n)).2
  | truncate {m : Model κ} (size : Nat) : Arises m → Arises (m.truncate size)
  | read {m : Model κ} (registry : Registry κ) (r : Archive.Record) : Arises m → Arises (runFrom m (read registry r)).2
  | copied {source m : Model κ} {t u : Transformer κ} : Arises source →
      runFrom t (Transformer.copyModel source) = (.ok m, u) → Arises m
  | passed {source m : Model κ} {t u : Transformer κ} : Arises source →
      runFrom t (Transformer.refineModel source) = (.ok m, u) → Arises m
  | refined {source : Model κ} {limit : Nat} {r : Refinement κ} : Arises source →
      Refinement.run limit source = .ok r → Arises r.model
  | target {source : Model κ} {t : Transformer κ} : Arises source →
      Transformer.Moves (.start source) t → Arises t.model

end Model

namespace Refinement
variable {κ : Type} [Refinable κ] {m m' : Model κ} {f : OutputMap} {limit : Nat} {r : Refinement κ}

theorem wellFormed_of_pass (hsealed : Sealed κ) {modified : Bool} (h : pass m = .ok (m', f, modified)) :
    m'.WellFormed := by
  unfold pass at h
  split at h
  case h_1 t hrun =>
    cases h
    exact Transformer.wellFormed_of_nodes (Transformer.keeps_refineNode_sound hsealed) (s := .fresh) hrun
  case h_2 => cases h

theorem wellFormed_of_copy (hsealed : Sealed κ) (h : copy m = .ok (m', f)) : m'.WellFormed := by
  unfold copy at h
  split at h
  case h_1 t hrun =>
    cases h
    exact Transformer.wellFormed_of_nodes (Transformer.keeps_copy_sound hsealed) (s := .fresh) hrun
  case h_2 => cases h

theorem wellFormed_of_run (hsealed : Sealed κ) (hm : m.WellFormed) (hrun : run limit m = .ok r) : r.model.WellFormed :=
  run_keeps (I := fun m _ => m.WellFormed) (fun _ _ _ _ _ _ _ hpass _ => wellFormed_of_pass hsealed hpass)
    (fun _ _ => wellFormed_of_copy hsealed) hm hrun

end Refinement

namespace Model.Arises
variable {κ : Type} [Refinable κ] {m : Model κ}

theorem wellFormed (hsealed : Sealed κ) (h : m.Arises) : m.WellFormed := by
  induction h with
  | empty => exact wellFormed_empty
  | @put m n _ ih =>
    rcases runFrom_put_cases m n with ⟨e, h⟩ | ⟨hcheck, h⟩ <;> rw [h]
    · exact ih
    · exact ih.push hcheck
  | truncate size _ ih => exact ih.truncate
  | @read m registry r _ ih =>
    rcases runFrom_read_cases m registry r with ⟨e, h⟩ | ⟨m', hm', h⟩ <;> rw [h]
    · exact ih
    · exact (ofRecord_inv hm').1
  | copied _ hrun => exact Transformer.wellFormed_of_nodes (Transformer.keeps_copy_sound hsealed) hrun
  | passed _ hrun => exact Transformer.wellFormed_of_nodes (Transformer.keeps_refineNode_sound hsealed) hrun
  | refined _ hrun ih => exact Refinement.wellFormed_of_run hsealed ih hrun
  | target _ hmoves => exact hmoves.wellFormed wellFormed_empty

end Model.Arises
end Dataflow
