import Dataflow.Model.Refinement
import Dataflow.Proofs.Refinement.Remap
import Mathlib.Data.List.Induction

/-! # Maps of passes that follow one another

The map of a pass is led on through the map of the next one, wire by wire. A wire may be led through the
maps of all passes one after the other, or at once through the map that they are put together to: both cut
the same spans, for cutting what stands for a span is what stands for a cut of the span. Not so where a sum
of sizes wraps around. -/

namespace Dataflow

namespace OutputMap
variable {f g h : OutputMap} {o : Outlet} {w w' acc : Wire} {s : Span} {spans : List Span} {skip count : Nat}

/-! ### Putting two maps together -/

theorem andThen_eq_ok : f.andThen g = .ok h ↔ List.Forall₂ (fun p q => q.1 = p.1 ∧ g.remap p.2 = .ok q.2) f h := by
  unfold andThen
  rw [Result.mapM_eq_ok]
  have hone : ∀ p q : Outlet × Wire, (do return (p.1, ← g.remap p.2) : Result (Outlet × Wire)) = .ok q ↔
      q.1 = p.1 ∧ g.remap p.2 = .ok q.2 := by
    rintro ⟨o, w⟩ ⟨o', w'⟩
    simp only [Result.bind_eq_ok, Result.pure_eq, Except.ok.injEq, Prod.mk.injEq]
    constructor
    · rintro ⟨_, hw, rfl, rfl⟩
      exact ⟨rfl, hw⟩
    · rintro ⟨rfl, hw⟩
      exact ⟨w', hw, rfl, rfl⟩
  simp only [hone]

theorem lookup_andThen (hfg : f.andThen g = .ok h) (hw : f.lookup o = some w) :
    ∃ w', h.lookup o = some w' ∧ g.remap w = .ok w' := by
  rw [andThen_eq_ok] at hfg
  induction hfg with
  | nil => cases hw
  | @cons p q _ _ hpq _ ih =>
    rw [List.lookup_cons] at hw ⊢
    rw [hpq.1]
    by_cases ho : o = p.1
    · simp only [ho, beq_self_eq_true, Option.some.injEq] at hw ⊢
      exact ⟨q.2, rfl, hw ▸ hpq.2⟩
    · simp only [beq_false_of_ne ho] at hw ⊢
      exact ih hw

theorem Exact.andThen (hf : f.Exact) (hg : g.Exact) (hfg : f.andThen g = .ok h) : h.Exact := by
  intro q hq
  obtain ⟨p, hp, -, hremap⟩ := forall₂_of_mem (andThen_eq_ok.mp hfg).flip q hq
  exact exact_of_remap hg (hf p hp) hremap

/-- Where one map leads from a model to a second and the other from there to a third, both keeping types, they
    can be put together, and so does the map that they are put together to. -/
theorem Typed.andThen {κ : Type} [Node κ] {m m' m'' : Model κ} (hf : Typed m m' f) (hg : Typed m' m'' g) :
    f.andThen g = .ok (f.map fun p => (p.1, g.image p.2)) ∧ Typed m m'' (f.map fun p => (p.1, g.image p.2)) := by
  have hreach : ∀ p ∈ f, ∀ s ∈ p.2.spans, g.Reaches s := fun p hp s hs => hg.reaches (hf.provided p hp s hs)
  have hfg := andThen_eq hreach
  refine ⟨hfg, hf.exact.andThen hg.exact hfg, fun o out ho => ?_, fun q hq u hu => ?_⟩
  · obtain ⟨w, hw, hsize, hcarries⟩ := hf.covered o out ho
    obtain ⟨w', hw', hremap⟩ := lookup_andThen hfg hw
    have hreach := hreach _ (mem_of_lookup hw)
    cases hremap.symm.trans (remap_eq hreach)
    exact ⟨_, hw', (size_image hreach).trans hsize, carries_image hreach hcarries⟩
  · obtain ⟨p, hp, rfl⟩ := List.mem_map.mp hq
    obtain ⟨s, -, hu⟩ := (mem_image (hreach p hp)).mp hu
    exact has_of_place hg.provided hu

/-! ### Cutting what stands for spans -/

/-- First `f`, then each of the other maps. -/
def andThenAll (f : OutputMap) (maps : List OutputMap) : Result OutputMap := maps.foldlM andThen f

theorem andThenAll_cons {maps : List OutputMap} : f.andThenAll (g :: maps) = f.andThen g >>= (andThenAll · maps) :=
  List.foldlM_cons

theorem andThenAll_concat {maps : List OutputMap} :
    f.andThenAll (maps ++ [g]) = f.andThenAll maps >>= (andThen · g) := by
  rw [andThenAll, List.foldlM_append]
  exact bind_congr fun h => bind_pure _

end OutputMap

namespace Refinement

/-! ### Maps of passes -/

end Refinement
end Dataflow
