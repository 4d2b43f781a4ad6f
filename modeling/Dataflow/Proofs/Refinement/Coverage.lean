import Dataflow.Proofs.Refinement.Composition
import Dataflow.Proofs.Refinement.Confined
import Dataflow.Proofs.Refinement.Loop
import Dataflow.Proofs.Refinement.Wayward

/-! # What stands for the outputs of a refined model

The nodes of a model may be copied and refined wrongly. Still, whenever refinement succeeds, every output
of the model has a wire that stands for it, and what this wire names is there in the refined model: mappings are
checked when they are made, and what is taken back later does not reach below the nodes that they name. Where
no sum of sizes wraps around, the wire has as many elements as the output, and each of its spans lies within an
output: the maps of passes are put together by cutting within them. A node that does more to a transformer than
add nodes and map its outputs may spoil all this. -/

namespace Dataflow

namespace OutputMap
variable {κ : Type} [Node κ] {m m' m'' : Model κ} {f g h : OutputMap} {o : Outlet} {w : Wire}

/-- Every output of the first model has a wire with as many elements, and what a wire of the map names is
    there in the second model. -/
structure Covers (m m' : Model κ) (f : OutputMap) : Prop where
  covered : ∀ o out, m.Declares o out → ∃ w, f.lookup o = some w ∧ w.size = out.size
  enclosed : ∀ p ∈ f, ∀ s ∈ p.2.spans, m'.Encloses s

theorem encloses_of_place {s u : Span} (hexact : g.Exact) (hg : ∀ p ∈ g, ∀ s ∈ p.2.spans, m.Encloses s)
    (hu : u ∈ g.place s) : m.Encloses u := by
  obtain ⟨target, hlookup, v, hv, houtlet, -, hstop, -⟩ := mem_place hu
  obtain ⟨out, hout, hle⟩ := hg _ (mem_of_lookup hlookup) v hv
  have hv : v.Exact := (hexact.lookup hlookup).spans v hv
  rw [hv.stop_eq] at hle
  exact ⟨out, houtlet ▸ hout, (hexact.place hu).stop_eq ▸ Nat.le_trans hstop hle⟩

theorem Covers.andThen (hexact : f.Exact) (hexact' : g.Exact) (hf : Covers m m' f) (hg : Covers m' m'' g)
    (hfg : f.andThen g = .ok h) : Covers m m'' h where
  covered o out ho := by
    obtain ⟨w, hw, hsize⟩ := hf.covered o out ho
    obtain ⟨w', hw', hremap⟩ := lookup_andThen hfg hw
    exact ⟨w', hw', (size_of_remap hexact' (hexact.lookup hw).spans hremap).trans hsize⟩
  enclosed q hq u hu := by
    obtain ⟨p, hp, -, hremap⟩ := forall₂_of_mem (andThen_eq_ok.mp hfg).flip q hq
    rw [(spans_of_remap hexact' (hexact p hp).spans hremap).1] at hu
    obtain ⟨s, -, hu⟩ := List.mem_flatMap.mp hu
    exact encloses_of_place hexact' hg.enclosed hu

/-- Every output of the first model has a wire, and every output that a wire of the map names is there in the
    second model. -/
structure Leads (m m' : Model κ) (f : OutputMap) : Prop where
  covered : ∀ o out, m.Declares o out → ∃ w, f.lookup o = some w
  declared : ∀ p ∈ f, ∀ s ∈ p.2.spans, ∃ out, m'.Declares s.outlet out

theorem Leads.andThen (hf : Leads m m' f) (hg : Leads m' m'' g) (hfg : f.andThen g = .ok h) : Leads m m'' h where
  covered o out ho := by
    obtain ⟨w, hw⟩ := hf.covered o out ho
    obtain ⟨w', hw', -⟩ := lookup_andThen hfg hw
    exact ⟨w', hw'⟩
  declared q hq u hu := by
    obtain ⟨p, -, -, hremap⟩ := forall₂_of_mem (andThen_eq_ok.mp hfg).flip q hq
    obtain ⟨s, -, target, hlookup, v, hv, houtlet, -⟩ := mem_of_remap hremap hu
    exact houtlet ▸ hg.declared _ (mem_of_lookup hlookup) v hv

end OutputMap

open OutputMap (Covers Leads)

/-! ### Passes -/

namespace Transformer
variable {κ : Type} [Refinable κ] {t u : Transformer κ} {source m : Model κ} {n : κ} {k : Nat}

/-- What is mapped when the nodes before `k` have had their turn: outputs of these, to elements of the
    target. -/
structure Tracks (k : Nat) (t : Transformer κ) : Prop where
  keys : ∀ p ∈ t.outputMap, p.1.node < k
  enclosed : ∀ p ∈ t.outputMap, ∀ s ∈ p.2.spans, t.model.Encloses s

theorem tracks_start : Tracks 0 (start source) := ⟨by rintro _ ⟨⟩, by rintro _ ⟨⟩⟩

theorem Tracks.calls (h : Tracks k t) (hc : Calls k t u) : Tracks (k + 1) u := by
  obtain ⟨hmodel, ⟨added, hadded, hown⟩, -, -⟩ := hc.grows
  constructor
  · intro p hp
    rw [hadded] at hp
    rcases List.mem_append.mp hp with hp | hp
    · exact Nat.lt_succ_of_lt (h.keys p hp)
    · exact (hown p hp).1 ▸ Nat.lt_succ_self k
  · intro p hp s hs
    rw [hadded] at hp
    rcases List.mem_append.mp hp with hp | hp
    · exact (h.enclosed p hp s hs).mono hmodel
    · exact (hown p hp).2 s hs

variable (own : Refinable.Confined κ)
include own

theorem Tracks.copy (h : Tracks k t) (hrun : runFrom t (Refinable.copy n k) = (.ok (), u)) : Tracks (k + 1) u := by
  have hcalls := (own n k).1 t
  rw [hrun] at hcalls
  exact h.calls hcalls

theorem Tracks.refineNode (h : Tracks k t) (hrun : runFrom t (refineNode n k) = (.ok (), u)) : Tracks (k + 1) u := by
  have hcalls := (own n k).2 t
  rcases hrefine : runFrom t (Refinable.refine n k) with ⟨r, v⟩
  rw [hrefine] at hcalls
  by_cases hr : r = .ok true
  · subst hr
    rw [runFrom_refined hrefine] at hrun
    cases hrun
    exact ⟨(h.calls hcalls).keys, (h.calls hcalls).enclosed⟩
  -- What is left of the target after a rollback is all of it that was there before.
  · rw [runFrom_declined hrefine hr, hcalls.rollback fun p hp => Nat.ne_of_lt (h.keys p hp)] at hrun
    exact h.copy own hrun

omit own in
/-- A target that is handed over is as the last node left it, and everything is mapped to it. -/
theorem Tracks.finish (h : Tracks k t) (hrun : runFrom t (finish source) = (.ok m, u)) :
    Covers source m u.outputMap := by
  unfold Transformer.finish at hrun
  rw [runFrom_bind_ok runFrom_get] at hrun
  obtain ⟨_, hcheck, hrun⟩ := runFrom_lift_inv hrun
  cases hrun
  exact ⟨checkMapped_eq_ok.mp hcheck, h.enclosed⟩

end Transformer

/-! ### Refinement -/

namespace Refinement
open Transformer (Confined MapsOnly add mapOutput)
variable {κ : Type} [Refinable κ] {m source m' : Model κ} {f g : OutputMap} {limit : Nat} {r : Refinement κ}

section
variable (own : Refinable.Confined κ)
include own

/-- The passes so far have led to the model itself, or to one that their map leads to as `P` says. -/
def Led {κ : Type} (P : Model κ → Model κ → OutputMap → Prop) (m source : Model κ) : Option OutputMap → Prop
  | none => source = m
  | some f => P m source f

omit [Refinable κ] own in
theorem Led.compose {P : Model κ → Model κ → OutputMap → Prop} {map : Option OutputMap}
    (andThen : ∀ {source m' : Model κ} {f g h : OutputMap}, P m source f → P source m' g → f.andThen g = .ok h →
      P m m' h)
    (h : Led P m source map) (hf : P source m' f) (hcompose : compose map f = .ok g) : P m m' g := by
  cases map with
  | none =>
    cases h
    cases hcompose
    exact hf
  | some f' => exact andThen h hf hcompose

end

end Refinement
end Dataflow
