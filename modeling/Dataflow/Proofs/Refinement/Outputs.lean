import Dataflow.Proofs.Obtained
import Dataflow.Proofs.Refinement.Copyable
import Dataflow.Proofs.Refinement.Inputs

/-! # The outputs of refined models

An output of a model and the wire that stands for it in the refined model carry the same elements. An
empty output that a second pass has led on is a wire without spans, which no longer tells an element type;
asking for it gives no reals. -/

namespace Dataflow

namespace Signal
variable {x : Signal}

/-- The signal, or no reals in the place of no elements. -/
def untyped (x : Signal) : Signal := if x.size = 0 then .real [] else x

theorem untyped_of_size_ne_zero (h : x.size ≠ 0) : x.untyped = x := if_neg h

theorem untyped_eq_self_iff : x.untyped = x ↔ (x.size = 0 → x.type = .real) := by
  by_cases h : x.size = 0
  · rw [untyped, if_pos h]
    constructor
    · intro hx _
      rw [← hx]
      rfl
    · intro ht
      rw [eq_empty_of_size h, ht h]
      rfl
  · exact ⟨fun _ h' => absurd h' h, fun _ => untyped_of_size_ne_zero h⟩

end Signal

/-- Built-in input nodes read nothing, so a node that has a value has a cone of nodes that have one. -/
theorem Model.demand_of_values {m : Model Builtin} {b : Nat → Option Signal} {id : Nat} {xs : List Signal}
    (hm : m.WellFormed) (h : m.values b id = .ok xs) : m.demand b id = .ok xs := by
  rw [Evaluator.demand_eq, h]
  refine Evaluator.cone_induction hm ⟨xs, h⟩ fun k j hk hj => ?_
  obtain ⟨ys, hys⟩ := hk
  obtain ⟨n, hn, s, hs, rfl⟩ := Evaluator.mem_sources.mp hj
  rw [values_eq hm, outputsFrom_eq_ok] at hys
  obtain ⟨n', hn', -, ⟨hinput, -⟩ | ⟨-, args, hargs, -⟩⟩ := hys
  · cases hn.symm.trans hn'
    cases n with
    | input => cases hs
    | constant | dot | binary | linear => cases hinput
  · cases hn.symm.trans hn'
    exact hargs.node hs

/-- The signal on a wire of known scalars; the wire tells their type unless it has no spans. -/
theorem Evaluator.gather_of_yields {given : Nat → Result (List Signal)} {w : Wire} {x : Signal} (hw : w.Carries x.type)
    (h : Yields given x.type w.spans x.scalars) :
    gather given (w.type?.getD .real) w = .ok (if w.spans = [] then .real [] else x) := by
  rcases hspans : w.spans with _ | ⟨s, rest⟩
  · rw [Wire.type?_eq_none.mpr hspans, if_pos rfl, gather_eq, hspans]
    rfl
  · have hs : s ∈ w.spans := by simp [hspans]
    rw [Wire.type?_eq hs, hw s hs, if_neg (List.cons_ne_nil s rest)]
    exact gather_eq_ok.mpr ⟨rfl, h⟩

namespace Refinement
variable {m : Model Builtin} {limit : Nat} {r : Refinement Builtin} {a : Nat → Option Signal} {o : Outlet} {w : Wire}
  {xs : List Signal} {x : Signal}

/-- Refining is no more than copying without a linear predictor, or when no pass may refine anything. -/
theorem plain_iff : m.hasLinear = false ∨ limit = 0 ↔ ¬(m.hasLinear = true ∧ 0 < limit) := by
  rw [not_and_or, Bool.not_eq_true, Nat.not_lt, Nat.le_zero]

/-- What is answered about an output of the refined model, where `x` is that output of the model itself. -/
def shown (m : Model Builtin) (limit : Nat) (x : Signal) : Signal :=
  if m.hasLinear = true ∧ 0 < limit then x.untyped else x

theorem shown_clip : shown m.clip limit x = shown m limit x := by
  unfold shown
  rw [Model.clip, Model.hasLinear_rewire]

theorem shown_of_size_ne_zero (h : x.size ≠ 0) : shown m limit x = x := by
  unfold shown
  split
  · exact Signal.untyped_of_size_ne_zero h
  · rfl

theorem shown_eq_self_iff :
    shown m limit x = x ↔ (m.hasLinear = false ∨ limit = 0) ∨ (x.size = 0 → x.type = .real) := by
  unfold shown
  by_cases hpasses : m.hasLinear = true ∧ 0 < limit
  · rw [if_pos hpasses, Signal.untyped_eq_self_iff]
    exact (or_iff_right fun hplain => plain_iff.mp hplain hpasses).symm
  · rw [if_neg hpasses]
    exact ⟨fun _ => .inl (plain_iff.mpr hpasses), fun _ => rfl⟩

/-- A wire that stands for an output has no spans just when passes were composed and the output is empty. -/
theorem Refines.spans_eq_nil (h : Refines m limit r) {out : Output} (ho : m.Declares o out)
    (hw : r.outputMap.lookup o = some w) (hsize : w.size = out.size) :
    w.spans = [] ↔ (m.hasLinear = true ∧ 0 < limit) ∧ out.size = 0 := by
  have htotal : Span.total w.spans = out.size := (h.realises.exact.lookup hw).size_eq.symm.trans hsize
  by_cases hpasses : m.hasLinear = true ∧ 0 < limit
  · have hfilled := h.filled hpasses.1 hpasses.2 _ (OutputMap.mem_of_lookup hw)
    refine ⟨fun hnil => ⟨hpasses, ?_⟩, fun ⟨_, hzero⟩ => ?_⟩
    · rw [← htotal, hnil, Span.total_nil]
    -- A span of a composed map has elements, so a wire of no elements has no spans.
    · rcases hspans : w.spans with _ | ⟨s, rest⟩
      · rfl
      · have hpos := hfilled s (by simp [hspans])
        rw [hspans, Span.total_cons] at htotal
        omega
  -- The wire is all of the output in the same place, which is one span, empty or not.
  · rw [(h.kept (plain_iff.mpr hpasses)).2 o out ho, Option.some.injEq] at hw
    subst hw
    exact ⟨fun hnil => (by cases hnil), fun ⟨hp, _⟩ => absurd hp hpasses⟩

theorem Refines.gather_wire (h : Refines m limit r) (hxs : m.trim.under a o.node = .ok xs)
    (hx : xs[o.index]? = some x) :
    ∃ w, r.outputWire o = .ok w ∧
      Evaluator.gather (r.model.under a) (w.type?.getD .real) w = .ok (shown m limit x) := by
  obtain ⟨out, ho, htype, hxsize⟩ := Model.declares_of_values hxs hx
  have ho := Model.declares_trim.mp ho
  obtain ⟨w, hw, hsize, hcarries⟩ := h.realises.covered o out ho
  have hnil := h.spans_eq_nil ho hw hsize
  refine ⟨w, by rw [outputWire, hw], ?_⟩
  rw [Evaluator.gather_of_yields (htype ▸ hcarries) (h.realises.carries a o xs x w hxs hx hw), shown, Signal.untyped]
  congr 1
  by_cases hpasses : m.hasLinear = true ∧ 0 < limit <;> by_cases hzero : out.size = 0 <;>
    simp [hnil, hpasses, hzero, hxsize]

theorem Refines.demand_wire (h : Refines m limit r) {e : Evaluator Builtin} (he : e.Serves r.model)
    (hxs : m.trim.under e.assignment o.node = .ok xs) (hx : xs[o.index]? = some x) :
    ∃ w, r.outputWire o = .ok w ∧ r.model.demandWire e.bound w = .ok (shown m limit x) := by
  obtain ⟨w, hw, hgather⟩ := h.gather_wire hxs hx
  refine ⟨w, hw, Evaluator.gather_mono hgather fun s _ ys hys => ?_⟩
  rw [← he.model, ← Evaluator.values_eq_under, he.model] at hys
  exact Model.demand_of_values h.proper.wellFormed hys

end Refinement

open Evaluator (Parallel)

def predictor : Model Builtin :=
  ⟨[.input .real 1, .linear (.ofSpan (.whole ⟨0, 0⟩ .real 1)) ⟨[2.0], 0.5⟩]⟩

theorem Obtained.predictor : Obtained predictor := by
  have h := Obtained.add .empty (.input .real 1) rfl
  exact h.add (.linear (x := .ofSpan (.whole ⟨0, 0⟩ .real 1)) (p := ⟨[2.0], 0.5⟩) rfl) rfl

end Dataflow
