import Dataflow.Proofs.Pipeline
import Dataflow.Proofs.Refinement.Kept

/-! # What verification tells

With verification, a run compares what it reports with the sinks of the original model. It compares every
one of them, so what it reports agrees with the original model even where nodes are copied and refined
wrongly, unless the original is not evaluated at all: so it is if its inputs have no values and the refined model
has lost them. Where nodes are refined rightly, as built-in nodes are, verification still refuses some runs: the
original is evaluated with what its copy does without, a NaN does not agree with itself, and an empty signal is
not always found as one of its type. -/

namespace Dataflow
namespace Pipeline

/-! ### Every sink is compared -/

section
variable {κ : Type} [Node κ] {m : Model κ} {inputs : List Float} {ws : List Wire} {found xs : List Signal}

theorem length_of_evaluate (h : evaluate inputs m ws = .ok (some xs)) : xs.length = ws.length := by
  unfold evaluate at h
  split at h
  · cases h
  · change (runFrom m.evaluator (signals inputs ws)).1.map some = _ at h
    rw [signals_eq] at h
    rcases hrun : runFrom m.evaluator (load inputs >>= fun _ => ws.mapM Evaluator.compute) with ⟨_ | ys, e⟩ <;>
      rw [hrun] at h
    · cases h
    · cases h
      obtain ⟨_, mid, -, hrun⟩ := runFrom_bind_inv hrun
      exact length_of_mapM hrun

/-- What is put out at the sinks themselves, the inputs being bound. -/
theorem computeOutput_of_evaluate (hm : m.WellFormed)
    (htargets : m.sinks.mapM (fun o => m.output o.node o.index) = .ok ws)
    (h : evaluate inputs m ws = .ok (some xs)) : ∃ e, Loaded inputs m e ∧
      List.Forall₂ (fun sink x => (runFrom e (Evaluator.computeOutput sink)).1 = .ok x) m.sinks xs := by
  obtain ⟨-, e, he, hxs⟩ := (evaluate_eq_some hm).mp h
  have hserves := he.serves hm
  refine ⟨e, he, ?_⟩
  refine (forall₂_comp (Result.mapM_eq_ok.mp htargets) (Result.mapM_eq_ok.mp hxs)).imp ?_
  rintro sink x ⟨w, hw, hx⟩
  rw [Evaluator.answer_output hserves.sound, hserves.model, ← Model.demandWire_output hw, hx]

theorem inputNodes_isEmpty : m.inputNodes.isEmpty = true ↔ ∀ n ∈ m.nodes, Node.isInput n = false := by
  rw [List.isEmpty_iff, Model.inputNodes, List.map_eq_nil_iff, List.filter_eq_nil_iff]
  constructor
  · intro h n hn
    obtain ⟨id, hid⟩ := List.getElem?_of_mem hn
    simpa using h (n, id) (List.mem_zipIdx_iff_getElem?.mpr hid)
  · rintro h ⟨n, id⟩ hp
    simp [h n (List.mem_of_getElem? (List.mem_zipIdx_iff_getElem?.mp hp))]

/-- Where the original can be evaluated, verification compares each found signal with that of its sink. -/
theorem verify_eq_ok {expected : List Signal} (h : evaluate inputs m ws = .ok (some expected)) :
    verify inputs m ws found = .ok () ↔ ∀ p ∈ m.sinks.zip (found.zip expected), p.2.1.agrees p.2.2 = true := by
  unfold verify
  rw [h, Result.ok_bind, Option.getD_some, Result.forM_eq_ok]
  refine forall₂_congr fun ⟨sink, x, y⟩ _ => ?_
  dsimp only
  cases x.agrees y <;> simp

theorem reports_eq_ok {rs : List OutputReport} : reports m (some found) = .ok rs ↔
    List.Forall₂ (fun p r => outputName m p.1 = .ok r.name ∧ r.values = p.2) (m.sinks.zip found) rs := by
  have hone : ∀ (p : Outlet × Signal) (r : OutputReport),
      (do return ⟨← outputName m p.1, p.2⟩ : Result OutputReport) = .ok r ↔
      outputName m p.1 = .ok r.name ∧ r.values = p.2 := by
    intro p r
    rw [Result.bind_eq_ok]
    constructor
    · rintro ⟨name, hname, hr⟩
      cases hr
      exact ⟨hname, rfl⟩
    · rintro ⟨hname, hvalues⟩
      exact ⟨r.name, hname, by rw [← hvalues]; rfl⟩
  show (m.sinks.zip found).mapM _ = _ ↔ _
  rw [Result.mapM_eq_ok]
  simp only [hone]

end

section
variable {κ : Type} [Refinable κ] {m : Model κ} {s : Settings} {o : Outcome κ}

/-- The reports tell of every sink of the model, in order, by its name and with a signal that agrees with what an
    evaluator of the model puts out there once the inputs are bound. -/
def Agree (inputs : List Float) (m : Model κ) (rs : List OutputReport) : Prop :=
  ∃ e, Loaded inputs m e ∧ List.Forall₂ (fun sink r => outputName m sink = .ok r.name ∧
    ∃ v, (runFrom e (Evaluator.computeOutput sink)).1 = .ok v ∧ r.values.agrees v = true) m.sinks rs

/-- Nodes that take no node away leave a refined model the inputs that the original has. -/
theorem inputNodes_of_run {limit : Nat} {r : Refinement κ} (hadd : Refinable.OnlyAdds κ)
    (hplain : ∀ n ∈ m.nodes, Node.isInput n = true → Refinable.Plain n) (hrun : Refinement.run limit m = .ok r)
    (hempty : r.model.inputNodes.isEmpty = true) : m.inputNodes.isEmpty = true := by
  refine inputNodes_isEmpty.mpr fun n hn => ?_
  by_contra hinput
  have hkept := Refinement.mem_of_run hadd (hplain n hn (by simpa using hinput)) hn hrun
  exact hinput (inputNodes_isEmpty.mp hempty n hkept)

/-- However wrongly nodes are copied and refined: where a run with verification succeeds and reports something, it
    reports every sink of the model, in order, by its name, and with a signal that agrees with what an evaluator of
    the model itself puts out there, the same inputs being bound, unless the original has input nodes and the refined
    model none and no inputs are given. This cannot be if input nodes are copied as they are and no node takes nodes
    of the target away. -/
theorem verified_reports (h : transform { s with refine := true, verify := true } m = .ok o)
    (reported : o.outputs ≠ []) :
    List.Forall₂ (fun sink r => outputName m sink = .ok r.name) m.sinks o.outputs ∧
    (Agree s.inputs m o.outputs ∨
      s.inputs.isEmpty = true ∧ m.inputNodes.isEmpty = false ∧ o.model.inputNodes.isEmpty = true) ∧
    (Refinable.OnlyAdds κ → (∀ n ∈ m.nodes, Node.isInput n = true → Refinable.Plain n) →
      Agree s.inputs m o.outputs) := by
  obtain ⟨hvalid, targets, htargets, wires, hprepare, found, hfound, hverified, hreports⟩ := transform_iff.mp h
  obtain ⟨r, hrun, hwires, hmodel, -, -⟩ := (prepare_refined_iff rfl).mp hprepare
  cases found with
  | none => exact absurd (by simpa [reports] using hreports.symm) reported
  | some found =>
    have hlen : found.length = m.sinks.length :=
      (length_of_evaluate hfound).trans (Result.mapM_eq_ok.mp hwires).length_eq.symm
    have hnames : List.Forall₂ (fun sink r => outputName m sink = .ok r.name) m.sinks o.outputs := by
      have hsinks : List.Forall₂ (fun _ _ => True) m.sinks m.sinks := List.forall₂_same.mpr fun _ _ => trivial
      refine (forall₂_zipped hlen hsinks (reports_eq_ok.mp hreports)).imp ?_
      rintro sink r ⟨_, _, -, -, hname, -⟩
      exact hname
    have hchecked : verify s.inputs m targets found = .ok () := hverified rfl found rfl
    obtain ⟨expected, hexpected, -⟩ := Result.bind_eq_ok.mp hchecked
    cases expected with
    | none =>
      -- The refined model was evaluated without inputs, so it has no input nodes.
      have hneeded := mt evaluate_eq_none.mpr fun h => Option.some_ne_none _ (Except.ok.inj (hfound.symm.trans h))
      rw [evaluate_eq_none, Bool.and_eq_true] at hexpected
      obtain ⟨hinputs, hnodes⟩ := hexpected
      have hempty : o.model.inputNodes.isEmpty = true := by simpa [hinputs] using hneeded
      have hsome : m.inputNodes.isEmpty = false := by simpa using hnodes
      refine ⟨hnames, .inr ⟨hinputs, hsome, hempty⟩, fun hadd hplain => ?_⟩
      cases hsome.symm.trans (inputNodes_of_run hadd hplain hrun (hmodel ▸ hempty))
    | some expected =>
      obtain ⟨e, he, hvalues⟩ := computeOutput_of_evaluate (Model.validate_eq_ok.mp hvalid) htargets hexpected
      -- No list is shorter than that of the sinks, so no sink is left out.
      have hagree : Agree s.inputs m o.outputs := by
        refine ⟨e, he, (forall₂_zipped hlen hvalues (reports_eq_ok.mp hreports)).imp ?_⟩
        rintro sink r ⟨x, v, hmem, hv, hname, hreported⟩
        exact ⟨hname, v, hv, hreported ▸ (verify_eq_ok hexpected).mp hchecked _ hmem⟩
      exact ⟨hnames, .inl hagree, fun _ _ => hagree⟩

end

/-- An input that a predictor reads, and a scripted node that reads the predictor and is refined into
    constants. -/
def scriptedSink : Model AnyNode where
  nodes := [
    .builtin (.input .real 2),
    .builtin (.linear (.ofSpan (.whole ⟨0, 0⟩ .real 2)) ⟨[2.0, 3.0], 0.5⟩),
    .scripted ⟨[.ofSpan (.whole ⟨1, 0⟩ .real 1)], [.real [7.0, 8.0]], [(.real, 2)], .faithful, .splits⟩]

def verifying : Settings := { refining with inputs := [1.0, 2.0] }

theorem scriptedSink_verified : ∃ o, transform { verifying with refine := true, verify := true } scriptedSink = .ok o ∧
    o.outputs.length = 2 ∧ Agree verifying.inputs scriptedSink o.outputs := by
  have hcount : (transform { verifying with refine := true, verify := true } scriptedSink).map (·.outputs.length) =
      .ok 2 := by
    decide +kernel
  rcases h : transform { verifying with refine := true, verify := true } scriptedSink with e | o
  · rw [h] at hcount
    cases hcount
  · rw [h] at hcount
    have hlen : o.outputs.length = 2 := Except.ok.inj hcount
    have reported : o.outputs ≠ [] := fun hnil => by simp [hnil] at hlen
    have hplain : ∀ n ∈ scriptedSink.nodes, Node.isInput n = true → Refinable.Plain n := by
      intro n hn hinput
      simp only [scriptedSink, List.mem_cons, List.not_mem_nil, or_false] at hn
      rcases hn with rfl | rfl | rfl
      · exact Refinable.plain_input .real 2
      · cases hinput
      · cases hinput
    obtain ⟨-, -, hagree⟩ := verified_reports h reported
    exact ⟨o, rfl, hlen, hagree AnyNode.confined.onlyAdds hplain⟩

/-- An input, and a node whose refinement begins another target and puts a constant in the place of both. -/
def restarted : Model Wayward := ⟨[.builtin (.input .real 1), .restarts]⟩

/-- Without inputs the original is not evaluated, and what the constant puts out is reported with verification,
    though the node puts out something else and the input nothing. -/
theorem restarted_unverified : let s : Settings := { verifying with inputs := [] }
    (transform { s with refine := true, verify := true } restarted).map (fun o => o.outputs.map (·.values)) =
        .ok [.real [7.0], .real [7.0]] ∧
      (runFrom restarted.evaluator (Evaluator.computeOutput ⟨0, 0⟩)).1 = .error (.unboundInput 0) ∧
      (runFrom restarted.evaluator (Evaluator.computeOutput ⟨1, 0⟩)).1 = .ok (.real [1.0]) := by
  refine ⟨?_, ?_, ?_⟩ <;> decide +kernel

/-! ### What verification refuses -/

section
variable {κ : Type} [Node κ] {m : Model κ} {inputs : List Float} {ws : List Wire} {found expected : List Signal}

/-- What is put out at the sinks of a model, unless input nodes have no value. -/
def sinkValues (inputs : List Float) (m : Model κ) : Result (Option (List Signal)) := do
  evaluate inputs m (← m.sinks.mapM fun o => m.output o.node o.index)

/-- Where signals differ, verification names a sink whose signals do. -/
theorem verify_eq_error (h : evaluate inputs m ws = .ok (some expected))
    (hdiffer : ¬ ∀ p ∈ m.sinks.zip (found.zip expected), p.2.1.agrees p.2.2 = true) :
    ∃ sink ∈ m.sinks, verify inputs m ws found =
      .error (.transform s!"refined output {sink.name} differs from the original model") := by
  rcases hverify : verify inputs m ws found with err | _
  · have hrun := hverify
    unfold verify at hrun
    rw [h, Result.ok_bind] at hrun
    obtain ⟨⟨sink, x, y⟩, hp, herror⟩ := Result.exists_of_forM_error hrun
    refine ⟨sink, (List.of_mem_zip hp).1, ?_⟩
    dsimp only at herror
    split at herror
    · cases herror
    · exact herror.symm
  · exact absurd ((verify_eq_ok h).mp hverify) hdiffer

end

section
variable {m : Model Builtin} {s : Settings} {limit : Nat} {v : Signal}

/-- What is found in place of a signal agrees with it if it agrees with itself, and is found as it is. -/
theorem agrees_shown : (Refinement.shown m limit v).agrees v = true ↔
    v.agrees v = true ∧ ((m.hasLinear = false ∨ limit = 0) ∨ (v.size = 0 → v.type = .real)) := by
  rw [← Refinement.shown_eq_self_iff]
  by_cases hshown : Refinement.shown m limit v = v
  · simp only [hshown, and_true]
  · have hsize : v.size = 0 := by
      by_contra hne
      exact hshown (Refinement.shown_of_size_ne_zero hne)
    have hreal : Refinement.shown m limit v = .real [] := by
      have hpasses := mt (fun h => Refinement.shown_eq_self_iff.mpr (.inl h)) hshown
      rw [Refinement.plain_iff, not_not] at hpasses
      rw [Refinement.shown, if_pos hpasses, Signal.untyped, if_pos hsize]
    rw [hreal, Signal.eq_empty_of_size hsize] at hshown ⊢
    cases htype : v.type <;> simp_all [Signal.empty, Signal.agrees]

/-- Each sink is compared with what is found in its place. -/
theorem compared_iff {expected : List Signal} (hlen : expected.length = m.sinks.length) :
    (∀ p ∈ m.sinks.zip ((expected.map (Refinement.shown m limit)).zip expected), p.2.1.agrees p.2.2 = true) ↔
      ∀ v ∈ expected, v.agrees v = true ∧ ((m.hasLinear = false ∨ limit = 0) ∨ (v.size = 0 → v.type = .real)) := by
  have hpairs : (expected.map (Refinement.shown m limit)).zip expected =
      expected.map fun v => (Refinement.shown m limit v, v) := by
    simpa using List.zip_map' (f := Refinement.shown m limit) (g := id) (l := expected)
  rw [hpairs]
  simp only [← agrees_shown]
  constructor
  · intro h v hv
    obtain ⟨i, hi, rfl⟩ := List.getElem_of_mem hv
    have hmem : (m.sinks[i], Refinement.shown m limit expected[i], expected[i]) ∈
        m.sinks.zip (expected.map fun v => (Refinement.shown m limit v, v)) :=
      List.mem_iff_getElem.mpr ⟨i, by simp [← hlen, hi], by simp⟩
    exact h _ hmem
  · intro h p hp
    obtain ⟨v, hv, hpair⟩ := List.mem_map.mp (List.of_mem_zip hp).2
    rw [← hpair]
    exact h v hv

/-- With verification, what was found in place of the sinks is checked before it is reported. -/
theorem transform_of_found {m' : Model Builtin} {passes : Nat} {converged : Bool} {targets wires : List Wire}
    {found : List Signal} (hvalid : m.validate = .ok ())
    (htargets : m.sinks.mapM (fun o => m.output o.node o.index) = .ok targets)
    (hprepare : prepare s m targets = .ok (m', passes, converged, wires))
    (hfound : evaluate s.inputs m' wires = .ok (some found)) (hon : (s.refine && s.verify) = true) :
    transform s m = do
      verify s.inputs m targets found
      return ⟨m', passes, converged, ← reports m (some found)⟩ := by
  unfold transform
  simp only [hvalid, htargets, hprepare, hfound, hon, Result.ok_bind, if_true]
  rfl

/-- What verification makes of a run that succeeds without it. It fails where the sinks of the original fail to be
    evaluated: the refined model does without nodes that are read for spans without elements only, and without spans
    whose ends wrap around. It refuses a signal with a NaN, which differs from itself, and, once a linear predictor
    was refined, an empty signal of another type than real. In all other cases the run gives what it gives without
    verification. -/
theorem verification_outcome {o : Outcome Builtin} (hm : Obtained m)
    (h : transform { s with refine := true, verify := false } m = .ok o) :
    (∀ e, sinkValues s.inputs m = .error e → transform { s with refine := true, verify := true } m = .error e) ∧
    ∀ values, sinkValues s.inputs m = .ok values →
      ((∀ v ∈ values.getD [], v.agrees v = true ∧
          ((m.hasLinear = false ∨ s.maxPasses = 0) ∨ (v.size = 0 → v.type = .real))) →
        transform { s with refine := true, verify := true } m = .ok o) ∧
      (¬(∀ v ∈ values.getD [], v.agrees v = true ∧
          ((m.hasLinear = false ∨ s.maxPasses = 0) ∨ (v.size = 0 → v.type = .real))) →
        ∃ sink ∈ m.sinks, transform { s with refine := true, verify := true } m =
          .error (.transform s!"refined output {sink.name} differs from the original model")) := by
  obtain ⟨hvalid, targets, htargets, wires, hprepare, found, hfound, hreports⟩ := (transform_eq_ok rfl).mp h
  obtain ⟨r, hrun, hwires, hmodel, -, -⟩ := (prepare_refined_iff rfl).mp hprepare
  obtain ⟨hcopyable, hr⟩ := Refinement.refines_of_run hm.wellBuilt hrun
  have hprepare : prepare { s with refine := true, verify := true } m targets =
      .ok (o.model, o.passes, o.converged, wires) := hprepare
  have hsinks : sinkValues s.inputs m = evaluate s.inputs m targets := by rw [sinkValues, htargets]; rfl
  rw [hsinks]
  refine ⟨fun e he => ?_, fun values hvalues => ?_⟩
  · cases found with
    | none =>
      -- The refined model lacks the inputs that the original lacks, so the original is not evaluated either.
      have hskipped : evaluate s.inputs m targets = .ok none := by
        have hinputs := isEmpty_inputNodes (hr.realises.inputs.trans Model.filter_isInput_rewire)
        rw [evaluate_eq_none, ← hinputs, ← hmodel]
        exact evaluate_eq_none.mp hfound
      cases he.symm.trans hskipped
    | some found =>
      rw [transform_of_found hvalid htargets hprepare hfound rfl, verify, he]
      rfl
  · have hshown := hmodel ▸ evaluate_refined_original hm.wellBuilt hcopyable hr htargets hwires hvalues
    cases hfound.symm.trans hshown
    cases values with
    | none =>
      refine ⟨fun _ => ?_, fun hno => absurd (fun v hv => nomatch hv) hno⟩
      exact transform_iff.mpr ⟨hvalid, targets, htargets, wires, hprepare, none, hfound, (fun _ _ hxs => nomatch hxs),
        hreports⟩
    | some expected =>
      have hlen : expected.length = m.sinks.length :=
        (length_of_evaluate hvalues).trans (Result.mapM_eq_ok.mp htargets).length_eq.symm
      rw [Option.getD_some, ← compared_iff hlen]
      refine ⟨fun hagree => ?_, fun hdiffer => ?_⟩
      · refine transform_iff.mpr ⟨hvalid, targets, htargets, wires, hprepare, _, hfound, fun _ xs hxs => ?_, hreports⟩
        obtain rfl := Option.some.inj hxs
        exact (verify_eq_ok hvalues).mpr hagree
      · obtain ⟨sink, hsink, hrefused⟩ := verify_eq_error hvalues hdiffer
        refine ⟨sink, hsink, ?_⟩
        rw [transform_of_found hvalid htargets hprepare hfound rfl, hrefused]
        rfl

end

/-- A predictor whose weight is not a number. -/
def unlearned : Model Builtin :=
  ⟨[.input .real 1, .linear (.ofSpan (.whole ⟨0, 0⟩ .real 1)) ⟨[Decimal.Numeral.notANumber], 0.5⟩]⟩

theorem obtained_unlearned : Obtained unlearned := by
  have h := Obtained.add .empty (.input .real 1) rfl
  exact h.add (.linear (x := .ofSpan (.whole ⟨0, 0⟩ .real 1)) (p := ⟨[Decimal.Numeral.notANumber], 0.5⟩) rfl) rfl

/-- Its predictions are refused, although they are those of the refined predictor. -/
theorem nan_refused :
    ∃ o, transform { verifying with inputs := [1.0], refine := true, verify := false } unlearned = .ok o ∧
      o.outputs.length = 2 ∧ ∃ sink ∈ unlearned.sinks,
        transform { verifying with inputs := [1.0], refine := true, verify := true } unlearned =
          .error (.transform s!"refined output {sink.name} differs from the original model") := by
  let s : Settings := { verifying with inputs := [1.0] }
  have hcount : (transform { s with refine := true, verify := false } unlearned).map (·.outputs.length) = .ok 2 := by
    decide +kernel
  have hagrees : (sinkValues s.inputs unlearned).map (fun vs => (vs.getD []).all fun v => v.agrees v) = .ok false := by
    decide +kernel
  rcases h : transform { s with refine := true, verify := false } unlearned with e | o
  · rw [h] at hcount
    cases hcount
  rcases hvalues : sinkValues s.inputs unlearned with e | values
  · rw [hvalues] at hagrees
    cases hagrees
  rw [h] at hcount
  rw [hvalues] at hagrees
  have hdiffer : ¬ ∀ v ∈ values.getD [], v.agrees v = true ∧
      ((unlearned.hasLinear = false ∨ s.maxPasses = 0) ∨ (v.size = 0 → v.type = .real)) := by
    intro hall
    have hfalse : ((values.getD []).all fun v => v.agrees v) = false := Except.ok.inj hagrees
    rw [List.all_eq_true.mpr fun v hv => (hall v hv).1] at hfalse
    cases hfalse
  exact ⟨o, rfl, Except.ok.inj hcount, ((verification_outcome obtained_unlearned h).2 values hvalues).2 hdiffer⟩

end Pipeline
end Dataflow
