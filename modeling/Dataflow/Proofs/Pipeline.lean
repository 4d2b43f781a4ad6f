import Dataflow.Pipeline
import Dataflow.Proofs.Refinement.Outputs

/-! # Refinement in the pipeline

The pipeline evaluates the sinks of a copy, or of a refined model on the wires that stand for them. Where
it succeeds with the copy it succeeds with the refined model, and reports the same outputs under the same
names, except that the reports no longer tell the element type of an empty output when a linear predictor
was refined. -/

namespace Dataflow

namespace Evaluator
variable {κ : Type} [Node κ] {e : Evaluator κ}

theorem Sound.computeWires (h : e.Sound) (ws : List Wire) :
    ∃ e', runFrom e (ws.mapM Evaluator.compute) = (ws.mapM (e.model.demandWire e.bound), e') ∧ Continues e e' := by
  induction ws generalizing e with
  | nil => exact ⟨e, rfl, .refl h⟩
  | cons w rest ih =>
    obtain ⟨mid, hmid, hcont⟩ := h.compute w
    rw [List.mapM_cons, List.mapM_cons]
    rcases hx : e.model.demandWire e.bound w with err | x
    · rw [hx] at hmid
      exact ⟨mid, runFrom_bind_error hmid, hcont⟩
    · rw [hx] at hmid
      obtain ⟨e', hrest, hcont'⟩ := ih hcont.sound
      rw [hcont.model, hcont.bound] at hrest
      refine ⟨e', ?_, hcont.trans hcont'⟩
      rw [runFrom_bind_ok hmid, Result.ok_bind]
      rcases hxs : rest.mapM (e.model.demandWire e.bound) with err | xs
      · rw [hxs] at hrest
        exact runFrom_bind_error hrest
      · rw [hxs] at hrest
        exact runFrom_bind_ok hrest

end Evaluator

namespace Pipeline

/-! ### Evaluating wires -/

def load {κ : Type} [Node κ] (inputs : List Float) : Evaluation κ Unit :=
  if inputs.isEmpty then pure () else Evaluator.bindAll (.real inputs)

section
variable {κ : Type} [Node κ] {m m' : Model κ} {e : Evaluator κ} {inputs : List Float} {ws : List Wire}
    {xs : List Signal}

/-- The evaluator of a model once the inputs are bound, if there are any. -/
def Loaded (inputs : List Float) (m : Model κ) (e : Evaluator κ) : Prop :=
  runFrom m.evaluator (load inputs) = (.ok (), e)

theorem Loaded.serves (h : Loaded inputs m e) (hm : m.WellFormed) : e.Serves m := by
  unfold Loaded load at h
  split at h
  · cases h
    exact Evaluator.serves_after hm []
  · have hserves := Evaluator.serves_after hm [.bindAll (.real inputs)]
    change (runFrom m.evaluator (Evaluator.bindAll (.real inputs))).2.Serves m at hserves
    rwa [h] at hserves

theorem Loaded.exists_loaded (h : Loaded inputs m e)
    (hinputs : m'.nodes.filter Node.isInput = m.nodes.filter Node.isInput) :
    ∃ e', Loaded inputs m' e' ∧ e'.assignment = e.assignment := by
  have hstart : m'.evaluator.assignment = m.evaluator.assignment := by
    rw [Evaluator.assignment_start, Evaluator.assignment_start]
  unfold Loaded load at h ⊢
  split
  · rw [if_pos ‹_›] at h
    cases h
    exact ⟨m'.evaluator, rfl, hstart⟩
  · rw [if_neg ‹_›] at h
    have hall : m'.evaluator.model.nodes.filter Node.isInput = m.evaluator.model.nodes.filter Node.isInput := hinputs
    exact Evaluator.exists_bindAll hall hstart h

theorem signals_eq : signals inputs ws = (load inputs >>= fun _ => ws.mapM Evaluator.compute : Evaluation κ _) := by
  unfold signals load
  cases inputs.isEmpty <;> rfl

theorem evaluate_eq_none : evaluate inputs m ws = .ok none ↔ (inputs.isEmpty && !m.inputNodes.isEmpty) = true := by
  unfold evaluate
  cases inputs.isEmpty && !m.inputNodes.isEmpty
  · simp only [Bool.false_eq_true, if_false, iff_false]
    intro h
    generalize ((signals inputs ws).run.run m.evaluator).1 = answer at h
    cases answer <;> cases h
  · simp

theorem isEmpty_inputNodes (h : m'.nodes.filter Node.isInput = m.nodes.filter Node.isInput) :
    m'.inputNodes.isEmpty = m.inputNodes.isEmpty := by
  have hlen := (Model.forall₂_paired h).length_eq
  rw [Bool.eq_iff_iff, List.isEmpty_iff_length_eq_zero, List.isEmpty_iff_length_eq_zero, hlen]

theorem evaluate_eq_some (hm : m.WellFormed) : evaluate inputs m ws = .ok (some xs) ↔
    (inputs.isEmpty && !m.inputNodes.isEmpty) = false ∧
      ∃ e, Loaded inputs m e ∧ ws.mapM (m.demandWire e.bound) = .ok xs := by
  unfold evaluate
  cases inputs.isEmpty && !m.inputNodes.isEmpty
  · simp only [Bool.false_eq_true, if_false, true_and]
    show (runFrom m.evaluator (signals inputs ws)).1.map some = _ ↔ _
    rw [signals_eq, runFrom_bind]
    constructor
    · intro h
      rcases hload : runFrom m.evaluator (load inputs) with ⟨err | _, e⟩
      · rw [hload] at h
        cases h
      · have hserves := Loaded.serves hload hm
        obtain ⟨e', hrun, -⟩ := hserves.sound.computeWires ws
        rw [hserves.model] at hrun
        rw [hload] at h
        simp only [hrun] at h
        rcases hxs : ws.mapM (m.demandWire e.bound) with err | ys
        · rw [hxs] at h
          cases h
        · rw [hxs] at h
          cases h
          exact ⟨e, hload, hxs⟩
    · rintro ⟨e, hload, hxs⟩
      have hserves := Loaded.serves hload hm
      obtain ⟨e', hrun, -⟩ := hserves.sound.computeWires ws
      rw [hserves.model, hxs] at hrun
      unfold Loaded at hload
      rw [hload]
      simp only [hrun]
      rfl
  · simp

/-! ### Stages -/

def reports (m : Model κ) (found : Option (List Signal)) : Result (List OutputReport) :=
  (m.sinks.zip (found.getD [])).mapM fun p => do return ⟨← outputName m p.1, p.2⟩

end

section
variable {κ : Type} [Refinable κ] {m : Model κ} {o : Outcome κ} {s : Settings}

/-- The stages of a run. -/
theorem transform_iff : transform s m = .ok o ↔
    m.validate = .ok () ∧ ∃ targets, m.sinks.mapM (fun o => m.output o.node o.index) = .ok targets ∧
      ∃ wires, prepare s m targets = .ok (o.model, o.passes, o.converged, wires) ∧
        ∃ found, evaluate s.inputs o.model wires = .ok found ∧
          ((s.refine && s.verify) = true → ∀ xs ∈ found, verify s.inputs m targets xs = .ok ()) ∧
          reports m found = .ok o.outputs := by
  unfold transform
  rw [Result.guard_eq_ok]
  refine and_congr_right fun _ => ?_
  rw [Result.bind_eq_ok]
  refine exists_congr fun targets => and_congr_right fun _ => ?_
  rw [Result.bind_eq_ok]
  constructor
  · rintro ⟨⟨prepared, passes, converged, wires⟩, hprepare, h⟩
    obtain ⟨found, hfound, h⟩ := Result.bind_eq_ok.mp h
    cases found with
    | none =>
      cases h
      exact ⟨wires, hprepare, none, hfound, (fun _ _ hxs => nomatch hxs), by simp [reports]⟩
    | some found =>
      cases hverify : s.refine && s.verify with
      | false =>
        rw [hverify] at h
        obtain ⟨outputs, houtputs, h⟩ := Result.bind_eq_ok.mp h
        cases h
        exact ⟨wires, hprepare, some found, hfound, nofun, houtputs⟩
      | true =>
        rw [hverify] at h
        obtain ⟨hverified, h⟩ := Result.guard_eq_ok.mp h
        obtain ⟨outputs, houtputs, h⟩ := Result.bind_eq_ok.mp h
        cases h
        refine ⟨wires, hprepare, some found, hfound, fun _ xs hxs => ?_, houtputs⟩
        rwa [← Option.some.inj hxs]
  · rintro ⟨wires, hprepare, found, hfound, hverified, hreports⟩
    refine ⟨_, hprepare, ?_⟩
    simp only [hfound, Result.ok_bind]
    cases found with
    | none =>
      have hnil : o.outputs = [] := by simpa [reports] using hreports.symm
      simp only [← hnil, Result.pure_eq]
    | some found =>
      have hreported : (reports m (some found) >>= fun outputs => .ok ⟨o.model, o.passes, o.converged, outputs⟩) =
          .ok o :=
        Result.bind_eq_ok.mpr ⟨o.outputs, hreports, rfl⟩
      cases hverify : s.refine && s.verify with
      | false => exact hreported
      | true =>
        simp only [if_true, hverified hverify found rfl]
        exact hreported

end

section
variable {m : Model Builtin} {s : Settings}

/-- The stages of a run without verification. -/
theorem transform_eq_ok {o : Outcome Builtin} (hverify : (s.refine && s.verify) = false) : transform s m = .ok o ↔
    m.validate = .ok () ∧ ∃ targets, m.sinks.mapM (fun o => m.output o.node o.index) = .ok targets ∧
      ∃ wires, prepare s m targets = .ok (o.model, o.passes, o.converged, wires) ∧
        ∃ found, evaluate s.inputs o.model wires = .ok found ∧ reports m found = .ok o.outputs := by
  rw [transform_iff]
  simp only [hverify, Bool.false_eq_true, false_implies, true_and]

end

variable {m m' : Model Builtin} {inputs : List Float} {ws : List Wire} {xs : List Signal} {s : Settings}

theorem reports_map {found : Option (List Signal)} {g : Signal → Signal} {rs : List OutputReport}
    (h : reports m found = .ok rs) :
    reports m (found.map (List.map g)) = .ok (rs.map fun r => { r with values := g r.values }) := by
  unfold reports at h ⊢
  have hzip : (found.map (List.map g)).getD [] = (found.getD []).map g := by cases found <;> rfl
  rw [hzip, List.zip_map_right, Result.mapM_eq_ok, List.forall₂_map_left_iff, List.forall₂_map_right_iff]
  refine (Result.mapM_eq_ok.mp h).imp fun p r hr => ?_
  obtain ⟨name, hname, hr⟩ := Result.bind_eq_ok.mp hr
  cases hr
  show (outputName m p.1 >>= _) = _
  rw [hname]
  rfl

/-- Evaluating the wires that stand for the sinks gives what evaluating the sinks gives, in a model `m₀` that is
    the original or its copy: all outputs that have a value there have it in the clipped model. -/
theorem evaluate_refined_of {m₀ : Model Builtin} {limit : Nat} {r : Refinement Builtin} {targets wires : List Wire}
    {found : Option (List Signal)} (hm₀ : m₀.WellFormed) (hr : Refinement.Refines m.clip limit r)
    (hnodes : m₀.nodes.filter Node.isInput = m.nodes.filter Node.isInput)
    (hdeclares : ∀ o out, m.Declares o out → m₀.Declares o out)
    (hunder : ∀ a id xs, m₀.under a id = .ok xs → m.clip.under a id = .ok xs)
    (htargets : m.sinks.mapM (fun o => m.output o.node o.index) = .ok targets)
    (hwires : m.sinks.mapM r.outputWire = .ok wires) (h : evaluate inputs m₀ targets = .ok found) :
    evaluate inputs r.model wires = .ok (found.map (List.map (Refinement.shown m limit))) := by
  have hcopied : r.model.nodes.filter Node.isInput = m₀.nodes.filter Node.isInput :=
    (hr.realises.inputs.trans Model.filter_isInput_rewire).trans hnodes.symm
  have hinputs := isEmpty_inputNodes hcopied
  cases found with
  | none =>
    rw [evaluate_eq_none] at h
    rw [Option.map_none, evaluate_eq_none, hinputs, h]
  | some found =>
    obtain ⟨hsome, e, he, hfound⟩ := (evaluate_eq_some hm₀).mp h
    obtain ⟨e', he', hassignment⟩ := he.exists_loaded hcopied
    have hserves := he.serves hm₀
    refine (evaluate_eq_some hr.proper.wellFormed).mpr ⟨hinputs ▸ hsome, e', he', ?_⟩
    rw [Result.mapM_eq_ok, List.forall₂_map_right_iff]
    -- At each sink, the wire in the model and the wire in the refined model stand side by side.
    have hsinks := forall₂_comp (Result.mapM_eq_ok.mp htargets) (Result.mapM_eq_ok.mp hfound)
    refine (forall₂_comp (Result.mapM_eq_ok.mp hwires).flip hsinks).imp ?_
    rintro w x ⟨o, hw, target, htarget, hx⟩
    have hsame : m₀.output o.node o.index = .ok target := by
      obtain ⟨out, hout, rfl⟩ := Model.output_eq_ok.mp htarget
      exact Model.output_eq_ok.mpr ⟨out, hdeclares o out hout, rfl⟩
    rw [Model.demandWire_output hsame] at hx
    obtain ⟨xs, hxs, hx⟩ := hserves.under_of_demandOutput hx
    rw [← hassignment] at hxs
    have htrim : m.clip.trim.under e'.assignment o.node = .ok xs := Model.trim_clip.symm ▸ hunder _ _ _ hxs
    obtain ⟨w', hw', hdemand⟩ := hr.demand_wire (he'.serves hr.proper.wellFormed) htrim hx
    cases hw.symm.trans hw'
    exact Refinement.shown_clip ▸ hdemand

/-- Evaluating the wires that stand for the sinks gives what evaluating the sinks of the copy gives. -/
theorem evaluate_refined {limit : Nat} {r : Refinement Builtin} {targets wires : List Wire}
    {found : Option (List Signal)} (hm : m.WellBuilt) (hcopyable : m.Copyable) (hr : Refinement.Refines m.clip limit r)
    (htargets : m.sinks.mapM (fun o => m.output o.node o.index) = .ok targets)
    (hwires : m.sinks.mapM r.outputWire = .ok wires) (h : evaluate inputs m.clip targets = .ok found) :
    evaluate inputs r.model wires = .ok (found.map (List.map (Refinement.shown m limit))) :=
  evaluate_refined_of (hcopyable.proper hm.wellFormed).wellFormed hr Model.filter_isInput_rewire
    (fun _ _ => (Model.declares_rewire hcopyable.rewirable).mpr) (fun _ _ _ => id) htargets hwires h

/-- The same of the sinks of the original, which has no value more than its copy. -/
theorem evaluate_refined_original {limit : Nat} {r : Refinement Builtin} {targets wires : List Wire}
    {found : Option (List Signal)} (hm : m.WellBuilt) (hcopyable : m.Copyable) (hr : Refinement.Refines m.clip limit r)
    (htargets : m.sinks.mapM (fun o => m.output o.node o.index) = .ok targets)
    (hwires : m.sinks.mapM r.outputWire = .ok wires) (h : evaluate inputs m targets = .ok found) :
    evaluate inputs r.model wires = .ok (found.map (List.map (Refinement.shown m limit))) :=
  evaluate_refined_of hm.wellFormed hr rfl (fun _ _ => id) (fun _ _ _ => Model.under_clip hm.wellFormed hcopyable)
    htargets hwires h

theorem prepare_copied_iff {passes : Nat} {converged : Bool} {wires : List Wire} (hrefine : s.refine = false) :
    prepare s m ws = .ok (m', passes, converged, wires) ↔
      ∃ f, Refinement.copy m = .ok (m', f) ∧ passes = 0 ∧ converged = true ∧ wires = ws := by
  unfold prepare
  simp only [hrefine, Bool.false_eq_true, if_false, Result.bind_eq_ok, Result.pure_eq, Except.ok.injEq, Prod.mk.injEq]
  constructor
  · rintro ⟨⟨_, f⟩, hcopy, rfl, rfl, rfl, rfl⟩
    exact ⟨f, hcopy, rfl, rfl, rfl⟩
  · rintro ⟨f, hcopy, rfl, rfl, rfl⟩
    exact ⟨(m', f), hcopy, rfl, rfl, rfl, rfl⟩

theorem prepare_refined_iff {κ : Type} [Refinable κ] {m m' : Model κ} {passes : Nat} {converged : Bool}
    {wires : List Wire} (hrefine : s.refine = true) : prepare s m ws = .ok (m', passes, converged, wires) ↔
      ∃ r, Refinement.run s.maxPasses m = .ok r ∧ m.sinks.mapM r.outputWire = .ok wires ∧
        m' = r.model ∧ passes = r.passes ∧ converged = r.converged := by
  unfold prepare
  simp only [hrefine, if_true, Result.bind_eq_ok, Result.pure_eq, Except.ok.injEq, Prod.mk.injEq]
  constructor
  · rintro ⟨r, hrun, _, hwires, rfl, rfl, rfl, rfl⟩
    exact ⟨r, hrun, hwires, rfl, rfl, rfl⟩
  · rintro ⟨r, hrun, hwires, rfl, rfl, rfl⟩
    exact ⟨r, hrun, wires, hwires, rfl, rfl, rfl, rfl⟩

theorem exists_wires {limit : Nat} {r : Refinement Builtin} (hcopyable : m.Copyable)
    (hr : Refinement.Refines m.clip limit r) (htargets : m.sinks.mapM (fun o => m.output o.node o.index) = .ok ws) :
    ∃ wires, m.sinks.mapM r.outputWire = .ok wires := by
  have hsinks : List.Forall₂ Eq m.sinks m.sinks := List.forall₂_same.mpr fun _ _ => rfl
  obtain ⟨wires, hwires, -⟩ := Result.exists_mapM (S := fun _ _ => True) (g := r.outputWire) hsinks
    (fun o _ target hsame htarget => by
      subst hsame
      obtain ⟨out, hout, -⟩ := Model.output_eq_ok.mp htarget
      obtain ⟨w, hw, -⟩ := hr.realises.covered o out ((Model.declares_rewire hcopyable.rewirable).mpr hout)
      exact ⟨w, by rw [Refinement.outputWire, hw], trivial⟩) htargets
  exact ⟨wires, hwires⟩

/-- Reports stay the same unless a linear predictor was refined and an empty signal is not real. -/
theorem map_shown_eq_self_iff {limit : Nat} {rs : List OutputReport} :
    rs.map (fun r => { r with values := Refinement.shown m limit r.values }) = rs ↔
      (m.hasLinear = false ∨ limit = 0) ∨ ∀ r ∈ rs, r.values.size = 0 → r.values.type = .real := by
  have hsame : ∀ r : OutputReport, ({ r with values := Refinement.shown m limit r.values } : OutputReport) = r ↔
      (m.hasLinear = false ∨ limit = 0) ∨ (r.values.size = 0 → r.values.type = .real) := by
    intro r
    rw [← Refinement.shown_eq_self_iff]
    exact ⟨congrArg OutputReport.values, fun h => by rw [h]⟩
  conv_lhs => rhs; rw [← List.map_id rs]
  rw [List.map_inj_left]
  simp only [id_eq, hsame]
  by_cases hplain : m.hasLinear = false ∨ limit = 0
  · simp only [hplain, true_or, implies_true]
  · simp only [hplain, false_or]

/-- Where the pipeline succeeds without refinement it succeeds with it. It reports the same names, and the same
    signals but for the types of empty ones; and these are the same too just when no linear predictor was
    refined or no empty signal of another type than real is reported. -/
theorem transform_refined {o : Outcome Builtin} (hm : Obtained m)
    (h : transform { s with refine := false } m = .ok o) :
    ∃ o', transform { s with refine := true, verify := false } m = .ok o' ∧
      o'.outputs = o.outputs.map (fun r => { r with values := Refinement.shown m s.maxPasses r.values }) ∧
      (o'.outputs = o.outputs ↔ (m.hasLinear = false ∨ s.maxPasses = 0) ∨
        ∀ r ∈ o.outputs, r.values.size = 0 → r.values.type = .real) := by
  obtain ⟨hvalid, targets, htargets, wires, hprepare, found, hfound, hreports⟩ := (transform_eq_ok rfl).mp h
  obtain ⟨f, hcopy, -, -, rfl⟩ := (prepare_copied_iff rfl).mp hprepare
  obtain ⟨hcopyable, hmodel, -⟩ := Refinement.clip_of_copy hm.wellBuilt hcopy
  obtain ⟨r, hrun⟩ : ∃ r, Refinement.run s.maxPasses m = .ok r := (Refinement.exists_run_iff hm.wellBuilt).mpr hcopyable
  obtain ⟨-, hr⟩ := Refinement.refines_of_run hm.wellBuilt hrun
  obtain ⟨wires', hwires⟩ := exists_wires hcopyable hr htargets
  rw [hmodel] at hfound
  have hfound' := evaluate_refined hm.wellBuilt hcopyable hr htargets hwires hfound
  have hreports' := reports_map (g := Refinement.shown m s.maxPasses) hreports
  have hprepare' : prepare { s with refine := true, verify := false } m wires =
      .ok (r.model, r.passes, r.converged, wires') :=
    (prepare_refined_iff rfl).mpr ⟨r, hrun, hwires, rfl, rfl, rfl⟩
  have htransform := (transform_eq_ok (s := { s with refine := true, verify := false })
    (o := ⟨r.model, r.passes, r.converged, _⟩) rfl).mpr
    ⟨hvalid, wires, htargets, wires', hprepare', _, hfound', hreports'⟩
  exact ⟨_, htransform, rfl, map_shown_eq_self_iff⟩

/-- A constant without integers, and a linear predictor of a constant. -/
def emptyAndPredictor : Model Builtin :=
  ⟨[.constant (.int []), .constant (.real [1.0]), .linear (.ofSpan (.whole ⟨1, 0⟩ .real 1)) ⟨[2.0], 0.5⟩]⟩

theorem obtained_emptyAndPredictor : Obtained emptyAndPredictor := by
  have h₀ := Obtained.add .empty (.constant (.int [])) rfl
  have h₁ := h₀.add (.constant (.real [1.0])) rfl
  exact h₁.add (.linear (x := .ofSpan (.whole ⟨1, 0⟩ .real 1)) (p := ⟨[2.0], 0.5⟩) rfl) rfl

def refining : Settings :=
  ⟨none, "output", true, Settings.defaultMaxPasses, false, [], Settings.defaultWeights, Settings.defaultBias,
    Settings.defaultModelFile, Settings.defaultReportFile⟩

/-- The empty constant is an integer output of the copy, and not of the refined model. -/
theorem refined_empty_output_differs : ∃ o o', transform { refining with refine := false } emptyAndPredictor = .ok o ∧
    transform { refining with refine := true, verify := false } emptyAndPredictor = .ok o' ∧
      o'.outputs ≠ o.outputs := by
  have hempty : (transform { refining with refine := false } emptyAndPredictor).toOption.bind
      (fun o => o.outputs.head?.map (·.values)) = some (.int []) := by decide +kernel
  rcases h : transform { refining with refine := false } emptyAndPredictor with err | o
  · rw [h] at hempty
    cases hempty
  obtain ⟨o', h', -, hsame⟩ := transform_refined obtained_emptyAndPredictor h
  refine ⟨o, o', rfl, h', fun heq => ?_⟩
  rw [h] at hempty
  obtain ⟨r, hr, hvalues⟩ := Option.map_eq_some_iff.mp hempty
  rcases hsame.mp heq with (hlinear | hpasses) | hreal
  · cases hlinear
  · cases hpasses
  · have htype := hreal r (List.mem_of_mem_head? hr)
    rw [hvalues] at htype
    cases htype rfl

end Pipeline
end Dataflow
