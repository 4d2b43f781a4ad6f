import Dataflow.Proofs.Action
import Dataflow.Settings.File
import Dataflow.Settings.Flags

/-! # Settings that are accepted

Flags and settings files are checked field by field, each in an order of its own, and a file may leave out
what has a default. Both come to the same: settings are accepted if they are sound, wherever they come from.
A file has a name besides, and may name the files that a run writes. -/

namespace Dataflow

/-! ### Single checks -/

namespace Check
variable {field value : String}

/-- The text may stand for a path. -/
def IsPath (value : String) : Prop := value ≠ "" ∧ '\x00' ∉ value.toList

theorem path_eq_ok : path field value = .ok () ↔ IsPath value := by
  unfold path IsPath
  by_cases hempty : value = ""
  · simp [hempty]
  · by_cases hnull : '\x00' ∈ value.toList <;> simp [hempty, hnull]

theorem atLeast_eq_ok {n least : Nat} : atLeast field n least = .ok () ↔ least ≤ n := by
  unfold atLeast
  by_cases h : n < least
  · simp [h]
  · simp [h, Nat.le_of_not_lt h]

theorem nonBlank_eq_ok : nonBlank field value = .ok () ↔ Text.isBlankText value = false := by
  unfold nonBlank
  cases Text.isBlankText value <;> simp

theorem range_eq_ok {shown : Nat → String} {n low high : Nat} :
    range shown field n low high = .ok () ↔ low ≤ n ∧ n ≤ high := by
  unfold range
  by_cases h : n < low ∨ high < n
  · simp only [h, if_true, reduceCtorEq, false_iff]
    omega
  · simp only [h, if_false, true_iff]
    omega

theorem extensions_eq_ok {files allowed : List String} :
    extensions field files allowed = .ok () ↔ ∀ file ∈ files, ∃ ext ∈ allowed, extension? file = some ext := by
  unfold extensions
  rw [Result.forM_eq_ok]
  refine forall₂_congr fun file _ => ?_
  rcases extension? file with _ | ext
  · simp
  · by_cases h : ext ∈ allowed <;> simp [h]

end Check

/-! ### Sound settings -/

namespace Settings
variable {s t : Settings}

/-- Settings that a run can start from. -/
structure Sound (s : Settings) : Prop where
  output : Check.IsPath s.outputPath
  model : ∀ path, s.modelPath = some path → Check.IsPath path ∧ Check.extension? path = some "json"
  predictor : s.modelPath = none → s.weights ≠ []
  passes : 1 ≤ s.maxPasses ∧ s.maxPasses ≤ maxPassesLimit
  verify : s.verify = true → s.refine = true

theorem sound_of_none (h : s.modelPath = none) : s.Sound ↔
    Check.IsPath s.outputPath ∧ 1 ≤ s.weights.length ∧ (1 ≤ s.maxPasses ∧ s.maxPasses ≤ maxPassesLimit) ∧
      (s.verify = true → s.refine = true) := by
  constructor
  · rintro ⟨houtput, -, hpredictor, hpasses, hverify⟩
    exact ⟨houtput, List.length_pos_of_ne_nil (hpredictor h), hpasses, hverify⟩
  · rintro ⟨houtput, hweights, hpasses, hverify⟩
    exact ⟨houtput, fun path hpath => (nomatch h.symm.trans hpath), fun _ => List.ne_nil_of_length_pos hweights,
      hpasses, hverify⟩

theorem sound_of_some {path : String} (h : s.modelPath = some path) : s.Sound ↔
    Check.IsPath s.outputPath ∧ (Check.IsPath path ∧ Check.extension? path = some "json") ∧
      (1 ≤ s.maxPasses ∧ s.maxPasses ≤ maxPassesLimit) ∧ (s.verify = true → s.refine = true) := by
  constructor
  · rintro ⟨houtput, hmodel, -, hpasses, hverify⟩
    exact ⟨houtput, hmodel path h, hpasses, hverify⟩
  · rintro ⟨houtput, hpath, hpasses, hverify⟩
    refine ⟨houtput, fun path' hpath' => ?_, fun hnone => (nomatch h.symm.trans hnone), hpasses, hverify⟩
    cases h.symm.trans hpath'
    exact hpath

/-- Settings that ask for the same run. The predictor does not matter where a model is loaded. -/
structure SameRun (s t : Settings) : Prop where
  modelPath : s.modelPath = t.modelPath
  predictor : s.modelPath = none → s.weights = t.weights ∧ s.bias = t.bias
  refine : s.refine = t.refine
  maxPasses : s.maxPasses = t.maxPasses
  verify : s.verify = t.verify
  inputs : s.inputs = t.inputs
  outputPath : s.outputPath = t.outputPath
  modelFile : s.modelFile = t.modelFile
  reportFile : s.reportFile = t.reportFile

theorem SameRun.symm (h : s.SameRun t) : t.SameRun s where
  modelPath := h.modelPath.symm
  predictor hnone := by
    obtain ⟨hweights, hbias⟩ := h.predictor (h.modelPath.trans hnone)
    exact ⟨hweights.symm, hbias.symm⟩
  refine := h.refine.symm
  maxPasses := h.maxPasses.symm
  verify := h.verify.symm
  inputs := h.inputs.symm
  outputPath := h.outputPath.symm
  modelFile := h.modelFile.symm
  reportFile := h.reportFile.symm

theorem Sound.sameRun (hs : s.Sound) (h : s.SameRun t) : t.Sound where
  output := h.outputPath ▸ hs.output
  model := h.modelPath ▸ hs.model
  predictor hnone := by
    have hnone' : s.modelPath = none := h.modelPath.trans hnone
    rw [← (h.predictor hnone').1]
    exact hs.predictor hnone'
  passes := h.maxPasses ▸ hs.passes
  verify := h.verify ▸ h.refine ▸ hs.verify

end Settings

/-! ### Flags and files -/

theorem Check.implied_eq_ok {a b : Bool} {e : Error} :
    (if (a && !b) = true then throw e else pure () : Result Unit) = .ok () ↔ (a = true → b = true) := by
  cases a <;> cases b <;> simp

theorem Flags.check_eq_ok {f : Flags} : f.check = .ok () ↔ f.settings.Sound := by
  unfold Flags.check
  simp only [Result.guard_eq_ok, Check.path_eq_ok, Check.range_eq_ok]
  rcases hmodel : f.model with _ | path
  · rw [Settings.sound_of_none hmodel]
    simp only [Result.guard_eq_ok, Check.atLeast_eq_ok, Check.implied_eq_ok]
    exact and_congr_right fun _ => and_left_comm
  · rw [Settings.sound_of_some hmodel]
    simp only [Result.guard_eq_ok, Check.path_eq_ok, Check.extensions_eq_ok, Check.implied_eq_ok, List.mem_singleton,
      forall_eq, exists_eq_left]
    exact ⟨fun ⟨houtput, hpasses, hpath, hext, hverify⟩ => ⟨houtput, ⟨hpath, hext⟩, hpasses, hverify⟩,
      fun ⟨houtput, ⟨hpath, hext⟩, hpasses, hverify⟩ => ⟨houtput, hpasses, hpath, hext, hverify⟩⟩

theorem SettingsFile.check_eq_ok {f : SettingsFile} : f.check = .ok () ↔
    Text.isBlankText f.name = false ∧ (∀ file ∈ f.modelFile, Check.extension? file = some "json") ∧
      (∀ file ∈ f.reportFile, Check.extension? file = some "json") ∧ f.settings.Sound := by
  unfold SettingsFile.check
  simp only [Result.guard_eq_ok, Check.nonBlank_eq_ok, Check.path_eq_ok, Check.extensions_eq_ok, List.mem_singleton,
    exists_eq_left, Option.mem_toList]
  refine and_congr_right fun _ => ?_
  -- The file names are checked between the output path and the model.
  rw [and_left_comm, and_left_comm (a := Check.IsPath f.outputPath)]
  refine and_congr_right fun _ => and_congr_right fun _ => ?_
  rcases hmodel : f.modelPath with _ | path
  · rw [Settings.sound_of_none hmodel]
    refine and_congr_right fun _ => ?_
    rcases hdemo : f.demo with _ | ⟨weights, bias⟩
    · have hnone : f.settings.weights = [] := by simp [settings, hdemo]
      simp [hnone]
    · have hsome : f.settings.weights = weights := by simp [settings, hdemo]
      simp only [Result.guard_eq_ok, Check.atLeast_eq_ok, Check.range_eq_ok, Check.implied_eq_ok, hsome]
  · rw [Settings.sound_of_some hmodel]
    simp only [Result.guard_eq_ok, Check.path_eq_ok, Check.extensions_eq_ok, Check.range_eq_ok, Check.implied_eq_ok,
      List.mem_singleton, forall_eq, exists_eq_left]
    exact and_congr_right fun _ => and_assoc.symm

/-- A file name that is left out, or is the one that it has then, passes the check of its extension. -/
theorem Check.extension?_of_getD {file : Option String} {name : String} (hname : Check.extension? name = some "json")
    (h : file.getD name = name) : ∀ given ∈ file, Check.extension? given = some "json" := by
  rintro given rfl
  obtain rfl : given = name := h
  exact hname

/-- Flags, and a settings file that has a name and asks for the same run, are accepted alike: both just when the
    settings are sound. -/
theorem Flags.accepted_as_file (c : Flags) (f : SettingsFile) (hrun : c.settings.SameRun f.settings)
    (hname : Text.isBlankText f.name = false) :
    (c.check = .ok () ↔ f.check = .ok ()) ∧ (c.check = .ok () ↔ c.settings.Sound) := by
  have hmodelFile : ∀ file ∈ f.modelFile, Check.extension? file = some "json" :=
    Check.extension?_of_getD (by decide) hrun.modelFile.symm
  have hreportFile : ∀ file ∈ f.reportFile, Check.extension? file = some "json" :=
    Check.extension?_of_getD (by decide) hrun.reportFile.symm
  have hfile : f.check = .ok () ↔ f.settings.Sound := by
    rw [SettingsFile.check_eq_ok]
    exact ⟨fun ⟨_, _, _, hsound⟩ => hsound, fun hsound => ⟨hname, hmodelFile, hreportFile, hsound⟩⟩
  rw [Flags.check_eq_ok, hfile]
  exact ⟨⟨fun hs => hs.sameRun hrun, fun hs => hs.sameRun hrun.symm⟩, Iff.rfl⟩

/-- Flags that load a model, with a predictor that is not needed. -/
def loadingFlags (passes : Nat) : Flags where
  model := some "models/linear.json"
  outputPath := "out"
  refine := true
  maxPasses := passes
  verify := true
  inputs := []
  weights := Settings.defaultWeights
  bias := Settings.defaultBias
  describe := false
  verbose := false
  logJson := false

/-- A file that loads the same model, and leaves out what it can. -/
def loadingFile (passes : Nat) : SettingsFile where
  name := "linear"
  description := ""
  version := "1"
  modelPath := some "models/linear.json"
  demo := none
  refine := none
  maxPasses := some passes
  verify := some true
  inputs := []
  outputPath := "out"
  modelFile := none
  reportFile := none
  verbose := none
  logJson := none

theorem loading_accepted_alike : (loadingFlags 64).settings.SameRun (loadingFile 64).settings ∧
    Text.isBlankText (loadingFile 64).name = false ∧ (loadingFlags 64).check = .ok () ∧
      (loadingFile 64).check = .ok () ∧
    (loadingFlags 65).check ≠ .ok () ∧ (loadingFile 65).check ≠ .ok () := by
  have hrun : ∀ n, (loadingFlags n).settings.SameRun (loadingFile n).settings := fun n =>
    ⟨rfl, fun hnone => (nomatch hnone), rfl, rfl, rfl, rfl, rfl, rfl, rfl⟩
  have hname : Text.isBlankText "linear" = false := by decide
  have halike : ∀ n, (loadingFlags n).check = .ok () ↔ (loadingFile n).check = .ok () := fun n =>
    (Flags.accepted_as_file (loadingFlags n) (loadingFile n) (hrun n) hname).1
  have hsound : (loadingFlags 64).check = .ok () := by decide
  have hpasses : (loadingFlags 65).check ≠ .ok () := by decide
  exact ⟨hrun 64, hname, hsound, (halike 64).mp hsound, hpasses, fun hfile => hpasses ((halike 65).mpr hfile)⟩

end Dataflow
