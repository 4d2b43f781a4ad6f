import Dataflow.Proofs.Archive.Stored
import Dataflow.Proofs.Pipeline
import Dataflow.Settings.File

/-! # What a run leaves behind

A run writes only when all else has succeeded: the model first, then the report. So a run that fails leaves
all files as they were, and one that succeeds leaves the report, and the model beside it unless the report was
written over it. -/

namespace Dataflow
open Json

/-! ### Storages of files -/

/-- A storage whose writes always succeed. Its names stand for files, several names perhaps for the same one:
    reading leaves all of them as they are, and writing changes the one that is named. -/
structure Storage.Reliable (σ φ : Type) [DecidableEq φ] extends Storage (StateM σ) where
  file : String → φ
  content : σ → φ → Option (List Text.Symbol)
  read_content : ∀ st name f, content (runFrom st (read name)).2 f = content st f
  write_ok : ∀ st name text, (runFrom st (write name text)).1 = .ok ()
  write_content : ∀ st name text f,
    content (runFrom st (write name text)).2 f = if f = file name then some (Text.symbols text) else content st f

namespace Storage.Reliable
variable {σ φ : Type} [DecidableEq φ]

/-- The model that a file holds, or why it holds none. -/
def modelIn (d : Reliable σ φ) (st : σ) (f : φ) : Option (Result (Model Builtin)) :=
  (d.content st f).map fun text => do Model.unarchive Builtin.registry (← Archive.Document.parse text)

/-- Two texts written one after the other. -/
theorem content_write_write (d : Reliable σ φ) (st : σ) (name name' text text' : String) (f : φ) :
    d.content (runFrom (runFrom st (d.write name text)).2 (d.write name' text')).2 f =
      if f = d.file name' then some (Text.symbols text')
      else if f = d.file name then some (Text.symbols text) else d.content st f := by
  rw [d.write_content, d.write_content]

end Storage.Reliable

/-! ### Reports -/

namespace Report

theorem isNumeral_signal {x : Signal} : ∀ l ∈ literals x.toJson, IsNumeral l := by
  intro l hl
  have hl : l ∈ itemLiterals (Signal.toJson.elements x) := by
    simpa [Signal.toJson, ElemType.toJson, literals, memberLiterals] using hl
  obtain ⟨j, hj, hl⟩ := mem_itemLiterals hl
  cases x with
  | real xs =>
    obtain ⟨x, -, rfl⟩ := List.mem_map.mp hj
    exact isNumeral_of_mem_ofFloat hl
  | int ns =>
    obtain ⟨n, -, rfl⟩ := List.mem_map.mp hj
    obtain rfl := List.mem_singleton.mp hl
    exact isNumeral_toString _
  | bool bs =>
    obtain ⟨b, -, rfl⟩ := List.mem_map.mp hj
    cases hl

theorem isNumeral_report {r : Report} : ∀ l ∈ literals r.toJson, IsNumeral l := by
  intro l hl
  have hl : l = toString r.nodeCount ∨ l = toString r.passes ∨
      l ∈ itemLiterals (r.outputs.map OutputReport.toJson) := by
    simpa [Report.toJson, literals, memberLiterals, ofNat] using hl
  rcases hl with rfl | rfl | hl
  · exact isNumeral_toString (r.nodeCount : Int)
  · exact isNumeral_toString (r.passes : Int)
  · obtain ⟨j, hj, hl⟩ := mem_itemLiterals hl
    obtain ⟨output, -, rfl⟩ := List.mem_map.mp hj
    have hl : l ∈ literals output.values.toJson := by
      simpa [OutputReport.toJson, literals, memberLiterals] using hl
    exact isNumeral_signal l hl

/-- A report is a text of JSON, and not one of an archive. -/
theorem parse_archive (sp : Spacing) (r : Report) :
    Archive.Document.parse (Text.symbols (r.print sp)) = .error (.serialization "not an archive document") := by
  have hnone : Archive.Document.ofJson? maxDepth (raw r.toJson) = none := rfl
  have hdecode : decode "an archive document" (Archive.Document.ofJson? maxDepth) (Text.symbols (r.print sp)) =
      .error (.serialization "not an archive document") := by
    rw [decode, print, parse?_print _ isNumeral_report, Option.bind_some, hnone]
    rfl
  rw [Archive.Document.parse, hdecode]
  rfl

end Report

/-! ### Runs -/

namespace Settings

/-- Where the model goes. -/
def modelTarget (s : Settings) : String := s!"{s.outputPath}/{s.modelFile}"

def reportTarget (s : Settings) : String := s!"{s.outputPath}/{s.reportFile}"

end Settings

namespace Pipeline

/-- The model that a run starts with was read from an archive or put together. -/
theorem obtained_of_fetch {σ : Type} {storage : Storage (StateM σ)} {s : Settings} {st : σ} {m : Model Builtin}
    (h : (runFrom st (fetch storage s)).1 = .ok m) : Obtained m := by
  unfold fetch at h
  cases hpath : s.modelPath with
  | some path =>
    rw [hpath] at h
    dsimp only at h
    rw [runFrom_bind] at h
    rcases hread : runFrom st (storage.read path) with ⟨_ | text, mid⟩ <;> rw [hread] at h
    · cases h
    · obtain ⟨r, -, hmodel⟩ := Result.bind_eq_ok.mp (h : Archive.Document.parse text >>= _ = _)
      exact .unarchived hmodel
  | none =>
    rw [hpath] at h
    change predictorModel _ = _ at h
    unfold predictorModel at h
    obtain ⟨m₁, hm₁, h⟩ := Result.bind_eq_ok.mp h
    obtain ⟨w, -, h⟩ := Result.bind_eq_ok.mp h
    obtain ⟨n, hn, h⟩ := Result.bind_eq_ok.mp h
    exact (Obtained.empty.add (.input .real _) hm₁).add (.linear hn) h

/-- A run hands on a model that there is a way to get. -/
theorem obtained_of_transform {m : Model Builtin} {s : Settings} {o : Outcome Builtin} (hm : Obtained m)
    (h : transform s m = .ok o) : Obtained o.model := by
  obtain ⟨-, targets, -, wires, hprepare, -⟩ := transform_iff.mp h
  unfold prepare at hprepare
  cases hrefine : s.refine with
  | true =>
    rw [hrefine] at hprepare
    obtain ⟨r, hrun, hprepare⟩ := Result.bind_eq_ok.mp hprepare
    obtain ⟨wires', -, hprepare⟩ := Result.bind_eq_ok.mp hprepare
    simp only [Result.pure_eq, Except.ok.injEq, Prod.mk.injEq] at hprepare
    exact hprepare.1 ▸ hm.refined hrun
  | false =>
    rw [hrefine] at hprepare
    obtain ⟨⟨m', f⟩, hcopy, hprepare⟩ := Result.bind_eq_ok.mp hprepare
    simp only [Result.pure_eq, Except.ok.injEq, Prod.mk.injEq] at hprepare
    exact hprepare.1 ▸ hm.copied hcopy

section
variable {σ φ : Type} [DecidableEq φ] (d : Storage.Reliable σ φ) {s : Settings} {st : σ} {stamp : String}

theorem content_fetch (f : φ) : d.content (runFrom st (fetch d.toStorage s)).2 f = d.content st f := by
  unfold fetch
  cases s.modelPath with
  | some path =>
    dsimp only
    rw [runFrom_bind]
    rcases hread : runFrom st (d.read path) with ⟨_ | text, mid⟩ <;>
      exact (congrArg (d.content ·.2 f) hread).symm.trans (d.read_content st path f)
  | none => rfl

/-- Storing fails before anything is written, or writes the model and then the report. -/
theorem runFrom_store (o : Outcome Builtin) : runFrom st (store d.toStorage stamp s o) =
    match Archive.archive o.model with
    | .error e => (.error e, st)
    | .ok root => (.ok s.modelTarget,
        (runFrom (runFrom st (d.write s.modelTarget (Archive.Document.print .spread stamp root))).2
          (d.write s.reportTarget (o.report.print .spread))).2) := by
  unfold store
  rw [runFrom_bind, runFrom_lift]
  cases Archive.archive o.model with
  | error e => rfl
  | ok root =>
    have hwrite : ∀ st name text, runFrom st (d.write name text) = (.ok (), (runFrom st (d.write name text)).2) :=
      fun st name text => Prod.ext (d.write_ok st name text) rfl
    dsimp only
    rw [runFrom_bind_ok (hwrite _ _ _), runFrom_bind_ok (hwrite _ _ _)]
    rfl

/-- The stages of a run: what it starts with, what becomes of that, and what is written. -/
theorem runFrom_run : runFrom st (run d.toStorage stamp s) =
    match runFrom st (fetch d.toStorage s) with
    | (.error e, mid) => (.error e, mid)
    | (.ok m, mid) => match transform s m with
      | .error e => (.error e, mid)
      | .ok o => runFrom mid (store d.toStorage stamp s o) := by
  unfold run
  rw [runFrom_bind]
  rcases runFrom st (fetch d.toStorage s) with ⟨_ | m, mid⟩
  · rfl
  · dsimp only
    rw [runFrom_bind, runFrom_lift]
    cases transform s m <;> rfl

/-- A run that fails leaves every file as it was. A run that succeeds gives the name of the model's file; it
    leaves its report in the other one, and every further file as it was. The model's file holds the model, to the
    last bit, if the report has a file of its own; otherwise the report was written over it, and no archive is left. -/
theorem run_delivers (stamped : Timestamp.isValid stamp = true) (s : Settings) (st : σ) :
    let answer := (runFrom st (run d.toStorage stamp s)).1
    let left := (runFrom st (run d.toStorage stamp s)).2
    (∀ e, answer = .error e → ∀ f, d.content left f = d.content st f) ∧
    ∀ path, answer = .ok path → path = s.modelTarget ∧
      ∃ m o, (runFrom st (fetch d.toStorage s)).1 = .ok m ∧ transform s m = .ok o ∧
        d.content left (d.file s.reportTarget) = some (Text.symbols (o.report.print .spread)) ∧
        (∀ f, f ≠ d.file path → f ≠ d.file s.reportTarget → d.content left f = d.content st f) ∧
        (d.file path ≠ d.file s.reportTarget → d.modelIn left (d.file path) = some (.ok o.model)) ∧
        (d.file path = d.file s.reportTarget →
          d.modelIn left (d.file path) = some (.error (.serialization "not an archive document"))) := by
  have hfetched : ∀ f, d.content (runFrom st (fetch d.toStorage s)).2 f = d.content st f := content_fetch d
  rw [runFrom_run]
  rcases hfetch : runFrom st (fetch d.toStorage s) with ⟨e | m, mid⟩ <;> rw [hfetch] at hfetched <;> dsimp only
  · exact ⟨fun _ _ => hfetched, nofun⟩
  rcases htransform : transform s m with e | o <;> dsimp only
  · exact ⟨fun _ _ => hfetched, nofun⟩
  rw [runFrom_store]
  rcases hroot : Archive.archive o.model with e | root <;> dsimp only
  · exact ⟨fun _ _ => hfetched, nofun⟩
  refine ⟨nofun, fun path hpath => ?_⟩
  cases hpath
  refine ⟨rfl, m, o, rfl, htransform, ?_, ?_, ?_, ?_⟩
  · rw [d.content_write_write, if_pos rfl]
  · intro f hmodel hreport
    rw [d.content_write_write, if_neg hreport, if_neg hmodel, hfetched]
  · intro hdiffer
    have hm : Obtained o.model := obtained_of_transform (obtained_of_fetch (congrArg Prod.fst hfetch)) htransform
    rw [Storage.Reliable.modelIn, d.content_write_write, if_neg hdiffer, if_pos rfl, Option.map_some]
    exact congrArg some (hm.unarchive_parse .spread stamped hroot)
  · intro hsame
    rw [Storage.Reliable.modelIn, d.content_write_write, if_pos hsame, Option.map_some, Report.parse_archive]
    rfl

end

/-- Texts in memory, each name a file of its own. -/
def texts : Storage.Reliable (String → Option (List Text.Symbol)) String where
  read name := do
    match (← get) name with
    | some text => return text
    | none => throw (.io "no such text")
  write name text := modify fun files f => if f = name then some (Text.symbols text) else files f
  file := id
  content files := files
  read_content files name f := by
    rw [runFrom_bind, runFrom_get]
    dsimp only
    cases files name <;> rfl
  write_ok _ _ _ := rfl
  write_content _ _ _ _ := rfl

/-- Settings that give the model and the report one name. -/
def oneName : SettingsFile where
  name := "demo"
  description := ""
  version := "1"
  modelPath := none
  demo := some SettingsFile.fallback
  refine := none
  maxPasses := none
  verify := none
  inputs := []
  outputPath := "out"
  modelFile := some "same.json"
  reportFile := some "same.json"
  verbose := none
  logJson := none

/-- Such settings are accepted, and the run succeeds; the model is lost. -/
theorem oneName_loses_model : oneName.check = .ok () ∧
    ∃ left o, runFrom (fun _ => none) (run texts.toStorage "2024-02-29T12:00:00Z" oneName.settings) =
        (.ok "out/same.json", left) ∧
      (∃ m, transform oneName.settings m = .ok o) ∧ texts.modelIn left "out/same.json" ≠ some (.ok o.model) := by
  have hanswer : (runFrom (fun _ => none) (run texts.toStorage "2024-02-29T12:00:00Z" oneName.settings)).1 =
      .ok "out/same.json" := by decide +kernel
  have hstamp : Timestamp.isValid "2024-02-29T12:00:00Z" = true := by decide +kernel
  have hrun := (run_delivers texts hstamp oneName.settings fun _ => none).2 _ hanswer
  generalize hleft : runFrom (fun _ => none) (run texts.toStorage "2024-02-29T12:00:00Z" oneName.settings) =
    left at hanswer hrun
  obtain ⟨-, m, o, -, htransform, -, -, -, hlost⟩ := hrun
  refine ⟨by decide +kernel, left.2, o, Prod.ext hanswer rfl, ⟨m, htransform⟩, fun hkept => ?_⟩
  cases (hlost rfl).symm.trans hkept

end Pipeline
end Dataflow
