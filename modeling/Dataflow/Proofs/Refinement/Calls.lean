import Dataflow.Model.Transformer
import Dataflow.Proofs.Action
import Dataflow.Proofs.Model
import Dataflow.Proofs.Wire

/-! # What a node does to a transformer

A node that is copied or refined reads its transformer and calls it: it adds nodes to the target and maps
outputs, its own if it keeps to what it is told, and every call may fail. So the target grows at its end,
mappings of outputs of that node come behind the others, and nothing else changes. This file says so of
single calls, of every sequence of them, and of the actions that are put together from them. -/

namespace Dataflow

/-- A span ends within an output of the model, whatever the type of that output. -/
def Model.Encloses {κ : Type} [Node κ] (m : Model κ) (s : Span) : Prop :=
  ∃ out, m.Declares s.outlet out ∧ s.stop ≤ out.size

theorem Model.Encloses.mono {κ : Type} [Node κ] {m m' : Model κ} {s : Span} (h : m.Encloses s) (hext : m.Extends m') :
    m'.Encloses s := by
  obtain ⟨out, hout, hstop⟩ := h
  exact ⟨out, hout.mono hext, hstop⟩

namespace Transformer
variable {κ α β : Type} [Node κ] {t u v : Transformer κ} {id : Nat} {n : κ} {old new : Wire} {key : Outlet}

/-! ### Single calls -/

theorem wholeOutput_eq_ok (h : wholeOutput old = .ok key) : ∃ s, old.spans = [s] ∧ s.outlet = key := by
  unfold wholeOutput at h
  split at h
  case h_1 s hspans =>
    split at h
    · cases h
      exact ⟨s, hspans, rfl⟩
    · cases h
  case h_2 => cases h

/-- What a wire of the target has that may stand for `old`: the size that the source gives that output, its
    type, and spans that end within outputs. -/
theorem checkMapping_iff : t.checkMapping key old new = .ok () ↔
    (∀ size, t.sourceSizes.lookup key = some size → old.size = size) ∧ old.type? = new.type? ∧ old.size = new.size ∧
      ∀ s ∈ new.spans, ∃ out, t.model.Declares s.outlet out ∧ s.stop ≤ out.size % Size.limit := by
  have hspan : ∀ s : Span, (do
      let source ← t.model.output s.node s.output
      if source.size < s.stop then
        throw (.dimensionMismatch (checkMapping.context key) source.size s.stop) : Result Unit) = .ok () ↔
      ∃ out, t.model.Declares s.outlet out ∧ s.stop ≤ out.size % Size.limit := by
    intro s
    have hwhole : ∀ out : Output, (Wire.ofSpan (.whole s.outlet out.type out.size)).size = out.size % Size.limit :=
      fun _ => rfl
    rw [Result.bind_eq_ok]
    constructor
    · rintro ⟨source, hsource, hstop⟩
      obtain ⟨out, hout, rfl⟩ := Model.output_eq_ok (o := s.outlet).mp hsource
      refine ⟨out, hout, Nat.le_of_not_lt fun hlt => ?_⟩
      rw [if_pos ((hwhole out).symm ▸ hlt)] at hstop
      cases hstop
    · rintro ⟨out, hout, hstop⟩
      refine ⟨_, Model.output_eq_ok.mpr ⟨out, hout, rfl⟩, ?_⟩
      rw [if_neg ((hwhole out).symm ▸ Nat.not_lt.mpr hstop)]
      rfl
  unfold checkMapping
  simp only [← hspan, ← Result.forM_eq_ok]
  have hchecks : ∀ checks : Result Unit, (if old.type? ≠ new.type? then
        throw (.typeMismatch (checkMapping.typeName old) (checkMapping.typeName new))
      else if old.size ≠ new.size then throw (.dimensionMismatch (checkMapping.context key) old.size new.size)
      else checks) = .ok () ↔ old.type? = new.type? ∧ old.size = new.size ∧ checks = .ok () := by
    intro checks
    by_cases htype : old.type? = new.type? <;> by_cases hsize : old.size = new.size <;> simp [htype, hsize]
  rcases t.sourceSizes.lookup key with _ | size
  · simpa using hchecks _
  · by_cases hsize : old.size = size
    · simpa [hsize] using hchecks _
    · simp [hsize]

theorem encloses_of_checkMapping (h : t.checkMapping key old new = .ok ()) :
    ∀ s ∈ new.spans, t.model.Encloses s := by
  intro s hs
  obtain ⟨out, hout, hstop⟩ := (checkMapping_iff.mp h).2.2.2 s hs
  exact ⟨out, hout, Nat.le_trans hstop (Nat.mod_le _ _)⟩

/-- Adding a node fails and changes nothing, or puts the node last. -/
theorem runFrom_add_cases (t : Transformer κ) (n : κ) : (∃ e, runFrom t (add n) = (.error e, t)) ∨
    (t.model.check t.model.size n = .ok () ∧
      runFrom t (add n) = (.ok t.model.size, { t with model := t.model.push n })) := by
  unfold add
  rw [runFrom_bind_ok runFrom_get]
  rcases hadd : t.model.add n with e | m
  · exact .inl ⟨e, by rw [runFrom_bind_error (runFrom_lift _)]⟩
  · obtain ⟨hcheck, rfl⟩ := Model.add_eq_ok.mp hadd
    exact .inr ⟨hcheck, by rw [runFrom_lift_ok rfl]; rfl⟩

theorem add_changes : (runFrom t (add n)).2 = t ∨ (runFrom t (add n)).2 = { t with model := t.model.push n } := by
  rcases runFrom_add_cases t n with ⟨e, h⟩ | ⟨-, h⟩
  · exact .inl (by rw [h])
  · exact .inr (by rw [h])

/-- A call to map an output changes nothing, or puts a mapping last that has passed the checks. -/
theorem mapOutput_changes : (runFrom t (mapOutput old new)).2 = t ∨
    ∃ key, wholeOutput old = .ok key ∧ t.checkMapping key old new = .ok () ∧
      (runFrom t (mapOutput old new)).2 = { t with outputMap := t.outputMap ++ [(key, new)] } := by
  unfold mapOutput
  rw [runFrom_bind_ok runFrom_get]
  rcases hkey : wholeOutput old with e | key
  · exact .inl (by rw [runFrom_bind_error (runFrom_lift _)])
  rw [runFrom_lift_ok rfl]
  rcases hcheck : t.checkMapping key old new with e | _
  · exact .inl (by rw [runFrom_bind_error (runFrom_lift _)])
  rw [runFrom_lift_ok rfl]
  rcases hlookup : t.outputMap.lookup key with _ | present
  · exact .inr ⟨key, rfl, hcheck, rfl⟩
  · refine .inl ?_
    dsimp only
    split <;> rfl

/-- What an accepted mapping says of the wire, whatever the nodes of the target are. -/
theorem mapOutput_within (h : runFrom t (mapOutput old new) = (.ok (), u)) :
    u.model = t.model ∧ ∃ type, old.type? = some type ∧ new.type? = some type ∧ new.size = old.size ∧
      ∀ s ∈ new.spans, u.model.Encloses s := by
  have hmodel : u.model = t.model := by
    have hchanges := @mapOutput_changes _ _ t old new
    rw [h] at hchanges
    rcases hchanges with h | ⟨key, -, -, h⟩
    · exact (congrArg model h :)
    · exact (congrArg model h :)
  unfold mapOutput at h
  rw [runFrom_bind_ok runFrom_get] at h
  obtain ⟨key, hkey, h⟩ := runFrom_lift_inv h
  obtain ⟨_, hcheck, -⟩ := runFrom_lift_inv h
  obtain ⟨-, htypes, hsize, -⟩ := checkMapping_iff.mp hcheck
  obtain ⟨span, hold, -⟩ := wholeOutput_eq_ok hkey
  have htype : old.type? = some span.type := Wire.type?_eq (by rw [hold]; exact List.mem_singleton_self _)
  exact ⟨hmodel, span.type, htype, htypes.symm.trans htype, hsize.symm, hmodel ▸ encloses_of_checkMapping hcheck⟩

/-! ### Sequences of calls -/

/-- What a sequence of calls can make of a transformer, if it maps only outputs of node `id`. -/
inductive Calls (id : Nat) (t : Transformer κ) : Transformer κ → Prop
  | none : Calls id t t
  | add {u : Transformer κ} (n : κ) : Calls id t u → Calls id t (runFrom u (add n)).2
  | map {u : Transformer κ} (old new : Wire) (own : ∀ key, wholeOutput old = .ok key → key.node = id) :
      Calls id t u → Calls id t (runFrom u (mapOutput old new)).2

theorem Calls.trans (h : Calls id t u) (h' : Calls id u v) : Calls id t v := by
  induction h' with
  | none => exact h
  | add n _ ih => exact ih.add n
  | map old new own _ ih => exact ih.map old new own

/-- What calls leave of a transformer and what they add to it. -/
structure Grows (id : Nat) (t u : Transformer κ) : Prop where
  model : t.model.Extends u.model
  mapped : ∃ added, u.outputMap = t.outputMap ++ added ∧
    ∀ p ∈ added, p.1.node = id ∧ ∀ s ∈ p.2.spans, u.model.Encloses s
  modified : u.modified = t.modified
  sourceSizes : u.sourceSizes = t.sourceSizes

theorem Calls.grows (h : Calls id t u) : Grows id t u := by
  induction h with
  | none => exact ⟨List.prefix_refl _, ⟨[], by simp, by simp⟩, rfl, rfl⟩
  | @add u n _ ih =>
    rcases add_changes (t := u) (n := n) with h | h <;> rw [h]
    · exact ih
    · obtain ⟨added, hadded, hown⟩ := ih.mapped
      refine ⟨ih.model.trans Model.extends_push, ⟨added, hadded, fun p hp => ?_⟩, ih.modified, ih.sourceSizes⟩
      exact ⟨(hown p hp).1, fun s hs => ((hown p hp).2 s hs).mono Model.extends_push⟩
  | @map u old new own _ ih =>
    rcases mapOutput_changes (t := u) with h | ⟨key, hkey, hcheck, h⟩ <;> rw [h]
    · exact ih
    · obtain ⟨added, hadded, hown⟩ := ih.mapped
      refine ⟨ih.model, ⟨added ++ [(key, new)], ?_, fun p hp => ?_⟩, ih.modified, ih.sourceSizes⟩
      · rw [← List.append_assoc, ← hadded]
      · rcases List.mem_append.mp hp with hp | hp
        · exact hown p hp
        · rw [List.mem_singleton.mp hp]
          exact ⟨own key hkey, encloses_of_checkMapping hcheck⟩

/-- Taking back calls gives what was there before them, if no output of the node was mapped then. -/
theorem Calls.rollback (h : Calls id t u) (hfresh : ∀ p ∈ t.outputMap, p.1.node ≠ id) :
    u.rollback t.model.size id = t := by
  obtain ⟨hmodel, ⟨added, hadded, hown⟩, hmodified, hsizes⟩ := h.grows
  have hmap : u.outputMap.filter (fun p => p.1.node ≠ id) = t.outputMap := by
    have hkept : t.outputMap.filter (fun p => p.1.node ≠ id) = t.outputMap :=
      List.filter_eq_self.mpr fun p hp => by simpa using hfresh p hp
    have hnone : added.filter (fun p => p.1.node ≠ id) = [] :=
      List.filter_eq_nil_iff.mpr fun p hp => by simpa using (hown p hp).1
    rw [hadded, List.filter_append, hkept, hnone, List.append_nil]
  rw [Transformer.rollback, hmodel.truncate, hmap, hmodified, hsizes]

/-! ### The check of what is mapped -/

theorem checkMapped_eq_ok {source : Model κ} : t.checkMapped source = .ok () ↔
    ∀ o out, source.Declares o out → ∃ w, t.outputMap.lookup o = some w ∧ w.size = out.size := by
  constructor
  · rintro h o out ⟨n, hn, hout⟩
    have hone := Result.forM_eq_ok.mp (Result.forM_eq_ok.mp h (n, o.node) (List.mem_zipIdx_iff_getElem?.mpr hn))
      (out, o.index) (List.mem_zipIdx_iff_getElem?.mpr hout)
    dsimp only at hone
    split at hone
    case h_1 w hw =>
      split at hone
      case isTrue hsize => exact ⟨w, hw, hsize⟩
      case isFalse => cases hone
    case h_2 => cases hone
  · intro h
    refine Result.forM_eq_ok.mpr fun p hp => Result.forM_eq_ok.mpr fun q hq => ?_
    have hout : source.Declares ⟨p.2, q.2⟩ q.1 :=
      ⟨p.1, List.mem_zipIdx_iff_getElem?.mp hp, List.mem_zipIdx_iff_getElem?.mp hq⟩
    obtain ⟨w, hw, hsize⟩ := h _ _ hout
    simp only [hw, hsize, if_true]

/-! ### Actions of a node -/

/-- Whatever transformer it starts in, an action does nothing to it but add nodes and map outputs of node `id`. -/
def Confined (id : Nat) (x : Transformation κ α) : Prop := ∀ t, Calls id t (runFrom t x).2

/-- Whatever transformer it starts in, an action maps no outputs but those of node `id`. It may do anything else:
    take nodes of the target away, say, or begin another target. -/
def MapsOnly (id : Nat) (x : Transformation κ α) : Prop :=
  ∀ t, ∀ p ∈ (runFrom t x).2.outputMap, p ∈ t.outputMap ∨ p.1.node = id

theorem Confined.mapsOnly {x : Transformation κ α} (h : Confined id x) : MapsOnly id x := by
  intro t p hp
  obtain ⟨added, hadded, hown⟩ := (h t).grows.mapped
  rw [hadded] at hp
  exact (List.mem_append.mp hp).imp_right fun hp => (hown p hp).1

namespace Confined
variable {x : Transformation κ α} {f : α → Transformation κ β}

theorem pure (a : α) : Confined id (Pure.pure a : Transformation κ α) := fun _ => .none

theorem throw (e : Error) : Confined id (MonadExcept.throw e : Transformation κ α) := fun _ => .none

theorem lift (r : Result α) : Confined id (liftM r : Transformation κ α) := fun _ => .none

theorem remap (w : Wire) : Confined id (Transformer.remap w : Transformation κ Wire) := fun _ => .none

theorem output (node index : Nat) : Confined id (Transformer.output node index : Transformation κ Wire) :=
    fun _ => .none

theorem add (n : κ) : Confined id (add n) := fun _ => .add n .none

theorem mapOutput (own : ∀ key, wholeOutput old = .ok key → key.node = id) :
    Confined id (Transformer.mapOutput old new : Transformation κ Unit) :=
  fun _ => .map old new own .none

theorem bind (hx : Confined id x) (hf : ∀ a, Confined id (f a)) : Confined id (x >>= f) := by
  intro t
  rw [runFrom_bind]
  have hfirst := hx t
  rcases h : runFrom t x with ⟨e | a, u⟩ <;> rw [h] at hfirst
  · exact hfirst
  · exact hfirst.trans (hf a u)

/-- An action that follows a result need only be confined where the result is as it can be. -/
theorem lift_bind {r : Result α} (hf : ∀ a, r = .ok a → Confined id (f a)) : Confined id (liftM r >>= f) := by
  rcases hr : r with e | a
  · exact fun _ => .none
  · intro t
    rw [runFrom_lift_ok rfl]
    exact hf a hr t

theorem forM {f : α → Transformation κ Unit} {xs : List α} (hf : ∀ a ∈ xs, Confined id (f a)) :
    Confined id (xs.forM f) := by
  rw [List.forM_eq_forM]
  induction xs with
  | nil => exact Confined.pure ()
  | cons a rest ih =>
    rw [List.forM_cons]
    exact (hf a List.mem_cons_self).bind fun _ => ih fun b hb => hf b (List.mem_cons_of_mem _ hb)

theorem mapM {xs : List α} (hf : ∀ a, Confined id (f a)) : Confined id (xs.mapM f) := by
  induction xs with
  | nil => exact Confined.pure []
  | cons a rest ih =>
    rw [List.mapM_cons]
    exact (hf a).bind fun b => ih.bind fun bs => Confined.pure (b :: bs)

end Confined

/-! ### A node in a pass -/

section
variable {κ : Type} [Refinable κ] {t u : Transformer κ} {n : κ} {id : Nat}

theorem runFrom_refined (h : runFrom t (Refinable.refine n id) = (.ok true, u)) :
    runFrom t (refineNode n id) = (.ok (), { u with modified := true }) := by
  unfold refineNode
  rw [runFrom_bind_ok runFrom_get, runFrom_bind_ok (by rw [runFrom_tryCatch, h])]
  rfl

/-- A node that failed or declined to be refined is copied once what it did is taken back. -/
theorem runFrom_declined {r : Result Bool} (h : runFrom t (Refinable.refine n id) = (r, u)) (hr : r ≠ .ok true) :
    runFrom t (refineNode n id) = runFrom (u.rollback t.model.size id) (Refinable.copy n id) := by
  have htry : runFrom t (tryCatch (Refinable.refine n id) fun _ => Pure.pure false) = (.ok false, u) := by
    rw [runFrom_tryCatch, h]
    rcases r with e | _ | _
    · rfl
    · rfl
    · exact absurd rfl hr
  unfold refineNode
  rw [runFrom_bind_ok runFrom_get, runFrom_bind_ok htry]
  exact runFrom_bind_ok (runFrom_modify _)

end

end Transformer

/-- Copied or refined, no node does anything to a transformer but add nodes to it and map its own outputs. -/
def Refinable.Confined (κ : Type) [Refinable κ] : Prop :=
  ∀ (n : κ) id, Transformer.Confined id (copy n id) ∧ Transformer.Confined id (refine n id)

end Dataflow
