import Dataflow.Model.Transformer
import Dataflow.Proofs.Model
import Dataflow.Proofs.Wire

/-! # Leading wires to another model

A map of outputs replaces each span of a wire by a cut of the wire that stands for its output. Where no sum
of sizes wraps around, it can do so when that wire reaches as far as the span and has elements of its type;
the result has as many elements, of the same type, and no empty span. A map that leaves every output where it
is takes nothing from a wire but its empty spans. -/

namespace Dataflow
namespace OutputMap
variable {f g : OutputMap} {w : Wire} {s u : Span} {spans : List Span} {o : Outlet}

theorem mem_of_lookup (h : f.lookup o = some w) : (o, w) ∈ f := by
  obtain ⟨_, _, hf, -⟩ := List.lookup_eq_some_iff.mp h
  simp [hf]

/-- No sum of sizes in the wires of the map wraps around. -/
def Exact (f : OutputMap) : Prop := ∀ p ∈ f, p.2.Exact

instance (f : OutputMap) : Decidable f.Exact := inferInstanceAs (Decidable (∀ p ∈ f, _))

theorem Exact.lookup (h : f.Exact) (hw : f.lookup o = some w) : w.Exact := h _ (mem_of_lookup hw)

/-- What stands for a span. -/
def place (f : OutputMap) (s : Span) : List Span :=
  match f.lookup s.outlet with
  | some target => Span.cut s.start s.size target.spans
  | none => []

/-- The wire that stands for the output of a span reaches as far as the span. -/
def Holds (f : OutputMap) (s : Span) : Prop :=
  ∃ target, f.lookup s.outlet = some target ∧ target.Exact ∧ s.start + s.size ≤ target.size

theorem Holds.total_place (h : f.Holds s) : Span.total (f.place s) = s.size := by
  obtain ⟨target, hlookup, hexact, hstop⟩ := h
  rw [place, hlookup]
  exact Span.total_cut (hexact.size_eq ▸ hstop)

/-- The wire that stands for the output of a span has elements of its type, and reaches as far. -/
def Reaches (f : OutputMap) (s : Span) : Prop :=
  ∃ target, f.lookup s.outlet = some target ∧ target.Exact ∧ s.start + s.size ≤ target.size ∧ target.Carries s.type

theorem Reaches.holds (h : f.Reaches s) : f.Holds s := by
  obtain ⟨target, hlookup, hexact, hstop, -⟩ := h
  exact ⟨target, hlookup, hexact, hstop⟩

theorem Reaches.type_place (h : f.Reaches s) (hu : u ∈ f.place s) : u.type = s.type := by
  obtain ⟨target, hlookup, -, -, htype⟩ := h
  rw [place, hlookup] at hu
  obtain ⟨v, hv, -, ht, -⟩ := Span.mem_cut hu
  exact ht.trans (htype v hv)

/-- What stands for a span lies within spans of the map, and is not empty. -/
theorem mem_place (hu : u ∈ f.place s) :
    ∃ target, f.lookup s.outlet = some target ∧ ∃ v ∈ target.spans, u.outlet = v.outlet ∧ u.type = v.type ∧
      u.start + u.size ≤ v.start + v.size ∧ 0 < u.size := by
  rcases hlookup : f.lookup s.outlet with _ | target
  · rw [place, hlookup] at hu
    cases hu
  · rw [place, hlookup] at hu
    exact ⟨target, rfl, Span.mem_cut hu⟩

theorem Exact.place (h : f.Exact) (hu : u ∈ f.place s) : u.Exact := by
  obtain ⟨target, hlookup, v, hv, -, -, hle, -⟩ := mem_place hu
  exact ((h.lookup hlookup).spans v hv).of_le hle

theorem place_of_size_zero (h : s.size = 0) : f.place s = [] := by
  unfold place
  split
  · rw [h, Span.cut_zero]
  · rfl

theorem flatMap_place_trim : w.trim.spans.flatMap f.place = w.spans.flatMap f.place := by
  unfold Wire.trim
  simp only
  induction w.spans with
  | nil => rfl
  | cons s rest ih =>
    rcases Nat.eq_zero_or_pos s.size with hs | hs
    · rw [List.filter_cons_of_neg (by simp [hs]), List.flatMap_cons, place_of_size_zero hs, List.nil_append, ih]
    · rw [List.filter_cons_of_pos (by simp [hs]), List.flatMap_cons, List.flatMap_cons, ih]

theorem total_flatMap_place (h : ∀ s ∈ spans, Span.total (f.place s) = s.size) :
    Span.total (spans.flatMap f.place) = Span.total spans := by
  induction spans with
  | nil => rfl
  | cons s rest ih =>
    rw [List.flatMap_cons, Span.total_append, Span.total_cons, h s List.mem_cons_self,
      ih fun u hu => h u (List.mem_cons_of_mem _ hu)]

/-! ### Wires -/

def step (f : OutputMap) (acc : Wire) (s : Span) : Result Wire :=
  match f.lookup s.outlet with
  | none => .error (.transform s!"output {s.outlet.name} has no mapping")
  | some target => do acc.append (← target.slice s.start s.size)

theorem exists_foldlM_step {t : ElemType} (acc : Wire) (hacc : acc.Carries t) (ht : ∀ s ∈ spans, s.type = t)
    (h : ∀ s ∈ spans, f.Reaches s) :
    ∃ w, spans.foldlM f.step acc = .ok w ∧ w.spans = acc.spans ++ spans.flatMap f.place := by
  induction spans generalizing acc with
  | nil => exact ⟨acc, rfl, by simp⟩
  | cons s rest ih =>
    have hs := h s List.mem_cons_self
    obtain ⟨target, hlookup, hexact, hstop, -⟩ := h s List.mem_cons_self
    obtain ⟨part, hpart, hcut⟩ := Wire.exists_slice hexact hstop
    have hplace : part.spans = f.place s := by rw [hcut, place, hlookup]
    have hcarries : part.Carries t := fun u hu =>
      (hs.type_place (hplace ▸ hu)).trans (ht s List.mem_cons_self)
    obtain ⟨acc', happend, hspans⟩ := Wire.exists_append hacc hcarries
    have hstep : f.step acc s = .ok acc' := by
      rw [step, hlookup]
      show (target.slice s.start s.size >>= acc.append) = _
      rw [hpart]
      exact happend
    have hacc' : acc'.Carries t := fun u hu => by
      rw [hspans] at hu
      rcases List.mem_append.mp hu with hu | hu
      · exact hacc u hu
      · exact hcarries u hu
    obtain ⟨w, hw, hwspans⟩ := ih acc' hacc' (fun u hu => ht u (List.mem_cons_of_mem _ hu)) fun u hu =>
      h u (List.mem_cons_of_mem _ hu)
    refine ⟨w, ?_, ?_⟩
    · rw [List.foldlM_cons, hstep]
      exact hw
    · rw [hwspans, hspans, hplace, List.flatMap_cons, List.append_assoc]

/-- The wire that stands for a wire. -/
def image (f : OutputMap) (w : Wire) : Wire :=
  match f.remap w with
  | .ok w' => w'
  | .error _ => w

theorem exists_remap (h : ∀ s ∈ w.spans, f.Reaches s) :
    ∃ w', f.remap w = .ok w' ∧ w'.spans = w.spans.flatMap f.place := by
  obtain ⟨t, ht⟩ := w.exists_carries
  obtain ⟨w', hw', hspans⟩ := exists_foldlM_step .empty (fun _ hs => (by cases hs)) ht h
  exact ⟨w', hw', hspans⟩

theorem remap_eq (h : ∀ s ∈ w.spans, f.Reaches s) : f.remap w = .ok (f.image w) := by
  obtain ⟨w', hw', -⟩ := exists_remap h
  rw [image, hw']

theorem spans_image (h : ∀ s ∈ w.spans, f.Reaches s) : (f.image w).spans = w.spans.flatMap f.place := by
  obtain ⟨w', hw', hspans⟩ := exists_remap h
  rw [image, hw', hspans]

theorem size_image (h : ∀ s ∈ w.spans, f.Reaches s) : (f.image w).size = w.size := by
  rw [Wire.size_eq_mod, Wire.size_eq_mod, spans_image h, total_flatMap_place fun s hs => (h s hs).holds.total_place]

theorem mem_image (h : ∀ s ∈ w.spans, f.Reaches s) : u ∈ (f.image w).spans ↔ ∃ s ∈ w.spans, u ∈ f.place s := by
  rw [spans_image h, List.mem_flatMap]

theorem carries_image {t : ElemType} (h : ∀ s ∈ w.spans, f.Reaches s) (ht : w.Carries t) : (f.image w).Carries t := by
  intro u hu
  obtain ⟨s, hs, hu⟩ := (mem_image h).mp hu
  exact ((h s hs).type_place hu).trans (ht s hs)

theorem Exact.image (hf : f.Exact) (h : ∀ s ∈ w.spans, f.Reaches s) : ∀ u ∈ (f.image w).spans, u.Exact := by
  intro u hu
  obtain ⟨s, -, hu⟩ := (mem_image h).mp hu
  exact hf.place hu

/-- A map whose wires can all be led on is put together with the map that leads them on. -/
theorem andThen_eq (h : ∀ p ∈ f, ∀ s ∈ p.2.spans, g.Reaches s) :
    f.andThen g = .ok (f.map fun p => (p.1, g.image p.2)) := by
  show f.mapM (fun p => do return (p.1, ← g.remap p.2)) = _
  rw [Result.mapM_congr (g := fun p => pure (p.1, g.image p.2)) fun p hp => ?_, List.mapM_pure]
  · rfl
  · rw [remap_eq (h p hp)]
    rfl

/-! ### Wires that were led on -/

theorem step_eq_ok {acc acc' : Wire} (hf : f.Exact) (hs : s.Exact) (h : f.step acc s = .ok acc') :
    acc'.spans = acc.spans ++ f.place s ∧ f.Holds s := by
  unfold step at h
  rcases hlookup : f.lookup s.outlet with _ | target <;> rw [hlookup] at h
  · cases h
  · have hexact : target.Exact := hf.lookup hlookup
    obtain ⟨part, hpart, happend⟩ := Result.bind_eq_ok.mp h
    obtain ⟨hle, hcut⟩ := (Wire.slice_eq_ok hexact hs).mp hpart
    have hplace : f.place s = Span.cut s.start s.size target.spans := by rw [place, hlookup]
    rw [hplace, ← hcut]
    exact ⟨(Wire.append_eq_ok.mp happend).2, target, hlookup, hexact, hle⟩

/-- A wire that was led on has what stands for each of its spans, all of it. -/
theorem spans_of_remap {w' : Wire} (hf : f.Exact) (hw : ∀ s ∈ w.spans, s.Exact) (h : f.remap w = .ok w') :
    w'.spans = w.spans.flatMap f.place ∧ ∀ s ∈ w.spans, f.Holds s := by
  have hfold : ∀ (spans : List Span) (acc : Wire), (∀ s ∈ spans, s.Exact) → spans.foldlM f.step acc = .ok w' →
      w'.spans = acc.spans ++ spans.flatMap f.place ∧ ∀ s ∈ spans, f.Holds s := by
    intro spans
    induction spans with
    | nil =>
      intro acc _ h
      cases h
      exact ⟨by simp, by simp⟩
    | cons s rest ih =>
      intro acc hexact h
      obtain ⟨hs, hrest⟩ := List.forall_mem_cons.mp hexact
      rw [List.foldlM_cons] at h
      obtain ⟨mid, hmid, h⟩ := Result.bind_eq_ok.mp h
      obtain ⟨hspans, hholds⟩ := step_eq_ok hf hs hmid
      obtain ⟨hwire, hall⟩ := ih mid hrest h
      exact ⟨by rw [hwire, hspans, List.flatMap_cons, List.append_assoc], List.forall_mem_cons.mpr ⟨hholds, hall⟩⟩
  exact hfold w.spans .empty hw h

theorem size_of_remap {w' : Wire} (hf : f.Exact) (hw : ∀ s ∈ w.spans, s.Exact) (h : f.remap w = .ok w') :
    w'.size = w.size := by
  obtain ⟨hspans, hholds⟩ := spans_of_remap hf hw h
  rw [Wire.size_eq_mod, Wire.size_eq_mod, hspans, total_flatMap_place fun s hs => (hholds s hs).total_place]

theorem exact_of_remap {w' : Wire} (hf : f.Exact) (hw : w.Exact) (h : f.remap w = .ok w') : w'.Exact := by
  obtain ⟨hspans, hholds⟩ := spans_of_remap hf hw.spans h
  constructor
  · intro u hu
    rw [hspans] at hu
    obtain ⟨s, -, hu⟩ := List.mem_flatMap.mp hu
    exact hf.place hu
  · rw [hspans, total_flatMap_place fun s hs => (hholds s hs).total_place]
    exact hw.total

/-- Whatever wraps around, the spans of a wire that was led on are parts of spans of the map. -/
theorem mem_of_remap {w' : Wire} (h : f.remap w = .ok w') (hu : u ∈ w'.spans) :
    ∃ s ∈ w.spans, ∃ target, f.lookup s.outlet = some target ∧ ∃ v ∈ target.spans, u.outlet = v.outlet ∧
      u.type = v.type := by
  have hfold : ∀ (spans : List Span) (acc : Wire), spans.foldlM f.step acc = .ok w' → u ∈ acc.spans ∨
      ∃ s ∈ spans, ∃ target, f.lookup s.outlet = some target ∧ ∃ v ∈ target.spans, u.outlet = v.outlet ∧
        u.type = v.type := by
    intro spans
    induction spans with
    | nil =>
      intro acc h
      cases h
      exact .inl hu
    | cons s rest ih =>
      intro acc h
      rw [List.foldlM_cons] at h
      obtain ⟨mid, hmid, h⟩ := Result.bind_eq_ok.mp h
      rcases ih mid h with hmem | ⟨t, ht, hlater⟩
      · unfold step at hmid
        rcases hlookup : f.lookup s.outlet with _ | target <;> rw [hlookup] at hmid
        · cases hmid
        · obtain ⟨part, hpart, happend⟩ := Result.bind_eq_ok.mp hmid
          rw [(Wire.append_eq_ok.mp happend).2] at hmem
          refine (List.mem_append.mp hmem).imp_right fun hmem => ?_
          obtain ⟨v, hv, houtlet, htype, -⟩ := Wire.mem_slice hpart hmem
          exact ⟨s, List.mem_cons_self, target, hlookup, v, hv, houtlet, htype⟩
      · exact .inr ⟨t, List.mem_cons_of_mem _ ht, hlater⟩
  exact (hfold w.spans .empty h).resolve_left nofun

/-! ### Maps from a model to a model -/

section
variable {κ : Type} [Node κ] {m m' : Model κ}

/-- Every output of the first model has a wire with as many elements and of its type, and the second model
    has all elements of the wires of the map. -/
structure Typed (m m' : Model κ) (f : OutputMap) : Prop where
  exact : f.Exact
  covered : ∀ o out, m.Declares o out → ∃ w, f.lookup o = some w ∧ w.size = out.size ∧ w.Carries out.type
  provided : ∀ p ∈ f, ∀ s ∈ p.2.spans, m'.Has s

theorem Typed.reaches (h : Typed m m' f) (hs : m.Has s) : f.Reaches s := by
  obtain ⟨out, hout, htype, hstop⟩ := hs
  obtain ⟨w, hw, hsize, hcarries⟩ := h.covered _ _ hout
  exact ⟨w, hw, h.exact.lookup hw, hsize ▸ hstop, htype ▸ hcarries⟩

theorem has_of_place (hf : ∀ p ∈ f, ∀ s ∈ p.2.spans, m.Has s) (hu : u ∈ f.place s) : m.Has u := by
  obtain ⟨target, hlookup, v, hv, houtlet, htype, hstop, -⟩ := mem_place hu
  exact (hf _ (mem_of_lookup hlookup) v hv).part houtlet htype hstop

end

/-! ### Outputs that stay where they are -/

/-- Every output of the model is mapped to all of the output in the same place. -/
def IsIdentity {κ : Type} [Node κ] (f : OutputMap) (m : Model κ) : Prop :=
  ∀ o out, m.Declares o out → f.lookup o = some (.ofSpan (.whole o out.type out.size))

variable {κ : Type} [Node κ] {m : Model κ}

theorem IsIdentity.place_of_pos (h : f.IsIdentity m) (hs : m.Has s) (hpos : 0 < s.size) : f.place s = [s] := by
  obtain ⟨out, hout, ht, hstop⟩ := hs
  have hkept : min s.size (out.size - s.start) = s.size := by omega
  have hne : s.size ≠ 0 := by omega
  rw [place, h _ _ hout]
  simp only [Wire.ofSpan, Span.whole, Span.cut, hkept, hne, if_false, Nat.zero_add, ht, Span.outlet]

theorem IsIdentity.image (h : f.IsIdentity m) (hreach : ∀ s ∈ w.spans, f.Reaches s) (hs : ∀ s ∈ w.spans, m.Has s) :
    f.image w = w.trim := by
  refine Wire.ext ?_
  rw [spans_image hreach, ← flatMap_place_trim]
  have hplace : ∀ s ∈ w.trim.spans, f.place s = [s] := fun s hs' =>
    h.place_of_pos (hs s (Wire.mem_trim.mp hs').1) (Wire.mem_trim.mp hs').2
  rw [List.flatMap_congr hplace, List.flatMap_singleton']

end OutputMap
end Dataflow
