import Dataflow.Wire.Basic
import Mathlib.Tactic.Common

/-! # Spans and wires

What is left of a sequence of spans when a part of it is taken, when wires can be sliced and joined, what type
of elements they carry, and wires without their empty spans. A place or a number of elements that exceeds the
limit of sizes wraps around; where none does, sums of sizes are exact. -/

namespace Dataflow

namespace Span
variable {spans : List Span} {skip count : Nat} {s t : Span}

/-- Where the span ends does not wrap around. -/
def Exact (s : Span) : Prop := s.start + s.size < Size.limit

instance (s : Span) : Decidable s.Exact := inferInstanceAs (Decidable (_ < _))

theorem Exact.stop_eq (h : s.Exact) : s.stop = s.start + s.size := Size.add_eq h

theorem Exact.of_le (h : s.Exact) (hle : t.start + t.size ≤ s.start + s.size) : t.Exact := Nat.lt_of_le_of_lt hle h

/-- The number of elements of spans, however many they are. -/
def total (spans : List Span) : Nat := Size.total (spans.map (·.size))

@[simp] theorem total_nil : total [] = 0 := rfl

@[simp] theorem total_cons (s : Span) : total (s :: spans) = s.size + total spans := rfl

@[simp] theorem total_append (spans' : List Span) : total (spans ++ spans') = total spans + total spans' := by
  induction spans with
  | nil => simp
  | cons s rest ih => simp [ih, Nat.add_assoc]

/-! ### Parts of spans -/

/-- The elements of a sequence of spans after the first `skip`, at most `count` of them. Spans of which
    nothing is left are dropped. -/
def cut : (skip count : Nat) → List Span → List Span
  | _, _, [] => []
  | skip, count, s :: rest =>
    let kept := min count (s.size - skip)
    if kept = 0 then cut (skip - s.size) count rest
    else { s with start := s.start + skip, size := kept } :: cut (skip - s.size) (count - kept) rest

/-- Where no sum wraps around, what lies between two places is what is left after so many elements. -/
theorem between_eq_cut {start stop offset : Nat} (hspans : ∀ s ∈ spans, s.Exact)
    (htotal : offset + total spans < Size.limit) :
    between start stop offset spans = cut (start - offset) (stop - max start offset) spans := by
  induction spans generalizing offset with
  | nil => rfl
  | cons s rest ih =>
    have hs : s.start + s.size < Size.limit := hspans s List.mem_cons_self
    rw [total_cons] at htotal
    have hnext : Size.add offset s.size = offset + s.size := Size.add_eq (by omega)
    have hrest := @ih (offset + s.size) (fun u hu => hspans u (List.mem_cons_of_mem _ hu)) (by omega)
    -- As many elements of the span lie between the places as are kept of it.
    have hkept : min (stop - max start offset) (s.size - (start - offset)) =
        min stop (offset + s.size) - max start offset := by omega
    have hskip : start - offset - s.size = start - (offset + s.size) := by omega
    rw [between, cut, hnext, hrest, hkept, hskip]
    by_cases hsome : max start offset < min stop (offset + s.size)
    · have hfits : s.start + (max start offset - offset) < Size.limit := by omega
      have hstart : max start offset - offset = start - offset := by omega
      have hcount : stop - max start offset - (min stop (offset + s.size) - max start offset) =
          stop - max start (offset + s.size) := by omega
      rw [if_pos hsome, if_neg (by omega), Size.add_eq hfits, hstart, hcount]
    · rw [if_neg hsome, if_pos (by omega)]
      rcases Nat.lt_or_ge (max start offset) stop with hstop | hstop
      · rw [show max start (offset + s.size) = max start offset by omega]
      · rw [show stop - max start offset = 0 by omega, show stop - max start (offset + s.size) = 0 by omega]

theorem total_cut (h : skip + count ≤ total spans) : total (cut skip count spans) = count := by
  induction spans generalizing skip count with
  | nil =>
    rw [total_nil] at h
    simp only [cut, total_nil]
    omega
  | cons s rest ih =>
    rw [total_cons] at h
    rw [cut]
    split
    · exact ih (by omega)
    · rw [total_cons, ih (by omega)]
      show min count (s.size - skip) + (count - min count (s.size - skip)) = count
      omega

/-- A span that is left of a sequence of spans lies within one of them, and is not empty. -/
theorem mem_cut (h : t ∈ cut skip count spans) :
    ∃ s ∈ spans, t.outlet = s.outlet ∧ t.type = s.type ∧ t.start + t.size ≤ s.start + s.size ∧ 0 < t.size := by
  induction spans generalizing skip count with
  | nil => simp [cut] at h
  | cons s rest ih =>
    rw [cut] at h
    split at h
    · obtain ⟨u, hu, hcut⟩ := ih h
      exact ⟨u, List.mem_cons_of_mem _ hu, hcut⟩
    · rcases List.mem_cons.mp h with rfl | h
      · exact ⟨s, List.mem_cons_self, rfl, rfl, by simp only; omega, by simp only; omega⟩
      · obtain ⟨u, hu, hcut⟩ := ih h
        exact ⟨u, List.mem_cons_of_mem _ hu, hcut⟩

theorem cut_zero : cut skip 0 spans = [] := by
  induction spans generalizing skip with
  | nil => rfl
  | cons s rest ih => simp [cut, ih]

/-- The offset makes no difference where nothing is kept. -/
theorem cut_congr {skip' count' : Nat} (hcount : count = count') (hskip : count = 0 ∨ skip = skip') :
    cut skip count spans = cut skip' count' spans := by
  subst hcount
  rcases hskip with rfl | rfl
  · rw [cut_zero, cut_zero]
  · rfl

/-- Cutting twice is cutting once: the offsets add up, and the second cut keeps none that the first drops. -/
theorem cut_cut {start size : Nat} :
    cut skip count (cut start size spans) = cut (start + skip) (min count (size - skip)) spans := by
  induction spans generalizing skip count start size with
  | nil => rfl
  | cons s rest ih =>
    rw [cut, cut]
    by_cases hkept : min size (s.size - start) = 0
    · rw [if_pos hkept, if_pos (by omega), ih]
      exact cut_congr rfl (by omega)
    · rw [if_neg hkept, cut]
      dsimp only
      by_cases htwice : min count (min size (s.size - start) - skip) = 0
      · rw [if_pos htwice, if_pos (by omega), ih]
        exact cut_congr (by omega) (by omega)
      · have hsize : min count (min size (s.size - start) - skip) =
            min (min count (size - skip)) (s.size - (start + skip)) := by omega
        rw [if_neg htwice, if_neg (by omega), ih, Nat.add_assoc, hsize]
        exact congrArg _ (cut_congr (by omega) (by omega))

end Span

def Wire.Carries (w : Wire) (t : ElemType) : Prop := ∀ s ∈ w.spans, s.type = t

theorem Wire.exists_carries (w : Wire) : ∃ t, w.Carries t := by
  rcases hw : w.spans with _ | ⟨s, rest⟩
  · exact ⟨.real, by simp [Carries, hw]⟩
  · exact ⟨s.type, fun u hu => w.uniform u hu s (by simp [hw])⟩

theorem Wire.type?_eq_none {w : Wire} : w.type? = none ↔ w.spans = [] := by
  cases h : w.spans <;> simp [Wire.type?, h]

theorem Wire.checkType_eq_ok {w : Wire} {t : ElemType} : w.checkType t = .ok () ↔ w.Carries t := by
  unfold Wire.checkType Wire.Carries
  rcases ht : w.type? with _ | u
  · simp [Wire.type?_eq_none.mp ht]
  · constructor
    · intro h s hs
      rw [Wire.type?_eq hs] at ht
      cases ht
      by_cases hu : s.type = t
      · exact hu
      · simp [hu] at h
    · intro h
      rcases hw : w.spans with _ | ⟨s, rest⟩
      · rw [Wire.type?_eq_none.mpr hw] at ht
        cases ht
      · have hs : s ∈ w.spans := by simp [hw]
        rw [Wire.type?_eq hs] at ht
        cases ht
        simp [h s hs]

namespace Wire
variable {a b c w : Wire} {t : ElemType}

/-! ### Sums that do not wrap around -/

/-- The wire has no more elements than there are sizes, nor has an output that it leads to. -/
structure Exact (w : Wire) : Prop where
  spans : ∀ s ∈ w.spans, s.Exact
  total : Span.total w.spans < Size.limit

instance (w : Wire) : Decidable w.Exact :=
  decidable_of_iff ((∀ s ∈ w.spans, s.Exact) ∧ Span.total w.spans < Size.limit)
    ⟨fun ⟨hspans, htotal⟩ => ⟨hspans, htotal⟩, fun h => ⟨h.spans, h.total⟩⟩

theorem size_eq_mod : w.size = Span.total w.spans % Size.limit := Size.sum_eq_mod

theorem Exact.size_eq (h : w.Exact) : w.size = Span.total w.spans := Size.sum_eq h.total

theorem size_lt (w : Wire) : w.size < Size.limit := size_eq_mod (w := w) ▸ Nat.mod_lt _ Size.limit_pos

theorem exact_whole {o : Outlet} {size : Nat} (h : size < Size.limit) : (Wire.ofSpan (.whole o t size)).Exact where
  spans s hs := by
    rw [List.mem_singleton.mp hs]
    show 0 + size < Size.limit
    rwa [Nat.zero_add]
  total := h

theorem size_whole {o : Outlet} {size : Nat} (h : size < Size.limit) : (Wire.ofSpan (.whole o t size)).size = size :=
  (exact_whole h).size_eq

/-! ### Slices -/

theorem slice_iff {start size : Nat} : w.slice start size = .ok c ↔
    Size.add start size ≤ w.size ∧ c.spans = Span.between start (Size.add start size) 0 w.spans := by
  unfold slice
  dsimp only
  by_cases h : w.size < Size.add start size
  · rw [if_pos h]
    simp only [reduceCtorEq, false_iff, not_and]
    omega
  · rw [if_neg h]
    constructor
    · rintro ⟨⟩
      exact ⟨Nat.le_of_not_lt h, rfl⟩
    · rintro ⟨-, hspans⟩
      exact congrArg Except.ok (Wire.ext hspans.symm)

theorem exists_slice_of_add_le {start size : Nat} (h : Size.add start size ≤ w.size) :
    ∃ c, w.slice start size = .ok c :=
  ⟨_, if_neg (Nat.not_lt.mpr h)⟩

/-- A span of a slice is a part of a span of the wire. -/
theorem mem_slice {start size : Nat} {u : Span} (hc : w.slice start size = .ok c) (hu : u ∈ c.spans) :
    ∃ s ∈ w.spans, u.outlet = s.outlet ∧ u.type = s.type ∧ 0 < u.size :=
  Span.mem_between ((slice_iff.mp hc).2 ▸ hu)

theorem Carries.slice {start size : Nat} (h : w.Carries t) (hc : w.slice start size = .ok c) : c.Carries t := by
  intro u hu
  obtain ⟨s, hs, -, htype, -⟩ := mem_slice hc hu
  exact htype.trans (h s hs)

theorem slice_eq_ok {start size : Nat} (hw : w.Exact) (hstop : start + size < Size.limit) :
    w.slice start size = .ok c ↔ start + size ≤ w.size ∧ c.spans = Span.cut start size w.spans := by
  have hcut : Span.between start (start + size) 0 w.spans = Span.cut start size w.spans := by
    rw [Span.between_eq_cut hw.spans (by simpa using hw.total)]
    congr 1
    omega
  rw [slice_iff, Size.add_eq hstop, hcut]

theorem exists_slice {start size : Nat} (hw : w.Exact) (h : start + size ≤ w.size) :
    ∃ c, w.slice start size = .ok c ∧ c.spans = Span.cut start size w.spans := by
  have hstop : start + size < Size.limit := Nat.lt_of_le_of_lt h w.size_lt
  obtain ⟨c, hc⟩ := exists_slice_of_add_le ((Size.add_eq hstop).symm ▸ h)
  exact ⟨c, hc, ((slice_eq_ok hw hstop).mp hc).2⟩

theorem Exact.slice {start size : Nat} (hw : w.Exact) (hstop : start + size < Size.limit)
    (hc : w.slice start size = .ok c) : c.Exact := by
  obtain ⟨hle, hspans⟩ := (slice_eq_ok hw hstop).mp hc
  constructor
  · intro u hu
    obtain ⟨s, hs, -, -, hreach, -⟩ := Span.mem_cut (hspans ▸ hu)
    exact (hw.spans s hs).of_le hreach
  · rw [hspans, Span.total_cut (hw.size_eq ▸ hle)]
    omega

/-! ### Joins -/

theorem append_eq_ok : a.append b = .ok c ↔ (∀ s ∈ a.type?, ∀ t ∈ b.type?, s = t) ∧ c.spans = a.spans ++ b.spans := by
  unfold append
  split
  case isTrue h =>
    exact ⟨fun heq => ⟨h, by cases heq; rfl⟩, fun ⟨_, hspans⟩ => congrArg Except.ok (Wire.ext hspans.symm)⟩
  case isFalse h => exact ⟨fun heq => (nomatch heq), fun ⟨hsame, _⟩ => absurd hsame h⟩

theorem exists_append (ha : a.Carries t) (hb : b.Carries t) :
    ∃ c, a.append b = .ok c ∧ c.spans = a.spans ++ b.spans := by
  have htype : ∀ w : Wire, w.Carries t → ∀ u ∈ w.type?, u = t := by
    intro w hw u hu
    rcases hs : w.spans with _ | ⟨s, rest⟩
    · rw [type?_eq_none.mpr hs] at hu
      cases hu
    · have hmem : s ∈ w.spans := by simp [hs]
      rw [type?_eq hmem] at hu
      cases hu
      exact hw s hmem
  have hsame : ∀ s ∈ a.type?, ∀ u ∈ b.type?, s = u := fun s hs u hu => (htype a ha s hs).trans (htype b hb u hu).symm
  unfold append
  rw [dif_pos hsame]
  exact ⟨_, rfl, rfl⟩

/-- The wire without the spans that have no elements. -/
def trim (w : Wire) : Wire where
  spans := w.spans.filter fun s => 0 < s.size
  uniform s hs t ht := w.uniform s (List.mem_filter.mp hs).1 t (List.mem_filter.mp ht).1

theorem mem_trim {s : Span} : s ∈ w.trim.spans ↔ s ∈ w.spans ∧ 0 < s.size := by
  simp [trim]

theorem total_trim : Span.total w.trim.spans = Span.total w.spans := by
  show Span.total (w.spans.filter _) = Span.total w.spans
  induction w.spans with
  | nil => rfl
  | cons s rest ih =>
    rcases Nat.eq_zero_or_pos s.size with hs | hs
    · rw [List.filter_cons_of_neg (by simp [hs]), ih, Span.total_cons, hs, Nat.zero_add]
    · rw [List.filter_cons_of_pos (by simp [hs]), Span.total_cons, Span.total_cons, ih]

@[simp] theorem size_trim : w.trim.size = w.size := by rw [size_eq_mod, size_eq_mod, total_trim]

theorem trim_eq_self (h : ∀ s ∈ w.spans, 0 < s.size) : w.trim = w :=
  Wire.ext (List.filter_eq_self.mpr fun s hs => by simpa using h s hs)

theorem Carries.trim (h : w.Carries t) : w.trim.Carries t := fun s hs => h s (mem_trim.mp hs).1

/-- An element far behind what any small output has; its end wraps around. -/
def behind : Wire := .ofSpan ⟨0, 0, .real, 18446744073709551615, 1⟩

end Wire

end Dataflow
