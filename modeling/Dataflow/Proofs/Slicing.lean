import Dataflow.Proofs.Wire

/-! # Wires as lists of elements

A wire stands for the list of the single elements that its spans run through, each given by its output and
its place there. Cutting spans cuts this list, wherever the ends of the cut fall, so slicing and joining
wires is slicing and joining lists. -/

namespace Dataflow

namespace Span
variable {s : Span} {spans : List Span} {skip count : Nat}

/-- The elements of an output that a span runs through, in order. -/
def elements (s : Span) : List (Outlet × Nat) := (List.range' s.start s.size).map fun i => (s.outlet, i)

@[simp] theorem length_elements : s.elements.length = s.size := by simp [elements]

theorem length_flatMap_elements : (spans.flatMap elements).length = total spans := by
  induction spans with
  | nil => rfl
  | cons s rest ih => rw [List.flatMap_cons, List.length_append, length_elements, ih, total_cons]

/-- The elements of a part of a span. -/
theorem elements_part : elements { s with start := s.start + skip, size := min count (s.size - skip) } =
    (s.elements.drop skip).take count := by
  simp only [elements, ← List.map_drop, ← List.map_take, List.drop_range', Nat.mul_one]
  refine congrArg (List.map _) ?_
  rcases Nat.le_total count (s.size - skip) with h | h
  · rw [Nat.min_eq_left h, List.take_range'_of_length_ge h]
  · rw [Nat.min_eq_right h, List.take_range'_of_length_le h]

/-- Cutting spans cuts the list of their elements. -/
theorem elements_cut : (cut skip count spans).flatMap elements = ((spans.flatMap elements).drop skip).take count := by
  induction spans generalizing skip count with
  | nil => simp [cut]
  | cons s rest ih =>
    rw [List.flatMap_cons, List.drop_append, List.take_append, List.length_drop, length_elements, ← elements_part, cut]
    split
    case isTrue hnone =>
      -- Nothing of the span is kept: it ends before the cut, or the cut is empty.
      have hnil : elements { s with start := s.start + skip, size := min count (s.size - skip) } = [] := by
        rw [← List.length_eq_zero_iff, length_elements, hnone]
      have hcount : count = 0 ∨ count - (s.size - skip) = count := by omega
      rw [hnil, List.nil_append, ih]
      rcases hcount with rfl | hcount
      · simp
      · rw [hcount]
    case isFalse =>
      have hcount : count - min count (s.size - skip) = count - (s.size - skip) := by omega
      rw [List.flatMap_cons, ih, hcount]

end Span

namespace Wire
variable {w a b c : Wire} {start size : Nat}

/-- The single elements on a wire, in order. -/
def elements (w : Wire) : List (Outlet × Nat) := w.spans.flatMap Span.elements

theorem length_elements : w.elements.length = Span.total w.spans := Span.length_flatMap_elements

theorem Exact.length_elements (hw : w.Exact) : w.elements.length = w.size :=
  Wire.length_elements.trans hw.size_eq.symm

/-! ### Slices -/

theorem exists_slice_iff (hw : w.Exact) (hstop : start + size < Size.limit) :
    (∃ c, w.slice start size = .ok c) ↔ start + size ≤ w.size :=
  ⟨fun ⟨_, h⟩ => ((slice_eq_ok hw hstop).mp h).1, fun h => (exists_slice hw h).imp fun _ hc => hc.1⟩

theorem elements_slice (hw : w.Exact) (hstop : start + size < Size.limit) (h : w.slice start size = .ok c) :
    c.elements = (w.elements.drop start).take size := by
  rw [elements, ((slice_eq_ok hw hstop).mp h).2, Span.elements_cut]
  rfl

theorem size_slice (hw : w.Exact) (hstop : start + size < Size.limit) (h : w.slice start size = .ok c) :
    c.size = size := by
  obtain ⟨hle, hspans⟩ := (slice_eq_ok hw hstop).mp h
  rw [(hw.slice hstop h).size_eq, hspans, Span.total_cut (hw.size_eq ▸ hle)]

theorem pos_of_mem_slice (h : w.slice start size = .ok c) {s : Span} (hs : s ∈ c.spans) : 0 < s.size := by
  obtain ⟨_, -, -, -, hpos⟩ := mem_slice h hs
  exact hpos

/-- A slice of a slice has the spans that one slice of the wire has. -/
theorem slice_slice {start' size' : Nat} (hw : w.Exact) (hstop : start + size < Size.limit)
    (h : w.slice start size = .ok c) (hle : start' + size' ≤ size) :
    c.slice start' size' = w.slice (start + start') size' := by
  obtain ⟨hwithin, hspans⟩ := (slice_eq_ok hw hstop).mp h
  have hsize : c.size = size := size_slice hw hstop h
  obtain ⟨d, hd, hdspans⟩ := exists_slice (hw.slice hstop h) (hsize ▸ hle)
  have hcut : d.spans = Span.cut (start + start') size' w.spans := by
    have hcount : min size' (size - start') = size' := by omega
    rw [hdspans, hspans, Span.cut_cut, hcount]
  rw [hd, (slice_eq_ok hw (by omega)).mpr ⟨by omega, hcut⟩]

/-! ### Joins -/

theorem elements_append (h : a.append b = .ok c) : c.elements = a.elements ++ b.elements := by
  rw [elements, (append_eq_ok.mp h).2, List.flatMap_append]
  rfl

/-- Two slices of one wire have elements of one type, so they can be joined. -/
theorem exists_append_slices {start' size' : Nat} (ha : w.slice start size = .ok a)
    (hb : w.slice start' size' = .ok b) : ∃ c, a.append b = .ok c := by
  obtain ⟨t, ht⟩ := w.exists_carries
  exact (exists_append (ht.slice ha) (ht.slice hb)).imp fun _ hc => hc.1

/-- Where no sum of sizes wraps around, a wire has a slice just when it reaches that far; the slice has the
    elements in that place, in their order, and no empty span. The slices of a slice are the slices of the wire
    at the added offset that do not reach beyond the first slice, with the same spans. And a wire that is cut
    anywhere has the elements of both slices joined. -/
theorem slices_of_elements (w : Wire) (hw : w.Exact) :
    (∀ start size, start + size < Size.limit →
      ((∃ c, w.slice start size = .ok c) ↔ start + size ≤ w.size)) ∧
    (∀ start size c, start + size < Size.limit → w.slice start size = .ok c →
      c.elements = (w.elements.drop start).take size ∧ (∀ s ∈ c.spans, 0 < s.size) ∧
      ∀ start' size' d, start' + size' < Size.limit →
        (c.slice start' size' = .ok d ↔ start' + size' ≤ size ∧ w.slice (start + start') size' = .ok d)) ∧
    ∀ k ≤ w.size, ∃ front back whole, w.slice 0 k = .ok front ∧ w.slice k (w.size - k) = .ok back ∧
      front.append back = .ok whole ∧ whole.elements = w.elements := by
  have hfits : w.size < Size.limit := w.size_lt
  refine ⟨fun _ _ hstop => exists_slice_iff hw hstop, fun start size c hstop hc =>
    ⟨elements_slice hw hstop hc, fun s => pos_of_mem_slice hc, fun start' size' d hstop' => ?_⟩, fun k hk => ?_⟩
  · constructor
    · intro hd
      have hle : start' + size' ≤ size :=
        size_slice hw hstop hc ▸ (exists_slice_iff (hw.slice hstop hc) hstop').mp ⟨d, hd⟩
      exact ⟨hle, slice_slice hw hstop hc hle ▸ hd⟩
    · rintro ⟨hle, hd⟩
      exact (slice_slice hw hstop hc hle).trans hd
  · have hfirst : 0 + k < Size.limit := by omega
    have hsecond : k + (w.size - k) < Size.limit := by omega
    obtain ⟨front, hfront⟩ : ∃ c, w.slice 0 k = .ok c := (exists_slice_iff hw hfirst).mpr (by omega)
    obtain ⟨back, hback⟩ : ∃ c, w.slice k (w.size - k) = .ok c := (exists_slice_iff hw hsecond).mpr (by omega)
    obtain ⟨whole, hwhole⟩ := exists_append_slices hfront hback
    refine ⟨front, back, whole, hfront, hback, hwhole, ?_⟩
    have hrest : (w.elements.drop k).take (w.size - k) = w.elements.drop k :=
      List.take_of_length_le (Nat.le_of_eq (by rw [List.length_drop, hw.length_elements]))
    rw [elements_append hwhole, elements_slice hw hfirst hfront, elements_slice hw hsecond hback, hrest,
      List.drop_zero, List.take_append_drop]

/-- A span, an empty one, and a span that runs through the elements of the first again. -/
def repeatedWire : Wire := ⟨[⟨1, 0, .real, 4, 2⟩, ⟨2, 1, .real, 0, 0⟩, ⟨1, 0, .real, 4, 3⟩], by decide⟩

theorem repeated_sliced : ∃ c d, repeatedWire.slice 1 3 = .ok c ∧
    c.elements = [(⟨1, 0⟩, 5), (⟨1, 0⟩, 4), (⟨1, 0⟩, 5)] ∧
    repeatedWire.slice 2 2 = .ok d ∧ c.slice 1 2 = .ok d ∧ ¬ ∃ c, repeatedWire.slice 3 3 = .ok c := by
  obtain ⟨hiff, hslice, -⟩ := slices_of_elements repeatedWire ⟨by decide, by decide⟩
  obtain ⟨c, hc⟩ := (hiff 1 3 (by decide)).mpr (by decide)
  obtain ⟨d, hd⟩ := (hiff 2 2 (by decide)).mpr (by decide)
  obtain ⟨helements, -, htwice⟩ := hslice 1 3 c (by decide) hc
  have hfar : ¬ ∃ c, repeatedWire.slice 3 3 = .ok c := fun h => absurd ((hiff 3 3 (by decide)).mp h) (by decide)
  exact ⟨c, d, hc, helements.trans (by decide), hd, (htwice 1 2 d (by decide)).mpr ⟨by decide, hd⟩, hfar⟩

end Wire

end Dataflow
