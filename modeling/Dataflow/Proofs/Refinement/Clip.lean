import Dataflow.Proofs.Refinement.Remap
import Dataflow.Proofs.Refinement.Trim

/-! # Models without spans that wrap around

A span whose end wraps around ends before it starts. Slicing gives nothing for it, as for an empty span, so
refinement makes of a wire what it makes of the wire without such spans, which is clipped. A node without them
may be another one than it was: its input has fewer elements. A model can be copied just when this happens to
none of its nodes, and then what has a value keeps it without them, for nothing that has a value reads them. -/

namespace Dataflow

/-! ### Spans -/

namespace Span
variable {s u : Span}

/-- The span, if it has elements and does not wrap around. -/
def clip (s : Span) : Option Span := if s.start < s.stop then some { s with size := s.stop - s.start } else none

theorem clip_eq_none : s.clip = none ↔ s.stop ≤ s.start := by simp [clip]

/-- What is left of a span has elements, and ends where the span ends. -/
theorem clip_inv (h : s.clip = some u) :
    u.Exact ∧ 0 < u.size ∧ u.start = s.start ∧ u.outlet = s.outlet ∧ u.type = s.type ∧ u.stop = s.stop := by
  unfold clip at h
  split at h
  case isFalse => cases h
  case isTrue hlt =>
    cases h
    have hstop : s.start + (s.stop - s.start) = s.stop := Nat.add_sub_of_le (Nat.le_of_lt hlt)
    have hexact : s.start + (s.stop - s.start) < Size.limit := hstop.symm ▸ Nat.mod_lt _ Size.limit_pos
    exact ⟨hexact, Nat.sub_pos_of_lt hlt, rfl, rfl, rfl, (Size.add_eq hexact).trans hstop⟩

theorem clip_of_exact (h : s.Exact) : s.clip = if 0 < s.size then some s else none := by
  unfold clip
  rw [h.stop_eq, Nat.add_sub_cancel_left]
  by_cases hpos : 0 < s.size
  · rw [if_pos hpos, if_pos (Nat.lt_add_of_pos_right hpos)]
  · rw [if_neg hpos, if_neg (by omega)]

/-- Nothing lies between a place and one that is not behind it. -/
theorem between_of_le {start stop offset : Nat} {spans : List Span} (h : stop ≤ start) :
    between start stop offset spans = [] := by
  induction spans generalizing offset with
  | nil => rfl
  | cons s rest ih =>
    rw [between, if_neg (by omega), ih]

end Span

/-! ### Wires -/

namespace Wire
variable {w c : Wire} {u : Span} {t : ElemType}

/-- The wire without the spans that have no elements and those that wrap around. -/
def clip (w : Wire) : Wire where
  spans := w.spans.filterMap Span.clip
  uniform a ha b hb := by
    obtain ⟨s, hs, hsa⟩ := List.mem_filterMap.mp ha
    obtain ⟨t, ht, htb⟩ := List.mem_filterMap.mp hb
    obtain ⟨-, -, -, -, hstype, -⟩ := Span.clip_inv hsa
    obtain ⟨-, -, -, -, httype, -⟩ := Span.clip_inv htb
    rw [hstype, httype]
    exact w.uniform s hs t ht

theorem mem_clip : u ∈ w.clip.spans ↔ ∃ s ∈ w.spans, s.clip = some u := List.mem_filterMap

theorem Carries.clip (h : w.Carries t) : w.clip.Carries t := by
  intro u hu
  obtain ⟨s, hs, hsu⟩ := mem_clip.mp hu
  obtain ⟨-, -, -, -, htype, -⟩ := Span.clip_inv hsu
  exact htype.trans (h s hs)

theorem clip_of_exact (h : ∀ s ∈ w.spans, s.Exact) : w.clip = w.trim := by
  refine Wire.ext ?_
  show w.spans.filterMap Span.clip = w.spans.filter fun s => 0 < s.size
  rw [← List.filterMap_eq_filter]
  exact List.filterMap_congr fun s hs => by simp [Span.clip_of_exact (h s hs), Option.guard]

/-- A slice depends on where it starts and where it ends. -/
theorem slice_congr {start size size' : Nat} (h : Size.add start size = Size.add start size') :
    w.slice start size = w.slice start size' := by
  unfold slice
  simp only [h]

/-- There is nothing where a span wraps around. -/
theorem slice_of_clip_eq_none {s : Span} (h : s.clip = none) (hstop : s.stop ≤ w.size) :
    ∃ c, w.slice s.start s.size = .ok c ∧ c.spans = [] := by
  obtain ⟨c, hc⟩ := exists_slice_of_add_le hstop
  exact ⟨c, hc, (slice_iff.mp hc).2.trans (Span.between_of_le (Span.clip_eq_none.mp h))⟩

end Wire

namespace OutputMap
variable {f : OutputMap} {acc target : Wire} {s u : Span}

/-- A step over a span of which nothing is left adds nothing. -/
theorem step_of_clip_eq_none (hclip : s.clip = none) (hlookup : f.lookup s.outlet = some target)
    (hstop : s.stop ≤ target.size) : f.step acc s = .ok acc := by
  obtain ⟨c, hc, hnil⟩ := Wire.slice_of_clip_eq_none hclip hstop
  have happend : acc.append c = .ok acc := Wire.append_eq_ok.mpr
    ⟨by simp [Wire.type?_eq_none.mpr hnil], by rw [hnil, List.append_nil]⟩
  rw [step, hlookup]
  show (target.slice s.start s.size >>= acc.append) = _
  rw [hc, Result.ok_bind, happend]

/-- A step over what is left of a span is the step over the span, for both end at the same place. -/
theorem step_clip (hclip : s.clip = some u) (hlookup : f.lookup s.outlet = some target) :
    f.step acc u = f.step acc s := by
  obtain ⟨-, -, hstart, houtlet, -, hend⟩ := Span.clip_inv hclip
  have hends : Size.add s.start u.size = s.stop := by rw [← hstart]; exact hend
  have hslice : target.slice u.start u.size = target.slice s.start s.size := by
    rw [hstart, Wire.slice_congr hends]
  unfold step
  rw [houtlet, hlookup]
  dsimp only
  rw [hslice]

/-- A map leads on a wire as it leads on the clipped wire, where its own wires reach as far as the spans end. -/
theorem remap_clip {w : Wire} (h : ∀ s ∈ w.spans, ∃ target, f.lookup s.outlet = some target ∧ s.stop ≤ target.size) :
    f.remap w.clip = f.remap w := by
  have hfold : ∀ (spans : List Span) (acc : Wire),
      (∀ s ∈ spans, ∃ target, f.lookup s.outlet = some target ∧ s.stop ≤ target.size) →
      (spans.filterMap Span.clip).foldlM f.step acc = spans.foldlM f.step acc := by
    intro spans
    induction spans with
    | nil => exact fun _ _ => rfl
    | cons s rest ih =>
      intro acc h
      obtain ⟨⟨target, hlookup, hstop⟩, hrest⟩ := List.forall_mem_cons.mp h
      rw [List.foldlM_cons]
      rcases hclip : s.clip with _ | u
      · rw [List.filterMap_cons_none hclip, step_of_clip_eq_none hclip hlookup hstop, Result.ok_bind]
        exact ih acc hrest
      · rw [List.filterMap_cons_some hclip, List.foldlM_cons, step_clip hclip hlookup]
        exact congrArg (f.step acc s >>= ·) (funext fun acc' => ih acc' hrest)
  exact hfold w.spans .empty h

end OutputMap

/-! ### Nodes -/

namespace Builtin
variable {n : Builtin}

def clip (n : Builtin) : Builtin := n.rewire Wire.clip

/-- Without the spans that wrap around, the node passes its checks still and declares the same outputs, which
    have as many elements as they declare. -/
structure Copyable (n : Builtin) : Prop where
  made : n.clip.Made
  outputs : Node.outputs n.clip = Node.outputs n
  sizes : ∀ out ∈ Node.outputs n, out.size < Size.limit

theorem mem_spans_clip {u : Span} : u ∈ Node.spans n.clip ↔ ∃ s ∈ Node.spans n, s.clip = some u := by
  rw [clip, mem_spans_rewire]
  constructor
  · rintro ⟨i, hi, hu⟩
    obtain ⟨s, hs, hsu⟩ := Wire.mem_clip.mp hu
    exact ⟨s, List.mem_flatMap.mpr ⟨i, hi, hs⟩, hsu⟩
  · rintro ⟨s, hs, hsu⟩
    obtain ⟨i, hi, hs⟩ := List.mem_flatMap.mp hs
    exact ⟨i, hi, Wire.mem_clip.mpr ⟨s, hs, hsu⟩⟩

theorem clip_of_exact (h : ∀ s ∈ Node.spans n, s.Exact) : n.clip = n.trim :=
  rewire_congr fun _ hi => Wire.clip_of_exact fun s hs => h s (Model.span_mem_spans hi hs)

theorem Copyable.rewirable (h : n.Copyable) : n.Rewirable Wire.clip where
  outputs := h.outputs
  spans u hu := by
    obtain ⟨s, hs, hsu⟩ := mem_spans_clip.mp hu
    obtain ⟨-, -, -, houtlet, htype, hstop⟩ := Span.clip_inv hsu
    exact ⟨s, hs, houtlet, htype, hstop⟩

theorem Copyable.exact (h : n.Copyable) : Node.Exact n.clip where
  spans u hu := by
    obtain ⟨s, -, hsu⟩ := mem_spans_clip.mp hu
    exact (Span.clip_inv hsu).1
  outputs := h.outputs ▸ h.sizes

/-- Clipping takes nothing from a node whose arguments are there: what it reads is there, so its end does not
    wrap around. -/
theorem arguments_clip {given : Nat → Result (List Signal)} {args : List Signal}
    (hgiven : ∀ id xs, given id = .ok xs → ∀ x ∈ xs, x.size < Size.limit) (h : Model.Arguments given n args) :
    Model.Arguments given n.clip args := by
  have hexact : ∀ s ∈ Node.spans n, s.Exact := by
    intro s hs
    obtain ⟨i, hi, hs⟩ := List.mem_flatMap.mp hs
    obtain ⟨x, -, hx⟩ := forall₂_of_mem h i hi
    obtain ⟨xs, y, hxs, hy, hle⟩ := (Evaluator.gather_eq_ok.mp hx).2.reads s hs
    exact Nat.lt_of_le_of_lt hle (hgiven s.node xs hxs y (List.mem_of_getElem? hy))
  rw [clip_of_exact hexact]
  exact arguments_trim h

end Builtin

/-! ### Models -/

namespace Model
variable {m : Model Builtin} {a : Nat → Option Signal} {id : Nat} {xs : List Signal}

def clip (m : Model Builtin) : Model Builtin := m.rewire Wire.clip

def Copyable (m : Model Builtin) : Prop := ∀ n ∈ m.nodes, n.Copyable

theorem Copyable.rewirable (h : m.Copyable) : ∀ n ∈ m.nodes, n.Rewirable Wire.clip := fun n hn => (h n hn).rewirable

theorem Copyable.proper (h : m.Copyable) (hm : m.WellFormed) : m.clip.Proper where
  wellFormed := hm.rewire h.rewirable
  made n' hn' := by
    obtain ⟨n, hn, rfl⟩ := List.mem_map.mp hn'
    exact (h n hn).made
  exact n' hn' := by
    obtain ⟨n, hn, rfl⟩ := List.mem_map.mp hn'
    exact (h n hn).exact

/-- A model in which no span wraps around can be copied. -/
theorem Proper.copyable (h : m.Proper) : m.Copyable := by
  intro n hn
  have hexact := h.exact n hn
  have hclip : n.clip = n.trim := Builtin.clip_of_exact hexact.spans
  exact ⟨hclip ▸ (h.made n hn).trim, hclip ▸ Builtin.outputs_trim, hexact.outputs⟩

/-- A clipped model has no empty spans. -/
theorem trim_clip : m.clip.trim = m.clip := by
  have hnodes : m.clip.nodes.map Builtin.trim = m.clip.nodes := by
    refine (List.map_congr_left fun n' hn' => ?_).trans (List.map_id _)
    obtain ⟨n, -, rfl⟩ := List.mem_map.mp hn'
    refine Builtin.trim_eq_self fun u hu => ?_
    obtain ⟨s, -, hsu⟩ := Builtin.mem_spans_clip.mp hu
    exact (Span.clip_inv hsu).2.1
  exact congrArg Model.mk hnodes

/-- What has a value keeps it when spans that wrap around are left out. -/
theorem under_clip (hm : m.WellFormed) (h : m.Copyable) (hxs : m.under a id = .ok xs) : m.clip.under a id = .ok xs := by
  refine under_rewire hm h.rewirable (fun n _ args hargs => Builtin.arguments_clip (fun id ys hys y hy => ?_) hargs) hxs
  obtain ⟨index, hindex⟩ := List.getElem?_of_mem hy
  obtain ⟨out, ⟨n, hn, hout⟩, -, hsize⟩ := declares_of_values (o := ⟨id, index⟩) hys hindex
  exact hsize ▸ (h n (List.mem_of_getElem? hn)).sizes out (List.mem_of_getElem? hout)

end Model
end Dataflow
