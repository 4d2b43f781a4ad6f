import Dataflow.Model.Evaluator
import Dataflow.Proofs.Signal
import Dataflow.Proofs.Wire

/-! # The elements on a wire

What a wire carries is the concatenation of the runs that its spans take from the outputs of their
nodes, given what the nodes put out. `Yields` says this as a relation between spans and scalars, and
gathering succeeds just when it holds. Cutting spans cuts the scalars that they yield. -/

namespace Dataflow

def Span.window (s : Span) (x : Signal) : List Scalar := (x.scalars.drop s.start).take s.size

theorem Span.length_window {s : Span} {x : Signal} (h : s.start + s.size ≤ x.size) : (s.window x).length = s.size := by
  simp only [window, List.length_take, List.length_drop, Signal.length_scalars]
  omega

namespace Evaluator
variable {given given' : Nat → Result (List Signal)} {type : ElemType} {spans : List Span} {l : List Scalar}

/-- The scalars that spans carry, with outputs as `given`, all of one element type. -/
inductive Yields (given : Nat → Result (List Signal)) (type : ElemType) : List Span → List Scalar → Prop
  | nil : Yields given type [] []
  | cons {s : Span} {rest : List Span} {xs : List Signal} {x : Signal} {l : List Scalar} :
      given s.node = .ok xs → xs[s.output]? = some x → x.type = type → s.start + s.size ≤ x.size →
      Yields given type rest l → Yields given type (s :: rest) (s.window x ++ l)

theorem Yields.mono (h : Yields given type spans l)
    (hg : ∀ s ∈ spans, ∀ xs, given s.node = .ok xs → given' s.node = .ok xs) : Yields given' type spans l := by
  induction h with
  | nil => exact .nil
  | cons hn ho ht hs _ ih =>
    exact .cons (hg _ List.mem_cons_self _ hn) ho ht hs (ih fun s hs => hg s (List.mem_cons_of_mem _ hs))

/-- All that spans read is there. -/
theorem Yields.reads (h : Yields given type spans l) :
    ∀ s ∈ spans, ∃ xs x, given s.node = .ok xs ∧ xs[s.output]? = some x ∧ s.start + s.size ≤ x.size := by
  induction h with
  | nil => simp
  | cons hn ho _ hs _ ih =>
    intro s hmem
    rcases List.mem_cons.mp hmem with rfl | hmem
    · exact ⟨_, _, hn, ho, hs⟩
    · exact ih s hmem

theorem Yields.append {spans' : List Span} {l' : List Scalar} (h : Yields given type spans l)
    (h' : Yields given type spans' l') : Yields given type (spans ++ spans') (l ++ l') := by
  induction h with
  | nil => exact h'
  | cons hn ho ht hs _ ih =>
    rw [List.append_assoc]
    exact .cons hn ho ht hs ih

theorem Yields.whole {o : Outlet} {xs : List Signal} {x : Signal} (hn : given o.node = .ok xs)
    (ho : xs[o.index]? = some x) : Yields given x.type [.whole o x.type x.size] x.scalars := by
  have h := Yields.cons (s := .whole o x.type x.size) hn ho rfl (by simp [Span.whole]) .nil
  have hw : Span.window (.whole o x.type x.size) x = x.scalars := by
    simp only [Span.window, Span.whole, List.drop_zero]
    rw [← x.length_scalars, List.take_length]
  rwa [hw, List.append_nil] at h

/-- Cutting spans cuts what they yield. -/
theorem Yields.cut (h : Yields given type spans l) (skip count : Nat) :
    Yields given type (Span.cut skip count spans) ((l.drop skip).take count) := by
  induction h generalizing skip count with
  | nil =>
    rw [List.drop_nil, List.take_nil]
    exact .nil
  | @cons s rest xs x l hn ho ht hs _ ih =>
    have hlen := Span.length_window hs
    rw [Span.cut, List.drop_append, List.take_append, List.length_drop, hlen]
    by_cases hk : min count (s.size - skip) = 0
    · -- Nothing of the span is kept: it ends before the cut, or the cut is empty.
      have hnil : ((s.window x).drop skip).take count = [] := by
        rw [← List.length_eq_zero_iff, List.length_take, List.length_drop, hlen, hk]
      have hcount : ((l.drop (skip - s.size)).take (count - (s.size - skip))) =
          (l.drop (skip - s.size)).take count := by
        rcases Nat.min_eq_zero_iff.mp hk with h0 | h0
        · rw [h0, Nat.zero_sub]
        · rw [h0, Nat.sub_zero]
      rw [if_pos hk, hnil, List.nil_append, hcount]
      exact ih _ _
    · have hwin : ((s.window x).drop skip).take count =
          Span.window { s with start := s.start + skip, size := min count (s.size - skip) } x := by
        simp only [Span.window, List.drop_take, List.take_take, List.drop_drop]
      have hcount : ((l.drop (skip - s.size)).take (count - (s.size - skip))) =
          (l.drop (skip - s.size)).take (count - min count (s.size - skip)) := by
        congr 1
        omega
      have hstop : s.start + skip + min count (s.size - skip) ≤ x.size := by omega
      rw [if_neg hk, hwin, hcount]
      exact .cons hn ho ht hstop (ih _ _)

/-! ### Gathering -/

theorem pick_eq_ok {xs : List Signal} {s : Span} {y : Signal} : pick xs s = .ok y ↔
    ∃ x, xs[s.output]? = some x ∧ s.start + s.size ≤ x.size ∧ y.type = x.type ∧ y.scalars = s.window x := by
  unfold pick
  rcases xs[s.output]? with _ | x
  · simp
  · simp only [Signal.slice_eq_ok, Option.some.injEq, exists_eq_left', Span.window]

def extend (given : Nat → Result (List Signal)) (acc : Signal) (s : Span) : Result Signal := do
  let part ← pick (← given s.node) s
  acc.append part

theorem gather_eq (given : Nat → Result (List Signal)) (type : ElemType) (w : Wire) :
    gather given type w = w.spans.foldlM (extend given) (.empty type) := rfl

theorem extend_inv {acc y : Signal} {s : Span} (h : extend given acc s = .ok y) :
    ∃ xs x, given s.node = .ok xs ∧ xs[s.output]? = some x ∧ x.type = acc.type ∧ s.start + s.size ≤ x.size ∧
      y.type = acc.type ∧ y.scalars = acc.scalars ++ s.window x := by
  simp only [extend, Result.bind_eq_ok, pick_eq_ok, Signal.append_eq_ok] at h
  obtain ⟨xs, hxs, part, ⟨x, hx, hs, ht, hp⟩, ht', hy, hys⟩ := h
  exact ⟨xs, x, hxs, hx, ht.symm.trans ht'.symm, hs, hy, hp ▸ hys⟩

theorem exists_extend {acc x : Signal} {s : Span} {xs : List Signal} (hxs : given s.node = .ok xs)
    (hx : xs[s.output]? = some x) (ht : x.type = acc.type) (hs : s.start + s.size ≤ x.size) :
    ∃ y, extend given acc s = .ok y ∧ y.type = acc.type ∧ y.scalars = acc.scalars ++ s.window x := by
  obtain ⟨part, hpart⟩ := Signal.exists_slice hs
  obtain ⟨-, hpt, hps⟩ := Signal.slice_eq_ok.mp hpart
  obtain ⟨y, hy⟩ := Signal.exists_append (ht.symm.trans hpt.symm)
  obtain ⟨-, hyt, hys⟩ := Signal.append_eq_ok.mp hy
  refine ⟨y, ?_, hyt, by rw [hys, hps]; rfl⟩
  simp [extend, pick, hxs, hx, hpart, hy]

theorem foldlM_extend_eq_ok {acc y : Signal} : spans.foldlM (extend given) acc = .ok y ↔
    y.type = acc.type ∧ ∃ l, Yields given acc.type spans l ∧ y.scalars = acc.scalars ++ l := by
  induction spans generalizing acc with
  | nil =>
    simp only [List.foldlM_nil, Result.pure_eq, Except.ok.injEq]
    constructor
    · rintro rfl
      exact ⟨rfl, [], .nil, (List.append_nil _).symm⟩
    · rintro ⟨ht, l, hl, hs⟩
      cases hl
      exact (Signal.ext_scalars ht (hs.trans (List.append_nil _))).symm
  | cons s rest ih =>
    simp only [List.foldlM_cons, Result.bind_eq_ok, ih]
    constructor
    · rintro ⟨mid, hmid, hyt, l, hl, hys⟩
      obtain ⟨xs, x, hxs, hx, ht, hs, hmt, hms⟩ := extend_inv hmid
      rw [hmt] at hl hyt
      exact ⟨hyt, _, .cons hxs hx ht hs hl, by rw [hys, hms, List.append_assoc]⟩
    · rintro ⟨hyt, l, hl, hys⟩
      cases hl with
      | cons hxs hx ht hs hl =>
        obtain ⟨mid, hmid, hmt, hms⟩ := exists_extend hxs hx ht hs
        exact ⟨mid, hmid, hyt.trans hmt.symm, _, hmt ▸ hl, by rw [hys, hms, List.append_assoc]⟩

/-- Gathering succeeds with the scalars that the spans yield. -/
theorem gather_eq_ok {w : Wire} {x : Signal} :
    gather given type w = .ok x ↔ x.type = type ∧ Yields given type w.spans x.scalars := by
  rw [gather_eq, foldlM_extend_eq_ok]
  simp

theorem gather_mono {w : Wire} {x : Signal} (h : gather given type w = .ok x)
    (hg : ∀ s ∈ w.spans, ∀ xs, given s.node = .ok xs → given' s.node = .ok xs) : gather given' type w = .ok x := by
  obtain ⟨ht, hy⟩ := gather_eq_ok.mp h
  exact gather_eq_ok.mpr ⟨ht, hy.mono hg⟩

end Evaluator
end Dataflow
