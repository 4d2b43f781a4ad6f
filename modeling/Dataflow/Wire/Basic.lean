import Dataflow.Signal

/-! # Wires

An input of a node is fed by a wire: a sequence of spans, each a run of consecutive elements of one
output. All spans of a wire have one element type. -/

namespace Dataflow

/-- Output `index` of node `node`. -/
structure Outlet where
  node : Nat
  index : Nat
  deriving DecidableEq, Repr

/-- How a node is named in messages. -/
def nodeName (node : Nat) : String := s!"#{node}"

namespace Outlet

def name (o : Outlet) : String := s!"{nodeName o.node}.{o.index}"

end Outlet

/-- The elements `start, …, start + size - 1` of an output. -/
structure Span where
  node : Nat
  output : Nat
  type : ElemType
  start : Nat
  size : Nat
  deriving DecidableEq, Repr

namespace Span

def outlet (s : Span) : Outlet := ⟨s.node, s.output⟩

/-- Where the span ends. -/
def stop (s : Span) : Nat := Size.add s.start s.size

/-- All of an output. -/
def whole (o : Outlet) (type : ElemType) (size : Nat) : Span := ⟨o.node, o.index, type, 0, size⟩

/-- The parts of spans that lie between the places `start` and `stop`, where the first span begins at `offset`.
    Spans of which nothing lies there are dropped. -/
def between (start stop : Nat) : (offset : Nat) → List Span → List Span
  | _, [] => []
  | offset, s :: rest =>
    let next := Size.add offset s.size
    let first := max start offset
    let last := min stop next
    if first < last then
      { s with start := Size.add s.start (first - offset), size := last - first } :: between start stop next rest
    else between start stop next rest

/-- A part is not empty and is one of elements of the same output, as of the same type. -/
theorem mem_between {start stop offset : Nat} {spans : List Span} {t : Span}
    (h : t ∈ between start stop offset spans) :
    ∃ s ∈ spans, t.outlet = s.outlet ∧ t.type = s.type ∧ 0 < t.size := by
  induction spans generalizing offset with
  | nil => simp [between] at h
  | cons s rest ih =>
    have hrest : t ∈ between start stop (Size.add offset s.size) rest →
        ∃ u ∈ s :: rest, t.outlet = u.outlet ∧ t.type = u.type ∧ 0 < t.size := fun h => by
      obtain ⟨u, hu, hpart⟩ := ih h
      exact ⟨u, List.mem_cons_of_mem _ hu, hpart⟩
    rw [between] at h
    split at h
    case isTrue hkept =>
      rcases List.mem_cons.mp h with rfl | h
      · exact ⟨s, List.mem_cons_self, rfl, rfl, Nat.sub_pos_of_lt hkept⟩
      · exact hrest h
    case isFalse => exact hrest h

end Span

structure Wire where
  spans : List Span
  uniform : ∀ s ∈ spans, ∀ t ∈ spans, s.type = t.type

namespace Wire

@[ext] theorem ext {a b : Wire} (h : a.spans = b.spans) : a = b := by
  cases a; cases b; cases h; rfl

instance : DecidableEq Wire := fun a b =>
  if h : a.spans = b.spans then isTrue (Wire.ext h) else isFalse fun e => h (congrArg spans e)

def empty : Wire := ⟨[], by simp⟩

instance : Inhabited Wire := ⟨empty⟩

def ofSpan (s : Span) : Wire := ⟨[s], by simp⟩

/-- Joins spans to a wire, unless one has another type than the first. -/
def ofSpans : List Span → Result Wire
  | [] => .ok empty
  | s :: rest =>
    match h : rest.find? fun t => t.type ≠ s.type with
    | some t => .error (.typeMismatch s.type.name t.type.name)
    | none => .ok ⟨s :: rest, by
        have all : ∀ t ∈ s :: rest, t.type = s.type := by
          intro t ht
          rcases List.mem_cons.mp ht with rfl | ht
          · rfl
          · simpa using List.find?_eq_none.mp h t ht
        intro a ha b hb
        rw [all a ha, all b hb]⟩

def size (w : Wire) : Nat := Size.sum (w.spans.map (·.size))

/-- The element type, unless the wire has no span. -/
def type? (w : Wire) : Option ElemType := w.spans.head?.map (·.type)

theorem type?_eq {w : Wire} {s : Span} (h : s ∈ w.spans) : w.type? = some s.type := by
  match hw : w.spans with
  | [] => simp [hw] at h
  | u :: rest => simp [type?, hw, w.uniform u (by simp [hw]) s h]

/-- The elements of `a`, then those of `b`. -/
def append (a b : Wire) : Result Wire :=
  if h : ∀ s ∈ a.type?, ∀ t ∈ b.type?, s = t then
    .ok ⟨a.spans ++ b.spans, by
      intro s hs t ht
      have cross : ∀ s ∈ a.spans, ∀ t ∈ b.spans, s.type = t.type := fun s hs t ht =>
        h _ (type?_eq hs) _ (type?_eq ht)
      rcases List.mem_append.mp hs with hs | hs <;> rcases List.mem_append.mp ht with ht | ht
      · exact a.uniform s hs t ht
      · exact cross s hs t ht
      · exact (cross t ht s hs).symm
      · exact b.uniform s hs t ht⟩
  else .error (.typeMismatch ((a.type?.map ElemType.name).getD "") ((b.type?.map ElemType.name).getD ""))

/-- The elements from `start` on, `size` of them, all of which must exist. -/
def slice (w : Wire) (start size : Nat) : Result Wire :=
  let stop := Size.add start size
  if w.size < stop then .error (.dimensionMismatch "port elements slice" w.size stop)
  else .ok ⟨Span.between start stop 0 w.spans, by
    intro s hs t ht
    obtain ⟨s', hs', -, es, -⟩ := Span.mem_between hs
    obtain ⟨t', ht', -, et, -⟩ := Span.mem_between ht
    rw [es, et, w.uniform s' hs' t' ht']⟩

end Wire

/-! ### Inputs and outputs -/

/-- An input of a node, and the wire that feeds it. -/
structure Input where
  name : String
  type : ElemType
  wire : Wire
  deriving DecidableEq

/-- A wire may feed an input of its own element type, and one without spans any input. -/
def Wire.checkType (type : ElemType) (w : Wire) : Result Unit :=
  match w.type? with
  | some t => if t = type then .ok () else .error (.typeMismatch type.name t.name)
  | none => .ok ()

def Input.connect (name : String) (type : ElemType) (w : Wire) : Result Input := do
  w.checkType type
  return ⟨name, type, w⟩

structure Output where
  name : String
  type : ElemType
  size : Nat
  deriving DecidableEq, Repr

end Dataflow
