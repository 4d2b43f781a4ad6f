import Dataflow.Model.Basic
import Dataflow.Proofs.Action
import Dataflow.Proofs.Wire

/-! # Well-formed models

A model is well formed when every node reads only outputs of nodes before it, of their type and within
their size. Putting a node last checks just that, so every model that is built node by node is well
formed, and what a model offers stays offered when nodes are put behind. -/

namespace Dataflow

/-- No end of a span of the node wraps around, and its outputs have as many elements as they declare. -/
structure Node.Exact {κ : Type} [Node κ] (n : κ) : Prop where
  spans : ∀ s ∈ Node.spans n, s.Exact
  outputs : ∀ out ∈ Node.outputs n, out.size < Size.limit

instance {κ : Type} [Node κ] (n : κ) : Decidable (Node.Exact n) :=
  decidable_of_iff ((∀ s ∈ Node.spans n, s.Exact) ∧ ∀ out ∈ Node.outputs n, out.size < Size.limit)
    ⟨fun ⟨hspans, houtputs⟩ => ⟨hspans, houtputs⟩, fun h => ⟨h.spans, h.outputs⟩⟩

namespace Model
variable {κ : Type} {m m' : Model κ} {n : κ} {id k : Nat}

theorem node_eq_ok : m.node id = .ok n ↔ m.nodes[id]? = some n := by
  unfold node
  cases m.nodes[id]? <;> simp

/-- The model with a node put last, unchecked. -/
def push (m : Model κ) (n : κ) : Model κ := ⟨m.nodes ++ [n]⟩

@[simp] theorem size_push : (m.push n).size = m.size + 1 := by simp [push, size]

theorem push_getElem?_of_lt (h : id < m.size) : (m.push n).nodes[id]? = m.nodes[id]? :=
  List.getElem?_append_left h

@[simp] theorem push_getElem?_size : (m.push n).nodes[m.size]? = some n := by
  simp [push, size]

theorem push_getElem?_cases {n' : κ} (h : (m.push n).nodes[id]? = some n') :
    id < m.size ∧ m.nodes[id]? = some n' ∨ id = m.size ∧ n' = n := by
  have hlt : id < (m.push n).size := (List.getElem?_eq_some_iff.mp h).1
  rw [size_push] at hlt
  rcases Nat.lt_or_ge id m.size with hid | hid
  · exact Or.inl ⟨hid, (push_getElem?_of_lt hid).symm.trans h⟩
  · obtain rfl : id = m.size := by omega
    exact Or.inr ⟨rfl, (Option.some.inj (push_getElem?_size.symm.trans h)).symm⟩

theorem truncate_succ (hn : m.nodes[k]? = some n) : m.truncate (k + 1) = (m.truncate k).push n := by
  simp [truncate, push, List.take_add_one, hn]

theorem size_truncate (hk : k ≤ m.size) : (m.truncate k).size = k := by
  unfold size at hk
  simp [truncate, size, hk]

theorem truncate_size : m.truncate m.size = m := by simp [truncate, size]

theorem truncate_truncate {j : Nat} (h : j ≤ k) : (m.truncate k).truncate j = m.truncate j := by
  simp [truncate, List.take_take, Nat.min_eq_left h]

theorem truncate_getElem? {id : Nat} (hid : id < k) : (m.truncate k).nodes[id]? = m.nodes[id]? := by
  simp [truncate, hid]

/-- The second model has the nodes of the first and perhaps others behind them. -/
def Extends (m m' : Model κ) : Prop := m.nodes <+: m'.nodes

theorem Extends.trans {m'' : Model κ} (h : m.Extends m') (h' : m'.Extends m'') : m.Extends m'' :=
  List.IsPrefix.trans h h'

theorem extends_push : m.Extends (m.push n) := List.prefix_append _ _

theorem Extends.getElem? (h : m.Extends m') (hid : id < m.size) : m'.nodes[id]? = m.nodes[id]? := by
  obtain ⟨rest, hrest⟩ := h
  rw [← hrest]
  exact List.getElem?_append_left hid

theorem Extends.mem (h : m.Extends m') (hn : n ∈ m.nodes) : n ∈ m'.nodes := List.IsPrefix.mem hn h

/-- Cut down to its size, a model that extends another is that one. -/
theorem Extends.truncate (h : m.Extends m') : m'.truncate m.size = m := by
  obtain ⟨rest, hrest⟩ := h
  show Model.mk (m'.nodes.take m.nodes.length) = m
  rw [← hrest, List.take_left]

theorem Extends.node (h : m.Extends m') (hn : m.nodes[id]? = some n) : m'.nodes[id]? = some n :=
  (h.getElem? (List.getElem?_eq_some_iff.mp hn).1).trans hn

variable [Node κ]

/-! ### What a model offers -/

/-- The output that an outlet of the model names. -/
def Declares (m : Model κ) (o : Outlet) (out : Output) : Prop :=
  ∃ n, m.nodes[o.node]? = some n ∧ (Node.outputs n)[o.index]? = some out

/-- A span lies within an output of its type. -/
def Offers (m : Model κ) (s : Span) : Prop :=
  ∃ out, m.Declares s.outlet out ∧ out.type = s.type ∧ s.stop ≤ out.size

theorem Declares.unique {o : Outlet} {out out' : Output} (h : m.Declares o out) (h' : m.Declares o out') :
    out = out' := by
  obtain ⟨n, hn, hout⟩ := h
  obtain ⟨n', hn', hout'⟩ := h'
  cases hn.symm.trans hn'
  exact Option.some.inj (hout.symm.trans hout')

theorem Declares.lt {o : Outlet} {out : Output} (h : m.Declares o out) : o.node < m.size := by
  obtain ⟨n, hn, -⟩ := h
  exact (List.getElem?_eq_some_iff.mp hn).1

theorem Offers.lt {s : Span} (h : m.Offers s) : s.node < m.size := by
  obtain ⟨out, hout, -⟩ := h
  exact hout.lt

theorem output_eq_ok {o : Outlet} {w : Wire} :
    m.output o.node o.index = .ok w ↔ ∃ out, m.Declares o out ∧ w = .ofSpan (.whole o out.type out.size) := by
  unfold output Node.outputWire Declares
  rw [Result.bind_eq_ok]
  constructor
  · rintro ⟨n, hn, h⟩
    rcases ho : (Node.outputs n)[o.index]? with _ | out <;> simp only [ho, reduceCtorEq, Except.ok.injEq] at h
    exact ⟨out, ⟨n, node_eq_ok.mp hn, ho⟩, h.symm⟩
  · rintro ⟨out, ⟨n, hn, ho⟩, rfl⟩
    exact ⟨n, node_eq_ok.mpr hn, by simp [ho]⟩

/-! ### Checking -/

theorem checkSpan_eq_ok {input : Input} {s : Span} :
    m.checkSpan id input s = .ok () ↔ s.node < id ∧ m.Offers s := by
  unfold checkSpan node Offers Declares Span.outlet
  by_cases hid : id ≤ s.node
  · have hno : ¬ s.node < id := by omega
    simp [hid, hno]
  have hlt : s.node < id := by omega
  rcases hn : m.nodes[s.node]? with _ | n
  · simp [hid]
  rcases ho : (Node.outputs n)[s.output]? with _ | out
  · simp [hid, ho]
  by_cases ht : out.type = s.type
  · by_cases hs : out.size < s.stop
    · simp [hid, ho, ht, hs]
    · simp [hid, ho, ht, hs, hlt]
      omega
  · simp [hid, ho, ht]

theorem check_eq_ok : m.check id n = .ok () ↔ ∀ s ∈ Node.spans n, s.node < id ∧ m.Offers s := by
  simp only [check, Result.forM_eq_ok, checkSpan_eq_ok, Node.spans, List.mem_flatMap]
  exact ⟨fun h s ⟨i, hi, hs⟩ => h i hi s hs, fun h i hi s hs => h s ⟨i, hi, hs⟩⟩

/-- Every node reads outputs of nodes before it, of their type and within their size. -/
def WellFormed (m : Model κ) : Prop :=
  ∀ id n, m.nodes[id]? = some n → ∀ s ∈ Node.spans n, s.node < id ∧ m.Offers s

theorem validate_eq_ok : m.validate = .ok () ↔ m.WellFormed := by
  simp only [validate, Result.forM_eq_ok, check_eq_ok, WellFormed, Prod.forall, List.mem_zipIdx_iff_getElem?]
  exact ⟨fun h id n hn => h n id hn, fun h n id hn => h id n hn⟩

/-! ### Sums that do not wrap around -/

/-- No end of a span in the model wraps around. -/
def Exact (m : Model κ) : Prop := ∀ n ∈ m.nodes, Node.Exact n

instance : Decidable m.Exact := inferInstanceAs (Decidable (∀ n ∈ m.nodes, _))

/-- Nor does the number of elements on a wire: no sum of sizes in the model wraps around. -/
structure Summed (m : Model κ) : Prop where
  exact : m.Exact
  totals : ∀ n ∈ m.nodes, ∀ input ∈ Node.inputs n, Span.total input.wire.spans < Size.limit

instance : Decidable m.Summed :=
  decidable_of_iff (m.Exact ∧ ∀ n ∈ m.nodes, ∀ input ∈ Node.inputs n, Span.total input.wire.spans < Size.limit)
    ⟨fun ⟨hexact, htotals⟩ => ⟨hexact, htotals⟩, fun h => ⟨h.exact, h.totals⟩⟩

theorem Summed.wire {input : Input} (h : m.Summed) (hn : n ∈ m.nodes) (hinput : input ∈ Node.inputs n) :
    input.wire.Exact where
  spans s hs := (h.exact n hn).spans s (List.mem_flatMap.mpr ⟨input, hinput, hs⟩)
  total := h.totals n hn input hinput

theorem Exact.node (h : m.Exact) (hn : m.nodes[id]? = some n) : Node.Exact n := h n (List.mem_of_getElem? hn)

theorem Exact.size_lt {o : Outlet} {out : Output} (h : m.Exact) (hout : m.Declares o out) : out.size < Size.limit := by
  obtain ⟨n, hn, hout⟩ := hout
  exact (h.node hn).outputs out (List.mem_of_getElem? hout)

theorem exact_empty : (empty : Model κ).Exact := nofun

theorem exact_push : (m.push n).Exact ↔ m.Exact ∧ Node.Exact n := by simp [Exact, push, or_imp, forall_and]

/-- All elements of a span are elements of an output of its type. -/
def Has (m : Model κ) (s : Span) : Prop :=
  ∃ out, m.Declares s.outlet out ∧ out.type = s.type ∧ s.start + s.size ≤ out.size

/-- The end of a span that does not wrap around is within an output only if all elements are. -/
theorem offers_iff_has {s : Span} (hs : s.Exact) : m.Offers s ↔ m.Has s := by
  rw [Offers, hs.stop_eq]
  rfl

theorem has_whole {o : Outlet} {out : Output} (h : m.Declares o out) : m.Has (.whole o out.type out.size) :=
  ⟨out, h, rfl, Nat.le_of_eq (Nat.zero_add _)⟩

/-- What a model has it has in part. -/
theorem Has.part {s u : Span} (h : m.Has s) (houtlet : u.outlet = s.outlet) (htype : u.type = s.type)
    (hle : u.start + u.size ≤ s.start + s.size) : m.Has u := by
  obtain ⟨out, hout, htype', hstop⟩ := h
  exact ⟨out, houtlet ▸ hout, htype'.trans htype.symm, Nat.le_trans hle hstop⟩

/-! ### Putting nodes behind -/

theorem add_eq_ok : m.add n = .ok m' ↔ m.check m.size n = .ok () ∧ m' = m.push n := by
  unfold add push
  cases m.check m.size n <;> simp [eq_comm]

/-- Puts a node last in the model at hand, and gives its identifier. -/
def put (n : κ) : ExceptT Error (StateM (Model κ)) Nat := do
  let m ← get
  set (← liftM (m.add n))
  return m.size

theorem runFrom_put (h : m.check m.size n = .ok ()) : runFrom m (put n) = (.ok m.size, m.push n) := by
  have hadd : m.add n = .ok (m.push n) := add_eq_ok.mpr ⟨h, rfl⟩
  unfold put
  rw [runFrom_bind_ok runFrom_get, runFrom_lift_ok hadd]
  rfl

/-- Putting a node last fails and changes nothing, or passes the checks. -/
theorem runFrom_put_cases (m : Model κ) (n : κ) : (∃ e, runFrom m (put n) = (.error e, m)) ∨
    m.check m.size n = .ok () ∧ runFrom m (put n) = (.ok m.size, m.push n) := by
  rcases hadd : m.add n with e | m'
  · refine .inl ⟨e, ?_⟩
    unfold put
    rw [runFrom_bind_ok runFrom_get, hadd, runFrom_bind_error (runFrom_lift _)]
  · have hcheck := (add_eq_ok.mp hadd).1
    exact .inr ⟨hcheck, runFrom_put hcheck⟩

theorem Declares.mono {o : Outlet} {out : Output} (h : m.Declares o out) (hext : m.Extends m') : m'.Declares o out := by
  obtain ⟨n, hn, hout⟩ := h
  exact ⟨n, hext.node hn, hout⟩

theorem Offers.mono {s : Span} (h : m.Offers s) (hext : m.Extends m') : m'.Offers s := by
  obtain ⟨out, hout, ht, hs⟩ := h
  exact ⟨out, hout.mono hext, ht, hs⟩

theorem Has.mono {s : Span} (h : m.Has s) (hext : m.Extends m') : m'.Has s := by
  obtain ⟨out, hout, ht, hs⟩ := h
  exact ⟨out, hout.mono hext, ht, hs⟩

theorem Declares.of_truncate {o : Outlet} {out : Output} (h : (m.truncate k).Declares o out) : m.Declares o out :=
  h.mono (List.take_prefix k m.nodes)

theorem Offers.of_extends {s : Span} (h : m'.Offers s) (hext : m.Extends m') (hlt : s.node < m.size) : m.Offers s := by
  obtain ⟨out, ⟨n, hn, hout⟩, hs⟩ := h
  exact ⟨out, ⟨n, (hext.getElem? hlt).symm.trans hn, hout⟩, hs⟩

theorem Declares.of_push {o : Outlet} {out : Output} (h : (m.push n).Declares o out) :
    m.Declares o out ∨ o.node = m.size ∧ (Node.outputs n)[o.index]? = some out := by
  obtain ⟨n', hn', hout⟩ := h
  rcases push_getElem?_cases hn' with ⟨-, hn⟩ | ⟨hid, rfl⟩
  · exact Or.inl ⟨n', hn, hout⟩
  · exact Or.inr ⟨hid, hout⟩

theorem declares_push_size {index : Nat} {out : Output} (h : (Node.outputs n)[index]? = some out) :
    (m.push n).Declares ⟨m.size, index⟩ out :=
  ⟨n, push_getElem?_size, h⟩

theorem WellFormed.push (h : m.WellFormed) (hn : m.check m.size n = .ok ()) : (m.push n).WellFormed := by
  intro id n' hn' s hs
  rcases push_getElem?_cases hn' with ⟨-, hn'⟩ | ⟨rfl, rfl⟩
  · obtain ⟨hlt, ho⟩ := h id n' hn' s hs
    exact ⟨hlt, ho.mono extends_push⟩
  · obtain ⟨hlt, ho⟩ := check_eq_ok.mp hn s hs
    exact ⟨hlt, ho.mono extends_push⟩

/-- Nodes pass the checks, one put behind the other, just when they make a well-formed model with those before. -/
theorem addAll_eq_ok {ns : List κ} (hm : m.WellFormed) :
    m.addAll ns = .ok m' ↔ m' = ⟨m.nodes ++ ns⟩ ∧ m'.WellFormed := by
  induction ns generalizing m with
  | nil =>
    have hnil : m.addAll [] = .ok m := rfl
    rw [hnil, List.append_nil]
    constructor
    · intro h
      cases h
      exact ⟨rfl, hm⟩
    · rintro ⟨rfl, -⟩
      rfl
  | cons n rest ih =>
    have hcons : m.addAll (n :: rest) = m.add n >>= fun m => m.addAll rest := rfl
    have happend : (⟨m.nodes ++ n :: rest⟩ : Model κ) = ⟨(m.push n).nodes ++ rest⟩ := by simp [push]
    rw [hcons, happend, Result.bind_eq_ok]
    constructor
    · rintro ⟨mid, hmid, hrest⟩
      obtain ⟨hcheck, rfl⟩ := add_eq_ok.mp hmid
      exact (ih (hm.push hcheck)).mp hrest
    · rintro ⟨rfl, hall⟩
      have hcheck : m.check m.size n = .ok () := check_eq_ok.mpr fun s hs => by
        obtain ⟨hlt, hoffers⟩ := hall m.size n (by simp [push, size]) s hs
        exact ⟨hlt, hoffers.of_extends (extends_push.trans (List.prefix_append _ _)) hlt⟩
      exact ⟨m.push n, add_eq_ok.mpr ⟨hcheck, rfl⟩, (ih (hm.push hcheck)).mpr ⟨rfl, hall⟩⟩

theorem Offers.truncate {s : Span} (h : m.Offers s) (hs : s.node < k) : (m.truncate k).Offers s := by
  obtain ⟨out, ⟨n, hn, hout⟩, hrest⟩ := h
  exact ⟨out, ⟨n, (truncate_getElem? hs).trans hn, hout⟩, hrest⟩

theorem WellFormed.truncate (h : m.WellFormed) : (m.truncate k).WellFormed := by
  intro id n hn s hs
  have hid : id < k := by
    have := (List.getElem?_eq_some_iff.mp hn).1
    simp only [Model.truncate, List.length_take] at this
    omega
  obtain ⟨hlt, ho⟩ := h id n ((truncate_getElem? hid).symm.trans hn) s hs
  exact ⟨hlt, ho.truncate (Nat.lt_trans hlt hid)⟩

theorem wellFormed_empty : (empty : Model κ).WellFormed := by
  intro id n hn
  simp [empty] at hn

/-- The models that are built by putting one node after the other. -/
inductive Built : Model κ → Prop
  | empty : Built .empty
  | add {m m' : Model κ} {n : κ} : Built m → m.add n = .ok m' → Built m'

theorem Built.wellFormed (h : m.Built) : m.WellFormed := by
  induction h with
  | empty => exact wellFormed_empty
  | add _ hadd ih =>
    obtain ⟨hcheck, rfl⟩ := add_eq_ok.mp hadd
    exact ih.push hcheck

/-! ### Input nodes -/

theorem nodup_inputNodes : m.inputNodes.Nodup := by
  have hids : (m.nodes.zipIdx.map (·.2)).Nodup := by
    rw [List.zipIdx_map_snd]
    exact List.nodup_range'
  exact hids.sublist (List.filter_sublist.map _)

theorem forall₂_inputNodes :
    List.Forall₂ (fun id n => m.nodes[id]? = some n) m.inputNodes (m.nodes.filter Node.isInput) := by
  have hfilter : m.nodes.filter Node.isInput = (m.nodes.zipIdx.filter fun p => Node.isInput p.1).map (·.1) := by
    have hmap : m.nodes.zipIdx.map (·.1) = m.nodes := List.zipIdx_map_fst 0 m.nodes
    conv_lhs => rw [← hmap]
    rw [List.filter_map]
    rfl
  rw [hfilter, inputNodes, List.forall₂_map_left_iff, List.forall₂_map_right_iff, List.forall₂_same]
  intro p hp
  exact List.mem_zipIdx_iff_getElem?.mp (List.mem_filter.mp hp).1

end Model
end Dataflow
