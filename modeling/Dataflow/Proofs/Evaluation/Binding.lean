import Dataflow.Proofs.Evaluation.History
import Mathlib.Algebra.Order.BigOperators.Group.List
import Mathlib.Algebra.Order.Group.Nat

/-! # Sharing out a signal among the inputs

A signal for all inputs is shared out among the input nodes: each takes as many elements as its output has,
from where the share of the node before it ends. That the sizes add up is checked before anything is bound,
but whether a node takes elements of the signal's type only when its turn comes. So a signal of a type that
some input node does not take is left with the input nodes before that one, and with it goes what was
cached. So is one whose size is the sum of the sizes only because that wraps around. -/

namespace Dataflow

/-- The parts, each with the node that it is for, are slices of the signal that follow one another from `start`
    to the end of the signal. -/
def Signal.DividesFrom (x : Signal) : Nat → List (Nat × Signal) → Prop
  | start, [] => start = x.size
  | start, (_, part) :: rest => x.slice start part.size = .ok part ∧ x.DividesFrom (start + part.size) rest

/-- The parts, each with the node that it is for, are slices of the signal that follow one another from `start`. -/
def Signal.FollowsFrom (x : Signal) : Nat → List (Nat × Signal) → Prop
  | _, [] => True
  | start, (_, part) :: rest => x.slice start part.size = .ok part ∧ x.FollowsFrom (start + part.size) rest

namespace Signal
variable {x part : Signal} {start size : Nat} {sizes : List (Nat × Nat)} {parts : List (Nat × Signal)}

theorem size_slice (h : x.slice start size = .ok part) : part.size = size := by
  obtain ⟨hle, -, hscalars⟩ := slice_eq_ok.mp h
  rw [← length_scalars, hscalars, List.length_take, List.length_drop, length_scalars]
  omega

/-- The nodes that parts are for, and how much each is given. -/
def shareSizes (parts : List (Nat × Signal)) : List (Nat × Nat) := parts.map fun p => (p.1, p.2.size)

@[simp] theorem map_fst_shareSizes : (shareSizes parts).map (·.1) = parts.map (·.1) := by simp [shareSizes]

/-- The number of elements that nodes take together, however many they are. -/
def totalSize (sizes : List (Nat × Nat)) : Nat := Size.total (sizes.map (·.2))

@[simp] theorem totalSize_nil : totalSize [] = 0 := rfl

@[simp] theorem totalSize_cons (p : Nat × Nat) (sizes : List (Nat × Nat)) :
    totalSize (p :: sizes) = p.2 + totalSize sizes := rfl

theorem dividesFrom_iff : x.DividesFrom start parts ↔
    x.FollowsFrom start parts ∧ start + totalSize (shareSizes parts) = x.size := by
  induction parts generalizing start with
  | nil => simp [DividesFrom, FollowsFrom, shareSizes]
  | cons p rest ih =>
    have hsum : totalSize (shareSizes (p :: rest)) = p.2.size + totalSize (shareSizes rest) := rfl
    simp only [DividesFrom, FollowsFrom, ih, and_assoc, hsum, Nat.add_assoc]

theorem FollowsFrom.stop_le (h : x.FollowsFrom start parts) (hstart : start ≤ x.size) :
    start + totalSize (shareSizes parts) ≤ x.size := by
  induction parts generalizing start with
  | nil => exact hstart
  | cons p rest ih =>
    have hrest : start + p.2.size + totalSize (shareSizes rest) ≤ x.size := ih h.2 (slice_eq_ok.mp h.1).1
    exact Nat.add_assoc _ _ _ ▸ hrest

/-- One after the other, the parts make up the next elements of the signal. -/
theorem FollowsFrom.flatMap_scalars (h : x.FollowsFrom start parts) :
    parts.flatMap (·.2.scalars) = (x.scalars.drop start).take (totalSize (shareSizes parts)) := by
  induction parts generalizing start with
  | nil => rfl
  | cons p rest ih =>
    obtain ⟨-, -, hpart⟩ := slice_eq_ok.mp h.1
    have hsum : totalSize (shareSizes (p :: rest)) = p.2.size + totalSize (shareSizes rest) := rfl
    rw [List.flatMap_cons, ih h.2, hpart, hsum, List.take_add, List.drop_drop]

theorem FollowsFrom.type (h : x.FollowsFrom start parts) : ∀ p ∈ parts, p.2.type = x.type := by
  induction parts generalizing start with
  | nil => simp
  | cons p rest ih =>
    rintro q hq
    rcases List.mem_cons.mp hq with rfl | hq
    · exact (slice_eq_ok.mp h.1).2.1
    · exact ih h.2 q hq

theorem exists_followsFrom (h : start + totalSize sizes ≤ x.size) :
    ∃ parts, shareSizes parts = sizes ∧ x.FollowsFrom start parts := by
  induction sizes generalizing start with
  | nil => exact ⟨[], rfl, trivial⟩
  | cons p rest ih =>
    rw [totalSize_cons] at h
    obtain ⟨part, hpart⟩ : ∃ part, x.slice start p.2 = .ok part := exists_slice (by omega)
    obtain ⟨parts, hparts, hfollows⟩ : ∃ parts, shareSizes parts = rest ∧ x.FollowsFrom (start + p.2) parts :=
      ih (by omega)
    have hsize : part.size = p.2 := size_slice hpart
    refine ⟨(p.1, part) :: parts, ?_, ?_, ?_⟩
    · rw [← hparts, shareSizes, List.map_cons, hsize]
      rfl
    · rw [hsize]
      exact hpart
    · rw [hsize]
      exact hfollows

theorem DividesFrom.flatMap_scalars (h : x.DividesFrom 0 parts) : parts.flatMap (·.2.scalars) = x.scalars := by
  obtain ⟨hfollows, htotal⟩ := dividesFrom_iff.mp h
  have hall : x.scalars.length ≤ totalSize (shareSizes parts) := by
    rw [length_scalars]
    omega
  rw [hfollows.flatMap_scalars, List.drop_zero, List.take_of_length_le hall]

end Signal

namespace Model
variable {κ : Type} [Node κ] {m : Model κ} {x : Signal} {parts : List (Nat × Signal)} {sizes : List (Nat × Nat)}

/-- The parts of a signal for the input nodes, in order: each is as long as the output of its node, and they
    divide the signal. -/
structure Shares (m : Model κ) (x : Signal) (parts : List (Nat × Signal)) : Prop where
  nodes : parts.map (·.1) = m.inputNodes
  sizes : ∀ p ∈ parts, ∃ out, m.Declares ⟨p.1, 0⟩ out ∧ p.2.size = out.size
  divides : x.DividesFrom 0 parts

theorem Shares.whole (h : m.Shares x parts) : parts.flatMap (·.2.scalars) = x.scalars := h.divides.flatMap_scalars

/-- A share is refused for its type only. -/
theorem Shares.type_ne {p : Nat × Signal} (h : m.Shares x parts) (hp : p ∈ parts) (hno : ¬ m.Accepts p.1 p.2) :
    ∃ out, m.Declares ⟨p.1, 0⟩ out ∧ out.type ≠ x.type := by
  obtain ⟨out, hdeclared, hsize⟩ := h.sizes p hp
  refine ⟨out, hdeclared, fun htype => hno ?_⟩
  obtain ⟨n, hn, hout⟩ := hdeclared
  have hmem : p.1 ∈ m.inputNodes := h.nodes ▸ List.mem_map_of_mem hp
  obtain ⟨n', hinput, hn'⟩ := forall₂_of_mem forall₂_inputNodes p.1 hmem
  cases hn.symm.trans hn'
  exact ⟨n, hn, (List.mem_filter.mp hinput).2, out, hout,
    ((Signal.dividesFrom_iff.mp h.divides).1.type p hp).trans htype.symm, hsize⟩

/-- The input nodes, in order, and the sizes of their outputs. -/
structure Wants (m : Model κ) (sizes : List (Nat × Nat)) : Prop where
  nodes : sizes.map (·.1) = m.inputNodes
  sizes : ∀ p ∈ sizes, ∃ out, m.Declares ⟨p.1, 0⟩ out ∧ p.2 = out.size

theorem Wants.unique {sizes' : List (Nat × Nat)} (h : m.Wants sizes) (h' : m.Wants sizes') : sizes = sizes' := by
  have hnodes : sizes.map (·.1) = sizes'.map (·.1) := h.nodes.trans h'.nodes.symm
  have hsizes := h.sizes
  have hsizes' := h'.sizes
  clear h h'
  induction sizes generalizing sizes' with
  | nil => exact (List.map_eq_nil_iff.mp hnodes.symm).symm
  | cons p rest ih =>
    obtain _ | ⟨p', rest'⟩ := sizes'
    · cases hnodes
    obtain ⟨hp, hrest⟩ := List.cons_eq_cons.mp hnodes
    have hnode : p.1 = p'.1 := hp
    obtain ⟨⟨out, hout, hsize⟩, hsizes⟩ := List.forall_mem_cons.mp hsizes
    obtain ⟨⟨out', hout', hsize'⟩, hsizes'⟩ := List.forall_mem_cons.mp hsizes'
    have hsame : out = out' := by
      rw [hnode] at hout
      exact hout.unique hout'
    exact List.cons_eq_cons.mpr ⟨Prod.ext hp (hsize.trans (hsame ▸ hsize'.symm)), ih hrest hsizes hsizes'⟩

theorem Shares.wants (h : m.Shares x parts) : m.Wants (Signal.shareSizes parts) where
  nodes := Signal.map_fst_shareSizes.trans h.nodes
  sizes := List.forall_mem_map.mpr fun p hp => h.sizes p hp

/-- A signal can be shared out where the sizes of the input nodes add up to its size. -/
theorem Wants.exists_shares (h : m.Wants sizes) (htotal : Signal.totalSize sizes = x.size) :
    ∃ parts, m.Shares x parts := by
  obtain ⟨parts, rfl, hfollows⟩ : ∃ parts, Signal.shareSizes parts = sizes ∧ x.FollowsFrom 0 parts :=
    Signal.exists_followsFrom (by omega)
  exact ⟨parts, Signal.map_fst_shareSizes.symm.trans h.nodes, fun p hp => h.sizes _ (List.mem_map_of_mem hp),
    Signal.dividesFrom_iff.mpr ⟨hfollows, (Nat.zero_add _).trans htotal⟩⟩

theorem Shares.total (h : m.Shares x parts) : Signal.totalSize (Signal.shareSizes parts) = x.size :=
  (Nat.zero_add _).symm.trans (Signal.dividesFrom_iff.mp h.divides).2

/-- What is asked of the input nodes: their sizes. -/
def inputSizes (m : Model κ) : Result (List (Nat × Nat)) :=
  m.inputNodes.mapM fun id => do return (id, (← m.output id 0).size)

/-- An output of more elements than there are sizes counts as one of as many as are left over. -/
def wrapped (sizes : List (Nat × Nat)) : List (Nat × Nat) := sizes.map fun p => (p.1, p.2 % Size.limit)

theorem sum_wrapped : Size.sum ((wrapped sizes).map (·.2)) = Signal.totalSize sizes % Size.limit := by
  have hmap : (wrapped sizes).map (·.2) = (sizes.map (·.2)).map (· % Size.limit) := by
    rw [wrapped, List.map_map, List.map_map]
    rfl
  rw [hmap, Size.sum_map_mod, Size.sum_eq_mod]
  rfl

theorem wrapped_eq_self (h : Signal.totalSize sizes < Size.limit) : wrapped sizes = sizes := by
  have hone : ∀ p ∈ sizes, (p.1, p.2 % Size.limit) = p := by
    intro p hp
    have hle : p.2 ≤ Signal.totalSize sizes := Size.le_total (List.mem_map_of_mem hp)
    rw [Nat.mod_eq_of_lt (Nat.lt_of_le_of_lt hle h)]
  exact (List.map_congr_left hone).trans (List.map_id' sizes)

theorem inputSizes_eq_ok : m.inputSizes = .ok sizes ↔ ∃ declared, m.Wants declared ∧ sizes = wrapped declared := by
  have hone : ∀ (id : Nat) (p : Nat × Nat), (do return (id, (← m.output id 0).size) : Result (Nat × Nat)) = .ok p ↔
      ∃ out, m.Declares ⟨id, 0⟩ out ∧ p = (id, out.size % Size.limit) := by
    intro id p
    simp only [Result.bind_eq_ok, Result.pure_eq, Except.ok.injEq]
    constructor
    · rintro ⟨w, hw, rfl⟩
      obtain ⟨out, hout, rfl⟩ := output_eq_ok (o := ⟨id, 0⟩).mp hw
      exact ⟨out, hout, rfl⟩
    · rintro ⟨out, hout, rfl⟩
      exact ⟨_, output_eq_ok (o := ⟨id, 0⟩).mpr ⟨out, hout, rfl⟩, rfl⟩
  simp only [inputSizes, Result.mapM_eq_ok, hone]
  constructor
  · intro h
    suffices h' : ∃ declared : List (Nat × Nat), declared.map (·.1) = m.inputNodes ∧
        (∀ p ∈ declared, ∃ out, m.Declares ⟨p.1, 0⟩ out ∧ p.2 = out.size) ∧ sizes = wrapped declared by
      obtain ⟨declared, hnodes, hsizes, hwrapped⟩ := h'
      exact ⟨declared, ⟨hnodes, hsizes⟩, hwrapped⟩
    generalize m.inputNodes = ids at h
    induction h with
    | nil => exact ⟨[], rfl, by simp, rfl⟩
    | @cons id p _ _ hp _ ih =>
      obtain ⟨out, hout, rfl⟩ := hp
      obtain ⟨declared, rfl, hsizes, rfl⟩ := ih
      exact ⟨(id, out.size) :: declared, rfl, List.forall_mem_cons.mpr ⟨⟨out, hout, rfl⟩, hsizes⟩, rfl⟩
  · rintro ⟨declared, ⟨hnodes, hsizes⟩, rfl⟩
    rw [← hnodes, wrapped, List.forall₂_map_left_iff, List.forall₂_map_right_iff]
    refine List.forall₂_same.mpr fun p hp => ?_
    obtain ⟨out, hout, hsize⟩ := hsizes p hp
    exact ⟨out, hout, by rw [hsize]⟩

end Model

namespace Evaluator
variable {κ : Type} {e : Evaluator κ} {x : Signal} {parts : List (Nat × Signal)}

/-! ### Binding one share after the other -/

def holdAll (e : Evaluator κ) (parts : List (Nat × Signal)) : Evaluator κ := parts.foldl (fun e p => e.hold p.1 p.2) e

/-- An evaluator as it is when parts have been bound to nodes: nothing is cached any more if there are any. -/
structure Given (e : Evaluator κ) (parts : List (Nat × Signal)) (e' : Evaluator κ) : Prop where
  model : e'.model = e.model
  bound : ∀ p ∈ parts, e'.bound p.1 = some p.2
  others : ∀ id, id ∉ parts.map (·.1) → e'.bound id = e.bound id
  cache : parts ≠ [] → e'.cache = []
  unchanged : parts = [] → e' = e

theorem given_holdAll (h : (parts.map (·.1)).Nodup) : Given e parts (e.holdAll parts) := by
  induction parts generalizing e with
  | nil => exact ⟨rfl, by simp, fun _ _ => rfl, fun hne => absurd rfl hne, fun _ => rfl⟩
  | cons p rest ih =>
    obtain ⟨id, part⟩ := p
    obtain ⟨hfresh, hrest⟩ := List.nodup_cons.mp h
    have hgiven : Given (e.hold id part) rest (e.holdAll ((id, part) :: rest)) := ih hrest
    refine ⟨hgiven.model, ?_, ?_, ?_, fun hnil => (nomatch hnil)⟩
    · intro q hq
      rcases List.mem_cons.mp hq with rfl | hq
      · rw [hgiven.others id hfresh]
        simp [bound, hold]
      · exact hgiven.bound q hq
    · intro id' hid'
      obtain ⟨hne, hrest'⟩ := not_or.mp (List.mem_cons.not.mp hid')
      rw [hgiven.others id' hrest', bound, hold, List.lookup_cons, beq_false_of_ne hne]
      rfl
    · intro _
      rcases rest with _ | ⟨q, rest⟩
      · rfl
      · exact hgiven.cache (List.cons_ne_nil q rest)

variable [Node κ]

/-- A part that is there is bound if its node accepts it; the next part follows it. -/
theorem runFrom_bindParts_cons (e : Evaluator κ) (id : Nat) (sizes : List (Nat × Nat)) {start size : Nat}
    {part : Signal} (hx : x.size < Size.limit) (hpart : x.slice start size = .ok part) :
    e.model.Accepts id part ∧ runFrom e (bindParts x start ((id, size) :: sizes)) =
        runFrom (e.hold id part) (bindParts x (start + size) sizes) ∨
      ¬ e.model.Accepts id part ∧ ∃ err, runFrom e (bindParts x start ((id, size) :: sizes)) = (.error err, e) := by
  have hstop : start + size ≤ x.size := (Signal.slice_eq_ok.mp hpart).1
  have hfirst : runFrom e (bindParts x start ((id, size) :: sizes)) = runFrom e (do
      bind id part
      bindParts x (start + size) sizes) := by
    rw [bindParts, Size.add_eq (Nat.lt_of_le_of_lt hstop hx)]
    exact runFrom_lift_ok hpart
  rw [hfirst]
  rcases runFrom_bind_input e id part with ⟨haccepts, hrun⟩ | ⟨hno, err, hrun⟩
  · exact .inl ⟨haccepts, runFrom_bind_ok hrun⟩
  · exact .inr ⟨hno, err, runFrom_bind_error hrun⟩

/-- Whatever the sizes, what has been bound when binding ends are accepted parts that follow one another. -/
theorem runFrom_bindParts_sizes (e : Evaluator κ) (start : Nat) (hx : x.size < Size.limit) (sizes : List (Nat × Nat)) :
    ∃ front, x.FollowsFrom start front ∧ (∀ p ∈ front, e.model.Accepts p.1 p.2) ∧
      (Signal.shareSizes front = sizes ∧ runFrom e (bindParts x start sizes) = (.ok (), e.holdAll front) ∨
        front.map (·.1) <+: sizes.map (·.1) ∧
          ∃ err, runFrom e (bindParts x start sizes) = (.error err, e.holdAll front)) := by
  induction sizes generalizing e start with
  | nil => exact ⟨[], trivial, by simp, .inl ⟨rfl, rfl⟩⟩
  | cons p rest ih =>
    obtain ⟨id, size⟩ := p
    rcases hpart : x.slice start size with err | part
    · refine ⟨[], trivial, by simp, .inr ⟨List.nil_prefix, err, ?_⟩⟩
      have hfail : runFrom e (liftM (x.slice start size) : Evaluation κ Signal) = (.error err, e) := by
        rw [runFrom_lift, hpart]
      exact runFrom_bind_error hfail
    rcases runFrom_bindParts_cons e id rest hx hpart with ⟨haccepts, hrun⟩ | ⟨-, err, hrun⟩
    · obtain rfl : part.size = size := Signal.size_slice hpart
      obtain ⟨front, hfollows, hall, hend⟩ := ih (e.hold id part) (start + part.size)
      refine ⟨(id, part) :: front, ⟨hpart, hfollows⟩, List.forall_mem_cons.mpr ⟨haccepts, hall⟩, ?_⟩
      rcases hend with ⟨rfl, hrest⟩ | ⟨hnodes, err, hrest⟩
      · exact .inl ⟨rfl, hrun.trans hrest⟩
      · exact .inr ⟨List.cons_prefix_cons.mpr ⟨rfl, hnodes⟩, err, hrun.trans hrest⟩
    · exact ⟨[], trivial, by simp, .inr ⟨List.nil_prefix, err, hrun⟩⟩

/-- Binding parts that are there stops at the first one that its node does not accept. -/
theorem runFrom_bindParts {start : Nat} (hx : x.size < Size.limit) (h : x.FollowsFrom start parts) :
    (∀ p ∈ parts, e.model.Accepts p.1 p.2) ∧
      runFrom e (bindParts x start (Signal.shareSizes parts)) = (.ok (), e.holdAll parts) ∨
    ∃ front p back err, parts = front ++ p :: back ∧ (∀ q ∈ front, e.model.Accepts q.1 q.2) ∧
      ¬ e.model.Accepts p.1 p.2 ∧
      runFrom e (bindParts x start (Signal.shareSizes parts)) = (.error err, e.holdAll front) := by
  induction parts generalizing e start with
  | nil => exact .inl ⟨by simp, rfl⟩
  | cons p rest ih =>
    rcases runFrom_bindParts_cons e p.1 (Signal.shareSizes rest) hx h.1 with
      ⟨haccepts, hrun⟩ | ⟨hno, err, hrun⟩
    · rcases ih (e := e.hold p.1 p.2) h.2 with ⟨hall, hrest⟩ | ⟨front, q, back, err, rfl, hfront, hno, hrest⟩
      · exact .inl ⟨List.forall_mem_cons.mpr ⟨haccepts, hall⟩, hrun.trans hrest⟩
      · exact .inr ⟨p :: front, q, back, err, rfl, List.forall_mem_cons.mpr ⟨haccepts, hfront⟩, hno, hrun.trans hrest⟩
    · exact .inr ⟨[], p, rest, err, rfl, by simp, hno, hrun⟩

/-! ### Distributing a signal -/

theorem runFrom_bindAll_start : runFrom e (bindAll x) = runFrom e (liftM e.model.inputSizes >>= fun sizes => do
    let total := Size.sum (sizes.map (·.2))
    if total ≠ x.size then throw (.dimensionMismatch "model inputs" total x.size)
    bindParts x 0 sizes) :=
  runFrom_bind_ok runFrom_get

/-- Without the sizes of all input nodes, nothing changes. -/
theorem runFrom_bindAll_of_not_exists (h : ¬ ∃ sizes, e.model.Wants sizes) :
    ∃ err, runFrom e (bindAll x) = (.error err, e) := by
  rw [runFrom_bindAll_start]
  rcases hsizes : e.model.inputSizes with err | sizes
  · exact ⟨err, runFrom_bind_error rfl⟩
  · obtain ⟨declared, hdeclared, -⟩ := Model.inputSizes_eq_ok.mp hsizes
    exact absurd ⟨declared, hdeclared⟩ h

theorem runFrom_bindAll_of_ne {sizes : List (Nat × Nat)} (h : e.model.Wants sizes)
    (htotal : Signal.totalSize sizes % Size.limit ≠ x.size) : ∃ err, runFrom e (bindAll x) = (.error err, e) := by
  rw [runFrom_bindAll_start, runFrom_lift_ok (Model.inputSizes_eq_ok.mpr ⟨sizes, h, rfl⟩), Model.sum_wrapped]
  simp only [htotal, ne_eq, not_false_eq_true, if_true]
  exact ⟨_, rfl⟩

theorem runFrom_bindAll_of_eq {sizes : List (Nat × Nat)} (h : e.model.Wants sizes)
    (htotal : Signal.totalSize sizes % Size.limit = x.size) :
    runFrom e (bindAll x) = runFrom e (bindParts x 0 (Model.wrapped sizes)) := by
  rw [runFrom_bindAll_start, runFrom_lift_ok (Model.inputSizes_eq_ok.mpr ⟨sizes, h, rfl⟩), Model.sum_wrapped]
  simp only [htotal, ne_eq, not_true_eq_false, if_false]

theorem runFrom_bindAll_of_shares (hx : x.size < Size.limit) (h : e.model.Shares x parts) :
    runFrom e (bindAll x) = runFrom e (bindParts x 0 (Signal.shareSizes parts)) := by
  have hfits : Signal.totalSize (Signal.shareSizes parts) < Size.limit := h.total ▸ hx
  rw [runFrom_bindAll_of_eq h.wants (by rw [Nat.mod_eq_of_lt hfits, h.total]), Model.wrapped_eq_self hfits]

/-- Whatever is bound has been shared out. -/
theorem exists_shares_of_bindAll {e' : Evaluator κ} (h : runFrom e (bindAll x) = (.ok (), e')) :
    ∃ parts, e.model.Shares x parts ∧ e' = e.holdAll parts := by
  by_cases hwants : ∃ sizes, e.model.Wants sizes
  · obtain ⟨sizes, hwants⟩ := hwants
    by_cases htotal : Signal.totalSize sizes % Size.limit = x.size
    · have hx : x.size < Size.limit := htotal ▸ Nat.mod_lt _ Size.limit_pos
      obtain ⟨parts, hfollows, hall, ⟨hsizes, hrun⟩ | ⟨-, err, hrun⟩⟩ :=
        runFrom_bindParts_sizes e 0 hx (Model.wrapped sizes)
      · -- The parts lie within the signal, so the sum of their sizes has not wrapped around.
        have hle : 0 + Signal.totalSize (Signal.shareSizes parts) ≤ x.size := hfollows.stop_le (Nat.zero_le _)
        have hsum : Signal.totalSize (Signal.shareSizes parts) = x.size := by
          rw [← htotal, ← Model.sum_wrapped, ← hsizes]
          exact (Size.sum_eq (by show Signal.totalSize _ < _; omega)).symm
        refine ⟨parts, ⟨?_, fun p hp => ?_, Signal.dividesFrom_iff.mpr ⟨hfollows, by omega⟩⟩, ?_⟩
        · rw [← Signal.map_fst_shareSizes, hsizes, Model.wrapped, List.map_map]
          exact hwants.nodes
        · obtain ⟨n, hn, -, out, hout, -, hsize⟩ := hall p hp
          exact ⟨out, ⟨n, hn, hout⟩, hsize⟩
        · rw [runFrom_bindAll_of_eq hwants htotal] at h
          exact (Prod.ext_iff.mp (h.symm.trans hrun)).2
      · rw [runFrom_bindAll_of_eq hwants htotal] at h
        cases h.symm.trans hrun
    · obtain ⟨err, hfail⟩ := runFrom_bindAll_of_ne hwants htotal
      cases hfail.symm.trans h
  · obtain ⟨err, hfail⟩ := runFrom_bindAll_of_not_exists (x := x) hwants
    cases hfail.symm.trans h

/-- Where the sum of the sizes does not wrap around, a signal is refused as a whole if it cannot be shared out, and
    otherwise at the first share that has another type than its node. -/
theorem refused_of_fits {sizes : List (Nat × Nat)} {err : Error} {e' : Evaluator κ} (hwants : e.model.Wants sizes)
    (hfits : Signal.totalSize sizes < Size.limit) (hrun : runFrom e (bindAll x) = (.error err, e')) :
    (¬ ∃ parts, e.model.Shares x parts) ∧ e' = e ∨
      ∃ front p back out, e.model.Shares x (front ++ p :: back) ∧ (∀ q ∈ front, e.model.Accepts q.1 q.2) ∧
        e.model.Declares ⟨p.1, 0⟩ out ∧ out.type ≠ x.type ∧ Given e front e' := by
  by_cases htotal : Signal.totalSize sizes = x.size
  · have hx : x.size < Size.limit := htotal ▸ hfits
    obtain ⟨parts, hparts⟩ := hwants.exists_shares htotal
    have hnodup : (parts.map (·.1)).Nodup := hparts.nodes ▸ Model.nodup_inputNodes
    rw [runFrom_bindAll_of_shares hx hparts] at hrun
    rcases runFrom_bindParts (e := e) hx (Signal.dividesFrom_iff.mp hparts.divides).1 with
      ⟨-, hall⟩ | ⟨front, p, back, err', rfl, hfront, hno, hfail⟩
    · cases hall.symm.trans hrun
    · cases hfail.symm.trans hrun
      obtain ⟨out, hdeclared, htype⟩ := hparts.type_ne (by simp) hno
      rw [List.map_append] at hnodup
      exact .inr ⟨front, p, back, out, hparts, hfront, hdeclared, htype, given_holdAll hnodup.of_append_left⟩
  · have hno : ¬ ∃ parts, e.model.Shares x parts := fun ⟨parts, hparts⟩ =>
      htotal (hwants.unique hparts.wants ▸ hparts.total)
    obtain ⟨err', hfail⟩ := runFrom_bindAll_of_ne (x := x) hwants (by rwa [Nat.mod_eq_of_lt hfits])
    cases hfail.symm.trans hrun
    exact .inl ⟨hno, rfl⟩

/-- Whatever the sum of the sizes, where a signal is refused the first input nodes hold what follows one another in
    it. -/
theorem refused_after {sizes : List (Nat × Nat)} {err : Error} {e' : Evaluator κ} (hwants : e.model.Wants sizes)
    (hrun : runFrom e (bindAll x) = (.error err, e')) :
    ∃ front, front.map (·.1) <+: e.model.inputNodes ∧ x.FollowsFrom 0 front ∧
      (∀ q ∈ front, e.model.Accepts q.1 q.2) ∧ Given e front e' := by
  by_cases htotal : Signal.totalSize sizes % Size.limit = x.size
  · have hx : x.size < Size.limit := htotal ▸ Nat.mod_lt _ Size.limit_pos
    rw [runFrom_bindAll_of_eq hwants htotal] at hrun
    obtain ⟨front, hfollows, hall, ⟨-, hok⟩ | ⟨hnodes, err', hfail⟩⟩ :=
      runFrom_bindParts_sizes e 0 hx (Model.wrapped sizes)
    · cases hok.symm.trans hrun
    · cases hfail.symm.trans hrun
      have hfront : front.map (·.1) <+: e.model.inputNodes := by
        rw [Model.wrapped, List.map_map] at hnodes
        exact hwants.nodes ▸ hnodes
      have hnodup : (front.map (·.1)).Nodup := Model.nodup_inputNodes.sublist hfront.sublist
      exact ⟨front, hfront, hfollows, hall, given_holdAll hnodup⟩
  · obtain ⟨err', hfail⟩ := runFrom_bindAll_of_ne hwants htotal
    cases hfail.symm.trans hrun
    exact ⟨[], List.nil_prefix, trivial, by simp, given_holdAll (by simp)⟩

/-- Where a signal for all inputs is bound, each input node in order holds its share, the shares make up the
    signal, and nothing is cached if there is an input node; so it is whenever all input nodes accept their
    shares. Where it is refused, nothing has changed if it cannot be shared out; otherwise the input nodes before
    the first one of another type hold their shares, and only if there is none before it has nothing changed.
    And where the sum of the sizes of the input nodes wraps around, a signal that is refused may have been
    shared out among the first of them. -/
theorem bindAll_by_shares (e : Evaluator κ) (x : Signal) :
    (∀ e', runFrom e (bindAll x) = (.ok (), e') →
      ∃ parts, e.model.Shares x parts ∧ parts.flatMap (·.2.scalars) = x.scalars ∧ Given e parts e') ∧
    (∀ parts, x.size < Size.limit → e.model.Shares x parts → (∀ p ∈ parts, e.model.Accepts p.1 p.2) →
      ∃ e', runFrom e (bindAll x) = (.ok (), e')) ∧
    ∀ err e', runFrom e (bindAll x) = (.error err, e') →
      (¬ ∃ parts, e.model.Shares x parts) ∧ e' = e ∨
      (∃ front p back out, e.model.Shares x (front ++ p :: back) ∧ (∀ q ∈ front, e.model.Accepts q.1 q.2) ∧
        e.model.Declares ⟨p.1, 0⟩ out ∧ out.type ≠ x.type ∧ Given e front e') ∨
      ∃ sizes front, e.model.Wants sizes ∧ Size.limit ≤ Signal.totalSize sizes ∧
        front.map (·.1) <+: e.model.inputNodes ∧ x.FollowsFrom 0 front ∧
        (∀ q ∈ front, e.model.Accepts q.1 q.2) ∧ Given e front e' := by
  refine ⟨fun e' hrun => ?_, fun parts hx hparts hall => ?_, fun err e' hrun => ?_⟩
  · obtain ⟨parts, hparts, rfl⟩ := exists_shares_of_bindAll hrun
    exact ⟨parts, hparts, hparts.whole, given_holdAll (hparts.nodes ▸ Model.nodup_inputNodes)⟩
  · rw [runFrom_bindAll_of_shares hx hparts]
    rcases runFrom_bindParts (e := e) hx (Signal.dividesFrom_iff.mp hparts.divides).1 with
      ⟨-, hrun⟩ | ⟨front, p, back, err, rfl, -, hno, -⟩
    · exact ⟨_, hrun⟩
    · exact absurd (hall p (by simp)) hno
  · by_cases hwants : ∃ sizes, e.model.Wants sizes
    · obtain ⟨sizes, hwants⟩ := hwants
      rcases Nat.lt_or_ge (Signal.totalSize sizes) Size.limit with hfits | hover
      · exact (refused_of_fits hwants hfits hrun).imp_right .inl
      · obtain ⟨front, hfront⟩ := refused_after hwants hrun
        exact .inr (.inr ⟨sizes, front, hwants, hover, hfront⟩)
    · obtain ⟨err', hfail⟩ := runFrom_bindAll_of_not_exists (x := x) hwants
      cases hfail.symm.trans hrun
      exact .inl ⟨fun ⟨parts, hparts⟩ => hwants ⟨_, hparts.wants⟩, rfl⟩

/-- An input of integers before one of truth values. -/
def mixedInputs : Model Builtin := ⟨[.input .int 1, .input .bool 1]⟩

/-- Two integers are as many as the two inputs take together, but the second takes none. The first holds the new
    one all the same, and what was cached for the old one is forgotten. -/
theorem mixedInputs_half_bound :
    let e := mixedInputs.evaluator.after [.bind 0 (.int [5]), .bind 1 (.bool [true]), .computeOutput ⟨0, 0⟩]
    ∃ e', runFrom e (bindAll (.int [1, 2])) = (.error (.typeMismatch "bool" "int"), e') ∧
      e.bound 0 = some (.int [5]) ∧ e'.bound 0 = some (.int [1]) ∧ e'.bound 1 = e.bound 1 ∧
      e.cache = [(0, [.int [5]])] ∧ e'.cache = [] ∧
      ∃ front p back, mixedInputs.Shares (.int [1, 2]) (front ++ p :: back) ∧ Given e front e' := by
  intro e
  have hrun : runFrom e (bindAll (.int [1, 2])) =
      (.error (.typeMismatch "bool" "int"), ⟨mixedInputs, (0, .int [1]) :: e.bindings, []⟩) := by
    rfl
  refine ⟨_, hrun, by decide, by decide, by decide, by decide, rfl, ?_⟩
  rcases (bindAll_by_shares e (.int [1, 2])).2.2 _ _ hrun with
    ⟨-, hsame⟩ | ⟨front, p, back, -, hshares, -, -, -, hgiven⟩ | ⟨sizes, -, hwants, hover, -⟩
  · exact absurd (congrArg Evaluator.cache hsame) (by decide)
  · exact ⟨front, p, back, hshares, hgiven⟩
  · have hsizes : mixedInputs.Wants [(0, 1), (1, 1)] :=
        ⟨rfl, by simpa using ⟨⟨_, ⟨_, rfl, rfl⟩, rfl⟩, _, ⟨_, rfl, rfl⟩, rfl⟩⟩
    exact absurd (hwants.unique hsizes ▸ hover) (by decide)

end Evaluator
end Dataflow
