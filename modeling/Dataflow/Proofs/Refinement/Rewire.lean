import Dataflow.Proofs.Builtin.Made
import Dataflow.Proofs.Evaluation.Values

/-! # Nodes with other wires

A node whose wires are replaced by wires of the same size and type declares the same outputs and computes
the same from the same signals. So the wires of a whole model can be replaced: what has a value keeps it if
the new wires carry what the old ones carried. -/

namespace Dataflow
namespace Builtin
variable {n : Builtin} {g : Wire → Wire}

def rewire (g : Wire → Wire) : Builtin → Builtin
  | dot t a b => dot t (g a) (g b)
  | binary t op a b => binary t op (g a) (g b)
  | linear x p => linear (g x) p
  | n => n

theorem rewire_congr {g' : Wire → Wire} (h : ∀ i ∈ n.inputs, g i.wire = g' i.wire) : n.rewire g = n.rewire g' := by
  cases n with
  | input | constant => rfl
  | dot t a b =>
    have ha := h ⟨"input1", t, a⟩ List.mem_cons_self
    have hb := h ⟨"input2", t, b⟩ (List.mem_cons_of_mem _ List.mem_cons_self)
    exact congrArg₂ (dot t) ha hb
  | binary t op a b =>
    have ha := h ⟨"input1", t, a⟩ List.mem_cons_self
    have hb := h ⟨"input2", t, b⟩ (List.mem_cons_of_mem _ List.mem_cons_self)
    exact congrArg₂ (binary t op) ha hb
  | linear x p => exact congrArg (linear · p) (h ⟨"input", .real, x⟩ List.mem_cons_self)

theorem isInput_rewire : Node.isInput (n.rewire g) = Node.isInput n := by cases n <;> rfl

theorem inputs_rewire : (n.rewire g).inputs = n.inputs.map fun i => { i with wire := g i.wire } := by
  cases n <;> rfl

theorem compute_rewire : Node.compute (n.rewire g) = Node.compute n := by
  funext args
  cases n with
  | dot t a b => cases t <;> rfl
  | binary t op a b => cases t <;> rfl
  | input | constant | linear => rfl

theorem outputs_rewire (h : ∀ i ∈ n.inputs, (g i.wire).size = i.wire.size) :
    Node.outputs (n.rewire g) = Node.outputs n := by
  cases n with
  | binary t op a b =>
    have ha := h ⟨"input1", t, a⟩ List.mem_cons_self
    exact congrArg (fun k => [(⟨"output", t, k⟩ : Output)]) ha
  | input | constant | dot | linear => rfl

theorem mem_spans_rewire {s : Span} : s ∈ Node.spans (n.rewire g) ↔ ∃ i ∈ n.inputs, s ∈ (g i.wire).spans := by
  show s ∈ (n.rewire g).inputs.flatMap _ ↔ _
  rw [inputs_rewire, List.mem_flatMap]
  constructor
  · rintro ⟨_, hmem, hs⟩
    obtain ⟨i, hi, rfl⟩ := List.mem_map.mp hmem
    exact ⟨i, hi, hs⟩
  · rintro ⟨i, hi, hs⟩
    exact ⟨_, List.mem_map.mpr ⟨i, hi, rfl⟩, hs⟩

theorem Made.rewire (h : n.Made) (hsize : ∀ i ∈ n.inputs, (g i.wire).size = i.wire.size)
    (hcarries : ∀ i ∈ n.inputs, (g i.wire).Carries i.type) : (n.rewire g).Made := by
  have first {i j : Input} : i ∈ [i, j] := List.mem_cons_self
  have second {i j : Input} : j ∈ [i, j] := List.mem_cons_of_mem _ List.mem_cons_self
  cases n with
  | input | constant => trivial
  | dot t a b =>
    obtain ⟨hdot, hab, -, -⟩ := h
    exact ⟨hdot, (hsize _ first).trans (hab.trans (hsize _ second).symm), hcarries _ first, hcarries _ second⟩
  | binary t op a b =>
    obtain ⟨hop, hab, -, -⟩ := h
    exact ⟨hop, (hsize _ first).trans (hab.trans (hsize _ second).symm), hcarries _ first, hcarries _ second⟩
  | linear x p => exact ⟨(hsize _ List.mem_cons_self).trans h.1, hcarries _ List.mem_cons_self⟩

theorem arguments_rewire {given : Nat → Result (List Signal)} {args : List Signal} :
    Model.Arguments given (n.rewire g) args ↔
      List.Forall₂ (fun i x => Evaluator.gather given i.type (g i.wire) = .ok x) n.inputs args := by
  show List.Forall₂ _ (n.rewire g).inputs args ↔ _
  rw [inputs_rewire, List.forall₂_map_left_iff]

end Builtin

/-! ### Models with other wires -/

/-- A node keeps its outputs when its wires are replaced, and still reads elements up to the same places. -/
structure Builtin.Rewirable (g : Wire → Wire) (n : Builtin) : Prop where
  outputs : Node.outputs (n.rewire g) = Node.outputs n
  spans : ∀ u ∈ Node.spans (n.rewire g), ∃ s ∈ Node.spans n, u.outlet = s.outlet ∧ u.type = s.type ∧ u.stop = s.stop

namespace Model
variable {m : Model Builtin} {n : Builtin} {g : Wire → Wire} {id k : Nat}

def rewire (g : Wire → Wire) (m : Model Builtin) : Model Builtin := ⟨m.nodes.map (Builtin.rewire g)⟩

@[simp] theorem size_rewire : (m.rewire g).size = m.size := List.length_map _

theorem rewire_push : (m.push n).rewire g = (m.rewire g).push (n.rewire g) := by
  simp [rewire, push]

theorem rewire_truncate : (m.truncate k).rewire g = (m.rewire g).truncate k := by
  simp [rewire, truncate]

theorem rewire_getElem? (h : m.nodes[id]? = some n) : (m.rewire g).nodes[id]? = some (n.rewire g) := by
  rw [rewire, List.getElem?_map, h]
  rfl

theorem rewire_getElem?_inv {n' : Builtin} (h : (m.rewire g).nodes[id]? = some n') :
    ∃ n, m.nodes[id]? = some n ∧ n' = n.rewire g := by
  rw [rewire, List.getElem?_map, Option.map_eq_some_iff] at h
  obtain ⟨n, hn, rfl⟩ := h
  exact ⟨n, hn, rfl⟩

theorem filter_isInput_rewire : (m.rewire g).nodes.filter Node.isInput = m.nodes.filter Node.isInput := by
  unfold rewire
  simp only
  induction m.nodes with
  | nil => rfl
  | cons n rest ih =>
    rw [List.map_cons]
    cases n with
    | input t size =>
      show Builtin.input t size :: (rest.map (Builtin.rewire g)).filter Node.isInput =
        .input t size :: rest.filter Node.isInput
      rw [ih]
    | constant | dot | binary | linear => exact ih

section
variable (rewirable : ∀ n ∈ m.nodes, n.Rewirable g)
include rewirable

theorem declares_rewire {o : Outlet} {out : Output} : (m.rewire g).Declares o out ↔ m.Declares o out := by
  constructor
  · rintro ⟨_, hn', hout⟩
    obtain ⟨n, hn, rfl⟩ := rewire_getElem?_inv hn'
    rw [(rewirable n (List.mem_of_getElem? hn)).outputs] at hout
    exact ⟨n, hn, hout⟩
  · rintro ⟨n, hn, hout⟩
    refine ⟨n.rewire g, rewire_getElem? hn, ?_⟩
    rw [(rewirable n (List.mem_of_getElem? hn)).outputs]
    exact hout

theorem WellFormed.rewire (h : m.WellFormed) : (m.rewire g).WellFormed := by
  intro id n' hn' u hu
  obtain ⟨n, hn, rfl⟩ := rewire_getElem?_inv hn'
  obtain ⟨s, hs, houtlet, htype, hstop⟩ := (rewirable n (List.mem_of_getElem? hn)).spans u hu
  obtain ⟨hlt, out, hout, hsame, hle⟩ := h id n hn s hs
  have hnode : u.node = s.node := congrArg Outlet.node houtlet
  refine ⟨hnode ▸ hlt, out, (declares_rewire rewirable).mpr (houtlet ▸ hout), hsame.trans htype.symm, ?_⟩
  rw [hstop]
  exact hle

end

end Model

/-! ### Inputs by position -/

namespace Model
variable {κ : Type} [Node κ] {m : Model κ} {n : κ} {a : Nat → Option Signal} {id : Nat} {xs : List Signal}

/-- The number of input nodes before a node. -/
def rank (m : Model κ) (id : Nat) : Nat := (m.nodes.take id).countP Node.isInput

/-- What the nodes put out when the input nodes hold the signals of `a`, in order. -/
def under (m : Model κ) (a : Nat → Option Signal) (id : Nat) : Result (List Signal) :=
    m.values (fun i => a (m.rank i)) id

theorem rank_size : m.rank m.size = m.nodes.countP Node.isInput := by
  rw [rank, size, List.take_length]

theorem rank_push (h : id ≤ m.size) : (m.push n).rank id = m.rank id := by
  rw [rank, rank, push, List.take_append_of_le_length h]

theorem under_push (h : id < m.size) : (m.push n).under a id = m.under a id := by
  refine valuesBy_congr (fun i hi => push_getElem?_of_lt (by omega)) fun i hi _ _ _ => ?_
  rw [rank_push (by omega)]

theorem under_mono {m' : Model κ} (hext : m.Extends m') (h : m.under a id = .ok xs) : m'.under a id = .ok xs := by
  have hid : id < m.size := by
    rw [under, values, valuesBy, outputsFrom_eq_ok] at h
    obtain ⟨n, hn, -⟩ := h
    exact (List.getElem?_eq_some_iff.mp hn).1
  rw [← h]
  symm
  refine valuesBy_congr (fun i hi => (hext.getElem? (by omega)).symm) fun i hi _ _ _ => ?_
  obtain ⟨rest, hrest⟩ := hext
  rw [rank, rank, ← hrest, List.take_append_of_le_length]
  show i ≤ m.size
  omega

theorem under_push_size (hm : (m.push n).WellFormed) : (m.push n).under a m.size = .ok xs ↔
    List.Forall₂ Output.Fits (Node.outputs n) xs ∧
      ((Node.isInput n = true ∧ ∃ x, a (m.rank m.size) = some x ∧ xs = [x]) ∨
       (Node.isInput n = false ∧ ∃ args, Arguments (m.under a) n args ∧ Node.compute n args = .ok xs)) := by
  have hspans := hm m.size n push_getElem?_size
  have hargs : ∀ args, Arguments (values (m.push n) fun i => a ((m.push n).rank i)) n args ↔
      Arguments (m.under a) n args := by
    intro args
    refine ⟨fun h => h.mono fun s hs xs hxs => ?_, fun h => h.mono fun s hs xs hxs => ?_⟩
    · rw [← under_push (n := n) (hspans s hs).1]
      exact hxs
    · rw [← under_push (n := n) (hspans s hs).1] at hxs
      exact hxs
  rw [under, values_eq hm, outputsFrom_eq_ok]
  simp only [push_getElem?_size, Option.some.injEq, exists_eq_left', checkOutputs_eq_ok, hargs,
    rank_push (Nat.le_refl m.size)]

section
variable {m : Model Builtin} {g : Wire → Wire} {b : Nat → Option Signal}

theorem rank_rewire : (m.rewire g).rank id = m.rank id := by
  unfold rank rewire
  simp only
  rw [← List.map_take, List.countP_map]
  exact List.countP_congr fun n _ => by rw [Function.comp, Builtin.isInput_rewire]

/-- What has a value keeps it when wires are replaced by wires that carry the same. -/
theorem values_rewire (hm : m.WellFormed) (rewirable : ∀ n ∈ m.nodes, n.Rewirable g)
    (carry : ∀ n ∈ m.nodes, ∀ args, Arguments (m.values b) n args → Arguments (m.values b) (n.rewire g) args)
    (h : m.values b id = .ok xs) : (m.rewire g).values b id = .ok xs := by
  induction id using Nat.strongRecOn generalizing xs with
  | ind id ih =>
    have hm' := hm.rewire rewirable
    rw [values_eq hm, outputsFrom_eq_ok] at h
    rw [values_eq hm', outputsFrom_eq_ok]
    obtain ⟨n, hn, hcheck, h⟩ := h
    have hmem : n ∈ m.nodes := List.mem_of_getElem? hn
    refine ⟨n.rewire g, rewire_getElem? hn, ?_, ?_⟩
    · rw [(rewirable n hmem).outputs]
      exact hcheck
    rw [Builtin.isInput_rewire, Builtin.compute_rewire]
    refine h.imp_right fun ⟨hinput, args, hargs, hxs⟩ => ⟨hinput, args, ?_, hxs⟩
    -- The new wires lead to nodes before this one, which have their values in the model with the new wires.
    exact (carry n hmem args hargs).mono fun s hs ys hys =>
      ih s.node (hm' id _ (rewire_getElem? hn) s hs).1 hys

theorem under_rewire {a : Nat → Option Signal} (hm : m.WellFormed) (rewirable : ∀ n ∈ m.nodes, n.Rewirable g)
    (carry : ∀ n ∈ m.nodes, ∀ args, Arguments (m.under a) n args → Arguments (m.under a) (n.rewire g) args)
    (h : m.under a id = .ok xs) : (m.rewire g).under a id = .ok xs := by
  unfold under
  simp only [rank_rewire]
  exact values_rewire hm rewirable carry h

end

end Model
end Dataflow
