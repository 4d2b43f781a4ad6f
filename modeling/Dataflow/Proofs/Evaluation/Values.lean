import Dataflow.Proofs.Evaluation.Gather
import Dataflow.Proofs.Model

/-! # The values of a model

What each node of a model puts out, by recursion over the nodes that it reads and without a cache: an
input node puts out the signal bound to it, every other node what it computes from what its inputs
carry. The recursion goes down in the order of the nodes, so a wire that leads forward has no value. A
check of what is put out is a parameter: `plainValues` has none, and `values` has the evaluator's. -/

namespace Dataflow

def Output.Fits (out : Output) (x : Signal) : Prop := x.type = out.type ∧ x.size = out.size

theorem Output.exists_fit {outs : List Output} {xs : List Signal} {index : Nat} {out : Output}
    (h : List.Forall₂ Fits outs xs) (ho : outs[index]? = some out) : ∃ x, xs[index]? = some x ∧ out.Fits x := by
  obtain ⟨hlt, rfl⟩ := List.getElem?_eq_some_iff.mp ho
  have hlt' : index < xs.length := h.length_eq ▸ hlt
  exact ⟨xs[index], List.getElem?_eq_getElem hlt', h.get hlt hlt'⟩

namespace Model
variable {κ : Type} [Node κ]

abbrev OutputCheck := Nat → List Output → List Signal → Result Unit

/-- What the node at `id` puts out, the nodes that it reads putting out what is `given`. -/
def outputsFrom (check : OutputCheck) (m : Model κ) (bound : Nat → Option Signal)
    (given : Nat → Result (List Signal)) (id : Nat) : Result (List Signal) := do
  let n ← m.node id
  let outputs ←
    if Node.isInput n then
      match bound id with
      | some x => pure [x]
      | none => throw (.unboundInput id)
    else do
      Node.compute n (← (Node.inputs n).mapM fun input => Evaluator.gather given input.type input.wire)
  check id (Node.outputs n) outputs
  return outputs

def valuesBy (check : OutputCheck) (m : Model κ) (bound : Nat → Option Signal) (id : Nat) : Result (List Signal) :=
  outputsFrom check m bound
    (fun j => if j < id then valuesBy check m bound j else .error (.cyclicReference id j)) id
termination_by id

/-- What a node puts out, by recursion alone. -/
def plainValues : Model κ → (Nat → Option Signal) → Nat → Result (List Signal) := valuesBy fun _ _ _ => .ok ()

/-- What a node puts out, where every node has to put out what it declares. -/
def values : Model κ → (Nat → Option Signal) → Nat → Result (List Signal) := valuesBy Evaluator.checkOutputs

section
variable {check : OutputCheck} {m m' : Model κ} {bound bound' : Nat → Option Signal}
  {given given' : Nat → Result (List Signal)} {id : Nat} {n : κ} {xs : List Signal}

/-! ### One node -/

theorem gather_congr {type : ElemType} {w : Wire} (h : ∀ s ∈ w.spans, given s.node = given' s.node) :
    Evaluator.gather given type w = Evaluator.gather given' type w := by
  rw [Evaluator.gather_eq, Evaluator.gather_eq]
  generalize Signal.empty type = acc
  generalize w.spans = spans at h
  induction spans generalizing acc with
  | nil => rfl
  | cons s rest ih =>
    have hs : Evaluator.extend given acc s = Evaluator.extend given' acc s := by
      unfold Evaluator.extend
      rw [h s List.mem_cons_self]
    rw [List.foldlM_cons, List.foldlM_cons, hs]
    exact bind_congr fun acc => ih acc fun t ht => h t (List.mem_cons_of_mem _ ht)

theorem span_mem_spans {input : Input} {s : Span} (hi : input ∈ Node.inputs n) (hs : s ∈ input.wire.spans) :
    s ∈ Node.spans n :=
  List.mem_flatMap.mpr ⟨input, hi, hs⟩

/-- A node's outputs depend on the node, on what is bound to it and on the nodes that it reads. -/
theorem outputsFrom_congr (hnode : m.nodes[id]? = m'.nodes[id]?)
    (hbound : ∀ n, m.nodes[id]? = some n → Node.isInput n = true → bound id = bound' id)
    (hgiven : ∀ n, m.nodes[id]? = some n → ∀ s ∈ Node.spans n, given s.node = given' s.node) :
    outputsFrom check m bound given id = outputsFrom check m' bound' given' id := by
  have hn : m.node id = m'.node id := by unfold node; rw [hnode]
  unfold outputsFrom
  rw [← hn]
  rcases h : m.node id with e | n
  · rfl
  have h' := node_eq_ok.mp h
  have hargs : (Node.inputs n).mapM (fun input => Evaluator.gather given input.type input.wire) =
      (Node.inputs n).mapM (fun input => Evaluator.gather given' input.type input.wire) :=
    Result.mapM_congr fun input hi => gather_congr fun s hs => hgiven n h' s (span_mem_spans hi hs)
  by_cases hinput : Node.isInput n
  · simp [hinput, hbound n h' hinput]
  · simp [hinput, hargs]

def Arguments (given : Nat → Result (List Signal)) (n : κ) (args : List Signal) : Prop :=
  List.Forall₂ (fun input x => Evaluator.gather given input.type input.wire = .ok x) (Node.inputs n) args

theorem outputsFrom_eq_ok : outputsFrom check m bound given id = .ok xs ↔
    ∃ n, m.nodes[id]? = some n ∧ check id (Node.outputs n) xs = .ok () ∧
      ((Node.isInput n = true ∧ ∃ x, bound id = some x ∧ xs = [x]) ∨
       (Node.isInput n = false ∧ ∃ args, Arguments given n args ∧ Node.compute n args = .ok xs)) := by
  simp only [outputsFrom, Result.bind_eq_ok, node_eq_ok]
  refine exists_congr fun n => and_congr_right fun _ => ?_
  cases hinput : Node.isInput n
  · simp only [Bool.false_eq_true, if_false, false_and, false_or, true_and, Result.bind_eq_ok, Result.mapM_eq_ok,
      Result.pure_eq]
    constructor
    · rintro ⟨args, hargs, ys, hys, _, hcheck, h⟩
      cases h
      exact ⟨hcheck, args, hargs, hys⟩
    · rintro ⟨hcheck, args, hargs, hxs⟩
      exact ⟨args, hargs, xs, hxs, (), hcheck, rfl⟩
  · rcases bound id with _ | x
    · simp
    · simp only [if_true, Result.pure_eq, Result.ok_bind, Result.guard_eq_ok, Except.ok.injEq, true_and,
        Option.some.injEq, Bool.true_eq_false, false_and, or_false, exists_eq_left']
      constructor
      · rintro ⟨hcheck, rfl⟩
        exact ⟨hcheck, rfl⟩
      · rintro ⟨hcheck, rfl⟩
        exact ⟨hcheck, rfl⟩

theorem Arguments.mono {args : List Signal} (h : Arguments given n args)
    (hg : ∀ s ∈ Node.spans n, ∀ xs, given s.node = .ok xs → given' s.node = .ok xs) : Arguments given' n args := by
  have h' := (List.forall₂_and_left _ _).mpr ⟨fun _ hi => hi, h⟩
  exact h'.imp fun input x ⟨hi, hx⟩ => Evaluator.gather_mono hx fun s hs => hg s (span_mem_spans hi hs)

theorem Arguments.node {args : List Signal} (h : Arguments given n args) {s : Span} (hs : s ∈ Node.spans n) :
    ∃ xs, given s.node = .ok xs := by
  obtain ⟨input, hi, hs⟩ := List.mem_flatMap.mp hs
  obtain ⟨x, -, hx⟩ := forall₂_of_mem h input hi
  obtain ⟨xs, _, hxs, -⟩ := (Evaluator.gather_eq_ok.mp hx).2.reads s hs
  exact ⟨xs, hxs⟩

/-! ### All nodes -/

/-- In a well-formed model the recursion needs no guard. -/
theorem valuesBy_eq (hm : m.WellFormed) :
    valuesBy check m bound id = outputsFrom check m bound (valuesBy check m bound) id := by
  rw [valuesBy]
  refine outputsFrom_congr rfl (fun _ _ _ => rfl) fun n hn s hs => ?_
  rw [if_pos (hm id n hn s hs).1]

theorem values_eq (hm : m.WellFormed) :
    values m bound id = outputsFrom Evaluator.checkOutputs m bound (values m bound) id :=
  valuesBy_eq hm

theorem valuesBy_congr (hnodes : ∀ i ≤ id, m.nodes[i]? = m'.nodes[i]?)
    (hbound : ∀ i ≤ id, ∀ n, m.nodes[i]? = some n → Node.isInput n = true → bound i = bound' i) :
    valuesBy check m bound id = valuesBy check m' bound' id := by
  induction id using Nat.strongRecOn with
  | ind id ih =>
    rw [valuesBy, valuesBy]
    refine outputsFrom_congr (hnodes id (Nat.le_refl id)) (hbound id (Nat.le_refl id)) fun n _ s _ => ?_
    split
    · exact ih _ ‹_› (fun i hi => hnodes i (by omega)) fun i hi => hbound i (by omega)
    · rfl

/-- A value that passes the check is the value by recursion alone. -/
theorem plainValues_of_values (h : values m bound id = .ok xs) : plainValues m bound id = .ok xs := by
  induction id using Nat.strongRecOn generalizing xs with
  | ind id ih =>
    rw [values, valuesBy, outputsFrom_eq_ok] at h
    rw [plainValues, valuesBy, outputsFrom_eq_ok]
    obtain ⟨n, hn, -, h⟩ := h
    -- The same arguments reach the node, for the values that it reads passed the check as well.
    refine ⟨n, hn, rfl, h.imp_right fun ⟨hinput, args, hargs, hxs⟩ => ⟨hinput, args, hargs.mono ?_, hxs⟩⟩
    intro s _ ys hys
    split at hys
    · rw [if_pos ‹_›]
      exact ih _ ‹_› hys
    · cases hys

/-! ### What is declared is put out -/

theorem checkOutputs_eq_ok {outs : List Output} :
    Evaluator.checkOutputs id outs xs = .ok () ↔ List.Forall₂ Output.Fits outs xs := by
  unfold Evaluator.checkOutputs
  rw [List.forall₂_iff_zip]
  by_cases hlen : outs.length = xs.length
  · simp only [hlen, ne_eq, not_true_eq_false, if_false, Result.pure_eq, Result.forM_eq_ok, true_and]
    refine ⟨fun h out x hx => ?_, fun h p hp => ?_⟩
    · have hp := h (out, x) hx
      by_cases ht : out.type = x.type <;> by_cases hs : out.size = x.size <;> simp [ht, hs] at hp
      exact ⟨ht.symm, hs.symm⟩
    · obtain ⟨ht, hs⟩ := h hp
      simp [ht, hs]
  · simp [hlen]

theorem values_fit (hv : values m bound id = .ok xs) (hn : m.nodes[id]? = some n) :
    List.Forall₂ Output.Fits (Node.outputs n) xs := by
  rw [values, valuesBy, outputsFrom_eq_ok] at hv
  obtain ⟨n', hn', hcheck, -⟩ := hv
  cases hn.symm.trans hn'
  exact checkOutputs_eq_ok.mp hcheck

theorem values_declared {o : Outlet} {out : Output} (hv : values m bound o.node = .ok xs) (ho : m.Declares o out) :
    ∃ x, xs[o.index]? = some x ∧ out.Fits x := by
  obtain ⟨n, hn, hout⟩ := ho
  exact Output.exists_fit (values_fit hv hn) hout

theorem declares_of_values {o : Outlet} {x : Signal} (hv : values m bound o.node = .ok xs)
    (hx : xs[o.index]? = some x) :
    ∃ out, m.Declares o out ∧ out.Fits x := by
  obtain ⟨n, hn, -⟩ := outputsFrom_eq_ok.mp (by rwa [values, valuesBy] at hv)
  have hfits := values_fit hv hn
  obtain ⟨hlt, rfl⟩ := List.getElem?_eq_some_iff.mp hx
  have hlt' : o.index < (Node.outputs n).length := hfits.length_eq ▸ hlt
  exact ⟨_, ⟨n, hn, List.getElem?_eq_getElem hlt'⟩, hfits.get hlt' hlt⟩

end

end Model
end Dataflow
