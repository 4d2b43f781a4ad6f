import Dataflow.Proofs.Evaluation.History
import Dataflow.Proofs.Refinement.Passes

/-! # The same inputs

Where the input nodes of two models are the same nodes in the same order, they are paired by position.
Paired nodes accept the same signals, and when one value is distributed over the inputs of both models,
paired nodes are bound to the same part of it. What the nodes put out depends on this assignment of
signals to positions. -/

namespace Dataflow

namespace Model
variable {κ : Type} [Node κ] {m m' : Model κ} {n : κ} {id id' : Nat} {x : Signal}

/-! ### Positions -/

/-- The position of an input node among them is the number of input nodes before it. -/
theorem inputNodes_rank (hn : m.nodes[id]? = some n) (hinput : Node.isInput n = true) :
    m.inputNodes[m.rank id]? = some id := by
  have hlist : ∀ (l : List κ) (k id : Nat), l[id]? = some n →
      (((l.zipIdx k).filter fun p => Node.isInput p.1).map (·.2))[(l.take id).countP Node.isInput]? =
        some (k + id) := by
    intro l
    induction l with
    | nil => intro k id h; cases h
    | cons first rest ih =>
      intro k id h
      rcases id with _ | id
      · cases h
        simp [hinput]
      · have hrest := ih (k + 1) id h
        rw [show k + 1 + id = k + (id + 1) by omega] at hrest
        -- The first node takes a place among the input nodes if it is one.
        rw [List.zipIdx_cons, List.take_succ_cons, ← hrest]
        cases hfirst : Node.isInput first <;> simp [hfirst]
  have h := hlist m.nodes 0 id hn
  rw [Nat.zero_add] at h
  exact h

/-! ### Pairs -/

/-- Input nodes of two models in the same position, which are the same node. -/
def Paired (m m' : Model κ) (id id' : Nat) : Prop :=
  ∃ (i : Nat) (n : κ), m.inputNodes[i]? = some id ∧ m'.inputNodes[i]? = some id' ∧
    m.nodes[id]? = some n ∧ m'.nodes[id']? = some n

theorem forall₂_paired (h : m'.nodes.filter Node.isInput = m.nodes.filter Node.isInput) :
    List.Forall₂ (Paired m m') m.inputNodes m'.inputNodes := by
  have hm := forall₂_inputNodes (m := m)
  have hm' := forall₂_inputNodes (m := m')
  rw [h] at hm'
  obtain ⟨hlen, hnode⟩ := List.forall₂_iff_get.mp hm
  obtain ⟨hlen', hnode'⟩ := List.forall₂_iff_get.mp hm'
  refine List.forall₂_iff_get.mpr ⟨hlen.trans hlen'.symm, fun i hi hi' => ?_⟩
  refine ⟨i, _, List.getElem?_eq_getElem hi, List.getElem?_eq_getElem hi', hnode i hi (hlen ▸ hi), ?_⟩
  exact hnode' i hi' (hlen ▸ hi)

theorem Paired.accepts (h : Paired m m' id id') : m.Accepts id x ↔ m'.Accepts id' x := by
  obtain ⟨_, n, -, -, hn, hn'⟩ := h
  simp only [Accepts, hn, hn']

theorem Paired.output {w : Wire} (h : Paired m m' id id') (hw : m.output id 0 = .ok w) :
    ∃ w', m'.output id' 0 = .ok w' ∧ w'.size = w.size := by
  obtain ⟨_, n, -, -, hn, hn'⟩ := h
  obtain ⟨out, ⟨n', hdeclared, hout⟩, rfl⟩ := output_eq_ok (o := ⟨id, 0⟩).mp hw
  cases hn.symm.trans hdeclared
  exact ⟨_, output_eq_ok (o := ⟨id', 0⟩).mpr ⟨out, ⟨n, hn', hout⟩, rfl⟩, rfl⟩

end Model

/-! ### Assignments -/

namespace Evaluator
variable {κ : Type} [Node κ] {e e' f : Evaluator κ} {id : Nat} {x : Signal}

/-- The signal that each input node holds, by its position. -/
def assignment (e : Evaluator κ) (i : Nat) : Option Signal := (e.model.inputNodes[i]?).bind e.bound

theorem values_eq_under : e.model.values e.bound id = e.model.under e.assignment id := by
  refine Model.valuesBy_congr (fun _ _ => rfl) fun i _ n hn hinput => ?_
  rw [assignment, Model.inputNodes_rank hn hinput, Option.bind_some]

/-- An answered output comes from the values under the assignment. -/
theorem Serves.under_of_demandOutput {m : Model κ} {o : Outlet} (h : e.Serves m)
    (hx : m.demandOutput e.bound o = .ok x) : ∃ xs, m.under e.assignment o.node = .ok xs ∧ xs[o.index]? = some x := by
  obtain ⟨xs, hxs, hx⟩ := Model.demandOutput_eq_ok.mp hx
  have hvalues := values_of_demand hxs
  rw [← h.model, values_eq_under, h.model] at hvalues
  exact ⟨xs, hvalues, hx⟩

theorem assignment_start (m : Model κ) : m.evaluator.assignment = fun _ => none := by
  funext i
  unfold assignment
  cases m.evaluator.model.inputNodes[i]? <;> rfl

theorem assignment_hold {i : Nat} (h : e.model.inputNodes[i]? = some id) :
    (e.hold id x).assignment = Function.update e.assignment i (some x) := by
  funext j
  by_cases hj : j = i
  · subst hj
    rw [Function.update_self, assignment]
    show (e.model.inputNodes[j]?).bind _ = _
    rw [h]
    simp [bound, hold]
  · rw [Function.update_of_ne hj, assignment, assignment]
    show (e.model.inputNodes[j]?).bind _ = _
    refine Option.bind_congr fun k hk => ?_
    -- No node stands at two places.
    have hne : k ≠ id := by
      rintro rfl
      obtain ⟨hlt, hget⟩ := List.getElem?_eq_some_iff.mp hk
      obtain ⟨hlt', hget'⟩ := List.getElem?_eq_some_iff.mp h
      exact hj ((List.Nodup.getElem_inj_iff Model.nodup_inputNodes).mp (hget.trans hget'.symm))
    simp [bound, hold, List.lookup_cons, beq_false_of_ne hne]

/-- The input nodes of the second evaluator hold the signals of those of the first, in order. -/
def Parallel (e e' : Evaluator κ) : Prop :=
  List.Forall₂ (fun id id' => e'.bound id' = e.bound id) e.model.inputNodes e'.model.inputNodes

theorem parallel_iff : Parallel e e' ↔
    e.model.inputNodes.length = e'.model.inputNodes.length ∧ e'.assignment = e.assignment := by
  rw [Parallel, List.forall₂_iff_get]
  refine and_congr_right fun hlen => ⟨fun h => funext fun i => ?_, fun h i hi hi' => ?_⟩
  · unfold assignment
    by_cases hi : i < e.model.inputNodes.length
    · rw [List.getElem?_eq_getElem hi, List.getElem?_eq_getElem (hlen ▸ hi)]
      exact h i hi (hlen ▸ hi)
    · rw [List.getElem?_eq_none (Nat.le_of_not_lt hi), List.getElem?_eq_none (hlen ▸ Nat.le_of_not_lt hi)]
      rfl
  · have hassigned := congrFun h i
    unfold assignment at hassigned
    rwa [List.getElem?_eq_getElem hi, List.getElem?_eq_getElem hi'] at hassigned

theorem Parallel.hold {i id' : Nat} (h : Parallel e e') (hi : e.model.inputNodes[i]? = some id)
    (hi' : e'.model.inputNodes[i]? = some id') : Parallel (e.hold id x) (e'.hold id' x) := by
  obtain ⟨hlen, ha⟩ := parallel_iff.mp h
  exact parallel_iff.mpr ⟨hlen, by rw [assignment_hold hi', assignment_hold hi, ha]⟩

/-- Where binding parts of a signal succeeds, so does binding them to paired nodes, and gives the same
    assignment. -/
theorem exists_bindParts {m m' : Model κ} {parts parts' : List (Nat × Nat)} {start : Nat}
    (hparts : List.Forall₂ (fun p p' => m.Paired m' p.1 p'.1 ∧ p'.2 = p.2) parts parts') (hm : e.model = m)
    (hm' : e'.model = m') (ha : e'.assignment = e.assignment)
    (hrun : runFrom e (bindParts x start parts) = (.ok (), f)) :
    ∃ f', runFrom e' (bindParts x start parts') = (.ok (), f') ∧ f'.assignment = f.assignment := by
  induction hparts generalizing e e' start with
  | nil =>
    cases hrun
    exact ⟨e', rfl, ha⟩
  | @cons p p' rest rest' hpair _ ih =>
    obtain ⟨hpaired, hsize⟩ := hpair
    rw [bindParts] at hrun
    obtain ⟨part, hpart, hrun⟩ := runFrom_lift_inv hrun
    rcases runFrom_bind_input e p.1 part with ⟨haccepts, hbind⟩ | ⟨-, err, hbind⟩
    · rw [runFrom_bind_ok hbind] at hrun
      -- What one node of a pair accepts the other accepts, so both bindings succeed.
      have haccepts' : e'.model.Accepts p'.1 part := by
        subst hm hm'
        exact hpaired.accepts.mp haccepts
      obtain ⟨i, -, hi, hi', -⟩ := hpaired
      have hhold : (e'.hold p'.1 part).assignment = (e.hold p.1 part).assignment := by
        rw [assignment_hold (hm'.symm ▸ hi'), assignment_hold (hm.symm ▸ hi), ha]
      have hkept : (e.hold p.1 part).model = m := hm
      have hkept' : (e'.hold p'.1 part).model = m' := hm'
      obtain ⟨f', hrest, hf'⟩ := ih hkept hkept' hhold hrun
      refine ⟨f', ?_, hf'⟩
      rcases runFrom_bind_input e' p'.1 part with ⟨-, hbind'⟩ | ⟨hno, -⟩
      · rw [bindParts, hsize, runFrom_lift_ok hpart, runFrom_bind_ok hbind']
        exact hrest
      · exact absurd haccepts' hno
    · rw [runFrom_bind_error hbind] at hrun
      cases hrun

theorem exists_bindAll (hinputs : e'.model.nodes.filter Node.isInput = e.model.nodes.filter Node.isInput)
    (ha : e'.assignment = e.assignment) (hrun : runFrom e (bindAll x) = (.ok (), f)) :
    ∃ f', runFrom e' (bindAll x) = (.ok (), f') ∧ f'.assignment = f.assignment := by
  unfold bindAll at hrun ⊢
  rw [runFrom_bind_ok runFrom_get] at hrun ⊢
  obtain ⟨parts, hparts, hrun⟩ := runFrom_lift_inv hrun
  obtain ⟨parts', hparts', hpairs⟩ := Result.exists_mapM
    (S := fun p p' => e.model.Paired e'.model p.1 p'.1 ∧ p'.2 = p.2)
    (g := fun id => do return (id, (← e'.model.output id 0).size)) (Model.forall₂_paired hinputs)
    (fun id id' p hpaired hp => by
      obtain ⟨w, hw, hp⟩ := Result.bind_eq_ok.mp hp
      cases hp
      obtain ⟨w', hw', hsize⟩ := hpaired.output hw
      exact ⟨(id', w'.size), by rw [hw']; rfl, hpaired, hsize⟩) hparts
  have hsizes : parts'.map (·.2) = parts.map (·.2) := by
    clear hparts hparts' hrun
    induction hpairs with
    | nil => rfl
    | cons h _ ih => rw [List.map_cons, List.map_cons, h.2, ih]
  rw [runFrom_lift_ok hparts', hsizes]
  by_cases htotal : Size.sum (parts.map (·.2)) = x.size
  · simp only [htotal, ne_eq, not_true_eq_false, if_false] at hrun ⊢
    exact exists_bindParts hpairs rfl rfl ha hrun
  · simp only [htotal, ne_eq, not_false_eq_true, if_true] at hrun
    cases hrun

end Evaluator
end Dataflow
