import Dataflow.Proofs.Refinement.Loop
import Dataflow.Proofs.Refinement.Nodes

/-! # Copying and refining models

Where no sum of sizes wraps around, every copy and every refinement of a well-built model succeeds, with a
well-built model that realises it.
A copy is the model without its empty spans, and so is what a pass makes of a model without linear
predictors. A pass leaves no linear predictor, so the second one refines nothing. -/

namespace Dataflow

open OutputMap (IsIdentity)

def Builtin.isLinear : Builtin → Bool
  | linear .. => true
  | _ => false

def Model.hasLinear (m : Model Builtin) : Bool := m.nodes.any Builtin.isLinear

/-- The number of linear predictors. -/
def Model.predictors (m : Model Builtin) : Nat := m.nodes.countP Builtin.isLinear

theorem Builtin.isLinear_rewire {n : Builtin} {g : Wire → Wire} : (n.rewire g).isLinear = n.isLinear := by
  cases n <;> rfl

theorem Model.hasLinear_rewire {m : Model Builtin} {g : Wire → Wire} : (m.rewire g).hasLinear = m.hasLinear := by
  simp [hasLinear, rewire, List.any_map, Function.comp_def, Builtin.isLinear_rewire]

namespace Transformer
variable {t : Transformer Builtin} {n : Builtin} {source : Model Builtin} {k : Nat}

theorem realises_empty : Realises .empty .empty [] where
  exact _ hp := by cases hp
  provided _ hp := by cases hp
  keys _ hp := by cases hp
  covered o out ho := absurd ho.lt (Nat.not_lt_zero _)
  inputs := rfl
  carries _ _ _ _ _ _ _ hw := by cases hw

theorem knows_start : (start source).Knows source := by
  rintro key size hlookup out ⟨n, hn, hout⟩
  obtain ⟨_, _, hl, -⟩ := List.lookup_eq_some_iff.mp hlookup
  have hmem : (key, size) ∈ (start source).sourceSizes := by simp [hl]
  simp only [start, List.mem_flatMap, List.mem_map, Prod.exists, List.mem_zipIdx_iff_getElem?, Prod.mk.injEq] at hmem
  obtain ⟨n', id, hn', out', index, hout', rfl, rfl⟩ := hmem
  cases hn.symm.trans hn'
  cases hout.symm.trans hout'
  rfl

theorem passing_start : Passing source 0 (start source) where
  proper := Model.proper_empty
  realises := realises_empty
  knows := knows_start

/-! ### Copies -/

/-- What a transformer is like when the first `k` nodes of the source have been copied. -/
structure Copied (source : Model Builtin) (k : Nat) (t : Transformer Builtin) : Prop extends Passing source k t where
  model_eq : t.model = (source.truncate k).trim
  identity : t.outputMap.IsIdentity (source.truncate k)

theorem copied_start : Copied source 0 (start source) where
  toPassing := passing_start
  model_eq := rfl
  identity _ _ ho := absurd ho.lt (Nat.not_lt_zero _)

theorem Copied.copied (h : Copied source k t) (hs : source.Proper) (hn : source.nodes[k]? = some n) :
    Copied source (k + 1) (t.copied n k) where
  toPassing := h.toPassing.copied hs hn
  model_eq := by
    have htrim : n.rewire t.outputMap.image = n.trim := Builtin.rewire_congr fun i hi =>
      h.identity.image (h.reaches hs hn i hi) ((hs.admits hn).feeds hi).has
    rw [Model.truncate_succ hn, Model.trim_push, ← h.model_eq, ← htrim]
    rfl
  identity o out ho := by
    have hk : k ≤ source.size := Nat.le_of_lt (List.getElem?_eq_some_iff.mp hn).1
    have hsize : (source.truncate k).size = k := Model.size_truncate hk
    have htarget : t.model.size = k := by rw [h.model_eq, Model.size_trim, hsize]
    show (t.outputMap ++ _).lookup o = _
    rw [List.lookup_append]
    rw [Model.truncate_succ hn] at ho
    rcases ho.of_push with ho | ⟨hnode, hout⟩
    · rw [h.identity o out ho]
      rfl
    · obtain ⟨node, index⟩ := o
      obtain rfl : node = k := hnode.trans hsize
      rw [OutputMap.lookup_of_lt (h.keys_lt hk), OutputMap.lookup_ofNode hout, htarget]
      rfl

/-! ### Whole models -/

/-- What is kept by every node of a source is there when a pass has gone over all of them. -/
theorem runFrom_nodes (source : Model Builtin) {P : Nat → Transformer Builtin → Prop}
    {f : Builtin → Nat → Transformation Builtin Unit}
    (turn : ∀ k n t, source.nodes[k]? = some n → P k t → ∃ t', runFrom t (f n k) = (.ok (), t') ∧ P (k + 1) t')
    (start : P 0 t) :
    ∃ t', runFrom t (source.nodes.zipIdx.forM fun (n, id) => f n id) = (.ok (), t') ∧ P source.size t' := by
  have hturn : ∀ k p s, source.nodes.zipIdx[k]? = some p → P k s →
      ∃ t', runFrom s (f p.1 p.2) = (.ok (), t') ∧ P (k + 1) t' := by
    rintro k ⟨n, id⟩ s hp hs
    obtain ⟨hn, rfl⟩ := getElem?_zipIdx_inv hp
    exact turn id n s hn hs
  obtain ⟨t', hrun, ht'⟩ := runFrom_forM hturn start
  rw [List.length_zipIdx] at ht'
  exact ⟨t', hrun, ht'⟩

theorem Passing.runFrom_finish (h : Passing source source.size t) :
    runFrom t (finish source) = (.ok t.model, { t with model := .empty }) := by
  have hmapped : t.checkMapped source = .ok () := by
    refine checkMapped_eq_ok.mpr fun o out hout => ?_
    rw [← source.truncate_size] at hout
    obtain ⟨w, hw, hsize, -⟩ := h.realises.covered o out hout
    exact ⟨w, hw, hsize⟩
  unfold finish
  rw [runFrom_bind_ok runFrom_get, runFrom_lift_ok hmapped]
  rfl

theorem runFrom_copyModel {s : Transformer Builtin} (hs : source.Proper) : ∃ t, Copied source source.size t ∧
    runFrom s (copyModel source) = (.ok t.model, { t with model := .empty }) := by
  obtain ⟨t, hrun, ht⟩ := runFrom_nodes source (f := Refinable.copy) (P := Copied source)
    (fun k n t hn h => ⟨_, h.runFrom_copy hs hn, h.copied hs hn⟩) copied_start
  refine ⟨t, ht, ?_⟩
  unfold copyModel
  rw [runFrom_bind_ok runFrom_set, runFrom_bind_ok hrun, ht.runFrom_finish]

/-- What a transformer is like when a refinement pass has gone over the first `k` nodes of the source. -/
structure Refined (source : Model Builtin) (k : Nat) (t : Transformer Builtin) : Prop extends Passing source k t where
  modified : t.modified = (source.truncate k).hasLinear
  lowered : t.model.hasLinear = false
  size : t.model.size = k + 4 * (source.truncate k).predictors
  copied : (source.truncate k).hasLinear = false → Copied source k t

theorem refined_start : Refined source 0 (start source) where
  toPassing := passing_start
  modified := rfl
  lowered := rfl
  size := rfl
  copied _ := copied_start

theorem hasLinear_push {m : Model Builtin} : (m.push n).hasLinear = (m.hasLinear || n.isLinear) := by
  simp [Model.hasLinear, Model.push]

theorem predictors_push {m : Model Builtin} : (m.push n).predictors = m.predictors + [n].countP Builtin.isLinear :=
  List.countP_append

theorem Refined.refined (h : Refined source k t) (hs : source.Proper) (hn : source.nodes[k]? = some n) :
    Refined source (k + 1) (t.refined n k) where
  toPassing := h.toPassing.refined hs hn
  modified := by
    rw [Model.truncate_succ hn, hasLinear_push, ← h.modified]
    cases n <;> simp [Transformer.refined, Transformer.copied, Transformer.lowered, Builtin.isLinear]
  lowered := by
    cases n <;> simp only [Transformer.refined, Transformer.copied, Transformer.lowered, LinearPredictor.lower,
      LinearPredictor.weigh, hasLinear_push, h.lowered] <;> rfl
  size := by
    rw [Model.truncate_succ hn, predictors_push]
    have hsize := h.size
    -- A predictor makes five nodes, and every other node makes one.
    cases n <;> simp only [Transformer.refined, Transformer.copied, Transformer.lowered, LinearPredictor.lower,
      Model.size_push, Model.size_weigh] <;> simp [Builtin.isLinear] <;> omega
  copied hplain := by
    rw [Model.truncate_succ hn, hasLinear_push, Bool.or_eq_false_iff] at hplain
    have hstep := (h.copied hplain.1).copied hs hn
    cases n with
    | linear => cases hplain.2
    | input | constant | dot | binary => exact hstep

theorem runFrom_refineModel {s : Transformer Builtin} (hs : source.Proper) : ∃ t, Refined source source.size t ∧
    runFrom s (refineModel source) = (.ok t.model, { t with model := .empty }) := by
  obtain ⟨t, hrun, ht⟩ := runFrom_nodes source (f := refineNode) (P := Refined source)
    (fun k n t hn h => ⟨_, h.runFrom_refineNode hs hn, h.refined hs hn⟩) refined_start
  refine ⟨t, ht, ?_⟩
  unfold refineModel
  rw [runFrom_bind_ok runFrom_set, runFrom_bind_ok hrun, ht.runFrom_finish]

end Transformer

/-! ### Refinement -/

namespace Refinement
variable {m : Model Builtin} {limit : Nat}

/-- A copy is the model without its empty spans, with every output in its place. -/
theorem exists_copy (hm : m.Proper) :
    ∃ f, copy m = .ok (m.trim, f) ∧ f.IsIdentity m ∧ Realises m m.trim f := by
  obtain ⟨t, ht, hrun⟩ := Transformer.runFrom_copyModel (s := .fresh) hm
  have hmodel := ht.model_eq
  have hidentity := ht.identity
  have hrealises := ht.realises
  rw [Model.truncate_size] at hmodel hidentity hrealises
  refine ⟨t.outputMap, ?_, hidentity, hmodel ▸ hrealises⟩
  have hrun : (Transformer.copyModel m).run.run .fresh = _ := hrun
  rw [copy, hrun, hmodel]

/-- A pass refines something if there is a linear predictor, and leaves none. -/
theorem exists_pass (hm : m.Proper) : ∃ m' f, pass m = .ok (m', f, m.hasLinear) ∧ m'.Proper ∧
    m'.hasLinear = false ∧ Realises m m' f ∧ (m.hasLinear = false → m' = m.trim ∧ f.IsIdentity m) := by
  obtain ⟨t, ht, hrun⟩ := Transformer.runFrom_refineModel (s := .fresh) hm
  have hmodified := ht.modified
  have hrealises := ht.realises
  have hcopied := ht.copied
  rw [Model.truncate_size] at hmodified hrealises hcopied
  refine ⟨t.model, t.outputMap, ?_, ht.proper, ht.lowered, hrealises, fun hplain => ?_⟩
  · have hrun : (Transformer.refineModel m).run.run .fresh = _ := hrun
    rw [pass, hrun, ← hmodified]
  · have hmodel := (hcopied hplain).model_eq
    have hidentity := (hcopied hplain).identity
    rw [Model.truncate_size] at hmodel hidentity
    exact ⟨hmodel, hidentity⟩

theorem run_of_plain {m' : Model Builtin} {f : OutputMap} (hpass : pass m = .ok (m', f, false)) :
    run limit m = .ok ⟨m', 0, true, f⟩ := by
  rw [run, loop_of_plain hpass]
  rfl

/-- A pass that refines something, and one behind it that refines nothing and ends the loop. -/
theorem run_of_refined {m' m'' : Model Builtin} {f g both : OutputMap} (hpass : pass m = .ok (m', f, true))
    (hpass' : pass m' = .ok (m'', g, false)) (hboth : f.andThen g = .ok both) :
    run (limit + 1) m = .ok ⟨m'', 1, true, both⟩ := by
  have hloop : loop (limit + 1) m none 0 = .ok (some (m'', both), 1, true) := by
    rw [loop_of_refined hpass]
    show loop limit m' (some f) 1 = _
    rw [loop_of_plain hpass', compose, hboth]
    rfl
  rw [run, hloop]
  rfl

/-- What refining a model gives. The map has no empty spans where two passes made it. -/
structure Refines (m : Model Builtin) (limit : Nat) (r : Refinement Builtin) : Prop where
  proper : r.model.Proper
  realises : Realises m r.model r.outputMap
  kept : m.hasLinear = false ∨ limit = 0 → r.model = m.trim ∧ r.outputMap.IsIdentity m
  filled : m.hasLinear = true → 0 < limit → ∀ p ∈ r.outputMap, ∀ s ∈ p.2.spans, 0 < s.size

theorem exists_refines (hm : m.Proper) (limit : Nat) : ∃ r, run limit m = .ok r ∧ Refines m limit r := by
  obtain ⟨m', f, hpass, hm', hlowered, hrealises, hkept⟩ := exists_pass hm
  rcases hlinear : m.hasLinear with _ | _ <;> rw [hlinear] at hpass
  · refine ⟨_, run_of_plain hpass, hm', hrealises, fun _ => hkept hlinear, fun h => ?_⟩
    rw [hlinear] at h
    cases h
  · rcases limit with _ | limit
    -- The pass that refined the model finds the limit used up, and a copy takes its place.
    · obtain ⟨f, hcopy, hidentity, hrealises⟩ := exists_copy hm
      refine ⟨⟨m.trim, 0, false, f⟩, ?_, hm.trim, hrealises, fun _ => ⟨rfl, hidentity⟩,
        fun _ hpos => absurd hpos (Nat.lt_irrefl 0)⟩
      rw [run, loop_of_used_up hpass]
      show (copy m >>= _) = _
      rw [hcopy]
      rfl
    -- The first pass leaves no linear predictor, so the second refines nothing and ends the loop.
    · obtain ⟨m'', g, hpass', hm'', -, hrealises', -⟩ := exists_pass hm'
      rw [hlowered] at hpass'
      obtain ⟨hcompose, hboth⟩ := hrealises.andThen hrealises' hm'.wellFormed
      refine ⟨_, run_of_refined hpass hpass' hcompose, hm'', hboth, fun h => ?_, fun _ _ p hp s hs => ?_⟩
      · rcases h with h | h
        · rw [hlinear] at h
          cases h
        · cases h
      · obtain ⟨q, hq, rfl⟩ := List.mem_map.mp hp
        have hreach : ∀ s ∈ q.2.spans, g.Reaches s := fun s hs => hrealises'.reaches (hrealises.provided q hq s hs)
        obtain ⟨u, -, hs⟩ := (OutputMap.mem_image hreach).mp hs
        obtain ⟨_, -, _, -, -, -, -, hpos⟩ := OutputMap.mem_place hs
        exact hpos

end Refinement
end Dataflow
