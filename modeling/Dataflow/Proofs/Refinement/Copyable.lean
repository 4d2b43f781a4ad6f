import Dataflow.Proofs.Refinement.Clip
import Dataflow.Proofs.Refinement.Confined
import Dataflow.Proofs.Refinement.Passes
import Dataflow.Proofs.Refinement.Reachable

/-! # Models that can be copied

Copying and refining a model of which some spans wrap around may fail. Where either succeeds, every node can do
without these spans, and copying and refining do to the model what they do to the clipped model, in which no
span wraps around. So what is known of the refinement of such models is known of every refinement that
succeeds. -/

namespace Dataflow

namespace Transformer
variable {t u : Transformer Builtin} {n n' : Builtin} {k : Nat} {w x : Wire} {p : LinearPredictor}
  {m : Model Builtin}

/-! ### A node and the clipped node -/

/-- The wires that stand for the outputs that a node reads reach as far as its spans end. -/
def Feeding (t : Transformer Builtin) (n : Builtin) : Prop :=
  ∀ i ∈ n.inputs, ∀ s ∈ i.wire.spans, ∃ target, t.outputMap.lookup s.outlet = some target ∧ s.stop ≤ target.size

theorem Feeding.bind_remap {β : Type} {i : Input} (h : t.Feeding n) (hi : i ∈ n.inputs)
    {f g : Wire → Transformation Builtin β} (hfg : ∀ w, runFrom t (f w) = runFrom t (g w)) :
    runFrom t (remap i.wire.clip >>= f) = runFrom t (remap i.wire >>= g) := by
  rw [runFrom_bind, runFrom_bind, runFrom_remap, runFrom_remap, OutputMap.remap_clip (h i hi)]
  rcases t.outputMap.remap i.wire with _ | w
  · rfl
  · exact hfg w

theorem Feeding.remapped_clip (h : t.Feeding n) :
    runFrom t (Builtin.remapped n.clip) = runFrom t (Builtin.remapped n) := by
  cases n with
  | input | constant => rfl
  | dot type a b =>
    refine h.bind_remap (i := ⟨"input1", type, a⟩) List.mem_cons_self fun _ => ?_
    exact h.bind_remap (i := ⟨"input2", type, b⟩) (List.mem_cons_of_mem _ List.mem_cons_self) fun _ => rfl
  | binary type op a b =>
    refine h.bind_remap (i := ⟨"input1", type, a⟩) List.mem_cons_self fun _ => ?_
    exact h.bind_remap (i := ⟨"input2", type, b⟩) (List.mem_cons_of_mem _ List.mem_cons_self) fun _ => rfl
  | linear x p => exact h.bind_remap (i := ⟨"input", .real, x⟩) List.mem_cons_self fun _ => rfl

theorem mapOutputs_congr (h : Node.outputs n' = Node.outputs n) (id target : Nat) :
    mapOutputs n' id target = mapOutputs n id target := by
  unfold mapOutputs Node.outputWire
  simp only [h]

theorem Feeding.copy_clip (h : t.Feeding n) (houtputs : Node.outputs n.clip = Node.outputs n) :
    runFrom t (Refinable.copy n.clip k) = runFrom t (Refinable.copy n k) := by
  show runFrom t (Builtin.copy id n.clip k) = runFrom t (Builtin.copy id n k)
  unfold Builtin.copy
  simp only [id_eq, mapOutputs_congr houtputs]
  rw [runFrom_bind, runFrom_bind, h.remapped_clip]

theorem Feeding.refine_clip (h : t.Feeding n) :
    runFrom t (Refinable.refine n.clip k) = runFrom t (Refinable.refine n k) := by
  cases n with
  | input | constant | dot | binary => rfl
  | linear x p => exact h.bind_remap (i := ⟨"input", .real, x⟩) List.mem_cons_self fun _ => rfl

/-- A node that declines is copied into the target that it found. -/
theorem runFrom_refineNode_of_ne (hne : (runFrom t (Refinable.refine n k)).1 ≠ .ok true)
    (hfresh : ∀ p ∈ t.outputMap, p.1.node < k) : runFrom t (refineNode n k) = runFrom t (Refinable.copy n k) := by
  have hcalls : Calls k t (runFrom t (Refinable.refine n k)).2 := Builtin.confined_refine id n k t
  rcases hrun : runFrom t (Refinable.refine n k) with ⟨r, u⟩
  rw [hrun] at hne hcalls
  rw [runFrom_declined hrun hne, hcalls.rollback fun p hp => Nat.ne_of_lt (hfresh p hp)]

theorem Feeding.refineNode_clip (h : t.Feeding n) (houtputs : Node.outputs n.clip = Node.outputs n)
    (hfresh : ∀ p ∈ t.outputMap, p.1.node < k) :
    runFrom t (refineNode n.clip k) = runFrom t (refineNode n k) := by
  rcases hrun : runFrom t (Refinable.refine n k) with ⟨r, u⟩
  have hrun' := h.refine_clip.trans hrun
  by_cases hr : r = .ok true
  · subst hr
    rw [runFrom_refined hrun, runFrom_refined hrun']
  · rw [runFrom_refineNode_of_ne (by rw [hrun']; exact hr) hfresh,
      runFrom_refineNode_of_ne (by rw [hrun]; exact hr) hfresh, h.copy_clip houtputs]

/-! ### What success tells of a node -/

theorem remapped_inv (h : runFrom t (Builtin.remapped n) = (.ok n', u)) : t = u ∧ n' = n.rewire t.outputMap.image := by
  have himage : ∀ {w w' : Wire} {v : Transformer Builtin}, runFrom t (remap w) = (.ok w', v) →
      t = v ∧ w' = t.outputMap.image w := by
    intro w w' v hw
    rw [runFrom_remap, Prod.mk.injEq] at hw
    obtain ⟨hw, rfl⟩ := hw
    exact ⟨rfl, by rw [OutputMap.image, hw]⟩
  cases n with
  | input | constant =>
    cases h
    exact ⟨rfl, rfl⟩
  | dot type a b =>
    obtain ⟨a', _, ha, h⟩ := runFrom_bind_inv h
    obtain ⟨rfl, rfl⟩ := himage ha
    obtain ⟨b', _, hb, h⟩ := runFrom_bind_inv h
    obtain ⟨rfl, rfl⟩ := himage hb
    rw [runFrom_lift, Prod.mk.injEq] at h
    exact ⟨h.2, (Builtin.makeDot_eq_ok.mp h.1).2⟩
  | binary type op a b =>
    obtain ⟨a', _, ha, h⟩ := runFrom_bind_inv h
    obtain ⟨rfl, rfl⟩ := himage ha
    obtain ⟨b', _, hb, h⟩ := runFrom_bind_inv h
    obtain ⟨rfl, rfl⟩ := himage hb
    rw [runFrom_lift, Prod.mk.injEq] at h
    exact ⟨h.2, (Builtin.makeBinary_eq_ok.mp h.1).2⟩
  | linear x p =>
    obtain ⟨x', _, hx, h⟩ := runFrom_bind_inv h
    obtain ⟨rfl, rfl⟩ := himage hx
    rw [runFrom_lift, Prod.mk.injEq] at h
    exact ⟨h.2, (Builtin.makeLinear_eq_ok.mp h.1).2⟩

theorem addOutput_inv (h : runFrom t (Builtin.addOutput id n) = (.ok w, u)) :
    w.size = n.mainOutput.size % Size.limit := by
  obtain ⟨target, v, hadd, hout⟩ := runFrom_bind_inv h
  rcases runFrom_add_cases t n with ⟨e, herror⟩ | ⟨-, hadded⟩
  · cases hadd.symm.trans herror
  cases hadd.symm.trans hadded
  rw [runFrom_output, Prod.mk.injEq] at hout
  obtain ⟨out, ⟨n', hn', hout⟩, rfl⟩ := Model.output_eq_ok (o := ⟨t.model.size, 0⟩).mp hout.1
  cases Model.push_getElem?_size.symm.trans hn'
  have hmain : (Node.outputs n)[0]? = some n.mainOutput := by cases n <;> rfl
  cases hmain.symm.trans hout
  rfl

/-- A predictor is refined only if what stands for its input has as many elements as it has weights. -/
theorem size_of_refine_linear (hdim : p.dimension < Size.limit)
    (h : runFrom t (Refinable.refine (Builtin.linear x p) k) = (.ok true, u)) :
    (t.outputMap.image x).size = p.dimension := by
  replace h : runFrom t (Builtin.refine id (.linear x p) k) = (.ok true, u) := h
  unfold Builtin.refine at h
  obtain ⟨x', v, hx, h⟩ := runFrom_bind_inv h
  rw [runFrom_remap, Prod.mk.injEq] at hx
  obtain ⟨weights, _, hweights, h⟩ := runFrom_bind_inv h
  obtain ⟨dot, hdot, -⟩ := runFrom_lift_inv h
  obtain ⟨⟨-, hsize, -, -⟩, -⟩ := Builtin.makeDot_eq_ok.mp hdot
  have himage : t.outputMap.image x = x' := by rw [OutputMap.image, hx.1]
  rw [himage, ← hsize, addOutput_inv hweights]
  exact Nat.mod_eq_of_lt hdim

end Transformer

namespace Builtin
variable {n : Builtin} {g : Wire → Wire}

theorem Made.of_rewire (h : (n.rewire g).Made) (hsize : ∀ i ∈ n.inputs, (g i.wire).size = i.wire.size)
    (hcarries : ∀ i ∈ n.inputs, i.wire.Carries i.type) : n.Made := by
  have first {i j : Input} : i ∈ [i, j] := List.mem_cons_self
  have second {i j : Input} : j ∈ [i, j] := List.mem_cons_of_mem _ List.mem_cons_self
  cases n with
  | input | constant => trivial
  | dot t a b =>
    obtain ⟨hdot, hab, -, -⟩ := h
    exact ⟨hdot, (hsize _ first).symm.trans (hab.trans (hsize _ second)), hcarries _ first, hcarries _ second⟩
  | binary t op a b =>
    obtain ⟨hop, hab, -, -⟩ := h
    exact ⟨hop, (hsize _ first).symm.trans (hab.trans (hsize _ second)), hcarries _ first, hcarries _ second⟩
  | linear x p => exact ⟨(hsize _ List.mem_cons_self).symm.trans h.1, hcarries _ List.mem_cons_self⟩

end Builtin

namespace Transformer
variable {t u : Transformer Builtin} {n : Builtin} {m : Model Builtin} {k : Nat}

/-- The first output is mapped to as many elements as it has. -/
theorem size_of_mapOutputs {out out' : Output} {target : Nat} (hout : (Node.outputs n)[0]? = some out)
    (hout' : t.model.Declares ⟨target, 0⟩ out') (h : runFrom t (mapOutputs n k target) = (.ok (), u)) :
    out.size % Size.limit = out'.size % Size.limit := by
  obtain ⟨hlt, -⟩ := List.getElem?_eq_some_iff.mp hout
  obtain ⟨rest, hrest⟩ : ∃ rest, (Node.outputs n).length = rest + 1 := ⟨_, (Nat.succ_pred_eq_of_pos hlt).symm⟩
  unfold mapOutputs at h
  rw [hrest, List.range_succ_eq_map, List.forM_eq_forM, List.forM_cons] at h
  obtain ⟨_, v, h, -⟩ := runFrom_bind_inv h
  obtain ⟨old, hold, h⟩ := runFrom_lift_inv h
  obtain ⟨new, v', hnew, h⟩ := runFrom_bind_inv h
  obtain ⟨-, type, -, -, hsize, -⟩ := mapOutput_within h
  rw [Node.outputWire, hout] at hold
  cases hold
  rw [runFrom_output, Prod.mk.injEq] at hnew
  obtain ⟨out₂, hout₂, rfl⟩ := Model.output_eq_ok (o := ⟨target, 0⟩).mp hnew.1
  cases hout'.unique hout₂
  exact hsize.symm

/-- What a transformer is like when the first `k` nodes of a model have been copied or refined with success: they
    can all be copied, and the target realises the clipped model so far. -/
structure Treated (m : Model Builtin) (k : Nat) (t : Transformer Builtin) : Prop where
  copyable : (m.truncate k).Copyable
  proper : t.model.Proper
  realises : Realises (m.truncate k).clip t.model t.outputMap
  knows : t.Knows m

theorem treated_start : Treated m 0 (start m) where
  copyable _ hn := by cases hn
  proper := Model.proper_empty
  realises := realises_empty
  knows := knows_start

namespace Treated

/-- What a node reads ends within an output of the clipped nodes before it. -/
theorem offers (h : Treated m k t) (hm : m.WellBuilt) (hn : m.nodes[k]? = some n) {s : Span} (hs : s ∈ Node.spans n) :
    ∃ out, (m.truncate k).clip.Declares s.outlet out ∧ out.type = s.type ∧ s.stop ≤ out.size := by
  obtain ⟨hlt, ho⟩ := hm.wellFormed k n hn s hs
  obtain ⟨out, hout, htype, hstop⟩ := ho.truncate hlt
  exact ⟨out, (Model.declares_rewire h.copyable.rewirable).mpr hout, htype, hstop⟩

theorem feeding (h : Treated m k t) (hm : m.WellBuilt) (hn : m.nodes[k]? = some n) : t.Feeding n := by
  intro i hi s hs
  obtain ⟨out, hout, -, hstop⟩ := h.offers hm hn (Model.span_mem_spans hi hs)
  obtain ⟨w, hw, hsize, -⟩ := h.realises.covered _ _ hout
  exact ⟨w, hw, hsize ▸ hstop⟩

theorem feeds (h : Treated m k t) (hm : m.WellBuilt) (hn : m.nodes[k]? = some n) :
    ∀ i ∈ n.clip.inputs, (m.truncate k).clip.Feeds i.wire := by
  intro i hi
  have hinv : ∀ u ∈ i.wire.spans, u.Exact ∧ (m.truncate k).clip.Has u := by
    intro u hu
    obtain ⟨s, hs, hsu⟩ := Builtin.mem_spans_clip.mp (Model.span_mem_spans hi hu)
    obtain ⟨hexact, -, -, houtlet, htype, hstop⟩ := Span.clip_inv hsu
    obtain ⟨out, hout, htype', hle⟩ := h.offers hm hn hs
    exact ⟨hexact, out, houtlet ▸ hout, htype'.trans htype.symm, hexact.stop_eq ▸ hstop ▸ hle⟩
  exact ⟨fun u hu => (hinv u hu).1, fun u hu => (hinv u hu).2⟩

theorem size_image (h : Treated m k t) (hm : m.WellBuilt) (hn : m.nodes[k]? = some n) :
    ∀ i ∈ n.clip.inputs, (t.outputMap.image i.wire).size = i.wire.size :=
  fun i hi => OutputMap.size_image (h.realises.reaches_wire (h.feeds hm hn i hi))

/-- A node whose wires could be led to the target passes its checks when it is clipped. -/
theorem made_clip {n' : Builtin} (h : Treated m k t) (hm : m.WellBuilt) (hn : m.nodes[k]? = some n)
    (hrun : runFrom t (Builtin.remapped n) = (.ok n', u)) :
    t = u ∧ n' = n.clip.rewire t.outputMap.image ∧ n.clip.Made := by
  have hclip := (h.feeding hm hn).remapped_clip.trans hrun
  obtain ⟨rfl, rfl⟩ := remapped_inv hclip
  refine ⟨rfl, rfl, (Builtin.made_of_remapped hclip).of_rewire (h.size_image hm hn) fun i hi => ?_⟩
  rw [Builtin.clip, Builtin.inputs_rewire] at hi
  obtain ⟨j, hj, rfl⟩ := List.mem_map.mp hi
  exact ((hm.made n (List.mem_of_getElem? hn)).carries hj).clip

theorem copyable_of_copy (h : Treated m k t) (hm : m.WellBuilt) (hn : m.nodes[k]? = some n)
    (hsizes : ∀ out ∈ Node.outputs n, out.size < Size.limit)
    (hrun : runFrom t (Refinable.copy n k) = (.ok (), u)) : n.Copyable := by
  replace hrun : runFrom t (Builtin.copy id n k) = (.ok (), u) := hrun
  unfold Builtin.copy at hrun
  obtain ⟨n', v, hn', hrun⟩ := runFrom_bind_inv hrun
  obtain ⟨rfl, rfl, hmade⟩ := h.made_clip hm hn hn'
  refine ⟨hmade, ?_, hsizes⟩
  obtain ⟨target, v, hadd, hrun⟩ := runFrom_bind_inv hrun
  -- Only the size of an operation element by element depends on its wires.
  cases n with
  | input | constant | dot | linear => rfl
  | binary type op a b =>
    have himage := h.size_image hm hn ⟨"input1", type, a.clip⟩ List.mem_cons_self
    obtain ⟨e, herror⟩ | ⟨-, hadded⟩ := runFrom_add_cases t ((Builtin.binary type op a b).clip.rewire t.outputMap.image)
    · cases hadd.symm.trans herror
    cases hadd.symm.trans hadded
    have hsize := size_of_mapOutputs rfl (Model.declares_push_size rfl) hrun
    have hkept : a.size = (t.outputMap.image a.clip).size :=
      (Nat.mod_eq_of_lt a.size_lt).symm.trans (hsize.trans (Nat.mod_eq_of_lt (Wire.size_lt _)))
    exact congrArg (fun size => [(⟨"output", type, size⟩ : Output)]) (hkept.trans himage).symm

theorem keys_lt (h : Treated m k t) (hk : k ≤ m.size) : ∀ p ∈ t.outputMap, p.1.node < k := by
  intro p hp
  obtain ⟨out, hout⟩ := h.realises.keys p hp
  have hlt := hout.lt
  rwa [Model.clip, Model.size_rewire, Model.size_truncate hk] at hlt

theorem copyable_of_refineNode (h : Treated m k t) (hm : m.WellBuilt) (hn : m.nodes[k]? = some n)
    (hsizes : ∀ out ∈ Node.outputs n, out.size < Size.limit)
    (hrun : runFrom t (refineNode n k) = (.ok (), u)) : n.Copyable := by
  have hfresh := h.keys_lt (Nat.le_of_lt (List.getElem?_eq_some_iff.mp hn).1)
  by_cases hr : (runFrom t (Refinable.refine n k)).1 = .ok true
  · -- Only a linear predictor is refined.
    cases n with
    | input | constant | dot | binary => cases hr
    | linear x p =>
      have hrefine := (h.feeding hm hn).refine_clip (k := k)
      have hdim : p.dimension < Size.limit := hsizes _ (List.mem_cons_of_mem _ List.mem_cons_self)
      have hsize := size_of_refine_linear (x := x.clip) (p := p) hdim (hrefine.trans (Prod.ext hr rfl))
      have himage := h.size_image hm hn ⟨"input", .real, x.clip⟩ List.mem_cons_self
      have hcarries : x.Carries .real := (hm.made _ (List.mem_of_getElem? hn)).2
      exact ⟨⟨himage.symm.trans hsize, hcarries.clip⟩, rfl, hsizes⟩
  · exact h.copyable_of_copy hm hn hsizes ((runFrom_refineNode_of_ne hr hfresh).symm.trans hrun)

/-- The next node can be copied, and is the last of a clipped model that a pass goes over. -/
theorem passing (h : Treated m k t) (hm : m.WellBuilt) (hn : m.nodes[k]? = some n) (hcopyable : n.Copyable) :
    (m.truncate (k + 1)).Copyable ∧ (m.truncate (k + 1)).clip.Proper ∧
      (m.truncate (k + 1)).clip.nodes[k]? = some n.clip ∧ Passing (m.truncate (k + 1)).clip k t := by
  have hk : k < m.size := (List.getElem?_eq_some_iff.mp hn).1
  have hall : (m.truncate (k + 1)).Copyable := by
    rw [Model.truncate_succ hn]
    intro n' hn'
    rcases List.mem_append.mp hn' with hn' | hn'
    · exact h.copyable n' hn'
    · exact List.mem_singleton.mp hn' ▸ hcopyable
  have hnode : (m.truncate (k + 1)).nodes[k]? = some n := (Model.truncate_getElem? (Nat.lt_succ_self k)).trans hn
  have hfront : (m.truncate (k + 1)).clip.truncate k = (m.truncate k).clip := by
    rw [Model.clip, ← Model.rewire_truncate, Model.truncate_truncate (Nat.le_succ k)]
    rfl
  refine ⟨hall, hall.proper hm.wellFormed.truncate, Model.rewire_getElem? hnode, h.proper, hfront ▸ h.realises, ?_⟩
  intro key size hlookup out hout
  exact h.knows key size hlookup out ((Model.declares_rewire hall.rewirable).mp hout).of_truncate

theorem next {t' : Transformer Builtin} (h : Treated m k t) (hk : k < m.size)
    (hcopyable : (m.truncate (k + 1)).Copyable)
    (hnext : Passing (m.truncate (k + 1)).clip (k + 1) t') (hsizes : t'.sourceSizes = t.sourceSizes) :
    Treated m (k + 1) t' where
  copyable := hcopyable
  proper := hnext.proper
  realises := by
    have hsize : (m.truncate (k + 1)).clip.size = k + 1 := by rw [Model.clip, Model.size_rewire, Model.size_truncate hk]
    have hall : (m.truncate (k + 1)).clip.truncate (m.truncate (k + 1)).clip.size = (m.truncate (k + 1)).clip :=
      Model.truncate_size
    rw [hsize] at hall
    exact hall ▸ hnext.realises
  knows key size hlookup := h.knows key size (hsizes ▸ hlookup)

theorem copied (h : Treated m k t) (hm : m.WellBuilt) (hn : m.nodes[k]? = some n)
    (hsizes : ∀ out ∈ Node.outputs n, out.size < Size.limit)
    (hrun : runFrom t (Refinable.copy n k) = (.ok (), u)) : Treated m (k + 1) u := by
  have hcopyable := h.copyable_of_copy hm hn hsizes hrun
  obtain ⟨hall, hproper, hnode, hpassing⟩ := h.passing hm hn hcopyable
  have hclip := ((h.feeding hm hn).copy_clip hcopyable.outputs).trans hrun
  cases (hpassing.runFrom_copy hproper hnode).symm.trans hclip
  exact h.next (List.getElem?_eq_some_iff.mp hn).1 hall (hpassing.copied hproper hnode) rfl

theorem refined (h : Treated m k t) (hm : m.WellBuilt) (hn : m.nodes[k]? = some n)
    (hsizes : ∀ out ∈ Node.outputs n, out.size < Size.limit)
    (hrun : runFrom t (refineNode n k) = (.ok (), u)) : Treated m (k + 1) u := by
  have hk : k < m.size := (List.getElem?_eq_some_iff.mp hn).1
  have hcopyable := h.copyable_of_refineNode hm hn hsizes hrun
  obtain ⟨hall, hproper, hnode, hpassing⟩ := h.passing hm hn hcopyable
  have hclip := ((h.feeding hm hn).refineNode_clip hcopyable.outputs (h.keys_lt (Nat.le_of_lt hk))).trans hrun
  cases (hpassing.runFrom_refineNode hproper hnode).symm.trans hclip
  refine h.next hk hall (hpassing.refined hproper hnode) ?_
  cases n <;> rfl

end Treated

/-! ### Whole models -/

section
variable {s : Transformer Builtin} {m' : Model Builtin} {f : Builtin → Nat → Transformation Builtin Unit}

/-- Outputs that are all mapped to as many elements as they have are no larger than sizes can tell. -/
theorem sizes_of_finish (h : runFrom t (finish m) = (.ok m', u)) :
    ∀ o out, m.Declares o out → out.size < Size.limit := by
  intro o out hout
  unfold finish at h
  rw [runFrom_bind_ok runFrom_get] at h
  obtain ⟨_, hmapped, -⟩ := runFrom_lift_inv h
  obtain ⟨w, -, hsize⟩ := checkMapped_eq_ok.mp hmapped o out hout
  exact hsize ▸ w.size_lt

theorem copyable_of_nodes
    (turn : ∀ k n t u, m.nodes[k]? = some n → (∀ out ∈ Node.outputs n, out.size < Size.limit) → Treated m k t →
      runFrom t (f n k) = (.ok (), u) → Treated m (k + 1) u)
    (h : runFrom s (do
      set (start m)
      m.nodes.zipIdx.forM fun (n, id) => f n id
      finish m) = (.ok m', u)) : m.Copyable := by
  rw [runFrom_bind_ok runFrom_set] at h
  obtain ⟨_, t, hnodes, hfinish⟩ := runFrom_bind_inv h
  have hsizes := sizes_of_finish hfinish
  have hall : Treated m m.nodes.zipIdx.length t := by
    refine runFrom_forM_inv (P := Treated m) ?_ treated_start hnodes
    rintro k ⟨n, id⟩ t u hp ht hrun
    obtain ⟨hn, rfl⟩ := getElem?_zipIdx_inv hp
    refine turn id n t u hn (fun out hout => ?_) ht hrun
    obtain ⟨index, hindex⟩ := List.getElem?_of_mem hout
    exact hsizes ⟨id, index⟩ out ⟨n, hn, hindex⟩
  have hcopyable := hall.copyable
  rw [List.length_zipIdx] at hcopyable
  exact (Model.truncate_size (m := m)) ▸ hcopyable

theorem copyable_of_copyModel (hm : m.WellBuilt) (h : runFrom s (copyModel m) = (.ok m', u)) : m.Copyable :=
  copyable_of_nodes (f := Refinable.copy) (fun _ _ _ _ hn hsizes ht hrun => ht.copied hm hn hsizes hrun) h

theorem copyable_of_refineModel (hm : m.WellBuilt) (h : runFrom s (refineModel m) = (.ok m', u)) : m.Copyable :=
  copyable_of_nodes (f := refineNode) (fun _ _ _ _ hn hsizes ht hrun => ht.refined hm hn hsizes hrun) h

theorem nodes_clip : m.clip.nodes.zipIdx = m.nodes.zipIdx.map fun p => (p.1.clip, p.2) := List.zipIdx_map

theorem start_clip (h : m.Copyable) : start m.clip = start m := by
  let sizes (p : Builtin × Nat) : List (Outlet × Nat) :=
    (Node.outputs p.1).zipIdx.map fun q => (⟨p.2, q.2⟩, q.1.size)
  have hsizes : m.clip.nodes.zipIdx.flatMap sizes = m.nodes.zipIdx.flatMap sizes := by
    rw [nodes_clip, List.flatMap_map]
    refine List.flatMap_congr fun p hp => ?_
    have houtputs := (h p.1 (List.mem_of_getElem? (List.mem_zipIdx_iff_getElem?.mp hp))).outputs
    simp only [sizes, houtputs]
  exact congrArg (fun sizes => ({ fresh with sourceSizes := sizes } : Transformer Builtin)) hsizes

theorem checkMapped_clip (h : m.Copyable) : t.checkMapped m.clip = t.checkMapped m := by
  unfold checkMapped
  rw [nodes_clip, List.forM_eq_forM, List.forM_map]
  refine Result.forM_congr fun p hp => ?_
  have htype : Describe.typeName p.1.clip = Describe.typeName p.1 := by cases p.1 <;> rfl
  simp only [(h p.1 (List.mem_of_getElem? (List.mem_zipIdx_iff_getElem?.mp hp))).outputs, htype]

/-- In a pass over the clipped model, a transformer is as it is after the same nodes of the model itself. -/
theorem Passing.treated (h : Passing m.clip k t) (hcopyable : m.Copyable) : Treated m k t where
  copyable n hn := hcopyable n (List.mem_of_mem_take hn)
  proper := h.proper
  realises := by
    have hfront : m.clip.truncate k = (m.truncate k).clip := Model.rewire_truncate.symm
    exact hfront ▸ h.realises
  knows key size hlookup out hout := h.knows key size hlookup out ((Model.declares_rewire hcopyable.rewirable).mpr hout)

theorem runFrom_clip (hcopyable : m.Copyable)
    (same : ∀ k n t, m.nodes[k]? = some n → Passing m.clip k t → runFrom t (f n.clip k) = runFrom t (f n k))
    (turn : ∀ k n t, m.nodes[k]? = some n → Passing m.clip k t →
      ∃ u, runFrom t (f n.clip k) = (.ok (), u) ∧ Passing m.clip (k + 1) u) :
    runFrom s (do
      set (start m.clip)
      m.clip.nodes.zipIdx.forM fun (n, id) => f n id
      finish m.clip) = runFrom s (do
      set (start m)
      m.nodes.zipIdx.forM fun (n, id) => f n id
      finish m) := by
  have hnodes : runFrom (start m) (m.clip.nodes.zipIdx.forM fun (n, id) => f n id) =
      runFrom (start m) (m.nodes.zipIdx.forM fun (n, id) => f n id) := by
    rw [nodes_clip, List.forM_eq_forM, List.forM_map, ← List.forM_eq_forM]
    refine runFrom_forM_congr (P := Passing m.clip) ?_ ?_ (start_clip hcopyable ▸ passing_start)
    · rintro k ⟨n, id⟩ t hp ht
      obtain ⟨hn, rfl⟩ := getElem?_zipIdx_inv hp
      exact same id n t hn ht
    · rintro k ⟨n, id⟩ t u hp ht hrun
      obtain ⟨hn, rfl⟩ := getElem?_zipIdx_inv hp
      obtain ⟨v, hv, hpassing⟩ := turn id n t hn ht
      cases hv.symm.trans hrun
      exact hpassing
  rw [runFrom_bind_ok runFrom_set, runFrom_bind_ok runFrom_set, start_clip hcopyable, runFrom_bind, runFrom_bind,
    hnodes]
  unfold finish
  simp only [runFrom_bind, runFrom_get, runFrom_lift, checkMapped_clip hcopyable]

theorem copyModel_clip (hm : m.WellBuilt) (hcopyable : m.Copyable) :
    runFrom s (copyModel m.clip) = runFrom s (copyModel m) := by
  have hproper := hcopyable.proper hm.wellFormed
  refine runFrom_clip (f := Refinable.copy) hcopyable (fun k n t hn ht => ?_) fun k n t hn ht => ?_
  · exact ((ht.treated hcopyable).feeding hm hn).copy_clip (hcopyable n (List.mem_of_getElem? hn)).outputs
  · have hclip : m.clip.nodes[k]? = some n.clip := Model.rewire_getElem? hn
    exact ⟨_, ht.runFrom_copy hproper hclip, ht.copied hproper hclip⟩

theorem refineModel_clip (hm : m.WellBuilt) (hcopyable : m.Copyable) :
    runFrom s (refineModel m.clip) = runFrom s (refineModel m) := by
  have hproper := hcopyable.proper hm.wellFormed
  refine runFrom_clip (f := refineNode) hcopyable (fun k n t hn ht => ?_) fun k n t hn ht => ?_
  · have hfresh := (ht.treated hcopyable).keys_lt (Nat.le_of_lt (List.getElem?_eq_some_iff.mp hn).1)
    have houtputs := (hcopyable n (List.mem_of_getElem? hn)).outputs
    exact ((ht.treated hcopyable).feeding hm hn).refineNode_clip houtputs hfresh
  · have hclip : m.clip.nodes[k]? = some n.clip := Model.rewire_getElem? hn
    exact ⟨_, ht.runFrom_refineNode hproper hclip, ht.refined hproper hclip⟩

end

end Transformer

/-! ### Refinement -/

namespace Refinement
variable {m m' : Model Builtin} {f : OutputMap} {modified : Bool} {limit : Nat} {r : Refinement Builtin}

theorem copyable_of_copy (hm : m.WellBuilt) (h : copy m = .ok (m', f)) : m.Copyable := by
  unfold copy at h
  split at h
  case h_1 hrun =>
    cases h
    exact Transformer.copyable_of_copyModel hm hrun
  case h_2 => cases h

theorem copyable_of_pass (hm : m.WellBuilt) (h : pass m = .ok (m', f, modified)) : m.Copyable := by
  unfold pass at h
  split at h
  case h_1 hrun =>
    cases h
    exact Transformer.copyable_of_refineModel hm hrun
  case h_2 => cases h

theorem copy_clip (hm : m.WellBuilt) (h : m.Copyable) : copy m.clip = copy m := by
  have hrun : (Transformer.copyModel m.clip).run.run .fresh = (Transformer.copyModel m).run.run .fresh :=
    Transformer.copyModel_clip hm h
  rw [copy, copy, hrun]

theorem pass_clip (hm : m.WellBuilt) (h : m.Copyable) : pass m.clip = pass m := by
  have hrun : (Transformer.refineModel m.clip).run.run .fresh = (Transformer.refineModel m).run.run .fresh :=
    Transformer.refineModel_clip hm h
  rw [pass, pass, hrun]

/-- Refining a model that can be copied is refining the clipped model. -/
theorem run_clip (hm : m.WellBuilt) (h : m.Copyable) : run limit m.clip = run limit m := by
  have hloop : loop limit m.clip none 0 = loop limit m none 0 := by
    rw [loop.eq_def, loop.eq_def limit m]
    dsimp only
    rw [pass_clip hm h]
    cases limit <;> rfl
  rw [run, run, hloop, copy_clip hm h]

/-- A model that was copied can be copied, and its copy is the clipped model. -/
theorem clip_of_copy (hm : m.WellBuilt) (h : copy m = .ok (m', f)) :
    m.Copyable ∧ m' = m.clip ∧ copy m.clip = .ok (m', f) := by
  have hcopyable := copyable_of_copy hm h
  have hclip := (copy_clip hm hcopyable).trans h
  obtain ⟨g, hcopy, -⟩ := exists_copy (hcopyable.proper hm.wellFormed)
  cases hclip.symm.trans hcopy
  exact ⟨hcopyable, Model.trim_clip, hclip⟩

/-- A model that was refined can be copied, and the clipped model was refined like it. -/
theorem refines_of_run (hm : m.WellBuilt) (h : run limit m = .ok r) : m.Copyable ∧ Refines m.clip limit r := by
  have hcopyable : m.Copyable := by
    obtain ⟨⟨found, passes, converged⟩, hloop, -⟩ := Result.bind_eq_ok.mp h
    obtain ⟨m', f, ⟨hpass, -⟩ | ⟨hpass, -⟩ | ⟨hpass, -⟩⟩ := loop_inv hloop <;> exact copyable_of_pass hm hpass
  obtain ⟨r', hrun, hr'⟩ := exists_refines (hcopyable.proper hm.wellFormed) limit
  cases ((run_clip hm hcopyable).trans h).symm.trans hrun
  exact ⟨hcopyable, hr'⟩

theorem exists_run_iff (hm : m.WellBuilt) : (∃ r, run limit m = .ok r) ↔ m.Copyable := by
  constructor
  · rintro ⟨r, hrun⟩
    exact (refines_of_run hm hrun).1
  · intro h
    obtain ⟨r, hrun, -⟩ := exists_refines (h.proper hm.wellFormed) limit
    exact ⟨r, run_clip hm h ▸ hrun⟩

end Refinement
end Dataflow
