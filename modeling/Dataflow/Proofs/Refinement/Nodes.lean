import Dataflow.Proofs.Refinement.Actions

/-! # Nodes in a pass

A pass goes over the nodes of a well-built model, in which no sum of sizes wraps around. After each node the
target is such a model as well and realises the nodes so far; copying the next node and refining it, if it is
a linear predictor, succeed and keep this. -/

namespace Dataflow

/-! ### The part of a model before a node -/

namespace Model
variable {m : Model Builtin} {n : Builtin} {k : Nat}

theorem Proper.admits (h : m.Proper) (hn : m.nodes[k]? = some n) : (m.truncate k).Admits n where
  made := h.made n (List.mem_of_getElem? hn)
  exact := h.exact.node hn
  check := check_eq_ok.mpr fun s hs => by
    obtain ⟨hlt, ho⟩ := h.wellFormed k n hn s hs
    exact ⟨(ho.truncate hlt).lt, ho.truncate hlt⟩

end Model

/-! ### Copying a node -/

namespace Transformer
variable {t : Transformer Builtin} {n : Builtin} {p : LinearPredictor} {x : Wire} {source : Model Builtin} {k : Nat}

def copied (t : Transformer Builtin) (n : Builtin) (id : Nat) : Transformer Builtin :=
  { t with
    model := t.model.push (n.rewire t.outputMap.image)
    outputMap := t.outputMap ++ .ofNode n id (⟨t.model.size, ·⟩) }

def lowered (t : Transformer Builtin) (x : Wire) (p : LinearPredictor) (id : Nat) : Transformer Builtin :=
  { t with
    model := p.lower (t.outputMap.image x) t.model
    outputMap := t.outputMap ++ .ofNode (Builtin.linear x p) id (LinearPredictor.results t.model.size)
    modified := true }

/-- What a transformer is like when the first `k` nodes of the source have been copied or refined. -/
structure Passing (source : Model Builtin) (k : Nat) (t : Transformer Builtin) : Prop where
  proper : t.model.Proper
  realises : Realises (source.truncate k) t.model t.outputMap
  knows : t.Knows source

theorem runFrom_remapped (hmade : (n.rewire t.outputMap.image).Made)
    (hreach : ∀ i ∈ n.inputs, ∀ s ∈ i.wire.spans, t.outputMap.Reaches s) :
    runFrom t (Builtin.remapped n) = (.ok (n.rewire t.outputMap.image), t) := by
  have hremap : ∀ i ∈ n.inputs, runFrom t (remap i.wire) = (.ok (t.outputMap.image i.wire), t) := fun i hi => by
    rw [runFrom_remap, OutputMap.remap_eq (hreach i hi)]
  cases n with
  | input | constant => rfl
  | dot type a b =>
    have ha := hremap ⟨"input1", type, a⟩ List.mem_cons_self
    have hb := hremap ⟨"input2", type, b⟩ (List.mem_cons_of_mem _ List.mem_cons_self)
    rw [Builtin.remapped, runFrom_bind_ok ha, runFrom_bind_ok hb, runFrom_lift, Builtin.makeDot_eq_ok.mpr ⟨hmade, rfl⟩]
    rfl
  | binary type op a b =>
    have ha := hremap ⟨"input1", type, a⟩ List.mem_cons_self
    have hb := hremap ⟨"input2", type, b⟩ (List.mem_cons_of_mem _ List.mem_cons_self)
    rw [Builtin.remapped, runFrom_bind_ok ha, runFrom_bind_ok hb, runFrom_lift,
      Builtin.makeBinary_eq_ok.mpr ⟨hmade, rfl⟩]
    rfl
  | linear x p =>
    have hx := hremap ⟨"input", .real, x⟩ List.mem_cons_self
    rw [Builtin.remapped, runFrom_bind_ok hx, runFrom_lift, Builtin.makeLinear_eq_ok.mpr ⟨hmade, rfl⟩]
    rfl

namespace Passing

theorem reaches (h : Passing source k t) (hs : source.Proper) (hn : source.nodes[k]? = some n) :
    ∀ i ∈ n.inputs, ∀ s ∈ i.wire.spans, t.outputMap.Reaches s :=
  fun _ hi => h.realises.reaches_wire ((hs.admits hn).feeds hi)

theorem keys_lt (h : Passing source k t) (hk : k ≤ source.size) : ∀ p ∈ t.outputMap, p.1.node < k := by
  intro p hp
  obtain ⟨out, hout⟩ := h.realises.keys p hp
  rw [← Model.size_truncate hk]
  exact hout.lt

theorem runFrom_copy (h : Passing source k t) (hs : source.Proper) (hn : source.nodes[k]? = some n) :
    runFrom t (Refinable.copy n k) = (.ok (), t.copied n k) := by
  have hadmits := h.realises.admits_image (hs.admits hn)
  have houtputs := h.realises.outputs_image (hs.admits hn)
  have hk : k < source.size := (List.getElem?_eq_some_iff.mp hn).1
  show runFrom t (Builtin.copy id n k) = _
  unfold Builtin.copy
  simp only [id_eq]
  rw [runFrom_bind_ok (runFrom_remapped hadmits.made (h.reaches hs hn)), runFrom_bind_ok (runFrom_add hadmits.check)]
  exact runFrom_mapOutputs (t := { t with model := t.model.push (n.rewire t.outputMap.image) })
    (hadmits.proper h.proper).exact (fun i out hout size hsize => h.knows _ size hsize out ⟨n, hn, hout⟩)
    Model.push_getElem?_size houtputs (h.keys_lt (Nat.le_of_lt hk))

theorem copied (h : Passing source k t) (hs : source.Proper) (hn : source.nodes[k]? = some n) :
    Passing source (k + 1) (t.copied n k) where
  proper := (h.realises.admits_image (hs.admits hn)).proper h.proper
  realises := by
    have hk : k < source.size := (List.getElem?_eq_some_iff.mp hn).1
    have hstep := h.realises.copy hs.truncate h.proper (hs.admits hn)
    rw [Model.size_truncate (Nat.le_of_lt hk), ← Model.truncate_succ hn] at hstep
    exact hstep
  knows := h.knows

end Passing

/-! ### Refining a linear predictor -/

theorem runFrom_addOutput {base size : Nat} (h : t.model.Admits n) (hbase : t.model.size = base)
    (hout : n.mainOutput = ⟨"output", .real, size⟩) :
    runFrom t (Builtin.addOutput id n) = (.ok (column base size), { t with model := t.model.push n }) := by
  subst hbase
  have hfirst : (Node.outputs n)[0]? = some ⟨"output", .real, size⟩ := by
    rw [← hout]
    cases n <;> rfl
  have houtput : (t.model.push n).output t.model.size 0 = .ok (column t.model.size size) :=
    Model.output_eq_ok.mpr ⟨_, Model.declares_push_size hfirst, rfl⟩
  unfold Builtin.addOutput
  simp only [id_eq]
  rw [runFrom_bind_ok (runFrom_add h.check), runFrom_output, houtput]

theorem runFrom_refine_of_steps {t₁ t₂ t₃ t₄ t₅ t₆ t₇ : Transformer Builtin} {n₂ n₃ n₅ : Builtin}
    {x' weights product weighted bias sum : Wire} (hx : t.outputMap.remap x = .ok x')
    (run₁ : runFrom t (Builtin.addOutput id p.weightsPart) = (.ok weights, t₁))
    (make₂ : Builtin.makeDot .real weights x' = .ok n₂)
    (run₂ : runFrom t₁ (Builtin.addOutput id n₂) = (.ok product, t₂))
    (make₃ : Builtin.makeBinary .real .multiply weights x' = .ok n₃)
    (run₃ : runFrom t₂ (Builtin.addOutput id n₃) = (.ok weighted, t₃))
    (run₄ : runFrom t₃ (Builtin.addOutput id p.biasPart) = (.ok bias, t₄))
    (make₅ : Builtin.makeBinary .real .add product bias = .ok n₅)
    (run₅ : runFrom t₄ (Builtin.addOutput id n₅) = (.ok sum, t₅))
    (map₁ : runFrom t₅ (mapOutput (.ofSpan (.whole ⟨k, 0⟩ .real 1)) sum) = (.ok (), t₆))
    (map₂ : runFrom t₆ (mapOutput (.ofSpan (.whole ⟨k, 1⟩ .real p.dimension)) weighted) = (.ok (), t₇)) :
    runFrom t (Refinable.refine (Builtin.linear x p) k) = (.ok true, t₇) := by
  have hfirst : Node.outputWire (id (Builtin.linear x p)) k 0 = .ok (.ofSpan (.whole ⟨k, 0⟩ .real 1)) := rfl
  have hsecond : Node.outputWire (id (Builtin.linear x p)) k 1 = .ok (.ofSpan (.whole ⟨k, 1⟩ .real p.dimension)) := rfl
  have hremap : runFrom t (remap x) = (.ok x', t) := by rw [runFrom_remap, hx]
  show runFrom t (Builtin.refine id (.linear x p) k) = _
  unfold Builtin.refine
  rw [runFrom_bind_ok hremap]
  refine (runFrom_bind_ok run₁).trans ?_
  rw [runFrom_lift_ok make₂, runFrom_bind_ok run₂, runFrom_lift_ok make₃, runFrom_bind_ok run₃]
  refine (runFrom_bind_ok run₄).trans ?_
  rw [runFrom_lift_ok make₅, runFrom_bind_ok run₅, runFrom_lift_ok hfirst, runFrom_bind_ok map₁,
    runFrom_lift_ok hsecond, runFrom_bind_ok map₂]
  rfl

/-- Adding the parts of a predictor and mapping its outputs to theirs. -/
theorem Passing.runFrom_refine (h : Passing source k t) (hs : source.Proper)
    (hn : source.nodes[k]? = some (.linear x p)) :
    ∃ t', runFrom t (Refinable.refine (Builtin.linear x p) k) = (.ok true, t') ∧
      { t' with modified := true } = t.lowered x p k := by
  have hadmits := hs.admits hn
  have hreach : ∀ s ∈ x.spans, t.outputMap.Reaches s := h.reaches hs hn _ List.mem_cons_self
  have hfeeds := h.realises.feeds_image (hadmits.feeds (i := ⟨"input", .real, x⟩) List.mem_cons_self)
  have hcarries : (t.outputMap.image x).Carries .real := OutputMap.carries_image hreach hadmits.made.2
  have hsize : (t.outputMap.image x).size = p.dimension := (OutputMap.size_image hreach).trans hadmits.made.1
  have hdim : p.dimension < Size.limit := Model.dimension_lt hsize
  have hweights : t.model.Admits p.weightsPart := Model.admits_weights hsize
  have hproduct := Model.admits_product hfeeds hcarries hsize
  have hweighted := Model.admits_weighted hfeeds hcarries hsize
  have hsum := Model.admits_sum (m := t.model) (p := p) (x := t.outputMap.image x)
  obtain ⟨hdeclares, hdeclares'⟩ := Model.declares_lower (m := t.model) (x := t.outputMap.image x) hdim
  have hlower : (p.lower (t.outputMap.image x) t.model).Exact :=
      (Model.proper_lower hfeeds hcarries hsize h.proper).exact
  have hfresh := h.keys_lt (Nat.le_of_lt (List.getElem?_eq_some_iff.mp hn).1)
  have hdeclared : ∀ i out, (Node.outputs (Builtin.linear x p))[i]? = some out → source.Declares ⟨k, i⟩ out :=
    fun i out hout => ⟨_, hn, hout⟩
  have hremap := OutputMap.remap_eq hreach
  generalize hx : t.outputMap.image x = x' at *
  have run₁ : runFrom t (Builtin.addOutput id p.weightsPart) =
      (.ok (column t.model.size p.dimension), { t with model := t.model.push p.weightsPart }) :=
    runFrom_addOutput hweights rfl rfl
  have run₂ : runFrom { t with model := t.model.push p.weightsPart }
      (Builtin.addOutput id (p.productPart t.model.size x')) =
      (.ok (column (t.model.size + 1) 1),
        { t with model := (t.model.push p.weightsPart).push (p.productPart t.model.size x') }) :=
    runFrom_addOutput hproduct Model.size_push rfl
  have run₃ : runFrom { t with model := (t.model.push p.weightsPart).push (p.productPart t.model.size x') }
      (Builtin.addOutput id (p.weightedPart t.model.size x')) =
      (.ok (column (t.model.size + 2) p.dimension), { t with model := p.weigh x' t.model }) :=
    runFrom_addOutput hweighted (by rw [Model.size_push, Model.size_push]) 
      (congrArg (fun size => (⟨"output", .real, size⟩ : Output)) (size_column hdim))
  have run₄ : runFrom { t with model := p.weigh x' t.model } (Builtin.addOutput id p.biasPart) =
      (.ok (column (t.model.size + 3) 1), { t with model := (p.weigh x' t.model).push p.biasPart }) :=
    runFrom_addOutput Model.admits_bias Model.size_weigh rfl
  have run₅ : runFrom { t with model := (p.weigh x' t.model).push p.biasPart }
      (Builtin.addOutput id (LinearPredictor.sumPart t.model.size)) =
      (.ok (column (t.model.size + 4) 1), { t with model := p.lower x' t.model }) :=
    runFrom_addOutput hsum (by rw [Model.size_push, Model.size_weigh]) rfl
  have map₁ : runFrom { t with model := p.lower x' t.model }
      (mapOutput (.ofSpan (.whole ⟨k, 0⟩ .real 1)) (column (t.model.size + 4) 1)) =
      (.ok (), { t with
        model := p.lower x' t.model
        outputMap := t.outputMap ++ [(⟨k, 0⟩, column (t.model.size + 4) 1)] }) :=
    runFrom_mapOutput hlower Model.one_lt_limit (fun known hknown => h.knows _ known hknown _ (hdeclared 0 _ rfl)) rfl
      (size_column Model.one_lt_limit) (Model.feeds_column Model.one_lt_limit hdeclares').has
      (OutputMap.lookup_of_lt hfresh)
  have map₂ : runFrom { t with
        model := p.lower x' t.model
        outputMap := t.outputMap ++ [(⟨k, 0⟩, column (t.model.size + 4) 1)] }
      (mapOutput (.ofSpan (.whole ⟨k, 1⟩ .real p.dimension)) (column (t.model.size + 2) p.dimension)) =
      (.ok (), { t with
        model := p.lower x' t.model
        outputMap := t.outputMap ++ [(⟨k, 0⟩, column (t.model.size + 4) 1)] ++
          [(⟨k, 1⟩, column (t.model.size + 2) p.dimension)] }) := by
    refine runFrom_mapOutput hlower hdim (fun known hknown => h.knows _ known hknown _ (hdeclared 1 _ rfl)) rfl
      (size_column hdim) (Model.feeds_column hdim hdeclares).has ?_
    rw [List.lookup_append, OutputMap.lookup_of_lt hfresh]
    simp
  refine ⟨_, runFrom_refine_of_steps hremap run₁ (Builtin.makeDot_eq_ok.mpr ⟨hproduct.made, rfl⟩) run₂
    (Builtin.makeBinary_eq_ok.mpr ⟨hweighted.made, rfl⟩) run₃ run₄ (Builtin.makeBinary_eq_ok.mpr ⟨hsum.made, rfl⟩) run₅
    map₁ map₂, ?_⟩
  rw [lowered, hx, List.append_assoc]
  rfl

theorem Passing.lowered (h : Passing source k t) (hs : source.Proper) (hn : source.nodes[k]? = some (.linear x p)) :
    Passing source (k + 1) (t.lowered x p k) := by
  have hk : k < source.size := (List.getElem?_eq_some_iff.mp hn).1
  obtain ⟨hwell, hstep⟩ := h.realises.lower hs.truncate h.proper (hs.admits hn)
  rw [Model.size_truncate (Nat.le_of_lt hk), ← Model.truncate_succ hn] at hstep
  exact ⟨hwell, hstep, h.knows⟩

/-! ### A node in a refinement pass -/

def refined (t : Transformer Builtin) (n : Builtin) (id : Nat) : Transformer Builtin :=
  match n with
  | .linear x p => t.lowered x p id
  | n => t.copied n id

theorem Passing.refined (h : Passing source k t) (hs : source.Proper) (hn : source.nodes[k]? = some n) :
    Passing source (k + 1) (t.refined n k) := by
  cases n with
  | linear x p => exact h.lowered hs hn
  | input | constant | dot | binary => exact h.copied hs hn

/-- Nothing is taken back of what nodes before added and mapped. -/
theorem Passing.rollback (h : Passing source k t) (hk : k ≤ source.size) : t.rollback t.model.size k = t :=
  Calls.none.rollback fun p hp => Nat.ne_of_lt (h.keys_lt hk p hp)

theorem Passing.runFrom_refineNode (h : Passing source k t) (hs : source.Proper) (hn : source.nodes[k]? = some n) :
    runFrom t (refineNode n k) = (.ok (), t.refined n k) := by
  have hk : k < source.size := (List.getElem?_eq_some_iff.mp hn).1
  -- Every other node declines and changes nothing, so there is nothing to take back.
  have hdeclined (hrefine : runFrom t (Refinable.refine n k) = (.ok false, t)) :
      runFrom t (refineNode n k) = (.ok (), t.copied n k) := by
    rw [runFrom_declined hrefine nofun, h.rollback (Nat.le_of_lt hk)]
    exact h.runFrom_copy hs hn
  cases n with
  | linear x p =>
    obtain ⟨t', hrefine, ht'⟩ := h.runFrom_refine hs hn
    rw [runFrom_refined hrefine, ht']
    rfl
  | input | constant | dot | binary => exact hdeclined rfl

end Transformer
end Dataflow
