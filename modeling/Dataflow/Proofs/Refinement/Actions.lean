import Dataflow.Builtin.Refinement
import Dataflow.Proofs.Refinement.Calls
import Dataflow.Proofs.Refinement.Steps

/-! # What transformers do

The actions of a transformer on a target that realises the part of the source before a node: the node is
copied, or refined if it is a linear predictor, and no action fails. -/

namespace Dataflow
namespace Transformer

variable {κ : Type} {t : Transformer κ} {n n' : κ} {id target : Nat}

theorem runFrom_remap (w : Wire) : runFrom t (remap w) = (t.outputMap.remap w, t) := rfl

variable [Node κ]

theorem runFrom_output (id index : Nat) : runFrom t (output id index) = (t.model.output id index, t) := rfl

theorem runFrom_add (h : t.model.check t.model.size n = .ok ()) :
    runFrom t (add n) = (.ok t.model.size, { t with model := t.model.push n }) := by
  have hadd : t.model.add n = .ok (t.model.push n) := Model.add_eq_ok.mpr ⟨h, rfl⟩
  unfold add
  rw [runFrom_bind_ok runFrom_get, runFrom_lift_ok hadd]
  rfl

/-! ### Mapping outputs -/

/-- The sizes that a transformer knows of the outputs of the source are theirs. -/
def Knows (t : Transformer κ) (source : Model κ) : Prop :=
  ∀ key size, t.sourceSizes.lookup key = some size → ∀ out, source.Declares key out → out.size = size

theorem checkMapping_eq_ok {key : Outlet} {type : ElemType} {size : Nat} {new : Wire} (hexact : t.model.Exact)
    (hlt : size < Size.limit) (hsize : ∀ known, t.sourceSizes.lookup key = some known → size = known)
    (htype : new.type? = some type) (hnew : new.size = size) (hhas : ∀ s ∈ new.spans, t.model.Has s) :
    t.checkMapping key (.ofSpan (.whole key type size)) new = .ok () := by
  have hold : (Wire.ofSpan (.whole key type size)).size = size := Wire.size_whole hlt
  refine checkMapping_iff.mpr ⟨fun known hknown => hold.trans (hsize known hknown), htype.symm,
    hold.trans hnew.symm, fun s hs => ?_⟩
  obtain ⟨out, hout, -, hle⟩ := hhas s hs
  have hfits : out.size < Size.limit := hexact.size_lt hout
  have hspan : s.Exact := Nat.lt_of_le_of_lt hle hfits
  exact ⟨out, hout, by rwa [hspan.stop_eq, Nat.mod_eq_of_lt hfits]⟩

theorem runFrom_mapOutput {key : Outlet} {type : ElemType} {size : Nat} {new : Wire} (hexact : t.model.Exact)
    (hlt : size < Size.limit) (hsize : ∀ known, t.sourceSizes.lookup key = some known → size = known)
    (htype : new.type? = some type) (hnew : new.size = size) (hhas : ∀ s ∈ new.spans, t.model.Has s)
    (hfresh : t.outputMap.lookup key = none) :
    runFrom t (mapOutput (.ofSpan (.whole key type size)) new) =
      (.ok (), { t with outputMap := t.outputMap ++ [(key, new)] }) := by
  have hcheck := checkMapping_eq_ok hexact hlt hsize htype hnew hhas
  unfold mapOutput
  rw [runFrom_bind_ok runFrom_get, runFrom_bind_ok (t := t) (a := key) (by rw [runFrom_lift]; rfl),
    runFrom_bind_ok (t := t) (a := ()) (by rw [runFrom_lift, hcheck]), hfresh]
  rfl

theorem runFrom_mapOutputs (hexact : t.model.Exact)
    (hsize : ∀ k out, (Node.outputs n)[k]? = some out → ∀ size, t.sourceSizes.lookup ⟨id, k⟩ = some size →
      out.size = size)
    (hn' : t.model.nodes[target]? = some n') (houtputs : Node.outputs n' = Node.outputs n)
    (hfresh : ∀ p ∈ t.outputMap, p.1.node < id) :
    runFrom t (mapOutputs n id target) =
      (.ok (), { t with outputMap := t.outputMap ++ .ofNode n id (⟨target, ·⟩) }) := by
  let mapped k : Transformer κ := { t with outputMap := t.outputMap ++ (OutputMap.ofNode n id (⟨target, ·⟩)).take k }
  have hlen : (OutputMap.ofNode n id (⟨target, ·⟩)).length = (Node.outputs n).length := by simp [OutputMap.ofNode]
  have turn : ∀ k index s, (List.range (Node.outputs n).length)[k]? = some index → s = mapped k →
      ∃ t', runFrom s (do
        let old ← liftM (Node.outputWire n id index)
        mapOutput old (← output target index)) = (.ok (), t') ∧ t' = mapped (k + 1) := by
    rintro k index _ hk rfl
    obtain ⟨hlt, hindex⟩ := List.getElem?_eq_some_iff.mp hk
    rw [List.length_range] at hlt
    obtain rfl : index = k := by rw [← hindex, List.getElem_range]
    have hout := List.getElem?_eq_getElem hlt
    generalize (Node.outputs n)[index] = out at hout
    have hentry : (OutputMap.ofNode n id (⟨target, ·⟩))[index]? =
        some (⟨id, index⟩, .ofSpan (.whole ⟨target, index⟩ out.type out.size)) := by
      rw [OutputMap.ofNode, List.getElem?_map, List.getElem?_zipIdx, hout]
      simp
    have hdeclares : (mapped index).model.Declares ⟨target, index⟩ out := ⟨n', hn', by rw [houtputs]; exact hout⟩
    have hnew : (mapped index).model.output target index = .ok (.ofSpan (.whole ⟨target, index⟩ out.type out.size)) :=
      Model.output_eq_ok.mpr ⟨out, hdeclares, rfl⟩
    have hold : Node.outputWire n id index = .ok (.ofSpan (.whole ⟨id, index⟩ out.type out.size)) := by
      rw [Node.outputWire, hout]
    have hnone : (mapped index).outputMap.lookup ⟨id, index⟩ = none := by
      rw [List.lookup_append, OutputMap.lookup_of_lt hfresh, Option.none_or]
      refine List.lookup_eq_none_iff.mpr fun p hp => ?_
      obtain ⟨j, hj, rfl⟩ := List.mem_take_iff_getElem.mp hp
      have hne : index ≠ j := by omega
      simpa [OutputMap.ofNode] using hne
    have hhas : ∀ s ∈ (Wire.ofSpan (.whole ⟨target, index⟩ out.type out.size)).spans, (mapped index).model.Has s := by
      intro s hs
      rw [List.mem_singleton.mp hs]
      exact Model.has_whole hdeclares
    have hlt : out.size < Size.limit := hexact.size_lt hdeclares
    refine ⟨mapped (index + 1), ?_, rfl⟩
    rw [runFrom_bind_ok (t := mapped index) (by rw [runFrom_lift, hold]),
      runFrom_bind_ok (t := mapped index) (by rw [runFrom_output, hnew]),
      runFrom_mapOutput (t := mapped index) hexact hlt (hsize index out hout) (by rfl) (Wire.size_whole hlt) hhas hnone]
    simp only [mapped, List.take_add_one, hentry, Option.toList_some, List.append_assoc]
  obtain ⟨_, hrun, rfl⟩ := runFrom_forM turn (s := t) (by simp [mapped])
  show runFrom t ((List.range (Node.outputs n).length).forM _) = _
  rw [hrun, List.length_range]
  simp [mapped, ← hlen]

end Transformer
end Dataflow
