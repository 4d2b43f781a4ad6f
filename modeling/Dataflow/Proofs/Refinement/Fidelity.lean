import Dataflow.Proofs.Description
import Dataflow.Proofs.Obtained
import Dataflow.Proofs.Refinement.Copyable

/-! # What a copy keeps

A copy has the nodes of the model in the same places, and every output is mapped to itself. But copying drops
the empty spans of every wire, since slicing the wire that stands for an output does, and those whose end wraps
around. So a node that can be described is described as it was just when it reads no empty span, and an output
that is read through such spans only becomes a sink. -/

namespace Dataflow

/-! ### Nodes -/

namespace Builtin
variable {n : Builtin} {d : Description}

/-- Each span of each input is described, so leaving one out shows. -/
theorem describe_trim (h : Describe.describe n = .ok d) :
    Describe.describe n.trim = .ok d ↔ ∀ s ∈ Node.spans n, 0 < s.size := by
  constructor
  · intro h' s hs
    obtain ⟨i, hi, hs⟩ := List.mem_flatMap.mp hs
    have hi' : { i with wire := i.wire.trim } ∈ n.trim.inputs := by
      rw [trim, inputs_rewire]
      exact List.mem_map.mpr ⟨i, hi, rfl⟩
    obtain ⟨ranges, hranges, hlength⟩ := describe_ranges h hi
    obtain ⟨ranges', hranges', hlength'⟩ := describe_ranges h' hi'
    cases hranges.symm.trans hranges'
    have hall := List.length_filter_eq_length_iff.mp (hlength'.symm.trans hlength)
    simpa using hall s hs
  · intro hfull
    rw [trim_eq_self hfull, h]

/-- What can be described has no spans whose ends wrap around. -/
theorem describe_clip (h : Describe.describe n = .ok d) :
    Describe.describe n.clip = .ok d ↔ ∀ s ∈ Node.spans n, 0 < s.size := by
  have hexact : ∀ s ∈ Node.spans n, s.Exact := by
    intro s hs
    obtain ⟨hstart, hsize⟩ := spans_of_describe h s hs
    show s.start + s.size < 18446744073709551616
    omega
  rw [clip_of_exact hexact]
  exact describe_trim h

/-- What a copy of a node has of it. -/
structure CopiedAs (n n' : Builtin) : Prop where
  typeName : Describe.typeName n' = Describe.typeName n
  /-- The spans that are left are those with elements that end behind their start, in the same order. -/
  inputs : Node.inputs n' = (Node.inputs n).map fun i => { i with wire := i.wire.clip }
  same : (∀ s ∈ Node.spans n, s.Exact ∧ 0 < s.size) → n' = n
  described : ∀ d, Describe.describe n = .ok d →
    (Describe.describe n' = .ok d ↔ ∀ s ∈ Node.spans n, 0 < s.size)

theorem copiedAs_clip (n : Builtin) : n.CopiedAs n.clip where
  typeName := by cases n <;> rfl
  inputs := inputs_rewire
  same h := (clip_of_exact fun s hs => (h s hs).1).trans (trim_eq_self fun s hs => (h s hs).2)
  described _ := describe_clip

end Builtin

/-! ### Models -/

namespace Model
variable {m : Model Builtin} {o : Outlet}

theorem inputNodes_clip : m.clip.inputNodes = m.inputNodes := by
  simp [inputNodes, clip, rewire, List.zipIdx_map, List.filter_map, Function.comp_def, Builtin.isInput_rewire]

theorem outlets_clip (h : m.Copyable) : m.clip.outlets = m.outlets := by
  show (m.nodes.map Builtin.clip).zipIdx.flatMap _ = m.nodes.zipIdx.flatMap _
  rw [List.zipIdx_map, List.flatMap_map]
  refine List.flatMap_congr fun p hp => ?_
  have hmem : p.1 ∈ m.nodes := List.mem_of_getElem? (List.mem_zipIdx_iff_getElem?.mp hp)
  show Node.outlets p.1.clip p.2 = Node.outlets p.1 p.2
  rw [Node.outlets, (h p.1 hmem).outputs, Node.outlets]

theorem mem_outlets {out : Output} (h : m.Declares o out) : o ∈ m.outlets := by
  obtain ⟨n, hn, hout⟩ := h
  refine List.mem_flatMap.mpr ⟨(n, o.node), List.mem_zipIdx_iff_getElem?.mpr hn, ?_⟩
  exact List.mem_map.mpr ⟨o.index, List.mem_range.mpr (List.getElem?_eq_some_iff.mp hout).1, rfl⟩

theorem mem_consumed : o ∈ m.consumed ↔ ∃ n ∈ m.nodes, ∃ s ∈ Node.spans n, s.outlet = o := by
  simp [consumed]

theorem mem_consumed_clip :
    o ∈ m.clip.consumed ↔ ∃ n ∈ m.nodes, ∃ s ∈ Node.spans n, s.outlet = o ∧ s.start < s.stop := by
  rw [mem_consumed]
  constructor
  · rintro ⟨_, hmem, u, hu, rfl⟩
    obtain ⟨n, hn, rfl⟩ := List.mem_map.mp hmem
    obtain ⟨s, hs, hclip⟩ := Builtin.mem_spans_clip.mp hu
    have hlt : s.start < s.stop := by
      by_contra hle
      rw [Span.clip_eq_none.mpr (Nat.le_of_not_lt hle)] at hclip
      cases hclip
    obtain ⟨-, -, -, houtlet, -⟩ := Span.clip_inv hclip
    exact ⟨n, hn, s, hs, houtlet.symm, hlt⟩
  · rintro ⟨n, hn, s, hs, rfl, hlt⟩
    exact ⟨n.clip, List.mem_map_of_mem hn, _, Builtin.mem_spans_clip.mpr ⟨s, hs, if_pos hlt⟩, rfl⟩

/-- The sinks stay when every output that is read is read through a span with elements. -/
theorem sinks_clip (hm : m.WellFormed) (hcopyable : m.Copyable) : m.clip.sinks = m.sinks ↔
    ∀ o ∈ m.consumed, ∃ n ∈ m.nodes, ∃ s ∈ Node.spans n, s.outlet = o ∧ s.start < s.stop := by
  simp only [← mem_consumed_clip]
  constructor
  · intro h o ho
    obtain ⟨n, hn, s, hs, rfl⟩ := mem_consumed.mp ho
    obtain ⟨id, hid⟩ := List.getElem?_of_mem hn
    obtain ⟨out, hout, -⟩ := (hm id n hid s hs).2
    -- Otherwise the output is a sink of the clipped model and of the model itself.
    by_contra hunread
    have hsink : s.outlet ∈ m.clip.sinks := by simpa [sinks, outlets_clip hcopyable, hunread] using mem_outlets hout
    rw [h] at hsink
    simpa [ho] using (List.mem_filter.mp hsink).2
  · intro h
    unfold sinks
    rw [outlets_clip hcopyable]
    refine List.filter_congr fun o _ => ?_
    have hiff : o ∈ m.clip.consumed ↔ o ∈ m.consumed := by
      refine ⟨fun ho => ?_, h o⟩
      obtain ⟨n, hn, s, hs, hso, -⟩ := mem_consumed_clip.mp ho
      exact mem_consumed.mpr ⟨n, hn, s, hs, hso⟩
    simp [hiff]

end Model

namespace Obtained
variable {m : Model Builtin}

/-- Copying succeeds, whatever transformer is asked to, just when the model can do without the spans whose ends wrap
    around, as it can where there are none. The copy has the nodes in their places, each with its type and described
    as it was just when it reads no empty span, and the same input nodes; every output is mapped to all of itself.
    Its sinks are those of the model just when every output that is read is read through a span with elements. -/
theorem copied_but_for_empty_spans (h : Obtained m) (t : Transformer Builtin) :
    ((∃ m' t', runFrom t (Transformer.copyModel m) = (.ok m', t')) ↔ m.Copyable) ∧ (m.Exact → m.Copyable) ∧
    ∀ m' t', runFrom t (Transformer.copyModel m) = (.ok m', t') →
      List.Forall₂ Builtin.CopiedAs m.nodes m'.nodes ∧ t'.outputMap.IsIdentity m ∧ m'.inputNodes = m.inputNodes ∧
      (m'.sinks = m.sinks ↔
        ∀ o ∈ m.consumed, ∃ n ∈ m.nodes, ∃ s ∈ Node.spans n, s.outlet = o ∧ s.start < s.stop) := by
  have hm := h.wellBuilt
  have copied (hcopyable : m.Copyable) : ∃ t', runFrom t (Transformer.copyModel m) = (.ok m.clip, t') ∧
      t'.outputMap.IsIdentity m := by
    obtain ⟨u, hu, hrun⟩ := Transformer.runFrom_copyModel (s := t) (hcopyable.proper hm.wellFormed)
    have hmodel := hu.model_eq
    have hidentity := hu.identity
    rw [Model.truncate_size] at hmodel hidentity
    rw [hmodel, Model.trim_clip, Transformer.copyModel_clip hm hcopyable] at hrun
    exact ⟨_, hrun, fun o out ho => hidentity o out ((Model.declares_rewire hcopyable.rewirable).mpr ho)⟩
  refine ⟨⟨?_, fun hcopyable => ?_⟩, fun hexact => (h.proper hexact).copyable, fun m' t' hrun => ?_⟩
  · rintro ⟨m', t', hrun⟩
    exact Transformer.copyable_of_copyModel hm hrun
  · obtain ⟨t', hrun, -⟩ := copied hcopyable
    exact ⟨m.clip, t', hrun⟩
  · have hcopyable := Transformer.copyable_of_copyModel hm hrun
    obtain ⟨_, hrun', hidentity⟩ := copied hcopyable
    cases hrun.symm.trans hrun'
    refine ⟨?_, hidentity, Model.inputNodes_clip, Model.sinks_clip hm.wellFormed hcopyable⟩
    exact List.forall₂_map_right_iff.mpr (List.forall₂_same.mpr fun n _ => Builtin.copiedAs_clip n)

/-- A constant without elements that a dot product reads, and its copy that nothing reads. -/
theorem empty_constant_unread :
    let whole := Wire.ofSpan (.whole ⟨0, 0⟩ .real 0)
    let m : Model Builtin := ⟨[.constant (.real []), .dot .real whole whole]⟩
    ∃ m' t', runFrom .fresh (Transformer.copyModel m) = (.ok m', t') ∧ m'.sinks ≠ m.sinks ∧
      ∃ n n' d, m.nodes[1]? = some n ∧ m'.nodes[1]? = some n' ∧ Describe.describe n = .ok d ∧
        Describe.describe n' ≠ .ok d := by
  intro whole m
  have hdot : Builtin.makeDot .real whole whole = .ok _ := rfl
  have hm : Obtained m := (Obtained.empty.add (.constant (.real [])) rfl).add (.dot hdot) rfl
  have hempty : ∀ n ∈ m.nodes, ∀ s ∈ Node.spans n, ¬ s.start < s.stop := by decide
  obtain ⟨hsucceeds, hcopyable, hcopied⟩ := copied_but_for_empty_spans hm .fresh
  obtain ⟨m', t', hrun⟩ := hsucceeds.mpr (hcopyable (by decide))
  obtain ⟨hnodes, -, -, hsinks⟩ := hcopied m' t' hrun
  refine ⟨m', t', hrun, fun h => ?_, ?_⟩
  · obtain ⟨n, hn, s, hs, -, hlt⟩ := hsinks.mp h ⟨0, 0⟩ (by decide)
    exact absurd hlt (hempty n hn s hs)
  · obtain ⟨_, rest, -, hrest, hcopy⟩ := List.forall₂_cons_left_iff.mp hnodes
    obtain ⟨n', _, hn', -, rfl⟩ := List.forall₂_cons_left_iff.mp hrest
    have hdescribed : (Describe.describe (Builtin.dot .real whole whole)).isOk = true := by decide +kernel
    rcases hd : Describe.describe (Builtin.dot .real whole whole) with _ | d
    · rw [hd] at hdescribed
      cases hdescribed
    · refine ⟨_, n', d, rfl, by rw [hcopy]; rfl, hd, fun hsame => ?_⟩
      exact absurd ((hn'.described d hd).mp hsame _ List.mem_cons_self) (Nat.lt_irrefl 0)

end Obtained
end Dataflow
