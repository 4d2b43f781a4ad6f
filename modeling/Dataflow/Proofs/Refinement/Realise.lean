import Dataflow.Proofs.Refinement.Composition
import Dataflow.Proofs.Refinement.Trim

/-! # Models that do what other models do

A model realises another one through a map of outputs when its input nodes are those of the other, in
order, every output of the other is mapped to elements that it has, as many and of the same type, and
these elements have the scalars that the output has, whenever it has a value and the inputs hold the same
signals. What a node reads is mapped before the node, so the relation is kept when a node is put behind
the one model and, behind the other, nodes that put out the same. -/

namespace Dataflow

open Evaluator (Yields)

namespace OutputMap
variable {κ : Type} [Node κ] {n : κ} {id k : Nat} {dest : Nat → Outlet} {o : Outlet} {w : Wire}

def ofNode (n : κ) (id : Nat) (dest : Nat → Outlet) : OutputMap :=
  (Node.outputs n).zipIdx.map fun (out, index) => (⟨id, index⟩, .ofSpan (.whole (dest index) out.type out.size))

theorem mem_ofNode {p : Outlet × Wire} (h : p ∈ ofNode n id dest) :
    ∃ k out, (Node.outputs n)[k]? = some out ∧ p = (⟨id, k⟩, .ofSpan (.whole (dest k) out.type out.size)) := by
  obtain ⟨⟨out, k⟩, hmem, rfl⟩ := List.mem_map.mp h
  exact ⟨k, out, List.mem_zipIdx_iff_getElem?.mp hmem, rfl⟩

theorem lookup_zipIdx {outs : List Output} {out : Output} {j : Nat} {g : Output → Nat → Wire}
    (h : outs[k]? = some out) :
    ((outs.zipIdx j).map fun p => ((⟨id, p.2⟩ : Outlet), g p.1 p.2)).lookup ⟨id, k + j⟩ = some (g out (k + j)) := by
  induction k generalizing outs j with
  | zero =>
    rcases outs with _ | ⟨first, rest⟩
    · cases h
    · cases h
      simp
  | succ k ih =>
    rcases outs with _ | ⟨first, rest⟩
    · cases h
    · have hne : (⟨id, k + 1 + j⟩ : Outlet) ≠ ⟨id, j⟩ := fun heq => by
        have := congrArg Outlet.index heq
        simp only at this
        omega
      rw [List.zipIdx_cons, List.map_cons, List.lookup_cons, beq_false_of_ne hne]
      have hrest := ih (j := j + 1) (List.getElem?_cons_succ.symm.trans h)
      rwa [show k + (j + 1) = k + 1 + j by omega] at hrest

theorem lookup_ofNode {out : Output} (h : (Node.outputs n)[k]? = some out) :
    (ofNode n id dest).lookup ⟨id, k⟩ = some (.ofSpan (.whole (dest k) out.type out.size)) :=
  lookup_zipIdx (j := 0) (g := fun out index => .ofSpan (.whole (dest index) out.type out.size)) h

theorem lookup_of_lt {f : OutputMap} (h : ∀ p ∈ f, p.1.node < id) : f.lookup ⟨id, k⟩ = none := by
  refine List.lookup_eq_none_iff.mpr fun p hp => ?_
  have hne : (⟨id, k⟩ : Outlet) ≠ p.1 := fun heq => absurd (h p hp) (by rw [← heq]; exact Nat.lt_irrefl id)
  simpa using hne

theorem lookup_map {f : OutputMap} {g : Wire → Wire} : (f.map fun p => (p.1, g p.2)).lookup o = (f.lookup o).map g := by
  induction f with
  | nil => rfl
  | cons p rest ih =>
    rw [List.map_cons, List.lookup_cons, List.lookup_cons]
    by_cases h : o = p.1
    · simp [h]
    · simp [beq_false_of_ne h, ih]

end OutputMap

/-- The second model does through the map what the first one does. A node of the first needs no value for
    the empty spans that it reads. -/
structure Realises (m m' : Model Builtin) (f : OutputMap) : Prop extends OutputMap.Typed m m' f where
  keys : ∀ p ∈ f, ∃ out, m.Declares p.1 out
  inputs : m'.nodes.filter Node.isInput = m.nodes.filter Node.isInput
  carries : ∀ a o xs x w, m.trim.under a o.node = .ok xs → xs[o.index]? = some x → f.lookup o = some w →
    Yields (m'.under a) x.type w.spans x.scalars

namespace Realises
variable {m m' m'' : Model Builtin} {f : OutputMap} {n : Builtin} {w : Wire} {s u : Span} {t : ElemType}
  {a : Nat → Option Signal} {spans : List Span} {l : List Scalar}

theorem rank_size (h : Realises m m' f) : m'.rank m'.size = m.rank m.size := by
  rw [Model.rank_size, Model.rank_size, List.countP_eq_length_filter, List.countP_eq_length_filter, h.inputs]

theorem has_place (h : Realises m m' f) (hu : u ∈ f.place s) : m'.Has u := OutputMap.has_of_place h.provided hu

theorem yields_place (h : Realises m m' f) (hs : ∀ s ∈ spans, f.Reaches s) (hy : Yields (m.trim.under a) t spans l) :
    Yields (m'.under a) t (spans.flatMap f.place) l := by
  induction hy with
  | nil => exact .nil
  | @cons s rest xs x l hn ho ht _ _ ih =>
    obtain ⟨w, hw, -, -, -⟩ := hs s List.mem_cons_self
    have hx := (h.carries a s.outlet xs x w hn ho hw).cut s.start s.size
    rw [List.flatMap_cons, OutputMap.place, hw]
    exact (ht ▸ hx).append (ih fun u hu => hs u (List.mem_cons_of_mem _ hu))

theorem gather_image {x : Signal} (h : Realises m m' f) (hs : ∀ s ∈ w.spans, m.Has s)
    (hx : Evaluator.gather (m.trim.under a) t w.trim = .ok x) :
    Evaluator.gather (m'.under a) t (f.image w) = .ok x := by
  obtain ⟨ht, hy⟩ := Evaluator.gather_eq_ok.mp hx
  refine Evaluator.gather_eq_ok.mpr ⟨ht, ?_⟩
  have hreach : ∀ s ∈ w.spans, f.Reaches s := fun s hs' => h.reaches (hs s hs')
  rw [OutputMap.spans_image hreach, ← OutputMap.flatMap_place_trim]
  exact h.yields_place (fun s hs' => hreach s (Wire.mem_trim.mp hs').1) hy

/-- The models realise each other still with a node behind the one, and behind the other whatever puts
    out the same. -/
theorem extend {dest : Nat → Outlet} (h : Realises m m' f) (hext : m'.Extends m'')
    (hexact : ∀ out ∈ Node.outputs n, out.size < Size.limit)
    (hinputs : m''.nodes.filter Node.isInput = m'.nodes.filter Node.isInput ++ [n].filter Node.isInput)
    (hto : ∀ k out, (Node.outputs n)[k]? = some out →
      ∃ out', m''.Declares (dest k) out' ∧ out'.type = out.type ∧ out'.size = out.size)
    (hval : ∀ a xs, (m.trim.push n.trim).under a m.size = .ok xs → ∀ k x, xs[k]? = some x →
      ∃ ys, m''.under a (dest k).node = .ok ys ∧ ys[(dest k).index]? = some x) :
    Realises (m.push n) m'' (f ++ .ofNode n m.size dest) where
  exact p hp := by
    rcases List.mem_append.mp hp with hp | hp
    · exact h.exact p hp
    · obtain ⟨k, out, hout, rfl⟩ := OutputMap.mem_ofNode hp
      exact Wire.exact_whole (hexact out (List.mem_of_getElem? hout))
  keys p hp := by
    rcases List.mem_append.mp hp with hp | hp
    · obtain ⟨out, hout⟩ := h.keys p hp
      exact ⟨out, hout.mono Model.extends_push⟩
    · obtain ⟨k, out, hout, rfl⟩ := OutputMap.mem_ofNode hp
      exact ⟨out, Model.declares_push_size hout⟩
  provided p hp s hs := by
    rcases List.mem_append.mp hp with hp | hp
    · exact (h.provided p hp s hs).mono hext
    · obtain ⟨k, out, hout, rfl⟩ := OutputMap.mem_ofNode hp
      obtain ⟨out', hout', ht, hsize⟩ := hto k out hout
      rw [List.mem_singleton.mp hs, ← ht, ← hsize]
      exact Model.has_whole hout'
  covered o out ho := by
    rw [List.lookup_append]
    rcases ho.of_push with ho | ⟨hnode, hout⟩
    · obtain ⟨w, hw, hcovered⟩ := h.covered o out ho
      exact ⟨w, by rw [hw]; rfl, hcovered⟩
    · obtain ⟨node, k⟩ := o
      obtain rfl : node = m.size := hnode
      have hnone : f.lookup ⟨m.size, k⟩ = none := OutputMap.lookup_of_lt fun p hp => by
        obtain ⟨out, hout⟩ := h.keys p hp
        exact hout.lt
      refine ⟨_, by rw [hnone, OutputMap.lookup_ofNode hout]; rfl, ?_,
        fun s hs => by rw [List.mem_singleton.mp hs]; rfl⟩
      exact Wire.size_whole (hexact out (List.mem_of_getElem? hout))
  inputs := by
    rw [hinputs, h.inputs, ← List.filter_append]
    rfl
  carries a o xs x w hxs hx hw := by
    rw [Model.trim_push] at hxs
    rw [List.lookup_append] at hw
    -- An output that was mapped before is one of the nodes before; the others are those of the new node.
    rcases hf : f.lookup o with _ | w'
    · rw [hf, Option.none_or] at hw
      obtain ⟨k, out, hout, heq⟩ := OutputMap.mem_ofNode (OutputMap.mem_of_lookup hw)
      cases heq
      obtain ⟨ys, hys, hy⟩ := hval a xs hxs k x hx
      have hdeclares : (m.trim.push n.trim).Declares ⟨m.size, k⟩ out := by
        rw [← Model.size_trim]
        exact Model.declares_push_size (by rw [Builtin.outputs_trim]; exact hout)
      obtain ⟨x', hx', ht, hsize⟩ := Model.values_declared hxs hdeclares
      cases hx.symm.trans hx'
      rw [← ht, ← hsize]
      exact Yields.whole hys hy
    · rw [hf, Option.some_or, Option.some.injEq] at hw
      subst hw
      obtain ⟨out, hout⟩ := h.keys _ (OutputMap.mem_of_lookup hf)
      have hlt : o.node < m.trim.size := by
        rw [Model.size_trim]
        exact hout.lt
      rw [Model.under_push hlt] at hxs
      exact (h.carries a o xs x w' hxs hx hf).mono fun s _ ys hys => Model.under_mono hext hys

/-- Maps of outputs that models are realised through can follow one another. -/
theorem andThen {g : OutputMap} (h : Realises m m' f) (h' : Realises m' m'' g) (hm' : m'.WellFormed) :
    f.andThen g = .ok (f.map fun p => (p.1, g.image p.2)) ∧ Realises m m'' (f.map fun p => (p.1, g.image p.2)) := by
  obtain ⟨hfg, htyped⟩ := h.toTyped.andThen h'.toTyped
  refine ⟨hfg, htyped, fun p hp => ?_, h'.inputs.trans h.inputs, fun a o xs x w hxs hx hw => ?_⟩
  · obtain ⟨q, hq, rfl⟩ := List.mem_map.mp hp
    exact h.keys q hq
  · rw [OutputMap.lookup_map, Option.map_eq_some_iff] at hw
    obtain ⟨w, hw, rfl⟩ := hw
    have hreach : ∀ s ∈ w.spans, g.Reaches s := fun s hs => h'.reaches (h.provided _ (OutputMap.mem_of_lookup hw) s hs)
    rw [OutputMap.spans_image hreach]
    refine h'.yields_place hreach ((h.carries a o xs x w hxs hx hw).mono fun s _ ys hys => ?_)
    exact Model.under_trim hm' hys

end Realises
end Dataflow
