import Dataflow.Proofs.Refinement.Coverage

/-! # Maps that keep types

A transformer does not compare the types of the spans that it maps an output to with those of the outputs
that they name. Built-in nodes, and scripted ones whatever their script, map their outputs only to wires
that the target gave them or that stand for what they read, so the types are right all the same. Then, where
no sum of sizes wraps around, the map of a pass leads on every wire of its source, and the maps of passes that
follow one another can always be put together. -/

namespace Dataflow

namespace Model
variable {κ : Type} [Node κ] {m m' : Model κ} {a b c w : Wire} {start size : Nat}

/-- Every span of the wire names an output of its type. -/
def Names (m : Model κ) (w : Wire) : Prop := ∀ s ∈ w.spans, ∃ out, m.Declares s.outlet out ∧ out.type = s.type

theorem Names.mono (h : m.Names w) (hext : m.Extends m') : m'.Names w := by
  intro s hs
  obtain ⟨out, hout, htype⟩ := h s hs
  exact ⟨out, hout.mono hext, htype⟩

theorem Names.slice (h : m.Names w) (hc : w.slice start size = .ok c) : m.Names c := by
  intro u hu
  obtain ⟨s, hs, houtlet, htype, -⟩ := Wire.mem_slice hc hu
  exact houtlet ▸ htype ▸ h s hs

theorem Names.append (ha : m.Names a) (hb : m.Names b) (hc : a.append b = .ok c) : m.Names c := by
  intro s hs
  rw [(Wire.append_eq_ok.mp hc).2] at hs
  exact (List.mem_append.mp hs).elim (ha s) (hb s)

theorem names_of_remap {f : OutputMap} {w' : Wire} (hf : ∀ p ∈ f, m.Names p.2) (h : f.remap w = .ok w') :
    m.Names w' := by
  intro u hu
  obtain ⟨s, -, target, hlookup, v, hv, houtlet, htype⟩ := OutputMap.mem_of_remap h hu
  exact houtlet ▸ htype ▸ hf _ (OutputMap.mem_of_lookup hlookup) v hv

end Model

/-! ### Actions of a node -/

namespace Transformer
variable {κ α β : Type} [Node κ] {source : Model κ} {t u : Transformer κ} {n : κ} {id : Nat} {old new w : Wire}

/-- What is mapped so far: outputs to wires of their type, whose spans name outputs of this type. -/
structure Typed (source : Model κ) (t : Transformer κ) : Prop where
  carries : ∀ p ∈ t.outputMap, ∀ out, source.Declares p.1 out → p.2.Carries out.type
  named : ∀ p ∈ t.outputMap, t.model.Names p.2

/-- Where an action succeeds from `t`, it maps outputs to wires of their type that name outputs of it, takes no node
    of the target away, and gives what is as `Q` says. -/
def Gives (source : Model κ) (t : Transformer κ) (x : Transformation κ α) (Q : α → Transformer κ → Prop) : Prop :=
  Typed source t → ∀ a u, runFrom t x = (.ok a, u) → Typed source u ∧ t.model.Extends u.model ∧ Q a u

/-- The action keeps the map typed. -/
abbrev Heeds (source : Model κ) (t : Transformer κ) (x : Transformation κ α) : Prop := Gives source t x fun _ _ => True

namespace Gives
variable {x : Transformation κ α} {f : α → Transformation κ β} {Q : α → Transformer κ → Prop}
  {R : β → Transformer κ → Prop}

theorem pure {a : α} (h : Q a t) : Gives source t (Pure.pure a) Q := by
  rintro ht _ _ ⟨⟩
  exact ⟨ht, List.prefix_refl _, h⟩

theorem throw (e : Error) : Gives source t (MonadExcept.throw e) Q := by
  rintro - _ _ ⟨⟩

theorem lift {r : Result α} (h : ∀ a, r = .ok a → Q a t) : Gives source t (liftM r) Q := by
  rintro ht a u hrun
  obtain ⟨hr, rfl⟩ := Prod.mk.inj ((runFrom_lift r).symm.trans hrun)
  exact ⟨ht, List.prefix_refl _, h a hr⟩

theorem bind (hx : Gives source t x Q) (hf : ∀ a u, t.model.Extends u.model → Q a u → Gives source u (f a) R) :
    Gives source t (x >>= f) R := by
  intro ht b v hrun
  obtain ⟨a, u, hu, hrun⟩ := runFrom_bind_inv hrun
  obtain ⟨ht, hext, ha⟩ := hx ht a u hu
  obtain ⟨hv, hext', hb⟩ := hf a u hext ha ht b v hrun
  exact ⟨hv, hext.trans hext', hb⟩

theorem lift_bind {r : Result α} (hf : ∀ a, r = .ok a → Gives source t (f a) R) : Gives source t (liftM r >>= f) R := by
  intro ht b v hrun
  obtain ⟨a, hr, hrun⟩ := runFrom_lift_inv hrun
  exact hf a hr ht b v hrun

theorem forM {f : α → Transformation κ Unit} {xs : List α}
    (hf : ∀ a ∈ xs, ∀ u, t.model.Extends u.model → Heeds source u (f a)) : Heeds source t (xs.forM f) := by
  rw [List.forM_eq_forM]
  induction xs generalizing t with
  | nil => exact pure trivial
  | cons a rest ih =>
    rw [List.forM_cons]
    refine (hf a List.mem_cons_self t (List.prefix_refl _)).bind fun _ u hu _ => ih fun b hb v hv => ?_
    exact hf b (List.mem_cons_of_mem _ hb) v (hu.trans hv)

/-- Wires that name outputs of their type when they are given do so still when all are there. -/
theorem mapM {f : α → Transformation κ Wire} {xs : List α}
    (hf : ∀ a u, Gives source u (f a) fun w v => v.model.Names w) :
    Gives source t (xs.mapM f) fun ws u => ∀ w ∈ ws, u.model.Names w := by
  induction xs generalizing t with
  | nil => exact pure (by simp)
  | cons a rest ih =>
    rw [List.mapM_cons]
    refine (hf a t).bind fun w u _ hw => ih.bind fun ws v hext hws => pure fun w' hw' => ?_
    rcases List.mem_cons.mp hw' with rfl | hw'
    · exact hw.mono hext
    · exact hws w' hw'

theorem add (n : κ) : Heeds source t (add n) := by
  intro ht a u hrun
  rcases runFrom_add_cases t n with ⟨e, h⟩ | ⟨-, h⟩ <;> cases hrun.symm.trans h
  exact ⟨⟨ht.carries, fun p hp => (ht.named p hp).mono Model.extends_push⟩, Model.extends_push, trivial⟩

/-- An output of the target has its type. -/
theorem output (id index : Nat) : Gives source t (output id index) fun w u => u.model.Names w := by
  refine lift fun w hw => ?_
  obtain ⟨out, hout, rfl⟩ := (Model.output_eq_ok (o := ⟨id, index⟩)).mp hw
  intro s hs
  rw [List.mem_singleton.mp hs]
  exact ⟨out, hout, rfl⟩

/-- What stands for a wire names outputs of its type. -/
theorem remap (w : Wire) : Gives source t (remap w) fun w' u => u.model.Names w' :=
  fun ht => lift (fun _ hw => Model.names_of_remap ht.named hw) ht

theorem mapOutput (hold : ∀ s ∈ old.spans, ∀ out, source.Declares s.outlet out → s.type = out.type)
    (hnew : t.model.Names new) : Heeds source t (mapOutput old new) := by
  intro ht a u hrun
  have hchanges := @mapOutput_changes _ _ t old new
  rw [hrun] at hchanges
  rcases hchanges with h | ⟨key, hkey, hcheck, h⟩
  · obtain rfl : u = t := h
    exact ⟨ht, List.prefix_refl _, trivial⟩
  obtain rfl : u = { t with outputMap := t.outputMap ++ [(key, new)] } := h
  refine ⟨⟨fun p hp out hout => ?_, fun p hp => ?_⟩, List.prefix_refl _, trivial⟩
  · rcases List.mem_append.mp hp with hp | hp
    · exact ht.carries p hp out hout
    · cases List.mem_singleton.mp hp
      obtain ⟨s, hs, rfl⟩ := wholeOutput_eq_ok hkey
      have hmem : s ∈ old.spans := by simp [hs]
      obtain ⟨-, htype, -, -⟩ := checkMapping_iff.mp hcheck
      intro v hv
      rw [Wire.type?_eq hmem, Wire.type?_eq hv, hold s hmem out hout] at htype
      exact (Option.some.inj htype).symm
  · rcases List.mem_append.mp hp with hp | hp
    · exact ht.named p hp
    · cases List.mem_singleton.mp hp
      exact hnew

end Gives
end Transformer

open Transformer (Gives Heeds)

/-! ### Built-in nodes -/

namespace Node
variable {κ : Type} [Node κ] {source : Model κ} {t : Transformer κ} {n : κ} {id index : Nat} {old new : Wire}

/-- The wire of an output of a node of the source has the type that the source declares. -/
theorem declared_outputWire (hn : source.nodes[id]? = some n) (h : outputWire n id index = .ok old) :
    ∀ s ∈ old.spans, ∀ out, source.Declares s.outlet out → s.type = out.type := by
  rintro s hs out ⟨n', hn', hout⟩
  unfold outputWire at h
  split at h
  case h_1 out' hout' =>
    cases h
    cases List.mem_singleton.mp hs
    cases hn.symm.trans hn'
    cases hout'.symm.trans hout
    rfl
  case h_2 => cases h

theorem heeds_mapOutput (hn : source.nodes[id]? = some n) (h : outputWire n id index = .ok old)
    (hnew : t.model.Names new) : Heeds source t (Transformer.mapOutput old new) :=
  .mapOutput (declared_outputWire hn h) hnew

theorem heeds_mapOutputs (hn : source.nodes[id]? = some n) (target : Nat) :
    Heeds source t (Transformer.mapOutputs n id target) := by
  refine .forM fun index _ u _ => .lift_bind fun old hold => ?_
  exact (Gives.output target index).bind fun w v _ hw => heeds_mapOutput hn hold hw

end Node

namespace Builtin
variable {κ : Type} [Node κ] {source : Model κ} {t : Transformer κ} {lift : Builtin → κ} {n : Builtin} {id : Nat}

theorem heeds_remapped (n : Builtin) : Heeds source t (remapped n) := by
  have remap (w : Wire) {u : Transformer κ} : Heeds source u (Transformer.remap w) := fun hu a v hrun =>
    ⟨(Gives.remap w hu a v hrun).1, (Gives.remap w hu a v hrun).2.1, trivial⟩
  cases n with
  | input | constant => exact .pure trivial
  | dot | binary => exact (remap _).bind fun _ _ _ _ => (remap _).bind fun _ _ _ _ => .lift fun _ _ => trivial
  | linear => exact (remap _).bind fun _ _ _ _ => .lift fun _ _ => trivial

theorem heeds_copy (hn : source.nodes[id]? = some (lift n)) : Heeds source t (copy lift n id) :=
  (heeds_remapped n).bind fun _ _ _ _ => (Gives.add _).bind fun target _ _ _ => Node.heeds_mapOutputs hn target

theorem gives_addOutput (n : Builtin) : Gives source t (addOutput lift n) fun w u => u.model.Names w :=
  (Gives.add _).bind fun _ _ _ _ => .output _ 0

theorem heeds_refine (hn : source.nodes[id]? = some (lift n)) : Heeds source t (refine lift n id) := by
  cases n with
  | input | constant | dot | binary => exact .pure trivial
  | linear x p =>
    refine (Gives.remap x).bind fun x _ _ _ => (gives_addOutput _).bind fun weights _ _ _ => .lift_bind fun _ _ => ?_
    refine (gives_addOutput _).bind fun product _ _ _ => .lift_bind fun _ _ => ?_
    refine (gives_addOutput _).bind fun weighted _ _ hweighted => (gives_addOutput _).bind fun bias _ hext₁ _ => ?_
    refine .lift_bind fun _ _ => (gives_addOutput _).bind fun sum _ hext₂ hsum => .lift_bind fun _ hfirst => ?_
    refine (Node.heeds_mapOutput hn hfirst hsum).bind fun _ _ hext₃ _ => .lift_bind fun _ hsecond => ?_
    have hweighted := ((hweighted.mono hext₁).mono hext₂).mono hext₃
    exact (Node.heeds_mapOutput hn hsecond hweighted).bind fun _ _ _ _ => .pure trivial

end Builtin

/-! ### Scripted nodes -/

namespace AnyNode
variable {source : Model AnyNode} {t : Transformer AnyNode} {n : Scripted} {id : Nat}

theorem gives_addConstant (x : Signal) : Gives source t (addConstant x) fun w u => u.model.Names w :=
  Builtin.gives_addOutput _

theorem heeds_copyScript (hn : source.nodes[id]? = some (scripted n)) (added : Scripted) :
    Heeds source t (copyScript n added id) :=
  (Gives.mapM fun w _ => .remap w).bind fun _ _ _ _ => (Gives.add _).bind fun target _ _ _ =>
    Node.heeds_mapOutputs hn target

theorem heeds_meddle (hn : source.nodes[id]? = some (scripted n)) : Heeds source t (meddle n id) :=
  (gives_addConstant _).bind fun _ _ _ hw => .lift_bind fun _ hold => Node.heeds_mapOutput hn hold hw

theorem gives_splitSignal (x : Signal) : Gives source t (splitSignal x) fun ws u => ∀ w ∈ ws, u.model.Names w := by
  unfold splitSignal
  induction List.range x.size generalizing t with
  | nil => exact .pure (by simp)
  | cons i rest ih =>
    rw [List.foldrM_cons]
    refine ih.bind fun ws _ _ hws => .lift_bind fun _ _ =>
      (gives_addConstant _).bind fun w _ hext hw => .pure fun w' hw' => ?_
    rcases List.mem_cons.mp hw' with rfl | hw'
    · exact hw
    · exact (hws w' hw').mono hext

theorem names_joined {m : Model AnyNode} {ws : List Wire} {w : Wire} (h : ∀ w ∈ ws, m.Names w)
    (hw : joined ws = .ok w) : m.Names w := by
  have hfold : ∀ acc, m.Names acc → ws.foldlM Wire.append acc = .ok w → m.Names w := by
    clear hw
    induction ws with
    | nil =>
      rintro acc hacc ⟨⟩
      exact hacc
    | cons v rest ih =>
      intro acc hacc hw
      rw [List.foldlM_cons] at hw
      obtain ⟨mid, hmid, hw⟩ := Result.bind_eq_ok.mp hw
      exact ih (fun u hu => h u (List.mem_cons_of_mem _ hu)) mid (hacc.append (h v List.mem_cons_self) hmid) hw
  exact hfold .empty (fun _ hs => nomatch hs) hw

theorem heeds_copyScripted (hn : source.nodes[id]? = some (scripted n)) : Heeds source t (copyScripted n id) := by
  unfold copyScripted
  cases n.copying with
  | faithful => exact heeds_copyScript hn n
  | unmapped => exact (gives_addConstant _).bind fun _ _ _ _ => .pure trivial
  | leading =>
    refine .lift_bind fun whole hwhole => .lift_bind fun old hold => (gives_addConstant _).bind fun w _ _ hw => ?_
    refine .mapOutput (fun s hs out hout => ?_) hw
    obtain ⟨u, hu, houtlet, htype, -⟩ := Wire.mem_slice hold hs
    exact htype.trans (Node.declared_outputWire hn hwhole u hu out (houtlet ▸ hout))
  | fails => exact .throw _

theorem heeds_refineScripted (hn : source.nodes[id]? = some (scripted n)) : Heeds source t (refineScripted n id) := by
  unfold refineScripted
  cases n.refining with
  | declines => exact .pure trivial
  | fails => exact (heeds_meddle hn).bind fun _ _ _ _ => .throw _
  | retracts => exact (heeds_meddle hn).bind fun _ _ _ _ => .pure trivial
  | pretends => exact .pure trivial
  | splits =>
    refine (Gives.forM fun p _ _ _ => ?_).bind fun _ _ _ _ => .pure trivial
    refine (gives_splitSignal p.1).bind fun _ _ _ hws => .lift_bind fun _ hold => .lift_bind fun _ hw => ?_
    exact Node.heeds_mapOutput hn hold (names_joined hws hw)
  | halves =>
    refine (Gives.forM fun p _ _ _ => ?_).bind fun _ _ _ _ => .pure trivial
    refine (gives_addConstant p.1).bind fun w _ _ hw => .lift_bind fun front hfront => .lift_bind fun back hback => ?_
    refine .lift_bind fun _ hold => .lift_bind fun _ hboth => ?_
    exact Node.heeds_mapOutput hn hold ((hw.slice hfront).append (hw.slice hback) hboth)
  | stack depth =>
    cases depth with
    | zero => exact .pure trivial
    | succ depth => exact (heeds_copyScript hn _).bind fun _ _ _ _ => .pure trivial
  | forwards =>
    refine (Gives.mapM fun w _ => .remap w).bind fun ws _ _ hws => ?_
    refine (Gives.forM fun p hp _ hext => ?_).bind fun _ _ _ _ => .pure trivial
    exact .lift_bind fun _ hold => Node.heeds_mapOutput hn hold ((hws _ (List.of_mem_zip hp).2).mono hext)

end AnyNode

/-! ### Passes -/

/-- Copied or refined, a node maps outputs only to wires of their type that name outputs of it. -/
def Refinable.Honest (κ : Type) [Refinable κ] : Prop := ∀ (source : Model κ) (n : κ) (id : Nat),
  source.nodes[id]? = some n → ∀ t, Heeds source t (copy n id) ∧ Heeds source t (refine n id)

theorem AnyNode.honest : Refinable.Honest AnyNode := by
  intro source n id hn t
  cases n with
  | builtin n => exact ⟨Builtin.heeds_copy hn, Builtin.heeds_refine hn⟩
  | scripted n => exact ⟨heeds_copyScripted hn, heeds_refineScripted hn⟩

namespace Transformer
variable {κ : Type} [Refinable κ] {source m : Model κ} {t u : Transformer κ} {n : κ} {k : Nat}

theorem typed_start : Typed source (start source) := ⟨by rintro _ ⟨⟩, by rintro _ ⟨⟩⟩

section
variable (own : Refinable.Confined κ) (honest : Refinable.Honest κ)
include own honest

theorem Typed.refineNode (ht : Typed source t) (hkeys : Tracks k t) (hn : source.nodes[k]? = some n)
    (hrun : runFrom t (refineNode n k) = (.ok (), u)) : Typed source u := by
  rcases hrefine : runFrom t (Refinable.refine n k) with ⟨r, v⟩
  by_cases hr : r = .ok true
  · subst hr
    rw [runFrom_refined hrefine] at hrun
    cases hrun
    obtain ⟨hv, -⟩ := (honest source n k hn t).2 ht _ _ hrefine
    exact ⟨hv.carries, hv.named⟩
  -- Nothing is left of a refinement that comes to nothing, right or wrong.
  · have hcalls := (own n k).2 t
    rw [hrefine] at hcalls
    rw [runFrom_declined hrefine hr, hcalls.rollback fun p hp => Nat.ne_of_lt (hkeys.keys p hp)] at hrun
    exact ((honest source n k hn t).1 ht _ _ hrun).1

theorem typed_refineModel (hrun : runFrom t (refineModel source) = (.ok m, u)) (hexact : u.outputMap.Exact) :
    OutputMap.Typed source m u.outputMap := by
  unfold refineModel at hrun
  rw [runFrom_bind_ok runFrom_set] at hrun
  obtain ⟨_, last, hnodes, hrun⟩ := runFrom_bind_inv hrun
  have turn : ∀ k p t v, source.nodes.zipIdx[k]? = some p → Tracks k t ∧ Typed source t →
      runFrom t (Transformer.refineNode p.1 p.2) = (.ok (), v) → Tracks (k + 1) v ∧ Typed source v := by
    rintro k ⟨n, id⟩ t v hp ⟨hkeys, ht⟩ hturn
    obtain ⟨hn, rfl⟩ := getElem?_zipIdx_inv hp
    exact ⟨hkeys.refineNode own hturn, ht.refineNode own honest hkeys hn hturn⟩
  obtain ⟨htracks, hlast⟩ := runFrom_forM_inv turn ⟨tracks_start, typed_start⟩ hnodes
  unfold finish at hrun
  rw [runFrom_bind_ok runFrom_get] at hrun
  obtain ⟨_, hcheck, hrun⟩ := runFrom_lift_inv hrun
  cases hrun
  refine ⟨hexact, fun o out ho => ?_, fun p hp s hs => ?_⟩
  · obtain ⟨w, hw, hsize⟩ := checkMapped_eq_ok.mp hcheck o out ho
    exact ⟨w, hw, hsize, hlast.carries _ (OutputMap.mem_of_lookup hw) out ho⟩
  · obtain ⟨out, hout, htype⟩ := hlast.named p hp s hs
    obtain ⟨out', hout', hstop⟩ := htracks.enclosed p hp s hs
    cases hout.unique hout'
    exact ⟨out, hout, htype, ((hexact p hp).spans s hs).stop_eq ▸ hstop⟩

end
end Transformer

theorem Refinement.typed_pass {κ : Type} [Refinable κ] (own : Refinable.Confined κ) (honest : Refinable.Honest κ)
    {source m : Model κ} {f : OutputMap} {modified : Bool} (h : pass source = .ok (m, f, modified)) (hexact : f.Exact) :
    OutputMap.Typed source m f := by
  unfold pass at h
  split at h
  case h_1 t hrun =>
    cases h
    exact Transformer.typed_refineModel own honest (t := .fresh) hrun hexact
  case h_2 => cases h

end Dataflow
