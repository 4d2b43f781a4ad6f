import Dataflow.Proofs.Builtin.Progress
import Dataflow.Proofs.Refinement.Reachable

/-! # What may stand for an output

An output of the source is mapped to a wire of the target. A wire that is accepted has the type and the size
of the output and ends within outputs of the target, but the types that its spans carry are not compared with
those of the outputs that they name, as they are when a node is added. Where no sum of sizes wraps around, a
wire whose types are the declared ones carries a signal of the type and size of the output, unless an input is
unbound or a computation fails; and a wire of which some are not never carries a signal. -/

namespace Dataflow

open Result (Safe)

/-! ### Evaluating such a wire -/

namespace Model
variable {m : Model Builtin} {b : Nat → Option Signal} {s : Span} {spans : List Span} {out : Output} {type : ElemType}

/-- An output has all elements of a span, whatever its type. -/
def Contains (m : Model Builtin) (s : Span) : Prop := ∃ out, m.Declares s.outlet out ∧ s.start + s.size ≤ out.size

theorem WellBuilt.covers (hm : m.WellBuilt) (hsum : m.Summed) (hb : ∀ id x, b id = some x → m.Accepts id x)
    (hout : m.Declares s.outlet out) (hstop : s.start + s.size ≤ out.size) :
    Evaluator.Covers (m.demand b) out.type s := by
  obtain ⟨n, hn, hout⟩ := hout
  refine (hm.safe_demand hsum hb hn).imp fun xs hfits => ?_
  obtain ⟨x, hx, htype, hsize⟩ := Output.exists_fit hfits hout
  exact ⟨x, hx, htype, hsize ▸ hstop⟩

/-- A wire carries what it promises where the target has all its elements. -/
theorem WellBuilt.safe_wire {w : Wire} (hm : m.WellBuilt) (hsum : m.Summed)
    (hb : ∀ id x, b id = some x → m.Accepts id x) (hexact : w.Exact) (htype : w.type? = some type)
    (hw : ∀ s ∈ w.spans, m.Has s) :
    (m.demandWire b w).Safe fun x => x.type = type ∧ x.size = w.size := by
  unfold demandWire
  rw [htype]
  refine Evaluator.safe_gather hexact fun s hs => ?_
  obtain ⟨out, hout, hsame, hstop⟩ := hw s hs
  have hlabel : s.type = type := Option.some.inj ((Wire.type?_eq hs).symm.trans htype)
  exact hlabel ▸ hsame ▸ hm.covers hsum hb hout hstop

/-- A span names an output of another type than its own. -/
def Mislabels (m : Model Builtin) (s : Span) (out : Output) : Prop := m.Declares s.outlet out ∧ out.type ≠ s.type

/-- Elements of another type than those before them are refused, once they are there. -/
theorem WellBuilt.extend_mislabelled {acc : Signal} (hm : m.WellBuilt) (hsum : m.Summed)
    (hb : ∀ id x, b id = some x → m.Accepts id x) (hs : m.Contains s) (hacc : acc.type = s.type) (hno : ¬ m.Has s) :
    (Evaluator.extend (m.demand b) acc s).Safe (fun _ => False) ∨
      ∃ out, m.Mislabels s out ∧
        Evaluator.extend (m.demand b) acc s = .error (.typeMismatch s.type.name out.type.name) := by
  obtain ⟨out, hout, hstop⟩ := hs
  have hne : out.type ≠ s.type := fun htype => hno ⟨out, hout, htype, hstop⟩
  have hcovers := hm.covers hsum hb hout hstop
  unfold Evaluator.Covers at hcovers
  unfold Evaluator.extend
  rcases hxs : m.demand b s.node with err | xs
  · rw [hxs] at hcovers
    exact .inl hcovers.error
  · rw [hxs] at hcovers
    obtain ⟨x, hx, htype, hsize⟩ := hcovers
    obtain ⟨part, hpart⟩ := Signal.exists_slice hsize
    have hpick : Evaluator.pick xs s = .ok part := by rw [Evaluator.pick, hx]; exact hpart
    have htypes : part.type = out.type := (Signal.slice_eq_ok.mp hpart).2.1.trans htype
    rw [Result.ok_bind, hpick, Result.ok_bind]
    refine .inr ⟨out, ⟨hout, hne⟩, ?_⟩
    rw [Signal.append_mismatch (by rw [hacc, htypes]; exact hne.symm), hacc, htypes]

/-- Spans of which one has a wrong type carry no signal. -/
theorem WellBuilt.foldlM_mislabelled {acc : Signal} (hm : m.WellBuilt) (hsum : m.Summed)
    (hb : ∀ id x, b id = some x → m.Accepts id x) (hspans : ∀ s ∈ spans, m.Contains s ∧ s.type = acc.type)
    (hno : ∃ s ∈ spans, ¬ m.Has s) :
    (spans.foldlM (Evaluator.extend (m.demand b)) acc).Safe (fun _ => False) ∨
      ∃ s ∈ spans, ∃ out, m.Mislabels s out ∧
        spans.foldlM (Evaluator.extend (m.demand b)) acc = .error (.typeMismatch s.type.name out.type.name) := by
  induction spans generalizing acc with
  | nil => simp at hno
  | cons s rest ih =>
    rw [List.foldlM_cons]
    obtain ⟨hs, hlabel⟩ := hspans s List.mem_cons_self
    by_cases hhas : m.Has s
    · have ⟨out, hout, htype, hstop⟩ := hhas
      have hcovers : Evaluator.Covers (m.demand b) acc.type s := hlabel ▸ htype ▸ hm.covers hsum hb hout hstop
      have hmid := hcovers.safe_extend rfl
      rcases hext : Evaluator.extend (m.demand b) acc s with err | mid
      · rw [hext] at hmid
        exact .inl hmid.error
      · rw [hext] at hmid
        obtain ⟨hmid, -⟩ := hmid
        -- The wrong span is still to come.
        have hrest : ∃ s ∈ rest, ¬ m.Has s := by
          obtain ⟨u, hu, hno⟩ := hno
          rcases List.mem_cons.mp hu with rfl | hu
          · exact absurd hhas hno
          · exact ⟨u, hu, hno⟩
        have hrec := @ih mid (fun u hu => hmid ▸ hspans u (List.mem_cons_of_mem _ hu)) hrest
        rw [Result.ok_bind]
        refine hrec.imp_right ?_
        rintro ⟨u, hu, hbad⟩
        exact ⟨u, List.mem_cons_of_mem _ hu, hbad⟩
    · rcases hm.extend_mislabelled hsum hb hs hlabel.symm hhas with hsafe | ⟨out, hbad, hext⟩
      · exact .inl (hsafe.bind fun _ h => h.elim)
      · exact .inr ⟨s, List.mem_cons_self, out, hbad, by rw [hext]; rfl⟩

end Model

namespace Transformer
variable {t t' : Transformer Builtin} {old new : Wire}

/-! ### Accepted mappings -/

/-- A wire that is accepted for an output has its type and size, and every span of it ends within an output of
    the target, and lies within it if its end does not wrap around. Let no sum of sizes wrap around. If these
    outputs are of that type, so that the target would let a node read the wire, then in every state of an
    evaluator of the target the wire carries a signal of that type and size, or an input is unbound, or a
    computation fails. If one of them is of another type, the wire is accepted none the less and carries no signal
    in any state. -/
theorem mapOutput_accepted (ht : Reachable t) (h : runFrom t (mapOutput old new) = (.ok (), t')) :
    ∃ type, old.type? = some type ∧ new.Carries type ∧ new.size = old.size ∧
      (∀ s ∈ new.spans, ∃ out, t'.model.Declares s.outlet out ∧ s.stop ≤ out.size ∧
        (s.Exact → s.start + s.size ≤ out.size)) ∧
      (new.Exact → t'.model.Summed →
        ((∀ s ∈ new.spans, t'.model.Has s) → ∀ calls,
          (runFrom (t'.model.evaluator.after calls) (Evaluator.compute new)).1.Safe fun x =>
            x.type = type ∧ x.size = old.size) ∧
        ((∃ s ∈ new.spans, ¬ t'.model.Has s) → ∀ calls,
          (runFrom (t'.model.evaluator.after calls) (Evaluator.compute new)).1.Safe (fun _ => False) ∨
            ∃ s ∈ new.spans, ∃ out, t'.model.Declares s.outlet out ∧ out.type ≠ type ∧
              (runFrom (t'.model.evaluator.after calls) (Evaluator.compute new)).1 =
                .error (.typeMismatch type.name out.type.name))) := by
  obtain ⟨hmodel, type, htype, hnew, hsize, hwithin⟩ := mapOutput_within h
  have hlabel : new.Carries type := fun s hs => Option.some.inj ((Wire.type?_eq hs).symm.trans hnew)
  refine ⟨type, htype, hlabel, hsize, fun s hs => ?_, fun hexact hsum => ?_⟩
  · obtain ⟨out, hout, hstop⟩ := hwithin s hs
    exact ⟨out, hout, hstop, fun hexact => hexact.stop_eq ▸ hstop⟩
  have hbuilt : t'.model.WellBuilt := hmodel ▸ ht.wellBuilt
  have hcontains : ∀ s ∈ new.spans, t'.model.Contains s := fun s hs => by
    obtain ⟨out, hout, hstop⟩ := hwithin s hs
    exact ⟨out, hout, (hexact.spans s hs).stop_eq ▸ hstop⟩
  have hserves := Evaluator.serves_after hbuilt.wellFormed
  have hanswer : ∀ calls, (runFrom (t'.model.evaluator.after calls) (Evaluator.compute new)).1 =
      t'.model.demandWire (t'.model.evaluator.after calls).bound new :=
    fun calls => (Evaluator.answer_wire (hserves calls).sound new).trans (by rw [(hserves calls).model])
  refine ⟨fun hhas calls => ?_, fun hno calls => ?_⟩
  · rw [hanswer, ← hsize]
    exact hbuilt.safe_wire hsum (fun _ _ => (hserves calls).accepts) hexact hnew hhas
  · have hspans : ∀ s ∈ new.spans, t'.model.Contains s ∧ s.type = (Signal.empty type).type :=
      fun s hs => ⟨hcontains s hs, (hlabel s hs).trans (Signal.type_empty _).symm⟩
    rw [hanswer, Model.demandWire, hnew, Option.getD_some, Evaluator.gather_eq]
    refine (hbuilt.foldlM_mislabelled hsum (fun _ _ => (hserves calls).accepts) hspans hno).imp_right ?_
    rintro ⟨s, hs, out, ⟨hout, hne⟩, hrun⟩
    exact ⟨s, hs, out, hout, hlabel s hs ▸ hne, hlabel s hs ▸ hrun⟩

/-- A target that holds a constant of integers, for a source whose only output has as many reals. -/
def integersForReals : Transformer Builtin :=
  ⟨⟨[.constant (.int [1, 2])]⟩, [], false, [(⟨0, 0⟩, 2)]⟩

theorem reachable_integersForReals : Reachable integersForReals :=
  (Reachable.start [(⟨0, 0⟩, 2)]).add (.constant (.int [1, 2]))

/-- The integers are accepted for the reals, and fail to be evaluated as such. -/
theorem integers_accepted_for_reals :
    let reals := Wire.ofSpan (.whole ⟨0, 0⟩ .real 2)
    ∃ t', runFrom integersForReals (mapOutput reals reals) = (.ok (), t') ∧
      t'.outputMap.lookup ⟨0, 0⟩ = some reals ∧ t'.model.Declares ⟨0, 0⟩ ⟨"output", .int, 2⟩ ∧
      ∀ calls, ∀ x, (runFrom (t'.model.evaluator.after calls) (Evaluator.compute reals)).1 ≠ .ok x := by
  intro reals
  refine ⟨_, rfl, by decide, ⟨_, rfl, rfl⟩, fun calls x hx => ?_⟩
  have hno : ∃ s ∈ reals.spans, ¬ integersForReals.model.Has s := by
    refine ⟨_, List.mem_singleton_self _, ?_⟩
    rintro ⟨out, ⟨n, hn, hout⟩, htype, -⟩
    cases hn
    cases hout
    cases htype
  have haccepted : runFrom integersForReals (mapOutput reals reals) = (.ok (), _) := rfl
  obtain ⟨type, -, -, -, -, hexact⟩ := mapOutput_accepted reachable_integersForReals haccepted
  obtain ⟨-, hrefused⟩ := hexact (by decide) (by decide)
  rcases hrefused hno calls with hsafe | ⟨s, hs, out, -, -, herror⟩
  · rw [hx] at hsafe
    exact hsafe
  · rw [hx] at herror
    cases herror

end Transformer
end Dataflow
