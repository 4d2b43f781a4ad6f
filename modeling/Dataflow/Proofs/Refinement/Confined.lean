import Dataflow.Proofs.Refinement.Calls
import Dataflow.Scripted

/-! # Nodes that keep to their own outputs

Built-in nodes, and scripted ones whatever their script, do no more to a transformer than call it, and map
none but their own outputs. -/

namespace Dataflow

open Transformer

namespace Node
variable {κ : Type} [Node κ] {n : κ} {id index : Nat} {old w : Wire}

theorem node_of_outputWire (h : outputWire n id index = .ok old) : ∀ s ∈ old.spans, s.node = id := by
  unfold outputWire at h
  split at h
  · cases h
    intro s hs
    rw [List.mem_singleton.mp hs]
    rfl
  · cases h

theorem own_of_spans (h : ∀ s ∈ old.spans, s.node = id) : ∀ key, wholeOutput old = .ok key → key.node = id := by
  intro key hkey
  obtain ⟨s, hspans, rfl⟩ := wholeOutput_eq_ok hkey
  exact h s (by simp [hspans])

/-- Mapping an output of the node that a transformer was told of. -/
theorem confined_mapOutput (h : outputWire n id index = .ok old) :
    Confined id (mapOutput old w : Transformation κ Unit) :=
  .mapOutput (own_of_spans (node_of_outputWire h))

theorem confined_mapOutputs (n : κ) (id target : Nat) : Confined id (mapOutputs n id target) :=
  .forM fun index _ => .lift_bind fun _ hold => (Confined.output target index).bind fun _ => confined_mapOutput hold

end Node

/-! ### Built-in nodes -/

namespace Builtin
variable {κ : Type} [Node κ] {id : Nat}

theorem confined_remapped (n : Builtin) : Confined id (remapped n : Transformation κ Builtin) := by
  cases n with
  | input | constant => exact .pure _
  | dot | binary => exact (Confined.remap _).bind fun _ => (Confined.remap _).bind fun _ => .lift _
  | linear => exact (Confined.remap _).bind fun _ => .lift _

theorem confined_copy (lift : Builtin → κ) (n : Builtin) (id : Nat) : Confined id (copy lift n id) :=
  (confined_remapped n).bind fun _ => (Confined.add _).bind fun target => Node.confined_mapOutputs _ id target

theorem confined_addOutput (lift : Builtin → κ) (n : Builtin) : Confined id (addOutput lift n) :=
  (Confined.add _).bind fun _ => .output _ 0

theorem confined_refine (lift : Builtin → κ) (n : Builtin) (id : Nat) : Confined id (refine lift n id) := by
  have part (n : Builtin) : Confined id (addOutput lift n) := confined_addOutput lift n
  cases n with
  | input | constant | dot | binary => exact .pure false
  | linear x p =>
    refine (Confined.remap x).bind fun x => (part _).bind fun weights => .lift_bind fun _ _ => ?_
    refine (part _).bind fun product => .lift_bind fun _ _ => ?_
    refine (part _).bind fun weighted => (part _).bind fun bias => .lift_bind fun _ _ => ?_
    refine (part _).bind fun sum => .lift_bind fun _ hfirst => (Node.confined_mapOutput hfirst).bind fun _ => ?_
    exact .lift_bind fun _ hsecond => (Node.confined_mapOutput hsecond).bind fun _ => .pure true

end Builtin

/-! ### Scripted nodes -/

namespace AnyNode
variable {id : Nat} {w : Wire}

theorem confined_addConstant (x : Signal) : Confined id (addConstant x) := Builtin.confined_addOutput _ _

theorem confined_copyScript (n added : Scripted) (id : Nat) : Confined id (copyScript n added id) :=
  (Confined.mapM fun w => .remap w).bind fun _ => (Confined.add _).bind fun target =>
    Node.confined_mapOutputs _ id target

theorem confined_meddle (n : Scripted) (id : Nat) : Confined id (meddle n id) :=
  (confined_addConstant _).bind fun _ => .lift_bind fun _ hold => Node.confined_mapOutput hold

theorem confined_splitSignal (x : Signal) : Confined id (splitSignal x) := by
  unfold splitSignal
  induction List.range x.size with
  | nil => exact .pure []
  | cons i rest ih =>
    rw [List.foldrM_cons]
    exact ih.bind fun _ => .lift_bind fun _ _ => (confined_addConstant _).bind fun _ => .pure _

theorem confined_copyScripted (n : Scripted) (id : Nat) : Confined id (copyScripted n id) := by
  unfold copyScripted
  cases n.copying with
  | faithful => exact confined_copyScript n n id
  | unmapped => exact (confined_addConstant _).bind fun _ => .pure _
  | leading =>
    refine .lift_bind fun whole hwhole => .lift_bind fun old hold => (confined_addConstant _).bind fun w => ?_
    refine .mapOutput (Node.own_of_spans fun s hs => ?_)
    -- The first two elements of an output are elements of it still.
    obtain ⟨u, hu, houtlet, -⟩ := Wire.mem_slice hold hs
    exact (congrArg Outlet.node houtlet).trans (Node.node_of_outputWire hwhole u hu)
  | fails => exact .throw _

theorem confined_refineScripted (n : Scripted) (id : Nat) : Confined id (refineScripted n id) := by
  unfold refineScripted
  cases n.refining with
  | declines => exact .pure false
  | fails => exact (confined_meddle n id).bind fun _ => .throw _
  | retracts => exact (confined_meddle n id).bind fun _ => .pure false
  | pretends => exact .pure true
  | splits =>
    refine (Confined.forM fun p _ => ?_).bind fun _ => .pure true
    exact (confined_splitSignal p.1).bind fun _ => .lift_bind fun _ hold => .lift_bind fun _ _ =>
      Node.confined_mapOutput hold
  | halves =>
    refine (Confined.forM fun p _ => ?_).bind fun _ => .pure true
    refine (confined_addConstant p.1).bind fun w => .lift_bind fun front _ => .lift_bind fun back _ => ?_
    exact .lift_bind fun _ hold => .lift_bind fun _ _ => Node.confined_mapOutput hold
  | stack depth =>
    cases depth with
    | zero => exact .pure false
    | succ depth => exact (confined_copyScript n _ id).bind fun _ => .pure true
  | forwards =>
    refine (Confined.mapM fun w => .remap w).bind fun ws => (Confined.forM fun p _ => ?_).bind fun _ => .pure true
    exact .lift_bind fun _ hold => Node.confined_mapOutput hold

theorem confined : Refinable.Confined AnyNode := by
  intro n id
  cases n with
  | builtin n => exact ⟨Builtin.confined_copy builtin n id, Builtin.confined_refine builtin n id⟩
  | scripted n => exact ⟨confined_copyScripted n id, confined_refineScripted n id⟩

/-- A script that does not refine the node never does, wherever the node stands. -/
theorem refineScripted_ne {n : Scripted} {id : Nat} {t : Transformer AnyNode}
    (h : n.refining = .declines ∨ n.refining = .fails ∨ n.refining = .retracts) :
    (runFrom t (refineScripted n id)).1 ≠ .ok true := by
  unfold refineScripted
  rcases h with h | h | h <;> rw [h]
  · nofun
  all_goals
    dsimp only
    rw [runFrom_bind]
    rcases runFrom t (meddle n id) with ⟨_ | _, _⟩ <;> nofun

end AnyNode
end Dataflow
