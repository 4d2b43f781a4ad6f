import Dataflow.Model.Refinement
import Dataflow.Proofs.Action

/-! # The loop of passes

How the loop of refinement goes on after a pass, whatever the nodes do, and what it hands on from one pass to
the next. -/

namespace Dataflow
namespace Refinement
variable {κ : Type} [Refinable κ] {m m' source : Model κ} {f : OutputMap} {map : Option OutputMap}
  {limit passes : Nat} {r : Refinement κ}

theorem loop_of_plain (hpass : pass m = .ok (m', f, false)) :
    loop limit m map passes = (do return (some (m', ← compose map f), passes, true)) := by
  cases limit <;> rw [loop.eq_def] <;> simp [hpass]

theorem loop_of_used_up (hpass : pass m = .ok (m', f, true)) :
    loop 0 m map passes = .ok (map.map (m, ·), passes, false) := by
  rw [loop.eq_def]
  simp [hpass]

theorem loop_of_refined (hpass : pass m = .ok (m', f, true)) :
    loop (limit + 1) m map passes = (do loop limit m' (some (← compose map f)) (passes + 1)) := by
  rw [loop.eq_def]
  simp [hpass]

/-- How a loop that succeeds went on after its first pass: that pass refined nothing, or found the limit
    used up, or another one followed. -/
theorem loop_inv {result : Option (Model κ × OutputMap) × Nat × Bool}
    (h : loop limit source map passes = .ok result) : ∃ m' f,
      (pass source = .ok (m', f, false) ∧ ∃ g, compose map f = .ok g ∧ result = (some (m', g), passes, true)) ∨
      (pass source = .ok (m', f, true) ∧ limit = 0 ∧ result = (map.map (source, ·), passes, false)) ∨
      (pass source = .ok (m', f, true) ∧ ∃ left g, limit = left + 1 ∧ compose map f = .ok g ∧
        loop left m' (some g) (passes + 1) = .ok result) := by
  rw [loop.eq_def] at h
  obtain ⟨⟨m', f, modified⟩, hpass, h⟩ := Result.bind_eq_ok.mp h
  refine ⟨m', f, ?_⟩
  cases modified with
  | false =>
    obtain ⟨g, hg, h⟩ := Result.bind_eq_ok.mp h
    cases h
    exact .inl ⟨hpass, g, hg, rfl⟩
  | true =>
    cases limit with
    | zero =>
      cases h
      exact .inr (.inl ⟨hpass, rfl, rfl⟩)
    | succ left =>
      obtain ⟨g, hg, h⟩ := Result.bind_eq_ok.mp h
      exact .inr (.inr ⟨hpass, left, g, rfl, hg, h⟩)

/-- What a pass hands on, of its source and the map that led there, a loop hands on. -/
theorem loop_keeps {I : Model κ → Option OutputMap → Prop}
    (step : ∀ source map m' f modified g, I source map → pass source = .ok (m', f, modified) → compose map f = .ok g →
      I m' (some g))
    {passes' : Nat} {converged : Bool} {found : Option (Model κ × OutputMap)}
    (h : I source map) (hloop : loop limit source map passes = .ok (found, passes', converged)) :
    ∀ p ∈ found, I p.1 (some p.2) := by
  induction limit generalizing source map passes with
  | zero =>
    obtain ⟨m', f, ⟨hpass, g, hg, hresult⟩ | ⟨-, -, hresult⟩ | ⟨-, _, _, hlimit, -⟩⟩ := loop_inv hloop
    · cases hresult
      rintro p ⟨⟩
      exact step _ _ _ _ _ _ h hpass hg
    -- The pass that finds the limit used up is discarded, and its source kept.
    · cases hresult
      intro p hp
      obtain ⟨f, rfl, rfl⟩ := Option.map_eq_some_iff.mp hp
      exact h
    · cases hlimit
  | succ limit ih =>
    obtain ⟨m', f, ⟨hpass, g, hg, hresult⟩ | ⟨-, hlimit, -⟩ | ⟨hpass, left, g, hlimit, hg, hrest⟩⟩ := loop_inv hloop
    · cases hresult
      rintro p ⟨⟩
      exact step _ _ _ _ _ _ h hpass hg
    · cases hlimit
    · cases hlimit
      exact ih (step _ _ _ _ _ _ h hpass hg) hrest

/-- Where the model and the map of a refinement come from: the loop of passes, or a copy if no pass counted. -/
theorem run_inv (h : run limit m = .ok r) :
    loop limit m none 0 = .ok (some (r.model, r.outputMap), r.passes, r.converged) ∨
      loop limit m none 0 = .ok (none, r.passes, r.converged) ∧ copy m = .ok (r.model, r.outputMap) := by
  unfold run at h
  obtain ⟨⟨found, passes, converged⟩, hloop, h⟩ := Result.bind_eq_ok.mp h
  cases found with
  | some p =>
    cases h
    exact .inl hloop
  | none =>
    obtain ⟨⟨m', f⟩, hcopy, h⟩ := Result.bind_eq_ok.mp h
    cases h
    exact .inr ⟨hloop, hcopy⟩

/-- What passes hand on, and a copy has, refinement hands on. -/
theorem run_keeps {I : Model κ → Option OutputMap → Prop}
    (step : ∀ source map m' f modified g, I source map → pass source = .ok (m', f, modified) → compose map f = .ok g →
      I m' (some g))
    (copied : ∀ m' f, copy m = .ok (m', f) → I m' (some f)) (start : I m none) (hrun : run limit m = .ok r) :
    I r.model (some r.outputMap) := by
  rcases run_inv hrun with hloop | ⟨-, hcopy⟩
  · exact loop_keeps step start hloop _ rfl
  · exact copied _ _ hcopy

end Refinement
end Dataflow
