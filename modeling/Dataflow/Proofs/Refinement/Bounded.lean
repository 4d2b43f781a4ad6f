import Dataflow.Proofs.Refinement.Typing

/-! # Passes up to a limit

Refinement follows the passes that lead from model to model up to the first one that refines nothing, but
not beyond its limit. The pass behind the limit is attempted all the same, to see whether it would refine
something, and is discarded if it does. So it is whatever the nodes do, and also if they never cease to be
refined, as long as the maps of the passes can be put together. This they can be where nodes map their outputs to
wires of the right types and no sum of sizes wraps around, but not always. -/

namespace Dataflow.Refinement

variable {κ : Type} [Refinable κ] {m m' source : Model κ} {map : Option OutputMap} {f : OutputMap}
    {maps : List OutputMap} {limit k passes : Nat} {modified : Bool}

/-! ### The maps of several passes -/

/-- The map of all passes, when those with the maps `maps` follow the ones that `map` is the map of. -/
def composeAll (map : Option OutputMap) (maps : List OutputMap) : Result (Option OutputMap) :=
  maps.foldlM (fun map f => do return some (← compose map f)) map

theorem composeAll_cons : composeAll map (f :: maps) = (do composeAll (some (← compose map f)) maps) := by
  rw [composeAll, List.foldlM_cons, bind_assoc]
  rfl

theorem composeAll_some : composeAll (some f) maps = (do return some (← f.andThenAll maps)) := by
  induction maps generalizing f with
  | nil => rfl
  | cons g rest ih =>
    rw [composeAll_cons, OutputMap.andThenAll_cons, bind_assoc]
    exact bind_congr fun h => ih

theorem composeAll_none : composeAll none (f :: maps) = (do return some (← f.andThenAll maps)) :=
  composeAll_cons.trans composeAll_some

/-! ### Passes that follow one another -/

/-- The model that as many passes as `i` lead to from `m`, if all of them refine something. Refinement attempts a pass
    on it if `i` is not above the limit. -/
inductive Attempted (m : Model κ) : (i : Nat) → (source : Model κ) → Prop
  | first : Attempted m 0 m
  | next {i : Nat} {source m' : Model κ} {f : OutputMap} (before : Attempted m i source)
      (refined : pass source = .ok (m', f, true)) : Attempted m (i + 1) m'

/-- Passes from `m` on, each of the model that the one before it led to. Those that refinement up to a limit
    attempts succeed: the first one, and up to the limit every one that only such passes as refined something
    come before. -/
structure Passes (m : Model κ) (limit : Nat) where
  models : Nat → Model κ
  maps : Nat → OutputMap
  refined : Nat → Bool
  start : models 0 = m
  succeeds : ∀ i ≤ limit, (∀ j < i, refined j = true) → pass (models i) = .ok (models (i + 1), maps i, refined i)

namespace Passes

/-- The map of the first pass and of `k` more. -/
def composed (p : Passes m limit) (k : Nat) : Result OutputMap :=
  (p.maps 0).andThenAll ((List.range k).map fun i => p.maps (i + 1))

theorem first (p : Passes m limit) : pass m = .ok (p.models 1, p.maps 0, p.refined 0) := by
  have hpass := p.succeeds 0 (Nat.zero_le limit) (fun _ hj => absurd hj (Nat.not_lt_zero _))
  rwa [p.start] at hpass

/-- The first pass is the last one. -/
def last (h : pass m = .ok (m', f, modified)) (hlast : modified = true → limit = 0) : Passes m limit where
  models
    | 0 => m
    | _ + 1 => m'
  maps _ := f
  refined _ := modified
  start := rfl
  succeeds i hi hrefined := by
    cases i with
    | zero => exact h
    | succ i => exact absurd hi (by simp [hlast (hrefined 0 i.succ_pos)])

/-- Passes follow one that refined something. -/
def cons (h : pass m = .ok (m', f, true)) (p : Passes m' limit) : Passes m (limit + 1) where
  models
    | 0 => m
    | i + 1 => p.models i
  maps
    | 0 => f
    | i + 1 => p.maps i
  refined
    | 0 => true
    | i + 1 => p.refined i
  start := rfl
  succeeds i hi hrefined := by
    cases i with
    | zero =>
      rw [← p.start] at h
      exact h
    | succ i => exact p.succeeds i (Nat.le_of_succ_le_succ hi) fun j hj => hrefined (j + 1) (Nat.succ_lt_succ hj)

/-- The passes behind the first one, which refined something. -/
def tail (p : Passes m (limit + 1)) (h : p.refined 0 = true) : Passes (p.models 1) limit where
  models i := p.models (i + 1)
  maps i := p.maps (i + 1)
  refined i := p.refined (i + 1)
  start := rfl
  succeeds i hi hrefined := p.succeeds (i + 1) (Nat.succ_le_succ hi) fun j hj => by
    cases j with
    | zero => exact h
    | succ j => exact hrefined j (Nat.lt_of_succ_lt_succ hj)

theorem composeAll_range (p : Passes m limit) :
    composeAll none ((List.range (k + 1)).map p.maps) = (do return some (← p.composed k)) := by
  rw [List.range_succ_eq_map, List.map_cons, List.map_map]
  exact composeAll_none

/-- Where no pass that refinement attempts fails, there are the passes. -/
theorem nonempty (h : ∀ i ≤ limit, ∀ source, Attempted m i source → ∃ r, pass source = .ok r) :
    Nonempty (Passes m limit) := by
  obtain ⟨⟨m', f, modified⟩, hpass⟩ := h 0 (Nat.zero_le limit) m .first
  induction limit generalizing m m' f modified with
  | zero => exact ⟨last hpass fun _ => rfl⟩
  | succ limit ih =>
    cases modified with
    | false => exact ⟨last hpass (by simp)⟩
    | true =>
      have hbehind : ∀ i source, Attempted m' i source → Attempted m (i + 1) source := by
        intro i source hi
        induction hi with
        | first => exact .next .first hpass
        | next _ hrefined hi => exact .next hi hrefined
      have hrest : ∀ i ≤ limit, ∀ source, Attempted m' i source → ∃ r, pass source = .ok r := fun i hi source hsource =>
        h (i + 1) (Nat.succ_le_succ hi) source (hbehind i source hsource)
      obtain ⟨⟨m'', g, modified⟩, hpass'⟩ := hrest 0 (Nat.zero_le limit) m' .first
      obtain ⟨p⟩ := ih hrest m'' g modified hpass'
      exact ⟨p.cons hpass⟩

/-- The maps can be put together if no node maps an output to a wire of another type and no sum of sizes wraps
    around. -/
theorem exists_composed (own : Refinable.Confined κ) (honest : Refinable.Honest κ) (p : Passes m limit) (hk : k ≤ limit)
    (hrefined : ∀ j < k, p.refined j = true) (hexact : ∀ j ≤ k, (p.maps j).Exact) :
    ∃ g, p.composed k = .ok g ∧ OutputMap.Typed m (p.models (k + 1)) g := by
  induction k with
  | zero => exact ⟨p.maps 0, rfl, typed_pass own honest p.first (hexact 0 (Nat.le_refl 0))⟩
  | succ k ih =>
    obtain ⟨g, hg, htyped⟩ := ih (Nat.le_of_succ_le hk) (fun j hj => hrefined j (Nat.lt_succ_of_lt hj))
      fun j hj => hexact j (Nat.le_succ_of_le hj)
    have hpass := p.succeeds (k + 1) hk hrefined
    obtain ⟨hnext, htyped⟩ := htyped.andThen (typed_pass own honest hpass (hexact (k + 1) (Nat.le_refl _)))
    refine ⟨_, ?_, htyped⟩
    rw [composed, List.range_succ, List.map_append]
    show (p.maps 0).andThenAll (_ ++ [_]) = _
    rw [OutputMap.andThenAll_concat, ← composed, hg]
    exact hnext

end Passes

/-! ### The loop -/

/-- A loop ends with the first pass that refines nothing. -/
theorem loop_of_settled (p : Passes m limit) (hk : k ≤ limit) (hrefined : ∀ j < k, p.refined j = true)
    (hsettled : p.refined k = false) : loop limit m map passes = (do
      return ((← composeAll map ((List.range (k + 1)).map p.maps)).map (p.models (k + 1), ·), passes + k, true)) := by
  induction k generalizing m limit map passes with
  | zero =>
    rw [loop_of_plain (hsettled ▸ p.first)]
    simp [composeAll]
  | succ k ih =>
    obtain ⟨limit, rfl⟩ := Nat.exists_eq_succ_of_ne_zero (Nat.ne_of_gt (Nat.lt_of_lt_of_le k.succ_pos hk))
    have hfirst : p.refined 0 = true := hrefined 0 k.succ_pos
    rw [loop_of_refined (hfirst ▸ p.first), List.range_succ_eq_map, List.map_cons, List.map_map, composeAll_cons,
      bind_assoc]
    refine bind_congr fun g => (ih (p.tail hfirst) (Nat.le_of_succ_le_succ hk)
      (fun j hj => hrefined (j + 1) (Nat.succ_lt_succ hj)) hsettled).trans ?_
    rw [Nat.succ_add_eq_add_succ]
    rfl

/-- A loop in which every pass refines something ends with the one that finds the limit used up. -/
theorem loop_of_unsettled (p : Passes m limit) (hrefined : ∀ j ≤ limit, p.refined j = true) :
    loop limit m map passes = (do
      return ((← composeAll map ((List.range limit).map p.maps)).map (p.models limit, ·), passes + limit, false)) := by
  induction limit generalizing m map passes with
  | zero =>
    rw [loop_of_used_up (hrefined 0 (Nat.le_refl 0) ▸ p.first)]
    simp [composeAll, p.start]
  | succ limit ih =>
    have hfirst : p.refined 0 = true := hrefined 0 (Nat.zero_le _)
    rw [loop_of_refined (hfirst ▸ p.first), List.range_succ_eq_map, List.map_cons, List.map_map, composeAll_cons,
      bind_assoc]
    refine bind_congr fun g => (ih (p.tail hfirst) fun j hj => hrefined (j + 1) (Nat.succ_le_succ hj)).trans ?_
    rw [Nat.succ_add_eq_add_succ]
    rfl

/-! ### What is attempted -/

/-- The loop, noting what it attempts a pass on. -/
def notingLoop : (left : Nat) → (source : Model κ) → (map : Option OutputMap) → (passes : Nat) →
    ExceptT Error (StateM (List (Model κ))) (Option (Model κ × OutputMap) × Nat × Bool)
  | left, source, map, passes => do
    modify (· ++ [source])
    let (refined, g, modified) ← pass source
    if !modified then
      return (some (refined, ← compose map g), passes, true)
    else match left with
      | 0 => return (map.map (source, ·), passes, false)
      | left + 1 => notingLoop left refined (some (← compose map g)) (passes + 1)

/-- Refinement, noting what it attempts a pass on. -/
def notingRun (limit : Nat) (model : Model κ) : ExceptT Error (StateM (List (Model κ))) (Refinement κ) := do
  let (found, passes, converged) ← notingLoop limit model none 0
  match found with
  | some (refined, map) => return ⟨refined, passes, converged, map⟩
  | none =>
    let (refined, map) ← copy model
    return ⟨refined, passes, converged, map⟩

variable {noted : List (Model κ)}

/-- Noting changes nothing, and one pass more is attempted at the most than may refine something. -/
theorem notingLoop_spec : ∃ attempted, attempted.length ≤ limit + 1 ∧
    runFrom noted (notingLoop limit m map passes) = (loop limit m map passes, noted ++ attempted) := by
  induction limit generalizing m map passes noted with
  | zero =>
    refine ⟨[m], Nat.le_refl 1, ?_⟩
    rw [notingLoop.eq_def, loop.eq_def]
    rcases hpass : pass m with e | ⟨m', g, _ | _⟩
    · simp [runFrom_bind, hpass]
    · rcases hg : compose map g <;> simp [runFrom_bind, hpass, hg, -bind_pure_comp]
    · simp [runFrom_bind, hpass]
  | succ limit ih =>
    rw [notingLoop.eq_def, loop.eq_def]
    rcases hpass : pass m with e | ⟨m', g, _ | _⟩
    · exact ⟨[m], by simp, by simp [runFrom_bind, hpass]⟩
    · refine ⟨[m], by simp, ?_⟩
      rcases hg : compose map g <;> simp [runFrom_bind, hpass, hg, -bind_pure_comp]
    · rcases hg : compose map g with e | g'
      · exact ⟨[m], by simp, by simp [runFrom_bind, hpass, hg]⟩
      · obtain ⟨attempted, hlength, hrun⟩ := @ih m' (some g') (passes + 1) (noted ++ [m])
        exact ⟨m :: attempted, by simpa using hlength, by simp [runFrom_bind, hpass, hg, hrun]⟩

theorem notingRun_spec : ∃ attempted, attempted.length ≤ limit + 1 ∧
    runFrom noted (notingRun limit m) = (run limit m, noted ++ attempted) := by
  obtain ⟨attempted, hlength, hrun⟩ := @notingLoop_spec _ _ m none limit 0 noted
  refine ⟨attempted, hlength, ?_⟩
  rw [notingRun, run, runFrom_bind, hrun]
  rcases loop limit m none 0 with e | ⟨_ | ⟨m', f⟩, passes, converged⟩
  · rfl
  · rcases copy m <;> simp [runFrom_bind, -bind_pure_comp]
  · rfl

/-! ### Refinement -/

/-- Where no pass that is attempted fails, refinement ends with the first one that refines nothing, if it is
    not behind the limit; else it ends with the model that as many passes as the limit have led to, or with a
    copy of the first one if that is none. The map is that of these passes put together, if it can be. In any case
    no more than one pass behind the limit is attempted, whatever becomes of it. -/
theorem run_bounded (m : Model κ) (limit : Nat) :
    ((∀ i ≤ limit, ∀ source, Attempted m i source → ∃ r, pass source = .ok r) → Nonempty (Passes m limit)) ∧
    (∀ p : Passes m limit,
      (∀ k ≤ limit, (∀ j < k, p.refined j = true) → p.refined k = false → ∀ f, p.composed k = .ok f →
        run limit m = .ok ⟨p.models (k + 1), k, true, f⟩) ∧
      ((∀ j ≤ limit, p.refined j = true) →
        (limit = 0 → ∀ copied f, copy m = .ok (copied, f) → run limit m = .ok ⟨copied, 0, false, f⟩) ∧
        ∀ last, limit = last + 1 → ∀ f, p.composed last = .ok f →
          run limit m = .ok ⟨p.models limit, limit, false, f⟩)) ∧
    (runFrom [] (notingRun limit m)).1 = run limit m ∧ (runFrom [] (notingRun limit m)).2.length ≤ limit + 1 := by
  refine ⟨Passes.nonempty, fun p => ⟨fun k hk hrefined hsettled f hf => ?_, fun hrefined => ⟨?_, ?_⟩⟩, ?_⟩
  · rw [run, loop_of_settled p hk hrefined hsettled, p.composeAll_range, hf]
    simp
  · rintro rfl copied f hcopy
    rw [run, loop_of_unsettled p hrefined]
    simp [composeAll, hcopy]
  · rintro last rfl f hf
    rw [run, loop_of_unsettled p hrefined, p.composeAll_range, hf]
    simp
  · obtain ⟨attempted, hlength, hrun⟩ := @notingRun_spec _ _ m limit []
    rw [hrun]
    exact ⟨rfl, hlength⟩

/-- A node that turns into itself three times before it is split, read by a predictor, and a node that fails. -/
def layered : Model AnyNode where
  nodes := [
    .scripted ⟨[], [.real [1.0, 2.0, 3.0]], [(.real, 3)], .faithful, .stack 3⟩,
    .builtin (.linear (.ofSpan (.whole ⟨0, 0⟩ .real 3)) ⟨[1.0, 2.0, 3.0], 0.5⟩),
    .scripted ⟨[.ofSpan (.whole ⟨1, 1⟩ .real 3)], [.real [1.0]], [(.real, 1)], .faithful, .fails⟩]

/-- Four passes refine something and the fifth nothing, so that a limit of four is enough, and two is not. -/
theorem layered_bounded : ∃ (p : Passes layered 4) (q : Passes layered 2) (f g : OutputMap),
    (∀ j < 4, p.refined j = true) ∧ p.refined 4 = false ∧ p.composed 4 = .ok f ∧
    run 4 layered = .ok ⟨p.models 5, 4, true, f⟩ ∧
    (∀ j ≤ 2, q.refined j = true) ∧ q.composed 1 = .ok g ∧ run 2 layered = .ok ⟨q.models 2, 2, false, g⟩ ∧
    (runFrom [] (notingRun 2 layered)).2.length ≤ 3 := by
  have hpasses : (do
      let (m₁, f₀, b₀) ← pass layered
      let (m₂, f₁, b₁) ← pass m₁
      let (m₃, f₂, b₂) ← pass m₂
      let (m₄, f₃, b₃) ← pass m₃
      let (_, f₄, b₄) ← pass m₄
      return ([b₀, b₁, b₂, b₃, b₄], [f₀, f₁, f₂, f₃, f₄].all fun f => decide f.Exact)) =
      .ok ([true, true, true, true, false], true) := by decide +kernel
  obtain ⟨⟨m₁, f₀, b₀⟩, h₀, hpasses⟩ := Result.bind_eq_ok.mp hpasses
  obtain ⟨⟨m₂, f₁, b₁⟩, h₁, hpasses⟩ := Result.bind_eq_ok.mp hpasses
  obtain ⟨⟨m₃, f₂, b₂⟩, h₂, hpasses⟩ := Result.bind_eq_ok.mp hpasses
  obtain ⟨⟨m₄, f₃, b₃⟩, h₃, hpasses⟩ := Result.bind_eq_ok.mp hpasses
  obtain ⟨⟨m₅, f₄, b₄⟩, h₄, hpasses⟩ := Result.bind_eq_ok.mp hpasses
  obtain ⟨hrefined, hexact⟩ := Prod.mk.inj (Except.ok.inj hpasses)
  cases hrefined
  have hexact : f₀.Exact ∧ f₁.Exact ∧ f₂.Exact ∧ f₃.Exact ∧ f₄.Exact := by simpa using hexact
  obtain ⟨e₀, e₁, e₂, e₃, e₄⟩ := hexact
  let p : Passes layered 4 := .cons h₀ (.cons h₁ (.cons h₂ (.cons h₃ (.last h₄ (by simp)))))
  let q : Passes layered 2 := .cons h₀ (.cons h₁ (.last h₂ (fun _ => rfl)))
  have hp : ∀ j < 4, p.refined j = true := by
    rintro (_ | _ | _ | _ | j) hj <;> first | rfl | omega
  have hq : ∀ j ≤ 2, q.refined j = true := by rintro (_ | _ | _ | j) - <;> rfl
  have hpexact : ∀ j ≤ 4, (p.maps j).Exact := by
    rintro (_ | _ | _ | _ | j) - <;> assumption
  have hqexact : ∀ j ≤ 1, (q.maps j).Exact := by
    rintro (_ | _ | j) - <;> assumption
  obtain ⟨-, hsettled, -⟩ := run_bounded layered 4
  obtain ⟨-, hunsettled, -, hattempted⟩ := run_bounded layered 2
  obtain ⟨f, hf, -⟩ := p.exists_composed AnyNode.confined AnyNode.honest (Nat.le_refl 4) hp hpexact
  obtain ⟨g, hg, -⟩ := q.exists_composed AnyNode.confined AnyNode.honest (k := 1) (by decide)
    (fun j hj => hq j (by omega)) hqexact
  have hrun := (hsettled p).1 4 (Nat.le_refl 4) hp rfl f hf
  have hrun' := ((hunsettled q).2 hq).2 1 rfl g hg
  exact ⟨p, q, f, g, hp, rfl, hf, hrun, hq, hg, hrun', hattempted⟩

/-- A node that is split when it is refined and cannot be copied. -/
def uncopied : Model AnyNode := ⟨[.scripted ⟨[], [.real [1.0, 2.0]], [(.real, 2)], .fails, .splits⟩]⟩

/-- Refinement may fail though no pass does: the map of a pass may lead elements of one type to elements of two, and
    where no pass may refine anything the model may not be copied. -/
theorem refinement_fails_between_passes :
    (∃ m₁ f₁ m₂ f₂, pass ⟨[Wayward.divides]⟩ = .ok (m₁, f₁, true) ∧ pass m₁ = .ok (m₂, f₂, false) ∧
      run 1 ⟨[Wayward.divides]⟩ = .error (.typeMismatch "real" "int")) ∧
    (∃ m' f, pass uncopied = .ok (m', f, true)) ∧ run 0 uncopied = .error (.transform "copy not supported") := by
  have fails {κ : Type} {r : Result (Refinement κ)} {e : Error} (h : r.map (·.passes) = .error e) : r = .error e := by
    cases r <;> cases h
    rfl
  refine ⟨?_, ?_, fails (by decide +kernel)⟩
  · have hpasses : (do
        let (m₁, _, b₁) ← pass ⟨[Wayward.divides]⟩
        let (_, _, b₂) ← pass m₁
        return [b₁, b₂]) = .ok [true, false] := by decide +kernel
    obtain ⟨⟨m₁, f₁, b₁⟩, h₁, hpasses⟩ := Result.bind_eq_ok.mp hpasses
    obtain ⟨⟨m₂, f₂, b₂⟩, h₂, hpasses⟩ := Result.bind_eq_ok.mp hpasses
    cases hpasses
    exact ⟨m₁, f₁, m₂, f₂, h₁, h₂, fails (by decide +kernel)⟩
  · have hpass : (do
        let (_, _, b) ← pass uncopied
        return b) = .ok true := by decide +kernel
    obtain ⟨⟨m', f, _⟩, h, hpass⟩ := Result.bind_eq_ok.mp hpass
    cases hpass
    exact ⟨m', f, h⟩

end Dataflow.Refinement
