import Dataflow.Error
import Mathlib.Data.List.Forall2

/-! # Running actions

An action changes a state and may fail; what was changed before a failure stays changed. Evaluations,
transformations, readings and writings are actions. This file says what the parts that actions are made
of do to a state, and when loops over lists succeed. -/

namespace Dataflow

section
variable {σ α β : Type} {s t : σ}

/-- What an action gives when it starts in `s`, and the state that it leaves. -/
def runFrom (s : σ) (x : ExceptT Error (StateM σ) α) : Result α × σ := x.run.run s

@[simp] theorem runFrom_pure (a : α) : runFrom s (pure a) = (.ok a, s) := rfl

@[simp] theorem runFrom_throw (e : Error) : runFrom s (throw e : ExceptT Error (StateM σ) α) = (.error e, s) := rfl

@[simp] theorem runFrom_get : runFrom s get = (.ok s, s) := rfl

@[simp] theorem runFrom_set : runFrom s (set t : ExceptT Error (StateM σ) PUnit) = (.ok ⟨⟩, t) := rfl

@[simp] theorem runFrom_modify (f : σ → σ) :
    runFrom s (modify f : ExceptT Error (StateM σ) PUnit) = (.ok ⟨⟩, f s) := rfl

@[simp] theorem runFrom_lift (r : Result α) : runFrom s (liftM r : ExceptT Error (StateM σ) α) = (r, s) := rfl

theorem runFrom_bind (x : ExceptT Error (StateM σ) α) (f : α → ExceptT Error (StateM σ) β) :
    runFrom s (x >>= f) = match runFrom s x with
      | (.ok a, t) => runFrom t (f a)
      | (.error e, t) => (.error e, t) := by
  unfold runFrom
  rw [ExceptT.run_bind, StateT.run_bind]
  rcases x.run.run s with ⟨_ | a, t⟩ <;> rfl

theorem runFrom_bind_ok {x : ExceptT Error (StateM σ) α} {f : α → ExceptT Error (StateM σ) β} {a : α}
    (h : runFrom s x = (.ok a, t)) : runFrom s (x >>= f) = runFrom t (f a) := by
  rw [runFrom_bind, h]

theorem runFrom_bind_error {x : ExceptT Error (StateM σ) α} {f : α → ExceptT Error (StateM σ) β} {e : Error}
    (h : runFrom s x = (.error e, t)) : runFrom s (x >>= f) = (.error e, t) := by
  rw [runFrom_bind, h]

theorem runFrom_lift_ok {r : Result α} {f : α → ExceptT Error (StateM σ) β} {a : α} (h : r = .ok a) :
    runFrom s (liftM r >>= f) = runFrom s (f a) := by
  rw [h, runFrom_bind_ok (runFrom_lift _)]

/-- What was got from a result first, when an action that starts with it succeeds. -/
theorem runFrom_lift_inv {r : Result α} {f : α → ExceptT Error (StateM σ) β} {b : β}
    (h : runFrom s (liftM r >>= f) = (.ok b, t)) : ∃ a, r = .ok a ∧ runFrom s (f a) = (.ok b, t) := by
  rw [runFrom_bind, runFrom_lift] at h
  rcases r with e | a
  · cases h
  · exact ⟨a, rfl, h⟩

/-- What an action did first, when one that starts with it succeeds. -/
theorem runFrom_bind_inv {x : ExceptT Error (StateM σ) α} {f : α → ExceptT Error (StateM σ) β} {b : β}
    (h : runFrom s (x >>= f) = (.ok b, t)) : ∃ a u, runFrom s x = (.ok a, u) ∧ runFrom u (f a) = (.ok b, t) := by
  rw [runFrom_bind] at h
  rcases hx : runFrom s x with ⟨e | a, u⟩
  · rw [hx] at h
    cases h
  · rw [hx] at h
    exact ⟨a, u, rfl, h⟩

theorem runFrom_forM_lift (f : α → Result Unit) (xs : List α) :
    runFrom s (xs.forM fun x => (liftM (f x) : ExceptT Error (StateM σ) Unit)) = (xs.forM f, s) := by
  simp only [List.forM_eq_forM]
  induction xs with
  | nil => rfl
  | cons x rest ih =>
    rw [List.forM_cons, List.forM_cons, runFrom_bind, runFrom_lift]
    cases f x
    · rfl
    · exact ih

/-- What holds before a loop and is handed on by every turn holds after it, if no turn fails. -/
theorem runFrom_forM {P : Nat → σ → Prop} {f : α → ExceptT Error (StateM σ) Unit} {xs : List α}
    (turn : ∀ k x s, xs[k]? = some x → P k s → ∃ t, runFrom s (f x) = (.ok (), t) ∧ P (k + 1) t) (start : P 0 s) :
    ∃ t, runFrom s (xs.forM f) = (.ok (), t) ∧ P xs.length t := by
  rw [List.forM_eq_forM]
  induction xs generalizing P s with
  | nil => exact ⟨s, rfl, start⟩
  | cons x rest ih =>
    obtain ⟨mid, hmid, hp⟩ := turn 0 x s rfl start
    obtain ⟨t, ht, hp⟩ := ih (P := fun k => P (k + 1)) (fun k => turn (k + 1)) hp
    exact ⟨t, by rw [List.forM_cons, runFrom_bind_ok hmid, ht], hp⟩

/-- What holds before a loop and is handed on by every turn that succeeds holds after it, if it succeeds. -/
theorem runFrom_forM_inv {P : Nat → σ → Prop} {f : α → ExceptT Error (StateM σ) Unit} {xs : List α}
    (turn : ∀ k x s t, xs[k]? = some x → P k s → runFrom s (f x) = (.ok (), t) → P (k + 1) t) (start : P 0 s)
    (h : runFrom s (xs.forM f) = (.ok (), t)) : P xs.length t := by
  rw [List.forM_eq_forM] at h
  induction xs generalizing P s with
  | nil =>
    cases h
    exact start
  | cons x rest ih =>
    rw [List.forM_cons] at h
    obtain ⟨_, mid, hmid, h⟩ := runFrom_bind_inv h
    exact ih (P := fun k => P (k + 1)) (fun k => turn (k + 1)) (turn 0 x s mid rfl start hmid) h

/-- An action for each element of a list gives as many answers. -/
theorem length_of_mapM {f : α → ExceptT Error (StateM σ) β} {xs : List α} {ys : List β}
    (h : runFrom s (xs.mapM f) = (.ok ys, t)) : ys.length = xs.length := by
  induction xs generalizing s ys with
  | nil =>
    cases h
    rfl
  | cons x rest ih =>
    rw [List.mapM_cons] at h
    obtain ⟨y, mid, -, h⟩ := runFrom_bind_inv h
    obtain ⟨zs, last, hrest, h⟩ := runFrom_bind_inv h
    cases h
    rw [List.length_cons, List.length_cons, ih hrest]

/-- Loops whose turns do the same, in all states that the first one comes to, do the same. -/
theorem runFrom_forM_congr {P : Nat → σ → Prop} {f g : α → ExceptT Error (StateM σ) Unit} {xs : List α}
    (same : ∀ k x s, xs[k]? = some x → P k s → runFrom s (f x) = runFrom s (g x))
    (turn : ∀ k x s t, xs[k]? = some x → P k s → runFrom s (f x) = (.ok (), t) → P (k + 1) t) (start : P 0 s) :
    runFrom s (xs.forM f) = runFrom s (xs.forM g) := by
  simp only [List.forM_eq_forM]
  induction xs generalizing P s with
  | nil => rfl
  | cons x rest ih =>
    rw [List.forM_cons, List.forM_cons, runFrom_bind, runFrom_bind, ← same 0 x s rfl start]
    rcases hx : runFrom s (f x) with ⟨_ | _, mid⟩
    · rfl
    · exact ih (P := fun k => P (k + 1)) (fun k => same (k + 1)) (fun k => turn (k + 1)) (turn 0 x s mid rfl start hx)

theorem runFrom_tryCatch (x : ExceptT Error (StateM σ) α) (f : Error → ExceptT Error (StateM σ) α) :
    runFrom s (tryCatch x f) = match runFrom s x with
      | (.ok a, t) => (.ok a, t)
      | (.error e, t) => runFrom t (f e) := by
  unfold runFrom
  rw [ExceptT.run_tryCatch, StateT.run_bind]
  rcases x.run.run s with ⟨_ | a, t⟩ <;> rfl

end

/-! ### What actions keep -/

/-- From states with a property, an action comes to states with it, whether it succeeds or fails. -/
def Keeps {σ α : Type} (P : σ → Prop) (x : ExceptT Error (StateM σ) α) : Prop := ∀ s, P s → P (runFrom s x).2

namespace Keeps
variable {σ α β : Type} {P : σ → Prop} {x : ExceptT Error (StateM σ) α} {f : α → ExceptT Error (StateM σ) β}

theorem pure (a : α) : Keeps P (Pure.pure a : ExceptT Error (StateM σ) α) := fun _ h => h

theorem lift (r : Result α) : Keeps P (liftM r : ExceptT Error (StateM σ) α) := fun _ h => h

/-- What follows an action need keep the property only for what the action gives. -/
theorem bind (hx : Keeps P x) (hf : ∀ s a t, runFrom s x = (.ok a, t) → Keeps P (f a)) : Keeps P (x >>= f) := by
  intro s hs
  rw [runFrom_bind]
  have hfirst := hx s hs
  rcases h : runFrom s x with ⟨e | a, t⟩ <;> rw [h] at hfirst
  · exact hfirst
  · exact hf s a t h t hfirst

theorem lift_bind {r : Result α} (hf : ∀ a, r = .ok a → Keeps P (f a)) : Keeps P (liftM r >>= f) :=
  (lift r).bind fun s a t h => hf a (by
    rw [runFrom_lift] at h
    exact (Prod.ext_iff.mp h).1)

theorem forM {f : α → ExceptT Error (StateM σ) Unit} {xs : List α} (hf : ∀ a ∈ xs, Keeps P (f a)) :
    Keeps P (xs.forM f) := by
  rw [List.forM_eq_forM]
  induction xs with
  | nil => exact Keeps.pure ()
  | cons a rest ih =>
    rw [List.forM_cons]
    exact (hf a List.mem_cons_self).bind fun _ _ _ _ => ih fun b hb => hf b (List.mem_cons_of_mem _ hb)

end Keeps

/-! ### Lists -/

theorem forall₂_of_mem {α β : Type} {R : α → β → Prop} {xs : List α} {ys : List β} (h : List.Forall₂ R xs ys) :
    ∀ x ∈ xs, ∃ y ∈ ys, R x y := by
  induction h with
  | nil => simp
  | cons hxy _ ih =>
    intro x hx
    rcases List.mem_cons.mp hx with rfl | hx
    · exact ⟨_, List.mem_cons_self, hxy⟩
    · obtain ⟨y, hy, hr⟩ := ih x hx
      exact ⟨y, List.mem_cons_of_mem _ hy, hr⟩

theorem forall₂_comp {α β γ : Type} {R : α → β → Prop} {S : β → γ → Prop} {xs : List α} {ys : List β} {zs : List γ}
    (h : List.Forall₂ R xs ys) (h' : List.Forall₂ S ys zs) : List.Forall₂ (fun x z => ∃ y, R x y ∧ S y z) xs zs := by
  induction h generalizing zs with
  | nil =>
    cases h'
    exact .nil
  | cons hxy _ ih =>
    obtain _ | ⟨hyz, h'⟩ := h'
    exact .cons ⟨_, hxy, hyz⟩ (ih h')

/-- Lists whose elements correspond also correspond otherwise, as far as their elements do. -/
theorem forall₂_imp_iff {α β : Type} {R S T : α → β → Prop} {p : Prop} {xs : List α} {ys : List β}
    (h : List.Forall₂ R xs ys) (hS : ∀ x y, R x y → (S x y ↔ (p → T x y))) :
    List.Forall₂ S xs ys ↔ (p → List.Forall₂ T xs ys) := by
  induction h with
  | nil => simp
  | cons hxy _ ih => simp [hS _ _ hxy, ih, imp_and]

theorem forall₂_right_iff {α β : Type} {R : α → β → Prop} {T : β → Prop} {xs : List α} {ys : List β}
    (h : List.Forall₂ R xs ys) : List.Forall₂ (fun _ y => T y) xs ys ↔ ∀ y ∈ ys, T y := by
  induction h with
  | nil => simp
  | cons _ _ ih => simp [ih]

/-- Where each of three lists has an element for each element of a fourth, zipping them leaves none out. -/
theorem forall₂_zipped {α β γ δ : Type} {R : α → γ → Prop} {S : α × β → δ → Prop} {xs : List α} {ys : List β}
    {zs : List γ} {ws : List δ} (hys : ys.length = xs.length) (hzs : List.Forall₂ R xs zs)
    (hws : List.Forall₂ S (xs.zip ys) ws) :
    List.Forall₂ (fun x w => ∃ y z, (x, y, z) ∈ xs.zip (ys.zip zs) ∧ R x z ∧ S (x, y) w) xs ws := by
  induction hzs generalizing ys ws with
  | nil =>
    cases hws
    exact .nil
  | @cons x z _ _ hxz _ ih =>
    obtain _ | ⟨y, ys⟩ := ys
    · cases hys
    · obtain _ | ⟨hxy, hws⟩ := hws
      refine .cons ⟨y, z, List.mem_cons_self, hxz, hxy⟩ ((ih (Nat.succ.inj hys) hws).imp ?_)
      rintro x w ⟨y, z, hmem, h⟩
      exact ⟨y, z, List.mem_cons_of_mem _ hmem, h⟩

theorem getElem?_zipIdx_inv {α : Type} {xs : List α} {k : Nat} {p : α × Nat} (h : xs.zipIdx[k]? = some p) :
    xs[k]? = some p.1 ∧ p.2 = k := by
  rw [List.getElem?_zipIdx, Option.map_eq_some_iff] at h
  obtain ⟨x, hx, rfl⟩ := h
  exact ⟨hx, Nat.zero_add k⟩

/-! ### Results -/

namespace Result
variable {α β : Type}

@[simp] theorem pure_eq (a : α) : (pure a : Result α) = .ok a := rfl

@[simp] theorem throw_eq (e : Error) : (throw e : Result α) = .error e := rfl

@[simp] theorem ok_bind (a : α) (f : α → Result β) : (Except.ok a >>= f) = f a := rfl

@[simp] theorem error_bind (e : Error) (f : α → Result β) : (Except.error e >>= f) = .error e := rfl

theorem bind_eq_ok {r : Result α} {f : α → Result β} {b : β} :
    (r >>= f) = .ok b ↔ ∃ a, r = .ok a ∧ f a = .ok b := by
  cases r <;> simp

theorem guard_eq_ok {r : Result Unit} {k : Result α} {a : α} :
    (r >>= fun _ => k) = .ok a ↔ r = .ok () ∧ k = .ok a := by
  cases r <;> simp

theorem forM_eq_ok {f : α → Result Unit} {xs : List α} : xs.forM f = .ok () ↔ ∀ x ∈ xs, f x = .ok () := by
  rw [List.forM_eq_forM]
  induction xs with
  | nil => simp
  | cons x rest ih =>
    simp only [List.forM_cons, bind_eq_ok, ih, List.mem_cons, forall_eq_or_imp]
    exact ⟨fun ⟨_, hx, hs⟩ => ⟨hx, hs⟩, fun ⟨hx, hs⟩ => ⟨_, hx, hs⟩⟩

/-- A loop that fails does so in a turn, and none of the turns before that one fails. -/
theorem forM_error_inv {f : α → Result Unit} {xs : List α} {e : Error} (h : xs.forM f = .error e) :
    ∃ before x behind, xs = before ++ x :: behind ∧ f x = .error e ∧ ∀ y ∈ before, f y = .ok () := by
  rw [List.forM_eq_forM] at h
  induction xs with
  | nil => cases h
  | cons x rest ih =>
    rw [List.forM_cons] at h
    rcases hx : f x with err | _
    · rw [hx] at h
      cases h
      exact ⟨[], x, rest, rfl, hx, by simp⟩
    · rw [hx] at h
      obtain ⟨before, y, behind, rfl, hy, hbefore⟩ := ih h
      exact ⟨x :: before, y, behind, rfl, hy, by simpa [hx] using hbefore⟩

theorem exists_of_forM_error {f : α → Result Unit} {xs : List α} {e : Error} (h : xs.forM f = .error e) :
    ∃ x ∈ xs, f x = .error e := by
  obtain ⟨before, x, behind, rfl, hx, -⟩ := forM_error_inv h
  exact ⟨x, by simp, hx⟩

theorem forM_congr {f g : α → Result Unit} {xs : List α} (h : ∀ x ∈ xs, f x = g x) : xs.forM f = xs.forM g := by
  simp only [List.forM_eq_forM]
  induction xs with
  | nil => rfl
  | cons x rest ih =>
    rw [List.forM_cons, List.forM_cons, h x List.mem_cons_self, ih fun y hy => h y (List.mem_cons_of_mem _ hy)]

theorem mapM_eq_ok {f : α → Result β} {xs : List α} {ys : List β} :
    xs.mapM f = .ok ys ↔ List.Forall₂ (fun x y => f x = .ok y) xs ys := by
  induction xs generalizing ys with
  | nil => simp [eq_comm]
  | cons x rest ih =>
    simp only [List.mapM_cons, bind_eq_ok, pure_eq, Except.ok.injEq, ih, List.forall₂_cons_left_iff]
    exact ⟨fun ⟨y, hy, zs, hzs, h⟩ => ⟨y, zs, hy, hzs, h.symm⟩, fun ⟨y, zs, hy, hzs, h⟩ => ⟨y, hy, zs, hzs, h.symm⟩⟩

theorem exists_mapM_iff {f : α → Result β} {xs : List α} :
    (∃ ys, xs.mapM f = .ok ys) ↔ ∀ x ∈ xs, ∃ y, f x = .ok y := by
  simp only [mapM_eq_ok]
  constructor
  · rintro ⟨ys, hys⟩ x hx
    obtain ⟨y, -, hy⟩ := forall₂_of_mem hys x hx
    exact ⟨y, hy⟩
  · intro h
    induction xs with
    | nil => exact ⟨[], .nil⟩
    | cons x rest ih =>
      obtain ⟨y, hy⟩ := h x List.mem_cons_self
      obtain ⟨ys, hys⟩ := ih fun z hz => h z (List.mem_cons_of_mem _ hz)
      exact ⟨y :: ys, .cons hy hys⟩

theorem exists_of_mapM_error {f : α → Result β} {xs : List α} {e : Error} (h : xs.mapM f = .error e) :
    ∃ x ∈ xs, f x = .error e := by
  induction xs with
  | nil => cases h
  | cons x rest ih =>
    rw [List.mapM_cons] at h
    rcases hx : f x with err | y
    · rw [hx] at h
      cases h
      exact ⟨x, List.mem_cons_self, hx⟩
    · rw [hx, ok_bind] at h
      rcases hrest : rest.mapM f with err | ys
      · rw [hrest] at h
        cases h
        obtain ⟨z, hz, hfail⟩ := ih hrest
        exact ⟨z, List.mem_cons_of_mem _ hz, hfail⟩
      · rw [hrest] at h
        cases h

theorem exists_of_foldlM_error {f : β → α → Result β} {xs : List α} {acc : β} {e : Error}
    (h : xs.foldlM f acc = .error e) : ∃ acc, ∃ x ∈ xs, f acc x = .error e := by
  induction xs generalizing acc with
  | nil => cases h
  | cons x rest ih =>
    rw [List.foldlM_cons] at h
    rcases hx : f acc x with err | next
    · rw [hx] at h
      cases h
      exact ⟨acc, x, List.mem_cons_self, hx⟩
    · rw [hx] at h
      obtain ⟨before, y, hy, hfail⟩ := ih h
      exact ⟨before, y, List.mem_cons_of_mem _ hy, hfail⟩

theorem mapM_congr {f g : α → Result β} {xs : List α} (h : ∀ x ∈ xs, f x = g x) : xs.mapM f = xs.mapM g := by
  induction xs with
  | nil => rfl
  | cons x rest ih =>
    rw [List.mapM_cons, List.mapM_cons, h x List.mem_cons_self, ih fun y hy => h y (List.mem_cons_of_mem _ hy)]

/-- Where functions do alike on corresponding elements, and one succeeds on all, so does the other. -/
theorem exists_mapM {α' β' : Type} {R : α → β → Prop} {S : α' → β' → Prop} {f : α → Result α'} {g : β → Result β'}
    {xs : List α} {ys : List β} {as : List α'} (h : List.Forall₂ R xs ys)
    (hfg : ∀ x y a, R x y → f x = .ok a → ∃ b, g y = .ok b ∧ S a b) (hx : xs.mapM f = .ok as) :
    ∃ bs, ys.mapM g = .ok bs ∧ List.Forall₂ S as bs := by
  induction h generalizing as with
  | nil =>
    cases hx
    exact ⟨[], rfl, .nil⟩
  | cons hxy _ ih =>
    rw [List.mapM_cons, bind_eq_ok] at hx
    obtain ⟨a, ha, hx⟩ := hx
    obtain ⟨rest, hrest, hx⟩ := bind_eq_ok.mp hx
    cases hx
    obtain ⟨b, hb, hab⟩ := hfg _ _ a hxy ha
    obtain ⟨bs, hbs, hall⟩ := ih hrest
    refine ⟨b :: bs, ?_, .cons hab hall⟩
    rw [List.mapM_cons, hb, ok_bind, hbs]
    rfl

theorem forM_filter {f : α → Result Unit} {p : α → Bool} {xs : List α}
    (h : ∀ x ∈ xs, p x = false → f x = .ok ()) : (xs.filter p).forM f = xs.forM f := by
  simp only [List.forM_eq_forM]
  induction xs with
  | nil => rfl
  | cons x rest ih =>
    have ih := ih fun y hy => h y (List.mem_cons_of_mem _ hy)
    cases hp : p x
    · simp [hp, ih, h x List.mem_cons_self hp]
    · simp [hp, ih]

end Result

end Dataflow
