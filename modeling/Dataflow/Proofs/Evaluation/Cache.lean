import Dataflow.Proofs.Evaluation.Cone

/-! # The cache

The invariant of an evaluator: what is cached is what the recursion gives under the present bindings, once
for each node, and every cached node has the nodes that it reads cached. Under it, asking for a node gives
the first failure in its cone in ascending order, or what the node puts out; which nodes were cached before
makes no difference, and the invariant is kept, also by a request that fails on the way. Such a request adds
to the cache the nodes of the cone before the first that fails, and any other the whole cone. -/

namespace Dataflow

/-- What asking for a node gives: the failure of the first node of its cone that fails, or what it puts
    out. -/
def Model.demand {κ : Type} [Node κ] (m : Model κ) (bound : Nat → Option Signal) (id : Nat) : Result (List Signal) := do
  (m.cone id).forM fun j => discard (m.values bound j)
  m.values bound id

/-- Asked for one node, an evaluator evaluates another: it is in the cone of the first, before all that fail. -/
def Model.Evaluates {κ : Type} [Node κ] (m : Model κ) (bound : Nat → Option Signal) (id k : Nat) : Prop :=
  k ∈ m.cone id ∧ ∀ j ∈ m.cone id, j ≤ k → ∃ xs, m.values bound j = .ok xs

namespace Evaluator
variable {κ : Type} {e : Evaluator κ} {id j : Nat} {xs : List Signal}

def bound (e : Evaluator κ) (id : Nat) : Option Signal := e.bindings.lookup id

def store (e : Evaluator κ) (id : Nat) (xs : List Signal) : Evaluator κ := { e with cache := (id, xs) :: e.cache }

theorem isCached_iff : e.isCached id = true ↔ ∃ xs, e.cache.lookup id = some xs := by
  unfold isCached
  exact Option.isSome_iff_exists

theorem isCached_store : (e.store id xs).isCached j = true ↔ j = id ∨ e.isCached j = true := by
  unfold isCached store
  by_cases h : j = id
  · simp [h]
  · simp [h, List.lookup_cons, beq_false_of_ne h]

theorem isCached_iff_mem : e.isCached id = true ↔ id ∈ e.cache.map (·.1) := by
  unfold isCached
  induction e.cache with
  | nil => simp
  | cons p rest ih =>
    rw [List.lookup_cons, List.map_cons, List.mem_cons, ← ih]
    by_cases h : id = p.1
    · simp [h]
    · simp [h, beq_false_of_ne h]

variable [Node κ] {e' : Evaluator κ} {m : Model κ} {b : Nat → Option Signal}

/-! ### Requests without a cache -/

theorem discard_eq_ok {r : Result (List Signal)} : discard r = .ok () ↔ ∃ xs, r = .ok xs := by
  cases r <;> simp [discard, Functor.mapConst, Except.map]

theorem demand_eq (h : ∀ k ∈ m.cone id, ∃ xs, m.values b k = .ok xs) : m.demand b id = m.values b id := by
  have hall : (m.cone id).forM (fun j => discard (m.values b j)) = .ok () :=
    Result.forM_eq_ok.mpr fun k hk => discard_eq_ok.mpr (h k hk)
  rw [Model.demand, hall, Result.ok_bind]

theorem values_of_demand (h : m.demand b id = .ok xs) : m.values b id = .ok xs := by
  rw [Model.demand, Result.bind_eq_ok] at h
  exact h.choose_spec.2

/-! ### The invariant -/

structure Sound (e : Evaluator κ) : Prop where
  wellFormed : e.model.WellFormed
  values : ∀ id xs, e.cache.lookup id = some xs → e.model.values e.bound id = .ok xs
  closed : e.Closed
  once : (e.cache.map (·.1)).Nodup

/-- A later state of the same evaluator, between two bindings. -/
structure Continues (e e' : Evaluator κ) : Prop where
  model : e'.model = e.model
  bindings : e'.bindings = e.bindings
  sound : e'.Sound

theorem Continues.bound (h : Continues e e') : e'.bound = e.bound := by
  unfold Evaluator.bound
  rw [h.bindings]

theorem Continues.refl (h : e.Sound) : Continues e e := ⟨rfl, rfl, h⟩

theorem Continues.trans {e'' : Evaluator κ} (h : Continues e e') (h' : Continues e' e'') : Continues e e'' :=
  ⟨h'.model.trans h.model, h'.bindings.trans h.bindings, h'.sound⟩

theorem Sound.cached (h : e.Sound) (hid : e.isCached id = true) : e.cached id = e.model.values e.bound id := by
  obtain ⟨xs, hxs⟩ := isCached_iff.mp hid
  rw [h.values id xs hxs]
  simp [Evaluator.cached, hxs]

theorem Sound.ok_of_cached (h : e.Sound) (hid : e.isCached id = true) : ∃ xs, e.model.values e.bound id = .ok xs := by
  obtain ⟨xs, hxs⟩ := isCached_iff.mp hid
  exact ⟨xs, h.values id xs hxs⟩

theorem sound_of_cache_nil (hm : e.model.WellFormed) (h : e.cache = []) : e.Sound where
  wellFormed := hm
  values id xs hxs := by simp [h] at hxs
  closed id j hid _ := by simp [isCached, h] at hid
  once := by simp [h]

/-! ### Computing what is pending -/

theorem Sound.outputsOf_eq (h : e.Sound) (hs : ∀ j ∈ sources e.model id, e.isCached j = true) :
    e.outputsOf id = e.model.values e.bound id := by
  rw [Model.values_eq h.wellFormed]
  show Model.outputsFrom checkOutputs e.model e.bound e.cached id = _
  refine Model.outputsFrom_congr rfl (fun _ _ _ => rfl) fun n hn s hs' => ?_
  exact h.cached (hs s.node (mem_sources.mpr ⟨n, hn, s, hs', rfl⟩))

theorem Sound.store (h : e.Sound) (hid : e.isCached id = false) (hs : ∀ j ∈ sources e.model id, e.isCached j = true)
    (hxs : e.model.values e.bound id = .ok xs) : (e.store id xs).Sound where
  wellFormed := h.wellFormed
  values j ys hj := by
    by_cases hji : j = id
    · subst hji
      simp only [Evaluator.store, List.lookup_cons, beq_self_eq_true, Option.some.injEq] at hj
      exact hj ▸ hxs
    · simp only [Evaluator.store, List.lookup_cons, beq_false_of_ne hji] at hj
      exact h.values j ys hj
  closed i j hi hj := by
    refine isCached_store.mpr (Or.inr ?_)
    rcases isCached_store.mp hi with rfl | hi
    · exact hs j hj
    · exact h.closed i j hi hj
  once := List.nodup_cons.mpr ⟨fun hmem => by simp [isCached_iff_mem.mpr hmem] at hid, h.once⟩

theorem runFrom_computePending (e : Evaluator κ) (id : Nat) : runFrom e (computePending id) = match e.outputsOf id with
    | .ok xs => (.ok (), e.store id xs)
    | .error err => (.error err, e) := by
  unfold computePending
  simp only [runFrom_bind, runFrom_get, runFrom_lift]
  cases e.outputsOf id <;> rfl

/-- Computing pending nodes in ascending order fails with the first that fails, and caches those before it;
    if none fails, it caches them all. -/
theorem Sound.computeAll {todo : List Nat} (h : e.Sound) (sorted : todo.Pairwise (· < ·))
    (fresh : ∀ k ∈ todo, e.isCached k = false)
    (ready : ∀ k ∈ todo, ∀ j ∈ sources e.model k, e.isCached j = true ∨ j ∈ todo) :
    ∃ e', runFrom e (todo.forM computePending) = (todo.forM fun k => discard (e.model.values e.bound k), e') ∧
      Continues e e' ∧ ∀ k, e'.isCached k = true ↔ e.isCached k = true ∨
        k ∈ todo ∧ ∀ j ∈ todo, j ≤ k → ∃ xs, e.model.values e.bound j = .ok xs := by
  induction todo generalizing e with
  | nil => exact ⟨e, rfl, .refl h, by simp⟩
  | cons id rest ih =>
    obtain ⟨hlt, sorted⟩ := List.pairwise_cons.mp sorted
    -- What the first node reads comes before it, so it is not among the rest.
    have hs : ∀ j ∈ sources e.model id, e.isCached j = true := by
      intro j hj
      rcases ready id List.mem_cons_self j hj with hc | hj'
      · exact hc
      · have hji := sources_lt h.wellFormed hj
        rcases List.mem_cons.mp hj' with rfl | hj'
        · omega
        · have := hlt j hj'
          omega
    have hrun := runFrom_computePending e id
    rw [h.outputsOf_eq hs] at hrun
    simp only [List.forM_eq_forM, List.forM_cons]
    rcases hv : e.model.values e.bound id with err | xs
    · rw [hv] at hrun
      refine ⟨e, ?_, .refl h, fun k => ⟨.inl, ?_⟩⟩
      · rw [runFrom_bind_error hrun]
        rfl
      · rintro (hk | ⟨hk, hall⟩)
        · exact hk
        · have hle : id ≤ k := by
            rcases List.mem_cons.mp hk with rfl | hk
            · exact Nat.le_refl _
            · exact Nat.le_of_lt (hlt k hk)
          obtain ⟨xs, hxs⟩ := hall id List.mem_cons_self hle
          cases hv.symm.trans hxs
    · rw [hv] at hrun
      have hsound := h.store (fresh id List.mem_cons_self) hs hv
      have hfresh : ∀ k ∈ rest, (e.store id xs).isCached k = false := fun k hk => by
        refine Bool.eq_false_iff.mpr fun hc => ?_
        rcases isCached_store.mp hc with rfl | hc
        · exact Nat.lt_irrefl _ (hlt _ hk)
        · simp [fresh k (List.mem_cons_of_mem _ hk)] at hc
      obtain ⟨e', hrest, hcont, hcached⟩ := ih hsound sorted hfresh fun k hk j hj => by
        rcases ready k (List.mem_cons_of_mem _ hk) j hj with hc | hj'
        · exact Or.inl (isCached_store.mpr (Or.inr hc))
        · rcases List.mem_cons.mp hj' with rfl | hj'
          · exact Or.inl (isCached_store.mpr (Or.inl rfl))
          · exact Or.inr hj'
      refine ⟨e', ?_, ⟨hcont.model, hcont.bindings, hcont.sound⟩, fun k => ?_⟩
      · rw [runFrom_bind_ok hrun]
        exact hrest
      rw [hcached, isCached_store, or_assoc, or_left_comm]
      refine or_congr_right ⟨?_, fun ⟨hk, hall⟩ => ?_⟩
      · rintro (rfl | ⟨hk, hall⟩)
        · refine ⟨List.mem_cons_self, fun j hj hle => ?_⟩
          rcases List.mem_cons.mp hj with rfl | hj
          · exact ⟨xs, hv⟩
          · exact absurd (hlt j hj) (Nat.not_lt.mpr hle)
        · refine ⟨List.mem_cons_of_mem _ hk, fun j hj hle => ?_⟩
          rcases List.mem_cons.mp hj with rfl | hj
          · exact ⟨xs, hv⟩
          · exact hall j hj hle
      · rcases List.mem_cons.mp hk with rfl | hk
        · exact Or.inl rfl
        · exact Or.inr ⟨hk, fun j hj hle => hall j (List.mem_cons_of_mem _ hj) hle⟩

/-! ### Requests -/

theorem runFrom_evaluate : runFrom e (evaluate id) =
    if e.isCached id then (e.cached id, e)
    else match e.model.node id with
      | .error err => (.error err, e)
      | .ok _ => match runFrom e ((e.pending id).forM computePending) with
        | (.ok _, e') => (e'.cached id, e')
        | (.error err, e') => (.error err, e') := by
  unfold evaluate
  rw [runFrom_bind, runFrom_get]
  by_cases hid : e.isCached id
  · simp [hid, runFrom_bind]
  · simp only [hid, Bool.false_eq_true, Bool.not_false, if_true, if_false]
    rcases hn : e.model.node id with err | n
    · rw [runFrom_bind_error (t := e) (by rfl)]
    · rw [runFrom_bind_ok (t := e) (by rfl), runFrom_bind]
      rcases runFrom e ((e.pending id).forM computePending) with ⟨_ | _, e'⟩
      · rfl
      · rfl

theorem Sound.demand_of_cached (h : e.Sound) (hid : e.isCached id = true) :
    e.model.demand e.bound id = e.model.values e.bound id :=
  demand_eq fun k hk => h.ok_of_cached (h.closed.cone h.wellFormed hid k hk)

theorem Sound.forM_pending (h : e.Sound) :
    ((e.pending id).forM fun k => discard (e.model.values e.bound k)) =
      (e.model.cone id).forM fun k => discard (e.model.values e.bound k) := by
  rw [h.closed.pending_eq h.wellFormed]
  refine Result.forM_filter fun k _ hk => discard_eq_ok.mpr (h.ok_of_cached ?_)
  simpa using hk

/-- Nothing but itself is in the cone of a node that there is not. -/
theorem mem_cone_of_node_error {err : Error} (hm : m.WellFormed) (hn : m.node id = .error err) :
    j ∈ m.cone id ↔ j = id := by
  refine ⟨fun hj => cone_induction hm (P := (· = id)) rfl (fun k j hk hj => ?_) j hj, fun h => h ▸ mem_cone_self hm⟩
  obtain ⟨n, hn', -⟩ := mem_sources.mp hj
  rw [← hk, Model.node_eq_ok.mpr hn'] at hn
  cases hn

theorem values_of_node_error {err : Error} (hm : m.WellFormed) (hn : m.node id = .error err) :
    m.values b id = .error err := by
  rw [Model.values_eq hm, Model.outputsFrom, hn, Result.error_bind]

theorem demand_of_node_error {err : Error} (hm : m.WellFormed) (hn : m.node id = .error err) :
    m.demand b id = .error err := by
  have honly : ∀ k ∈ m.cone id, k = id := fun k => (mem_cone_of_node_error hm hn).mp
  have hself : id ∈ m.cone id := mem_cone_self hm
  rw [Model.demand]
  rcases hc : m.cone id with _ | ⟨k, rest⟩
  · rw [hc] at hself
    cases hself
  · rw [honly k (by simp [hc]), List.forM_eq_forM, List.forM_cons, values_of_node_error hm hn]
    rfl

theorem Sound.mem_pending_iff (h : e.Sound) : j ∈ e.pending id ↔ j ∈ e.model.cone id ∧ e.isCached j = false := by
  rw [h.closed.pending_eq h.wellFormed, List.mem_filter, Bool.not_eq_true']

/-- Beside what is cached, the first failure is the same among the pending nodes and in the whole cone. -/
theorem Sound.evaluates_iff (h : e.Sound) {k : Nat} :
    (e.isCached k = true ∨ k ∈ e.pending id ∧ ∀ j ∈ e.pending id, j ≤ k → ∃ xs, e.model.values e.bound j = .ok xs) ↔
      e.isCached k = true ∨ e.model.Evaluates e.bound id k := by
  constructor
  · rintro (hk | ⟨hk, hall⟩)
    · exact .inl hk
    · refine .inr ⟨(h.mem_pending_iff.mp hk).1, fun j hj hle => ?_⟩
      rcases hc : e.isCached j with _ | _
      · exact hall j (h.mem_pending_iff.mpr ⟨hj, hc⟩) hle
      · exact h.ok_of_cached hc
  · rintro (hk | ⟨hk, hall⟩)
    · exact .inl hk
    · rcases hc : e.isCached k with _ | _
      · exact .inr ⟨h.mem_pending_iff.mpr ⟨hk, hc⟩, fun j hj => hall j (h.mem_pending_iff.mp hj).1⟩
      · exact .inl rfl

/-- What a request for a node gives does not depend on the cache. It keeps the invariant, and caches what it
    evaluates. -/
theorem Sound.evaluate (h : e.Sound) (id : Nat) :
    ∃ e', runFrom e (evaluate id) = (e.model.demand e.bound id, e') ∧ Continues e e' ∧
      ∀ k, e'.isCached k = true ↔ e.isCached k = true ∨ e.model.Evaluates e.bound id k := by
  rw [runFrom_evaluate]
  by_cases hid : e.isCached id = true
  · rw [if_pos hid, h.cached hid, h.demand_of_cached hid]
    refine ⟨e, rfl, .refl h, fun k => ⟨.inl, ?_⟩⟩
    rintro (hk | hk)
    · exact hk
    · exact h.closed.cone h.wellFormed hid k hk.1
  rw [if_neg hid]
  rcases hn : e.model.node id with err | n
  · rw [demand_of_node_error h.wellFormed hn]
    refine ⟨e, rfl, .refl h, fun k => ⟨.inl, ?_⟩⟩
    rintro (hk | ⟨hk, hall⟩)
    · exact hk
    · obtain rfl := (mem_cone_of_node_error h.wellFormed hn).mp hk
      obtain ⟨xs, hxs⟩ := hall k hk (Nat.le_refl k)
      cases (values_of_node_error h.wellFormed hn).symm.trans hxs
  have hsorted : (e.pending id).Pairwise (· < ·) := pairwise_pending
  obtain ⟨e', hrun, hcont, hcached⟩ :=
    h.computeAll hsorted (fun k hk => (h.mem_pending_iff.mp hk).2) fun k hk j hj => by
    rcases hc : e.isCached j with _ | _
    · exact Or.inr ((mem_pending h.wellFormed).mpr (((mem_pending h.wellFormed).mp hk).snoc hj hc))
    · exact Or.inl rfl
  have hcached := fun k => (hcached k).trans h.evaluates_iff
  rw [hrun, h.forM_pending, Model.demand]
  rcases hall : (e.model.cone id).forM (fun k => discard (e.model.values e.bound k)) with err | _
  · exact ⟨e', rfl, hcont, hcached⟩
  · have hok : ∀ k ∈ e.model.cone id, ∃ xs, e.model.values e.bound k = .ok xs := fun k hk =>
      discard_eq_ok.mp (Result.forM_eq_ok.mp hall k hk)
    have hc := (hcached id).mpr (.inr ⟨mem_cone_self h.wellFormed, fun j hj _ => hok j hj⟩)
    refine ⟨e', ?_, hcont, hcached⟩
    rw [Result.ok_bind, ← hcont.model, ← hcont.bound, ← hcont.sound.cached hc]

end Evaluator
end Dataflow
