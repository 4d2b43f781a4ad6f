import Dataflow.Builtin.Basic
import Dataflow.Proofs.Evaluation.Cache

/-! # What an evaluator answers

An evaluator is asked for a node, for an output or for what a wire carries, and signals are bound to its
input nodes, in any order; each call may fail. Every call keeps the invariant of the cache, so what an
evaluator answers depends on what is bound and on nothing else that was asked before, and it is what
recursion gives. -/

namespace Dataflow

namespace Model
variable {κ : Type} [Node κ]

/-- What asking for the signal on a wire gives. -/
def demandWire (m : Model κ) (bound : Nat → Option Signal) (w : Wire) : Result Signal :=
  Evaluator.gather (m.demand bound) (w.type?.getD .real) w

def demandOutput (m : Model κ) (bound : Nat → Option Signal) (o : Outlet) : Result Signal := do
  match (← m.demand bound o.node)[o.index]? with
  | some x => .ok x
  | none => .error (.notFound s!"output {o.name}")

/-- The signals that may be bound to a node: those of the type and size of the output of an input node. -/
def Accepts (m : Model κ) (id : Nat) (x : Signal) : Prop :=
  ∃ n, m.nodes[id]? = some n ∧ Node.isInput n = true ∧ ∃ out, (Node.outputs n)[0]? = some out ∧ out.Fits x

variable {m : Model κ} {b : Nat → Option Signal}

theorem demandOutput_eq_ok {o : Outlet} {x : Signal} :
    m.demandOutput b o = .ok x ↔ ∃ xs, m.demand b o.node = .ok xs ∧ xs[o.index]? = some x := by
  unfold demandOutput
  rw [Result.bind_eq_ok]
  refine exists_congr fun xs => and_congr_right fun _ => ?_
  cases xs[o.index]? <;> simp

/-- The wire that is all of an output carries that output. -/
theorem demandWire_output {o : Outlet} {w : Wire} (hw : m.output o.node o.index = .ok w) :
    m.demandWire b w = m.demandOutput b o := by
  obtain ⟨out, hout, rfl⟩ := output_eq_ok.mp hw
  rcases hd : m.demand b o.node with err | xs
  · have hextend : Evaluator.extend (m.demand b) (.empty out.type) (.whole o out.type out.size) = .error err := by
      simp [Evaluator.extend, Span.whole, hd]
    simp only [demandWire, demandOutput, hd, Evaluator.gather_eq, Wire.ofSpan, Wire.type?, List.head?_cons,
      Option.map_some, Option.getD_some, List.foldlM_cons, List.foldlM_nil, Span.whole]
    exact congrArg (· >>= pure) hextend
  · obtain ⟨x, hx, ht, hs⟩ := values_declared (Evaluator.values_of_demand hd) hout
    have hyields := Evaluator.Yields.whole hd hx
    rw [demandOutput_eq_ok.mpr ⟨xs, hd, hx⟩]
    rw [ht, hs] at hyields
    exact Evaluator.gather_eq_ok.mpr ⟨ht, hyields⟩

end Model

namespace Evaluator
variable {κ : Type} [Node κ] {e e' : Evaluator κ} {m : Model κ} {id : Nat} {x : Signal}

/-! ### Requests -/

def extendBy (acc : Signal) (s : Span) : Evaluation κ Signal := do
  let part ← liftM (pick (← evaluate s.node) s)
  liftM (acc.append part)

theorem Sound.extendBy (h : e.Sound) (acc : Signal) (s : Span) :
    ∃ e', runFrom e (extendBy acc s) = (extend (e.model.demand e.bound) acc s, e') ∧ Continues e e' := by
  obtain ⟨e', hrun, hcont, -⟩ := h.evaluate s.node
  refine ⟨e', ?_, hcont⟩
  unfold Evaluator.extendBy extend
  rcases hd : e.model.demand e.bound s.node with err | xs
  · rw [hd] at hrun
    rw [runFrom_bind_error hrun]
    rfl
  · rw [hd] at hrun
    rw [runFrom_bind_ok hrun]
    rcases hp : pick xs s with err | part
    · rw [runFrom_bind_error (t := e') (e := err) (by rw [runFrom_lift])]
      simp [hp]
    · rw [runFrom_bind_ok (t := e') (a := part) (by rw [runFrom_lift]), runFrom_lift]
      simp [hp]

theorem Sound.foldlM_extendBy {spans : List Span} (h : e.Sound) (acc : Signal) :
    ∃ e', runFrom e (spans.foldlM Evaluator.extendBy acc) = (spans.foldlM (extend (e.model.demand e.bound)) acc, e') ∧
      Continues e e' := by
  induction spans generalizing e acc with
  | nil => exact ⟨e, rfl, .refl h⟩
  | cons s rest ih =>
    obtain ⟨mid, hmid, hcont⟩ := h.extendBy acc s
    rw [List.foldlM_cons, List.foldlM_cons]
    rcases hx : extend (e.model.demand e.bound) acc s with err | acc'
    · rw [hx] at hmid
      exact ⟨mid, runFrom_bind_error hmid, hcont⟩
    · rw [hx] at hmid
      obtain ⟨e', hrest, hcont'⟩ := ih hcont.sound acc'
      rw [hcont.model, hcont.bound] at hrest
      exact ⟨e', (runFrom_bind_ok hmid).trans hrest, hcont.trans hcont'⟩

theorem Sound.compute (h : e.Sound) (w : Wire) :
    ∃ e', runFrom e (compute w) = (e.model.demandWire e.bound w, e') ∧ Continues e e' :=
  h.foldlM_extendBy (.empty (w.type?.getD .real))

theorem Sound.computeOutput (h : e.Sound) (o : Outlet) :
    ∃ e', runFrom e (computeOutput o) = (e.model.demandOutput e.bound o, e') ∧ Continues e e' ∧
      ∀ k, e'.isCached k = true ↔ e.isCached k = true ∨ e.model.Evaluates e.bound o.node k := by
  obtain ⟨e', hrun, hkept⟩ := h.evaluate o.node
  refine ⟨e', ?_, hkept⟩
  unfold Evaluator.computeOutput Model.demandOutput
  rcases hd : e.model.demand e.bound o.node with err | xs
  · rw [hd] at hrun
    exact runFrom_bind_error hrun
  · rw [hd] at hrun
    rw [runFrom_bind_ok hrun, Result.ok_bind]
    cases xs[o.index]? <;> rfl

/-! ### Binding -/

/-- The evaluator with a signal bound to a node and nothing cached. -/
def hold (e : Evaluator κ) (id : Nat) (x : Signal) : Evaluator κ :=
  { e with bindings := (id, x) :: e.bindings, cache := [] }

/-- Binding succeeds with a signal that the node accepts, and changes nothing otherwise. -/
theorem runFrom_bind_input (e : Evaluator κ) (id : Nat) (x : Signal) :
    e.model.Accepts id x ∧ runFrom e (bind id x) = (.ok (), e.hold id x) ∨
      ¬ e.model.Accepts id x ∧ ∃ err, runFrom e (bind id x) = (.error err, e) := by
  unfold bind Model.Accepts
  rw [runFrom_bind_ok (runFrom_get)]
  rcases hn : e.model.node id with err | n
  · right
    refine ⟨fun ⟨n, hn', _⟩ => ?_, err, runFrom_bind_error (by rw [runFrom_lift])⟩
    rw [Model.node_eq_ok.mpr hn'] at hn
    cases hn
  rw [runFrom_bind_ok (t := e) (a := n) (by rw [runFrom_lift]), Model.node_eq_ok.mp hn]
  simp only [Option.some.injEq, exists_eq_left']
  by_cases hinput : Node.isInput n = true
  · simp only [hinput, true_and]
    rcases ho : (Node.outputs n)[0]? with _ | out
    · exact Or.inr ⟨fun ⟨out, ho, _⟩ => (by cases ho), _, rfl⟩
    simp only [Option.some.injEq, exists_eq_left', Output.Fits]
    by_cases ht : out.type = x.type
    · by_cases hs : out.size = x.size
      · left
        refine ⟨⟨ht.symm, hs.symm⟩, ?_⟩
        simp only [ht, hs, ne_eq, not_true_eq_false, if_false]
        rfl
      · right
        refine ⟨fun h => hs h.2.symm, .dimensionMismatch s!"input node {nodeName id}" out.size x.size, ?_⟩
        simp only [ht, hs, ne_eq, not_true_eq_false, not_false_eq_true, if_true, if_false]
        rfl
    · right
      refine ⟨fun h => ht h.1.symm, .typeMismatch out.type.name x.type.name, ?_⟩
      simp only [ht, ne_eq, not_false_eq_true, if_true]
      rfl
  · right
    refine ⟨fun h => hinput h.1, .typeMismatch "input node" (Describe.typeName n), ?_⟩
    simp only [hinput, Bool.not_false, if_true]
    rfl

theorem bindParts_keeps {P : Evaluator κ → Prop}
    (hold : ∀ e id x, P e → e.model.Accepts id x → P (e.hold id x)) {parts : List (Nat × Nat)} {start : Nat}
    (h : P e) : P (runFrom e (bindParts x start parts)).2 := by
  induction parts generalizing e start with
  | nil => exact h
  | cons p rest ih =>
    rw [bindParts]
    rcases hx : x.slice start p.2 with err | part
    · rw [runFrom_bind_error (t := e) (e := err) (by rw [runFrom_lift])]
      exact h
    · rw [runFrom_bind_ok (t := e) (a := part) (by rw [runFrom_lift])]
      rcases runFrom_bind_input e p.1 part with ⟨haccepts, hrun⟩ | ⟨-, err, hrun⟩
      · rw [runFrom_bind_ok hrun]
        exact ih (hold e _ _ h haccepts)
      · rw [runFrom_bind_error hrun]
        exact h

theorem bindAll_keeps {P : Evaluator κ → Prop}
    (hold : ∀ e id x, P e → e.model.Accepts id x → P (e.hold id x)) (h : P e) : P (runFrom e (bindAll x)).2 := by
  unfold bindAll
  rw [runFrom_bind_ok runFrom_get]
  rcases hinputs : e.model.inputNodes.mapM (fun id => do return (id, (← e.model.output id 0).size)) with err | parts
  · rw [runFrom_bind_error (t := e) (e := err) (by rw [runFrom_lift, hinputs])]
    exact h
  · rw [runFrom_bind_ok (t := e) (a := parts) (by rw [runFrom_lift, hinputs])]
    by_cases hsize : Size.sum (parts.map (·.2)) = x.size
    · simp only [hsize, ne_eq, not_true_eq_false, if_false]
      exact bindParts_keeps hold h
    · simp only [hsize, ne_eq, not_false_eq_true, if_true]
      exact h

end Evaluator

/-! ### Calls -/

inductive Call where
  | bind (id : Nat) (x : Signal)
  | bindAll (x : Signal)
  | compute (w : Wire)
  | computeOutput (o : Outlet)
  | evaluate (id : Nat)

namespace Evaluator
variable {κ : Type} [Node κ] {e e' : Evaluator κ} {m : Model κ}

/-- The evaluator that a call leaves, whether it succeeds or fails. -/
def call (e : Evaluator κ) : Call → Evaluator κ
  | .bind id x => (runFrom e (bind id x)).2
  | .bindAll x => (runFrom e (bindAll x)).2
  | .compute w => (runFrom e (compute w)).2
  | .computeOutput o => (runFrom e (computeOutput o)).2
  | .evaluate id => (runFrom e (evaluate id)).2

def after (e : Evaluator κ) (calls : List Call) : Evaluator κ := calls.foldl call e

/-- What every evaluator of a model is like between calls. -/
structure Serves (e : Evaluator κ) (m : Model κ) : Prop where
  model : e.model = m
  sound : e.Sound
  accepted : ∀ p ∈ e.bindings, m.Accepts p.1 p.2

theorem Serves.hold {id : Nat} {x : Signal} (h : e.Serves m) (hx : e.model.Accepts id x) : (e.hold id x).Serves m where
  model := h.model
  sound := sound_of_cache_nil h.sound.wellFormed rfl
  accepted p hp := by
    rcases List.mem_cons.mp hp with rfl | hp
    · exact h.model ▸ hx
    · exact h.accepted p hp

theorem Serves.continues (h : e.Serves m) (hc : Continues e e') : e'.Serves m where
  model := hc.model.trans h.model
  sound := hc.sound
  accepted := hc.bindings.symm ▸ h.accepted

/-- A property of evaluators that holds after a binding and after a request holds after every call. -/
theorem call_keeps {P : Evaluator κ → Prop} (sound : ∀ e, P e → e.Sound)
    (hold : ∀ e id x, P e → e.model.Accepts id x → P (e.hold id x)) (continues : ∀ e e', P e → Continues e e' → P e')
    (h : P e) (c : Call) : P (e.call c) := by
  cases c with
  | bind id x =>
    rcases runFrom_bind_input e id x with ⟨haccepts, hrun⟩ | ⟨-, err, hrun⟩
    · rw [Evaluator.call, hrun]
      exact hold e id x h haccepts
    · rw [Evaluator.call, hrun]
      exact h
  | bindAll x => exact bindAll_keeps hold h
  | compute w =>
    obtain ⟨e', hrun, hcont⟩ := (sound e h).compute w
    rw [Evaluator.call, hrun]
    exact continues e e' h hcont
  | computeOutput o =>
    obtain ⟨e', hrun, hcont, -⟩ := (sound e h).computeOutput o
    rw [Evaluator.call, hrun]
    exact continues e e' h hcont
  | evaluate id =>
    obtain ⟨e', hrun, hcont, -⟩ := (sound e h).evaluate id
    rw [Evaluator.call, hrun]
    exact continues e e' h hcont

theorem after_keeps {P : Evaluator κ → Prop} (sound : ∀ e, P e → e.Sound)
    (hold : ∀ e id x, P e → e.model.Accepts id x → P (e.hold id x)) (continues : ∀ e e', P e → Continues e e' → P e')
    (calls : List Call) (h : P e) : P (e.after calls) := by
  induction calls generalizing e with
  | nil => exact h
  | cons c rest ih => exact ih (call_keeps sound hold continues h c)

theorem serves_after (hm : m.WellFormed) (calls : List Call) : (m.evaluator.after calls).Serves m := by
  have start : m.evaluator.Serves m := ⟨rfl, sound_of_cache_nil hm rfl, by simp [Model.evaluator]⟩
  exact after_keeps (P := fun e => e.Serves m) (fun _ h => h.sound) (fun _ _ _ h hx => h.hold hx)
    (fun _ _ h hc => h.continues hc) calls start

theorem Serves.accepts {id : Nat} {x : Signal} (h : e.Serves m) (hx : e.bound id = some x) : m.Accepts id x := by
  obtain ⟨_, _, hb, -⟩ := List.lookup_eq_some_iff.mp hx
  exact h.accepted (id, x) (by simp [hb])

/-! ### Answers -/

theorem answer_node (h : e.Sound) (id : Nat) : (runFrom e (evaluate id)).1 = e.model.demand e.bound id := by
  obtain ⟨e', hrun, -⟩ := h.evaluate id
  rw [hrun]

theorem answer_output (h : e.Sound) (o : Outlet) :
    (runFrom e (computeOutput o)).1 = e.model.demandOutput e.bound o := by
  obtain ⟨e', hrun, -⟩ := h.computeOutput o
  rw [hrun]

theorem answer_wire (h : e.Sound) (w : Wire) : (runFrom e (compute w)).1 = e.model.demandWire e.bound w := by
  obtain ⟨e', hrun, -⟩ := h.compute w
  rw [hrun]

structure Agree (e e' : Evaluator κ) : Prop where
  evaluate : ∀ id, (runFrom e (evaluate id)).1 = (runFrom e' (evaluate id)).1
  computeOutput : ∀ o, (runFrom e (computeOutput o)).1 = (runFrom e' (computeOutput o)).1
  compute : ∀ w, (runFrom e (compute w)).1 = (runFrom e' (compute w)).1

theorem Sound.agree (h : e.Sound) (h' : e'.Sound) (hm : e'.model = e.model) (hb : e'.bound = e.bound) : Agree e e' where
  evaluate id := by rw [answer_node h, answer_node h', hm, hb]
  computeOutput o := by rw [answer_output h, answer_output h', hm, hb]
  compute w := by rw [answer_wire h, answer_wire h', hm, hb]

theorem plainValues_of_demand {b : Nat → Option Signal} {id : Nat} {xs : List Signal} (h : m.demand b id = .ok xs) :
    m.plainValues b id = .ok xs :=
  Model.plainValues_of_values (values_of_demand h)

/-- Whatever was asked and bound before, an evaluator answers as a new one with the same bindings does,
    errors included; the signals that it answers with are those of the plain recursion; and asking for an
    output is asking for the wire that is all of it. -/
theorem answers_independent_of_history (hm : m.Built) (calls : List Call) :
    let e := m.evaluator.after calls
    (∀ fresh : Evaluator κ, fresh.model = m → fresh.cache = [] → fresh.bound = e.bound → Agree e fresh) ∧
    (∀ id xs, (runFrom e (evaluate id)).1 = .ok xs → m.plainValues e.bound id = .ok xs) ∧
    (∀ o x, (runFrom e (computeOutput o)).1 = .ok x →
      ∃ xs, m.plainValues e.bound o.node = .ok xs ∧ xs[o.index]? = some x) ∧
    (∀ w x, (runFrom e (compute w)).1 = .ok x → gather (m.plainValues e.bound) (w.type?.getD .real) w = .ok x) ∧
    (∀ o w, m.output o.node o.index = .ok w → (runFrom e (computeOutput o)).1 = (runFrom e (compute w)).1) := by
  intro e
  have h : e.Serves m := serves_after hm.wellFormed calls
  refine ⟨fun fresh hmodel hcache hbound => ?_, fun id xs hxs => ?_, fun o x hx => ?_, fun w x hx => ?_,
    fun o w hw => ?_⟩
  · have hsound : fresh.Sound := sound_of_cache_nil (hmodel ▸ hm.wellFormed) hcache
    exact h.sound.agree hsound (hmodel.trans h.model.symm) hbound
  · rw [answer_node h.sound, h.model] at hxs
    exact plainValues_of_demand hxs
  · rw [answer_output h.sound, h.model, Model.demandOutput_eq_ok] at hx
    obtain ⟨xs, hxs, hx⟩ := hx
    exact ⟨xs, plainValues_of_demand hxs, hx⟩
  · rw [answer_wire h.sound, h.model] at hx
    exact gather_mono hx fun s _ xs hxs => plainValues_of_demand hxs
  · rw [answer_output h.sound, answer_wire h.sound, h.model, Model.demandWire_output hw]

def quotients : Model Builtin :=
  let whole id := Wire.ofSpan (.whole ⟨id, 0⟩ .int 1)
  ⟨[.input .int 1, .constant (.int [7]), .binary .int .divide (whole 1) (whole 0),
    .binary .int .add (whole 2) (whole 1)]⟩

theorem quotients_built : quotients.Built := by
  let whole id := Wire.ofSpan (.whole ⟨id, 0⟩ .int 1)
  have h₀ := Model.Built.add (n := Builtin.input .int 1) .empty rfl
  have h₁ := h₀.add (n := Builtin.constant (.int [7])) rfl
  have h₂ := h₁.add (n := Builtin.binary .int .divide (whole 1) (whole 0)) rfl
  exact h₂.add (n := Builtin.binary .int .add (whole 2) (whole 1)) rfl

/-- A request that failed halfway, by a division by zero, has left two nodes in the cache; it fails in the
    same way when it is repeated. -/
theorem answers_after_division_by_zero :
    let e := quotients.evaluator.after
      [.bind 0 (.int [2]), .computeOutput ⟨3, 0⟩, .bindAll (.int [0]), .computeOutput ⟨3, 0⟩]
    e.cache = [(1, [.int [7]]), (0, [.int [0]])] ∧ Agree e ⟨quotients, [(0, .int [0])], []⟩ ∧
      (runFrom e (computeOutput ⟨3, 0⟩)).1 = .error (.compute "integer division by zero") := by
  intro e
  have hbound : Evaluator.bound ⟨quotients, [(0, .int [0])], []⟩ = e.bound := by
    have hb : e.bindings = [(0, .int [0]), (0, .int [2])] := by decide
    funext id
    by_cases hid : id = 0
    · simp [Evaluator.bound, hb, hid]
    · simp [Evaluator.bound, hb, List.lookup_cons, beq_false_of_ne hid]
  refine ⟨by decide, ?_, by decide⟩
  exact (answers_independent_of_history quotients_built _).1 _ rfl rfl hbound

end Evaluator
end Dataflow
