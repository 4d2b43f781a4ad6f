import Dataflow.Proofs.Builtin.Made
import Dataflow.Proofs.Evaluation.History

/-! # Well-built models do not go wrong

In a well-built model whose inputs hold signals of their type and size, a node puts out what it declares,
unless an input that it depends on holds no signal or the computation itself fails, by an overflow or a
division by zero. No other failure is left where no sum of sizes wraps around: the checks of the constructors
and of the model rule out all others on the way from the outputs of nodes through slices and wires to the
operations. -/

namespace Dataflow

/-- A value with a property, or one of the failures that no check can rule out. -/
def Result.Safe {α : Type} (P : α → Prop) : Result α → Prop
  | .ok x => P x
  | .error (.unboundInput _) | .error (.compute _) => True
  | .error _ => False

namespace Result
variable {α β : Type} {P : α → Prop} {Q : β → Prop} {r : Result α}

theorem Safe.error {e : Error} (h : Safe P (.error e)) : Safe Q (.error e) := by
  cases e <;> trivial

theorem Safe.bind {f : α → Result β} (h : r.Safe P) (hf : ∀ x, P x → (f x).Safe Q) : (r >>= f).Safe Q := by
  rcases r with e | x
  · exact h.error
  · exact hf x h

theorem Safe.imp {P' : α → Prop} (h : r.Safe P) (hP : ∀ x, P x → P' x) : r.Safe P' := by
  rcases r with e | x
  · exact h.error
  · exact hP x h

theorem Safe.mapM {R : α → β → Prop} {f : α → Result β} {xs : List α} (h : ∀ x ∈ xs, (f x).Safe (R x)) :
    Safe (List.Forall₂ R xs) (xs.mapM f) := by
  induction xs with
  | nil => exact .nil
  | cons x rest ih =>
    rw [List.mapM_cons]
    refine (h x List.mem_cons_self).bind fun y hy => ?_
    refine (ih fun z hz => h z (List.mem_cons_of_mem _ hz)).bind fun ys hys => ?_
    exact .cons hy hys

theorem Safe.forM {f : α → Result Unit} {xs : List α} (h : ∀ x ∈ xs, (f x).Safe fun _ => True) :
    Safe (fun _ => True) (xs.forM f) := by
  rw [List.forM_eq_forM]
  induction xs with
  | nil => trivial
  | cons x rest ih =>
    rw [List.forM_cons]
    exact (h x List.mem_cons_self).bind fun _ _ => ih fun y hy => h y (List.mem_cons_of_mem _ hy)

theorem Safe.foldlM {f : β → α → Result β} {xs : List α} {acc : β} (h : ∀ acc x, (f acc x).Safe fun _ => True) :
    Safe (fun _ => True) (xs.foldlM f acc) := by
  induction xs generalizing acc with
  | nil => trivial
  | cons x rest ih =>
    rw [List.foldlM_cons]
    exact (h acc x).bind fun acc _ => ih

end Result

open Result (Safe)

/-! ### Gathering -/

namespace Evaluator
variable {given : Nat → Result (List Signal)} {t : ElemType} {s : Span} {spans : List Span} {acc : Signal}

/-- What a node puts out has an output that a span lies within. -/
def Covers (given : Nat → Result (List Signal)) (t : ElemType) (s : Span) : Prop :=
  (given s.node).Safe fun xs => ∃ x, xs[s.output]? = some x ∧ x.type = t ∧ s.start + s.size ≤ x.size

theorem Covers.safe_extend (h : Covers given t s) (hacc : acc.type = t) :
    (extend given acc s).Safe fun y => y.type = t ∧ y.size = acc.size + s.size := by
  unfold Covers at h
  rcases hxs : given s.node with err | xs
  · rw [hxs] at h
    rw [extend, hxs]
    exact h.error
  · rw [hxs] at h
    obtain ⟨x, hx, ht, hstop⟩ := h
    obtain ⟨y, hy, hyt, hys⟩ := exists_extend hxs hx (ht.trans hacc.symm) hstop
    rw [hy]
    refine ⟨hyt.trans hacc, ?_⟩
    rw [← Signal.length_scalars, hys, List.length_append, Signal.length_scalars, Span.length_window hstop]

theorem safe_foldlM_extend (h : ∀ s ∈ spans, Covers given t s) (hacc : acc.type = t) :
    (spans.foldlM (extend given) acc).Safe fun y => y.type = t ∧ y.size = acc.size + Span.total spans := by
  induction spans generalizing acc with
  | nil => exact ⟨hacc, rfl⟩
  | cons s rest ih =>
    rw [List.foldlM_cons]
    refine ((h s List.mem_cons_self).safe_extend hacc).bind fun y ⟨ht, hsize⟩ => ?_
    refine (ih (fun u hu => h u (List.mem_cons_of_mem _ hu)) ht).imp fun z ⟨ht, hz⟩ => ⟨ht, ?_⟩
    rw [hz, hsize, Nat.add_assoc]
    rfl

/-- A wire whose spans are covered carries as many elements as it has. -/
theorem safe_gather {w : Wire} (hw : w.Exact) (h : ∀ s ∈ w.spans, Covers given t s) :
    (gather given t w).Safe fun x => x.type = t ∧ x.size = w.size := by
  refine (safe_foldlM_extend h (Signal.type_empty t)).imp fun x ⟨ht, hsize⟩ => ⟨ht, ?_⟩
  rw [hsize, ← Signal.length_scalars, Signal.scalars_empty, List.length_nil, Nat.zero_add, hw.size_eq]

end Evaluator

/-! ### Operations -/

/-- An element type whose signals are the lists of its elements, and whose operations fail only in the
    computation itself. -/
class LawfulOperand (α : Type) [Operand α] : Prop where
  exists_elements : ∀ x : Signal, x.type = Element.type α → ∃ xs : List α, x.elements α = .ok xs ∧ xs.length = x.size
  type_signal : ∀ xs : List α, (Element.signal xs).type = Element.type α
  size_signal : ∀ xs : List α, (Element.signal xs).size = xs.length
  safe_apply : ∀ op, Operand.supports α op = true → ∀ x y : α, (Operand.apply op x y).Safe fun _ => True
  safe_dot : Operand.supportsDot α = true → ∀ xs ys : List α, xs.length = ys.length →
    (Operand.dot xs ys).Safe fun _ => True

theorem Operand.checkLengths_self (k : Nat) : checkLengths k k = .ok () := if_pos rfl

theorem Real.dot_eq {xs ys : List Float} (h : xs.length = ys.length) :
    Real.dot xs ys = .ok ((xs.zip ys).foldl (fun sum (x, y) => sum + x * y) 0.0) := by
  rw [Real.dot, h, Operand.checkLengths_self]
  rfl

instance : LawfulOperand Float where
  exists_elements x h := by
    cases x <;> cases h
    exact ⟨_, rfl, rfl⟩
  type_signal _ := rfl
  size_signal _ := rfl
  safe_apply op h x y := by cases op <;> cases h <;> trivial
  safe_dot _ xs ys h := by
    show (Real.dot xs ys).Safe _
    rw [Real.dot_eq h]
    trivial

theorem Integer.safe_checked (message : String) (k : Int) : (checked (.compute message) k).Safe fun _ => True := by
  unfold checked
  split <;> trivial

instance : LawfulOperand Int64 where
  exists_elements x h := by
    cases x <;> cases h
    exact ⟨_, rfl, rfl⟩
  type_signal _ := rfl
  size_signal _ := rfl
  safe_apply op h x y := by
    show (Integer.apply op x y).Safe _
    cases op <;> cases h
    case divide.refl =>
      unfold Integer.apply
      by_cases hy : y = 0
      · simp only [hy, if_true]
        trivial
      · simp only [hy, if_false]
        exact Integer.safe_checked _ _
    all_goals exact Integer.safe_checked _ _
  safe_dot _ xs ys h := by
    show (Integer.dot xs ys).Safe _
    rw [Integer.dot, h, Operand.checkLengths_self]
    refine Safe.foldlM fun acc p => ?_
    exact (Integer.safe_checked _ _).bind fun _ _ => Integer.safe_checked _ _

instance : LawfulOperand Bool where
  exists_elements x h := by
    cases x <;> cases h
    exact ⟨_, rfl, rfl⟩
  type_signal _ := rfl
  size_signal _ := rfl
  safe_apply op h x y := by cases op <;> cases h <;> trivial
  safe_dot h := by cases h

namespace Builtin

section
variable {α : Type} [Operand α] [LawfulOperand α] {x y : Signal}

theorem safe_computeDot (h : Operand.supportsDot α = true) (hx : x.type = Element.type α)
    (hy : y.type = Element.type α) (hsize : x.size = y.size) :
    (computeDot α [x, y]).Safe fun outs => ∃ z, outs = [z] ∧ z.type = Element.type α ∧ z.size = 1 := by
  obtain ⟨xs, hxs, hxl⟩ := LawfulOperand.exists_elements (α := α) x hx
  obtain ⟨ys, hys, hyl⟩ := LawfulOperand.exists_elements (α := α) y hy
  have hargs : argument α [x, y] 0 = .ok xs ∧ argument α [x, y] 1 = .ok ys := ⟨hxs, hys⟩
  rw [computeDot, hargs.1, hargs.2, Result.ok_bind, Result.ok_bind]
  refine (LawfulOperand.safe_dot h xs ys (by omega)).bind fun z _ => ?_
  exact ⟨_, rfl, LawfulOperand.type_signal [z], LawfulOperand.size_signal [z]⟩

theorem safe_computeBinary {op : Operation} (h : Operand.supports α op = true) (hx : x.type = Element.type α)
    (hy : y.type = Element.type α) (hsize : x.size = y.size) :
    (computeBinary α op [x, y]).Safe fun outs => ∃ z, outs = [z] ∧ z.type = Element.type α ∧ z.size = x.size := by
  obtain ⟨xs, hxs, hxl⟩ := LawfulOperand.exists_elements (α := α) x hx
  obtain ⟨ys, hys, hyl⟩ := LawfulOperand.exists_elements (α := α) y hy
  have hargs : argument α [x, y] 0 = .ok xs ∧ argument α [x, y] 1 = .ok ys := ⟨hxs, hys⟩
  have hlen : xs.length = ys.length := by omega
  rw [computeBinary, hargs.1, hargs.2, Result.ok_bind, Result.ok_bind, if_neg (not_not.mpr hlen)]
  refine (Safe.mapM fun p _ => LawfulOperand.safe_apply op h p.1 p.2).bind fun zs hzs => ?_
  refine ⟨_, rfl, LawfulOperand.type_signal zs, ?_⟩
  rw [LawfulOperand.size_signal, ← hzs.length_eq, List.length_zip, ← hlen, Nat.min_self, hxl]

end

/-! ### Nodes -/

/-- The signals that a node may compute with: one for each input, of its type and of the size of its wire. -/
def Takes (n : Builtin) (args : List Signal) : Prop :=
  List.Forall₂ (fun input x => x.type = input.type ∧ x.size = input.wire.size) n.inputs args

theorem fits_single {out : Output} {z : Signal} (ht : z.type = out.type) (hs : z.size = out.size) :
    List.Forall₂ Output.Fits [out] [z] :=
  .cons ⟨ht, hs⟩ .nil

theorem computeDot_real {xs ys : List Float} (h : xs.length = ys.length) :
    computeDot Float [.real xs, .real ys] = .ok [.real [(xs.zip ys).foldl (fun sum (x, y) => sum + x * y) 0.0]] := by
  have hargs : argument Float [.real xs, .real ys] 0 = .ok xs ∧ argument Float [.real xs, .real ys] 1 = .ok ys :=
    ⟨rfl, rfl⟩
  have hdot : Operand.dot xs ys = .ok ((xs.zip ys).foldl (fun sum (x, y) => sum + x * y) 0.0) := Real.dot_eq h
  rw [computeDot, hargs.1, hargs.2, Result.ok_bind, Result.ok_bind, hdot]
  rfl

theorem computeBinary_real (op : Operation) {f : Float → Float → Float} {xs ys : List Float}
    (h : xs.length = ys.length) (hop : ∀ x y, Operand.apply op x y = .ok (f x y)) :
    computeBinary Float op [.real xs, .real ys] = .ok [.real (List.zipWith f xs ys)] := by
  have hargs : argument Float [.real xs, .real ys] 0 = .ok xs ∧ argument Float [.real xs, .real ys] 1 = .ok ys :=
    ⟨rfl, rfl⟩
  have hall : (xs.zip ys).mapM (fun (x, y) => Operand.apply op x y) = .ok (List.zipWith f xs ys) := by
    rw [Result.mapM_congr (g := fun p => pure (f p.1 p.2)) fun p _ => hop p.1 p.2, List.mapM_pure,
      List.map_zip_eq_zipWith]
    rfl
  rw [computeBinary, hargs.1, hargs.2, Result.ok_bind, Result.ok_bind, if_neg (not_not.mpr h), hall]
  rfl

theorem computeLinear_eq {p : LinearPredictor} {xs : List Float} (h : xs.length = p.dimension) :
    computeLinear p [.real xs] =
      .ok [.real [(p.weights.zip xs).foldl (fun sum (w, x) => sum + w * x) 0.0 + p.bias],
        .real (List.zipWith (· * ·) p.weights xs)] := by
  have hcheck : p.checkDimension xs = .ok () := if_pos h
  have harg : argument Float [.real xs] 0 = .ok xs := rfl
  rw [computeLinear, harg, Result.ok_bind, LinearPredictor.predict, LinearPredictor.weighted, hcheck,
    Real.dot_eq h.symm]
  rfl

theorem computeLinear_inv {p : LinearPredictor} {x : Signal} {xs : List Signal}
    (h : computeLinear p [x] = .ok xs) : ∃ l, x = .real l ∧ l.length = p.dimension := by
  unfold computeLinear at h
  obtain ⟨l, hl, h⟩ := Result.bind_eq_ok.mp h
  have hx : x.elements Float = .ok l := hl
  obtain ⟨_, hp, -⟩ := Result.bind_eq_ok.mp h
  unfold LinearPredictor.predict at hp
  obtain ⟨_, hcheck, -⟩ := Result.bind_eq_ok.mp hp
  refine ⟨l, ?_, ?_⟩
  · cases x <;> cases hx
    rfl
  · unfold LinearPredictor.checkDimension at hcheck
    by_cases hlen : l.length = p.dimension
    · exact hlen
    · rw [if_neg hlen] at hcheck
      cases hcheck

/-- A node that passed its checks puts out what it declares. -/
theorem Made.safe_compute {n : Builtin} {args : List Signal} (h : n.Made) (hn : n.isInput = false) (ha : n.Takes args) :
    (n.compute args).Safe (List.Forall₂ Output.Fits n.outputs) := by
  cases n with
  | input => cases hn
  | constant value => exact fits_single rfl rfl
  | dot t a b =>
    obtain ⟨hdot, hsize, -, -⟩ := h
    rcases ha with _ | @⟨_, x, _, _, ⟨hx, hxs⟩, _ | @⟨_, y, _, _, ⟨hy, hys⟩, ⟨⟩⟩⟩
    have hsize' : x.size = y.size := hxs.trans (hsize.trans hys.symm)
    cases t with
    | real =>
      refine (safe_computeDot (α := Float) hdot hx hy hsize').imp ?_
      rintro _ ⟨z, rfl, hz, hzs⟩
      exact fits_single hz hzs
    | int =>
      refine (safe_computeDot (α := Int64) hdot hx hy hsize').imp ?_
      rintro _ ⟨z, rfl, hz, hzs⟩
      exact fits_single hz hzs
    | bool => cases hdot
  | binary t op a b =>
    obtain ⟨hop, hsize, -, -⟩ := h
    rcases ha with _ | @⟨_, x, _, _, ⟨hx, hxs⟩, _ | @⟨_, y, _, _, ⟨hy, hys⟩, ⟨⟩⟩⟩
    have hsize' : x.size = y.size := hxs.trans (hsize.trans hys.symm)
    cases t with
    | real =>
      refine (safe_computeBinary (α := Float) hop hx hy hsize').imp ?_
      rintro _ ⟨z, rfl, hz, hzs⟩
      exact fits_single hz (hzs.trans hxs)
    | int =>
      refine (safe_computeBinary (α := Int64) hop hx hy hsize').imp ?_
      rintro _ ⟨z, rfl, hz, hzs⟩
      exact fits_single hz (hzs.trans hxs)
    | bool =>
      refine (safe_computeBinary (α := Bool) hop hx hy hsize').imp ?_
      rintro _ ⟨z, rfl, hz, hzs⟩
      exact fits_single hz (hzs.trans hxs)
  | linear x p =>
    obtain ⟨hdim, -⟩ := h
    rcases ha with _ | @⟨_, x', _, _, ⟨hx, hxs⟩, ⟨⟩⟩
    obtain ⟨xs, rfl⟩ : ∃ xs, x' = .real xs := by
      cases x' <;> cases hx
      exact ⟨_, rfl⟩
    have hlen : xs.length = p.dimension := hxs.trans hdim
    show (computeLinear p [.real xs]).Safe _
    rw [computeLinear_eq hlen]
    refine .cons ⟨rfl, rfl⟩ (fits_single rfl ?_)
    show (List.zipWith (· * ·) p.weights xs).length = p.weights.length
    rw [List.length_zipWith, hlen]
    exact Nat.min_self _

end Builtin

/-! ### Models -/

namespace Model
variable {m : Model Builtin} {b : Nat → Option Signal} {id : Nat} {n : Builtin}

theorem fits_of_accepts {x : Signal} (h : m.Accepts id x) (hn : m.nodes[id]? = some n) :
    List.Forall₂ Output.Fits n.outputs [x] := by
  obtain ⟨n', hn', hinput, out, hout, hfit⟩ := h
  cases hn.symm.trans hn'
  cases n with
  | input t size =>
    cases hout
    exact .cons hfit .nil
  | constant | dot | binary | linear => cases hinput

/-- Where the nodes before it put out what they declare, a node can compute. -/
theorem WellBuilt.safe_arguments {given : Nat → Result (List Signal)} (hm : m.WellBuilt) (hsum : m.Summed)
    (hn : m.nodes[id]? = some n)
    (hgiven : ∀ j n', j < id → m.nodes[j]? = some n' → (given j).Safe (List.Forall₂ Output.Fits n'.outputs)) :
    (n.inputs.mapM fun input => Evaluator.gather given input.type input.wire).Safe n.Takes := by
  have hmem : n ∈ m.nodes := List.mem_of_getElem? hn
  refine Safe.mapM fun input hinput => Evaluator.safe_gather (hsum.wire hmem hinput) fun s hs => ?_
  obtain ⟨hlt, hoffers⟩ := hm.wellFormed id n hn s (span_mem_spans hinput hs)
  obtain ⟨out, ⟨n', hn', hout⟩, ht, hstop⟩ := (offers_iff_has ((hsum.wire hmem hinput).spans s hs)).mp hoffers
  have htype : s.type = input.type := (hm.made n hmem).carries hinput s hs
  refine (hgiven s.node n' hlt hn').imp fun xs hfits => ?_
  obtain ⟨x, hx, hxt, hxs⟩ := Output.exists_fit hfits hout
  refine ⟨x, hx, hxt.trans (ht.trans htype), ?_⟩
  rw [hxs]
  exact hstop

/-- What a node of a well-built model puts out, if its inputs hold what they accept. -/
theorem WellBuilt.safe_values (hm : m.WellBuilt) (hsum : m.Summed) (hb : ∀ id x, b id = some x → m.Accepts id x)
    (hn : m.nodes[id]? = some n) : (m.values b id).Safe (List.Forall₂ Output.Fits n.outputs) := by
  induction id using Nat.strongRecOn generalizing n with
  | ind id ih =>
    -- The check of what is put out never fails, for what a node computes fits.
    have hchecked : ∀ xs, List.Forall₂ Output.Fits n.outputs xs →
        (Evaluator.checkOutputs id n.outputs xs >>= fun _ => pure xs).Safe (List.Forall₂ Output.Fits n.outputs) := by
      intro xs hxs
      rw [checkOutputs_eq_ok.mpr hxs]
      exact hxs
    rw [values_eq hm.wellFormed, outputsFrom, node_eq_ok.mpr hn, Result.ok_bind]
    rcases hinput : Node.isInput n with _ | _
    · have hargs := hm.safe_arguments hsum hn fun j n' hlt hn' => ih j hlt hn'
      have hmade := hm.made n (List.mem_of_getElem? hn)
      exact hargs.bind fun args hargs => (hmade.safe_compute hinput hargs).bind hchecked
    · rcases hx : b id with _ | x
      · trivial
      · exact hchecked [x] (fits_of_accepts (hb id x hx) hn)

/-- What asking for a node of a well-built model gives, whichever node of its cone fails first. -/
theorem WellBuilt.safe_demand (hm : m.WellBuilt) (hsum : m.Summed) (hb : ∀ id x, b id = some x → m.Accepts id x)
    (hn : m.nodes[id]? = some n) : (m.demand b id).Safe (List.Forall₂ Output.Fits n.outputs) := by
  have hcone : ((m.cone id).forM fun j => discard (m.values b j)).Safe fun _ => True := by
    refine Safe.forM fun j hj => ?_
    have hle : j ≤ id := ((Evaluator.mem_pending (e := m.evaluator) hm.wellFormed).mp hj).le hm.wellFormed
    have hlt : j < m.nodes.length := Nat.lt_of_le_of_lt hle (List.getElem?_eq_some_iff.mp hn).1
    have hj := hm.safe_values hsum hb (List.getElem?_eq_getElem hlt)
    rcases hv : m.values b j with err | xs
    · rw [hv] at hj
      exact hj.error
    · trivial
  exact hcone.bind fun _ _ => hm.safe_values hsum hb hn

theorem WellBuilt.safe_output {o : Outlet} {out : Output} (hm : m.WellBuilt) (hsum : m.Summed)
    (hb : ∀ id x, b id = some x → m.Accepts id x) (ho : m.Declares o out) : (m.demandOutput b o).Safe out.Fits := by
  obtain ⟨n, hn, hout⟩ := ho
  refine (hm.safe_demand hsum hb hn).bind fun xs hfits => ?_
  obtain ⟨x, hx, hfit⟩ := Output.exists_fit hfits hout
  rw [hx]
  exact hfit

end Model

end Dataflow
