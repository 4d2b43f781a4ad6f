import Dataflow.Builtin.Basic
import Dataflow.Proofs.Action
import Mathlib.Algebra.Ring.Int.Defs

/-! # Integer arithmetic is exact or refused

An operation on 64-bit integers gives the result that it has among all integers, or none if that one leaves
the range. A dot product takes such steps in a loop: it fails at the first product or sum so far that leaves
the range, also where the whole sum would come back into it. Element by element, an operation succeeds if it
does on every pair. -/

namespace Dataflow

/-- A result is given just when one is possible, and is right; else the computation is said to have failed. -/
structure Result.Decided {α : Type} (r : Result α) (possible : Prop) (right : α → Prop) : Prop where
  ok_iff : (∃ z, r = .ok z) ↔ possible
  right : ∀ z, r = .ok z → right z
  failed : ∀ e, r = .error e → ∃ message, e = .compute message

namespace Result.Decided
variable {α : Type} {r : Result α} {possible : Prop} {right : α → Prop}

theorem given (h : r.Decided possible right) (hp : possible) : ∃ z, r = .ok z ∧ right z := by
  obtain ⟨z, hz⟩ := h.ok_iff.mpr hp
  exact ⟨z, hz, h.right z hz⟩

theorem refused (h : r.Decided possible right) (hp : ¬possible) : ∃ message, r = .error (.compute message) := by
  rcases r with e | z
  · obtain ⟨message, rfl⟩ := h.failed e rfl
    exact ⟨message, rfl⟩
  · exact absurd (h.ok_iff.mp ⟨z, rfl⟩) hp

end Result.Decided

namespace Integer

/-! ### The range -/

/-- The range of 64-bit signed integers. -/
def InRange (n : Int) : Prop := -2 ^ 63 ≤ n ∧ n < 2 ^ 63

instance (n : Int) : Decidable (InRange n) := inferInstanceAs (Decidable (_ ∧ _))

theorem isSigned_iff_inRange {n : Int} : isSigned 64 n = true ↔ InRange n := isSigned_iff

theorem inRange_toInt (z : Int64) : InRange z.toInt := isSigned_iff_inRange.mp (isSigned_toInt z)

theorem exists_toInt {n : Int} (h : InRange n) : ∃ z : Int64, z.toInt = n :=
  ⟨Int64.ofInt n, Int64.toInt_ofInt_of_le h.1 h.2⟩

theorem checked_eq_ok {e : Error} {n : Int} {z : Int64} : checked e n = .ok z ↔ z.toInt = n := by
  unfold checked
  split
  case isTrue h =>
    obtain ⟨hlow, hhigh⟩ := isSigned_iff_inRange.mp h
    rw [Except.ok.injEq, ← Int64.toInt_inj, Int64.toInt_ofInt_of_le hlow hhigh, eq_comm]
  case isFalse h =>
    refine ⟨nofun, ?_⟩
    rintro rfl
    exact absurd (isSigned_toInt z) h

theorem error_of_checked {e err : Error} {n : Int} (h : checked e n = .error err) : err = e := by
  unfold checked at h
  split at h
  · cases h
  · exact (Except.error.inj h).symm

/-! ### Operations -/

/-- An operation gives `n` among all integers. A quotient is truncated towards zero: what it leaves over is
    smaller than the divisor and on the same side of zero as the dividend. -/
def Gives (op : Operation) (a b n : Int) : Prop :=
  match op with
  | .add => n = a + b
  | .subtract => n = a - b
  | .multiply => n = a * b
  | .divide => ∃ r, a = b * n + r ∧ r.natAbs < b.natAbs ∧ (0 ≤ a → 0 ≤ r) ∧ (a ≤ 0 → r ≤ 0)
  | _ => False

theorem gives_divide_iff {a b n : Int} : Gives .divide a b n ↔ b ≠ 0 ∧ n = a.tdiv b := by
  constructor
  · rintro ⟨r, ha, hr, hpos, hneg⟩
    have hb : b ≠ 0 := by
      rintro rfl
      simp at hr
    refine ⟨hb, ?_⟩
    rcases Int.le_total 0 a with h | h
    · exact ((Int.tdiv_tmod_unique h hb).mpr ⟨by omega, hpos h, by omega⟩).1.symm
    · exact ((Int.tdiv_tmod_unique' h hb).mpr ⟨by omega, by omega, hneg h⟩).1.symm
  · rintro ⟨hb, rfl⟩
    refine ⟨a.tmod b, (Int.mul_tdiv_add_tmod a b).symm, ?_, Int.tmod_nonneg b, fun h => ?_⟩
    · rw [Int.natAbs_tmod]
      exact Nat.mod_lt _ (Int.natAbs_pos.mpr hb)
    · have hneg := Int.tmod_nonneg b (Int.neg_nonneg_of_nonpos h)
      rw [Int.neg_tmod] at hneg
      exact Int.neg_nonneg.mp hneg

theorem apply_eq_ok {op : Operation} {x y z : Int64} :
    apply op x y = .ok z ↔ Gives op x.toInt y.toInt z.toInt := by
  cases op with
  | add => exact checked_eq_ok
  | subtract => exact checked_eq_ok
  | multiply => exact checked_eq_ok
  | divide =>
    have hzero : y = 0 ↔ y.toInt = 0 := (Int64.toInt_inj (y := 0)).symm
    rw [gives_divide_iff, apply]
    by_cases hy : y = 0
    · simp [hy]
    · rw [if_neg hy, checked_eq_ok]
      exact (and_iff_right (mt hzero.mpr hy)).symm
  | and => exact ⟨nofun, False.elim⟩
  | or => exact ⟨nofun, False.elim⟩
  | xor => exact ⟨nofun, False.elim⟩

theorem compute_of_apply {op : Operation} {x y : Int64} {e : Error} (hop : op.isLogical = false)
    (h : apply op x y = .error e) : ∃ message, e = .compute message := by
  cases op with
  | add => exact ⟨_, error_of_checked h⟩
  | subtract => exact ⟨_, error_of_checked h⟩
  | multiply => exact ⟨_, error_of_checked h⟩
  | divide =>
    rw [apply] at h
    split at h
    · exact ⟨_, (Except.error.inj h).symm⟩
    · exact ⟨_, error_of_checked h⟩
  | and => cases hop
  | or => cases hop
  | xor => cases hop

theorem decided_apply {op : Operation} (hop : op.isLogical = false) (x y : Int64) :
    (apply op x y).Decided (∃ n, Gives op x.toInt y.toInt n ∧ InRange n) fun z => Gives op x.toInt y.toInt z.toInt where
  ok_iff := by
    constructor
    · rintro ⟨z, hz⟩
      exact ⟨z.toInt, apply_eq_ok.mp hz, inRange_toInt z⟩
    · rintro ⟨n, hn, hrange⟩
      obtain ⟨z, rfl⟩ := exists_toInt hrange
      exact ⟨z, apply_eq_ok.mpr hn⟩
  right _ hz := apply_eq_ok.mp hz
  failed _ he := compute_of_apply hop he

/-! ### Dot products -/

/-- The product of a pair among all integers. -/
def product (p : Int64 × Int64) : Int := p.1.toInt * p.2.toInt

/-- The sum of the products of pairs among all integers. -/
def total (ps : List (Int64 × Int64)) : Int := (ps.map product).sum

@[simp] theorem total_nil : total [] = 0 := rfl

@[simp] theorem total_cons (p : Int64 × Int64) (ps : List (Int64 × Int64)) : total (p :: ps) = product p + total ps :=
  List.sum_cons

/-- From a sum so far, all products and all further sums are in the range. -/
structure Stays (sum : Int) (ps : List (Int64 × Int64)) : Prop where
  products : ∀ p ∈ ps, InRange (product p)
  sums : ∀ k, InRange (sum + total (ps.take k))

theorem stays_zero_iff {ps : List (Int64 × Int64)} :
    Stays 0 ps ↔ (∀ p ∈ ps, InRange (product p)) ∧ ∀ k, InRange (total (ps.take k)) := by
  constructor
  · rintro ⟨hproducts, hsums⟩
    exact ⟨hproducts, by simpa using hsums⟩
  · rintro ⟨hproducts, hsums⟩
    exact ⟨hproducts, by simpa using hsums⟩

theorem stays_cons {sum : Int} {p : Int64 × Int64} {ps : List (Int64 × Int64)} (h : InRange sum) :
    Stays sum (p :: ps) ↔ InRange (product p) ∧ Stays (sum + product p) ps := by
  constructor
  · rintro ⟨hproducts, hsums⟩
    refine ⟨hproducts p List.mem_cons_self, fun q hq => hproducts q (List.mem_cons_of_mem _ hq), fun k => ?_⟩
    simpa [Int.add_assoc] using hsums (k + 1)
  · rintro ⟨hp, hproducts, hsums⟩
    refine ⟨List.forall_mem_cons.mpr ⟨hp, hproducts⟩, fun k => ?_⟩
    cases k with
    | zero => simpa using h
    | succ k => simpa [Int.add_assoc] using hsums k

/-- A turn of the loop of a dot product. -/
def addProduct (sum : Int64) (p : Int64 × Int64) : Result Int64 := do
  let m ← checked dot.dotOverflow (product p)
  checked dot.dotOverflow (sum.toInt + m.toInt)

theorem dot_of_length {xs ys : List Int64} (h : xs.length = ys.length) :
    dot xs ys = (xs.zip ys).foldlM addProduct 0 := by
  rw [dot, Operand.checkLengths, if_pos h]
  rfl

theorem addProduct_eq_ok {sum s : Int64} {p : Int64 × Int64} :
    addProduct sum p = .ok s ↔ InRange (product p) ∧ s.toInt = sum.toInt + product p := by
  simp only [addProduct, Result.bind_eq_ok, checked_eq_ok]
  constructor
  · rintro ⟨m, hm, hs⟩
    exact ⟨hm ▸ inRange_toInt m, hm ▸ hs⟩
  · rintro ⟨hp, hs⟩
    obtain ⟨m, hm⟩ := exists_toInt hp
    exact ⟨m, hm, hm.symm ▸ hs⟩

theorem error_of_addProduct {sum : Int64} {p : Int64 × Int64} {e : Error} (h : addProduct sum p = .error e) :
    e = dot.dotOverflow := by
  unfold addProduct at h
  rcases hm : checked dot.dotOverflow (product p) with err | m
  · rw [hm] at h
    cases h
    exact error_of_checked hm
  · rw [hm] at h
    exact error_of_checked h

/-- The loop succeeds as long as it stays in the range, and adds exactly. -/
theorem loop_eq_ok {ps : List (Int64 × Int64)} {sum s : Int64} :
    ps.foldlM addProduct sum = .ok s ↔ Stays sum.toInt ps ∧ s.toInt = sum.toInt + total ps := by
  induction ps generalizing sum with
  | nil =>
    have hstays : Stays sum.toInt [] := ⟨by simp, fun k => by simpa using inRange_toInt sum⟩
    simp [hstays, Int64.toInt_inj, eq_comm]
  | cons p rest ih =>
    rw [List.foldlM_cons, Result.bind_eq_ok, stays_cons (inRange_toInt sum), total_cons, ← Int.add_assoc]
    constructor
    · rintro ⟨next, hnext, hs⟩
      obtain ⟨hp, hnext⟩ := addProduct_eq_ok.mp hnext
      obtain ⟨hrest, hs⟩ := ih.mp hs
      rw [hnext] at hrest hs
      exact ⟨⟨hp, hrest⟩, hs⟩
    · rintro ⟨⟨hp, hrest⟩, hs⟩
      -- The sum after this turn is the first of the further sums.
      obtain ⟨next, hnext⟩ := exists_toInt (n := sum.toInt + product p) (by simpa using hrest.sums 0)
      rw [← hnext] at hrest hs
      exact ⟨next, addProduct_eq_ok.mpr ⟨hp, hnext⟩, ih.mpr ⟨hrest, hs⟩⟩

theorem Stays.exists_total {sum : Int} {ps : List (Int64 × Int64)} (h : Stays sum ps) :
    ∃ s : Int64, s.toInt = sum + total ps :=
  exists_toInt (by simpa using h.sums ps.length)

theorem decided_dot {xs ys : List Int64} (h : xs.length = ys.length) :
    (dot xs ys).Decided (Stays 0 (xs.zip ys)) fun s => s.toInt = total (xs.zip ys) where
  ok_iff := by
    rw [dot_of_length h]
    constructor
    · rintro ⟨s, hs⟩
      exact (loop_eq_ok.mp hs).1
    · intro hstays
      obtain ⟨s, hs⟩ := hstays.exists_total
      exact ⟨s, loop_eq_ok.mpr ⟨hstays, hs⟩⟩
  right s hs := by
    rw [dot_of_length h, loop_eq_ok] at hs
    exact hs.2.trans (Int.zero_add _)
  failed e he := by
    rw [dot_of_length h] at he
    obtain ⟨_, _, -, hp⟩ := Result.exists_of_foldlM_error he
    exact ⟨_, error_of_addProduct hp⟩

/-! ### Operations element by element -/

variable {op : Operation} {a b : Wire} {xs ys : List Int64} {rest : List Signal}

theorem compute_binary (h : xs.length = ys.length) :
    (Builtin.binary .int op a b).compute (.int xs :: .int ys :: rest)
      = ((xs.zip ys).mapM fun p => apply op p.1 p.2) >>= fun zs => .ok [.int zs] := by
  have hxs : Builtin.argument Int64 (.int xs :: .int ys :: rest) 0 = .ok xs := rfl
  have hys : Builtin.argument Int64 (.int xs :: .int ys :: rest) 1 = .ok ys := rfl
  show Builtin.computeBinary Int64 op _ = _
  rw [Builtin.computeBinary, hxs, hys, Result.ok_bind, Result.ok_bind, if_neg (not_not.mpr h)]
  rfl

theorem decided_compute (hop : op.isLogical = false) (h : xs.length = ys.length) :
    ((Builtin.binary .int op a b).compute (.int xs :: .int ys :: rest)).Decided
      (∀ p ∈ xs.zip ys, ∃ z, apply op p.1 p.2 = .ok z)
      fun out => ∃ zs, out = [.int zs] ∧
        List.Forall₂ (fun p z => Gives op p.1.toInt p.2.toInt z.toInt) (xs.zip ys) zs where
  ok_iff := by
    rw [compute_binary h, ← Result.exists_mapM_iff]
    constructor
    · rintro ⟨out, hout⟩
      obtain ⟨zs, hzs, -⟩ := Result.bind_eq_ok.mp hout
      exact ⟨zs, hzs⟩
    · rintro ⟨zs, hzs⟩
      exact ⟨[.int zs], Result.bind_eq_ok.mpr ⟨zs, hzs, rfl⟩⟩
  right out hout := by
    rw [compute_binary h] at hout
    obtain ⟨zs, hzs, hout⟩ := Result.bind_eq_ok.mp hout
    exact ⟨zs, (Except.ok.inj hout).symm, (Result.mapM_eq_ok.mp hzs).imp fun _ _ => apply_eq_ok.mp⟩
  failed e he := by
    rw [compute_binary h] at he
    rcases hzs : (xs.zip ys).mapM fun p => apply op p.1 p.2 with err | zs
    · obtain ⟨p, -, hp⟩ := Result.exists_of_mapM_error hzs
      rw [hzs] at he
      cases he
      exact compute_of_apply hop hp
    · rw [hzs] at he
      cases he

/-! ### All computations -/

/-- Each operation gives the exact result if that one is in the range, and fails otherwise. A dot product of
    lists of one length is the exact sum if no product and no sum on the way leaves the range, and fails
    otherwise; lists of different lengths have none. A node applies its operation to all pairs, in order, and
    fails if one of them does. -/
theorem exact_or_refused :
    (∀ (op : Operation) (x y : Int64), op.isLogical = false →
      (apply op x y).Decided (∃ n, Gives op x.toInt y.toInt n ∧ InRange n)
        fun z => Gives op x.toInt y.toInt z.toInt) ∧
    (∀ xs ys : List Int64, xs.length = ys.length →
      (dot xs ys).Decided
        ((∀ p ∈ xs.zip ys, InRange (product p)) ∧ ∀ k, InRange (total ((xs.zip ys).take k)))
        fun s => s.toInt = total (xs.zip ys)) ∧
    (∀ xs ys : List Int64, xs.length ≠ ys.length →
      dot xs ys = .error (.dimensionMismatch "operands" xs.length ys.length)) ∧
    ∀ (op : Operation) (a b : Wire) (xs ys : List Int64) (rest : List Signal),
      op.isLogical = false → xs.length = ys.length →
      ((Builtin.binary .int op a b).compute (.int xs :: .int ys :: rest)).Decided
        (∀ p ∈ xs.zip ys, ∃ z, apply op p.1 p.2 = .ok z)
        fun out => ∃ zs, out = [.int zs] ∧
          List.Forall₂ (fun p z => Gives op p.1.toInt p.2.toInt z.toInt) (xs.zip ys) zs := by
  refine ⟨fun op x y hop => decided_apply hop x y, fun xs ys h => ?_, fun xs ys h => ?_,
    fun op a b xs ys rest hop h => decided_compute hop h⟩
  · rw [← stays_zero_iff]
    exact decided_dot h
  · rw [dot, Operand.checkLengths, if_neg h]
    rfl

/-- The smallest integer has no quotient by -1. A sum that leaves the range on the way is refused though the
    whole would be in it, and is given in another order. A node fails by one pair. -/
theorem extremes_decided :
    (∃ message, apply .divide Int64.minValue (-1) = .error (.compute message)) ∧
    (∃ message, dot [Int64.maxValue, 1, -1] [1, 1, 1] = .error (.compute message)) ∧
    (∃ s, dot [Int64.maxValue, -1, 1] [1, 1, 1] = .ok s ∧ s.toInt = Int64.maxValue.toInt) ∧
    dot [1, 2] [3] = .error (.dimensionMismatch "operands" 2 1) ∧
    (∃ out, (Builtin.binary .int .divide .empty .empty).compute [.int [-7, 7], .int [2, -2]] = .ok out) ∧
    ∃ message, (Builtin.binary .int .divide .empty .empty).compute [.int [4, 4], .int [2, 0]]
      = .error (.compute message) := by
  obtain ⟨happly, hdot, hlengths, hnode⟩ := exact_or_refused
  refine ⟨(happly .divide Int64.minValue (-1) rfl).refused ?quotient,
    (hdot [Int64.maxValue, 1, -1] [1, 1, 1] rfl).refused ?leaves,
    (hdot [Int64.maxValue, -1, 1] [1, 1, 1] rfl).given ⟨?products, ?sums⟩, hlengths [1, 2] [3] (by decide),
    (hnode .divide .empty .empty [-7, 7] [2, -2] [] rfl rfl).ok_iff.mpr ?pairs,
    (hnode .divide .empty .empty [4, 4] [2, 0] [] rfl rfl).refused ?pair⟩
  case quotient =>
    rintro ⟨n, hn, hrange⟩
    rw [(gives_divide_iff.mp hn).2] at hrange
    revert hrange
    decide
  case leaves =>
    rintro ⟨-, hsums⟩
    have hsecond := hsums 2
    revert hsecond
    decide
  case products =>
    simp only [List.zip_cons_cons, List.zip_nil_left, List.forall_mem_cons]
    exact ⟨by decide, by decide, by decide, nofun⟩
  case sums =>
    rintro (_ | _ | _ | k)
    · decide
    · decide
    · decide
    · rw [List.take_of_length_le (by simp)]
      decide
  case pairs =>
    exact List.forall_mem_cons.mpr ⟨⟨-3, rfl⟩, List.forall_mem_cons.mpr ⟨⟨-3, rfl⟩, nofun⟩⟩
  case pair =>
    intro hpairs
    obtain ⟨z, hz⟩ := hpairs (4, 0) (by decide)
    exact (gives_divide_iff.mp (apply_eq_ok.mp hz)).1 rfl

end Integer

end Dataflow
