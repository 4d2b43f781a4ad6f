import Mathlib

/-! # Rounding to the nearest real

A positive finite real has just one mantissa below `2 ^ 53` and one exponent, if its mantissa may only be small
where its exponent is the least. Whatever number is rounded, the real that comes out is the one whose interval
the number lies in: this file says so of products and quotients, whose mantissa is cut off and carries two
residual bits. -/

namespace Dataflow.Decimal
open Float.Model Float.Model.UnpackedFloat

/-! ### Intervals -/

/-- The mantissa and the exponent of a positive finite real. -/
structure IsCanonical (m : Nat) (e : Int) : Prop where
  pos : 0 < m
  lt : m < 2 ^ 53
  least : -1074 ≤ e
  greatest : e ≤ 971
  normal : 2 ^ 52 ≤ m ∨ e = -1074

/-- The number `v` rounds to `m * 2 ^ e`: it is no further off than half a unit, and less than that if the
    mantissa is odd. At the foot of a binade the lower neighbour is only half a unit away. -/
structure RoundsTo (m : Nat) (e : Int) (v : ℚ) : Prop where
  low : (m - 1 / 2) * 2 ^ e ≤ v
  high : v ≤ (m + 1 / 2) * 2 ^ e
  odd : m % 2 = 1 → (m - 1 / 2) * 2 ^ e < v ∧ v < (m + 1 / 2) * 2 ^ e
  foot : m = 2 ^ 52 → -1074 < e → (m - 1 / 4) * 2 ^ e ≤ v

theorem RoundsTo.self {m : Nat} {e : Int} : RoundsTo m e (m * 2 ^ e) := by
  have hpos : (0 : ℚ) < 2 ^ e := by positivity
  constructor <;> intros <;> (try constructor) <;> nlinarith

/-! ### Cut-off mantissas -/

/-- The mantissa is that of `w` cut off, the round bit is the first bit behind it, and the sticky bit tells
    whether any other follows. -/
structure Describes (em : ExtendedMantissa) (w : ℚ) : Prop where
  low : 2 * em.mantissa + em.roundBit.toNat ≤ 2 * w
  high : 2 * w < 2 * em.mantissa + em.roundBit.toNat + 1
  sticky : em.stickyBit = true ↔ 2 * em.mantissa + em.roundBit.toNat < 2 * w

variable {em : ExtendedMantissa} {w : ℚ}

@[simp] theorem mantissa_ofMantissaAndAccuracy (m : Nat) (a : Accuracy) :
    (ExtendedMantissa.ofMantissaAndAccuracy m a).mantissa = m := by
  rcases a with _ | _ | _ | _ <;> rfl

theorem describes_exact (m : Nat) : Describes (.ofMantissaAndAccuracy m .exact) m := by
  constructor <;> simp [ExtendedMantissa.ofMantissaAndAccuracy]

theorem describes_fraction (m : Nat) {num den : Nat} (h : num < den) :
    Describes (.ofMantissaAndAccuracy m (accuracyOfFraction num den)) (m + num / den) := by
  have hden : (0 : ℚ) < den := by exact_mod_cast (Nat.zero_le num).trans_lt h
  have hlt : (num : ℚ) / den < 1 := (div_lt_one hden).mpr (by exact_mod_cast h)
  unfold accuracyOfFraction
  by_cases hzero : num = 0
  · subst hzero
    constructor <;> simp [ExtendedMantissa.ofMantissaAndAccuracy]
  have hpos : (0 : ℚ) < num / den := div_pos (by exact_mod_cast Nat.pos_of_ne_zero hzero) hden
  rw [if_neg hzero]
  rcases hcompare : compare (2 * num) den with _ | _ | _
  · have hhalf : 2 * ((num : ℚ) / den) < 1 := by
      rw [← mul_div_assoc, div_lt_one hden]
      exact_mod_cast Nat.compare_eq_lt.mp hcompare
    constructor <;> simp [ExtendedMantissa.ofMantissaAndAccuracy] <;> linarith
  · have hhalf : 2 * ((num : ℚ) / den) = 1 := by
      rw [← mul_div_assoc, div_eq_one_iff_eq hden.ne']
      exact_mod_cast Nat.compare_eq_eq.mp hcompare
    constructor <;> simp [ExtendedMantissa.ofMantissaAndAccuracy] <;> linarith
  · have hhalf : 1 < 2 * ((num : ℚ) / den) := by
      rw [← mul_div_assoc, one_lt_div hden]
      exact_mod_cast Nat.compare_eq_gt.mp hcompare
    constructor <;> simp [ExtendedMantissa.ofMantissaAndAccuracy] <;> linarith

theorem Describes.mantissa_le (h : Describes em w) : (em.mantissa : ℚ) ≤ w := by
  have hbit : (0 : ℚ) ≤ em.roundBit.toNat := Nat.cast_nonneg _
  linarith [h.low]

theorem Describes.lt_mantissa (h : Describes em w) : w < em.mantissa + 1 := by
  have hbit : (em.roundBit.toNat : ℚ) ≤ 1 := by exact_mod_cast Bool.toNat_le _
  linarith [h.high]

theorem Describes.shiftRightOne (h : Describes em w) : Describes em.shiftRightOne (w / 2) := by
  have hlow := h.mantissa_le
  have hhigh := h.lt_mantissa
  have hbit : (2 * (em.mantissa / 2 : Nat) + (em.mantissa % 2 != 0).toNat : ℚ) = em.mantissa := by
    have hnat : 2 * (em.mantissa / 2) + (em.mantissa % 2 != 0).toNat = em.mantissa := by
      rcases Nat.mod_two_eq_zero_or_one em.mantissa with hmod | hmod <;> simp [hmod] <;> omega
    exact_mod_cast hnat
  refine ⟨?_, ?_, ?_⟩ <;> simp only [ExtendedMantissa.shiftRightOne, hbit]
  · linarith
  · linarith
  · rw [Bool.or_eq_true, h.sticky]
    have htwo : 2 * (w / 2) = w := by ring
    rw [htwo]
    cases hround : em.roundBit
    · simp
    · have hlow := h.low
      rw [hround] at hlow
      simp only [Bool.toNat_true, Nat.cast_one] at hlow
      simp only [true_or, true_iff]
      linarith

theorem Describes.shiftRight (h : Describes em w) (n : Nat) : Describes (em >>> n) (w / 2 ^ n) := by
  induction n with
  | zero =>
    show Describes em _
    simpa using h
  | succ n ih =>
    have hnext : w / 2 ^ (n + 1) = w / 2 ^ n / 2 := by rw [pow_succ, div_div]
    rw [hnext]
    exact ih.shiftRightOne

/-- The nearest mantissa, or the even one of two. -/
theorem Describes.roundedMantissa {n : Nat} (h : Describes em w) (hlow : (n : ℚ) - 1 / 2 ≤ w)
    (hhigh : w ≤ n + 1 / 2) (hodd : n % 2 = 1 → (n : ℚ) - 1 / 2 < w ∧ w < n + 1 / 2) : em.roundedMantissa = n := by
  obtain ⟨m, r, s⟩ := em
  obtain ⟨hl, hh, hs⟩ := h
  dsimp only at hl hh hs
  cases r <;> cases s <;> simp only [Bool.toNat_false, Bool.toNat_true, Nat.cast_zero, Nat.cast_one, add_zero,
    Bool.false_eq_true, false_iff, true_iff, not_lt] at hl hh hs
  · -- The number is the mantissa.
    show m = n
    have h₁ : (m : ℚ) < n + 1 := by linarith
    have h₂ : (n : ℚ) < m + 1 := by linarith
    norm_cast at h₁ h₂
    omega
  · show m = n
    have h₁ : (m : ℚ) < n + 1 := by linarith
    have h₂ : (n : ℚ) < m + 1 := by linarith
    norm_cast at h₁ h₂
    omega
  · -- The number lies halfway between the mantissa and the next one, so `n` is the even one of them.
    show m + m % 2 = n
    have h₁ : (m : ℚ) < n + 1 := by linarith
    have h₂ : (n : ℚ) < m + 2 := by linarith
    norm_cast at h₁ h₂
    rcases Nat.mod_two_eq_zero_or_one n with hmod | hmod
    · omega
    · obtain ⟨h₃, h₄⟩ := hodd hmod
      have h₃ : (n : ℚ) < m + 1 := by linarith
      have h₄ : (m : ℚ) < n := by linarith
      norm_cast at h₃ h₄
      omega
  · show m + 1 = n
    have h₁ : (m : ℚ) < n := by linarith
    have h₂ : (n : ℚ) < m + 2 := by linarith
    norm_cast at h₁ h₂
    omega

/-! ### Rounding -/

/-- The exponent that a number with this cut-off mantissa is rounded to. -/
def target (m : Nat) (e : Int) : Int := Format.binary64.targetExponent (totalExponent m e)

theorem target_eq (m : Nat) (e : Int) : target m e = max (m.log2 + e - 52) (-1074) := by
  unfold target Format.targetExponent totalExponent
  have hbits : (Format.binary64.mantissaBits : Int) = 53 := rfl
  have hleast : Format.binary64.minExponent = -1074 := rfl
  rw [hbits, hleast]
  congr 1
  ring

theorem two_zpow_add (k : Nat) (e : Int) : (2 : ℚ) ^ (k + e : Int) = 2 ^ k * 2 ^ e := by
  rw [zpow_add₀ two_ne_zero, zpow_natCast]

theorem lt_two_zpow_log2 {m : Nat} {e : Int} (h : w < m + 1) : w * 2 ^ e < 2 ^ ((m.log2 : Int) + 1 + e) := by
  have hm : (m : ℚ) + 1 ≤ 2 ^ ((m.log2 : Int) + 1) := by
    exact_mod_cast Nat.succ_le_of_lt Nat.lt_log2_self
  rw [zpow_add₀ two_ne_zero]
  exact mul_lt_mul_of_pos_right (h.trans_le hm) (by positivity)

theorem two_zpow_log2_le {m : Nat} {e : Int} (hm : m ≠ 0) (h : m ≤ w) : 2 ^ ((m.log2 : Int) + e) ≤ w * 2 ^ e := by
  have hle : (2 : ℚ) ^ (m.log2 : Int) ≤ m := by exact_mod_cast Nat.log2_self_le hm
  rw [zpow_add₀ two_ne_zero]
  exact mul_le_mul_of_nonneg_right (hle.trans h) (by positivity)

theorem IsCanonical.target_eq {m : Nat} {e : Int} (h : IsCanonical m e) : target m e = e := by
  have hlt := (Nat.log2_lt h.pos.ne').mpr h.lt
  have hleast := h.least
  rw [Decimal.target_eq]
  rcases h.normal with hnormal | hnormal
  · have hle := (Nat.le_log2 h.pos.ne').mpr hnormal
    omega
  · omega

/-- The exponent that a number is rounded to is that of the real whose interval it lies in, unless it lies below
    the foot of that real's binade. -/
theorem target_of_roundsTo {m n : Nat} {e e' : Int} (hlow : m ≤ w) (hhigh : w < m + 1) (hshift : e ≤ target m e)
    (hn : IsCanonical n e') (h : RoundsTo n e' (w * 2 ^ e)) :
    target m e = e' ∨ (target m e + 1 = e' ∧ n = 2 ^ 52 ∧ w * 2 ^ e < 2 ^ (52 + e')) := by
  have hv : w * 2 ^ e < 2 ^ ((m.log2 : Int) + 1 + e) := lt_two_zpow_log2 hhigh
  have hunit : (0 : ℚ) < 2 ^ e' := by positivity
  have hexp : ∀ {a b : Int}, (2 : ℚ) ^ a < 2 ^ b → a < b := fun h => (zpow_lt_zpow_iff_right₀ one_lt_two).mp h
  have hleast := hn.least
  -- No number is rounded to a greater exponent than its real has.
  have htop : w * 2 ^ e < 2 ^ (53 + e') := by
    have hn' : (n : ℚ) + 1 ≤ 2 ^ 53 := by exact_mod_cast hn.lt
    calc w * 2 ^ e ≤ (n + 1 / 2) * 2 ^ e' := h.high
      _ < 2 ^ 53 * 2 ^ e' := mul_lt_mul_of_pos_right (by linarith) hunit
      _ = 2 ^ (53 + e') := (two_zpow_add 53 e').symm
  rw [target_eq] at hshift ⊢
  have hle : max ((m.log2 : Int) + e - 52) (-1074) ≤ e' := by
    rcases Nat.eq_zero_or_pos m with rfl | hm
    · simp at hshift ⊢
      omega
    · have := hexp ((two_zpow_log2_le hm.ne' hlow).trans_lt htop)
      omega
  by_cases hfoot : w * 2 ^ e < 2 ^ (52 + e')
  · by_cases hmin : e' = -1074
    · left
      omega
    have hnormal := hn.normal.resolve_right hmin
    have hn' : n = 2 ^ 52 := by
      by_contra hne
      have hlarge : (2 : ℚ) ^ 52 + 1 ≤ n := by exact_mod_cast Nat.succ_le_of_lt (lt_of_le_of_ne hnormal (Ne.symm hne))
      refine absurd hfoot (not_lt.mpr ?_)
      calc (2 : ℚ) ^ (52 + e') = 2 ^ 52 * 2 ^ e' := two_zpow_add 52 e'
        _ ≤ (n - 1 / 2) * 2 ^ e' := mul_le_mul_of_nonneg_right (by linarith) hunit.le
        _ ≤ w * 2 ^ e := h.low
    have hbelow : (2 : ℚ) ^ (51 + e') ≤ w * 2 ^ e := by
      have hquarter : ((2 ^ 52 : Nat) - 1 / 4 : ℚ) * 2 ^ e' ≤ w * 2 ^ e := hn' ▸ h.foot hn' (by omega)
      calc (2 : ℚ) ^ (51 + e') = 2 ^ 51 * 2 ^ e' := two_zpow_add 51 e'
        _ ≤ ((2 ^ 52 : Nat) - 1 / 4) * 2 ^ e' := mul_le_mul_of_nonneg_right (by norm_num) hunit.le
        _ ≤ w * 2 ^ e := hquarter
    have h₁ := hexp (hbelow.trans_lt hv)
    right
    refine ⟨?_, hn', hfoot⟩
    rcases Nat.eq_zero_or_pos m with rfl | hm
    · simp at hshift h₁ ⊢
      omega
    · have h₂ := hexp ((two_zpow_log2_le hm.ne' hlow).trans_lt hfoot)
      omega
  · have h₁ := hexp ((not_lt.mp hfoot).trans_lt hv)
    left
    omega

theorem shiftToTargetExponent_eq (m : Nat) (e : Int) (a : Accuracy) :
    shiftToTargetExponent .binary64 m e a =
      (ExtendedMantissa.ofMantissaAndAccuracy m a >>> (target m e - e).toNat, e + (target m e - e).toNat) := rfl

theorem IsCanonical.shift_eq {m : Nat} {e : Int} (h : IsCanonical m e) :
    shiftToTargetExponent .binary64 m e .exact = (⟨m, false, false⟩, e) := by
  rw [shiftToTargetExponent_eq, h.target_eq, sub_self]
  simp only [Int.toNat_zero, Nat.cast_zero, add_zero]
  rfl

/-- A mantissa that was rounded up to one bit more is shifted. -/
theorem shift_carried {e : Int} (h : -1074 ≤ e) :
    shiftToTargetExponent .binary64 (2 ^ 53) e .exact = (⟨2 ^ 52, false, false⟩, e + 1) := by
  have htarget : target (2 ^ 53) e = e + 1 := by
    rw [target_eq, Nat.log2_two_pow]
    omega
  rw [shiftToTargetExponent_eq, htarget, add_sub_cancel_left]
  rfl

/-- Whatever is rounded, the real comes out in whose interval it lies. -/
theorem roundWithAccuracy_eq {m n : Nat} {e e' : Int} {a : Accuracy} (sign : Sign)
    (hw : Describes (.ofMantissaAndAccuracy m a) w) (hshift : e ≤ target m e) (hn : IsCanonical n e')
    (h : RoundsTo n e' (w * 2 ^ e)) : roundWithAccuracy .binary64 sign m e a = .finite sign n e' hn.pos := by
  have hlow : m ≤ w := mantissa_ofMantissaAndAccuracy m a ▸ hw.mantissa_le
  have hhigh : w < m + 1 := mantissa_ofMantissaAndAccuracy m a ▸ hw.lt_mantissa
  have hfirst : e + ((target m e - e).toNat : Int) = target m e := by omega
  have hem := hw.shiftRight (target m e - e).toNat
  have hunit : (0 : ℚ) < 2 ^ target m e := by positivity
  -- What is cut off is measured in units of the exponent that is rounded to.
  have hscale : w / 2 ^ (target m e - e).toNat = w * 2 ^ e / 2 ^ target m e := by
    have hk : (2 : ℚ) ^ target m e = 2 ^ e * 2 ^ (target m e - e).toNat := by
      rw [← zpow_natCast, ← zpow_add₀ two_ne_zero, hfirst]
    rw [hk]
    field_simp
  rw [hscale] at hem
  unfold roundWithAccuracy
  rw [shiftToTargetExponent_eq, hfirst]
  dsimp only
  generalize ExtendedMantissa.ofMantissaAndAccuracy m a >>> (target m e - e).toNat = em at hem ⊢
  rcases target_of_roundsTo hlow hhigh hshift hn h with hsame | ⟨hbelow, hn', hfoot⟩
  · rw [hsame] at hem hunit ⊢
    have hrounded : em.roundedMantissa = n := by
      refine hem.roundedMantissa ?_ ?_ ?_
      · rw [le_div_iff₀ hunit]
        exact h.low
      · rw [div_le_iff₀ hunit]
        exact h.high
      · intro hodd
        rw [lt_div_iff₀ hunit, div_lt_iff₀ hunit]
        exact h.odd hodd
    simp only [hrounded, hn.shift_eq, hn.pos.ne', dite_false]
  · -- Below the foot of the binade the mantissa is rounded up to a power of two, and shifted once more.
    have hbelow : target m e = e' - 1 := by omega
    have hmin : -1074 ≤ e' - 1 := by
      rw [← hbelow, target_eq]
      exact le_max_right _ _
    have hhalf : (2 : ℚ) ^ e' = 2 * 2 ^ (e' - 1) := by
      rw [← zpow_one_add₀ two_ne_zero, add_sub_cancel]
    rw [hbelow] at hem hunit ⊢
    have hrounded : em.roundedMantissa = 2 ^ 53 := by
      have hlow : ((2 ^ 52 : Nat) - 1 / 4 : ℚ) * 2 ^ e' ≤ w * 2 ^ e := hn' ▸ h.foot hn' (by omega)
      have hhigh : w * 2 ^ e < 2 ^ 52 * 2 ^ e' := by
        rw [← two_zpow_add]
        exact hfoot
      rw [hhalf] at hlow hhigh
      refine hem.roundedMantissa ?_ ?_ (fun hodd => absurd hodd (by decide))
      · rw [le_div_iff₀ hunit]
        norm_num at hlow ⊢
        linarith
      · rw [div_le_iff₀ hunit]
        norm_num at hhigh ⊢
        linarith
    simp only [hrounded, shift_carried hmin, hn']
    simp

end Dataflow.Decimal
