import Dataflow.Json.Basic
import Dataflow.Proofs.Decimal.Shortest

/-! # Reals are read as they were written

The written form of a finite real has the value of its shortest decimal, which rounds to that real; and reading a
numeral rounds its value. So every real that has a decimal comes back from its written form, to the last bit. -/

namespace Dataflow.Decimal
open Float.Model Float.Model.UnpackedFloat

variable {m n : Nat} {k e : Int}

/-! ### The range of the reals -/

theorem RoundsTo.lt {v : ℚ} (hn : IsCanonical n e) (h : RoundsTo n e v) : v < 10 ^ (309 : Int) := by
  have hle : (n : ℚ) + 1 ≤ 2 ^ 53 := by exact_mod_cast hn.lt
  have hpow : (2 : ℚ) ^ 1024 < 10 ^ 309 := by exact_mod_cast (by decide +kernel : 2 ^ 1024 < 10 ^ 309)
  calc v ≤ (n + 1 / 2) * 2 ^ e := h.high
    _ ≤ 2 ^ 53 * 2 ^ (971 : Int) :=
      mul_le_mul (by linarith) (zpow_le_zpow_right₀ one_le_two hn.greatest) (by positivity) (by positivity)
    _ = 2 ^ 1024 := by rw [← two_zpow_add]; exact zpow_natCast 2 1024
    _ < 10 ^ 309 := hpow
    _ = 10 ^ (309 : Int) := (zpow_natCast 10 309).symm

theorem RoundsTo.gt {v : ℚ} (hn : IsCanonical n e) (h : RoundsTo n e v) : 10 ^ (-324 : Int) < v := by
  have hle : (1 : ℚ) ≤ n := by exact_mod_cast hn.pos
  have hpow : (2 : ℚ) ^ 1075 < 10 ^ 324 := by exact_mod_cast (by decide +kernel : 2 ^ 1075 < 10 ^ 324)
  calc (10 : ℚ) ^ (-324 : Int) = (10 ^ 324)⁻¹ := zpow_neg 10 324
    _ < (2 ^ 1075)⁻¹ := inv_strictAnti₀ (by positivity) hpow
    _ = 2⁻¹ * 2 ^ (-1074 : Int) := by rw [zpow_neg, ← mul_inv]; exact congrArg Inv.inv (pow_succ' 2 1074)
    _ ≤ (n - 1 / 2) * 2 ^ e :=
      mul_le_mul (by linarith) (zpow_le_zpow_right₀ one_le_two hn.least) (by positivity) (by linarith)
    _ ≤ v := h.low

namespace Numeral

theorem lt_pow_length (m : Nat) : m < 10 ^ (Nat.toDigits 10 m).length :=
  (Nat.length_toDigits_le_iff (by decide) Nat.length_toDigits_pos).mp le_rfl

theorem pow_length_le (hm : 0 < m) : 10 ^ ((Nat.toDigits 10 m).length - 1) ≤ m := by
  have hpos : 0 < (Nat.toDigits 10 m).length := Nat.length_toDigits_pos
  by_contra hlt
  have hshort : 0 < (Nat.toDigits 10 m).length - 1 := by
    by_contra hone
    have hzero : (Nat.toDigits 10 m).length - 1 = 0 := by omega
    rw [hzero] at hlt
    omega
  have hle := (Nat.length_toDigits_le_iff (by decide) hshort).mpr (not_le.mp hlt)
  omega

/-- Reading rounds: the number comes out as the real whose interval it lies in. -/
theorem nearest_eq (hm : 0 < m) (hn : IsCanonical n e) (h : RoundsTo n e (m * 10 ^ k)) :
    nearest m k = .ofModel (.pack (.finite .positive n e hn.pos)) := by
  have hten : (10 : ℚ) ≠ 0 := by norm_num
  have hpos : 0 < (Nat.toDigits 10 m).length := Nat.length_toDigits_pos
  have hunit : (0 : ℚ) < 10 ^ k := by positivity
  have hexp : ∀ {a b : Int}, (10 : ℚ) ^ a < 10 ^ b → a < b := fun h => (zpow_lt_zpow_iff_right₀ (by norm_num)).mp h
  have hlow : (10 : ℚ) ^ ((((Nat.toDigits 10 m).length - 1 : Nat) : Int) + k) ≤ m * 10 ^ k := by
    rw [zpow_add₀ hten, zpow_natCast]
    exact mul_le_mul_of_nonneg_right (by exact_mod_cast pow_length_le hm) hunit.le
  have hhigh : (m : ℚ) * 10 ^ k < 10 ^ (((Nat.toDigits 10 m).length : Int) + k) := by
    rw [zpow_add₀ hten, zpow_natCast]
    exact mul_lt_mul_of_pos_right (by exact_mod_cast lt_pow_length m) hunit
  have hmost := hexp (hlow.trans_lt (h.lt hn))
  have hleast := hexp ((h.gt hn).trans hhigh)
  -- A number has no more digits than bits.
  have hbits : (Nat.toDigits 10 m).length - 1 < m.log2 + 1 := by
    refine (Nat.pow_lt_pow_iff_right (by decide : 1 < 2)).mp ?_
    calc
      2 ^ ((Nat.toDigits 10 m).length - 1) ≤ 10 ^ ((Nat.toDigits 10 m).length - 1) := Nat.pow_le_pow_left (by decide) _
      _ ≤ m := pow_length_le hm
      _ < 2 ^ (m.log2 + 1) := Nat.lt_log2_self
  unfold nearest
  dsimp only
  have hlength : (Int.ofNat (Nat.toDigits 10 m).length) = ((Nat.toDigits 10 m).length : Int) := rfl
  rw [if_neg (by omega), if_neg (by omega)]
  exact float_ofScientific hm (by omega) (by omega) hn h

end Numeral

/-! ### Written reals -/

/-- The written form of a finite real, in a layout that keeps the point, is read as that real. -/
theorem toFloat_write {l : Layout} {x : Float} {b : Binary} (hpoint : l.point = true)
    (hx : Real.ofFloat x = .finite b) :
    ∃ n : Numeral, n.IsWritten ∧ n.isJson = true ∧ (l.write x).toList = n.chars ∧ n.toFloat = x ∧ x.isInf = false := by
  obtain ⟨n, hwritten, hjson, hchars, hsign, hvalue⟩ := Layout.exists_write_finite hpoint hx
  refine ⟨n, hwritten, hjson, hchars, ?_⟩
  by_cases hb : b.mantissa = 0
  · have hzero : n.scaled.1 = 0 := by
      have hdigits : b.shortest l.tie = ⟨[], 0⟩ := if_pos hb
      rw [hdigits] at hvalue
      have hnone : (⟨[], 0⟩ : Digits).value = 0 := by simp [Digits.value, Numeral.ofDigits]
      rw [hnone, Numeral.value, mul_eq_zero] at hvalue
      exact_mod_cast hvalue.resolve_right (by positivity)
    have hnearest : Numeral.nearest n.scaled.1 n.scaled.2 = 0.0 := by
      rw [Numeral.nearest, hzero]
      exact if_pos (.inl rfl)
    rw [Numeral.toFloat, hnearest, hsign, eq_zero_of_finite hx hb]
    cases b.negative <;> decide +kernel
  · obtain ⟨hc, hnarrow, hpack⟩ := eq_pack_of_finite hx hb
    have hrounds := Binary.roundsTo_shortest l.tie hc hnarrow
    rw [← hvalue] at hrounds
    have hpos : 0 < n.scaled.1 := by
      have hlt := (by positivity : (0 : ℚ) < 10 ^ (-324 : Int)).trans (hrounds.gt hc)
      by_contra hzero
      have hzero : n.scaled.1 = 0 := by omega
      rw [Numeral.value, hzero, Nat.cast_zero, zero_mul] at hlt
      exact lt_irrefl _ hlt
    have hnearest := Numeral.nearest_eq hpos hc hrounds
    constructor
    · rw [Numeral.toFloat, hsign, hnearest]
      conv_rhs => rw [hpack]
      cases b.negative with
      | false => rfl
      | true =>
        show Float.ofModel (.pack (neg (Float.Model.pack _).unpack)) = _
        rw [unpack_pack .positive hc]
        rfl
    · rw [hpack]
      show (Float.Model.pack _).unpack.isInf = false
      rw [unpack_pack _ hc]
      rfl

/-- Every real that has a decimal is read from its stored form, to the last bit. -/
theorem real?_write {x : Float} (hx : nonFinite? x = none) : Json.real? (Layout.stored.write x) = some x := by
  obtain ⟨b, hreal⟩ := Layout.exists_finite hx
  obtain ⟨n, hwritten, -, hchars, hfloat, hfinite⟩ := toFloat_write (l := .stored) rfl hreal
  rw [Json.real?, hchars, Numeral.ofChars?_chars hwritten]
  dsimp only
  rw [hfloat, hfinite]
  rfl

end Dataflow.Decimal
