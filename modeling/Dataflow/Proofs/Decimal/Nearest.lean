import Dataflow.Proofs.Decimal.Layout
import Dataflow.Proofs.Decimal.Rounding

/-! # The real nearest to a decimal

A positive finite real is packed into its bits and unpacked again from them, and its parts are those that its bits
give. A decimal is read as a product or a quotient of an integer and a power of ten, so it is read as the real
whose interval it lies in. -/

namespace Dataflow.Decimal
open Float.Model Float.Model.UnpackedFloat

/-! ### Products and quotients -/

theorem le_target {m : Nat} {e : Int} (h : 2 ^ 52 ≤ m ∨ e ≤ -1074) : e ≤ target m e := by
  rw [target_eq]
  rcases h with h | h
  · have hm : m ≠ 0 := by
      rintro rfl
      exact absurd h (by decide)
    have hle := (Nat.le_log2 hm).mpr h
    omega
  · exact h.trans (le_max_right _ _)

variable {m₁ m₂ n : Nat} {e₁ e₂ e : Int}

theorem mul_eq (h₁ : 0 < m₁) (h₂ : 0 < m₂) (hlarge : 2 ^ 52 ≤ m₁ * m₂) (hn : IsCanonical n e)
    (h : RoundsTo n e (m₁ * m₂ * 2 ^ (e₁ + e₂))) :
    mul .binary64 (.finite .positive m₁ e₁ h₁) (.finite .positive m₂ e₂ h₂) = .finite .positive n e hn.pos := by
  have hexact := describes_exact (m₁ * m₂)
  rw [← Nat.cast_mul] at h
  exact roundWithAccuracy_eq .positive hexact (le_target (.inl hlarge)) hn h

theorem div_eq (h₁ : 0 < m₁) (h₂ : 0 < m₂) (hn : IsCanonical n e)
    (h : RoundsTo n e (m₁ * 2 ^ e₁ / (m₂ * 2 ^ e₂))) :
    div .binary64 (.finite .positive m₁ e₁ h₁) (.finite .positive m₂ e₂ h₂) = .finite .positive n e hn.pos := by
  -- The exponent of the quotient before it is rounded, and the bits that are shifted in for it.
  let t := min (e₁ - e₂) (Format.binary64.targetExponent (totalExponent m₁ e₁ - totalExponent m₂ e₂))
  let k := (e₁ - e₂ - t).toNat
  have ht : t = min (e₁ - e₂) (max (m₁.log2 + e₁ - (m₂.log2 + e₂) - 53) (-1074)) := by
    have hbits : (Format.binary64.mantissaBits : Int) = 53 := rfl
    have hleast : Format.binary64.minExponent = -1074 := rfl
    simp only [t, Format.targetExponent, totalExponent, hbits, hleast]
    congr 2
    ring
  have hk : t + k = e₁ - e₂ := by omega
  have hm₂ : (0 : ℚ) < m₂ := by exact_mod_cast h₂
  have hshifted : m₁ <<< k = m₁ * 2 ^ k := Nat.shiftLeft_eq _ _
  have hw : (((m₁ * 2 ^ k / m₂ : Nat) : ℚ) + (m₁ * 2 ^ k % m₂ : Nat) / m₂) = m₁ * 2 ^ k / m₂ := by
    rw [eq_div_iff hm₂.ne', add_mul, div_mul_cancel₀ _ hm₂.ne']
    exact_mod_cast Nat.div_add_mod' _ _
  have hrem : m₁ * 2 ^ k % m₂ < m₂ := Nat.mod_lt _ h₂
  have hdescribes := describes_fraction (m₁ * 2 ^ k / m₂) hrem
  have hvalue : (((m₁ * 2 ^ k / m₂ : Nat) : ℚ) + (m₁ * 2 ^ k % m₂ : Nat) / m₂) * 2 ^ t =
      m₁ * 2 ^ e₁ / (m₂ * 2 ^ e₂) := by
    have he₁ : e₁ = k + t + e₂ := by omega
    rw [hw, he₁, zpow_add₀ two_ne_zero, two_zpow_add]
    field_simp
  have hshift : t ≤ target (m₁ * 2 ^ k / m₂) t := by
    apply le_target
    by_cases hleast : t ≤ -1074
    · exact .inr hleast
    left
    have hbits : m₂.log2 + 53 ≤ m₁.log2 + k := by omega
    rw [Nat.le_div_iff_mul_le h₂]
    calc 2 ^ 52 * m₂ ≤ 2 ^ 52 * 2 ^ (m₂.log2 + 1) := Nat.mul_le_mul_left _ Nat.lt_log2_self.le
      _ = 2 ^ (m₂.log2 + 53) := by rw [← pow_add]; congr 1; omega
      _ ≤ 2 ^ (m₁.log2 + k) := Nat.pow_le_pow_right (by decide) hbits
      _ = 2 ^ m₁.log2 * 2 ^ k := pow_add _ _ _
      _ ≤ m₁ * 2 ^ k := Nat.mul_le_mul_right _ (Nat.log2_self_le h₁.ne')
  show roundWithAccuracy .binary64 .positive (m₁ <<< k / m₂) t (accuracyOfFraction (m₁ <<< k % m₂) m₂) = _
  rw [hshifted]
  exact roundWithAccuracy_eq .positive hdescribes hshift hn (hvalue ▸ h)

/-! ### Packed reals -/

theorem toNat_packComponents (sign : Sign) (exponent : BitVec 11) (mantissa : BitVec 52) :
    (packComponents .binary64 sign exponent mantissa).toNat =
      sign.toBitVec.toNat * 2 ^ 63 + exponent.toNat * 2 ^ 52 + mantissa.toNat := by
  have happend : ∀ {k l : Nat} (x : BitVec k) (y : BitVec l), (x ++ y).toNat = x.toNat * 2 ^ l + y.toNat := by
    intro k l x y
    rw [BitVec.toNat_append, ← Nat.shiftLeft_add_eq_or_of_lt y.isLt, Nat.shiftLeft_eq]
  show (sign.toBitVec ++ exponent ++ mantissa).toNat = _
  rw [happend, happend]
  ring

/-- The exponent and the mantissa that a finite real is packed with. -/
theorem pack_eq (sign : Sign) (h : IsCanonical n e) : UnpackedFloat.pack .binary64 (.finite sign n e h.pos) =
    if 2 ^ 52 ≤ n then packComponents .binary64 sign (BitVec.ofNat 11 (e + 1075).toNat) (BitVec.ofNat 52 n)
    else packComponents .binary64 sign 0#11 (BitVec.ofNat 52 n) := by
  have hgreatest := h.greatest
  have hlt := (Nat.log2_lt h.pos.ne').mpr h.lt
  have hbiased : e + (Format.binary64.exponentBias : Int) + (52 : Nat) = e + 1075 := by
    show e + 1023 + 52 = _
    ring
  have hbits : n.log2 + 1 = Format.binary64.mantissaBits ↔ 2 ^ 52 ≤ n := by
    rw [← Nat.le_log2 h.pos.ne']
    show n.log2 + 1 = 53 ↔ _
    omega
  unfold UnpackedFloat.pack
  dsimp only
  rw [hbiased, if_neg (by omega)]
  simp only [hbits]

theorem toNat_pack (sign : Sign) (h : IsCanonical n e) :
    (Float.Model.pack (.finite sign n e h.pos)).toBits.toNat =
      sign.toBitVec.toNat * 2 ^ 63 + (if 2 ^ 52 ≤ n then (e + 1075).toNat else 0) * 2 ^ 52 + n % 2 ^ 52 := by
  have hgreatest := h.greatest
  show (UnpackedFloat.pack .binary64 (.finite sign n e h.pos)).toNat = _
  rw [pack_eq sign h]
  split
  · rw [toNat_packComponents, BitVec.toNat_ofNat, BitVec.toNat_ofNat, Nat.mod_eq_of_lt (by omega)]
  · rw [toNat_packComponents, BitVec.toNat_ofNat]
    rfl

theorem unpack_pack (sign : Sign) (h : IsCanonical n e) :
    (Float.Model.pack (.finite sign n e h.pos)).unpack = .finite sign n e h.pos := by
  have hlt := h.lt
  have hleast := h.least
  have hgreatest := h.greatest
  show UnpackedFloat.unpack .binary64 (UnpackedFloat.pack .binary64 (.finite sign n e h.pos)) = _
  rw [pack_eq sign h]
  have hbias : ((Format.binary64.exponentBias : Int) + (52 : Nat)) = 1075 := rfl
  by_cases hnormal : 2 ^ 52 ≤ n
  · have hmantissa : (1#1 ++ BitVec.ofNat 52 n).toNat = n := by
      rw [BitVec.toNat_append, ← Nat.shiftLeft_add_eq_or_of_lt (BitVec.isLt _), BitVec.toNat_ofNat, Nat.shiftLeft_eq]
      show 1 * 2 ^ 52 + n % 2 ^ 52 = n
      omega
    have hexponent : (BitVec.ofNat 11 (e + 1075).toNat).toNat = (e + 1075).toNat := by
      rw [BitVec.toNat_ofNat, Nat.mod_eq_of_lt (by omega)]
    have hzero : BitVec.ofNat 11 (e + 1075).toNat ≠ 0#11 := by
      intro hzero
      rw [hzero] at hexponent
      change 0 = _ at hexponent
      omega
    have hones : BitVec.ofNat 11 (e + 1075).toNat ≠ -1#11 := by
      intro hones
      rw [hones] at hexponent
      change 2047 = _ at hexponent
      omega
    rw [if_pos hnormal]
    unfold UnpackedFloat.unpack
    simp only [unpackMantissa_packComponents, unpackExponent_packComponents, unpackSign_packComponents,
      Sign.ofBitVec_toBitVec, hones, hzero, if_false, hmantissa, hexponent, hbias]
    congr 1
    omega
  · have hmantissa : (BitVec.ofNat 52 n).toNat = n := by
      rw [BitVec.toNat_ofNat, Nat.mod_eq_of_lt (by omega)]
    have hpos : BitVec.ofNat 52 n ≠ 0#52 := by
      intro hzero
      rw [hzero] at hmantissa
      exact h.pos.ne hmantissa
    have hones : (0#11 : BitVec 11) ≠ -1#11 := by decide
    have hsmall : e = -1074 := h.normal.resolve_left hnormal
    rw [if_neg hnormal]
    unfold UnpackedFloat.unpack
    simp only [unpackMantissa_packComponents, unpackExponent_packComponents, unpackSign_packComponents,
      Sign.ofBitVec_toBitVec, hones, hpos, if_false, if_true, dite_false, hmantissa, hbias]
    congr 1
    exact hsmall.symm

def signOf (negative : Bool) : Sign := if negative then .negative else .positive

theorem toNat_signOf (negative : Bool) : (signOf negative).toBitVec.toNat = negative.toNat := by
  cases negative <;> rfl

/-- The parts of a finite real, as its bits give them. -/
theorem bits_of_finite {x : Float} {b : Binary} (h : Real.ofFloat x = .finite b) :
    ∃ biased fraction : Nat, fraction < 2 ^ 52 ∧
      x.toBits.toNat = b.negative.toNat * 2 ^ 63 + biased * 2 ^ 52 + fraction ∧
      (biased = 0 ∧ b.mantissa = fraction ∧ b.exponent = -1074 ∧ b.narrow = false ∨
        0 < biased ∧ biased < 2047 ∧ b.mantissa = 2 ^ 52 + fraction ∧ b.exponent = biased - 1075 ∧
          (b.narrow = true ↔ fraction = 0 ∧ 1 < biased)) := by
  obtain ⟨negative, biased, fraction, hbits, -, hfraction, hcases⟩ := Real.ofFloat_cases x
  rw [h] at hcases
  rcases hcases with ⟨-, -, hb⟩ | ⟨-, -, hb⟩ | ⟨hzero, hb⟩ | ⟨hpos, hlt, hb⟩ <;> cases hb
  · exact ⟨biased, fraction, hfraction, hbits, .inl ⟨hzero, rfl, rfl, rfl⟩⟩
  · exact ⟨biased, fraction, hfraction, hbits, .inr ⟨hpos, hlt, rfl, rfl, decide_eq_true_iff⟩⟩

/-- A mantissa that is not zero is that of a canonical form, packed. -/
theorem eq_pack_of_finite {x : Float} {b : Binary} (h : Real.ofFloat x = .finite b) (hb : b.mantissa ≠ 0) :
    ∃ hc : IsCanonical b.mantissa b.exponent, (b.narrow = true ↔ b.mantissa = 2 ^ 52 ∧ -1074 < b.exponent) ∧
      x = .ofModel (.pack (.finite (signOf b.negative) b.mantissa b.exponent hc.pos)) := by
  obtain ⟨biased, fraction, hfraction, hbits, hparts⟩ := bits_of_finite h
  have hc : IsCanonical b.mantissa b.exponent := by
    rcases hparts with ⟨hzero, hm, he, -⟩ | ⟨hpos, hlt, hm, he, -⟩ <;> constructor <;> omega
  refine ⟨hc, ?_, Float.toBits_inj.mp (UInt64.toNat_inj.mp ?_)⟩
  · rcases hparts with ⟨hzero, hm, he, hnarrow⟩ | ⟨hpos, hlt, hm, he, hnarrow⟩
    · rw [hnarrow, he]
      simp
    · rw [hnarrow]
      omega
  · rw [hbits]
    show _ = (Float.Model.pack _).toBits.toNat
    rw [toNat_pack _ hc, toNat_signOf]
    rcases hparts with ⟨hzero, hm, he, -⟩ | ⟨hpos, hlt, hm, he, -⟩
    · rw [if_neg (by omega), hm, hzero, Nat.mod_eq_of_lt hfraction]
    · have hexponent : (b.exponent + 1075).toNat = biased := by omega
      have hmantissa : b.mantissa % 2 ^ 52 = fraction := by omega
      rw [if_pos (by omega), hexponent, hmantissa]

theorem eq_zero_of_finite {x : Float} {b : Binary} (h : Real.ofFloat x = .finite b) (hb : b.mantissa = 0) :
    x = if b.negative then -0.0 else 0.0 := by
  obtain ⟨biased, fraction, -, hbits, hparts⟩ := bits_of_finite h
  apply Float.toBits_inj.mp
  apply UInt64.toNat_inj.mp
  obtain ⟨hbiased, hfraction⟩ : biased = 0 ∧ fraction = 0 := by omega
  rw [hbits, hbiased, hfraction]
  cases b.negative <;> decide +kernel

/-! ### The nearest real -/

/-- A decimal is read by rounding a product or a quotient by a power of ten, if it is not far out of range. -/
theorem ofScientific_eq {m : Nat} {k : Int} (hm : 0 < m) (hsmall : -2048 ≤ k + m.log2) (hlarge : k ≤ 2048)
    (hn : IsCanonical n e) (h : RoundsTo n e (m * 10 ^ k)) :
    UnpackedFloat.ofScientific .binary64 m k = .finite .positive n e hn.pos := by
  have hbits : (2 : Int) ^ Format.binary64.exponentBits = 2048 := rfl
  unfold UnpackedFloat.ofScientific
  rw [dif_neg hm.ne', if_neg (by omega), if_neg (by omega)]
  by_cases hk : 0 ≤ k
  · obtain ⟨k, rfl⟩ := Int.eq_ofNat_of_zero_le hk
    have hmantissa : Format.binary64.mantissaBits = 53 := rfl
    simp only [if_pos hk, hmantissa, Int.toNat_natCast, Nat.shiftLeft_eq, Nat.cast_ofNat]
    refine mul_eq _ _ ?_ hn ?_
    · calc 2 ^ 52 ≤ 1 * 2 ^ 53 * 1 := by decide
        _ ≤ m * 2 ^ 53 * 10 ^ k := Nat.mul_le_mul (Nat.mul_le_mul_right _ hm) (Nat.one_le_pow _ _ (by decide))
    · have hvalue : ((m * 2 ^ 53 : Nat) : ℚ) * (10 ^ k : Nat) * 2 ^ (-53 + 0 : Int) = m * 10 ^ (k : Int) := by
        rw [zpow_natCast]
        push_cast
        norm_num
        ring
      rw [hvalue]
      exact h
  · obtain ⟨k, rfl⟩ : ∃ k' : Nat, k = -(k' : Int) := ⟨(-k).toNat, by omega⟩
    simp only [if_neg hk, neg_neg, Int.toNat_natCast]
    refine div_eq _ _ hn ?_
    have hvalue : (m : ℚ) * 2 ^ (0 : Int) / ((10 ^ k : Nat) * 2 ^ (0 : Int)) = m * 10 ^ (-(k : Int)) := by
      rw [zpow_neg, zpow_natCast, zpow_zero]
      push_cast
      rw [mul_one, mul_one, div_eq_mul_inv]
    rw [hvalue]
    exact h

/-! A number below `2 ^ 53` is a real, and so are the first powers of ten. Decimals made up of these are read by
one product or quotient of reals. -/

theorem isCanonical_shifted {a : Nat} {k : Int} (ha : 0 < a) (hlt : a < 2 ^ 53) (hsmall : -1000 ≤ k)
    (hlarge : k ≤ 900) :
    2 ^ 52 ≤ a * 2 ^ (52 - a.log2) ∧ IsCanonical (a * 2 ^ (52 - a.log2)) (k + a.log2 - 52) := by
  have hbits := (Nat.log2_lt ha.ne').mpr hlt
  have hlow : 2 ^ 52 ≤ a * 2 ^ (52 - a.log2) := by
    calc 2 ^ 52 = 2 ^ a.log2 * 2 ^ (52 - a.log2) := by rw [← pow_add]; congr 1; omega
      _ ≤ a * 2 ^ (52 - a.log2) := Nat.mul_le_mul_right _ (Nat.log2_self_le ha.ne')
  have hhigh : a * 2 ^ (52 - a.log2) < 2 ^ 53 := by
    calc a * 2 ^ (52 - a.log2) < 2 ^ (a.log2 + 1) * 2 ^ (52 - a.log2) :=
          Nat.mul_lt_mul_of_pos_right Nat.lt_log2_self (Nat.two_pow_pos _)
      _ = 2 ^ 53 := by rw [← pow_add]; congr 1; omega
  exact ⟨hlow, (Nat.two_pow_pos _).trans_le hlow, hhigh, by omega, by omega, .inl hlow⟩

theorem shifted_value {a : Nat} {k : Int} (hlt : a < 2 ^ 53) :
    ((a * 2 ^ (52 - a.log2) : Nat) : ℚ) * 2 ^ (k + a.log2 - 52) = a * 2 ^ k := by
  have hbits : a.log2 ≤ 52 := by
    rcases Nat.eq_zero_or_pos a with rfl | ha
    · decide
    · exact Nat.le_of_lt_succ ((Nat.log2_lt ha.ne').mpr hlt)
  have hk : k = (52 - a.log2 : Nat) + (k + a.log2 - 52) := by omega
  conv_rhs => rw [hk, two_zpow_add]
  push_cast
  ring

theorem unpack_ofNat {m : Nat} (hm : 0 < m) (hlt : m < 2 ^ 53) :
    m.toUInt64.toFloat.toModel.unpack =
      .finite .positive (m * 2 ^ (52 - m.log2)) (0 + m.log2 - 52) (Nat.mul_pos hm (Nat.two_pow_pos _)) := by
  obtain ⟨hlow, hc⟩ := isCanonical_shifted (k := 0) hm hlt (by decide) (by decide)
  have hnat : m.toUInt64.toNat = m := Nat.mod_eq_of_lt (hlt.trans (by decide))
  have hround : UnpackedFloat.ofNat .binary64 m =
      .finite .positive (m * 2 ^ (52 - m.log2)) (0 + m.log2 - 52) hc.pos := by
    have hpos : compare (m : Int) 0 = .gt := Int.compare_eq_gt.mpr (by omega)
    have htarget : (0 - target m 0).toNat = 52 - m.log2 := by
      have hbits := (Nat.log2_lt hm.ne').mpr hlt
      rw [target_eq]
      omega
    unfold UnpackedFloat.ofNat UnpackedFloat.ofInt UnpackedFloat.normalize
    rw [hpos]
    show roundWithAccuracy .binary64 .positive (m <<< (0 - target m 0).toNat) (0 - (0 - target m 0).toNat) .exact = _
    rw [htarget, Nat.shiftLeft_eq]
    have hexponent : (0 : Int) - (52 - m.log2 : Nat) = 0 + m.log2 - 52 := by
      have hbits := (Nat.log2_lt hm.ne').mpr hlt
      omega
    rw [hexponent]
    exact roundWithAccuracy_eq .positive (describes_exact _) (le_target (.inl hlow)) hc .self
  show (Float.Model.pack (UnpackedFloat.ofNat .binary64 m.toUInt64.toNat)).unpack = _
  rw [hnat, hround]
  exact unpack_pack .positive hc

theorem shifted_power_pos (k : Nat) : 0 < 5 ^ k * 2 ^ (52 - (5 ^ k).log2) :=
  Nat.mul_pos (Nat.pow_pos (by decide)) (Nat.two_pow_pos _)

theorem unpack_power {k : Nat} (hk : k < 23) :
    (getElem Float.exactlyRepresentablePowersOfTen k hk).toModel.unpack =
      .finite .positive (5 ^ k * 2 ^ (52 - (5 ^ k).log2)) (k + (5 ^ k).log2 - 52) (shifted_power_pos k) := by
  have hall : ∀ k : Fin 23, 5 ^ k.1 < 2 ^ 53 ∧ getElem Float.exactlyRepresentablePowersOfTen k.1 k.2 = .ofModel (.pack
      (.finite .positive (5 ^ k.1 * 2 ^ (52 - (5 ^ k.1).log2)) (k.1 + (5 ^ k.1).log2 - 52)
        (shifted_power_pos k.1))) := by
    decide +kernel
  obtain ⟨hlt, hpower⟩ := hall ⟨k, hk⟩
  obtain ⟨-, hc⟩ := isCanonical_shifted (k := k) (Nat.pow_pos (by decide)) hlt (by omega) (by omega)
  rw [hpower]
  exact unpack_pack .positive hc

/-- The real that the table holds for a power of ten is that power. -/
theorem power_value {k : Nat} (hk : k < 23) :
    ((5 ^ k * 2 ^ (52 - (5 ^ k).log2) : Nat) : ℚ) * 2 ^ (k + (5 ^ k).log2 - 52 : Int) = 10 ^ k := by
  have hlt : 5 ^ k < 2 ^ 53 :=
      (Nat.pow_le_pow_right (by decide) (Nat.le_of_lt_succ hk)).trans_lt (by decide : 5 ^ 22 < 2 ^ 53)
  rw [shifted_value hlt, zpow_natCast]
  push_cast
  rw [← mul_pow]
  norm_num

/-- A decimal in the range of the reals is read as the real whose interval it lies in. -/
theorem float_ofScientific {m : Nat} {k : Int} (hm : 0 < m) (hsmall : -2048 ≤ k + m.log2) (hlarge : k ≤ 2048)
    (hn : IsCanonical n e) (h : RoundsTo n e (m * 10 ^ k)) :
    Float.ofScientific m (decide (k < 0)) k.natAbs = .ofModel (.pack (.finite .positive n e hn.pos)) := by
  unfold Float.ofScientific
  by_cases hfast : m < 2 ^ 53 ∧ k.natAbs ≤ 22
  · obtain ⟨hlt, hk⟩ := hfast
    rw [dif_pos ⟨hlt, hk⟩]
    have hk : k.natAbs < 23 := Nat.lt_succ_of_le hk
    have hmantissa := shifted_value (k := 0) hlt
    have hpower := power_value hk
    rw [zpow_zero, mul_one] at hmantissa
    by_cases hneg : k < 0
    · rw [if_pos (by simpa using hneg)]
      show Float.ofModel (.pack (div .binary64 m.toUInt64.toFloat.toModel.unpack
        (getElem Float.exactlyRepresentablePowersOfTen k.natAbs hk).toModel.unpack)) = _
      rw [unpack_ofNat hm hlt, unpack_power hk, div_eq _ _ hn]
      rw [hmantissa, hpower, ← zpow_natCast, div_eq_mul_inv, ← zpow_neg]
      have hexponent : -(k.natAbs : Int) = k := by omega
      rw [hexponent]
      exact h
    · rw [if_neg (by simpa using hneg)]
      show Float.ofModel (.pack (mul .binary64 m.toUInt64.toFloat.toModel.unpack
        (getElem Float.exactlyRepresentablePowersOfTen k.natAbs hk).toModel.unpack)) = _
      rw [unpack_ofNat hm hlt, unpack_power hk, mul_eq _ _ _ hn]
      · rw [zpow_add₀ two_ne_zero, mul_mul_mul_comm, hmantissa, hpower, ← zpow_natCast]
        have hexponent : (k.natAbs : Int) = k := by omega
        rw [hexponent]
        exact h
      · have hlow := (isCanonical_shifted (k := 0) hm hlt (by decide) (by decide)).1
        exact hlow.trans (Nat.le_mul_of_pos_right _ (by positivity))
  · rw [dif_neg hfast]
    have hexponent : (if decide (k < 0) = true then Int.negOfNat k.natAbs else Int.ofNat k.natAbs) = k := by
      by_cases hk : k < 0
      · simp only [hk, decide_true, if_true, Int.negOfNat_eq]
        show -(k.natAbs : Int) = k
        omega
      · simp only [hk, decide_false, Bool.false_eq_true, if_false]
        show (k.natAbs : Int) = k
        omega
    rw [hexponent]
    exact congrArg (fun x => Float.ofModel (Float.Model.pack x)) (ofScientific_eq hm hsmall hlarge hn h)

end Dataflow.Decimal
