import Dataflow.Proofs.Decimal.Nearest

/-! # The shortest decimal

The digits that are written for a real are those of a decimal that rounds to it. Each decimal is tried before it
is taken, and the last resort is the real itself. -/

namespace Dataflow.Decimal

/-! ### Ratios -/

namespace Ratio
variable {a b : Ratio} {n base : Nat} {k : Int}

def toRat (a : Ratio) : ℚ := a.num / a.den

theorem den_scaled_pos (h : 0 < base) : 0 < (scaled n base k).den := Nat.pow_pos h

theorem toRat_scaled (h : 0 < base) : (scaled n base k).toRat = n * base ^ k := by
  have hbase : (base : ℚ) ≠ 0 := by exact_mod_cast h.ne'
  have hk : k = k.toNat - (-k).toNat := by omega
  show ((n * base ^ k.toNat : Nat) : ℚ) / (base ^ (-k).toNat : Nat) = _
  conv_rhs => rw [hk, zpow_sub₀ hbase, zpow_natCast, zpow_natCast]
  push_cast
  ring

theorem le_iff (ha : 0 < a.den) (hb : 0 < b.den) : a.le b = true ↔ a.toRat ≤ b.toRat := by
  rw [le, decide_eq_true_eq, toRat, toRat, div_le_div_iff₀ (by exact_mod_cast ha) (by exact_mod_cast hb)]
  norm_cast

theorem lt_iff (ha : 0 < a.den) (hb : 0 < b.den) : a.lt b = true ↔ a.toRat < b.toRat := by
  rw [lt, decide_eq_true_eq, toRat, toRat, div_lt_div_iff₀ (by exact_mod_cast ha) (by exact_mod_cast hb)]
  norm_cast

end Ratio

/-! ### Decimals that round to a real -/

namespace Binary
variable {b : Binary} {tie : Tie} {n : Nat} {step : Int}

/-- What is tried is whether the decimal lies in the interval of the real. -/
theorem roundsTo_of_rounds (hc : IsCanonical b.mantissa b.exponent)
    (hnarrow : b.narrow = true ↔ b.mantissa = 2 ^ 52 ∧ -1074 < b.exponent) (h : b.rounds (.scaled n 10 step) = true) :
    RoundsTo b.mantissa b.exponent (n * 10 ^ step) := by
  have hvalue : (Ratio.scaled n 10 step).toRat = n * 10 ^ step := Ratio.toRat_scaled (by decide)
  have hunit : (0 : ℚ) < 2 ^ (b.exponent - 2) := by positivity
  have hquarter : (2 : ℚ) ^ b.exponent = 4 * 2 ^ (b.exponent - 2) := by
    have hsplit : b.exponent = (2 : Nat) + (b.exponent - 2) := by omega
    conv_lhs => rw [hsplit, two_zpow_add]
    norm_num
  have hlow : (Ratio.scaled b.units.2.1 2 (b.exponent - 2)).toRat =
      (b.mantissa - (if b.narrow then 1 / 4 else 1 / 2)) * 2 ^ b.exponent := by
    have hle : (if b.narrow then 1 else 2) ≤ 4 * b.mantissa := by
      have := hc.pos
      split <;> omega
    rw [Ratio.toRat_scaled (by decide), hquarter, units, Nat.cast_sub hle]
    push_cast
    split <;> ring
  have hhigh : (Ratio.scaled b.units.2.2 2 (b.exponent - 2)).toRat = (b.mantissa + 1 / 2) * 2 ^ b.exponent := by
    rw [Ratio.toRat_scaled (by decide), hquarter, units]
    push_cast
    ring
  have hden : ∀ {n base : Nat} {k : Int}, 0 < base → 0 < (Ratio.scaled n base k).den := Ratio.den_scaled_pos
  have hunit : (0 : ℚ) < 2 ^ b.exponent := by positivity
  unfold rounds at h
  dsimp only at h
  split at h <;> rename_i hparity <;> rw [Bool.and_eq_true] at h
  · rw [Ratio.le_iff (hden (by decide)) (hden (by decide)), Ratio.le_iff (hden (by decide)) (hden (by decide)), hvalue,
      hlow, hhigh] at h
    obtain ⟨hl, hh⟩ := h
    refine ⟨?_, hh, fun hodd => absurd (hparity.symm.trans hodd) (by decide), fun hm he => ?_⟩
    · refine (mul_le_mul_of_nonneg_right ?_ hunit.le).trans hl
      split <;> linarith
    · rwa [if_pos (hnarrow.mpr ⟨hm, he⟩)] at hl
  · rw [Ratio.lt_iff (hden (by decide)) (hden (by decide)), Ratio.lt_iff (hden (by decide)) (hden (by decide)), hvalue,
      hlow, hhigh] at h
    have hwide : ¬b.narrow = true := fun hfoot => hparity ((hnarrow.mp hfoot).1 ▸ by decide)
    rw [if_neg hwide] at h
    exact ⟨h.1.le, h.2.le, fun _ => h, fun hm => absurd (hm ▸ by decide) hparity⟩

theorem rounds_of_onGrid? (h : b.onGrid? tie step = some n) : b.rounds (.scaled n 10 step) = true := by
  unfold onGrid? at h
  dsimp only at h
  split at h
  case h_1 hbelow _ =>
    cases h
    exact hbelow
  case h_2 _ habove =>
    cases h
    exact habove
  case h_3 => cases h
  case h_4 hbelow habove =>
    -- Both neighbours round to the real, so whichever is taken does.
    have hboth : n = ((b.value.shift step).floor) ∨ n = (b.value.shift step).floor + 1 := by
      split at h
      · exact .inl (Option.some.inj h).symm
      · split at h
        · exact .inr (Option.some.inj h).symm
        · split at h
          · exact .inr (Option.some.inj h).symm
          · have hn := (Option.some.inj h).symm
            split at hn
            · exact .inl hn
            · exact .inr hn
    rcases hboth with rfl | rfl
    · exact hbelow
    · exact habove

/-! ### Digits of a decimal -/

theorem map_digitChar_digitsOf (n : Nat) : (digitsOf n).map Nat.digitChar = Nat.toDigits 10 n := by
  have hdigit : ∀ k < 10, Nat.digitChar k = Char.ofNat (48 + k) := by decide
  rw [digitsOf, List.map_map]
  refine (List.map_congr_left fun c hc => ?_).trans (List.map_id _)
  obtain ⟨hlow, hhigh⟩ := Numeral.isDigit_iff.mp (Numeral.isDigit_of_mem_toDigits hc)
  show Nat.digitChar (c.toNat - 48) = c
  rw [hdigit _ (by omega), show 48 + (c.toNat - 48) = c.toNat by omega, Char.ofNat_toNat]

/-- Only zeros are left out at the end. -/
theorem exists_digitsOf (n : Nat) (step : Int) : ∃ k, digitsOf n = (normal n step).digits ++ List.replicate k 0 := by
  let zeros := (digitsOf n).reverse.takeWhile (· == 0)
  have hzeros : zeros.reverse = List.replicate zeros.length 0 := by
    rw [List.eq_replicate_iff]
    refine ⟨List.length_reverse, fun k hk => ?_⟩
    have hzero : (k == 0) = true := List.mem_takeWhile_imp (p := (· == 0)) (List.mem_reverse.mp hk)
    exact beq_iff_eq.mp hzero
  refine ⟨zeros.length, ?_⟩
  rw [← hzeros]
  show _ = ((digitsOf n).reverse.dropWhile (· == 0)).reverse ++ _
  rw [← List.reverse_append, List.takeWhile_append_dropWhile, List.reverse_reverse]

/-- The zeros at the end that are left out count in the place of the point. -/
theorem value_normal (n : Nat) (step : Int) : (normal n step).value = n * 10 ^ step := by
  obtain ⟨k, hdigits⟩ := exists_digitsOf n step
  have hnumber : Numeral.ofDigits 10 ((normal n step).digits.map Nat.digitChar) * 10 ^ k = n := by
    have hzeros : (List.replicate k 0).map Nat.digitChar = Layout.zeros k := List.map_replicate
    rw [← Layout.ofDigits_append_zeros, ← hzeros, ← List.map_append, ← hdigits, map_digitChar_digitsOf,
      Numeral.ofDigits_toDigits]
  have hpoint : (normal n step).point - (normal n step).digits.length = k + step := by
    have hlength := congrArg List.length hdigits
    rw [List.length_append, List.length_replicate] at hlength
    show step + ((digitsOf n).length : Int) - _ = _
    omega
  rw [Digits.value, hpoint, zpow_add₀ (by norm_num), zpow_natCast, ← mul_assoc]
  exact_mod_cast congrArg (fun k : Nat => (k : ℚ) * 10 ^ step) hnumber

theorem value_exact (b : Binary) : b.exact.value = b.mantissa * 2 ^ b.exponent := by
  unfold exact
  rw [value_normal]
  have hexponent : b.exponent = b.exponent.toNat - (-b.exponent).toNat := by omega
  have hten : (10 : ℚ) ^ (-Int.ofNat (-b.exponent).toNat) =
      (2 ^ (-b.exponent).toNat)⁻¹ * (5 ^ (-b.exponent).toNat)⁻¹ := by
    rw [← mul_inv, ← mul_pow, Int.ofNat_eq_natCast, zpow_neg, zpow_natCast]
    norm_num
  conv_rhs => rw [hexponent, zpow_sub₀ two_ne_zero, zpow_natCast, zpow_natCast]
  rw [hten]
  simp only [Nat.pow_eq]
  push_cast
  field_simp

/-- The shortest decimal of a finite real rounds to it. -/
theorem roundsTo_shortest (tie : Tie) (hc : IsCanonical b.mantissa b.exponent)
    (hnarrow : b.narrow = true ↔ b.mantissa = 2 ^ 52 ∧ -1074 < b.exponent) :
    RoundsTo b.mantissa b.exponent (b.shortest tie).value := by
  unfold shortest
  rw [if_neg hc.pos.ne']
  dsimp only
  rcases h : List.findSome? _ _ with _ | d
  · rw [Option.getD_none, value_exact]
    exact .self
  · obtain ⟨step, -, hstep⟩ := List.exists_of_findSome?_eq_some h
    obtain ⟨n, hgrid, rfl⟩ := Option.map_eq_some_iff.mp hstep
    rw [Option.getD_some, value_normal]
    exact roundsTo_of_rounds hc hnarrow (rounds_of_onGrid? hgrid)

end Binary
end Dataflow.Decimal
