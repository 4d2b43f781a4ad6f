import Dataflow.Decimal.Layout
import Dataflow.Proofs.Decimal.Numeral
import Mathlib

/-! # Reals as numerals

The shortest decimal of a real starts with no zero, so a layout that keeps the point of whole numbers
writes it as a numeral of JSON, and the numeral has the value of the decimal. The reals without a decimal are
three, as all that are not a number have the same bits. -/

namespace Dataflow.Decimal

/-- The number that a numeral writes, its sign left aside. -/
def Numeral.value (n : Numeral) : ℚ := n.scaled.1 * 10 ^ n.scaled.2

/-- The number that digits and the place of their point stand for. -/
def Digits.value (d : Digits) : ℚ :=
  Numeral.ofDigits 10 (d.digits.map Nat.digitChar) * 10 ^ (d.point - d.digits.length)

/-! ### Digits -/

structure Digits.IsNormal (d : Digits) : Prop where
  lt_ten : ∀ k ∈ d.digits, k < 10
  head : d.digits.head? ≠ some 0

namespace Binary

theorem lt_ten_of_mem_digitsOf {n k : Nat} (h : k ∈ digitsOf n) : k < 10 := by
  obtain ⟨c, hc, rfl⟩ := List.mem_map.mp h
  have hdigit := Numeral.isDigit_iff.mp (Numeral.isDigit_of_mem_toDigits hc)
  show c.toNat - 48 < 10
  omega

theorem head?_digitsOf {n : Nat} (h : 0 < n) : (digitsOf n).head? ≠ some 0 := by
  unfold digitsOf
  rw [List.head?_map]
  intro hzero
  obtain ⟨c, hc, hvalue⟩ := Option.map_eq_some_iff.mp hzero
  have hdigit := Numeral.isDigit_iff.mp (Numeral.isDigit_of_mem_toDigits (List.mem_of_mem_head? hc))
  have hnat : c.toNat = '0'.toNat := by
    change c.toNat - 48 = 0 at hvalue
    show c.toNat = 48
    omega
  exact Numeral.head?_toDigits h (Char.toNat_inj.mp hnat ▸ hc)

theorem isNormal_normal (n : Nat) (step : Int) : (normal n step).IsNormal := by
  have hstart : (normal n step).digits <+: digitsOf n := List.rdropWhile_prefix _ _
  refine ⟨fun k hk => lt_ten_of_mem_digitsOf (hstart.mem hk), ?_⟩
  rcases Nat.eq_zero_or_pos n with rfl | hn
  · have hzero : (normal 0 step).digits = [] := rfl
    simp [hzero]
  · intro hhead
    obtain ⟨rest, hrest⟩ := hstart
    refine head?_digitsOf hn ?_
    rw [← hrest, List.head?_append, hhead]
    rfl

theorem isNormal_shortest (b : Binary) (tie : Tie) : (b.shortest tie).IsNormal := by
  unfold shortest
  split
  · exact ⟨by simp, by simp⟩
  · dsimp only
    rcases h : List.findSome? _ _ with _ | d
    · exact isNormal_normal _ _
    · obtain ⟨step, -, hstep⟩ := List.exists_of_findSome?_eq_some h
      obtain ⟨n, -, rfl⟩ := Option.map_eq_some_iff.mp hstep
      exact isNormal_normal n step

end Binary

/-! ### Layouts -/

namespace Layout
variable {l : Layout} {d : Digits}

theorem isDigit_digits (h : d.IsNormal) : ∀ c ∈ d.digits.map Nat.digitChar, c.isDigit = true := by
  intro c hc
  obtain ⟨k, hk, rfl⟩ := List.mem_map.mp hc
  simp [h.lt_ten k hk]

theorem head?_digits (h : d.IsNormal) : (d.digits.map Nat.digitChar).head? ≠ some '0' := by
  rw [List.head?_map]
  intro hzero
  obtain ⟨k, hk, hchar⟩ := Option.map_eq_some_iff.mp hzero
  rw [Nat.digitChar_eq_zero] at hchar
  exact h.head (hchar ▸ hk)

theorem isDigit_zeros {n : Nat} : ∀ c ∈ zeros n, c.isDigit = true := by
  intro c hc
  rw [List.eq_of_mem_replicate hc]
  rfl

/-- A numeral of JSON without its sign, and with digits and signs for its parts. -/
def IsPlain (n : Numeral) : Prop := n.sign = none ∧ n.IsWritten ∧ n.isJson = true

theorem value_positional (sign : Option Char) (whole fraction : List Char) :
    Numeral.value ⟨sign, whole, some fraction, none⟩ =
      Numeral.ofDigits 10 (whole ++ fraction) * 10 ^ (-fraction.length : Int) := by
  simp [Numeral.value, Numeral.scaled]

/-- Zeros in front of digits do not count. -/
theorem ofDigits_zeros_append (n : Nat) (cs : List Char) :
    Numeral.ofDigits 10 (zeros n ++ cs) = Numeral.ofDigits 10 cs := by
  rw [Numeral.ofDigits_append, zeros, Numeral.ofDigits_zeros, Nat.zero_mul, Nat.zero_add]

theorem ofDigits_append_zeros (cs : List Char) (n : Nat) :
    Numeral.ofDigits 10 (cs ++ zeros n) = Numeral.ofDigits 10 cs * 10 ^ n := by
  rw [Numeral.ofDigits_append, zeros, Numeral.ofDigits_zeros, List.length_replicate, Nat.add_zero]

theorem exists_positional (hpoint : l.point = true) (h : d.IsNormal) :
    ∃ n, IsPlain n ∧ n.chars = l.positional d ∧ n.value = d.value := by
  have hdigits := isDigit_digits h
  have hhead := head?_digits h
  have hlen : d.digits.length = (d.digits.map Nat.digitChar).length := (List.length_map _).symm
  unfold positional Digits.value
  rw [if_pos hpoint, hlen]
  generalize d.digits.map Nat.digitChar = cs at hdigits hhead ⊢
  by_cases hempty : cs = []
  · refine ⟨⟨none, ['0'], some ['0'], none⟩, ⟨rfl, ⟨by simp, by simp, by simp, by simp⟩, rfl⟩, ?_⟩
    refine ⟨by simp [hempty, Numeral.chars, Numeral.fractionChars, Numeral.exponentChars], ?_⟩
    have hzero : Numeral.ofDigits 10 (['0'] ++ ['0']) = 0 := rfl
    have hnone : Numeral.ofDigits 10 [] = 0 := rfl
    rw [value_positional, hzero, hempty, hnone, Nat.cast_zero, zero_mul, zero_mul]
  rw [if_neg (by simpa using hempty)]
  by_cases hsmall : d.point ≤ 0
  · refine ⟨⟨none, ['0'], some (zeros (-d.point).toNat ++ cs), none⟩, ⟨rfl, ⟨by simp, by simp, ?_, by simp⟩, ?_⟩, ?_⟩
    · rintro _ ⟨⟩ c hc
      exact (List.mem_append.mp hc).elim (isDigit_zeros c) (hdigits c)
    · exact Numeral.isJson_of_parts (by simp) (by simp) (by simp) (by simp [hempty]) (by simp)
    · refine ⟨by simp [hsmall, Numeral.chars, Numeral.fractionChars, Numeral.exponentChars], ?_⟩
      have hlength : (-(zeros (-d.point).toNat ++ cs).length : Int) = d.point - cs.length := by
        rw [List.length_append, zeros, List.length_replicate]
        omega
      rw [value_positional, hlength, ← List.append_assoc, show ['0'] = zeros 1 from rfl, List.append_assoc,
        ofDigits_zeros_append, ofDigits_zeros_append]
  rw [if_neg hsmall]
  by_cases hwhole : cs.length ≤ d.point.toNat
  · refine ⟨⟨none, cs ++ zeros (d.point.toNat - cs.length), some ['0'], none⟩,
      ⟨rfl, ⟨by simp, ?_, by simp, by simp⟩, ?_⟩, ?_⟩
    · intro c hc
      exact (List.mem_append.mp hc).elim (hdigits c) (isDigit_zeros c)
    · refine Numeral.isJson_of_parts (by simp) (by simp [hempty]) (.inr ?_) (by simp) (by simp)
      rwa [List.head?_append, Option.or_of_isSome (by simpa using hempty)]
    · refine ⟨by simp [hwhole, Numeral.chars, Numeral.fractionChars, Numeral.exponentChars], ?_⟩
      have hexponent : d.point - cs.length = (d.point.toNat - cs.length + 1 : Nat) + (-1) := by omega
      rw [value_positional, show ['0'] = zeros 1 from rfl, ofDigits_append_zeros, ofDigits_append_zeros, hexponent,
        zpow_add₀ (by norm_num), zpow_natCast, pow_succ]
      show (Numeral.ofDigits 10 cs * 10 ^ _ * 10 ^ 1 : Nat) * (10 : ℚ) ^ (-1 : Int) = _
      push_cast
      ring
  · refine ⟨⟨none, cs.take d.point.toNat, some (cs.drop d.point.toNat), none⟩,
      ⟨rfl, ⟨by simp, ?_, ?_, by simp⟩, ?_⟩, ?_⟩
    · exact fun c hc => hdigits c (List.mem_of_mem_take hc)
    · rintro _ ⟨⟩ c hc
      exact hdigits c (List.mem_of_mem_drop hc)
    · have hpos : d.point.toNat ≠ 0 := by omega
      refine Numeral.isJson_of_parts (by simp) (by simp [hempty]; omega) (.inr ?_) ?_ (by simp)
      · rwa [List.head?_take, if_neg hpos]
      · simp
        omega
    · refine ⟨by simp [hwhole, Numeral.chars, Numeral.fractionChars, Numeral.exponentChars], ?_⟩
      have hlength : (-(cs.drop d.point.toNat).length : Int) = d.point - cs.length := by
        rw [List.length_drop]
        omega
      rw [value_positional, List.take_append_drop, hlength]

/-- The exponent of a decimal in scientific notation. -/
def exponentOf (power : Int) : Option Char × List Char :=
  (some (if power < 0 then '-' else '+'), Nat.toDigits 10 power.natAbs)

theorem exponentOf_written (power : Int) :
    (∀ c ∈ (exponentOf power).1, Numeral.isSign c = true) ∧ ∀ c ∈ (exponentOf power).2, c.isDigit = true := by
  refine ⟨?_, fun c hc => Numeral.isDigit_of_mem_toDigits hc⟩
  rintro _ ⟨⟩
  split <;> rfl

theorem value_exponentOf (sign : Option Char) (whole : List Char) (fraction : Option (List Char)) (power : Int) :
    Numeral.value ⟨sign, whole, fraction, some (exponentOf power)⟩ =
      Numeral.ofDigits 10 (whole ++ fraction.getD []) * 10 ^ (power - (fraction.getD []).length) := by
  have hpower : (if (exponentOf power).1 = some '-' then -Int.ofNat (Numeral.ofDigits 10 (exponentOf power).2)
      else Int.ofNat (Numeral.ofDigits 10 (exponentOf power).2)) = power := by
    unfold exponentOf
    rw [Numeral.ofDigits_toDigits]
    by_cases hneg : power < 0
    · simp only [hneg, if_true, Int.ofNat_eq_natCast]
      omega
    · simp only [hneg, if_false, Int.ofNat_eq_natCast, Option.some.injEq, Char.reduceEq]
      omega
  unfold Numeral.value Numeral.scaled
  dsimp only
  rw [hpower]
  rfl

theorem exists_scientific (h : d.IsNormal) (hne : d.digits ≠ []) :
    ∃ n, IsPlain n ∧ n.chars = scientific d ∧ n.value = d.value := by
  have hdigits := isDigit_digits h
  have hempty : d.digits.map Nat.digitChar ≠ [] := by simpa using hne
  have hlen : d.digits.length = (d.digits.map Nat.digitChar).length := (List.length_map _).symm
  unfold scientific Digits.value
  rw [hlen]
  generalize d.digits.map Nat.digitChar = cs at hdigits hempty ⊢
  obtain ⟨c, rest, rfl⟩ := List.exists_cons_of_ne_nil hempty
  refine ⟨⟨none, [c], if rest = [] then none else some rest, some (exponentOf (d.point - 1))⟩,
    ⟨rfl, ⟨by simp, ?_, ?_, ?_⟩, ?_⟩, ?_, ?_⟩
  · simpa using hdigits c List.mem_cons_self
  · intro ds hds x hx
    split at hds
    · cases hds
    · cases hds
      exact hdigits x (List.mem_cons_of_mem _ hx)
  · rintro _ ⟨⟩
    exact exponentOf_written _
  · refine Numeral.isJson_of_parts (by simp) (by simp) (.inl rfl) ?_ ?_
    · split <;> simp_all
    · rintro _ ⟨⟩
      exact Nat.toDigits_ne_nil
  · by_cases hrest : rest = [] <;>
      simp [hrest, exponentOf, Numeral.chars, Numeral.fractionChars, Numeral.exponentChars]
  · have hfraction : (if rest = [] then none else some rest : Option (List Char)).getD [] = rest := by
      split <;> simp_all
    have hexponent : d.point - (c :: rest).length = d.point - 1 - rest.length := by
      rw [List.length_cons]
      omega
    rw [value_exponentOf, hfraction, hexponent, List.singleton_append]

theorem exists_ofDigits (hpoint : l.point = true) (h : d.IsNormal) :
    ∃ n, IsPlain n ∧ n.chars = l.ofDigits d ∧ n.value = d.value := by
  unfold ofDigits
  by_cases hpos : (d.digits.isEmpty || l.isPositional (d.point - 1)) = true
  · rw [if_pos hpos]
    exact exists_positional hpoint h
  · rw [if_neg hpos]
    refine exists_scientific h fun hempty => hpos ?_
    simp [hempty]

/-- The written form of a finite real is a numeral of JSON with the value of its shortest decimal. -/
theorem exists_write_finite {x : Float} {b : Binary} (hpoint : l.point = true) (hx : Real.ofFloat x = .finite b) :
    ∃ n : Numeral, n.IsWritten ∧ n.isJson = true ∧ (l.write x).toList = n.chars ∧ n.isNegative = b.negative ∧
      n.value = (b.shortest l.tie).value := by
  obtain ⟨n, ⟨hsign, hwritten, hjson⟩, hchars, hvalue⟩ := exists_ofDigits hpoint (b.isNormal_shortest l.tie)
  unfold write
  rw [hx]
  simp only [String.toList_ofList, ← hchars]
  cases hneg : b.negative
  · exact ⟨n, hwritten, hjson, rfl, by simp [Numeral.isNegative, hsign], hvalue⟩
  · refine ⟨{ n with sign := some '-' }, ⟨?_, hwritten.whole, hwritten.fraction, hwritten.exponent⟩, ?_, ?_, rfl,
      hvalue⟩
    · rintro _ ⟨⟩
      rfl
    · simpa [Numeral.isJson, hsign] using hjson
    · simp [Numeral.chars, hsign]

theorem exists_finite {x : Float} (hx : nonFinite? x = none) : ∃ b, Real.ofFloat x = .finite b := by
  unfold nonFinite? at hx
  rcases hreal : Real.ofFloat x with _ | negative | b <;> rw [hreal] at hx
  · cases hx
  · cases negative <;> cases hx
  · exact ⟨b, rfl⟩

/-- The written form of a real that has a decimal is a numeral of JSON. -/
theorem exists_write {x : Float} (hpoint : l.point = true) (hx : nonFinite? x = none) :
    ∃ n : Numeral, n.IsWritten ∧ n.isJson = true ∧ (l.write x).toList = n.chars := by
  obtain ⟨b, hreal⟩ := exists_finite hx
  obtain ⟨n, hwritten, hjson, hchars, -⟩ := exists_write_finite hpoint hreal
  exact ⟨n, hwritten, hjson, hchars⟩

end Layout

/-! ### Reals without a decimal -/

/-- What a real is, told by the three parts of its bits. -/
theorem Real.ofFloat_cases (x : Float) : ∃ (negative : Bool) (biased fraction : Nat),
    x.toBits.toNat = negative.toNat * 2 ^ 63 + biased * 2 ^ 52 + fraction ∧ biased < 2 ^ 11 ∧ fraction < 2 ^ 52 ∧
    ((biased = 2047 ∧ fraction ≠ 0 ∧ ofFloat x = .notANumber) ∨
      (biased = 2047 ∧ fraction = 0 ∧ ofFloat x = .infinite negative) ∨
      (biased = 0 ∧ ofFloat x = .finite ⟨negative, fraction, -1074, false⟩) ∨
      (0 < biased ∧ biased < 2047 ∧
        ofFloat x = .finite ⟨negative, 2 ^ 52 + fraction, biased - 1075, decide (fraction = 0 ∧ 1 < biased)⟩)) := by
  have hlt : x.toBits.toNat < 2 ^ 64 := x.toBits.toNat_lt
  have hbiased : x.toBits.toNat / 2 ^ 52 % 2048 < 2 ^ 11 := Nat.mod_lt _ (by decide)
  refine ⟨decide (2 ^ 63 ≤ x.toBits.toNat), _, _, ?_, hbiased, Nat.mod_lt x.toBits.toNat (by decide), ?_⟩
  · by_cases hneg : 2 ^ 63 ≤ x.toBits.toNat <;>
      simp only [hneg, decide_true, decide_false, Bool.toNat_true, Bool.toNat_false] <;>
      omega
  · unfold ofFloat
    dsimp only
    split
    case isTrue hspecial =>
      split
      case isTrue hzero => exact .inr (.inl ⟨hspecial, hzero, rfl⟩)
      case isFalse hpos => exact .inl ⟨hspecial, hpos, rfl⟩
    case isFalse hfinite =>
      have hfinite : x.toBits.toNat / 2 ^ 52 % 2048 ≠ 2047 := hfinite
      split
      case isTrue hzero => exact .inr (.inr (.inl ⟨hzero, rfl⟩))
      case isFalse hpos => exact .inr (.inr (.inr ⟨Nat.pos_of_ne_zero hpos, by omega, rfl⟩))

theorem eq_of_notANumber {x : Float} (h : Real.ofFloat x = .notANumber) : x = Numeral.notANumber := by
  obtain ⟨negative, biased, fraction, hbits, -, hfraction, hcases⟩ := Real.ofFloat_cases x
  rw [h] at hcases
  obtain ⟨hbiased, hpos⟩ : biased = 2047 ∧ fraction ≠ 0 := by simpa using hcases
  have hcanonical : Numeral.notANumber.toBits.toBitVec = Float.Model.UnpackedFloat.packedNaN .binary64 := by
    decide +kernel
  have hx : x.toBits.toBitVec = Float.Model.UnpackedFloat.packedNaN .binary64 := by
    obtain ⟨⟨bits, hvalid⟩⟩ := x
    change bits.toNat = _ at hbits
    refine hvalid.eq_packedNaN ?_ fun hmantissa => hpos ?_
    · apply BitVec.eq_of_toNat_eq
      rw [Float.Model.UnpackedFloat.unpackExponent, BitVec.toNat_cast, BitVec.extractLsb_toNat,
        Nat.shiftRight_eq_div_pow]
      show bits.toNat / 2 ^ 52 % 2 ^ 11 = 2047
      omega
    · have hmantissa := congrArg BitVec.toNat hmantissa
      rw [Float.Model.UnpackedFloat.unpackMantissa, BitVec.toNat_cast, BitVec.extractLsb_toNat,
        Nat.shiftRight_zero] at hmantissa
      change bits.toNat % 2 ^ 52 = 0 at hmantissa
      omega
  exact Float.toBits_inj.mp (UInt64.toBitVec_inj.mp (hx.trans hcanonical.symm))

theorem eq_of_infinite {x : Float} {negative : Bool} (h : Real.ofFloat x = .infinite negative) :
    x = if negative then -Numeral.infinity else Numeral.infinity := by
  obtain ⟨sign, biased, fraction, hbits, -, -, hcases⟩ := Real.ofFloat_cases x
  rw [h] at hcases
  obtain ⟨rfl, rfl, rfl⟩ : biased = 2047 ∧ fraction = 0 ∧ negative = sign := by simpa using hcases
  apply Float.toBits_inj.mp
  apply UInt64.toNat_inj.mp
  rw [hbits]
  cases negative <;> decide +kernel

end Dataflow.Decimal
