import Dataflow.Decimal.Numeral
import Mathlib.Tactic.Ring

/-! # Written numerals

A numeral whose parts are digits and signs is taken apart again from its written form. The decimal of an
integer is such a numeral, and it writes that integer. -/

namespace Dataflow.Decimal.Numeral
variable {n : Numeral} {ds rest : List Char} {sign : Option Char}

def isSign (c : Char) : Bool := c == '+' || c == '-'

def fractionChars : Option (List Char) → List Char
  | none => []
  | some ds => '.' :: ds

def exponentChars : Option (Option Char × List Char) → List Char
  | none => []
  | some (sign, ds) => 'e' :: (sign.toList ++ ds)

def chars (n : Numeral) : List Char :=
  n.sign.toList ++ (n.whole ++ (fractionChars n.fraction ++ exponentChars n.exponent))

/-- The parts are made up of what they may be made up of. -/
structure IsWritten (n : Numeral) : Prop where
  sign : ∀ c ∈ n.sign, isSign c = true
  whole : ∀ c ∈ n.whole, c.isDigit = true
  fraction : ∀ ds ∈ n.fraction, ∀ c ∈ ds, c.isDigit = true
  exponent : ∀ e ∈ n.exponent, (∀ c ∈ e.1, isSign c = true) ∧ ∀ c ∈ e.2, c.isDigit = true

/-! ### Taking a numeral apart -/

theorem isDigit_iff {c : Char} : c.isDigit = true ↔ 48 ≤ c.toNat ∧ c.toNat ≤ 57 := by
  simp [Char.isDigit, UInt32.le_iff_toNat_le]

theorem isSign_iff {c : Char} : isSign c = true ↔ c = '+' ∨ c = '-' := by simp [isSign]

theorem takeSign_append (hsign : ∀ c ∈ sign, isSign c = true) (hrest : ∀ c ∈ rest.head?, isSign c = false) :
    takeSign (sign.toList ++ rest) = (sign, rest) := by
  cases sign with
  | some c => rcases isSign_iff.mp (hsign c rfl) with rfl | rfl <;> rfl
  | none =>
    cases rest with
    | nil => rfl
    | cons c rest =>
      have hc := hrest c rfl
      have hplus : c ≠ '+' := by rintro rfl; cases hc
      have hminus : c ≠ '-' := by rintro rfl; cases hc
      simp [takeSign, hplus, hminus]

theorem takeDigits_append (hds : ∀ c ∈ ds, c.isDigit = true) (hrest : ∀ c ∈ rest.head?, c.isDigit = false) :
    takeDigits (ds ++ rest) = (ds, rest) := by
  unfold takeDigits
  rw [List.takeWhile_append_of_pos hds, List.dropWhile_append_of_pos hds]
  cases rest with
  | nil => simp
  | cons c rest => simp [hrest c rfl]

theorem isSign_of_isDigit {c : Char} (h : c.isDigit = true) : isSign c = false := by
  rw [Bool.eq_false_iff, ne_eq, isSign_iff]
  rintro (rfl | rfl) <;> cases h

theorem head?_exponentChars {e : Option (Option Char × List Char)} : ∀ c ∈ (exponentChars e).head?, c = 'e' := by
  rcases e with _ | ⟨sign, ds⟩ <;> simp [exponentChars]

theorem head?_fractionChars {f : Option (List Char)} {e : Option (Option Char × List Char)} :
    ∀ c ∈ (fractionChars f ++ exponentChars e).head?, c = '.' ∨ c = 'e' := by
  cases f with
  | none => exact fun c hc => .inr (head?_exponentChars c hc)
  | some ds => simp [fractionChars]

theorem takeExponent_chars {e : Option (Option Char × List Char)}
    (h : ∀ x ∈ e, (∀ c ∈ x.1, isSign c = true) ∧ ∀ c ∈ x.2, c.isDigit = true) :
    takeExponent (exponentChars e) = (e, []) := by
  rcases e with _ | ⟨sign, ds⟩
  · rfl
  · obtain ⟨hsign, hds⟩ := h _ rfl
    have hhead : ∀ c ∈ ds.head?, isSign c = false := fun c hc => isSign_of_isDigit (hds c (List.mem_of_mem_head? hc))
    have hdigits : takeDigits ds = (ds, []) := by
      have hnil : ∀ c ∈ ([] : List Char).head?, c.isDigit = false := by simp
      simpa only [List.append_nil] using takeDigits_append hds hnil
    simp [exponentChars, takeExponent, takeSign_append hsign hhead, hdigits]

theorem takeFraction_chars {f : Option (List Char)} {e : Option (Option Char × List Char)}
    (h : ∀ ds ∈ f, ∀ c ∈ ds, c.isDigit = true) :
    takeFraction (fractionChars f ++ exponentChars e) = (f, exponentChars e) := by
  cases f with
  | none =>
    rcases e with _ | ⟨sign, ds⟩ <;> rfl
  | some ds =>
    have hexponent : ∀ c ∈ (exponentChars e).head?, c.isDigit = false := by
      intro c hc
      rw [head?_exponentChars c hc]
      rfl
    have hdigits := takeDigits_append (h ds rfl) hexponent
    simp [fractionChars, takeFraction, hdigits]

theorem ofChars?_chars (h : n.IsWritten) : ofChars? n.chars = some n := by
  have hrest : ∀ c ∈ (fractionChars n.fraction ++ exponentChars n.exponent).head?, c.isDigit = false := by
    intro c hc
    rcases head?_fractionChars c hc with rfl | rfl <;> rfl
  have hsign : ∀ c ∈ (n.whole ++ (fractionChars n.fraction ++ exponentChars n.exponent)).head?, isSign c = false := by
    intro c hc
    cases hw : n.whole with
    | nil =>
      rw [hw] at hc
      rcases head?_fractionChars c hc with rfl | rfl <;> rfl
    | cons d ds =>
      rw [hw] at hc
      cases hc
      exact isSign_of_isDigit (h.whole _ (by simp [hw]))
  simp only [ofChars?, chars, takeSign_append h.sign hsign, takeDigits_append h.whole hrest,
    takeFraction_chars h.fraction, takeExponent_chars h.exponent, List.isEmpty_nil, if_true]

theorem isJson_of_parts (hsign : n.sign ≠ some '+') (hwhole : n.whole ≠ [])
    (hzero : n.whole.length = 1 ∨ n.whole.head? ≠ some '0') (hfraction : n.fraction ≠ some [])
    (hexponent : ∀ e ∈ n.exponent, e.2 ≠ []) : n.isJson = true := by
  have hfraction' : n.fraction.all (fun ds => !ds.isEmpty) = true := by
    cases hf : n.fraction with
    | none => rfl
    | some ds =>
      rw [hf] at hfraction
      simpa using hfraction
  have hexponent' : n.exponent.all (fun e => !e.2.isEmpty) = true := by
    cases he : n.exponent with
    | none => rfl
    | some e => simpa using hexponent e he
  simp [isJson, hsign, hwhole, hzero, hfraction', hexponent']

/-! ### Decimals of integers -/

theorem isDigit_of_mem_toDigits {c : Char} {m : Nat} (h : c ∈ Nat.toDigits 10 m) : c.isDigit = true :=
  Nat.isDigit_of_mem_toDigits (by decide) (by decide) h

theorem digit_of_isDigit {c : Char} (h : c.isDigit = true) : ofDigits.digit c = c.toNat - '0'.toNat := by
  simp [ofDigits.digit, h]

theorem ofDigits_append (base : Nat) (xs ys : List Char) :
    ofDigits base (xs ++ ys) = ofDigits base xs * base ^ ys.length + ofDigits base ys := by
  have hfrom : ∀ (cs : List Char) (init : Nat), cs.foldl (fun n c => n * base + ofDigits.digit c) init =
      init * base ^ cs.length + ofDigits base cs := by
    intro cs
    induction cs with
    | nil => simp [ofDigits]
    | cons c rest ih =>
      intro init
      have hcons : ofDigits base (c :: rest) =
          rest.foldl (fun n c => n * base + ofDigits.digit c) (0 * base + ofDigits.digit c) :=
        rfl
      rw [List.foldl_cons, ih, hcons, ih, List.length_cons]
      ring
  rw [ofDigits, List.foldl_append, hfrom ys]
  rfl

theorem ofDigits_zeros (base n : Nat) : ofDigits base (List.replicate n '0') = 0 := by
  induction n with
  | zero => rfl
  | succ n ih =>
    rw [List.replicate_succ', ofDigits_append, ih]
    simp [ofDigits, ofDigits.digit]

theorem ofDigits_toDigits (m : Nat) : ofDigits 10 (Nat.toDigits 10 m) = m := by
  have hsame : ∀ (ds : List Char) (init : Nat), (∀ c ∈ ds, c.isDigit = true) →
      ds.foldl (fun n c => n * 10 + ofDigits.digit c) init = Nat.ofDigitChars 10 ds init := by
    intro ds
    induction ds with
    | nil => simp
    | cons c rest ih =>
      intro init hds
      rw [List.foldl_cons, Nat.ofDigitChars_cons, ih _ fun c hc => hds c (List.mem_cons_of_mem _ hc),
        digit_of_isDigit (hds c List.mem_cons_self), Nat.mul_comm]
  rw [ofDigits, hsame _ 0 fun c => isDigit_of_mem_toDigits, Nat.ofDigitChars_ten_toDigits]

theorem head?_toDigits {m : Nat} (h : 0 < m) : (Nat.toDigits 10 m).head? ≠ some '0' := by
  induction m using Nat.strongRecOn with
  | ind m ih =>
    rw [Nat.toDigits_eq_if (by decide)]
    split
    · simp
      omega
    · rw [List.head?_append, Option.or_of_isSome (by simp [Nat.toDigits_ne_nil])]
      exact ih (m / 10) (by omega) (by omega)

def ofInt (i : Int) : Numeral := ⟨if i < 0 then some '-' else none, Nat.toDigits 10 i.natAbs, none, none⟩

theorem chars_ofInt (i : Int) : (ofInt i).chars = (toString i).toList := by
  cases i with
  | ofNat m =>
    show _ = m.repr.toList
    simp [chars, ofInt, fractionChars, exponentChars]
  | negSucc m =>
    show _ = ("-" ++ m.succ.repr).toList
    simp [chars, ofInt, fractionChars, exponentChars, String.toList_append]

theorem isWritten_ofInt (i : Int) : (ofInt i).IsWritten where
  sign c hc := by
    unfold ofInt at hc
    split at hc
    · cases hc
      rfl
    · cases hc
  whole c hc := isDigit_of_mem_toDigits hc
  fraction := by simp [ofInt]
  exponent := by simp [ofInt]

theorem isJson_ofInt (i : Int) : (ofInt i).isJson = true := by
  refine isJson_of_parts ?_ Nat.toDigits_ne_nil ?_ (by simp [ofInt]) (by simp [ofInt])
  · unfold ofInt
    split <;> simp
  · rcases Nat.eq_zero_or_pos i.natAbs with hi | hi
    · exact .inl (by simp [ofInt, hi])
    · exact .inr (head?_toDigits hi)

theorem toInt_ofInt (i : Int) : (ofInt i).toInt = i := by
  have hvalue : ofDigits 10 (ofInt i).whole = i.natAbs := ofDigits_toDigits _
  unfold toInt
  rw [hvalue]
  by_cases hi : i < 0
  · have hneg : (ofInt i).isNegative = true := by simp [isNegative, ofInt, hi]
    rw [hneg]
    show -(i.natAbs : Int) = i
    omega
  · have hpos : (ofInt i).isNegative = false := by simp [isNegative, ofInt, hi]
    rw [hpos]
    show (i.natAbs : Int) = i
    omega

end Dataflow.Decimal.Numeral
