import Dataflow.Value
import Mathlib.Algebra.Ring.Int.Defs

/-! # Written values

A primitive type writes a member as a value of the type's name, and reads a value as the member that is
written as it, if there is one. Integers of every width write a number as the same value, so it is read
at each width that has the number in its range, and is not changed by that. Sizes alone can be too large
to be written. -/

namespace Dataflow

/-! ### Reading and writing numbers -/

namespace Value
variable {v : Value} {n : Int} {e : Error}

theorem get_eq_ok {α : Type} [Primitive α] {x : α} : v.get α = .ok x ↔ Primitive.ofValue? v = some x := by
  unfold get
  split <;> simp [*]

theorem ofInt_eq_ok : ofInt n = .ok v ↔ ∃ i : Int64, v = .int i ∧ i.toInt = n := by
  unfold ofInt
  constructor
  · intro h
    split at h
    case isTrue hn =>
      obtain ⟨hlow, hhigh⟩ := isSigned_iff.mp hn
      exact ⟨Int64.ofInt n, (Except.ok.inj h).symm, Int64.toInt_ofInt_of_le hlow hhigh⟩
    case isFalse => cases h
  · rintro ⟨i, rfl, rfl⟩
    rw [if_pos (isSigned_toInt i), Int64.ofInt_toInt]

theorem ofInt_eq_error : ofInt n = .error e ↔ ¬(-2 ^ 63 ≤ n ∧ n < 2 ^ 63) ∧ e = .outOfRange (toString n) "int" := by
  have hrange : isSigned 64 n = true ↔ -2 ^ 63 ≤ n ∧ n < 2 ^ 63 := isSigned_iff
  rw [← hrange, ofInt]
  split <;> simp [*, eq_comm]

end Value

namespace Primitive

/-! ### Integers of all widths -/

/-- The primitive types of integers. Sizes are all natural numbers, those of 64 bits are in their range. -/
inductive Width where
  | int32 | int64 | uint32 | size

namespace Width

abbrev Carrier : Width → Type
  | int32 => Int32
  | int64 => Int64
  | uint32 => UInt32
  | size => Nat

instance : (w : Width) → Primitive w.Carrier
  | int32 => inferInstanceAs (Primitive Int32)
  | int64 => inferInstanceAs (Primitive Int64)
  | uint32 => inferInstanceAs (Primitive UInt32)
  | size => inferInstanceAs (Primitive Nat)

/-- The number that a member of a width is. -/
def toInt : (w : Width) → w.Carrier → Int
  | int32, x => Int32.toInt x
  | int64, x => Int64.toInt x
  | uint32, x => UInt32.toNat x
  | size, x => Int.ofNat x

/-- The member of a width that a number is, if it is in the range. -/
def ofInt : (w : Width) → Int → w.Carrier
  | int32, n => Int32.ofInt n
  | int64, n => Int64.ofInt n
  | uint32, n => UInt32.ofNat n.toNat
  | size, n => n.toNat

/-- The range of a width. -/
def Fits : Width → Int → Prop
  | int32, n => -2 ^ 31 ≤ n ∧ n < 2 ^ 31
  | int64, n => -2 ^ 63 ≤ n ∧ n < 2 ^ 63
  | uint32, n => 0 ≤ n ∧ n < 2 ^ 32
  | size, n => 0 ≤ n ∧ n < 2 ^ 64

instance : (w : Width) → (n : Int) → Decidable (w.Fits n)
  | int32, _ | int64, _ | uint32, _ | size, _ => inferInstanceAs (Decidable (_ ∧ _))

variable {w : Width} {v : Value} {n : Int} {i : Int64}

theorem toInt_ofInt (h : w.Fits n) : w.toInt (w.ofInt n) = n := by
  cases w with
  | int32 => exact Int32.toInt_ofInt_of_le h.1 h.2
  | int64 => exact Int64.toInt_ofInt_of_le h.1 h.2
  | uint32 =>
    rw [toInt, ofInt, UInt32.toNat_ofNat_of_lt' ((Int.toNat_lt h.1).mpr h.2), Int.toNat_of_nonneg h.1]
  | size => exact Int.toNat_of_nonneg h.1

theorem ofInt_toInt (x : w.Carrier) : w.ofInt (w.toInt x) = x := by
  cases w with
  | int32 => exact Int32.ofInt_toInt x
  | int64 => exact Int64.ofInt_toInt x
  | uint32 => exact UInt32.ofNat_toNat
  | size => rfl

/-- A member is in the range of its width, where a size has to be of 64 bits. -/
theorem fits_toInt {x : w.Carrier} (h : w = size → w.toInt x < 2 ^ 64) : w.Fits (w.toInt x) := by
  cases w with
  | int32 => exact ⟨Int32.le_toInt x, Int32.toInt_lt x⟩
  | int64 => exact ⟨Int64.le_toInt x, Int64.toInt_lt x⟩
  | uint32 => exact ⟨Int.natCast_nonneg _, Int.ofNat_lt.mpr (UInt32.toNat_lt x)⟩
  | size => exact ⟨Int.natCast_nonneg _, h rfl⟩

theorem fits_stored {x : w.Carrier} (h : w.toInt x = i.toInt) : w.Fits i.toInt := by
  rw [← h]
  apply fits_toInt
  intro _
  rw [h]
  exact Int.lt_trans i.toInt_lt (by decide)

/-! ### Reading and writing integers -/

theorem ofValue?_int (i : Int64) :
    (ofValue? (.int i) : Option w.Carrier) = if w.Fits i.toInt then some (w.ofInt i.toInt) else none := by
  cases w with
  | int32 => exact if_congr isSigned_iff rfl rfl
  | int64 =>
    have hfits : Fits int64 i.toInt := ⟨i.le_toInt, i.toInt_lt⟩
    rw [if_pos hfits, ofInt, Int64.ofInt_toInt]
    rfl
  | uint32 => exact if_congr isUnsigned_iff rfl rfl
  | size =>
    have hhigh : i.toInt < 2 ^ 64 := Int.lt_trans i.toInt_lt (by decide)
    exact if_congr (and_iff_left hhigh).symm rfl rfl

theorem ofValue?_int_eq_some {x : w.Carrier} : ofValue? (.int i) = some x ↔ w.toInt x = i.toInt := by
  rw [ofValue?_int, Option.ite_none_right_eq_some, Option.some.injEq]
  constructor
  · rintro ⟨hfits, rfl⟩
    exact toInt_ofInt hfits
  · intro h
    exact ⟨fits_stored h, by rw [← h, ofInt_toInt]⟩

theorem typeName_carrier (w : Width) : typeName w.Carrier = "int" := by
  cases w <;> rfl

theorem get_int (i : Int64) : (Value.int i).get w.Carrier =
    if w.Fits i.toInt then .ok (w.ofInt i.toInt) else .error (.typeMismatch "int" "int") := by
  rw [Value.get, ofValue?_int, typeName_carrier]
  by_cases hfits : w.Fits i.toInt
  · rw [if_pos hfits, if_pos hfits]
  · rw [if_neg hfits, if_neg hfits]
    rfl

theorem toValue_eq (x : w.Carrier) : toValue x = Value.ofInt (w.toInt x) := by
  cases w with
  | int32 => rfl
  | int64 => exact (Value.ofInt_eq_ok.mpr ⟨x, rfl, rfl⟩).symm
  | uint32 => rfl
  | size => rfl

theorem toValue_eq_ok {x : w.Carrier} : toValue x = .ok v ↔ ∃ i : Int64, v = .int i ∧ i.toInt = w.toInt x := by
  rw [toValue_eq, Value.ofInt_eq_ok]

theorem ofValue?_eq_some {x : w.Carrier} : ofValue? v = some x ↔ toValue x = .ok v := by
  rw [toValue_eq_ok]
  cases v with
  | int i =>
    rw [ofValue?_int_eq_some, eq_comm]
    simp
  | _ => cases w <;> simp [ofValue?]

theorem toValue_ne_error (hw : w ≠ size) (x : w.Carrier) (e : Error) : toValue x ≠ .error e := by
  have hfits : w.Fits (w.toInt x) := fits_toInt fun h => absurd h hw
  rw [toValue_eq, Ne, Value.ofInt_eq_error]
  rintro ⟨hrange, -⟩
  cases w with
  | size => exact hw rfl
  | _ =>
    simp only [Fits] at hfits
    omega

end Width

/-! ### All primitive types -/

/-- The primitive types. -/
inductive Kind where
  | bool | integer (w : Width) | real | text | bools | ints | reals

namespace Kind

abbrev Carrier : Kind → Type
  | bool => Bool
  | integer w => w.Carrier
  | real => Float
  | text => String
  | bools => List Bool
  | ints => List Int64
  | reals => List Float

instance : (k : Kind) → Primitive k.Carrier
  | bool => inferInstanceAs (Primitive Bool)
  | integer w => inferInstanceAs (Primitive w.Carrier)
  | real => inferInstanceAs (Primitive Float)
  | text => inferInstanceAs (Primitive String)
  | bools => inferInstanceAs (Primitive (List Bool))
  | ints => inferInstanceAs (Primitive (List Int64))
  | reals => inferInstanceAs (Primitive (List Float))

/-- The error for a member that is not written: a size beyond the largest stored integer. -/
def Refused : (k : Kind) → k.Carrier → Error → Prop
  | integer .size, (n : Nat), e => Int64.maxValue.toInt < n ∧ e = .outOfRange (toString n) "int"
  | _, _, _ => False

variable {k : Kind} {x : k.Carrier} {v : Value} {e : Error}

theorem ofValue?_eq_some : ofValue? v = some x ↔ toValue x = .ok v := by
  cases k with
  | integer w => exact Width.ofValue?_eq_some
  | _ =>
    constructor
    · intro h
      cases v <;> cases h
      rfl
    · intro h
      cases h
      rfl

theorem type_of_toValue (h : toValue x = .ok v) : v.type = typeName k.Carrier := by
  cases k with
  | integer w =>
    obtain ⟨i, rfl, -⟩ := Width.toValue_eq_ok.mp h
    exact (Width.typeName_carrier w).symm
  | _ =>
    cases h
    rfl

theorem toValue_size_eq_error {n : Nat} : toValue n = .error e ↔ (integer .size).Refused n e := by
  have hmax : Int64.maxValue.toInt = 2 ^ 63 - 1 := rfl
  have hlarge : ¬(-2 ^ 63 ≤ (n : Int) ∧ (n : Int) < 2 ^ 63) ↔ Int64.maxValue.toInt < n := by omega
  exact Value.ofInt_eq_error.trans (and_congr_left' hlarge)

theorem toValue_eq_error : toValue x = .error e ↔ k.Refused x e := by
  cases k with
  | integer w =>
    -- The other widths are within the range of a stored integer.
    by_cases hw : w = .size
    · subst hw
      exact toValue_size_eq_error
    · refine ⟨fun h => absurd h (Width.toValue_ne_error hw x e), fun h => ?_⟩
      cases w with
      | size => exact absurd rfl hw
      | _ => exact h.elim
  | _ => exact ⟨nofun, False.elim⟩

end Kind

/-! ### Writing and reading -/

/-- A member is written as a value with the name of its type, and is read from that value and from no other;
    two reals are the same member only if they have the same bits. Nothing but a size beyond the largest stored
    integer is refused. An integer that was written at one width is read at another as the same number if the
    other has it in its range, and otherwise the value is of the wrong type. -/
theorem written_iff_read :
    (∀ (k : Kind) (x : k.Carrier) (v : Value), toValue x = .ok v → v.type = typeName k.Carrier) ∧
    (∀ (k : Kind) (x : k.Carrier) (v : Value), toValue x = .ok v ↔ v.get k.Carrier = .ok x) ∧
    (∀ (k : Kind) (x : k.Carrier) (e : Error), toValue x = .error e ↔ k.Refused x e) ∧
    ∀ (w w' : Width) (x : w.Carrier) (v : Value), toValue x = .ok v →
      (w'.Fits (w.toInt x) → ∃ y : w'.Carrier, v.get w'.Carrier = .ok y ∧ w'.toInt y = w.toInt x) ∧
      (¬w'.Fits (w.toInt x) → v.get w'.Carrier = .error (.typeMismatch "int" "int")) := by
  refine ⟨fun k x v => Kind.type_of_toValue, fun k x v => ?_, fun k x e => Kind.toValue_eq_error,
    fun w w' x v h => ?_⟩
  · rw [Value.get_eq_ok, Kind.ofValue?_eq_some]
  · obtain ⟨i, rfl, hi⟩ := Width.toValue_eq_ok.mp h
    rw [← hi, Width.get_int]
    exact ⟨fun hfits => ⟨_, if_pos hfits, Width.toInt_ofInt hfits⟩, fun hfits => if_neg hfits⟩

/-- The size 2 ^ 31 is read as an unsigned integer of 32 bits and not as a signed one, and -1 not as a size.
    The size 2 ^ 63 is not written. A NaN is read as what was written. -/
theorem limits_written_and_read :
    (∃ v, toValue (2147483648 : Nat) = .ok v ∧ v.type = "int" ∧ v.get Nat = .ok 2147483648 ∧
      v.get Int32 = .error (.typeMismatch "int" "int") ∧
      ∃ y : UInt32, v.get UInt32 = .ok y ∧ (y.toNat : Int) = 2147483648) ∧
    (∃ v, toValue (-1 : Int32) = .ok v ∧ v.get Nat = .error (.typeMismatch "int" "int") ∧
      ∃ y : Int64, v.get Int64 = .ok y ∧ y.toInt = -1) ∧
    toValue (9223372036854775808 : Nat) = .error (.outOfRange "9223372036854775808" "int") ∧
    ∃ v, toValue (0.0 / 0.0 : Float) = .ok v ∧ v.get Float = .ok (0.0 / 0.0) := by
  obtain ⟨htype, hread, hrefused, hwidths⟩ := written_iff_read
  have hsize : toValue (2147483648 : Nat) = .ok (.int 2147483648) := rfl
  have hminus : toValue (-1 : Int32) = .ok (.int (-1)) := rfl
  have hnan : toValue (0.0 / 0.0 : Float) = .ok (.real (0.0 / 0.0)) := rfl
  exact ⟨⟨_, hsize, htype (.integer .size) _ _ hsize, (hread (.integer .size) _ _).mp hsize,
      (hwidths .size .int32 _ _ hsize).2 (by decide), (hwidths .size .uint32 _ _ hsize).1 (by decide)⟩,
    ⟨_, hminus, (hwidths .int32 .size _ _ hminus).2 (by decide), (hwidths .int32 .int64 _ _ hminus).1 (by decide)⟩,
    (hrefused (.integer .size) _ _).mpr ⟨by decide, rfl⟩,
    ⟨_, hnan, (hread .real _ _).mp hnan⟩⟩

end Primitive

end Dataflow
