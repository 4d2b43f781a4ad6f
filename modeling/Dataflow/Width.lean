/-! # Widths of integers

Which integers have a form of so many bits, with or without a sign. -/

namespace Dataflow

/-- Whether an integer has a form of `bits` bits, one of them for the sign. -/
def isSigned (bits : Nat) (n : Int) : Bool :=
  -Int.ofNat (Nat.pow 2 (bits - 1)) ≤ n && n < Int.ofNat (Nat.pow 2 (bits - 1))

/-- Whether an integer has a form of `bits` bits without a sign. -/
def isUnsigned (bits : Nat) (n : Int) : Bool := 0 ≤ n && n < Int.ofNat (Nat.pow 2 bits)

theorem isSigned_iff {bits : Nat} {n : Int} :
    isSigned bits n = true ↔ -Int.ofNat (Nat.pow 2 (bits - 1)) ≤ n ∧ n < Int.ofNat (Nat.pow 2 (bits - 1)) := by
  simp [isSigned]

theorem isUnsigned_iff {bits : Nat} {n : Int} :
    isUnsigned bits n = true ↔ 0 ≤ n ∧ n < Int.ofNat (Nat.pow 2 bits) := by
  simp [isUnsigned]

theorem isSigned_toInt (n : Int64) : isSigned 64 n.toInt = true := by
  have hlimit : Int.ofNat (Nat.pow 2 (64 - 1)) = 2 ^ 63 := rfl
  rw [isSigned_iff, hlimit]
  exact ⟨n.le_toInt, n.toInt_lt⟩

end Dataflow
