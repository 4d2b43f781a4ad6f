import Dataflow.Text.Utf8
import Mathlib.Tactic.Common

/-! # Octets that encode a text

The octets that encode a character are read as that character, whatever follows, so a text comes back
from its octets without a hole. -/

namespace Dataflow.Text
namespace Utf8
variable {b : UInt8} {rest : List UInt8} {owed value : Nat} {low high : UInt8}

theorem run_cons (s : State) (b : UInt8) (rest : List UInt8) :
    run s (b :: rest) = (step s b).1 ++ run (step s b).2 rest := by
  cases s <;> rfl

/-- An octet that may follow carries six bits. -/
theorem run_inside (h : low ≤ b ∧ b ≤ high) (howed : 1 < owed) :
    run (.inside owed low high value) (b :: rest) =
      run (.inside (owed - 1) 0x80 0xBF (value * 64 + b.toNat % 64)) rest := by
  have howed' : ¬ owed ≤ 1 := by omega
  rw [run_cons]
  simp [step, h.1, h.2, howed']

theorem run_last (h : low ≤ b ∧ b ≤ high) :
    run (.inside 1 low high value) (b :: rest) = some (Char.ofNat (value * 64 + b.toNat % 64)) :: run .start rest := by
  rw [run_cons]
  simp [step, h.1, h.2]

theorem follows : ∀ m < 64, (0x80 ≤ UInt8.ofNat (m + 0x80) ∧ UInt8.ofNat (m + 0x80) ≤ 0xBF) ∧
    (UInt8.ofNat (m + 0x80)).toNat % 64 = m := by
  decide

theorem first_one : ∀ k < 128, first (UInt8.ofNat k) = ([some (Char.ofNat k)], .start) := by
  decide

theorem first_two : ∀ k < 32, 2 ≤ k → first (UInt8.ofNat (k + 0xC0)) = ([], .inside 1 0x80 0xBF k) := by
  decide

/-- The second octet of three has a range of its own where the first alone does not fix the length, and
    where surrogates would lie. -/
theorem first_three : ∀ k < 16, ∃ low high, first (UInt8.ofNat (k + 0xE0)) = ([], .inside 2 low high k) ∧
    ∀ m < 64, (k = 0 → 32 ≤ m) → (k = 13 → m < 32) →
      low ≤ UInt8.ofNat (m + 0x80) ∧ UInt8.ofNat (m + 0x80) ≤ high := by
  intro k hk
  have hcases : k = 0 ∨ k = 13 ∨ 1 ≤ k ∧ k ≠ 13 := by omega
  rcases hcases with rfl | rfl | h
  · exact ⟨0xA0, 0xBF, by decide, by decide⟩
  · exact ⟨0x80, 0x9F, by decide, by decide⟩
  · refine ⟨0x80, 0xBF, ?_, fun m hm _ _ => (follows m hm).1⟩
    revert k
    decide

theorem first_four : ∀ k < 5, ∃ low high, first (UInt8.ofNat (k + 0xF0)) = ([], .inside 3 low high k) ∧
    ∀ m < 64, (k = 0 → 16 ≤ m) → (k = 4 → m < 16) →
      low ≤ UInt8.ofNat (m + 0x80) ∧ UInt8.ofNat (m + 0x80) ≤ high := by
  intro k hk
  have hcases : k = 0 ∨ k = 4 ∨ 1 ≤ k ∧ k ≤ 3 := by omega
  rcases hcases with rfl | rfl | h
  · exact ⟨0x90, 0xBF, by decide, by decide⟩
  · exact ⟨0x80, 0x8F, by decide, by decide⟩
  · refine ⟨0x80, 0xBF, ?_, fun m hm _ _ => (follows m hm).1⟩
    revert k
    decide

theorem run_first {s : State} (h : first b = ([], s)) : run .start (b :: rest) = run s rest := by
  rw [run_cons, step, h]
  rfl

section
variable {v : Nat}

theorem run_one (h : v < 0x80) : run .start (UInt8.ofNat v :: rest) = some (Char.ofNat v) :: run .start rest := by
  rw [run_cons, step, first_one v h]
  rfl

theorem run_two (h : 0x80 ≤ v) (h' : v < 0x800) :
    run .start (UInt8.ofNat (v / 64 % 32 + 0xC0) :: UInt8.ofNat (v % 64 + 0x80) :: rest) =
      some (Char.ofNat v) :: run .start rest := by
  obtain ⟨hrange, hbits⟩ := follows (v % 64) (by omega)
  have hvalue : v / 64 % 32 * 64 + v % 64 = v := by omega
  rw [run_first (first_two (v / 64 % 32) (by omega) (by omega)), run_last hrange, hbits, hvalue]

theorem run_three (h : 0x800 ≤ v) (h' : v < 0x10000) (hscalar : v < 0xD800 ∨ 0xDFFF < v) :
    run .start (UInt8.ofNat (v / 4096 % 16 + 0xE0) :: UInt8.ofNat (v / 64 % 64 + 0x80) ::
      UInt8.ofNat (v % 64 + 0x80) :: rest) = some (Char.ofNat v) :: run .start rest := by
  obtain ⟨hrange, hbits⟩ := follows (v % 64) (by omega)
  have hbits' := (follows (v / 64 % 64) (by omega)).2
  obtain ⟨low, high, hfirst, hsecond⟩ := first_three (v / 4096 % 16) (by omega)
  have hsecond := hsecond (v / 64 % 64) (by omega) (by omega) (by omega)
  have hvalue : (v / 4096 % 16 * 64 + v / 64 % 64) * 64 + v % 64 = v := by omega
  rw [run_first hfirst, run_inside hsecond (by decide), run_last hrange, hbits, hbits', hvalue]

theorem run_four (h : 0x10000 ≤ v) (h' : v < 0x110000) :
    run .start (UInt8.ofNat (v / 262144 % 8 + 0xF0) :: UInt8.ofNat (v / 4096 % 64 + 0x80) ::
      UInt8.ofNat (v / 64 % 64 + 0x80) :: UInt8.ofNat (v % 64 + 0x80) :: rest) =
        some (Char.ofNat v) :: run .start rest := by
  obtain ⟨hrange, hbits⟩ := follows (v % 64) (by omega)
  obtain ⟨hrange', hbits'⟩ := follows (v / 64 % 64) (by omega)
  have hbits'' := (follows (v / 4096 % 64) (by omega)).2
  obtain ⟨low, high, hfirst, hsecond⟩ := first_four (v / 262144 % 8) (by omega)
  have hsecond := hsecond (v / 4096 % 64) (by omega) (by omega) (by omega)
  have hvalue : ((v / 262144 % 8 * 64 + v / 4096 % 64) * 64 + v / 64 % 64) * 64 + v % 64 = v := by omega
  rw [run_first hfirst, run_inside hsecond (by decide), run_inside hrange' (by decide), run_last hrange, hbits, hbits',
    hbits'', hvalue]

end

theorem run_char (c : Char) (rest : List UInt8) :
    run .start (String.utf8EncodeChar c ++ rest) = some c :: run .start rest := by
  have hscalar : c.val.toNat < 0xD800 ∨ 0xDFFF < c.val.toNat ∧ c.val.toNat < 0x110000 := c.valid
  have hc : Char.ofNat c.val.toNat = c := Char.ofNat_toNat c
  unfold String.utf8EncodeChar
  generalize c.val.toNat = v at hscalar hc ⊢
  rw [← hc]
  dsimp only
  split_ifs with hone htwo hthree
  · exact run_one (by omega)
  · exact run_two (by omega) (by omega)
  · exact run_three (by omega) (by omega) (by omega)
  · exact run_four (by omega) (by omega)

end Utf8

/-- A text is read from the octets that encode it. -/
theorem decodeUtf8_toUTF8 (s : String) : decodeUtf8 s.toUTF8.data.toList = symbols s := by
  have hchars : ∀ cs : List Char, Utf8.run .start (cs.flatMap String.utf8EncodeChar) = cs.map some := by
    intro cs
    induction cs with
    | nil => rfl
    | cons c rest ih => rw [List.flatMap_cons, Utf8.run_char, ih, List.map_cons]
  rw [String.toUTF8_eq_toByteArray, ← String.utf8Encode_toList, List.utf8Encode, List.toList_data_toByteArray]
  exact hchars s.toList

end Dataflow.Text
