/-! # Sizes

Sizes of signals and places in them have 64 bits. A sum of them that needs more wraps around. -/

namespace Dataflow.Size

/-- The number of sizes: two to the 64th. -/
def limit : Nat := 18446744073709551616

def add (a b : Nat) : Nat := (a + b) % limit

def sum (sizes : List Nat) : Nat := sizes.foldr add 0

/-- The sum among all numbers, which does not wrap around. -/
def total (sizes : List Nat) : Nat := sizes.foldr (· + ·) 0

theorem limit_pos : 0 < limit := by decide

theorem add_eq {a b : Nat} (h : a + b < limit) : add a b = a + b := Nat.mod_eq_of_lt h

/-- A sum that wraps around is less than what was added to. -/
theorem add_lt {a b : Nat} (h : limit ≤ a + b) (hb : b < limit) : add a b < a := by
  have hadd : add a b < limit := Nat.mod_lt _ limit_pos
  rcases Nat.lt_or_ge a limit with ha | ha
  · have hwrapped : add a b = a + b - limit := by
      rw [add, Nat.mod_eq_sub_mod h, Nat.mod_eq_of_lt (by omega)]
    omega
  · exact Nat.lt_of_lt_of_le hadd ha

/-- Sums wrap around once at the end, or where they exceed the limit: it makes no difference. -/
theorem sum_eq_mod {sizes : List Nat} : sum sizes = total sizes % limit := by
  induction sizes with
  | nil => rfl
  | cons n rest ih =>
    show (n + sum rest) % limit = (n + total rest) % limit
    rw [ih, Nat.add_mod_mod]

theorem sum_map_mod {sizes : List Nat} : sum (sizes.map (· % limit)) = sum sizes := by
  induction sizes with
  | nil => rfl
  | cons n rest ih =>
    show (n % limit + sum (rest.map (· % limit))) % limit = (n + sum rest) % limit
    rw [ih, Nat.mod_add_mod]

theorem sum_eq {sizes : List Nat} (h : total sizes < limit) : sum sizes = total sizes :=
  sum_eq_mod.trans (Nat.mod_eq_of_lt h)

theorem le_total {sizes : List Nat} {n : Nat} (h : n ∈ sizes) : n ≤ total sizes := by
  induction h with
  | head rest => exact Nat.le_add_right n (total rest)
  | tail k _ ih => exact Nat.le_trans ih (Nat.le_add_left _ k)

end Dataflow.Size
