/-! # Doubles that are natural numbers

A double has 53 significant bits. A natural number that needs more of them is rounded to the nearest
double, and to the one with an even last bit if two of them are as near. What is halfway from the
largest double to the next power of two, or more than that, rounds to infinity.
-/

namespace Ephemera.Json.Double

/-- The weight of the last significant bit of a double that a natural number rounds to. -/
def unit (n : Nat) : Nat :=
  Nat.pow 2 (n.log2 - 52)

/-- The double that is nearest to a natural number, as far as doubles are bounded in precision but
not in size. -/
def round (n : Nat) : Nat :=
  let below := n / unit n
  let rest := n % unit n
  if 2 * rest < unit n ∨ (2 * rest = unit n ∧ below % 2 = 0) then below * unit n
  else (below + 1) * unit n

/-- The least natural number that rounds to infinity. -/
def overflow : Nat :=
  Nat.pow 2 1024 - Nat.pow 2 970

/-- The exponent of the largest power of ten that rounds to a finite double. -/
def maxExponent : Nat := 308

/-- Rounding moves a number by at most half a unit. -/
theorem two_mul_round_le (n : Nat) :
    2 * round n ≤ 2 * n + unit n ∧ 2 * n ≤ 2 * round n + unit n := by
  have hdiv : unit n * (n / unit n) + n % unit n = n := Nat.div_add_mod n (unit n)
  have hpos : 0 < unit n := Nat.pow_pos (by decide)
  have hlt : n % unit n < unit n := Nat.mod_lt n hpos
  unfold round
  dsimp only
  split
  · rw [Nat.mul_comm (n / unit n)]
    omega
  · rw [Nat.add_mul, Nat.one_mul, Nat.mul_comm (n / unit n)]
    omega

/-- Numbers that 53 bits are enough for are doubles. -/
theorem round_eq_self {n : Nat} (h : n < Nat.pow 2 53) : round n = n := by
  have hlog : n.log2 ≤ 52 := by
    by_cases hn : n = 0
    · simp [hn]
    · have : n.log2 < 53 := (Nat.log2_lt hn).mpr h
      omega
  have hunit : unit n = 1 := by
    simp [unit, Nat.sub_eq_zero_of_le hlog]
  simp [round, hunit, Nat.mod_one]

end Ephemera.Json.Double
