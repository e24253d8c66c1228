import Mathlib

/-!
# Integers as double precision numbers

The integers among the numbers of a language whose only number type has 53 significant bits: a
sum is rounded to the nearest number, to the one with an even last bit where two are equally
near, and to an infinity beyond the greatest one.

* `round_of_le` — integers up to `2 ^ 53` are numbers;
* `add_of_le` — and their sums up to there are exact.
-/

namespace Doubles

/-- The weight of the last of the 53 significant bits. -/
def lastPlace (n : ℕ) : ℕ := 2 ^ (Nat.log2 n - 52)

/-- The nearest number with 53 significant bits, ties to even. -/
def round (n : ℕ) : ℕ :=
  let quotient := n / lastPlace n
  let remainder := n % lastPlace n
  if 2 * remainder < lastPlace n ∨ (2 * remainder = lastPlace n ∧ quotient % 2 = 0) then
    quotient * lastPlace n
  else (quotient + 1) * lastPlace n

/-- Numbers end below it. -/
def overflow : ℕ := 2 ^ 1024

/-- A number: an integer, an infinity or none of these. -/
inductive Double where
  | int (n : ℤ)
  | infinity
  | other
  deriving DecidableEq

namespace Double

/-- The number nearest to an integer. -/
def ofInt (n : ℤ) : Double :=
  if round n.natAbs < overflow then .int (n.sign * round n.natAbs)
  else if 0 < n then .infinity else .other

/-- `+`. -/
def add : Double → Double → Double
  | .int a, .int b => ofInt (a + b)
  | .infinity, .int _ => .infinity
  | .int _, .infinity => .infinity
  | .infinity, .infinity => .infinity
  | _, _ => .other

/-- `-`. -/
def sub : Double → Double → Double
  | .int a, .int b => ofInt (a - b)
  | .infinity, .int _ => .infinity
  | _, _ => .other

/-- The text of a number in a message. -/
def text : Double → String
  | .int n => toString n
  | .infinity => "Infinity"
  | .other => "NaN"

/-- `<=`. -/
def le : Double → Double → Bool
  | .int a, .int b => a ≤ b
  | .int _, .infinity => true
  | .infinity, .infinity => true
  | _, _ => false

end Double

theorem round_of_le {n : ℕ} (h : n ≤ 2 ^ 53) : round n = n := by
  have hlast : n < 2 ^ 53 → lastPlace n = 1 := by
    intro hlt
    have hlog : Nat.log2 n ≤ 52 := by
      by_cases hzero : n = 0
      · simp [hzero]
      · exact Nat.lt_succ_iff.1 ((Nat.log2_lt hzero).2 hlt)
    unfold lastPlace
    rw [Nat.sub_eq_zero_of_le hlog, pow_zero]
  rcases Nat.lt_or_eq_of_le h with hlt | rfl
  · unfold round
    rw [hlast hlt]
    simp [Nat.mod_one]
  · decide +kernel

/-- Integers up to `2 ^ 53` are numbers. -/
theorem ofInt_of_le {n : ℤ} (h : n.natAbs ≤ 2 ^ 53) : Double.ofInt n = .int n := by
  have hlt : n.natAbs < overflow := lt_of_le_of_lt h (by decide +kernel)
  unfold Double.ofInt
  rw [round_of_le h, if_pos hlt, Int.sign_mul_natAbs]

/-- Sums up to `2 ^ 53` are exact. -/
theorem add_of_le {a b : ℤ} (h : (a + b).natAbs ≤ 2 ^ 53) : Double.add (.int a) (.int b) = .int (a + b) :=
  ofInt_of_le h

/-- Rounding does not leave the numbers from `2 ^ 53` on. -/
theorem le_round {n : ℕ} (h : 2 ^ 53 ≤ n) : 2 ^ 53 ≤ round n := by
  have hlog : 53 ≤ Nat.log2 n := (Nat.le_log2 (by omega)).2 h
  have hlow : 2 ^ Nat.log2 n ≤ n := Nat.log2_self_le (by omega)
  have hquotient : 2 ^ 52 ≤ n / lastPlace n := by
    rw [Nat.le_div_iff_mul_le (by unfold lastPlace; positivity), lastPlace, ← pow_add]
    rwa [Nat.add_sub_cancel' (by omega)]
  have hlast : 2 ≤ lastPlace n := by
    rw [lastPlace]
    exact Nat.le_self_pow (by omega) 2
  unfold round
  dsimp only
  split
  · exact le_trans (by norm_num) (Nat.mul_le_mul hquotient hlast)
  · exact le_trans (by norm_num) (Nat.mul_le_mul (le_trans hquotient (Nat.le_succ _)) hlast)

/-- A sum is above every index below `2 ^ 53` that its first summand is above. -/
theorem lt_add {x : Double} {n m : ℤ} {index : ℕ} (hadd : x.add (.int n) = .int m) (hn : 0 < n)
    (hx : ∀ b, x = .int b → (index : ℤ) < b) (hindex : index < 2 ^ 53) : (index : ℤ) < m := by
  cases x with
  | int b =>
    have hb := hx b rfl
    by_cases hle : (b + n).natAbs ≤ 2 ^ 53
    · rw [add_of_le hle] at hadd
      have := Double.int.inj hadd
      omega
    · have hround := le_round (n := (b + n).natAbs) (by omega)
      have hsign : (b + n).sign = 1 := Int.sign_eq_one_of_pos (by omega)
      have hpos : 0 < b + n := by omega
      simp only [Double.add, Double.ofInt, hsign, one_mul, if_pos hpos] at hadd
      split at hadd
      · have := Double.int.inj hadd
        omega
      · cases hadd
  | infinity => cases hadd
  | other => cases hadd

example : Double.add (.int (2 ^ 53)) (.int 1) = .int (2 ^ 53) := by decide +kernel

end Doubles
