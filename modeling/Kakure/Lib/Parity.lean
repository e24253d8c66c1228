import Mathlib

/-!
# Parity modulo an odd number

A number and its negative add up to the modulus, so that one of them is even and only one, unless the number is zero.

* `val_neg_even_iff` — the negative of an odd number is even;
* `eq_of_even`, `evenOne_congr` — the even one of a number and its negative;
* `val_mul_half_lt_iff` — the halves of the even numbers are below the half of one.
-/

namespace Parity

variable {p : ℕ}

theorem val_neg_even_iff (hp : p % 2 = 1) {y : ZMod p} (hne : y ≠ 0) : (-y).val % 2 = 0 ↔ y.val % 2 = 1 := by
  have : NeZero p := ⟨by omega⟩
  have : NeZero y := ⟨hne⟩
  have hlt := ZMod.val_lt y
  rw [ZMod.val_neg_of_ne_zero]
  omega

theorem ne_neg (hp : p % 2 = 1) {y : ZMod p} (hne : y ≠ 0) : y ≠ -y := by
  intro h
  have hneg := val_neg_even_iff hp hne
  rw [← h] at hneg
  omega

/-- Of a number and its negative one is even. -/
theorem eq_of_even (hp : p % 2 = 1) {y z : ZMod p} (hy : y.val % 2 = 0) (hz : z.val % 2 = 0)
    (h : y = z ∨ y = -z) : y = z := by
  rcases h with h | rfl
  · exact h
  · by_cases hzero : z = 0
    · rw [hzero, neg_zero]
    · have hodd := (val_neg_even_iff hp hzero).1 hy
      omega

/-- The even one of a number and its negative. -/
def evenOne (y : ZMod p) : ZMod p := if y.val % 2 ≠ 0 then -y else y

theorem evenOne_of_even {y : ZMod p} (h : y.val % 2 = 0) : evenOne y = y := if_neg (not_not.2 h)

theorem evenOne_eq_or_eq_neg (y : ZMod p) : evenOne y = y ∨ evenOne y = -y := by
  unfold evenOne
  split
  · exact Or.inr rfl
  · exact Or.inl rfl

theorem evenOne_even (hp : p % 2 = 1) (y : ZMod p) : (evenOne y).val % 2 = 0 := by
  unfold evenOne
  split
  · rename_i hodd
    refine (val_neg_even_iff hp ?_).2 (by omega)
    rintro rfl
    simp at hodd
  · omega

/-- It is the same of both. -/
theorem evenOne_congr (hp : p % 2 = 1) {y z : ZMod p} (h : y = z ∨ y = -z) : evenOne y = evenOne z := by
  rcases h with rfl | rfl
  · rfl
  · have hneg := evenOne_eq_or_eq_neg (-z)
    rw [neg_neg] at hneg
    refine eq_of_even hp (evenOne_even hp (-z)) (evenOne_even hp z) ?_
    rcases evenOne_eq_or_eq_neg z with hz | hz
    · rw [hz]
      exact hneg.symm
    · rw [hz, neg_neg]
      exact hneg

/-- The halves of the even numbers are below the half of one. -/
theorem val_mul_half_lt_iff {half : ℕ} (hp : p + 1 = 2 * half) (y : ZMod p) :
    (y * (half : ZMod p)).val < half ↔ y.val % 2 = 0 := by
  have : NeZero p := ⟨by omega⟩
  have hhalf : (2 : ZMod p) * half = 1 := by
    have hcast := congrArg (Nat.cast : ℕ → ZMod p) hp
    push_cast at hcast
    rw [← hcast, ZMod.natCast_self, zero_add]
  have hlt := ZMod.val_lt y
  obtain ⟨k, hk⟩ : ∃ k, y.val = 2 * k ∨ y.val = 2 * k + 1 := ⟨y.val / 2, by omega⟩
  rcases hk with hk | hk
  · have hy : y * half = (k : ZMod p) := by
      rw [← ZMod.natCast_zmod_val y, hk, Nat.cast_mul, Nat.cast_ofNat, mul_right_comm, hhalf, one_mul]
    rw [hy, ZMod.val_cast_of_lt (by omega)]
    omega
  · have hy : y * half = ((k + half : ℕ) : ZMod p) := by
      rw [← ZMod.natCast_zmod_val y, hk, Nat.cast_add, Nat.cast_mul, Nat.cast_ofNat, Nat.cast_one, add_mul,
        mul_right_comm, hhalf, one_mul, one_mul, Nat.cast_add]
    rw [hy, ZMod.val_cast_of_lt (by omega)]
    omega

end Parity
