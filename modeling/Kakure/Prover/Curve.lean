import Mathlib
import Kakure.Field

/-!
# The two curves of a proof

The base field of BN254, its quadratic extension, and the equations of the curve the G1
points of a proof lie on and of the twist the G2 points lie on.

* `ne_zero_of_onCurve`, `ne_zero_of_onTwist` — no point of either has the coordinate
  `x = 0`, whose encoding is the one of infinity.
-/

namespace Kakure.Prover

open NumberTheorySymbols

/-- `FQ_MODULUS`. -/
def fqModulus : ℕ :=
  21888242871839275222246405745257275088696311157297823662689037894645226208583

instance : NeZero fqModulus := ⟨by norm_num [fqModulus]⟩

instance : Fact (1 < fqModulus) := ⟨by norm_num [fqModulus]⟩

/-- An element of the base field. -/
abbrev Fq := ZMod fqModulus

theorem fqModulus_lt : fqModulus < 2 ^ 254 := by norm_num [fqModulus]

/-- An element `c0 + c1 * u` of the quadratic extension, in the order of its serialization. -/
structure Fq2 where
  c1 : Fq
  c0 : Fq
  deriving DecidableEq

def Fq2.mul (a b : Fq2) : Fq2 := ⟨a.c0 * b.c1 + a.c1 * b.c0, a.c0 * b.c0 - a.c1 * b.c1⟩

def Fq2.sub (a b : Fq2) : Fq2 := ⟨a.c1 - b.c1, a.c0 - b.c0⟩

def Fq2.neg (a : Fq2) : Fq2 := ⟨-a.c1, -a.c0⟩

/-- Greater than its negative, as a number. -/
def Larger (y : Fq) : Prop := (-y).val < y.val

/-- Greater than its negative, by the halves in the order of their serialization: the first
decides unless it is its own negative. -/
def Fq2.Larger (y : Fq2) : Prop :=
  y.neg.c1.val < y.c1.val ∨ y.neg.c1.val = y.c1.val ∧ y.neg.c0.val < y.c0.val

instance (y : Fq) : Decidable (Larger y) := inferInstanceAs (Decidable (_ < _))

instance (y : Fq2) : Decidable y.Larger := inferInstanceAs (Decidable (_ ∨ _))

/-- The curve `y² = x³ + 3`. -/
def OnCurve (x y : Fq) : Prop := y ^ 2 = x ^ 3 + 3

/-- The twist `y² = x³ + 3 / (9 + u)`. -/
def OnTwist (x y : Fq2) : Prop := Fq2.mul ⟨1, 9⟩ ((y.mul y).sub (x.mul (x.mul x))) = ⟨0, 3⟩

instance (x y : Fq) : Decidable (OnCurve x y) := inferInstanceAs (Decidable (_ = _))

instance (x y : Fq2) : Decidable (OnTwist x y) := inferInstanceAs (Decidable (_ = _))

/-- Three is not a square. -/
theorem not_isSquare_three : ¬ IsSquare (3 : Fq) := by
  have h : J((3 : ℤ) | fqModulus) = -1 := by
    unfold fqModulus
    norm_num
  simpa using ZMod.nonsquare_of_jacobiSym_eq_neg_one h

/-- The norm of `9 + u` is not a square. -/
theorem not_isSquare_eightyTwo : ¬ IsSquare (82 : Fq) := by
  have h : J((82 : ℤ) | fqModulus) = -1 := by
    unfold fqModulus
    norm_num
  simpa using ZMod.nonsquare_of_jacobiSym_eq_neg_one h

theorem ne_zero_of_onCurve {x y : Fq} (h : OnCurve x y) : x ≠ 0 := by
  rintro rfl
  apply not_isSquare_three
  refine ⟨y, ?_⟩
  unfold OnCurve at h
  linear_combination -h

/-- The inverse of three. -/
def third : Fq := 14592161914559516814830937163504850059130874104865215775126025263096817472389

theorem three_mul_third : (3 : Fq) * third = 1 := by decide

/-- A point of the twist over `x = 0` would make the norm of `9 + u` a square. -/
theorem ne_zero_of_onTwist {x y : Fq2} (h : OnTwist x y) : x.c1 ≠ 0 ∨ x.c0 ≠ 0 := by
  by_contra hzero
  simp only [ne_eq, not_or, not_not] at hzero
  obtain ⟨x₁, x₀⟩ := x
  obtain ⟨y₁, y₀⟩ := y
  obtain ⟨rfl, rfl⟩ : x₁ = 0 ∧ x₀ = 0 := hzero
  simp only [OnTwist, Fq2.mul, Fq2.sub, Fq2.mk.injEq] at h
  obtain ⟨h₁, h₀⟩ := h
  -- the norms of both sides: 82 times a square is 9
  have hnorm : 82 * (y₀ ^ 2 + y₁ ^ 2) ^ 2 = (9 : Fq) := by
    linear_combination
      (9 * (2 * y₀ * y₁) + (y₀ ^ 2 - y₁ ^ 2)) * h₁ + (9 * (y₀ ^ 2 - y₁ ^ 2) - 2 * y₀ * y₁ + 3) * h₀
  apply not_isSquare_eightyTwo
  refine ⟨82 * (y₀ ^ 2 + y₁ ^ 2) * third, ?_⟩
  linear_combination (-82 * third ^ 2) * hnorm - (82 * (3 * third + 1)) * three_mul_third

end Kakure.Prover
