import Kakure.Lib.SquareRoots
import Kakure.Notes.Keys

/-!
# Points from their tags

`recoverEvenY` of `note/keys.ts`: the point with an even second coordinate that has a given first one.  The
bigints below the modulus are field elements.

* `recoverEvenY_coords` — a point with a tag is recovered from it.
-/

namespace Kakure.Notes

open Tss SquareRoots

/-- `BJJ_A`, `BJJ_D`. -/
def bjjA : Fr := 168700

def bjjD : Fr := 168696

/-- `invP`. -/
def invP (x : Fr) : Except String Fr :=
  if x = 0 then .error "recoverEvenY: division by zero" else .ok (power x (bn254ScalarFieldModulus - 2))

/-- `sqrtP`. -/
def sqrtP (n : Fr) : Except String Fr :=
  if n ≠ 0 ∧ power n ((bn254ScalarFieldModulus - 1) / 2) ≠ 1 then
    .error "recoverEvenY: x has no y on the curve (non-residue)"
  else
    match sqrt bn254ScalarFieldModulus n with
    | none => .error "recoverEvenY: Tonelli-Shanks failed"
    | some y => .ok y

/-- The even one of a number and its negative. -/
def evenOne (y : Fr) : Fr := if y.val % 2 ≠ 0 then -y else y

/-- `recoverEvenY`. -/
def recoverEvenY (x : ℤ) : Except String Tss.Point := do
  let x2 : Fr := (x : Fr) * (x : Fr)
  let num := 1 - bjjA * x2
  let den := 1 - bjjD * x2
  let inverse ← invP den
  let y ← sqrtP (num * inverse)
  return (((x : Fr).val : ℤ), ((evenOne y).val : ℤ))

theorem power_eq_inv {x : Fr} (h : x ≠ 0) : power x (bn254ScalarFieldModulus - 2) = x⁻¹ := by
  rw [power_eq, pow_sub_two h]

theorem invP_ok {x : Fr} (h : x ≠ 0) : invP x = .ok x⁻¹ := by
  rw [invP, if_neg h, power_eq_inv h]

theorem sqrtP_sq (y : Fr) : ∃ r, sqrtP (y * y) = .ok r ∧ (r = y ∨ r = -y) := by
  have hne : bn254ScalarFieldModulus ≠ 2 := by norm_num [bn254ScalarFieldModulus]
  obtain ⟨r, hr, hsign⟩ := sqrt_sq hne y
  have hguard : ¬ (y * y ≠ 0 ∧ power (y * y) ((bn254ScalarFieldModulus - 1) / 2) ≠ 1) := by
    rintro ⟨hzero, hpower⟩
    rw [sqrt, if_neg hzero, if_pos hpower] at hr
    cases hr
  exact ⟨r, by rw [sqrtP, if_neg hguard, hr], hsign⟩

theorem evenOne_of_even {y r : Fr} (h : y.val % 2 = 0) (hr : r = y ∨ r = -y) : evenOne r = y :=
  (Parity.evenOne_congr modulus_odd hr).trans (Parity.evenOne_of_even h)

theorem sqrtP_of_not_isSquare {n : Fr} (h : ¬ IsSquare n) :
    sqrtP n = .error "recoverEvenY: x has no y on the curve (non-residue)" := by
  have hne : bn254ScalarFieldModulus ≠ 2 := by norm_num [bn254ScalarFieldModulus]
  have hzero : n ≠ 0 := by
    rintro rfl
    exact h IsSquare.zero
  rw [sqrtP, if_pos]
  rw [power_eq]
  exact ⟨hzero, fun hpower => h ((isSquare_iff hne hzero).2 hpower)⟩

/-- A point with a tag is recovered from it. -/
theorem recoverEvenY_coords {P : BabyJubJub.Point} (heven : isEvenY (coords P) = true) :
    recoverEvenY (coords P).1 = .ok (coords P) := by
  have hcast : (((coords P).1 : ℤ) : Fr) = P.x := by
    rw [coords, Int.cast_natCast, ZMod.natCast_zmod_val]
  have hne := Edwards.one_sub_sq_ne_zero BabyJubJub.curve.a_ne_d P.on_curve
  have hsq := (Edwards.eq_iff_sq_eq hne).1 P.on_curve
  have hden : 1 - bjjD * (P.x * P.x) ≠ 0 := by
    rw [← sq]
    exact hne
  have hsquare : (1 - bjjA * (P.x * P.x)) * (1 - bjjD * (P.x * P.x))⁻¹ = P.y * P.y := by
    rw [← div_eq_mul_inv, ← sq, ← sq]
    exact hsq.symm
  obtain ⟨r, hr, hsign⟩ := sqrtP_sq P.y
  unfold recoverEvenY
  simp only [hcast]
  rw [invP_ok hden]
  show (sqrtP _ >>= _) = _
  rw [hsquare, hr]
  show Except.ok _ = _
  rw [evenOne_of_even ((isEvenY_coords P).1 heven) hsign]
  rfl

end Kakure.Notes
