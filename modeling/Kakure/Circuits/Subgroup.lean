import Kakure.Circuits.Curve

/-!
# Membership by a cofactor preimage

`circuits/shared/src/common/subgroup.nr`: a point is shown to be in the subgroup by a point of the curve that is
an eighth of it.  The hint is whatever the prover hands in.

* `assertCofactorPreimage_eq_some_iff` — what passes is eight times the point handed in;
* `cofactorPreimage_iff` — exactly the points of the subgroup have a hint that passes;
* `binderWithoutOnCurve_unsound` — without the assert that the hint is on the curve, others have one.
-/

namespace Kakure.Circuit

/-- The points of the curve are the pairs that satisfy its equation. -/
theorem Point.IsOnCurve.exists_ofPoint {p : Point} (h : p.IsOnCurve) : ∃ P, p = ofPoint P := by
  have hcurve : BabyJubJub.curve.a * p.x ^ 2 + p.y ^ 2 = 1 + BabyJubJub.curve.d * p.x ^ 2 * p.y ^ 2 := by
    change (168700 : Fr) * p.x ^ 2 + p.y ^ 2 = 1 + 168696 * p.x ^ 2 * p.y ^ 2
    change (168700 : Fr) * (p.x * p.x) + p.y * p.y = 1 + 168696 * (p.x * p.x) * (p.y * p.y) at h
    linear_combination h
  exact ⟨⟨p.x, p.y, hcurve⟩, rfl⟩

/-- A hint passes if it is a point of the curve of which the point is eight times. -/
theorem assertCofactorPreimage_eq_some_iff {p q : Point} :
    assertCofactorPreimage p q = some () ↔ ∃ Q, q = ofPoint Q ∧ p = ofPoint ((8 : ℕ) • Q) := by
  constructor
  · intro h
    by_cases hcurve : q.IsOnCurve
    swap
    · simp [assertCofactorPreimage, guard, hcurve] at h
    obtain ⟨Q, rfl⟩ := hcurve.exists_ofPoint
    rw [assertCofactorPreimage, bind_guard hcurve, bind_of_some (Point.dbl3_ofPoint Q)] at h
    by_cases hx : (ofPoint ((8 : ℕ) • Q)).x = p.x
    swap
    · simp [guard, hx] at h
    by_cases hy : (ofPoint ((8 : ℕ) • Q)).y = p.y
    swap
    · simp [guard, hx, hy] at h
    exact ⟨Q, rfl, Point.ext hx.symm hy.symm⟩
  · rintro ⟨Q, rfl, rfl⟩
    rw [assertCofactorPreimage, bind_guard (isOnCurve_ofPoint Q), bind_of_some (Point.dbl3_ofPoint Q), bind_guard rfl]
    simp [guard]

/-- What has passed is in the subgroup, whatever was handed in. -/
theorem inSubgroup_of_assert {p q : Point} (h : assertCofactorPreimage p q = some ()) :
    ∃ P, BabyJubJub.InSubgroup P ∧ p = ofPoint P := by
  obtain ⟨Q, -, hp⟩ := assertCofactorPreimage_eq_some_iff.1 h
  exact ⟨_, BabyJubJub.inSubgroup_eight_nsmul Q, hp⟩

/-- The hint of a point of the subgroup passes. -/
theorem exists_hint {P : BabyJubJub.Point} (h : BabyJubJub.InSubgroup P) :
    ∃ q, cofactorPreimageHint (ofPoint P) = some q ∧ assertCofactorPreimage (ofPoint P) q = some () := by
  have hpass := assertInPrimeSubgroup_ofPoint P h
  rw [assertInPrimeSubgroup] at hpass
  exact Option.bind_eq_some_iff.1 hpass

/-- A pair of field elements, on the curve or off it, has a hint that passes exactly if it is a point of the subgroup,
and then the one that is computed for it passes. -/
theorem cofactorPreimage_iff (p : Point) :
    ((∃ q, assertCofactorPreimage p q = some ()) ↔ ∃ P, BabyJubJub.InSubgroup P ∧ p = ofPoint P) ∧
      ∀ P, BabyJubJub.InSubgroup P → p = ofPoint P →
        ∃ q, cofactorPreimageHint p = some q ∧ assertCofactorPreimage p q = some () := by
  refine ⟨⟨?_, ?_⟩, ?_⟩
  · rintro ⟨q, hq⟩
    exact inSubgroup_of_assert hq
  · rintro ⟨P, hP, rfl⟩
    obtain ⟨q, -, hq⟩ := exists_hint hP
    exact ⟨q, hq⟩
  · rintro P hP rfl
    exact exists_hint hP

/-! ## The assert on the hint -/

/-- `binder_without_on_curve`. -/
def binderWithoutOnCurve (p q : Point) : Option Bool := do
  let eightQ ← q.dbl3
  some (eightQ.x = p.x ∧ eightQ.y = p.y)

/-- Doubling squares the second coordinate where the first is zero, on the curve or off it. -/
theorem dbl_of_x_eq_zero (y : Fr) : Point.dbl ⟨0, y⟩ = some ⟨0, y ^ 2⟩ := by
  have hunconstrained : addUnconstrained 0 0 y y = some (0, y ^ 2, 0) := by
    simp [addUnconstrained, pow_two]
  simp [Point.dbl, Point.add, hunconstrained, guard, pow_two]

/-- An eighth root off the curve reaches any power it is the root of. -/
theorem binderWithoutOnCurve_of_x_eq_zero (y : Fr) : binderWithoutOnCurve ⟨0, y ^ 8⟩ ⟨0, y⟩ = some true := by
  have hdbl3 : Point.dbl3 ⟨0, y⟩ = some ⟨0, y ^ 8⟩ := by
    rw [Point.dbl3, bind_of_some (dbl_of_x_eq_zero y), bind_of_some (dbl_of_x_eq_zero _), dbl_of_x_eq_zero, ← pow_mul,
      ← pow_mul]
  rw [binderWithoutOnCurve, bind_of_some hdbl3]
  simp

/-- `ZETA16`. -/
def zeta16 : Fr := 0x21082ca216cbbf4e1c6e4f4594dd508c996dfbe1174efb98b11509c6e306460b

/-- `malicious_hint`. -/
def maliciousHint : Point := ⟨0, zeta16⟩

/-- The point of order two. -/
def badOrder2 : BabyJubJub.Point := ⟨0, -1, BabyJubJub.orderTwo_on_curve⟩

theorem not_inSubgroup_badOrder2 : ¬ BabyJubJub.InSubgroup badOrder2 := by
  intro h
  have hdouble : (2 : ℕ) • badOrder2 = 0 := by
    rw [two_nsmul]
    refine Edwards.Point.ext ?_ ?_
    · simp [Edwards.add_x, badOrder2]
    · simp [Edwards.add_y, badOrder2]
  have hodd : subOrder = subOrder / 2 * 2 + 1 := by norm_num [subOrder]
  rw [BabyJubJub.InSubgroup, hodd, add_nsmul, mul_nsmul', hdouble, nsmul_zero, zero_add, one_nsmul] at h
  have hy : (-1 : Fr) = 1 := congrArg Edwards.Point.y h
  exact absurd hy (by decide +kernel)

/-- So without the assert the point of order two would pass. -/
theorem binderWithoutOnCurve_unsound : ∃ P q, ¬ BabyJubJub.InSubgroup P ∧ binderWithoutOnCurve (ofPoint P) q = some true := by
  have hpow : zeta16 ^ 8 = -1 := by decide +kernel
  have hbinder := binderWithoutOnCurve_of_x_eq_zero zeta16
  rw [hpow] at hbinder
  exact ⟨badOrder2, maliciousHint, not_inSubgroup_badOrder2, hbinder⟩

end Kakure.Circuit
