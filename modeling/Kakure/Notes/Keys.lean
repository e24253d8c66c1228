import Kakure.Lib.Parity
import Kakure.Tss.Bjj

/-!
# Keys of notes

The part of `packages/sdk/src/note/keys.ts` the wallet's tags rest on.  A discovery tag is the
first coordinate of a point, and only points whose second coordinate is even carry one.

* `publicKey_eq` — public keys are multiples of the base point;
* `eq_of_evenY` — a tag belongs to one point.
-/

namespace Kakure.Notes

open Tss

/-- `publicKey`. -/
def publicKey (lib : Library) (scalar : Fr) : Tss.Point := lib.mulPointEscalar lib.base8 scalar.val

/-- `isEvenY`. -/
def isEvenY (pub : Tss.Point) : Bool := pub.2 % 2 == 0

/-- `discoveryTag`. -/
def discoveryTag (pub : Tss.Point) : Fr := (pub.1 : Fr)

/-- `pubkeyOwner`. -/
def pubkeyOwner (hash : List Fr → Fr) (pub : Tss.Point) : Fr := hash [(pub.1 : Fr), (pub.2 : Fr)]

variable {lib : Library}

theorem publicKey_eq (h : lib.Lawful) (scalar : Fr) :
    publicKey lib scalar = coords (((scalar.val : ℕ) : ZMod subOrder) • BabyJubJub.base : BabyJubJub.subgroup) := by
  unfold publicKey
  rw [base8_eq h, h.mulPointEscalar, BabyJubJub.coe_natCast_smul]

@[simp] theorem discoveryTag_coords (P : BabyJubJub.Point) : discoveryTag (coords P) = P.x := by
  unfold discoveryTag coords
  rw [Int.cast_natCast, ZMod.natCast_zmod_val]

theorem isEvenY_coords (P : BabyJubJub.Point) : isEvenY (coords P) = true ↔ P.y.val % 2 = 0 := by
  unfold isEvenY coords
  rw [beq_iff_eq]
  omega

theorem modulus_odd : bn254ScalarFieldModulus % 2 = 1 := by norm_num [bn254ScalarFieldModulus]

/-- A tag belongs to one point. -/
theorem eq_of_evenY {P Q : BabyJubJub.Point} (hP : isEvenY (coords P) = true)
    (hQ : isEvenY (coords Q) = true) (h : P.x = Q.x) : P = Q := by
  rw [isEvenY_coords] at hP hQ
  exact Edwards.Point.ext h (Parity.eq_of_even modulus_odd hP hQ (Edwards.y_eq_or_eq_neg h))

/-! ## Sample keys -/

/-- A public key, evaluated without divisions. -/
theorem publicKey_reference (digits k : ℕ) (x y : Fr) (hk : k < 2 ^ digits) (hlt : k < bn254ScalarFieldModulus)
    (hx : x * (Edwards.Projective.smul BabyJubJub.curve ⟨BabyJubJub.base8.x, BabyJubJub.base8.y, 1⟩ digits k).Z =
      (Edwards.Projective.smul BabyJubJub.curve ⟨BabyJubJub.base8.x, BabyJubJub.base8.y, 1⟩ digits k).X)
    (hy : y * (Edwards.Projective.smul BabyJubJub.curve ⟨BabyJubJub.base8.x, BabyJubJub.base8.y, 1⟩ digits k).Z =
      (Edwards.Projective.smul BabyJubJub.curve ⟨BabyJubJub.base8.x, BabyJubJub.base8.y, 1⟩ digits k).Y) :
    publicKey Library.reference (k : Fr) = ((x.val : ℤ), (y.val : ℤ)) := by
  have hbase : (⟨BabyJubJub.base8.x, BabyJubJub.base8.y, 1⟩ : Edwards.Projective Fr).Represents
      BabyJubJub.base8 := ⟨mul_one _, mul_one _, one_ne_zero⟩
  have h := Edwards.Projective.represents_smul hbase hk
  unfold publicKey
  rw [val_natCast_of_lt hlt, Library.reference_lawful.base8, Library.reference_lawful.mulPointEscalar, coords,
    mul_right_cancel₀ h.ne_zero (h.x.trans hx.symm), mul_right_cancel₀ h.ne_zero (h.y.trans hy.symm)]

/-- The public keys of the scalars 4 and 5, two points with a tag. -/
theorem publicKey_four : publicKey Library.reference 4 =
    (0x1b16e357953d68d73398c838aa883cc65ddae2aef75a4bc437e4232afdbe43c8,
      0x2d7ee0be055310d2895c5ed5090a8aa1c700e73c64294f1e817ec77f46b4fdc) :=
  publicKey_reference 3 4 0x1b16e357953d68d73398c838aa883cc65ddae2aef75a4bc437e4232afdbe43c8
    0x2d7ee0be055310d2895c5ed5090a8aa1c700e73c64294f1e817ec77f46b4fdc (by norm_num)
    (by norm_num [bn254ScalarFieldModulus]) (by decide +kernel) (by decide +kernel)

theorem publicKey_five : publicKey Library.reference 5 =
    (0x1961ff2315812fd2f3e459a258f5ded2dde68cd35c79c8b9fb443e1860e1fbe4,
      0x217d990737cc33efe8db5485973124fdd98c866783f0d81ffccfffe7102a9c6a) :=
  publicKey_reference 3 5 0x1961ff2315812fd2f3e459a258f5ded2dde68cd35c79c8b9fb443e1860e1fbe4
    0x217d990737cc33efe8db5485973124fdd98c866783f0d81ffccfffe7102a9c6a (by norm_num)
    (by norm_num [bn254ScalarFieldModulus]) (by decide +kernel) (by decide +kernel)

theorem publicKey_one : publicKey Library.reference 1 = coords BabyJubJub.base := by
  rw [publicKey_eq Library.reference_lawful, ZMod.val_one, Nat.cast_one, one_smul]

/-- The point of the scalar 1 has no tag. -/
theorem isEvenY_one : isEvenY (publicKey Library.reference 1) = false := by
  rw [publicKey_one]
  decide +kernel

theorem isEvenY_publicKey_four : isEvenY (publicKey Library.reference 4) = true := by
  rw [publicKey_four]
  decide

end Kakure.Notes
