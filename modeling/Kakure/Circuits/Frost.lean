import Kakure.Circuits.Curve

/-!
# Signatures in the circuits

`verify_frost_spend` of `circuits/shared/src/multisig/frost.nr`, with the circuit's hash as a
parameter.

* `val_lowBytes` — the challenge is the low 248 bits of the hash;
* `verifyFrostSpend_eq` — a signature over points of the subgroup whose equation holds is accepted.
-/

namespace Kakure.Circuit

open Slices

/-- `SCHNORR_DOMAIN`. -/
def schnorrDomain : Fr := 0xc226e4b2bad84dcd0be5f5cc5c4334b8906fc9057331061d0b5b6117c74c667

/-- One step of the loop that reads the challenge: the sum so far, and the power of 256. -/
def byteStep (acc : Fr × Fr) (byte : UInt8) : Fr × Fr := (acc.1 + (byte.toNat : Fr) * acc.2, acc.2 * 256)

/-- The first 31 bytes of a field element. -/
def lowBytes (full : Fr) : Fr := (((leBytes 32 full.val).val.take 31).foldl byteStep (0, 1)).1

variable (poseidon2 : List Fr → Fr)

/-- The equation at the end of `verify_frost_spend`, up to the cofactor. -/
def assertSchnorrEquation (gpkEd rEd : Point) (z e : Fr) : Option Unit := do
  let eScalar ← ScalarField.from 63 e
  let zBase ← derivePublicKey z
  let zBaseEd ← Point.new zBase.x zBase.y
  let product ← gpkEd.mul eScalar
  let rhs ← rEd.add product
  let diff ← zBaseEd.sub rhs
  let cofactored ← diff.dbl3
  guard cofactored.isZero

/-- `verify_frost_spend`. -/
def verifyFrostSpend (gpk r : Point) (z m : Fr) : Option Unit := do
  let gpkEd ← Point.new gpk.x gpk.y
  assertInPrimeSubgroup gpk
  guard ¬ gpkEd.isZero
  let rEd ← Point.new r.x r.y
  guard rEd.IsOnCurve
  guard ¬ rEd.isZero
  assertSubgroupScalar z
  let eFull := poseidon2 [schnorrDomain, r.x, r.y, gpk.x, gpk.y, m]
  assertSchnorrEquation gpkEd rEd z (lowBytes eFull)

theorem foldl_byteStep (bytes : List UInt8) (acc pow : Fr) :
    (bytes.foldl byteStep (acc, pow)).1 = acc + pow * (leNat bytes : Fr) := by
  induction bytes generalizing acc pow with
  | nil => simp [leNat]
  | cons b bytes ih =>
    rw [List.foldl_cons, byteStep, ih, leNat]
    push_cast
    ring

theorem leNat_take_leBytes (n k v : ℕ) (h : k ≤ n) : leNat ((leBytes n v).val.take k) = v % 256 ^ k := by
  induction k generalizing n v with
  | zero => simp [leNat, Nat.mod_one]
  | succ k ih =>
    cases n with
    | zero => omega
    | succ n =>
      have hbyte : (UInt8.ofNat v).toNat = v % 256 := UInt8.toNat_ofNat'
      have hsplit : v % 256 ^ (k + 1) = v % 256 + 256 * (v / 256 % 256 ^ k) := by
        rw [pow_succ', Nat.mod_mul]
      rw [leBytes, List.take_succ_cons, leNat, ih n (v / 256) (by omega), hbyte, hsplit]

/-- The challenge is the hash modulo `2 ^ 248`. -/
theorem val_lowBytes (full : Fr) : (lowBytes full).val = full.val % 2 ^ 248 := by
  have hpow : (256 : ℕ) ^ 31 = 2 ^ 248 := by norm_num
  have hlt : full.val % 2 ^ 248 < bn254ScalarFieldModulus :=
    lt_trans (Nat.mod_lt _ (by positivity)) (by norm_num [bn254ScalarFieldModulus])
  rw [lowBytes, foldl_byteStep, zero_add, one_mul, leNat_take_leBytes 32 31 _ (by norm_num), hpow,
    val_natCast_of_lt hlt]

/-- The equation holds in the circuit when it does for the points. -/
theorem assertSchnorrEquation_eq {gpk R : BabyJubJub.Point} {z e : Fr} (hz : z.val < 16 ^ 63) (he : e.val < 16 ^ 63)
    (hequation : z.val • BabyJubJub.base8 = R + e.val • gpk) :
    assertSchnorrEquation (ofPoint gpk) (ofPoint R) z e = some () := by
  obtain ⟨s, hs, hmul⟩ := exists_mul gpk he
  have hkey := derivePublicKey_eq hz
  rw [hequation] at hkey
  have hsub := Point.sub_ofPoint (R + e.val • gpk) (R + e.val • gpk)
  rw [sub_self] at hsub
  have hdbl3 := Point.dbl3_ofPoint 0
  rw [nsmul_zero] at hdbl3
  have hzero : (ofPoint 0).isZero := (isZero_ofPoint 0).2 rfl
  have hadd := add_ofPoint R (e.val • gpk)
  generalize R + e.val • gpk = sum at hkey hsub hadd
  generalize e.val • gpk = product at hmul hadd
  rw [assertSchnorrEquation, bind_of_some hs, bind_of_some hkey]
  refine (bind_of_some (Point.new_ofPoint sum) _).trans ?_
  rw [bind_of_some hmul, bind_of_some hadd, bind_of_some hsub, bind_of_some hdbl3]
  simp [guard, hzero]

/-- The asserts hold for a signature whose equation does. -/
theorem verifyFrostSpend_eq {gpk R : BabyJubJub.Point} {z m : Fr} (hgpk : BabyJubJub.InSubgroup gpk)
    (hgpkne : gpk ≠ 0) (hRne : R ≠ 0) (hz : z ≠ 0) (hzlt : z.val < subOrder)
    (hequation : z.val • BabyJubJub.base8 = R +
      ((poseidon2 [schnorrDomain, R.x, R.y, gpk.x, gpk.y, m]).val % 2 ^ 248) • gpk) :
    verifyFrostSpend poseidon2 (ofPoint gpk) (ofPoint R) z m = some () := by
  have hfits : z.val < 16 ^ 63 := lt_trans hzlt (by norm_num [subOrder])
  rw [← val_lowBytes] at hequation
  have hfits' : (lowBytes (poseidon2 [schnorrDomain, R.x, R.y, gpk.x, gpk.y, m])).val < 16 ^ 63 := by
    rw [val_lowBytes]
    exact lt_trans (Nat.mod_lt _ (by positivity)) (by norm_num)
  have hend := assertSchnorrEquation_eq hfits hfits' hequation
  rw [verifyFrostSpend]
  refine (bind_of_some (Point.new_ofPoint gpk) _).trans ?_
  refine (bind_of_some (assertInPrimeSubgroup_ofPoint gpk hgpk) _).trans ?_
  refine (bind_guard (by rw [isZero_ofPoint]; exact hgpkne) _).trans ?_
  refine (bind_of_some (Point.new_ofPoint R) _).trans ?_
  refine (bind_guard (isOnCurve_ofPoint R) _).trans ?_
  refine (bind_guard (by rw [isZero_ofPoint]; exact hRne) _).trans ?_
  exact (bind_of_some (assertSubgroupScalar_eq hz hzlt) _).trans hend

/-- The identity is no key. -/
theorem verifyFrostSpend_zero (r : Point) (z m : Fr) : verifyFrostSpend poseidon2 (ofPoint 0) r z m = none := by
  have hzero : (ofPoint 0).isZero := (isZero_ofPoint 0).2 rfl
  have hguard : (guard (¬ (ofPoint 0).isZero) : Option Unit) = none := by simp [guard, hzero]
  have hsubgroup : assertInPrimeSubgroup (ofPoint 0) = some () :=
    assertInPrimeSubgroup_ofPoint 0 (nsmul_zero subOrder)
  rw [verifyFrostSpend]
  refine (bind_of_some (Point.new_ofPoint 0) _).trans ?_
  refine (bind_of_some hsubgroup _).trans ?_
  rw [hguard]
  rfl

end Kakure.Circuit
