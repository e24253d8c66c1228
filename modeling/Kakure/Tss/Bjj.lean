import Kakure.Curve.BabyJubJub

/-!
# Scalars and points of the SDK

`packages/sdk/src/tss/bjj.ts`: bigints for the scalars, pairs of bigints for the points.
The curve library is a parameter, of which only the documented behaviour on points of the
curve is assumed.

* `cast_modSub`, `invSub_eq` — the arithmetic modulo the order of the subgroup;
* `scalarMul_coords`, `pointAdd_coords`, `pointEq_coords` — the operations on coordinates are those
  of the curve.
-/

namespace Kakure.Tss

/-- `Point`. -/
abbrev Point := ℤ × ℤ

/-- What the SDK takes from `@zk-kit/baby-jubjub`. -/
structure Library where
  base8 : Point
  subOrder : ℤ
  addPoint : Point → Point → Point
  mulPointEscalar : Point → ℤ → Point
  inCurve : Point → Bool

/-- The coordinates of a point of the curve. -/
def coords (P : BabyJubJub.Point) : Point := (P.x.val, P.y.val)

theorem coords_injective : Function.Injective coords := by
  intro P Q h
  have hx : P.x.val = Q.x.val := by
    have := congrArg Prod.fst h
    exact Int.ofNat_injective this
  have hy : P.y.val = Q.y.val := by
    have := congrArg Prod.snd h
    exact Int.ofNat_injective this
  exact Edwards.Point.ext (ZMod.val_injective _ hx) (ZMod.val_injective _ hy)

/-- Both coordinates are reduced. -/
def Reduced (p : Point) : Prop :=
  0 ≤ p.1 ∧ p.1 < bn254ScalarFieldModulus ∧ 0 ≤ p.2 ∧ p.2 < bn254ScalarFieldModulus

theorem reduced_coords (P : BabyJubJub.Point) : Reduced (coords P) := by
  refine ⟨Int.natCast_nonneg _, ?_, Int.natCast_nonneg _, ?_⟩
  · exact Int.ofNat_lt.2 (ZMod.val_lt P.x)
  · exact Int.ofNat_lt.2 (ZMod.val_lt P.y)

/-- Coordinates are numbers of the field. -/
theorem coords_range (P : BabyJubJub.Point) :
    (0 ≤ (coords P).1 ∧ (coords P).1 < bn254ScalarFieldModulus) ∧
      0 ≤ (coords P).2 ∧ (coords P).2 < bn254ScalarFieldModulus := by
  obtain ⟨hx, hxlt, hy, hylt⟩ := reduced_coords P
  exact ⟨⟨hx, hxlt⟩, hy, hylt⟩

/-- The documented behaviour of the library: the group of the curve on reduced coordinates. -/
structure Library.Lawful (lib : Library) : Prop where
  base8 : lib.base8 = coords BabyJubJub.base8
  subOrder : lib.subOrder = Kakure.subOrder
  addPoint : ∀ P Q, lib.addPoint (coords P) (coords Q) = coords (P + Q)
  mulPointEscalar : ∀ P (k : ℕ), lib.mulPointEscalar (coords P) k = coords (k • P)
  inCurve : ∀ p, Reduced p → (lib.inCurve p = true ↔ ∃ P, p = coords P)

/-! ## Scalars -/

theorem tmod_emod (x m : ℤ) : x.tmod m % m = x % m := by
  rw [Int.tmod_def, Int.sub_mul_emod_self_left]

/-- `((x % m) + m) % m` on bigints. -/
def bigMod (x m : ℤ) : ℤ := (x.tmod m + m).tmod m

theorem bigMod_eq {m : ℤ} (h : 0 < m) (x : ℤ) : bigMod x m = x % m := by
  have hlow : 0 ≤ x.tmod m + m := by
    have := Int.lt_tmod_of_pos x h
    omega
  rw [bigMod, Int.tmod_eq_emod_of_nonneg hlow, Int.add_emod_right, tmod_emod]

theorem cast_tmod (q : ℕ) (x : ℤ) : ((x.tmod q : ℤ) : ZMod q) = x := by
  rw [Int.tmod_def]
  simp

@[simp] theorem cast_bigMod (q : ℕ) (x : ℤ) : ((bigMod x q : ℤ) : ZMod q) = x := by
  rw [bigMod, cast_tmod, Int.cast_add, cast_tmod]
  simp

theorem bigMod_nonneg {q : ℕ} (hq : 0 < q) (x : ℤ) : 0 ≤ bigMod x q := by
  rw [bigMod_eq (by omega)]
  exact Int.emod_nonneg x (by omega)

theorem bigMod_lt {q : ℕ} (hq : 0 < q) (x : ℤ) : bigMod x q < q := by
  rw [bigMod_eq (by omega)]
  exact Int.emod_lt_of_pos x (by omega)

/-- A reduced number is the value of its residue. -/
theorem val_cast_of_range {q : ℕ} {x : ℤ} (h : 0 ≤ x) (hlt : x < q) : (((x : ZMod q)).val : ℤ) = x := by
  obtain ⟨n, rfl⟩ := Int.eq_ofNat_of_zero_le h
  rw [Int.cast_natCast, ZMod.val_natCast, Nat.mod_eq_of_lt (by omega)]

/-- Reduced numbers with the same residue are the same. -/
theorem eq_of_cast_eq {q : ℕ} {x y : ℤ} (hx : 0 ≤ x) (hxq : x < q) (hy : 0 ≤ y) (hyq : y < q)
    (h : (x : ZMod q) = y) : x = y := by
  rw [← val_cast_of_range hx hxq, ← val_cast_of_range hy hyq, h]

variable (lib : Library)

/-- `modSub`. -/
def modSub (x : ℤ) : ℤ := bigMod x lib.subOrder

/-- The loop of `powSub`. -/
def powSubLoop (result b : ℤ) (e : ℕ) : ℤ :=
  if e = 0 then result
  else
    powSubLoop (if e % 2 = 1 then (result * b).tmod lib.subOrder else result) ((b * b).tmod lib.subOrder)
      (e / 2)
termination_by e

/-- `powSub`. -/
def powSub (base exp : ℤ) : ℤ := powSubLoop lib 1 (modSub lib base) exp.toNat

/-- `invSub`. -/
def invSub (x : ℤ) : Except String ℤ :=
  let r := modSub lib x
  if r = 0 then .error "tss: inverse of zero mod SUBORDER" else .ok (powSub lib r (lib.subOrder - 2))

/-! ## Points -/

/-- `IDENTITY`. -/
def identity : Point := (0, 1)

/-- `scalarMul`. -/
def scalarMul (k : ℤ) (p : Point) : Point := lib.mulPointEscalar p (modSub lib k)

/-- `scalarBaseMul`. -/
def scalarBaseMul (k : ℤ) : Point := scalarMul lib k lib.base8

/-- `pointAdd`. -/
def pointAdd (a b : Point) : Point := lib.addPoint a b

/-- `pointEq`. -/
def pointEq (a b : Point) : Bool := a.1 == b.1 && a.2 == b.2

/-- `isIdentity`. -/
def isIdentity (p : Point) : Bool := p.1 == 0 && p.2 == 1

/-- `inSubgroup`. -/
def inSubgroup (p : Point) : Bool :=
  if !lib.inCurve p then false
  else
    let o := lib.mulPointEscalar p lib.subOrder
    o.1 == 0 && o.2 == 1

/-- `inSubgroupNonId`. -/
def inSubgroupNonId (p : Point) : Bool := inSubgroup lib p && !isIdentity p

/-- `assertInSubgroup`. -/
def assertInSubgroup (p : Point) (label : String) : Except String Unit :=
  if !lib.inCurve p then .error s!"tss: {label} is not on the BabyJubJub curve"
  else if isIdentity p then .error s!"tss: {label} is the identity"
  else if !inSubgroup lib p then .error s!"tss: {label} is not in the prime-order subgroup"
  else .ok ()

/-! ## Their meaning -/

section Meaning

variable {lib} (h : lib.Lawful)

theorem subOrder_pos : 0 < Kakure.subOrder := prime_subOrder.pos

include h

theorem modSub_eq (x : ℤ) : modSub lib x = bigMod x Kakure.subOrder := by rw [modSub, h.subOrder]

theorem cast_modSub (x : ℤ) : ((modSub lib x : ℤ) : ZMod Kakure.subOrder) = x := by
  rw [modSub_eq h, cast_bigMod]

theorem modSub_nonneg (x : ℤ) : 0 ≤ modSub lib x := by
  rw [modSub_eq h]
  exact bigMod_nonneg subOrder_pos x

theorem modSub_lt (x : ℤ) : modSub lib x < Kakure.subOrder := by
  rw [modSub_eq h]
  exact bigMod_lt subOrder_pos x

theorem modSub_eq_zero_iff (x : ℤ) : modSub lib x = 0 ↔ (x : ZMod Kakure.subOrder) = 0 := by
  constructor
  · intro hzero
    rw [← cast_modSub h, hzero, Int.cast_zero]
  · intro hzero
    apply eq_of_cast_eq (modSub_nonneg h x) (modSub_lt h x) le_rfl (by exact_mod_cast subOrder_pos)
    rw [cast_modSub h, hzero, Int.cast_zero]

/-- Numbers with the same residue are reduced to the same number. -/
theorem modSub_eq_modSub_iff (x y : ℤ) : modSub lib x = modSub lib y ↔ (x : ZMod Kakure.subOrder) = y := by
  constructor
  · intro heq
    rw [← cast_modSub h, heq, cast_modSub h]
  · intro heq
    apply eq_of_cast_eq (modSub_nonneg h x) (modSub_lt h x) (modSub_nonneg h y) (modSub_lt h y)
    rw [cast_modSub h, cast_modSub h, heq]

theorem cast_powSubLoop (result b : ℤ) (e : ℕ) :
    ((powSubLoop lib result b e : ℤ) : ZMod Kakure.subOrder) = result * (b : ZMod Kakure.subOrder) ^ e := by
  induction e using Nat.strong_induction_on generalizing result b with
  | _ e ih =>
    rw [powSubLoop]
    split
    · rename_i he
      simp [he]
    · rename_i he
      rw [ih (e / 2) (by omega), h.subOrder, cast_tmod, Int.cast_mul, ← sq, ← pow_mul]
      split
      · rename_i hodd
        have hsplit : e = 2 * (e / 2) + 1 := by omega
        rw [cast_tmod, Int.cast_mul]
        conv_rhs => rw [hsplit, pow_succ]
        ring
      · have hsplit : e = 2 * (e / 2) := by omega
        conv_rhs => rw [hsplit]

/-- `invSub` inverts what is not a multiple of the order. -/
theorem invSub_eq {x : ℤ} (hx : (x : ZMod Kakure.subOrder) ≠ 0) :
    ∃ y, invSub lib x = .ok y ∧ (y : ZMod Kakure.subOrder) = (x : ZMod Kakure.subOrder)⁻¹ := by
  have hr : modSub lib x ≠ 0 := by
    rw [ne_eq, modSub_eq_zero_iff h]
    exact hx
  refine ⟨_, by rw [invSub, if_neg hr], ?_⟩
  have hexp : (lib.subOrder - 2).toNat = Kakure.subOrder - 2 := by
    rw [h.subOrder]
    omega
  rw [powSub, cast_powSubLoop h, cast_modSub h, cast_modSub h, hexp, Int.cast_one, one_mul]
  refine eq_inv_of_mul_eq_one_left ?_
  rw [← pow_succ]
  have htwo : Kakure.subOrder - 2 + 1 = Kakure.subOrder - 1 := by norm_num [Kakure.subOrder]
  rw [htwo]
  exact ZMod.pow_card_sub_one_eq_one hx

theorem modSub_eq_val (k : ℤ) : modSub lib k = (k : ZMod Kakure.subOrder).val := by
  rw [← cast_modSub h k]
  exact (val_cast_of_range (modSub_nonneg h k) (modSub_lt h k)).symm

/-- Anywhere on the curve the multiple is by the reduced number. -/
theorem scalarMul_point (k : ℤ) (P : BabyJubJub.Point) :
    scalarMul lib k (coords P) = coords ((k : ZMod Kakure.subOrder).val • P) := by
  rw [scalarMul, modSub_eq_val h]
  exact h.mulPointEscalar P _

theorem scalarMul_coords (k : ℤ) (P : BabyJubJub.subgroup) :
    scalarMul lib k (coords P) = coords ((k : ZMod Kakure.subOrder) • P : BabyJubJub.subgroup) := by
  rw [scalarMul_point h, ← BabyJubJub.coe_natCast_smul, ZMod.natCast_zmod_val]

theorem base8_eq : lib.base8 = coords BabyJubJub.base := h.base8

theorem scalarBaseMul_eq (k : ℤ) :
    scalarBaseMul lib k = coords ((k : ZMod Kakure.subOrder) • BabyJubJub.base : BabyJubJub.subgroup) := by
  rw [scalarBaseMul, base8_eq h, scalarMul_coords h]

theorem pointAdd_coords (P Q : BabyJubJub.Point) : pointAdd lib (coords P) (coords Q) = coords (P + Q) :=
  h.addPoint P Q

omit h in
theorem pointEq_iff (p q : Point) : pointEq p q = true ↔ p = q := by
  rw [pointEq, Bool.and_eq_true, beq_iff_eq, beq_iff_eq, Prod.ext_iff]

omit h in
theorem identity_eq : identity = coords 0 := by
  have hone : (1 : Fr).val = 1 := ZMod.val_one _
  simp [identity, coords, hone]

omit h in
theorem isIdentity_coords (P : BabyJubJub.Point) : isIdentity (coords P) = true ↔ P = 0 := by
  rw [← coords_injective.eq_iff, ← identity_eq]
  exact pointEq_iff (coords P) identity

theorem inSubgroup_coords (P : BabyJubJub.Point) :
    inSubgroup lib (coords P) = true ↔ BabyJubJub.InSubgroup P := by
  have hcurve : lib.inCurve (coords P) = true := (h.inCurve _ (reduced_coords P)).2 ⟨P, rfl⟩
  rw [inSubgroup, hcurve, h.subOrder, h.mulPointEscalar]
  exact isIdentity_coords _

theorem inSubgroupNonId_coords (P : BabyJubJub.Point) :
    inSubgroupNonId lib (coords P) = true ↔ BabyJubJub.InSubgroup P ∧ P ≠ 0 := by
  have hid : isIdentity (coords P) = false ↔ P ≠ 0 := by
    rw [← Bool.not_eq_true, isIdentity_coords]
  rw [inSubgroupNonId, Bool.and_eq_true, inSubgroup_coords h, Bool.not_eq_true', hid]

/-- The points of the subgroup but the identity pass. -/
theorem assertInSubgroup_coords {P : BabyJubJub.subgroup} (hP : P ≠ 0) (label : String) :
    assertInSubgroup lib (coords P) label = .ok () := by
  have hcurve : lib.inCurve (coords P) = true := (h.inCurve _ (reduced_coords _)).2 ⟨P, rfl⟩
  have hid : isIdentity (coords P) = false := by
    rw [← Bool.not_eq_true, isIdentity_coords]
    exact fun hzero => hP (Subtype.ext hzero)
  have hsubgroup : inSubgroup lib (coords P) = true := (inSubgroup_coords h P).2 P.2
  rw [assertInSubgroup, hcurve, hid, hsubgroup]
  rfl

/-- No other pair of field elements passes. -/
theorem assertInSubgroup_error {p : Point} (hreduced : Reduced p) (hp : ¬ ∃ P : BabyJubJub.subgroup, P ≠ 0 ∧ p = coords P)
    (label : String) : ∃ e, assertInSubgroup lib p label = .error e := by
  rw [assertInSubgroup]
  split_ifs with hcurve hid hsubgroup
  · exact ⟨_, rfl⟩
  · exact ⟨_, rfl⟩
  · exact ⟨_, rfl⟩
  · obtain ⟨P, rfl⟩ := (h.inCurve p hreduced).1 (by simpa using hcurve)
    rw [Bool.not_eq_true', Bool.not_eq_false, inSubgroup_coords h] at hsubgroup
    rw [isIdentity_coords] at hid
    exact absurd ⟨⟨P, hsubgroup⟩, fun hzero => hid (congrArg Subtype.val hzero), rfl⟩ hp

end Meaning

/-! ## A library -/

namespace Library

/-- The point of the curve with the given coordinates, if there is one. -/
def toPoint? (p : Point) : Option BabyJubJub.Point :=
  if h : BabyJubJub.curve.a * (p.1 : Fr) ^ 2 + (p.2 : Fr) ^ 2 =
      1 + BabyJubJub.curve.d * (p.1 : Fr) ^ 2 * (p.2 : Fr) ^ 2 then some ⟨p.1, p.2, h⟩
  else none

@[simp] theorem toPoint?_coords (P : BabyJubJub.Point) : toPoint? (coords P) = some P := by
  have hx : ((coords P).1 : Fr) = P.x := by
    rw [coords, Int.cast_natCast, ZMod.natCast_zmod_val]
  have hy : ((coords P).2 : Fr) = P.y := by
    rw [coords, Int.cast_natCast, ZMod.natCast_zmod_val]
  rw [toPoint?, dif_pos (by rw [hx, hy]; exact P.on_curve), Option.some_inj]
  exact Edwards.Point.ext hx hy

/-- Reduced coordinates of a point are those the point has. -/
theorem eq_coords_of_toPoint? {p : Point} {P : BabyJubJub.Point} (hreduced : Reduced p)
    (h : toPoint? p = some P) : p = coords P := by
  rw [toPoint?] at h
  split at h
  · rw [Option.some_inj] at h
    rw [← h]
    obtain ⟨hx, hxlt, hy, hylt⟩ := hreduced
    exact Prod.ext (val_cast_of_range hx hxlt).symm (val_cast_of_range hy hylt).symm
  · cases h

instance (p : Point) : Decidable (Reduced p) := inferInstanceAs (Decidable (_ ∧ _))

/-- The group of the curve, on coordinates. -/
def reference : Library where
  base8 := coords BabyJubJub.base8
  subOrder := Kakure.subOrder
  addPoint p q := coords ((toPoint? p).getD 0 + (toPoint? q).getD 0)
  mulPointEscalar p k := coords (k.toNat • (toPoint? p).getD 0)
  inCurve p := decide (Reduced p) && (toPoint? p).isSome

theorem reference_lawful : reference.Lawful where
  base8 := rfl
  subOrder := rfl
  addPoint P Q := by simp [reference]
  mulPointEscalar P k := by simp [reference]
  inCurve p hp := by
    simp only [reference, Bool.and_eq_true, decide_eq_true_eq, Option.isSome_iff_exists]
    constructor
    · rintro ⟨-, P, hP⟩
      exact ⟨P, eq_coords_of_toPoint? hp hP⟩
    · rintro ⟨P, rfl⟩
      exact ⟨hp, P, toPoint?_coords P⟩

end Library

end Kakure.Tss
