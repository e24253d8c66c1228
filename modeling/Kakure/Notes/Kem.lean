import Kakure.Notes.Keys

/-!
# Content keys

`crypto/kem.ts`: the content key of a note is the first coordinate of the product of its ephemeral scalar
and the compliance key, and reaches the recipient of a memo under a pad of the same kind.

* `eq_of_x_eq` — a point of the subgroup has its first coordinate to itself;
* `deriveCek_ok`, `deriveCek_injective` — when there is a content key, and that it has one scalar;
* `unwrap_wrap` — the recipient gets it back.
-/

namespace Kakure.Notes

open Tss

section Kem

variable (lib : Library) (hash : List Fr → Fr)

/-- `assertSubgroupScalar`. -/
def assertSubgroupScalar (scalar : Fr) : Except String Unit :=
  if scalar = 0 then .error "KEM scalar must be non-zero"
  else if subOrder ≤ scalar.val then .error "KEM scalar not in BabyJubJub prime-order subgroup"
  else .ok ()

/-- `assertValidPoint`. -/
def assertValidPoint (p : Tss.Point) : Except String Unit :=
  if lib.inCurve p = false then .error "KEM point is not on the BabyJubJub curve"
  else if p.1 = 0 ∧ p.2 = 1 then .error "KEM point is the identity"
  else if lib.mulPointEscalar p lib.subOrder ≠ (0, 1) then .error "KEM point is not in the prime-order subgroup"
  else .ok ()

/-- The first coordinate of a multiple. -/
def sharedX (scalar : Fr) (p : Tss.Point) : Fr := ((lib.mulPointEscalar p scalar.val).1 : Fr)

/-- `deriveCek`. -/
def deriveCek (eph : Fr) (compliancePk : Tss.Point) : Except String Fr := do
  assertSubgroupScalar eph
  assertValidPoint lib compliancePk
  return sharedX lib eph compliancePk

/-- `wrapCek`. -/
def wrapCek (cek eph : Fr) (inPub : Tss.Point) : Except String Fr := do
  assertSubgroupScalar eph
  assertValidPoint lib inPub
  return cek + hash [sharedX lib eph inPub]

/-- `unwrapCek`. -/
def unwrapCek (cekWrap inKey : Fr) (ephPub : Tss.Point) : Except String Fr := do
  assertSubgroupScalar inKey
  assertValidPoint lib ephPub
  return cekWrap - hash [sharedX lib inKey ephPub]

end Kem

/-! ## Points of the subgroup -/

/-- The point of order two. -/
def twoTorsion : BabyJubJub.Point := ⟨0, -1, BabyJubJub.orderTwo_on_curve⟩

theorem twoTorsion_not_mem : twoTorsion ∉ BabyJubJub.subgroup := by
  intro h
  have hdouble : 2 • twoTorsion = 0 := by decide +kernel
  have hodd : subOrder = 2 * (subOrder / 2) + 1 := by norm_num [subOrder]
  rw [BabyJubJub.mem_subgroup, BabyJubJub.InSubgroup, hodd, add_nsmul, mul_nsmul, hdouble, nsmul_zero,
    zero_add, one_nsmul] at h
  exact absurd h (by decide +kernel)

/-- Two points that differ in the sign of the second coordinate differ by the point of order two, up to
sign. -/
theorem add_eq_twoTorsion {P Q : BabyJubJub.Point} (hx : P.x = Q.x) (hy : P.y = -Q.y) : P + Q = twoTorsion := by
  have hQ : Q = -P + twoTorsion := by
    refine Edwards.Point.ext ?_ ?_
    · rw [Edwards.add_x]
      simp [twoTorsion, hx]
    · rw [Edwards.add_y]
      simp [twoTorsion, hy]
  rw [hQ, add_neg_cancel_left]

/-- A point of the subgroup has its first coordinate to itself. -/
theorem eq_of_x_eq {P Q : BabyJubJub.subgroup} (h : (P : BabyJubJub.Point).x = (Q : BabyJubJub.Point).x) :
    P = Q := by
  rcases Edwards.y_eq_or_eq_neg h with hy | hy
  · exact Subtype.ext (Edwards.Point.ext h hy)
  · have hmem := (P + Q).2
    rw [AddSubgroup.coe_add, add_eq_twoTorsion h hy] at hmem
    exact absurd hmem twoTorsion_not_mem

variable {lib : Library} {hash : List Fr → Fr}

theorem sharedX_coords (h : lib.Lawful) (scalar : Fr) (P : BabyJubJub.subgroup) :
    sharedX lib scalar (coords P) = (((scalar.val : ZMod subOrder) • P : BabyJubJub.subgroup) : BabyJubJub.Point).x := by
  rw [sharedX, h.mulPointEscalar, BabyJubJub.coe_natCast_smul]
  exact discoveryTag_coords _

/-! ## Accepted scalars and points -/

/-- A scalar the circuits accept: reduced and not zero. -/
def ValidScalar (scalar : Fr) : Prop := scalar ≠ 0 ∧ scalar.val < subOrder

theorem assertSubgroupScalar_ok {scalar : Fr} : assertSubgroupScalar scalar = .ok () ↔ ValidScalar scalar := by
  unfold assertSubgroupScalar ValidScalar
  split
  · rename_i hzero
    simp [hzero]
  · rename_i hne
    split
    · rename_i hle
      simp [hne, hle]
    · rename_i hlt
      simp [hne, not_le.1 hlt]

/-- A point the circuits accept: of the subgroup and not zero. -/
def ValidPoint (p : Tss.Point) : Prop := ∃ P : BabyJubJub.subgroup, P ≠ 0 ∧ p = coords P

theorem assertValidPoint_ok (h : lib.Lawful) {p : Tss.Point} (hreduced : Reduced p) :
    assertValidPoint lib p = .ok () ↔ ValidPoint p := by
  have hidentity : (0, 1) = coords 0 := identity_eq
  unfold assertValidPoint
  constructor
  · intro hok
    split at hok
    · cases hok
    · rename_i hcurve
      obtain ⟨P, rfl⟩ := (h.inCurve p hreduced).1 (by simpa using hcurve)
      split at hok
      · cases hok
      · rename_i hne
        split at hok
        · cases hok
        · rename_i hmem
          rw [h.subOrder, h.mulPointEscalar, hidentity, not_not, coords_injective.eq_iff] at hmem
          refine ⟨⟨P, hmem⟩, fun hzero => hne ?_, rfl⟩
          have hP : P = 0 := congrArg Subtype.val hzero
          rw [← Prod.ext_iff (y := ((0, 1) : Tss.Point)), hidentity, hP]
  · rintro ⟨P, hne, rfl⟩
    rw [if_neg, if_neg, if_neg]
    · rw [h.subOrder, h.mulPointEscalar, hidentity, not_not, coords_injective.eq_iff]
      exact P.2
    · intro hzero
      rw [← Prod.ext_iff (y := ((0, 1) : Tss.Point)), hidentity, coords_injective.eq_iff] at hzero
      exact hne (Subtype.ext hzero)
    · rw [Bool.not_eq_false]
      exact (h.inCurve _ hreduced).2 ⟨P, rfl⟩

theorem assertValidPoint_coords (h : lib.Lawful) {P : BabyJubJub.subgroup} (hP : P ≠ 0) :
    assertValidPoint lib (coords P) = .ok () :=
  (assertValidPoint_ok h (reduced_coords P)).2 ⟨P, hP, rfl⟩

/-! ## Content keys -/

/-- The content key of a scalar under a key of the subgroup. -/
theorem deriveCek_coords (h : lib.Lawful) {eph : Fr} (heph : ValidScalar eph) {P : BabyJubJub.subgroup} (hP : P ≠ 0) :
    deriveCek lib eph (coords P) =
      .ok (((eph.val : ZMod subOrder) • P : BabyJubJub.subgroup) : BabyJubJub.Point).x := by
  rw [deriveCek, assertSubgroupScalar_ok.2 heph, assertValidPoint_coords h hP, sharedX_coords h]
  rfl

/-- There is a content key under the keys of the subgroup only. -/
theorem deriveCek_ok (h : lib.Lawful) {eph cek : Fr} {pk : Tss.Point} (hreduced : Reduced pk)
    (hok : deriveCek lib eph pk = .ok cek) : ValidScalar eph ∧ ValidPoint pk := by
  unfold deriveCek at hok
  cases hscalar : assertSubgroupScalar eph with
  | error e =>
    rw [hscalar] at hok
    cases hok
  | ok =>
    cases hpoint : assertValidPoint lib pk with
    | error e =>
      rw [hscalar, hpoint] at hok
      cases hok
    | ok => exact ⟨assertSubgroupScalar_ok.1 hscalar, (assertValidPoint_ok h hreduced).1 hpoint⟩

/-- Reduced scalars with one multiple of a point are the same. -/
theorem eq_of_smul_eq {a b : Fr} (ha : a.val < subOrder) (hb : b.val < subOrder) {P : BabyJubJub.subgroup} (hP : P ≠ 0)
    (h : (a.val : ZMod subOrder) • P = (b.val : ZMod subOrder) • P) : a = b := by
  have hcast : (a.val : ZMod subOrder) = (b.val : ZMod subOrder) := smul_left_injective _ hP h
  rw [ZMod.natCast_eq_natCast_iff', Nat.mod_eq_of_lt ha, Nat.mod_eq_of_lt hb] at hcast
  exact ZMod.val_injective _ hcast

/-- Two scalars have different content keys under one key. -/
theorem deriveCek_injective (h : lib.Lawful) {a b cek : Fr} {pk : Tss.Point} (hreduced : Reduced pk)
    (ha : deriveCek lib a pk = .ok cek) (hb : deriveCek lib b pk = .ok cek) : a = b := by
  obtain ⟨hva, P, hP, rfl⟩ := deriveCek_ok h hreduced ha
  obtain ⟨hvb, -⟩ := deriveCek_ok h hreduced hb
  rw [deriveCek_coords h hva hP] at ha
  rw [deriveCek_coords h hvb hP] at hb
  refine eq_of_smul_eq hva.2 hvb.2 hP (eq_of_x_eq ?_)
  exact (Except.ok.inj ha).trans (Except.ok.inj hb).symm

/-- Two scalars have different tags. -/
theorem eq_of_discoveryTag_eq (h : lib.Lawful) {a b : Fr} (ha : a.val < subOrder) (hb : b.val < subOrder)
    (htag : discoveryTag (publicKey lib a) = discoveryTag (publicKey lib b)) : a = b := by
  rw [publicKey_eq h, publicKey_eq h, discoveryTag_coords, discoveryTag_coords] at htag
  exact eq_of_smul_eq ha hb BabyJubJub.base_ne_zero (eq_of_x_eq htag)

/-- The recipient of a memo gets its content key back. -/
theorem unwrap_wrap (h : lib.Lawful) {cek eph inKey : Fr} (heph : ValidScalar eph) (hin : ValidScalar inKey) :
    ∃ cekWrap, wrapCek lib hash cek eph (publicKey lib inKey) = .ok cekWrap ∧
      unwrapCek lib hash cekWrap inKey (publicKey lib eph) = .ok cek := by
  have hne : ∀ {scalar : Fr}, ValidScalar scalar → ((scalar.val : ZMod subOrder) • BabyJubJub.base) ≠ 0 := by
    intro scalar hscalar hzero
    refine hscalar.1 (eq_of_smul_eq hscalar.2 prime_subOrder.pos BabyJubJub.base_ne_zero ?_)
    rw [hzero]
    simp
  have hpad : sharedX lib eph (publicKey lib inKey) = sharedX lib inKey (publicKey lib eph) := by
    rw [publicKey_eq h, publicKey_eq h, sharedX_coords h, sharedX_coords h, smul_comm]
  refine ⟨cek + hash [sharedX lib eph (publicKey lib inKey)], ?_, ?_⟩
  · rw [wrapCek, assertSubgroupScalar_ok.2 heph, publicKey_eq h, assertValidPoint_coords h (hne hin)]
    rfl
  · rw [unwrapCek, assertSubgroupScalar_ok.2 hin, hpad, publicKey_eq h, assertValidPoint_coords h (hne heph)]
    show Except.ok _ = _
    rw [add_sub_cancel_right]

end Kakure.Notes
