import Kakure.Lib.Edwards
import Kakure.Curve.Primes

/-!
# BabyJubJub

The curve of the keys, the notes and the signatures, its base point and the subgroup of
prime order that the base point generates.

* `subOrder_nsmul_base8` — the order of the base point, evaluated;
* `InSubgroup`, `subgroup` — the points that the order of the subgroup sends to zero;
* `card_point` — the number of points of the curve, eight times that order.
-/

namespace Kakure.BabyJubJub

open Edwards NumberTheorySymbols

/-- A square root of the first coefficient. -/
def sqrtA : Fr := 7214280148105020021932206872019688659210616427216992810330019057549499971851

theorem not_isSquare_d : ¬ IsSquare (168696 : Fr) := by
  have h : J((168696 : ℤ) | bn254ScalarFieldModulus) = -1 := by
    unfold bn254ScalarFieldModulus
    norm_num
  simpa using ZMod.nonsquare_of_jacobiSym_eq_neg_one h

/-- `BabyJubJubParams`. -/
def curve : Curve Fr where
  a := 168700
  d := 168696
  c := sqrtA
  a_eq := by decide
  c_ne_zero := by decide
  d_nonsquare := not_isSquare_d
  two_ne_zero := by decide

/-- A point of the curve. -/
abbrev Point := Edwards.Point curve

/-- The point of order two is on the curve. -/
theorem orderTwo_on_curve : curve.a * 0 ^ 2 + (-1) ^ 2 = 1 + curve.d * 0 ^ 2 * (-1) ^ 2 := by ring

/-- The point of order two. -/
def orderTwo : Point where
  x := 0
  y := -1
  on_curve := orderTwo_on_curve

theorem two_nsmul_orderTwo : (2 : ℕ) • orderTwo = 0 := by
  rw [two_nsmul]
  decide +kernel

/-- `Base8`. -/
def base8 : Point where
  x := 0xbb77a6ad63e739b4eacb2e09d6277c12ab8d8010534e0b62893f3f6bb957051
  y := 0x25797203f7a0b24925572e1cd16bf9edfce0051fb9e133774b3c257a872d7d8b
  on_curve := by decide

theorem subOrder_nsmul_base8 : subOrder • base8 = 0 := by
  have hbase : (⟨base8.x, base8.y, 1⟩ : Projective Fr).Represents base8 := ⟨mul_one _, mul_one _, one_ne_zero⟩
  have hlt : subOrder < 2 ^ 251 := by norm_num [subOrder]
  rw [(Projective.represents_smul hbase hlt).eq_zero_iff]
  decide +kernel

/-! ## The subgroup -/

/-- A point that the order of the subgroup sends to zero. -/
def InSubgroup (P : Point) : Prop := subOrder • P = 0

instance (P : Point) : Decidable (InSubgroup P) := inferInstanceAs (Decidable (_ = _))

/-- The points of prime order, and zero. -/
def subgroup : AddSubgroup Point := (nsmulAddMonoidHom subOrder).ker

theorem mem_subgroup {P : Point} : P ∈ subgroup ↔ InSubgroup P := Iff.rfl

theorem subOrder_nsmul (P : subgroup) : subOrder • P = 0 := Subtype.ext P.2

instance : Module (ZMod subOrder) subgroup := AddCommGroup.zmodModule subOrder_nsmul

theorem coe_natCast_smul (k : ℕ) (P : subgroup) : (((k : ZMod subOrder) • P : subgroup) : Point) = k • (P : Point) := by
  rw [Nat.cast_smul_eq_nsmul]
  rfl

/-- The base point, as a point of the subgroup. -/
def base : subgroup := ⟨base8, subOrder_nsmul_base8⟩

theorem base8_ne_zero : base8 ≠ 0 := by decide

theorem base_ne_zero : base ≠ 0 := fun h => base8_ne_zero (congrArg Subtype.val h)

/-- Multiples of the base point are different for different scalars. -/
theorem smul_base_injective : Function.Injective fun k : ZMod subOrder => k • base :=
  smul_left_injective _ base_ne_zero

/-! ## The number of points -/

/-- A generator of the whole group. -/
def generator : Point where
  x := 995203441582195749578291179787384436505546430278305826713579947235728471134
  y := 5472060717959818805561601436314318772137091100104008585924551046643952123905
  on_curve := by decide

theorem represents_generator : (⟨generator.x, generator.y, 1⟩ : Projective Fr).Represents generator :=
  ⟨mul_one _, mul_one _, one_ne_zero⟩

theorem eight_nsmul_generator : (8 : ℕ) • generator = base8 := by
  rw [(Projective.represents_smul represents_generator (by norm_num : 8 < 2 ^ 4)).eq_iff]
  decide

theorem addOrderOf_generator : addOrderOf generator = 8 * subOrder := by
  have hlt : 4 * subOrder < 2 ^ 253 := by norm_num [subOrder]
  have hhalf : (4 * subOrder) • generator ≠ 0 := by
    rw [Ne, (Projective.represents_smul represents_generator hlt).eq_zero_iff]
    decide +kernel
  have hpos : 0 < subOrder := prime_subOrder.pos
  refine addOrderOf_eq_of_nsmul_and_div_prime_nsmul (by omega) ?_ fun q hq hdvd => ?_
  · rw [mul_nsmul, eight_nsmul_generator, subOrder_nsmul_base8]
  · rcases (Nat.Prime.dvd_mul hq).1 hdvd with height | hsub
    · have htwo : q = 2 := (Nat.prime_dvd_prime_iff_eq hq Nat.prime_two).1 (hq.dvd_of_dvd_pow (n := 3) height)
      have hdiv : 8 * subOrder / q = 4 * subOrder := by rw [htwo]; omega
      rwa [hdiv]
    · have hq : q = subOrder := (Nat.prime_dvd_prime_iff_eq hq prime_subOrder).1 hsub
      rw [hq, Nat.mul_div_cancel _ hpos, eight_nsmul_generator]
      exact base8_ne_zero

/-- The group has eight times as many points as the subgroup: a generator reaches as many, and twice as many would not
find first coordinates. -/
theorem card_point : Nat.card Point = 8 * subOrder := by
  have hdvd : 8 * subOrder ∣ Nat.card Point := addOrderOf_generator ▸ addOrderOf_dvd_natCard generator
  have hle : Nat.card Point ≤ 2 * bn254ScalarFieldModulus := by
    have h := card_point_le (E := curve)
    rwa [Nat.card_zmod] at h
  have hpos : 0 < Nat.card Point := Nat.card_pos
  have htwice : 2 * bn254ScalarFieldModulus < 8 * subOrder * 2 := by
    norm_num [subOrder, bn254ScalarFieldModulus]
  obtain ⟨k, hk⟩ := hdvd
  rw [hk] at hle hpos
  have hk₁ : k < 2 := Nat.lt_of_mul_lt_mul_left (hle.trans_lt htwice)
  have hk₀ : 0 < k := Nat.pos_of_mul_pos_left hpos
  rw [hk, (by omega : k = 1), mul_one]

/-- Eight times a point is in the subgroup. -/
theorem inSubgroup_eight_nsmul (P : Point) : InSubgroup ((8 : ℕ) • P) := by
  rw [InSubgroup, ← mul_nsmul, ← card_point, card_nsmul_eq_zero']

end Kakure.BabyJubJub
