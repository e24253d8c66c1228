import Kakure.Lib.Slices
import Kakure.Curve.BabyJubJub

/-!
# Curve arithmetic of the circuits

`circuits/vendor/noir-edwards/src/lib.nr` and `scalar_field.nr`, and the parts of
`circuits/vendor/ecdh/src/bjj.nr` and `circuits/shared/src/common/subgroup.nr` that the circuits
call.  Unconstrained functions compute the values they compute; a failing assert is `none`.

* `add_ofPoint`, `mul_ofPoint` — on points of the curve every assert holds, and the results are
  those of the group;
* `scalarField_eq` — the windowed digits of a scalar below `2 ^ 252`;
* `assertInPrimeSubgroup_ofPoint` — the points of the subgroup are accepted.
-/

namespace Kakure.Circuit

open Slices

/-- `Curve`. -/
@[ext]
structure Point where
  x : Fr
  y : Fr
  deriving DecidableEq

/-- `Params::a()`. -/
def a : Fr := 168700

/-- `Params::d()`. -/
def d : Fr := 168696

/-! ## Points -/

/-- `__add_unconstrained`. -/
def addUnconstrained (x1 x2 y1 y2 : Fr) : Option (Fr × Fr × Fr) :=
  let lambda := y1 * y2 * x1 * x2
  if lambda * d - 1 = 0 ∨ lambda * d + 1 = 0 then none
  else some ((x1 * y2 + y1 * x2) / (lambda * d + 1), (x1 * x2 * a - y1 * y2) / (lambda * d - 1), lambda)

namespace Point

/-- `add_internal`. -/
def add (p q : Point) : Option Point := do
  let (x, y, lambda) ← addUnconstrained p.x q.x p.y q.y
  guard (x * lambda * d + x - p.x * q.y = p.y * q.x)
  guard (y * lambda * -d + y + p.x * q.x * a = p.y * q.y)
  guard (p.y * q.y * (p.x * q.x) = lambda)
  some ⟨x, y⟩

/-- `dbl_internal`. -/
def dbl (p : Point) : Option Point := p.add p

/-- `neg`. -/
def neg (p : Point) : Point := ⟨-p.x, p.y⟩

/-- `sub`. -/
def sub (p q : Point) : Option Point := p.add q.neg

/-- `zero`. -/
def zero : Point := ⟨0, 1⟩

/-- `is_zero`. -/
def isZero (p : Point) : Prop := p = zero

/-- `is_on_curve`. -/
def IsOnCurve (p : Point) : Prop :=
  a * (p.x * p.x) + p.y * p.y = 1 + d * (p.x * p.x) * (p.y * p.y)

instance (p : Point) : Decidable p.isZero := inferInstanceAs (Decidable (_ = _))

instance (p : Point) : Decidable p.IsOnCurve := inferInstanceAs (Decidable (_ = _))

/-- `new`. -/
def new (x y : Fr) : Option Point := do
  guard (IsOnCurve ⟨x, y⟩)
  some ⟨x, y⟩

/-- Three doublings. -/
def dbl3 (p : Point) : Option Point := do
  let p2 ← p.dbl
  let p4 ← p2.dbl
  p4.dbl

/-- The upper half of the table: from `P` on, each entry is the one before plus `2 P`. -/
def oddMultiples (double : Point) : ℕ → Point → Option (List Point)
  | 0, p => some [p]
  | n + 1, p => do
    let next ← double.add p
    let rest ← oddMultiples double n next
    some (p :: rest)

/-- `compute_straus_point_table`. -/
def computeStrausPointTable (p : Point) : Option (List Point) := do
  let double ← p.dbl
  let upper ← oddMultiples double 7 p
  some ((upper.map neg).reverse ++ upper)

end Point

/-! ## Scalars -/

/-- `ScalarField`. -/
structure ScalarField where
  base4Slices : List ℕ
  skew : Bool

/-- The digits to the base 16, the lowest first. -/
def nibbles : ℕ → ℕ → List ℕ
  | 0, _ => []
  | n + 1, x => x % 16 :: nibbles n (x / 16)

/-- `to_le_radix_16`: the last digit has to fit. -/
def toLeRadix16 (n : ℕ) (value : Fr) : Option (List ℕ) :=
  if value.val < 16 ^ n then some (nibbles n value.val) else none

/-- One step of the loop of `get_wnaf_slices`; the slices are written from the last one to the first. -/
def wnafStep (result : List ℕ) (nibble : ℕ) : Option (List ℕ) :=
  if nibble % 2 = 0 then
    match result with
    | [] => none
    | last :: rest => if 8 ≤ last then some (((nibble + 15) / 2 + 1) :: (last - 8) :: rest) else none
  else some ((nibble + 15) / 2 :: result)

/-- `get_wnaf_slices`. -/
def getWnafSlices (n : ℕ) (x : Fr) : Option (List ℕ × Bool) := do
  let digits ← toLeRadix16 n x
  match digits with
  | [] => none
  | first :: rest =>
    let skew := first % 2 = 0
    let first := if skew then first + 1 else first
    let result ← rest.foldlM wnafStep [(first + 15) / 2]
    some (result, skew)

/-- One step of the loop of `from` that adds up the slices. -/
def accumulate (acc : Fr) (slice : ℕ) : Fr := acc * 16 + ((slice : Fr) * 2 - 15)

/-- `from`, for fewer than 64 slices. -/
def ScalarField.from (n : ℕ) (x : Fr) : Option ScalarField := do
  let (slices, skew) ← getWnafSlices n x
  guard (slices.foldl accumulate 0 - (if skew then 1 else 0) = x)
  guard (∀ slice ∈ slices, slice < 2 ^ 4)
  some ⟨slices, skew⟩

/-! ## Multiples -/

namespace Point

/-- One step of the loop of `mul`. -/
def mulStep (table : List Point) (accumulator : Point) (slice : ℕ) : Option Point := do
  let p2 ← accumulator.dbl
  let p4 ← p2.dbl
  let p8 ← p4.dbl
  let p16 ← p8.dbl
  let entry ← table[slice]?
  p16.add entry

/-- `mul`. -/
def mul (p : Point) (scalar : ScalarField) : Option Point := do
  guard p.IsOnCurve
  let table ← p.computeStrausPointTable
  match scalar.base4Slices with
  | [] => none
  | first :: rest =>
    let start ← table[first]?
    let accumulator ← rest.foldlM (mulStep table) start
    if scalar.skew then accumulator.sub p else some accumulator

/-- `BASE8_X`, `BASE8_Y`. -/
def base8 : Point where
  x := 0xbb77a6ad63e739b4eacb2e09d6277c12ab8d8010534e0b62893f3f6bb957051
  y := 0x25797203f7a0b24925572e1cd16bf9edfce0051fb9e133774b3c257a872d7d8b

end Point

/-- `BJJ::derive_public_key`. -/
def derivePublicKey (privateKey : Fr) : Option Point := do
  let base8 ← Point.new Point.base8.x Point.base8.y
  let scalar ← ScalarField.from 63 privateKey
  base8.mul scalar

/-! ## The subgroup -/

/-- `EIGHT_INV`. -/
def eightInv : Fr := 2394026564107420727433200628387514462817212225638746351800188703329891451411

/-- The loop of `cofactor_preimage_hint`, over the bits from the lowest one on. -/
def hintLoop : ℕ → ℕ → Point → Point → Option Point
  | 0, _, acc, _ => some acc
  | n + 1, bits, acc, power => do
    let acc ← if bits % 2 = 1 then acc.add power else some acc
    let power ← power.dbl
    hintLoop n (bits / 2) acc power

/-- `cofactor_preimage_hint`. -/
def cofactorPreimageHint (p : Point) : Option Point := hintLoop 254 eightInv.val Point.zero p

/-- `assert_cofactor_preimage`. -/
def assertCofactorPreimage (p q : Point) : Option Unit := do
  guard q.IsOnCurve
  let eightQ ← q.dbl3
  guard (eightQ.x = p.x)
  guard (eightQ.y = p.y)

/-- `assert_in_prime_subgroup`. -/
def assertInPrimeSubgroup (p : Point) : Option Unit := do
  let q ← cofactorPreimageHint p
  assertCofactorPreimage p q

/-- `assert_subgroup_scalar`. -/
def assertSubgroupScalar (x : Fr) : Option Unit := do
  guard (x ≠ 0)
  guard (x.val < subOrder)

/-! ## On points of the curve -/

/-- The coordinates of a point of the curve. -/
def ofPoint (P : BabyJubJub.Point) : Point := ⟨P.x, P.y⟩

theorem ofPoint_injective : Function.Injective ofPoint := by
  intro P Q h
  have hx := congrArg Point.x h
  have hy := congrArg Point.y h
  exact Edwards.Point.ext hx hy

@[simp] theorem isZero_ofPoint (P : BabyJubJub.Point) : (ofPoint P).isZero ↔ P = 0 := by
  rw [← ofPoint_injective.eq_iff]
  rfl

theorem isOnCurve_ofPoint (P : BabyJubJub.Point) : (ofPoint P).IsOnCurve := by
  have h := P.on_curve
  change (168700 : Fr) * (P.x * P.x) + P.y * P.y = 1 + 168696 * (P.x * P.x) * (P.y * P.y)
  change (168700 : Fr) * P.x ^ 2 + P.y ^ 2 = 1 + 168696 * P.x ^ 2 * P.y ^ 2 at h
  linear_combination h

theorem bind_of_some {α β : Type} {x : Option α} {a : α} (h : x = some a) (f : α → Option β) :
    (x >>= f) = f a := by
  rw [h]
  rfl

theorem bind_guard {α : Type} {c : Prop} [Decidable c] (h : c) (f : Unit → Option α) : (guard c >>= f) = f () := by
  simp [guard, h]

/-- The asserts of an addition hold on points of the curve. -/
theorem add_ofPoint (P Q : BabyJubJub.Point) : (ofPoint P).add (ofPoint Q) = some (ofPoint (P + Q)) := by
  have hplus := Edwards.Curve.one_add_ne_zero P Q
  have hminus := Edwards.Curve.one_sub_ne_zero P Q
  have hd : BabyJubJub.curve.d = d := rfl
  have ha : BabyJubJub.curve.a = a := rfl
  have hx := Edwards.add_x P Q
  have hy := Edwards.add_y P Q
  rw [hd] at hplus hminus hx
  rw [hd, ha] at hy
  have hplus' : P.y * Q.y * P.x * Q.x * d + 1 ≠ 0 := fun h => hplus (by linear_combination h)
  have hminus' : P.y * Q.y * P.x * Q.x * d - 1 ≠ 0 := fun h => hminus (by linear_combination -h)
  have hunconstrained : addUnconstrained P.x Q.x P.y Q.y =
      some ((P + Q).x, (P + Q).y, P.y * Q.y * P.x * Q.x) := by
    rw [addUnconstrained, if_neg (by rw [not_or]; exact ⟨hminus', hplus'⟩), hx, hy, Option.some_inj]
    refine Prod.ext ?_ (Prod.ext ?_ rfl)
    · rw [div_eq_div_iff hplus' hplus]
      ring
    · rw [div_eq_div_iff hminus' hminus]
      ring
  rw [eq_div_iff hplus] at hx
  rw [eq_div_iff hminus] at hy
  rw [Point.add]
  change (addUnconstrained P.x Q.x P.y Q.y >>= _) = _
  rw [hunconstrained, Option.bind_eq_bind, Option.bind_some]
  refine (bind_guard ?_ _).trans ((bind_guard ?_ _).trans ((bind_guard ?_ _).trans rfl))
  · change (P + Q).x * (P.y * Q.y * P.x * Q.x) * d + (P + Q).x - P.x * Q.y = P.y * Q.x
    linear_combination hx
  · change (P + Q).y * (P.y * Q.y * P.x * Q.x) * -d + (P + Q).y + P.x * Q.x * a = P.y * Q.y
    linear_combination hy
  · change P.y * Q.y * (P.x * Q.x) = P.y * Q.y * P.x * Q.x
    ring

namespace Point

theorem dbl_ofPoint (P : BabyJubJub.Point) : (ofPoint P).dbl = some (ofPoint ((2 : ℕ) • P)) := by
  rw [dbl, add_ofPoint, two_nsmul]

theorem neg_ofPoint (P : BabyJubJub.Point) : (ofPoint P).neg = ofPoint (-P) := rfl

theorem sub_ofPoint (P Q : BabyJubJub.Point) : (ofPoint P).sub (ofPoint Q) = some (ofPoint (P - Q)) := by
  rw [sub, neg_ofPoint, add_ofPoint, sub_eq_add_neg]

theorem new_ofPoint (P : BabyJubJub.Point) : new P.x P.y = some (ofPoint P) :=
  bind_guard (isOnCurve_ofPoint P) _

theorem dbl3_ofPoint (P : BabyJubJub.Point) : (ofPoint P).dbl3 = some (ofPoint ((8 : ℕ) • P)) := by
  have height : (8 : ℕ) = 2 * 2 * 2 := rfl
  rw [height, mul_nsmul, mul_nsmul, dbl3, bind_of_some (dbl_ofPoint P), bind_of_some (dbl_ofPoint _), dbl_ofPoint]

/-- The table of the odd multiples from `P` on. -/
theorem oddMultiples_ofPoint (P : BabyJubJub.Point) (n : ℕ) (k : ℤ) :
    oddMultiples (ofPoint ((2 : ℕ) • P)) n (ofPoint (k • P)) =
      some ((List.range (n + 1)).map fun i : ℕ => ofPoint ((k + 2 * (i : ℤ)) • P)) := by
  induction n generalizing k with
  | zero => simp [oddMultiples]
  | succ n ih =>
    have hnext : (2 : ℕ) • P + k • P = (k + 2) • P := by
      rw [add_smul, two_nsmul, two_zsmul, add_comm]
    have hadd := add_ofPoint ((2 : ℕ) • P) (k • P)
    rw [hnext] at hadd
    rw [oddMultiples, bind_of_some hadd, bind_of_some (ih (k + 2)), Option.some_inj]
    rw [List.range_succ_eq_map (n := n + 1), List.map_cons, List.map_map, Nat.cast_zero, mul_zero, add_zero]
    refine congrArg _ (List.map_congr_left fun i _ => ?_)
    have hindex : k + 2 + 2 * (i : ℤ) = k + 2 * ((i + 1 : ℕ) : ℤ) := by
      push_cast
      ring
    rw [Function.comp_apply, hindex]

/-- The table: entry `i` is `2 i - 15` times the point. -/
theorem computeStrausPointTable_ofPoint (P : BabyJubJub.Point) :
    ∃ table, (ofPoint P).computeStrausPointTable = some table ∧
      ∀ i : ℕ, i < 16 → table[i]? = some (ofPoint ((2 * (i : ℤ) - 15) • P)) := by
  have hodd := oddMultiples_ofPoint P 7 1
  rw [one_smul] at hodd
  refine ⟨_, by rw [computeStrausPointTable, bind_of_some (dbl_ofPoint P), bind_of_some hodd], ?_⟩
  intro i hi
  by_cases hlow : i < 8
  · rw [List.getElem?_append_left (by simpa using hlow), List.getElem?_reverse (by simpa using hlow)]
    simp only [List.length_map, List.length_range, List.map_map]
    have hindex : -(1 + 2 * ((8 - 1 - i : ℕ) : ℤ)) = 2 * (i : ℤ) - 15 := by omega
    rw [List.getElem?_map, List.getElem?_range (by omega), Option.map_some, Option.some_inj,
      Function.comp_apply, neg_ofPoint, ← neg_smul, hindex]
  · rw [List.getElem?_append_right (by simpa using Nat.le_of_not_lt hlow)]
    simp only [List.length_map, List.length_range, List.length_reverse]
    have hindex : 1 + 2 * ((i - 8 : ℕ) : ℤ) = 2 * (i : ℤ) - 15 := by omega
    rw [List.getElem?_map, List.getElem?_range (by omega), Option.map_some, hindex]

end Point

/-! ## Digits -/

/-- The number a list of digits stands for, the lowest first. -/
def nibblesValue : List ℕ → ℤ
  | [] => 0
  | n :: ns => n + 16 * nibblesValue ns

/-- The number a list of slices stands for, the highest first: each is an odd digit between -15 and 15. -/
def slicesValue : List ℕ → ℤ
  | [] => 0
  | s :: ss => (2 * s - 15) * 16 ^ ss.length + slicesValue ss

theorem nibblesValue_nibbles (n x : ℕ) (h : x < 16 ^ n) : nibblesValue (nibbles n x) = x := by
  induction n generalizing x with
  | zero =>
    obtain rfl : x = 0 := by simpa using h
    rfl
  | succ n ih =>
    rw [nibbles, nibblesValue, ih (x / 16) (by rw [pow_succ] at h; omega)]
    omega

theorem nibbles_lt (n x : ℕ) : ∀ nibble ∈ nibbles n x, nibble < 16 := by
  induction n generalizing x with
  | zero => simp [nibbles]
  | succ n ih =>
    intro nibble hmem
    rcases List.mem_cons.1 hmem with rfl | hmem
    · exact Nat.mod_lt x (by norm_num)
    · exact ih _ nibble hmem

/-- The slices stand for the nibbles read so far, and the last one written can be lowered by 8. -/
theorem foldlM_wnafStep {ns : List ℕ} (hns : ∀ n ∈ ns, n < 16) (last : ℕ) (rest : List ℕ)
    (hlast : 8 ≤ last ∧ last ≤ 15) (hrest : ∀ r ∈ rest, r ≤ 15) :
    ∃ last' rest', ns.foldlM wnafStep (last :: rest) = some (last' :: rest') ∧ (∀ r ∈ last' :: rest', r ≤ 15) ∧
      slicesValue (last' :: rest') = slicesValue (last :: rest) + 16 ^ (rest.length + 1) * nibblesValue ns := by
  induction ns generalizing last rest with
  | nil =>
    refine ⟨last, rest, rfl, List.forall_mem_cons.2 ⟨hlast.2, hrest⟩, ?_⟩
    rw [nibblesValue, mul_zero, add_zero]
  | cons n ns ih =>
    have hn := hns n List.mem_cons_self
    have hns' : ∀ m ∈ ns, m < 16 := fun m hm => hns m (List.mem_cons_of_mem n hm)
    rw [List.foldlM_cons, wnafStep]
    by_cases heven : n % 2 = 0
    · obtain ⟨last', rest', hfold, hbound, hvalue⟩ := ih hns' ((n + 15) / 2 + 1) ((last - 8) :: rest)
        ⟨by omega, by omega⟩ (List.forall_mem_cons.2 ⟨by omega, hrest⟩)
      refine ⟨last', rest', ?_, hbound, ?_⟩
      · rw [if_pos heven]
        simp only [if_pos hlast.1]
        exact hfold
      · have hdigit : (2 * (((n + 15) / 2 + 1 : ℕ) : ℤ) - 15) = n + 1 := by omega
        have hlow : ((last - 8 : ℕ) : ℤ) = last - 8 := by omega
        rw [hvalue, slicesValue, slicesValue, slicesValue, hdigit, hlow, nibblesValue, List.length_cons]
        ring
    · obtain ⟨last', rest', hfold, hbound, hvalue⟩ := ih hns' ((n + 15) / 2) (last :: rest)
        ⟨by omega, by omega⟩ (List.forall_mem_cons.2 ⟨hlast.2, hrest⟩)
      refine ⟨last', rest', ?_, hbound, ?_⟩
      · rw [if_neg heven]
        exact hfold
      · have hdigit : (2 * (((n + 15) / 2 : ℕ) : ℤ) - 15) = n := by omega
        rw [hvalue, slicesValue, hdigit, nibblesValue, List.length_cons]
        ring

theorem getWnafSlices_eq {n : ℕ} {x : Fr} (h : x.val < 16 ^ (n + 1)) :
    ∃ first rest skew, getWnafSlices (n + 1) x = some (first :: rest, skew) ∧
      (∀ r ∈ first :: rest, r ≤ 15) ∧ slicesValue (first :: rest) - (if skew then 1 else 0) = x.val := by
  have hvalue := nibblesValue_nibbles (n + 1) x.val h
  have hlow : x.val % 16 < 16 := Nat.mod_lt _ (by norm_num)
  rw [getWnafSlices, toLeRadix16, if_pos h, nibbles]
  rw [nibbles, nibblesValue] at hvalue
  by_cases hskew : x.val % 16 % 2 = 0
  · obtain ⟨last, rest, hfold, hbound, hsum⟩ := foldlM_wnafStep (nibbles_lt n (x.val / 16))
      ((x.val % 16 + 1 + 15) / 2) [] ⟨by omega, by omega⟩ (by simp)
    refine ⟨last, rest, true, ?_, hbound, ?_⟩
    · simp only [Option.bind_eq_bind, Option.bind_some, hskew, if_true, hfold, decide_true]
    · rw [hsum, if_pos rfl, ← hvalue]
      simp only [slicesValue, List.length_nil]
      omega
  · obtain ⟨last, rest, hfold, hbound, hsum⟩ := foldlM_wnafStep (nibbles_lt n (x.val / 16))
      ((x.val % 16 + 15) / 2) [] ⟨by omega, by omega⟩ (by simp)
    refine ⟨last, rest, false, ?_, hbound, ?_⟩
    · simp only [Option.bind_eq_bind, Option.bind_some, hskew, if_false, hfold, decide_false]
    · rw [hsum, if_neg Bool.false_ne_true, ← hvalue]
      simp only [slicesValue, List.length_nil]
      omega

theorem foldl_accumulate (slices : List ℕ) (acc : Fr) :
    slices.foldl accumulate acc = acc * 16 ^ slices.length + ((slicesValue slices : ℤ) : Fr) := by
  induction slices generalizing acc with
  | nil => simp [slicesValue]
  | cons s slices ih =>
    rw [List.foldl_cons, ih, accumulate, slicesValue, List.length_cons]
    push_cast
    ring

/-- The decomposition of a scalar that fits passes its asserts. -/
theorem ScalarField.from_eq {n : ℕ} {x : Fr} (h : x.val < 16 ^ (n + 1)) :
    ∃ first rest skew, ScalarField.from (n + 1) x = some ⟨first :: rest, skew⟩ ∧
      (∀ r ∈ first :: rest, r ≤ 15) ∧ slicesValue (first :: rest) - (if skew then 1 else 0) = x.val := by
  obtain ⟨first, rest, skew, hslices, hbound, hvalue⟩ := getWnafSlices_eq h
  refine ⟨first, rest, skew, ?_, hbound, hvalue⟩
  rw [ScalarField.from, hslices, Option.bind_eq_bind, Option.bind_some]
  refine (bind_guard ?_ _).trans ((bind_guard ?_ _).trans rfl)
  · have hcast := congrArg (Int.cast : ℤ → Fr) hvalue
    rw [foldl_accumulate, zero_mul, zero_add]
    push_cast at hcast
    rw [ZMod.natCast_zmod_val] at hcast
    rw [← hcast]
  · intro slice hslice
    have := hbound slice hslice
    omega

/-! ## Multiples of points -/

section Multiples

variable (P : BabyJubJub.Point)

/-- One window: sixteen times the accumulator, and an entry of the table. -/
theorem mulStep_ofPoint {table : List Point}
    (htable : ∀ i : ℕ, i < 16 → table[i]? = some (ofPoint ((2 * (i : ℤ) - 15) • P))) (k : ℤ) {slice : ℕ}
    (hslice : slice ≤ 15) :
    Point.mulStep table (ofPoint (k • P)) slice = some (ofPoint ((16 * k + (2 * slice - 15)) • P)) := by
  have hdouble : ∀ m : ℤ, (ofPoint (m • P)).dbl = some (ofPoint ((2 * m) • P)) := by
    intro m
    rw [Point.dbl, add_ofPoint, ← add_smul, two_mul]
  have hwindow : 16 * k + (2 * (slice : ℤ) - 15) = 2 * (2 * (2 * (2 * k))) + (2 * (slice : ℤ) - 15) := by ring
  rw [Point.mulStep, bind_of_some (hdouble k), bind_of_some (hdouble _), bind_of_some (hdouble _),
    bind_of_some (hdouble _), bind_of_some (htable slice (by omega)), add_ofPoint, ← add_smul, hwindow]

theorem foldlM_mulStep {table : List Point}
    (htable : ∀ i : ℕ, i < 16 → table[i]? = some (ofPoint ((2 * (i : ℤ) - 15) • P))) {slices : List ℕ}
    (hslices : ∀ r ∈ slices, r ≤ 15) (k : ℤ) :
    slices.foldlM (Point.mulStep table) (ofPoint (k • P)) =
      some (ofPoint ((k * 16 ^ slices.length + slicesValue slices) • P)) := by
  induction slices generalizing k with
  | nil => simp [slicesValue]
  | cons s slices ih =>
    have hvalue : k * 16 ^ (s :: slices).length + slicesValue (s :: slices) =
        (16 * k + (2 * s - 15)) * 16 ^ slices.length + slicesValue slices := by
      rw [slicesValue, List.length_cons]
      ring
    rw [List.foldlM_cons, bind_of_some (mulStep_ofPoint P htable k (hslices s List.mem_cons_self)),
      ih fun r hr => hslices r (List.mem_cons_of_mem s hr), hvalue]

/-- `mul` with the slices of a scalar. -/
theorem mul_ofPoint {first : ℕ} {rest : List ℕ} {skew : Bool} (hslices : ∀ r ∈ first :: rest, r ≤ 15) :
    (ofPoint P).mul ⟨first :: rest, skew⟩ =
      some (ofPoint ((slicesValue (first :: rest) - (if skew then 1 else 0)) • P)) := by
  obtain ⟨hfirst, hrest⟩ := List.forall_mem_cons.1 hslices
  obtain ⟨table, htable, hentry⟩ := Point.computeStrausPointTable_ofPoint P
  rw [Point.mul]
  refine (bind_guard (isOnCurve_ofPoint P) _).trans ?_
  rw [bind_of_some htable]
  refine (bind_of_some (hentry first (by omega)) _).trans ((bind_of_some (foldlM_mulStep P hentry hrest _) _).trans ?_)
  cases skew with
  | false => rw [if_neg Bool.false_ne_true, if_neg Bool.false_ne_true, sub_zero, slicesValue]
  | true => rw [if_pos rfl, if_pos rfl, Point.sub_ofPoint, slicesValue, sub_smul _ 1, one_smul]

/-- The multiple of a point by a scalar that fits 63 slices. -/
theorem exists_mul {x : Fr} (h : x.val < 16 ^ 63) :
    ∃ s, ScalarField.from 63 x = some s ∧ (ofPoint P).mul s = some (ofPoint (x.val • P)) := by
  obtain ⟨first, rest, skew, hfrom, hbound, hvalue⟩ := ScalarField.from_eq h
  refine ⟨_, hfrom, ?_⟩
  rw [mul_ofPoint P hbound, hvalue, natCast_zsmul]

theorem derivePublicKey_eq {privateKey : Fr} (h : privateKey.val < 16 ^ 63) :
    derivePublicKey privateKey = some (ofPoint (privateKey.val • BabyJubJub.base8)) := by
  obtain ⟨s, hs, hmul⟩ := exists_mul BabyJubJub.base8 h
  have hnew : Point.new Point.base8.x Point.base8.y = some (ofPoint BabyJubJub.base8) :=
    Point.new_ofPoint BabyJubJub.base8
  rw [derivePublicKey, bind_of_some hnew, bind_of_some hs, hmul]

/-- The loop of the hint computes a multiple. -/
theorem hintLoop_ofPoint (A Q : BabyJubJub.Point) {n bits : ℕ} (h : bits < 2 ^ n) :
    hintLoop n bits (ofPoint A) (ofPoint Q) = some (ofPoint (A + bits • Q)) := by
  induction n generalizing bits A Q with
  | zero =>
    obtain rfl : bits = 0 := by simpa using h
    rw [hintLoop, zero_nsmul, add_zero]
  | succ n ih =>
    have hhalf : bits / 2 < 2 ^ n := by rw [pow_succ] at h; omega
    have hsplit : bits • Q = (bits % 2) • Q + (bits / 2) • (2 : ℕ) • Q := by
      rw [← mul_nsmul, ← add_nsmul, mul_comm 2, Nat.mod_add_div']
    rw [hintLoop, hsplit, ← add_assoc]
    by_cases hodd : bits % 2 = 1
    · rw [if_pos hodd, hodd, one_nsmul]
      exact (bind_of_some (add_ofPoint A Q) _).trans ((bind_of_some (Point.dbl_ofPoint Q) _).trans (ih _ _ hhalf))
    · have heven : bits % 2 = 0 := by omega
      rw [if_neg hodd, heven, zero_nsmul, add_zero]
      have hsame : (some (ofPoint A) : Option Point) = some (ofPoint A) := rfl
      exact (bind_of_some hsame _).trans ((bind_of_some (Point.dbl_ofPoint Q) _).trans (ih _ _ hhalf))

theorem val_eightInv :
    eightInv.val = 2394026564107420727433200628387514462817212225638746351800188703329891451411 := by
  have h := val_natCast_of_lt (n := 2394026564107420727433200628387514462817212225638746351800188703329891451411)
    (by norm_num [bn254ScalarFieldModulus])
  rw [Nat.cast_ofNat] at h
  exact h

/-- Eight times the inverse of eight. -/
theorem eight_mul_eightInv : eightInv.val * 8 = 1 + 7 * subOrder := by
  rw [val_eightInv, subOrder]

/-- The points of the subgroup pass. -/
theorem assertInPrimeSubgroup_ofPoint (h : BabyJubJub.InSubgroup P) :
    assertInPrimeSubgroup (ofPoint P) = some () := by
  have hlt : eightInv.val < 2 ^ 254 := by
    rw [val_eightInv]
    norm_num
  have hhint : cofactorPreimageHint (ofPoint P) = some (ofPoint (eightInv.val • P)) := by
    have hzero : Point.zero = ofPoint 0 := rfl
    rw [cofactorPreimageHint, hzero, hintLoop_ofPoint 0 P hlt, zero_add]
  have height : (8 : ℕ) • eightInv.val • P = P := by
    rw [← mul_nsmul, eight_mul_eightInv, add_smul, one_smul, mul_comm, mul_nsmul, h, nsmul_zero, add_zero]
  have hdbl3 := Point.dbl3_ofPoint (eightInv.val • P)
  rw [height] at hdbl3
  rw [assertInPrimeSubgroup, bind_of_some hhint, assertCofactorPreimage, bind_guard (isOnCurve_ofPoint _),
    bind_of_some hdbl3, bind_guard rfl]
  simp [guard]

theorem assertSubgroupScalar_eq {x : Fr} (hne : x ≠ 0) (hlt : x.val < subOrder) :
    assertSubgroupScalar x = some () := by
  simp [assertSubgroupScalar, guard, hne, hlt]

end Multiples

end Kakure.Circuit
