import Kakure.Circuits.Mint
import Kakure.Lib.Loops
import Kakure.Lib.Parity
import Kakure.Notes.EvenY

/-!
# The loops of point recovery

`modP` to `recoverEvenY` of `packages/sdk/src/note/keys.ts` with the bigints and the loops of the source, and
`is_even_y` of `circuits/shared/src/common/even_y.nr`.  The modulus and the coefficients of the curve are parameters,
and every loop is given a number of turns.

* `powTurn_leaves`, `splitTurn_leaves`, `searchTurn_answers`, `orderTurn_answers`, `shanksTurn_answers` — what a turn
  of each loop leaves;
* `sqrtP_of_isSquare`, `sqrtP_of_not_isSquare` — as many turns as the modulus are enough for all of them;
* `recoverEvenY_of_onCurve`, `recoverEvenY_of_not_onCurve` — the point that is recovered, and when there is none;
* `point_recovery` — all of it, and which of two points the circuits accept;
* `recoverEvenY_bn254` — what the scans compute with field elements is what the source does.
-/

namespace Kakure.Notes.Bigint

open Loops Parity SquareRoots

section Source

-- `BJJ_P`, `BJJ_A` and `BJJ_D`, and the turns of each loop
variable (bjjP : ℕ) (bjjA bjjD : ℤ) (turns : ℕ)

/-- `modP`. -/
def modP (x : ℤ) : ℤ := (x.tmod bjjP + bjjP).tmod bjjP

/-- A turn of the loop of `powP`. -/
def powTurn : ℤ × ℤ × ℤ → Turn (ℤ × ℤ × ℤ) ℤ
  | (r, b, e) =>
    if 0 < e then .again (if e % 2 ≠ 0 then (r * b).tmod bjjP else r, (b * b).tmod bjjP, e / 2) else .done r

/-- `powP`. -/
def powP (base exp : ℤ) : Run String ℤ := loop (fun s => pure (powTurn bjjP s)) turns (1, modP bjjP base, exp)

/-- `invP`. -/
def invP (x : ℤ) : Run String ℤ :=
  let r := modP bjjP x
  if r = 0 then throw "recoverEvenY: division by zero" else powP bjjP turns r (bjjP - 2)

/-- A turn of the loop of `sqrtP` that takes the even factors out of `q`. -/
def splitTurn : ℤ × ℤ → Turn (ℤ × ℤ) (ℤ × ℤ)
  | (q, s) => if q % 2 = 0 then .again (q / 2, s + 1) else .done (q, s)

/-- A turn of the loop that looks for a number that is no square. -/
def searchTurn (z : ℤ) : Run String (Turn ℤ ℤ) := do
  let power ← powP bjjP turns z (((bjjP : ℤ) - 1).tdiv 2)
  pure (if power ≠ bjjP - 1 then .again (z + 1) else .done z)

/-- A turn of the inner loop, that squares `t2` until it is one. -/
def orderTurn (m : ℤ) : ℤ × ℤ → Run String (Turn (ℤ × ℤ) ℤ)
  | (i, t2) =>
    if t2 = 1 then pure (.done i)
    else if i + 1 = m then throw "recoverEvenY: Tonelli-Shanks failed"
    else pure (.again (i + 1, (t2 * t2).tmod bjjP))

/-- `<<`, to the right for a negative number of bits. -/
def shiftLeft (x bits : ℤ) : ℤ := if 0 ≤ bits then x * 2 ^ bits.toNat else x / 2 ^ (-bits).toNat

/-- A turn of the outer loop. -/
def shanksTurn : ℤ × ℤ × ℤ × ℤ → Run String (Turn (ℤ × ℤ × ℤ × ℤ) ℤ)
  | (m, c, t, r) =>
    if t = 1 then pure (.done r)
    else do
      let i ← loop (orderTurn bjjP m) turns (0, t)
      let b ← powP bjjP turns c (shiftLeft 1 (m - i - 1))
      let c := (b * b).tmod bjjP
      pure (.again (i, c, (t * c).tmod bjjP, (r * b).tmod bjjP))

/-- `sqrtP`, from where `a` is not zero and has passed the test. -/
def tonelliShanks (a : ℤ) : Run String ℤ := do
  let (q, s) ← loop (fun s => pure (splitTurn s)) turns ((bjjP : ℤ) - 1, 0)
  let z ← loop (searchTurn bjjP turns) turns 2
  let c ← powP bjjP turns z q
  let t ← powP bjjP turns a q
  let r ← powP bjjP turns a ((q + 1).tdiv 2)
  loop (shanksTurn bjjP turns) turns (s, c, t, r)

/-- `sqrtP`. -/
def sqrtP (n : ℤ) : Run String ℤ :=
  let a := modP bjjP n
  if a = 0 then pure 0
  else do
    let power ← powP bjjP turns a (((bjjP : ℤ) - 1).tdiv 2)
    if power ≠ 1 then throw "recoverEvenY: x has no y on the curve (non-residue)" else tonelliShanks bjjP turns a

/-- `recoverEvenY`. -/
def recoverEvenY (x : ℤ) : Run String Tss.Point := do
  let x2 := modP bjjP (x * x)
  let num := modP bjjP (1 - modP bjjP (bjjA * x2))
  let den := modP bjjP (1 - modP bjjP (bjjD * x2))
  let inverse ← invP bjjP turns den
  let y ← sqrtP bjjP turns (modP bjjP (num * inverse))
  pure (modP bjjP x, if y % 2 ≠ 0 then modP bjjP (bjjP - y) else y)

/-- `HALF_MODULUS`. -/
def halfModulus : ℕ := (bjjP + 1) / 2

/-- `is_even_y`, of the second coordinate. -/
def isEvenY (y : ZMod bjjP) : Prop := (y * (halfModulus bjjP : ZMod bjjP)).val < halfModulus bjjP

/-- The equation of the curve. -/
def OnCurve (x y : ZMod bjjP) : Prop := (bjjA : ZMod bjjP) * x ^ 2 + y ^ 2 = 1 + (bjjD : ZMod bjjP) * x ^ 2 * y ^ 2

end Source

/-! ## Bigints below the modulus -/

variable {p : ℕ} [Fact p.Prime] {turns : ℕ}

theorem one_lt : 1 < p := (Fact.out : p.Prime).one_lt

theorem odd_modulus (hp : p ≠ 2) : p % 2 = 1 := (Fact.out : p.Prime).eq_two_or_odd.resolve_left hp

theorem modP_eq (x : ℤ) : modP p x = ((x : ZMod p).val : ℤ) := by
  have hpos : (0 : ℤ) < p := by exact_mod_cast (Fact.out : p.Prime).pos
  have hlow := Int.lt_tmod_of_pos x hpos
  have hmod : x.tmod p % p = x % p := by
    conv_rhs => rw [← Int.tmod_add_mul_tdiv x p, Int.add_mul_emod_self_left]
  rw [modP, Int.tmod_eq_emod_of_nonneg (by omega), Int.add_emod_right, hmod, ZMod.val_intCast]

theorem cast_val (u : ZMod p) : ((u.val : ℤ) : ZMod p) = u := by
  rw [Int.cast_natCast, ZMod.natCast_zmod_val]

theorem tmod_val_mul (u v : ZMod p) : ((u.val : ℤ) * v.val).tmod p = ((u * v).val : ℤ) := by
  rw [Int.tmod_eq_emod_of_nonneg (by positivity), ZMod.val_mul]
  push_cast
  rfl

theorem val_int_inj {u v : ZMod p} : (u.val : ℤ) = v.val ↔ u = v := by
  rw [Int.natCast_inj]
  exact (ZMod.val_injective p).eq_iff

theorem val_one : ((1 : ZMod p).val : ℤ) = 1 := by
  have : Fact (1 < p) := ⟨one_lt⟩
  rw [ZMod.val_one, Nat.cast_one]

theorem val_neg_one : ((-1 : ZMod p).val : ℤ) = p - 1 := by
  have : Fact (1 < p) := ⟨one_lt⟩
  rw [ZMod.val_neg_of_ne_zero, ZMod.val_one, Nat.cast_sub one_lt.le, Nat.cast_one]

theorem val_eq_zero_iff {u : ZMod p} : (u.val : ℤ) = 0 ↔ u = 0 := by
  rw [Int.natCast_eq_zero, ZMod.val_eq_zero]

theorem val_eq_one_iff {u : ZMod p} : (u.val : ℤ) = 1 ↔ u = 1 := by
  rw [← val_one (p := p), val_int_inj]

theorem val_eq_neg_one_iff {u : ZMod p} : (u.val : ℤ) = p - 1 ↔ u = -1 := by
  rw [← val_neg_one, val_int_inj]

theorem half_eq : ((p : ℤ) - 1).tdiv 2 = ((p - 1) / 2 : ℕ) := by
  rw [Int.ofNat_tdiv, Nat.cast_sub one_lt.le]
  rfl

/-! ## The loops -/

/-- Before a turn of `powP` what is there makes up the power. -/
def PowInvariant (power : ZMod p) (left : ℕ) (s : ℤ × ℤ × ℤ) : Prop :=
  ∃ (r b : ZMod p) (e : ℕ), s = ((r.val : ℤ), (b.val : ℤ), (e : ℤ)) ∧ e < 2 ^ left ∧ r * b ^ e = power

theorem powTurn_leaves {power : ZMod p} {left : ℕ} {s : ℤ × ℤ × ℤ} (h : PowInvariant power left s) :
    (powTurn p s).Leaves (PowInvariant power) (fun r => r = (power.val : ℤ)) left := by
  obtain ⟨r, b, e, rfl, he, hpower⟩ := h
  rw [powTurn]
  by_cases hzero : e = 0
  · rw [hzero, pow_zero, mul_one] at hpower
    rw [if_neg (by omega), ← hpower]
    rfl
  · have hleft : left ≠ 0 := by
      rintro rfl
      omega
    obtain ⟨fewer, rfl⟩ := Nat.exists_eq_succ_of_ne_zero hleft
    rw [if_pos (by omega)]
    refine ⟨fewer, Nat.lt_succ_self fewer, if e % 2 = 1 then r * b else r, b * b, e / 2, ?_, ?_, ?_⟩
    · rw [tmod_val_mul, tmod_val_mul]
      by_cases hodd : e % 2 = 1
      · rw [if_pos (by omega), if_pos hodd]
        rfl
      · rw [if_neg (by omega), if_neg hodd]
        rfl
    · rw [pow_succ] at he
      omega
    · rw [pow_step, hpower]

theorem powP_eq (hturns : p ≤ turns) (base : ℤ) {e : ℕ} (he : e < p) :
    powP p turns base e = pure (((base : ZMod p) ^ e).val : ℤ) := by
  have hlt := one_lt (p := p)
  have hbits := Nat.lt_two_pow_self (n := p - 1)
  refine Answers.eq_pure (answers_loop (fun _ _ h => answers_pure (powTurn_leaves h))
    (show p - 1 < turns by omega) ⟨1, base, e, ?_, by omega, one_mul _⟩)
  rw [modP_eq, val_one]

theorem invP_eq (hturns : p ≤ turns) (u : ZMod p) :
    invP p turns u.val = if u = 0 then throw "recoverEvenY: division by zero" else pure (u⁻¹.val : ℤ) := by
  have htwo : ((p : ℤ) - 2) = (p - 2 : ℕ) := by
    rw [Nat.cast_sub one_lt]
    rfl
  simp only [invP, modP_eq, cast_val, val_eq_zero_iff]
  by_cases hzero : u = 0
  · rw [if_pos hzero, if_pos hzero]
  · have hlt := one_lt (p := p)
    rw [if_neg hzero, if_neg hzero, htwo, powP_eq hturns _ (by omega), cast_val, pow_sub_two hzero]

/-- Before a turn of the loop that splits `p - 1`. -/
def SplitInvariant (p left : ℕ) (s : ℤ × ℤ) : Prop :=
  ∃ q k : ℕ, s = ((q : ℤ), (k : ℤ)) ∧ 0 < q ∧ q < 2 ^ left ∧ q * 2 ^ k = p - 1

/-- What the loop comes to. -/
def Split (p : ℕ) (s : ℤ × ℤ) : Prop :=
  ∃ q k : ℕ, s = ((q : ℤ), (k : ℤ)) ∧ q % 2 = 1 ∧ q * 2 ^ k = p - 1

omit [Fact p.Prime] in
theorem splitTurn_leaves {left : ℕ} {s : ℤ × ℤ} (h : SplitInvariant p left s) :
    (splitTurn s).Leaves (SplitInvariant p) (Split p) left := by
  obtain ⟨q, k, rfl, hpos, hlt, hsplit⟩ := h
  rw [splitTurn]
  by_cases heven : q % 2 = 0
  · have hleft : left ≠ 0 := by
      rintro rfl
      omega
    obtain ⟨fewer, rfl⟩ := Nat.exists_eq_succ_of_ne_zero hleft
    rw [if_pos (by omega)]
    refine ⟨fewer, Nat.lt_succ_self fewer, q / 2, k + 1, rfl, by omega, ?_, ?_⟩
    · rw [pow_succ] at hlt
      omega
    · have hq : q / 2 * 2 = q := by omega
      rw [pow_succ', ← mul_assoc, hq, hsplit]
  · rw [if_neg (by omega)]
    exact ⟨q, k, rfl, by omega, hsplit⟩

/-- The search comes nearer to a number that is known to be no square. -/
theorem searchTurn_answers (hturns : p ≤ turns) {w : ℕ} (hw : (w : ZMod p) ^ ((p - 1) / 2) = -1) (left : ℕ)
    (z : ℤ) (h : z + left = w) : Answers (searchTurn p turns z) (Turn.Leaves (fun left z => z + (left : ℤ) = w)
      (fun z => (z : ZMod p) ^ ((p - 1) / 2) = -1) left) := by
  have hlt := one_lt (p := p)
  rw [searchTurn, half_eq, powP_eq hturns z (by omega), pure_bind]
  refine answers_pure ?_
  by_cases hpower : (z : ZMod p) ^ ((p - 1) / 2) = -1
  · rw [if_neg (not_not.2 (val_eq_neg_one_iff.2 hpower))]
    exact hpower
  · have hleft : left ≠ 0 := by
      rintro rfl
      rw [Nat.cast_zero, add_zero] at h
      rw [h, Int.cast_natCast] at hpower
      exact hpower hw
    rw [if_pos (val_eq_neg_one_iff.not.2 hpower)]
    exact ⟨left - 1, by omega, by omega⟩

/-- Before a turn of the inner loop `t` has been squared as often as counted. -/
def OrderInvariant (t : ZMod p) (i left : ℕ) (s : ℤ × ℤ) : Prop :=
  ∃ j : ℕ, j + left = i ∧ s = ((j : ℤ), ((t ^ 2 ^ j).val : ℤ))

theorem orderTurn_answers {t : ZMod p} {i m : ℕ} (hpow : t ^ 2 ^ i = 1) (hleast : ∀ j < i, t ^ 2 ^ j ≠ 1)
    (hm : i < m) (left : ℕ) (s : ℤ × ℤ) (h : OrderInvariant t i left s) :
    Answers (orderTurn p m s) (Turn.Leaves (OrderInvariant t i) (fun k => k = (i : ℤ)) left) := by
  obtain ⟨j, hj, rfl⟩ := h
  rw [orderTurn]
  by_cases hone : t ^ 2 ^ j = 1
  · have hij : ¬ j < i := fun hlt => hleast j hlt hone
    obtain rfl : j = i := by omega
    rw [if_pos (val_eq_one_iff.2 hone)]
    exact answers_pure rfl
  · have hij : j ≠ i := by
      rintro rfl
      exact hone hpow
    rw [if_neg (val_eq_one_iff.not.2 hone), if_neg (by omega), tmod_val_mul, ← sq, ← pow_mul, ← pow_succ]
    exact answers_pure ⟨left - 1, by omega, j + 1, by omega, rfl⟩

theorem shiftLeft_one (bits : ℕ) : shiftLeft 1 bits = (2 ^ bits : ℕ) := by
  rw [shiftLeft, if_pos (Int.natCast_nonneg bits), Int.toNat_natCast, one_mul]
  push_cast
  rfl

/-- Before a turn of the outer loop. -/
def ShanksInvariant (a : ZMod p) (m : ℕ) (s : ℤ × ℤ × ℤ × ℤ) : Prop :=
  ∃ c t r : ZMod p, s = ((m : ℤ), (c.val : ℤ), (t.val : ℤ), (r.val : ℤ)) ∧ 2 ^ m < p ∧ Invariant a m c t r

/-- A reduced root. -/
def IsRoot (a : ZMod p) (y : ℤ) : Prop := ∃ r : ZMod p, y = r.val ∧ r * r = a

theorem shanksTurn_answers (hturns : p ≤ turns) {a : ZMod p} (m : ℕ) (s : ℤ × ℤ × ℤ × ℤ)
    (h : ShanksInvariant a m s) :
    Answers (shanksTurn p turns s) (Turn.Leaves (ShanksInvariant a) (IsRoot a) m) := by
  obtain ⟨c, t, r, rfl, hm, hinv⟩ := h
  rw [shanksTurn]
  by_cases hone : t = 1
  · rw [if_pos (val_eq_one_iff.2 hone)]
    exact answers_pure ⟨r, rfl, by rw [hinv.root, hone, mul_one]⟩
  · have hpos := hinv.pos
    have hself := Nat.lt_two_pow_self (n := m)
    -- the inner loop ends at the order of `t`, which is below the bound, so that it does not throw
    obtain ⟨i, -, hle, hpow, hleast⟩ := squarings_spec (by omega : m - 1 < m) hinv.pow_t
    have horder : loop (orderTurn p m) turns (0, (t.val : ℤ)) = pure (i : ℤ) :=
      Answers.eq_pure (answers_loop (orderTurn_answers hpow hleast (by omega)) (by omega : i < turns)
        ⟨0, zero_add i, by rw [pow_zero, pow_one]; rfl⟩)
    have hbits : (m : ℤ) - i - 1 = (m - i - 1 : ℕ) := by omega
    have hshift : 2 ^ (m - i - 1) < p := lt_of_le_of_lt (Nat.pow_le_pow_right two_pos (by omega)) hm
    rw [if_neg (val_eq_one_iff.not.2 hone), horder, pure_bind, hbits, shiftLeft_one, powP_eq hturns _ hshift, pure_bind,
      cast_val]
    simp only [tmod_val_mul]
    refine answers_pure ⟨i, by omega, _, _, _, rfl, ?_, hinv.step hone hle hpow hleast rfl⟩
    exact lt_of_le_of_lt (Nat.pow_le_pow_right two_pos (by omega)) hm

/-! ## Roots -/

/-- The root of a number that has passed the test. -/
theorem tonelliShanks_answers (hp : p ≠ 2) (hturns : p ≤ turns) {a : ZMod p} (ha : a ^ ((p - 1) / 2) = 1) :
    Answers (tonelliShanks p turns a.val) (IsRoot a) := by
  have hlt := one_lt (p := p)
  have hodd := odd_modulus hp
  have hbits := Nat.lt_two_pow_self (n := p - 1)
  obtain ⟨w, hw2, hwp, hw⟩ := exists_nonresidue hp
  have hsplit : SplitInvariant p (p - 1) ((p : ℤ) - 1, 0) :=
    ⟨p - 1, 0, by rw [Nat.cast_sub hlt.le]; rfl, by omega, hbits, mul_one _⟩
  rw [tonelliShanks]
  -- each loop is left with what the next one asks for
  refine (answers_loop (fun _ _ h => answers_pure (splitTurn_leaves h)) (by omega) hsplit).bind ?_
  rintro _ ⟨q, s, rfl, hq, hqs⟩
  refine (answers_loop (searchTurn_answers hturns hw) (by omega : w - 2 < turns) (by omega)).bind fun z hz => ?_
  have hs : s < 2 ^ s := Nat.lt_two_pow_self
  have hpows : q ≤ p - 1 ∧ 2 ^ s ≤ p - 1 := by
    rw [← hqs]
    exact ⟨Nat.le_mul_of_pos_right q (by positivity), Nat.le_mul_of_pos_left _ (by omega)⟩
  have hhalf : ((q : ℤ) + 1).tdiv 2 = ((q + 1) / 2 : ℕ) := by
    rw [Int.ofNat_tdiv]
    rfl
  rw [powP_eq hturns _ (by omega), pure_bind, powP_eq hturns _ (by omega), pure_bind, hhalf,
    powP_eq hturns _ (by omega), pure_bind, cast_val]
  exact answers_loop (shanksTurn_answers hturns) (by omega : s < turns)
    ⟨_, _, _, rfl, by omega, Invariant.start hp hq hqs hz ha⟩

/-- The numbers that have no root do not pass the test. -/
theorem sqrtP_of_not_isSquare (hp : p ≠ 2) (hturns : p ≤ turns) {n : ℤ} {u : ZMod p} (hn : (n : ZMod p) = u)
    (h : ¬ IsSquare u) : sqrtP p turns n = throw "recoverEvenY: x has no y on the curve (non-residue)" := by
  have hlt := one_lt (p := p)
  have hzero : u ≠ 0 := by
    rintro rfl
    exact h IsSquare.zero
  have hpower : u ^ ((p - 1) / 2) ≠ 1 := fun hpower => h ((isSquare_iff hp hzero).2 hpower)
  rw [sqrtP, modP_eq, hn, if_neg (val_eq_zero_iff.not.2 hzero), half_eq, powP_eq hturns _ (by omega), pure_bind,
    cast_val, if_pos (val_eq_one_iff.not.2 hpower)]

theorem sqrtP_of_isSquare (hp : p ≠ 2) (hturns : p ≤ turns) {n : ℤ} {u : ZMod p} (hn : (n : ZMod p) = u)
    (h : IsSquare u) : ∃ r : ZMod p, sqrtP p turns n = pure (r.val : ℤ) ∧ r * r = u := by
  have hlt := one_lt (p := p)
  rw [sqrtP, modP_eq, hn]
  by_cases hzero : u = 0
  · subst hzero
    exact ⟨0, by simp, mul_zero 0⟩
  · have hpower := (isSquare_iff hp hzero).1 h
    obtain ⟨_, hroot, r, rfl, hr⟩ := tonelliShanks_answers hp hturns hpower
    refine ⟨r, ?_, hr⟩
    rw [if_neg (val_eq_zero_iff.not.2 hzero), half_eq, powP_eq hturns _ (by omega), pure_bind, cast_val,
      if_neg (not_not.2 (val_eq_one_iff.2 hpower)), hroot]

/-- Two turns of the outer loop, of three squarings and of two. -/
example : sqrtP 17 17 8 = pure 12 := by rfl

/-! ## Points -/

section Curve

variable {bjjA bjjD : ℤ}

theorem onCurve_iff {x : ZMod p} (hden : 1 - (bjjD : ZMod p) * x ^ 2 ≠ 0) (y : ZMod p) :
    OnCurve p bjjA bjjD x y ↔ y * y = (1 - (bjjA : ZMod p) * x ^ 2) / (1 - (bjjD : ZMod p) * x ^ 2) := by
  rw [OnCurve, Edwards.eq_iff_sq_eq hden, sq y]

/-- The points with a first coordinate are one and its negative. -/
theorem onCurve_iff_eq (hne : (bjjA : ZMod p) ≠ bjjD) {x y : ZMod p} (h : OnCurve p bjjA bjjD x y) (z : ZMod p) :
    OnCurve p bjjA bjjD x z ↔ z = y ∨ z = -y := by
  have hden := Edwards.one_sub_sq_ne_zero hne h
  rw [onCurve_iff hden, ← (onCurve_iff hden y).1 h, mul_self_eq_mul_self_iff]

/-- What `recoverEvenY` does, with its bigints below the modulus. -/
theorem recoverEvenY_eq (hturns : p ≤ turns) (x : ℤ) :
    recoverEvenY p bjjA bjjD turns x =
      if 1 - (bjjD : ZMod p) * (x : ZMod p) ^ 2 = 0 then throw "recoverEvenY: division by zero"
      else sqrtP p turns
          ((1 - (bjjA : ZMod p) * (x : ZMod p) ^ 2) / (1 - (bjjD : ZMod p) * (x : ZMod p) ^ 2)).val >>= fun y =>
        pure (((x : ZMod p).val : ℤ), if y % 2 ≠ 0 then modP p (p - y) else y) := by
  simp only [recoverEvenY, modP_eq, Int.cast_mul, Int.cast_pow, Int.cast_sub, Int.cast_one, cast_val,
    invP_eq hturns, ← sq]
  by_cases hden : 1 - (bjjD : ZMod p) * (x : ZMod p) ^ 2 = 0
  · rw [if_pos hden, if_pos hden]
    rfl
  · rw [if_neg hden, if_neg hden, pure_bind]
    simp only [cast_val, div_eq_mul_inv]

/-- The even one of a root and its negative. -/
theorem even_root (r : ZMod p) :
    (if (r.val : ℤ) % 2 ≠ 0 then modP p (p - (r.val : ℤ)) else r.val) = ((Parity.evenOne r).val : ℤ) := by
  unfold Parity.evenOne
  by_cases hodd : r.val % 2 ≠ 0
  · rw [if_pos (by omega), if_pos hodd, modP_eq]
    simp
  · rw [if_neg (by omega), if_neg hodd]

theorem recoverEvenY_of_onCurve (hp : p ≠ 2) (hne : (bjjA : ZMod p) ≠ bjjD) (hturns : p ≤ turns) {x : ℤ}
    {y : ZMod p} (h : OnCurve p bjjA bjjD x y) :
    recoverEvenY p bjjA bjjD turns x = pure (((x : ZMod p).val : ℤ), ((Parity.evenOne y).val : ℤ)) := by
  have hden := Edwards.one_sub_sq_ne_zero hne h
  have hsquare := (onCurve_iff hden y).1 h
  obtain ⟨r, hr, hroot⟩ := sqrtP_of_isSquare hp hturns (cast_val (y * y)) ⟨y, rfl⟩
  rw [recoverEvenY_eq hturns, if_neg hden, ← hsquare, hr, pure_bind, even_root,
    Parity.evenOne_congr (odd_modulus hp) (mul_self_eq_mul_self_iff.1 hroot)]

theorem recoverEvenY_of_not_onCurve (hp : p ≠ 2) (hturns : p ≤ turns) {x : ℤ}
    (h : ∀ y, ¬ OnCurve p bjjA bjjD x y) : ∃ message, recoverEvenY p bjjA bjjD turns x = throw message := by
  rw [recoverEvenY_eq hturns]
  by_cases hden : 1 - (bjjD : ZMod p) * (x : ZMod p) ^ 2 = 0
  · exact ⟨_, if_pos hden⟩
  · refine ⟨"recoverEvenY: x has no y on the curve (non-residue)", ?_⟩
    rw [if_neg hden, sqrtP_of_not_isSquare hp hturns (cast_val _)]
    · rfl
    · rintro ⟨y, hy⟩
      exact h y ((onCurve_iff hden y).2 hy.symm)

theorem isEvenY_iff (hp : p ≠ 2) (y : ZMod p) : isEvenY p y ↔ y.val % 2 = 0 := by
  have hodd := odd_modulus hp
  exact Parity.val_mul_half_lt_iff (by rw [halfModulus]; omega) y

/-- For every odd prime in the place of `BJJ_P` and different coefficients: `sqrtP` ends with a root of every square and
throws on every other number; `recoverEvenY` ends with the only point that has the first coordinate and an even second
one, and throws exactly if no point has that first coordinate; and of the two points with a first coordinate `is_even_y`
accepts the one that is recovered. -/
theorem point_recovery (hp : p ≠ 2) (hne : (bjjA : ZMod p) ≠ bjjD) (hturns : p ≤ turns) :
    (∀ n : ℤ, IsSquare (n : ZMod p) → ∃ r : ZMod p, sqrtP p turns n = pure (r.val : ℤ) ∧ r * r = n) ∧
      (∀ n : ℤ, ¬ IsSquare (n : ZMod p) →
        sqrtP p turns n = throw "recoverEvenY: x has no y on the curve (non-residue)") ∧
      ∀ x : ℤ,
        ((∃ y, OnCurve p bjjA bjjD x y) →
          ∃ y, recoverEvenY p bjjA bjjD turns x = pure (((x : ZMod p).val : ℤ), (y.val : ℤ)) ∧
            OnCurve p bjjA bjjD x y ∧ y.val % 2 = 0 ∧
            ∀ z, OnCurve p bjjA bjjD x z → z.val % 2 = 0 → z = y) ∧
        ((∃ message, recoverEvenY p bjjA bjjD turns x = throw message) ↔ ¬ ∃ y, OnCurve p bjjA bjjD x y) ∧
        ∀ y, OnCurve p bjjA bjjD x y → y ≠ 0 →
          y ≠ -y ∧ (∀ z, OnCurve p bjjA bjjD x z ↔ z = y ∨ z = -y) ∧
            (isEvenY p y ↔ recoverEvenY p bjjA bjjD turns x = pure (((x : ZMod p).val : ℤ), (y.val : ℤ))) := by
  have hodd := odd_modulus hp
  refine ⟨fun n => sqrtP_of_isSquare hp hturns rfl, fun n => sqrtP_of_not_isSquare hp hturns rfl,
    fun x => ⟨?_, ⟨?_, ?_⟩, ?_⟩⟩
  · rintro ⟨y, hy⟩
    have heven := Parity.evenOne_even hodd y
    have hcurve := (onCurve_iff_eq hne hy _).2 (Parity.evenOne_eq_or_eq_neg y)
    refine ⟨_, recoverEvenY_of_onCurve hp hne hturns hy, hcurve, heven, fun z hz hzeven => ?_⟩
    exact Parity.eq_of_even hodd hzeven heven ((onCurve_iff_eq hne hcurve z).1 hz)
  · rintro ⟨message, hthrow⟩ ⟨y, hy⟩
    rw [recoverEvenY_of_onCurve hp hne hturns hy] at hthrow
    cases hthrow
  · intro h
    exact recoverEvenY_of_not_onCurve hp hturns fun y hy => h ⟨y, hy⟩
  · intro y hy hzero
    refine ⟨Parity.ne_neg hodd hzero, onCurve_iff_eq hne hy, ?_⟩
    rw [isEvenY_iff hp, recoverEvenY_of_onCurve hp hne hturns hy]
    constructor
    · intro heven
      rw [Parity.evenOne_of_even heven]
    · intro h
      have hval : ((Parity.evenOne y).val : ℤ) = y.val := congrArg Prod.snd (pure_inj.1 h)
      rw [← val_int_inj.1 hval]
      exact Parity.evenOne_even hodd y

end Curve

/-! ## The field of the source -/

theorem isEvenY_circuit (P : Circuit.Point) : isEvenY bn254ScalarFieldModulus P.y ↔ Circuit.isEvenY P := by
  rw [isEvenY_iff (by norm_num [bn254ScalarFieldModulus]), Circuit.isEvenY_iff]

/-- The point of the scalar 4. -/
def pointFour : Circuit.Point where
  x := 0x1b16e357953d68d73398c838aa883cc65ddae2aef75a4bc437e4232afdbe43c8
  y := 0x2d7ee0be055310d2895c5ed5090a8aa1c700e73c64294f1e817ec77f46b4fdc

theorem point_recovery_sample :
    Circuit.isEvenY pointFour ∧
      recoverEvenY bn254ScalarFieldModulus 168700 168696 bn254ScalarFieldModulus pointFour.x.val =
        pure ((pointFour.x.val : ℤ), (pointFour.y.val : ℤ)) := by
  have hp : bn254ScalarFieldModulus ≠ 2 := by norm_num [bn254ScalarFieldModulus]
  have hne : ((168700 : ℤ) : Fr) ≠ ((168696 : ℤ) : Fr) := by
    rw [Int.cast_ofNat, Int.cast_ofNat]
    decide +kernel
  have hcurve : OnCurve bn254ScalarFieldModulus 168700 168696 ((pointFour.x.val : ℤ) : Fr) pointFour.y := by
    rw [OnCurve, Int.cast_ofNat, Int.cast_ofNat, cast_val]
    decide +kernel
  have heven : Circuit.isEvenY pointFour := by decide +kernel
  obtain ⟨-, -, hrecover⟩ := point_recovery hp hne le_rfl
  obtain ⟨-, -, hpoints⟩ := hrecover pointFour.x.val
  obtain ⟨-, -, haccepts⟩ := hpoints _ hcurve (by decide +kernel)
  have hrecovered := haccepts.1 ((isEvenY_circuit pointFour).2 heven)
  rw [cast_val] at hrecovered
  exact ⟨heven, hrecovered⟩

/-- What the scans compute with field elements is what the source does. -/
theorem recoverEvenY_bn254 (hturns : bn254ScalarFieldModulus ≤ turns) (x : ℤ) :
    recoverEvenY bn254ScalarFieldModulus 168700 168696 turns x = ExceptT.mk (some (Notes.recoverEvenY x)) := by
  have hp : bn254ScalarFieldModulus ≠ 2 := by norm_num [bn254ScalarFieldModulus]
  have ha : ((168700 : ℤ) : Fr) = bjjA := Int.cast_ofNat 168700
  have hd : ((168696 : ℤ) : Fr) = bjjD := Int.cast_ofNat 168696
  rw [recoverEvenY_eq hturns, ha, hd, Notes.recoverEvenY]
  simp only [← sq]
  by_cases hden : 1 - bjjD * (x : Fr) ^ 2 = 0
  · rw [if_pos hden, Notes.invP, if_pos hden]
    rfl
  · rw [if_neg hden, Notes.invP_ok hden, div_eq_mul_inv]
    show _ = ExceptT.mk (some (Notes.sqrtP _ >>= _))
    generalize (1 - bjjA * (x : Fr) ^ 2) * (1 - bjjD * (x : Fr) ^ 2)⁻¹ = n
    by_cases hsquare : IsSquare n
    · obtain ⟨y, rfl⟩ := hsquare
      obtain ⟨r, hr, hroot⟩ := sqrtP_of_isSquare hp hturns (cast_val (y * y)) ⟨y, rfl⟩
      obtain ⟨r', hr', hsign⟩ := Notes.sqrtP_sq y
      rw [hr, hr', pure_bind, even_root, Parity.evenOne_congr modulus_odd (mul_self_eq_mul_self_iff.1 hroot),
        ← Parity.evenOne_congr modulus_odd hsign]
      rfl
    · rw [Notes.sqrtP_of_not_isSquare hsquare, sqrtP_of_not_isSquare hp hturns (cast_val n) hsquare]
      rfl

end Kakure.Notes.Bigint
