import Mathlib

/-!
# Square roots modulo a prime

The loops of Tonelli and Shanks, with powers by squaring, a search for a number that is no square, and a
bound on the turns of every loop.

* `power_eq` — the loop of the powers;
* `Invariant.start`, `Invariant.step` — what holds before each turn of the loop: `r ^ 2 = a * t`, and `t` and `c` have
  orders that are powers of two;
* `tonelli_spec` — the root from the invariant;
* `sqrt_sq` — the root of a square.
-/

namespace SquareRoots

variable {F : Type*} [Field F] [DecidableEq F]

/-- The loop of the powers: a bit of the exponent in each turn. -/
def powLoop : ℕ → F → F → ℕ → F
  | 0, r, _, _ => r
  | turns + 1, r, b, e => if e = 0 then r else powLoop turns (if e % 2 = 1 then r * b else r) (b * b) (e / 2)

/-- A power. -/
def power (base : F) (e : ℕ) : F := powLoop (Nat.log2 e + 1) 1 base e

omit [DecidableEq F] in
/-- A turn leaves the product of what is there. -/
theorem pow_step (r b : F) (e : ℕ) : (if e % 2 = 1 then r * b else r) * (b * b) ^ (e / 2) = r * b ^ e := by
  rw [← sq, ← pow_mul]
  split
  · rename_i hodd
    rw [mul_assoc, ← pow_succ']
    congr 2
    omega
  · congr 2
    omega

omit [DecidableEq F] in
theorem powLoop_eq {turns e : ℕ} (h : e < 2 ^ turns) (r b : F) : powLoop turns r b e = r * b ^ e := by
  induction turns generalizing e r b with
  | zero =>
    obtain rfl : e = 0 := by simpa using h
    simp [powLoop]
  | succ turns ih =>
    rw [powLoop]
    split
    · rename_i hzero
      rw [hzero, pow_zero, mul_one]
    · have hhalf : e / 2 < 2 ^ turns := by
        rw [pow_succ] at h
        omega
      rw [ih hhalf, pow_step]

omit [DecidableEq F] in
/-- The loop of the powers. -/
theorem power_eq (base : F) (e : ℕ) : power base e = base ^ e := by
  rw [power, powLoop_eq Nat.lt_log2_self, one_mul]

/-- How often a number is squared until it is one, less than some bound. -/
def squarings : ℕ → F → Option ℕ
  | 0, _ => none
  | left + 1, t => if t = 1 then some 0 else (squarings left (t * t)).map (· + 1)

theorem squarings_spec {left k : ℕ} {t : F} (hk : k < left) (h : t ^ 2 ^ k = 1) :
    ∃ i, squarings left t = some i ∧ i ≤ k ∧ t ^ 2 ^ i = 1 ∧ ∀ j < i, t ^ 2 ^ j ≠ 1 := by
  induction left generalizing k t with
  | zero => omega
  | succ left ih =>
    rw [squarings]
    by_cases hone : t = 1
    · refine ⟨0, if_pos hone, Nat.zero_le k, by simp [hone], fun j hj => absurd hj (Nat.not_lt_zero j)⟩
    · have hne : k ≠ 0 := by
        rintro rfl
        simp [hone] at h
      obtain ⟨k, rfl⟩ := Nat.exists_eq_succ_of_ne_zero hne
      have hsquare : ∀ j, (t * t) ^ 2 ^ j = t ^ 2 ^ (j + 1) := by
        intro j
        rw [← sq, ← pow_mul, ← pow_succ']
      obtain ⟨i, hi, hle, hpow, hleast⟩ := ih (k := k) (by omega) (by rw [hsquare]; exact h)
      refine ⟨i + 1, by rw [if_neg hone, hi]; rfl, by omega, by rw [← hsquare]; exact hpow, ?_⟩
      rintro (_ | j) hj
      · simpa using hone
      · rw [← hsquare]
        exact hleast j (by omega)

/-- The loop of Tonelli and Shanks. -/
def tonelli : ℕ → ℕ → F → F → F → Option F
  | 0, _, _, _, _ => none
  | turns + 1, m, c, t, r =>
    if t = 1 then some r
    else
      match squarings m t with
      | none => none
      | some i =>
        let b := power c (2 ^ (m - i - 1))
        tonelli turns i (b * b) (t * (b * b)) (r * b)

/-- What holds before each turn: the square of `r` is `a` up to `t`, and `t` takes fewer squarings than `c` to come to
one. -/
structure Invariant (a : F) (m : ℕ) (c t r : F) : Prop where
  pos : 0 < m
  root : r * r = a * t
  pow_t : t ^ 2 ^ (m - 1) = 1
  pow_c : c ^ 2 ^ (m - 1) = -1

omit [DecidableEq F] in
/-- A turn keeps it, with the number of squarings that bring `t` to one for `m`. -/
theorem Invariant.step {a : F} {m i : ℕ} {c t r b : F} (h : Invariant a m c t r) (hone : t ≠ 1) (hle : i ≤ m - 1)
    (hpow : t ^ 2 ^ i = 1) (hleast : ∀ j < i, t ^ 2 ^ j ≠ 1) (hb : b = c ^ 2 ^ (m - i - 1)) :
    Invariant a i (b * b) (t * (b * b)) (r * b) := by
  have hm := h.pos
  have hpos : 0 < i := by
    rcases Nat.eq_zero_or_pos i with rfl | h
    · simp [hone] at hpow
    · exact h
  -- the last square before one is minus one
  have hminus : t ^ 2 ^ (i - 1) = -1 := by
    have hsq : t ^ 2 ^ (i - 1) * t ^ 2 ^ (i - 1) = 1 := by
      rw [← sq, ← pow_mul, ← pow_succ, Nat.sub_add_cancel hpos]
      exact hpow
    exact (mul_self_eq_one_iff.1 hsq).resolve_left (hleast (i - 1) (by omega))
  have hbb : b * b = c ^ 2 ^ (m - i) := by
    rw [hb, ← sq, ← pow_mul, ← pow_succ]
    congr 2
    omega
  have hci : (c ^ 2 ^ (m - i)) ^ 2 ^ (i - 1) = -1 := by
    rw [← pow_mul, ← pow_add]
    have hexp : m - i + (i - 1) = m - 1 := by omega
    rw [hexp]
    exact h.pow_c
  refine ⟨hpos, ?_, ?_, ?_⟩
  · calc r * b * (r * b) = r * r * (b * b) := by ring
      _ = a * (t * (b * b)) := by rw [h.root, mul_assoc]
  · rw [hbb, mul_pow, hminus, hci]
    ring
  · rw [hbb]
    exact hci

/-- The root from the invariant of the loop. -/
theorem tonelli_spec {a : F} {turns m : ℕ} {c t r : F} (h : Invariant a m c t r) (hturns : m ≤ turns) :
    ∃ r', tonelli turns m c t r = some r' ∧ r' * r' = a := by
  induction turns generalizing m c t r with
  | zero =>
    have hm := h.pos
    omega
  | succ turns ih =>
    rw [tonelli]
    by_cases hone : t = 1
    · exact ⟨r, if_pos hone, by rw [h.root, hone, mul_one]⟩
    · have hm := h.pos
      obtain ⟨i, hi, hle, hpow, hleast⟩ := @squarings_spec F _ _ m (m - 1) t (by omega) h.pow_t
      rw [if_neg hone, hi]
      exact ih (h.step hone hle hpow hleast (power_eq c _)) (by omega)

/-- The even factors of a number: what is left, and how many there are. -/
def splitTwos : ℕ → ℕ → ℕ → ℕ × ℕ
  | 0, q, s => (q, s)
  | turns + 1, q, s => if q % 2 = 0 then splitTwos turns (q / 2) (s + 1) else (q, s)

theorem splitTwos_eq (turns q s : ℕ) : (splitTwos turns q s).1 * 2 ^ (splitTwos turns q s).2 = q * 2 ^ s := by
  induction turns generalizing q s with
  | zero => rfl
  | succ turns ih =>
    rw [splitTwos]
    split
    · rename_i heven
      have hq : q / 2 * 2 = q := by omega
      rw [ih, pow_succ', ← mul_assoc, hq]
    · rfl

theorem splitTwos_odd {turns q s : ℕ} (hpos : 0 < q) (h : q < 2 ^ turns) : (splitTwos turns q s).1 % 2 = 1 := by
  induction turns generalizing q s with
  | zero => omega
  | succ turns ih =>
    rw [splitTwos]
    rw [pow_succ] at h
    split
    · exact ih (by omega) (by omega)
    · dsimp only
      omega

/-- The first number from some one on that a test finds. -/
def search (test : ℕ → Bool) : ℕ → ℕ → ℕ
  | 0, z => z
  | turns + 1, z => if test z then z else search test turns (z + 1)

theorem search_spec {test : ℕ → Bool} {turns z w : ℕ} (hz : z ≤ w) (hw : w < z + turns) (htest : test w = true) :
    test (search test turns z) = true := by
  induction turns generalizing z with
  | zero => omega
  | succ turns ih =>
    rw [search]
    split
    · assumption
    · rename_i hno
      have hne : z ≠ w := by
        rintro rfl
        exact hno htest
      exact ih (by omega) (by omega)

/-! ## Modulo a prime -/

variable (p : ℕ) [Fact p.Prime]

/-- A square root modulo a prime. -/
def sqrt (a : ZMod p) : Option (ZMod p) :=
  if a = 0 then some 0
  else if power a ((p - 1) / 2) ≠ 1 then none
  else
    let (q, s) := splitTwos (Nat.log2 p + 1) (p - 1) 0
    let z := search (fun z => power (z : ZMod p) ((p - 1) / 2) = -1) p 2
    tonelli s s (power (z : ZMod p) q) (power a q) (power a ((q + 1) / 2))

variable {p}

/-- The power that inverts. -/
theorem pow_sub_two {x : ZMod p} (h : x ≠ 0) : x ^ (p - 2) = x⁻¹ := by
  refine eq_inv_of_mul_eq_one_left ?_
  have hexp : p - 2 + 1 = p - 1 := by
    have hp1 : 1 < p := (Fact.out : p.Prime).one_lt
    omega
  rw [← pow_succ, hexp]
  exact ZMod.pow_card_sub_one_eq_one h

/-- Some number is not a square. -/
theorem exists_nonresidue (hp : p ≠ 2) :
    ∃ w, 2 ≤ w ∧ w < 2 + p ∧ ((w : ℕ) : ZMod p) ^ ((p - 1) / 2) = -1 := by
  have hodd : p % 2 = 1 := (Fact.out : p.Prime).eq_two_or_odd.resolve_left hp
  obtain ⟨x, hx⟩ := FiniteField.exists_nonsquare (F := ZMod p) (by rwa [ZMod.ringChar_zmod_n])
  have hx0 : x ≠ 0 := by
    rintro rfl
    exact hx (IsSquare.zero)
  refine ⟨x.val, ?_, lt_of_lt_of_le (ZMod.val_lt x) (Nat.le_add_left p 2), ?_⟩
  · by_contra hlow
    have hval : x.val = 0 ∨ x.val = 1 := by omega
    rcases hval with hval | hval
    · exact hx0 ((ZMod.val_eq_zero x).1 hval)
    · have hone : x = 1 := by
        rw [← ZMod.natCast_zmod_val x, hval, Nat.cast_one]
      rw [hone] at hx
      exact hx IsSquare.one
  · have hhalf : (p - 1) / 2 = p / 2 := by omega
    rw [ZMod.natCast_zmod_val, hhalf]
    refine (ZMod.pow_div_two_eq_neg_one_or_one p hx0).resolve_left fun hone => hx ?_
    exact (ZMod.euler_criterion p hx0).2 hone

/-- The squares are the numbers whose power is one. -/
theorem isSquare_iff (hp : p ≠ 2) {a : ZMod p} (hne : a ≠ 0) : IsSquare a ↔ a ^ ((p - 1) / 2) = 1 := by
  have hodd : p % 2 = 1 := (Fact.out : p.Prime).eq_two_or_odd.resolve_left hp
  have hhalf : (p - 1) / 2 = p / 2 := by omega
  rw [hhalf]
  exact ZMod.euler_criterion p hne

/-- The loop starts with its invariant. -/
theorem Invariant.start {q s : ℕ} {z a : ZMod p} (hp : p ≠ 2) (hq : q % 2 = 1) (hsplit : q * 2 ^ s = p - 1)
    (hz : z ^ ((p - 1) / 2) = -1) (ha : a ^ ((p - 1) / 2) = 1) :
    Invariant a s (z ^ q) (a ^ q) (a ^ ((q + 1) / 2)) := by
  have hodd : p % 2 = 1 := (Fact.out : p.Prime).eq_two_or_odd.resolve_left hp
  have hs : 0 < s := by
    rcases Nat.eq_zero_or_pos s with rfl | h
    · rw [pow_zero, mul_one] at hsplit
      omega
    · exact h
  have hexp : q * 2 ^ (s - 1) = (p - 1) / 2 := by
    have htwo : 2 ^ s = 2 ^ (s - 1) * 2 := by rw [← pow_succ, Nat.sub_add_cancel hs]
    rw [htwo, ← mul_assoc] at hsplit
    omega
  refine ⟨hs, ?_, ?_, ?_⟩
  · rw [← pow_add, ← pow_succ']
    congr 1
    omega
  · rw [← pow_mul, hexp]
    exact ha
  · rw [← pow_mul, hexp]
    exact hz

/-- The root of a square. -/
theorem sqrt_sq (hp : p ≠ 2) (x : ZMod p) : ∃ r, sqrt p (x * x) = some r ∧ (r = x ∨ r = -x) := by
  have hp1 : 1 < p := (Fact.out : p.Prime).one_lt
  suffices h : ∃ r, sqrt p (x * x) = some r ∧ r * r = x * x by
    obtain ⟨r, hr, hsq⟩ := h
    exact ⟨r, hr, mul_self_eq_mul_self_iff.1 hsq⟩
  by_cases hx : x = 0
  · exact ⟨0, by simp [sqrt, hx], by simp [hx]⟩
  · have hne : x * x ≠ 0 := mul_ne_zero hx hx
    have heuler : (x * x) ^ ((p - 1) / 2) = 1 := (isSquare_iff hp hne).1 ⟨x, rfl⟩
    obtain ⟨w, hw2, hwp, hw⟩ := exists_nonresidue hp
    have hsearch := @search_spec (fun z => power ((z : ℕ) : ZMod p) ((p - 1) / 2) = -1) _ _ _ hw2 hwp
      (by rw [power_eq]; exact decide_eq_true hw)
    have hsplit := splitTwos_eq (Nat.log2 p + 1) (p - 1) 0
    have hq := @splitTwos_odd (Nat.log2 p + 1) _ 0 (by omega : 0 < p - 1)
      (lt_trans (by omega) Nat.lt_log2_self)
    rw [sqrt, if_neg hne, power_eq, if_neg (not_not.2 heuler)]
    dsimp only
    generalize (search (fun z => power ((z : ℕ) : ZMod p) ((p - 1) / 2) = -1) p 2) = z at hsearch
    generalize splitTwos (Nat.log2 p + 1) (p - 1) 0 = split at hsplit hq
    obtain ⟨q, s⟩ := split
    dsimp only at hsplit hq ⊢
    rw [pow_zero, mul_one] at hsplit
    simp only [power_eq, decide_eq_true_eq] at hsearch ⊢
    exact tonelli_spec (Invariant.start hp hq hsplit hsearch heuler) le_rfl

end SquareRoots
