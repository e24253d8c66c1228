import Mathlib.NumberTheory.LucasPrimality

/-!
# Large primes

Lucas's test with powers that the kernel evaluates.

* `powMod_eq` — powers modulo a number by squaring, one step for each binary digit;
* `Certificate.prime` — a number is prime if some base has order one less;
* `prime_of_chain` — certificates each of which rests on the ones before it.
-/

namespace Pratt

/-- `a ^ n % m` for a `n` of the given number of binary digits. -/
def powMod (a m : ℕ) : ℕ → ℕ → ℕ
  | 0, _ => 1 % m
  | digits + 1, n =>
    let half := powMod a m digits (n / 2)
    if n % 2 = 1 then half * half % m * a % m else half * half % m

theorem powMod_eq (a m : ℕ) {digits n : ℕ} (h : n < 2 ^ digits) : powMod a m digits n = a ^ n % m := by
  induction digits generalizing n with
  | zero =>
    obtain rfl : n = 0 := by simpa using h
    rfl
  | succ digits ih =>
    have hhalf := ih (n := n / 2) (by rw [pow_succ] at h; omega)
    have hsq : powMod a m digits (n / 2) * powMod a m digits (n / 2) % m = a ^ (2 * (n / 2)) % m := by
      rw [hhalf, ← Nat.mul_mod, ← pow_add, two_mul]
    rw [powMod]
    simp only [hsq]
    split
    · rename_i hodd
      rw [Nat.mod_mul_mod, ← pow_succ]
      congr 2
      omega
    · congr 2
      omega

theorem natCast_pow_eq_one_iff {p : ℕ} (hp : 1 < p) (a n : ℕ) : (a : ZMod p) ^ n = 1 ↔ a ^ n % p = 1 := by
  have hone : (1 : ZMod p) = ((1 : ℕ) : ZMod p) := Nat.cast_one.symm
  rw [hone, ← Nat.cast_pow, ZMod.natCast_eq_natCast_iff', Nat.mod_eq_of_lt hp]

/-- What Lucas's test takes: the base has order `number - 1`, the prime factors of which are given. -/
structure Certificate where
  number : ℕ
  base : ℕ
  factors : List ℕ

namespace Certificate

/-- The test, for numbers below `2 ^ digits`. -/
def Holds (digits : ℕ) (c : Certificate) : Prop :=
  1 < c.number ∧ c.number < 2 ^ digits ∧ c.factors.prod = c.number - 1 ∧
    powMod c.base c.number digits (c.number - 1) = 1 ∧
    c.factors.all (fun q => powMod c.base c.number digits ((c.number - 1) / q) ≠ 1) = true

instance (digits : ℕ) (c : Certificate) : Decidable (c.Holds digits) :=
  inferInstanceAs (Decidable (_ ∧ _))

theorem prime {digits : ℕ} {c : Certificate} (h : c.Holds digits) (hprime : ∀ q ∈ c.factors, q.Prime) :
    c.number.Prime := by
  obtain ⟨hone, hlt, hfactors, hpow, hne⟩ := h
  have hmod : ∀ n, n ≤ c.number - 1 → powMod c.base c.number digits n = c.base ^ n % c.number :=
    fun n hn => powMod_eq c.base c.number (by omega)
  apply lucas_primality c.number (c.base : ZMod c.number)
  · rw [natCast_pow_eq_one_iff hone, ← hmod _ le_rfl]
    exact hpow
  · intro q hq hdvd
    rw [← hfactors] at hdvd
    obtain ⟨r, hr, hqr⟩ := (Prime.dvd_prod_iff hq.prime).1 hdvd
    obtain rfl : q = r := (Nat.prime_dvd_prime_iff_eq hq (hprime r hr)).1 hqr
    rw [ne_eq, natCast_pow_eq_one_iff hone, ← hmod _ (Nat.div_le_self _ _)]
    simpa using List.all_eq_true.1 hne q hr

end Certificate

/-- Each certificate holds, and its factors are known primes or numbers certified before it. -/
def Chain (digits : ℕ) (known : List ℕ) : List Certificate → Prop
  | [] => True
  | c :: cs => c.Holds digits ∧ (∀ q ∈ c.factors, q ∈ known) ∧ Chain digits (c.number :: known) cs

instance (digits : ℕ) (known : List ℕ) (cs : List Certificate) : Decidable (Chain digits known cs) := by
  induction cs generalizing known with
  | nil => exact instDecidableTrue
  | cons c cs ih =>
    have := ih (c.number :: known)
    exact inferInstanceAs (Decidable (_ ∧ _))

theorem prime_of_chain {digits : ℕ} {known : List ℕ} {cs : List Certificate} (h : Chain digits known cs)
    (hknown : ∀ q ∈ known, q.Prime) : ∀ c ∈ cs, c.number.Prime := by
  induction cs generalizing known with
  | nil => simp
  | cons c cs ih =>
    obtain ⟨hc, hfactors, hcs⟩ := h
    have hprime := Certificate.prime hc fun q hq => hknown q (hfactors q hq)
    intro e he
    rcases List.mem_cons.1 he with rfl | he
    · exact hprime
    · refine ih hcs ?_ e he
      intro q hq
      rcases List.mem_cons.1 hq with rfl | hq
      · exact hprime
      · exact hknown q hq

end Pratt
