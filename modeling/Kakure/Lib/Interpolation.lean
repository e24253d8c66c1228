import Mathlib

/-!
# Interpolation at zero

The weights with which the values of a polynomial of low degree add up to its value at
zero, and the same sum in a vector space, where the values are multiples of one vector.

* `ofCoefficients`, `evalAt` — polynomials given by their coefficients, scalars or vectors;
* `foldl_products` — the numerator and the denominator of a weight, from a loop over the nodes;
* `weight_eq_basis` — a weight is the value of Lagrange's basis polynomial;
* `sum_weight_mul_eval`, `sum_weight_smul_eval` — the interpolation.
-/

namespace Interpolation

open Polynomial

variable {F : Type*} [Field F] [DecidableEq F]

/-! ## Polynomials by their coefficients -/

section Coefficients

variable {R V : Type*} [CommRing R] [AddCommGroup V] [Module R V]

/-- The polynomial with the given coefficients, the constant one first. -/
noncomputable def ofCoefficients : List R → R[X]
  | [] => 0
  | c :: cs => C c + X * ofCoefficients cs

/-- The value at `x` of the polynomial with the given vectors as its coefficients. -/
def evalAt : List V → R → V
  | [], _ => 0
  | v :: vs, x => v + x • evalAt vs x

@[simp] theorem eval_ofCoefficients_cons (c : R) (cs : List R) (x : R) :
    (ofCoefficients (c :: cs)).eval x = c + x * (ofCoefficients cs).eval x := by
  simp [ofCoefficients]

theorem degree_ofCoefficients_lt (cs : List R) : (ofCoefficients cs).degree < cs.length := by
  induction cs with
  | nil => simp [ofCoefficients]
  | cons c cs ih =>
    rw [List.length_cons, ofCoefficients]
    refine lt_of_le_of_lt (degree_add_le _ _) (max_lt ?_ ?_)
    · exact lt_of_le_of_lt degree_C_le (by exact_mod_cast Nat.succ_pos _)
    · by_cases hzero : ofCoefficients cs = 0
      · rw [hzero, mul_zero, degree_zero]
        exact WithBot.bot_lt_coe _
      · have hlt := (natDegree_lt_iff_degree_lt hzero).2 ih
        have hmul := natDegree_mul_le (p := (X : R[X])) (q := ofCoefficients cs)
        have hX := natDegree_X_le (R := R)
        refine lt_of_le_of_lt degree_le_natDegree ?_
        exact_mod_cast (by omega : (X * ofCoefficients cs).natDegree < cs.length + 1)

theorem eval_zero_ofCoefficients (c : R) (cs : List R) : (ofCoefficients (c :: cs)).eval 0 = c := by
  rw [eval_ofCoefficients_cons, zero_mul, add_zero]

/-- Multiples of one vector: the value is the multiple by the value. -/
theorem evalAt_map_smul (cs : List R) (x : R) (v : V) :
    evalAt (cs.map fun c => c • v) x = (ofCoefficients cs).eval x • v := by
  induction cs with
  | nil => simp [evalAt, ofCoefficients]
  | cons c cs ih => rw [List.map_cons, evalAt, ih, eval_ofCoefficients_cons, add_smul, mul_smul]

end Coefficients

/-! ## The weights -/

/-- The weight of a node among the nodes. -/
def weight (nodes : List F) (x : F) : F := ((nodes.filter (· ≠ x)).map fun y => y / (y - x)).prod

theorem weight_eq_div (nodes : List F) (x : F) : weight nodes x =
    (nodes.filter (· ≠ x)).prod / ((nodes.filter (· ≠ x)).map fun y => y - x).prod := by
  rw [weight]
  induction nodes.filter (· ≠ x) with
  | nil => simp
  | cons y ys ih => rw [List.map_cons, List.prod_cons, ih, List.prod_cons, List.map_cons, List.prod_cons, div_mul_div_comm]

/-- It is the value at zero of the basis polynomial of the node. -/
theorem weight_eq_basis {nodes : List F} (hnodup : nodes.Nodup) (x : F) :
    weight nodes x = (Lagrange.basis nodes.toFinset id x).eval 0 := by
  have herase : nodes.toFinset.erase x = (nodes.filter (· ≠ x)).toFinset := by
    ext y
    simp [and_comm]
  have hfactor : ∀ y, (Lagrange.basisDivisor x y).eval 0 = y / (y - x) := by
    intro y
    rw [Lagrange.basisDivisor, eval_mul, eval_C, eval_sub, eval_X, eval_C, ← neg_sub y x, inv_neg]
    ring
  rw [Lagrange.basis, eval_prod, herase, List.prod_toFinset _ (hnodup.filter _)]
  simp only [id_eq, hfactor]
  rfl

variable {V : Type*} [AddCommGroup V] [Module F V]

/-- The value at zero of a polynomial is the weighted sum of its values at enough nodes. -/
theorem sum_weight_mul_eval {nodes : List F} (hnodup : nodes.Nodup) {f : F[X]}
    (hdegree : f.degree < nodes.length) :
    (nodes.map fun x => weight nodes x * f.eval x).sum = f.eval 0 := by
  have hcard : f.degree < nodes.toFinset.card := by
    rw [List.toFinset_card_of_nodup hnodup]
    exact hdegree
  have hinterpolate := Lagrange.eq_interpolate (v := id) Function.injective_id.injOn hcard
  conv_rhs => rw [hinterpolate]
  rw [Lagrange.interpolate_apply, eval_finsetSum, ← List.sum_toFinset _ hnodup]
  refine Finset.sum_congr rfl fun x _ => ?_
  rw [eval_mul, eval_C, weight_eq_basis hnodup, mul_comm]
  rfl

/-- The same in a vector space. -/
theorem sum_weight_smul_eval {nodes : List F} (hnodup : nodes.Nodup) {f : F[X]}
    (hdegree : f.degree < nodes.length) (v : V) :
    (nodes.map fun x => weight nodes x • f.eval x • v).sum = f.eval 0 • v := by
  rw [← sum_weight_mul_eval hnodup hdegree, List.sum_smul, List.map_map]
  simp only [Function.comp_def, mul_smul]

/-! ## The products of a weight -/

omit [DecidableEq F] in
/-- A loop that leaves some numbers out multiplies up the others, and their differences to a node. -/
theorem foldl_products {step : ℤ × ℤ → ℤ → ℤ × ℤ} {skip : ℤ → Prop} [DecidablePred skip] {x : F}
    (hskip : ∀ acc j, skip j → step acc j = acc)
    (hstep : ∀ acc j, ¬ skip j → (((step acc j).1 : ℤ) : F) = acc.1 * (j : F) ∧
      (((step acc j).2 : ℤ) : F) = acc.2 * ((j : F) - x)) (js : List ℤ) (acc : ℤ × ℤ) :
    (((js.foldl step acc).1 : ℤ) : F) = acc.1 * ((js.filter (¬ skip ·)).map fun j : ℤ => (j : F)).prod ∧
      (((js.foldl step acc).2 : ℤ) : F) = acc.2 * ((js.filter (¬ skip ·)).map fun j : ℤ => (j : F) - x).prod := by
  induction js generalizing acc with
  | nil => simp
  | cons j js ih =>
    obtain ⟨hfst, hsnd⟩ := ih (step acc j)
    rw [List.foldl_cons, hfst, hsnd]
    by_cases hj : skip j
    · rw [hskip acc j hj, List.filter_cons_of_neg (by simpa using hj)]
      exact ⟨rfl, rfl⟩
    · obtain ⟨hnum, hden⟩ := hstep acc j hj
      rw [hnum, hden, List.filter_cons_of_pos (by simpa using hj), List.map_cons, List.map_cons, List.prod_cons,
        List.prod_cons, mul_assoc, mul_assoc]
      exact ⟨rfl, rfl⟩

/-! ## Values in a vector space -/

/-- A coefficient of the polynomial of least degree with the given values at the nodes. -/
noncomputable def coefficient (nodes : Finset F) (values : F → V) (k : ℕ) : V :=
  ∑ x ∈ nodes, (Lagrange.basis nodes id x).coeff k • values x

theorem coefficient_congr {nodes : Finset F} {values values' : F → V}
    (h : ∀ x ∈ nodes, values x = values' x) (k : ℕ) :
    coefficient nodes values k = coefficient nodes values' k :=
  Finset.sum_congr rfl fun x hx => by rw [h x hx]

theorem coefficient_add (nodes : Finset F) (values values' : F → V) (k : ℕ) :
    coefficient nodes (fun x => values x + values' x) k =
      coefficient nodes values k + coefficient nodes values' k := by
  simp only [coefficient, smul_add, Finset.sum_add_distrib]

/-- The values of a polynomial of low degree give back its coefficients. -/
theorem coefficient_eval {nodes : Finset F} {f : F[X]} (hdegree : f.degree < nodes.card) (v : V) (k : ℕ) :
    coefficient nodes (fun x => f.eval x • v) k = f.coeff k • v := by
  have hinterpolate := Lagrange.eq_interpolate (v := id) Function.injective_id.injOn hdegree
  conv_rhs => rw [hinterpolate, Lagrange.interpolate_apply, finsetSum_coeff]
  rw [Finset.sum_smul]
  refine Finset.sum_congr rfl fun x _ => ?_
  rw [coeff_C_mul, mul_comm, mul_smul]
  rfl

/-- The coefficients give back the values. -/
theorem value_eq_sum {nodes : Finset F} {x : F} (hx : x ∈ nodes) (values : F → V) :
    values x = ∑ k ∈ Finset.range nodes.card, x ^ k • coefficient nodes values k := by
  have hbasis : ∀ y ∈ nodes, (∑ k ∈ Finset.range nodes.card, (Lagrange.basis nodes id y).coeff k * x ^ k) =
      if y = x then 1 else 0 := by
    intro y hy
    have hdegree : (Lagrange.basis nodes id y).natDegree < nodes.card := by
      rw [Lagrange.natDegree_basis Function.injective_id.injOn hy]
      have := Finset.card_pos.2 ⟨y, hy⟩
      omega
    rw [← eval_eq_sum_range' hdegree]
    split
    · rename_i heq
      subst heq
      exact Lagrange.eval_basis_self (v := id) Function.injective_id.injOn hy
    · rename_i hne
      exact Lagrange.eval_basis_of_ne (v := id) hne hx
  calc values x = ∑ y ∈ nodes, (if y = x then (1 : F) else 0) • values y := by
        simp [ite_smul, hx]
    _ = ∑ y ∈ nodes, ∑ k ∈ Finset.range nodes.card,
          ((Lagrange.basis nodes id y).coeff k * x ^ k) • values y := by
        refine Finset.sum_congr rfl fun y hy => ?_
        rw [← hbasis y hy, Finset.sum_smul]
    _ = ∑ k ∈ Finset.range nodes.card, x ^ k • coefficient nodes values k := by
        rw [Finset.sum_comm]
        refine Finset.sum_congr rfl fun k _ => ?_
        rw [coefficient, Finset.smul_sum]
        refine Finset.sum_congr rfl fun y _ => ?_
        rw [mul_comm, mul_smul]

/-- The values of a polynomial with few vectors as its coefficients have no term beyond them. -/
theorem coefficient_evalAt_eq_zero {nodes : Finset F} {vs : List V} (hlength : vs.length ≤ nodes.card) {k : ℕ}
    (hk : vs.length ≤ k) : coefficient nodes (evalAt vs) k = 0 := by
  have hterm : ∀ (vs : List V) (j : ℕ), vs.length + j ≤ nodes.card → vs.length + j ≤ k →
      coefficient nodes (fun x => x ^ j • evalAt vs x) k = 0 := by
    intro vs
    induction vs with
    | nil => simp [evalAt, coefficient]
    | cons v vs ih =>
      intro j hcard hk
      rw [List.length_cons] at hcard hk
      have hpow : coefficient nodes (fun x => (X ^ j : F[X]).eval x • v) k = 0 := by
        rw [coefficient_eval, coeff_X_pow, if_neg (by omega), zero_smul]
        rw [degree_X_pow]
        exact_mod_cast (by omega : j < nodes.card)
      rw [← ih (j + 1) (by omega) (by omega), ← sub_eq_zero, ← hpow]
      simp only [coefficient, ← Finset.sum_sub_distrib, ← smul_sub]
      refine Finset.sum_congr rfl fun x _ => ?_
      rw [evalAt, eval_pow, eval_X, smul_add, pow_succ, mul_smul, add_sub_cancel_right]
  have := hterm vs 0 hlength hk
  simpa using this

/-- Values that are multiples of one vector at enough nodes are the multiples by a polynomial of low
degree exactly if there is no term beyond that degree. -/
theorem exists_polynomial_iff {nodes : Finset F} {values : F → V} {v : V} {t : ℕ} {known : Finset F}
    (hknown : known ⊆ nodes) (hcard : t ≤ known.card) (hv : ∀ x ∈ known, ∃ c : F, values x = c • v) :
    (∃ f : F[X], f.degree < t ∧ ∀ x ∈ nodes, values x = f.eval x • v) ↔
      ∀ k, t ≤ k → coefficient nodes values k = 0 := by
  have hnodes : t ≤ nodes.card := hcard.trans (Finset.card_le_card hknown)
  constructor
  · rintro ⟨f, hdegree, hf⟩ k hk
    rw [coefficient_congr hf, coefficient_eval (lt_of_lt_of_le hdegree (by exact_mod_cast hnodes))]
    rw [coeff_eq_zero_of_degree_lt (lt_of_lt_of_le hdegree (by exact_mod_cast hk)), zero_smul]
  · intro hzero
    obtain ⟨few, hsub, hfew⟩ := Finset.exists_subset_card_eq hcard
    choose! c hc using hv
    have hvalue : ∀ x ∈ nodes, values x = ∑ k ∈ Finset.range t, x ^ k • coefficient nodes values k := by
      intro x hx
      refine (value_eq_sum hx values).trans (Finset.sum_subset (Finset.range_mono hnodes) fun k _ hk => ?_).symm
      rw [hzero k (by simpa using hk), smul_zero]
    have hpow : ∀ x, ∀ k ∈ Finset.range t, ∑ y ∈ few, (Lagrange.basis few id y).eval x * y ^ k = x ^ k := by
      intro x k hk
      have hdegree : (X ^ k : F[X]).degree < few.card := by
        rw [degree_X_pow, hfew]
        exact_mod_cast Finset.mem_range.1 hk
      have hinterpolate := Lagrange.eq_interpolate (v := id) Function.injective_id.injOn hdegree
      have heval := congrArg (eval x) hinterpolate
      rw [Lagrange.interpolate_apply, eval_finsetSum, eval_pow, eval_X] at heval
      rw [heval]
      refine Finset.sum_congr rfl fun y _ => ?_
      rw [eval_mul, eval_C, eval_pow, eval_X, mul_comm]
      rfl
    -- the polynomial through `t` of the known values
    refine ⟨Lagrange.interpolate few id c, ?_, ?_⟩
    · rw [← hfew]
      exact Lagrange.degree_interpolate_lt _ Function.injective_id.injOn
    · intro x hx
      rw [hvalue x hx, Lagrange.interpolate_apply, eval_finsetSum, Finset.sum_smul]
      have hterm : ∀ y ∈ few, (C (c y) * Lagrange.basis few id y).eval x • v =
          ∑ k ∈ Finset.range t, ((Lagrange.basis few id y).eval x * y ^ k) • coefficient nodes values k := by
        intro y hy
        rw [eval_mul, eval_C, mul_comm, mul_smul, ← hc y (hsub hy), hvalue y (hknown (hsub hy)),
          Finset.smul_sum]
        simp only [mul_smul]
      rw [Finset.sum_congr rfl hterm, Finset.sum_comm]
      refine Finset.sum_congr rfl fun k hk => ?_
      rw [← Finset.sum_smul, hpow x k hk]

end Interpolation
