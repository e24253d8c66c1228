import Kakure.Lib.Fallible
import Kakure.Lib.Interpolation
import Kakure.Tss.Bjj

/-!
# Shamir sharing

`packages/sdk/src/tss/shamir.ts`: shares are values of a polynomial modulo the order of the
subgroup, and the weights of a set of identifiers interpolate it at zero.

* `cast_polyEval` — Horner's loop evaluates the polynomial;
* `lagrangeAtZero_eq`, `interpolateAtZero_eq` — the weights, and the interpolation, for identifiers
  that differ modulo the order;
* `interpolation_iff` — a repeated identifier is not what makes the interpolation fail.
-/

namespace Kakure.Tss

open Fallible Interpolation Polynomial

variable (lib : Library)

/-- `polyEval`. -/
def polyEval (coeffs : List ℤ) (x : ℤ) : ℤ :=
  let xr := modSub lib x
  coeffs.foldr (fun c acc => modSub lib (acc * xr + c)) 0

/-- One step of the loop of `lagrangeAtZero`. -/
def lagrangeStep (ir : ℤ) (acc : ℤ × ℤ) (j : ℤ) : ℤ × ℤ :=
  let jr := modSub lib j
  if jr = ir then acc
  else (modSub lib (acc.1 * jr), modSub lib (acc.2 * modSub lib (jr - ir)))

/-- `lagrangeAtZero`. -/
def lagrangeAtZero (i : ℤ) (xs : List ℤ) : Except String ℤ := do
  let ir := modSub lib i
  let (num, den) := xs.foldl (lagrangeStep lib ir) (1, 1)
  if den = 0 then .error "tss: duplicate identifier in interpolation set"
  else
    let inv ← invSub lib den
    .ok (modSub lib (num * inv))

/-- One step of the loop of `interpolateAtZero`. -/
def interpolateStep (shares : ℤ → Option ℤ) (quorum : List ℤ) (acc i : ℤ) : Except String ℤ :=
  match shares i with
  | none => .error s!"tss: missing share for identifier {i}"
  | some s => do
    let l ← lagrangeAtZero lib i quorum
    .ok (modSub lib (acc + l * s))

/-- `interpolateAtZero`. -/
def interpolateAtZero (shares : ℤ → Option ℤ) (quorum : List ℤ) : Except String ℤ :=
  quorum.foldlM (interpolateStep lib shares quorum) 0

/-- The residues of numbers. -/
def residues (q : ℕ) (xs : List ℤ) : List (ZMod q) := xs.map fun x : ℤ => (x : ZMod q)

@[simp] theorem residues_nil (q : ℕ) : residues q [] = [] := rfl

@[simp] theorem residues_cons (q : ℕ) (x : ℤ) (xs : List ℤ) :
    residues q (x :: xs) = (x : ZMod q) :: residues q xs := rfl

@[simp] theorem length_residues (q : ℕ) (xs : List ℤ) : (residues q xs).length = xs.length := List.length_map _

/-- Different members of a set of scalars. -/
theorem nodup_residues_of_subset {q : ℕ} {participants quorum : List ℤ} (hids : (residues q participants).Nodup)
    (hquorum : quorum.Nodup) (hsub : ∀ i ∈ quorum, i ∈ participants) : (residues q quorum).Nodup := by
  refine List.Nodup.map_on ?_ hquorum
  intro i hi j hj hij
  exact List.inj_on_of_nodup_map hids (hsub i hi) (hsub j hj) hij

variable {lib} (h : lib.Lawful)

include h

theorem cast_polyEval (coeffs : List ℤ) (x : ℤ) :
    ((polyEval lib coeffs x : ℤ) : ZMod subOrder) =
      (ofCoefficients (residues subOrder coeffs)).eval (x : ZMod subOrder) := by
  induction coeffs with
  | nil => simp [polyEval, ofCoefficients]
  | cons c coeffs ih =>
    rw [polyEval] at ih ⊢
    rw [List.foldr_cons, cast_modSub h, Int.cast_add, Int.cast_mul, ih, cast_modSub h]
    rw [residues_cons, eval_ofCoefficients_cons]
    ring

/-- The loop multiplies up both products over the other identifiers. -/
theorem foldl_lagrangeStep (i : ℤ) (xs : List ℤ) (acc : ℤ × ℤ) :
    ((((xs.foldl (lagrangeStep lib (modSub lib i)) acc).1 : ℤ) : ZMod subOrder) =
        acc.1 * ((residues subOrder xs).filter (· ≠ (i : ZMod subOrder))).prod) ∧
      (((xs.foldl (lagrangeStep lib (modSub lib i)) acc).2 : ℤ) : ZMod subOrder) =
        acc.2 * (((residues subOrder xs).filter (· ≠ (i : ZMod subOrder))).map
          fun y => y - (i : ZMod subOrder)).prod := by
  have hskip : ∀ (acc : ℤ × ℤ) (j : ℤ), (j : ZMod subOrder) = i → lagrangeStep lib (modSub lib i) acc j = acc :=
    fun acc j hj => if_pos ((modSub_eq_modSub_iff h j i).2 hj)
  have hstep : ∀ (acc : ℤ × ℤ) (j : ℤ), ¬ (j : ZMod subOrder) = i →
      (((lagrangeStep lib (modSub lib i) acc j).1 : ℤ) : ZMod subOrder) = acc.1 * j ∧
        (((lagrangeStep lib (modSub lib i) acc j).2 : ℤ) : ZMod subOrder) = acc.2 * (j - i) := by
    intro acc j hj
    have hne : modSub lib j ≠ modSub lib i := mt (modSub_eq_modSub_iff h j i).1 hj
    rw [lagrangeStep, if_neg hne]
    simp only [cast_modSub h, Int.cast_mul, Int.cast_sub, and_self]
  obtain ⟨hnum, hden⟩ := foldl_products hskip hstep xs acc
  rw [hnum, hden, residues, List.filter_map, List.map_map]
  exact ⟨rfl, rfl⟩

/-- The weight of an identifier in a set. -/
theorem lagrangeAtZero_eq (i : ℤ) (xs : List ℤ) : ∃ l, lagrangeAtZero lib i xs = .ok l ∧
    (l : ZMod subOrder) = weight (residues subOrder xs) (i : ZMod subOrder) := by
  obtain ⟨hnum, hden⟩ := foldl_lagrangeStep h i xs (1, 1)
  rw [lagrangeAtZero]
  cases hfold : xs.foldl (lagrangeStep lib (modSub lib i)) (1, 1) with
  | mk num den =>
  rw [hfold, Int.cast_one, one_mul] at hnum hden
  have hne : (den : ZMod subOrder) ≠ 0 := by
    rw [hden]
    refine List.prod_ne_zero ?_
    simp [sub_eq_zero]
  have hzero : den ≠ 0 := by
    rintro rfl
    exact hne Int.cast_zero
  obtain ⟨inv, hinv, hcast⟩ := invSub_eq h hne
  refine ⟨modSub lib (num * inv), ?_, ?_⟩
  · simp only [if_neg hzero]
    exact bind_of_ok hinv _
  · rw [cast_modSub h, Int.cast_mul, hcast, hnum, hden, weight_eq_div]
    rfl

/-- Every value of `interpolateAtZero` is the interpolation of the shares it finds. -/
theorem interpolateAtZero_eq {shares : ℤ → Option ℤ} {value : ℤ → ℤ} {quorum : List ℤ}
    (hshares : ∀ i ∈ quorum, shares i = some (value i)) {f : (ZMod subOrder)[X]}
    (hvalue : ∀ i ∈ quorum, (value i : ZMod subOrder) = f.eval (i : ZMod subOrder))
    (hnodup : (residues subOrder quorum).Nodup) (hdegree : f.degree < quorum.length) :
    ∃ s, interpolateAtZero lib shares quorum = .ok s ∧ 0 ≤ s ∧ s < subOrder ∧
      (s : ZMod subOrder) = f.eval 0 := by
  choose l hl hcast using fun i => lagrangeAtZero_eq h i quorum
  have hstep : ∀ i ∈ quorum, ∀ acc, interpolateStep lib shares quorum acc i =
      .ok (modSub lib (acc + l i * value i)) := by
    intro i hi acc
    rw [interpolateStep, hshares i hi]
    exact bind_of_ok (hl i) _
  have hsum : ∀ (is : List ℤ) (acc : ℤ), (∀ i ∈ is, i ∈ quorum) →
      ((is.foldl (fun acc i => modSub lib (acc + l i * value i)) acc : ℤ) : ZMod subOrder) = acc +
        ((residues subOrder is).map fun x => weight (residues subOrder quorum) x * f.eval x).sum := by
    intro is
    induction is with
    | nil => simp
    | cons i is ih =>
      intro acc hmem
      rw [List.foldl_cons, ih _ fun j hj => hmem j (List.mem_cons_of_mem i hj)]
      rw [cast_modSub h, Int.cast_add, Int.cast_mul, hcast, hvalue i (hmem i List.mem_cons_self)]
      rw [residues_cons, List.map_cons, List.sum_cons, add_assoc]
  refine ⟨_, foldlM_eq_ok hstep 0, ?_, ?_, ?_⟩
  · cases quorum using List.reverseRecOn with
    | nil => exact le_rfl
    | append_singleton is i =>
      rw [List.foldl_append]
      exact modSub_nonneg h _
  · cases quorum using List.reverseRecOn with
    | nil => exact Int.natCast_pos.2 subOrder_pos
    | append_singleton is i =>
      rw [List.foldl_append]
      exact modSub_lt h _
  · rw [hsum quorum 0 fun i hi => hi, Int.cast_zero, zero_add]
    refine sum_weight_mul_eval hnodup ?_
    rw [length_residues]
    exact hdegree

/-! ## Repeated identifiers -/

/-- A part of the loop fails exactly when it meets an identifier that has no share: the weights never
fail, since the loop behind them leaves out every identifier equal to its own. -/
theorem foldlM_interpolateStep_error_iff (shares : ℤ → Option ℤ) (quorum is : List ℤ) (acc : ℤ) :
    (∃ e, is.foldlM (interpolateStep lib shares quorum) acc = .error e) ↔ ∃ i ∈ is, shares i = none := by
  induction is generalizing acc with
  | nil =>
    constructor
    · rintro ⟨e, he⟩
      cases he
    · rintro ⟨i, hi, -⟩
      cases hi
  | cons i is ih =>
    rw [List.foldlM_cons]
    cases hi : shares i with
    | none =>
      have herror : interpolateStep lib shares quorum acc i =
          .error s!"tss: missing share for identifier {i}" := by
        rw [interpolateStep, hi]
      rw [bind_of_error herror]
      exact ⟨fun _ => ⟨i, List.mem_cons_self, hi⟩, fun _ => ⟨_, rfl⟩⟩
    | some s =>
      obtain ⟨l, hl, -⟩ := lagrangeAtZero_eq h i quorum
      have hok : interpolateStep lib shares quorum acc i = .ok (modSub lib (acc + l * s)) := by
        rw [interpolateStep, hi]
        exact bind_of_ok hl _
      rw [bind_of_ok hok, ih]
      simp [hi]

theorem interpolateAtZero_error_iff (shares : ℤ → Option ℤ) (quorum : List ℤ) :
    (∃ e, interpolateAtZero lib shares quorum = .error e) ↔ ∃ i ∈ quorum, shares i = none :=
  foldlM_interpolateStep_error_iff h shares quorum quorum 0

/-- The shares of a polynomial of degree below `t` interpolate at zero, for every quorum of `t` or more
participants with different identifiers; that a quorum with a repeated identifier is refused is so
only for one that is refused for want of a share. -/
theorem interpolation_iff {participants : List ℤ} {shares : ℤ → Option ℤ} {f : (ZMod subOrder)[X]}
    {t : ℕ} (hdegree : f.degree < t)
    (hshares : ∀ i ∈ participants, ∃ v : ℤ, shares i = some v ∧
      (v : ZMod subOrder) = f.eval (i : ZMod subOrder)) (quorum : List ℤ) :
    (((∀ i ∈ quorum, i ∈ participants) → t ≤ quorum.length → (residues subOrder quorum).Nodup →
        (∀ i ∈ quorum, (i : ZMod subOrder) ≠ 0) →
        interpolateAtZero lib shares quorum = .ok ((f.eval 0).val : ℤ)) ∧
      (¬ quorum.Nodup → ∃ e, interpolateAtZero lib shares quorum = .error e)) ↔
    quorum.Nodup ∨ ∃ i ∈ quorum, shares i = none := by
  rw [interpolateAtZero_error_iff h]
  constructor
  · rintro ⟨-, hrepeated⟩
    exact or_iff_not_imp_left.2 hrepeated
  · intro hcond
    refine ⟨fun hsub ht hnodup _ => ?_, or_iff_not_imp_left.1 hcond⟩
    choose! value hvalue hcast using hshares
    obtain ⟨s, hs, hnonneg, hlt, heval⟩ := interpolateAtZero_eq h
      (fun i hi => hvalue i (hsub i hi)) (fun i hi => hcast i (hsub i hi)) hnodup
      (hdegree.trans_le (by exact_mod_cast ht))
    rw [hs, ← heval, ZMod.val_intCast, Int.emod_eq_of_lt hnonneg hlt]

omit h

/-- A constant of 5 shared among two participants. -/
theorem fives_share : ∀ i ∈ [(1 : ℤ), 2], ∃ v : ℤ, (fun _ => some 5 : ℤ → Option ℤ) i = some v ∧
    (v : ZMod subOrder) = (C (5 : ZMod subOrder)).eval (i : ZMod subOrder) := by
  intro i _
  exact ⟨5, rfl, by rw [eval_C, Int.cast_ofNat]⟩

/-- Both shares give the constant back. -/
theorem interpolation_fives : interpolateAtZero Library.reference (fun _ => some 5) [1, 2] =
    .ok (((C (5 : ZMod subOrder)).eval 0).val : ℤ) := by
  have htwo : ((2 : ℤ) : ZMod subOrder) ≠ 0 := by
    rw [ne_eq, ZMod.intCast_zmod_eq_zero_iff_dvd]
    norm_num [subOrder]
  have hdiff : ((1 : ℤ) : ZMod subOrder) ≠ ((2 : ℤ) : ZMod subOrder) := by
    rw [ne_eq, ZMod.intCast_eq_intCast_iff_dvd_sub]
    norm_num [subOrder]
  exact ((interpolation_iff Library.reference_lawful (t := 1) (degree_C_lt.trans_le le_rfl) fives_share
    [1, 2]).2 (Or.inl (by decide))).1 (fun i hi => hi) (by decide)
    (by simpa using hdiff) (by simpa using htwo)

/-- A quorum that names participant 1 twice gets a value. -/
theorem repeated_interpolates : ¬ ∀ quorum : List ℤ, ¬ quorum.Nodup →
    ∃ e, interpolateAtZero Library.reference (fun _ => some 5) quorum = .error e := by
  intro hall
  have herror := hall [1, 1] (by decide)
  rw [interpolateAtZero_error_iff Library.reference_lawful] at herror
  obtain ⟨i, -, hnone⟩ := herror
  cases hnone

end Kakure.Tss
