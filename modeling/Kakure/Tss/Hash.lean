import Kakure.Lib.Fallible
import Kakure.Tss.Bjj

/-!
# Hashing to a scalar

`packages/sdk/src/tss/hashToScalar.ts`, with the permutation-based hash of the field as a
parameter: the SDK and the circuits both take it from a library.

* `poseidon2_eq` — on numbers of the field the SDK's hash is the hash of the field.
-/

namespace Kakure.Tss

open Fallible

/-- `new Fr(value)`, which refuses what is not the number of a field element. -/
def newFr (value : ℤ) : Except String Fr :=
  if 0 ≤ value ∧ value < bn254ScalarFieldModulus then .ok (value : Fr)
  else .error s!"Value {value} is greater or equal to field modulus."

theorem newFr_eq {value : ℤ} (h : 0 ≤ value) (hlt : value < bn254ScalarFieldModulus) :
    newFr value = .ok (value : Fr) := if_pos ⟨h, hlt⟩

/-- The numbers of field elements are accepted. -/
theorem newFr_val (x : Fr) : newFr (x.val : ℤ) = .ok x := by
  rw [newFr_eq (Int.natCast_nonneg _) (Int.ofNat_lt.2 (ZMod.val_lt x)), Int.cast_natCast, ZMod.natCast_zmod_val]

theorem mapM_newFr {inputs : List ℤ} (h : ∀ x ∈ inputs, 0 ≤ x ∧ x < bn254ScalarFieldModulus) :
    inputs.mapM newFr = .ok (inputs.map fun x : ℤ => (x : Fr)) :=
  mapM_eq_ok fun x hx => newFr_eq (h x hx).1 (h x hx).2

variable (poseidon : List Fr → Fr) (lib : Library)

/-- `poseidon2`. -/
def poseidon2 (inputs : List ℤ) : Except String ℤ := do
  let fields ← inputs.mapM newFr
  if fields = [] then .error "Poseidon hash requires at least one input."
  else .ok (poseidon fields).val

/-- `hashToScalar`. -/
def hashToScalar (domain : ℤ) (inputs : List ℤ) : Except String ℤ := do
  let high ← poseidon2 poseidon ([domain] ++ inputs ++ [0])
  let low ← poseidon2 poseidon ([domain] ++ inputs ++ [1])
  .ok ((high * 2 ^ 254 + low).tmod lib.subOrder)

theorem poseidon2_eq {x : ℤ} {inputs : List ℤ}
    (h : ∀ y ∈ x :: inputs, 0 ≤ y ∧ y < bn254ScalarFieldModulus) :
    poseidon2 poseidon (x :: inputs) = .ok (poseidon ((x :: inputs).map fun y : ℤ => (y : Fr))).val := by
  rw [poseidon2, mapM_newFr h]
  rfl

/-- What is hashed are numbers of the field. -/
theorem range_of_poseidon2 {inputs : List ℤ} {v : ℤ} (h : poseidon2 poseidon inputs = .ok v) :
    ∀ x ∈ inputs, 0 ≤ x ∧ x < bn254ScalarFieldModulus := by
  obtain ⟨fields, hfields, -⟩ := bind_eq_ok.1 h
  intro x hx
  obtain ⟨y, hy⟩ := exists_of_forall₂ (forall_of_mapM hfields) hx
  by_contra hrange
  rw [newFr, if_neg hrange] at hy
  cases hy

theorem poseidon2_nonneg {inputs : List ℤ} {v : ℤ} (h : poseidon2 poseidon inputs = .ok v) : 0 ≤ v := by
  rw [poseidon2, bind_eq_ok] at h
  obtain ⟨fields, -, h⟩ := h
  split at h
  · cases h
  · cases h
    exact Int.natCast_nonneg _

/-- A hash is a scalar. -/
theorem hashToScalar_range {lib : Library} (h : lib.Lawful) {domain s : ℤ} {inputs : List ℤ}
    (hs : hashToScalar poseidon lib domain inputs = .ok s) : 0 ≤ s ∧ s < subOrder := by
  rw [hashToScalar, bind_eq_ok] at hs
  obtain ⟨high, hhigh, hs⟩ := hs
  rw [bind_eq_ok] at hs
  obtain ⟨low, hlow, hs⟩ := hs
  cases hs
  have hnonneg : 0 ≤ high * 2 ^ 254 + low := by
    have := poseidon2_nonneg poseidon hhigh
    have := poseidon2_nonneg poseidon hlow
    positivity
  have hpos : (0 : ℤ) < Kakure.subOrder := by exact_mod_cast subOrder_pos
  rw [Int.tmod_eq_emod_of_nonneg hnonneg, h.subOrder]
  exact ⟨Int.emod_nonneg _ hpos.ne', Int.emod_lt_of_pos _ hpos⟩

/-- It is defined on numbers of the field. -/
theorem hashToScalar_isOk {domain : ℤ} {inputs : List ℤ}
    (h : ∀ x ∈ domain :: inputs, 0 ≤ x ∧ x < bn254ScalarFieldModulus) :
    ∃ s, hashToScalar poseidon lib domain inputs = .ok s := by
  have hlast : ∀ last : ℤ, 0 ≤ last ∧ last < bn254ScalarFieldModulus →
      ∀ x ∈ domain :: (inputs ++ [last]), 0 ≤ x ∧ x < bn254ScalarFieldModulus := by
    intro last hlast x hx
    rw [← List.cons_append, List.mem_append, List.mem_singleton] at hx
    rcases hx with hx | rfl
    · exact h x hx
    · exact hlast
  rw [hashToScalar, List.singleton_append, List.cons_append, List.cons_append]
  rw [poseidon2_eq poseidon (hlast 0 (by norm_num [bn254ScalarFieldModulus])),
    poseidon2_eq poseidon (hlast 1 (by norm_num [bn254ScalarFieldModulus]))]
  exact ⟨_, rfl⟩

end Kakure.Tss
