import Kakure.Lib.Slices

/-!
# The BN254 scalar field and its 32-byte encoding

Noir's `Field`, the SDK's `Fr` and the bigints of the indexer are all elements of
the BN254 scalar field.  On chain such an element is its 32-byte big-endian
encoding, and a 32-byte array is *canonical* when its value is below the modulus.
-/

namespace Kakure

open Slices

/-- `BN254_SCALAR_FIELD_MODULUS`. -/
def bn254ScalarFieldModulus : ℕ :=
  21888242871839275222246405745257275088548364400416034343698204186575808495617

instance : NeZero bn254ScalarFieldModulus := ⟨by norm_num [bn254ScalarFieldModulus]⟩

instance : Fact (1 < bn254ScalarFieldModulus) := ⟨by norm_num [bn254ScalarFieldModulus]⟩

/-- A field element: Noir's `Field`, the SDK's `Fr`. -/
abbrev Fr := ZMod bn254ScalarFieldModulus

/-! ## Literals

The constants that several packages write in the field. Each has the proof that it is at least two as a
constant, so that a literal is one term in every module. -/

scoped instance literalTwo : Nat.AtLeastTwo 2 := ⟨by norm_num⟩

scoped instance literalThree : Nat.AtLeastTwo 3 := ⟨by norm_num⟩

scoped instance literalFour : Nat.AtLeastTwo 4 := ⟨by norm_num⟩

scoped instance literalFive : Nat.AtLeastTwo 5 := ⟨by norm_num⟩

scoped instance literalSeven : Nat.AtLeastTwo 7 := ⟨by norm_num⟩

scoped instance literalNine : Nat.AtLeastTwo 9 := ⟨by norm_num⟩

scoped instance literalFifteen : Nat.AtLeastTwo 15 := ⟨by norm_num⟩

scoped instance literalSixteen : Nat.AtLeastTwo 16 := ⟨by norm_num⟩

scoped instance literalA : Nat.AtLeastTwo 168700 := ⟨by norm_num⟩

scoped instance literalD : Nat.AtLeastTwo 168696 := ⟨by norm_num⟩

scoped instance literalBaseX :
    Nat.AtLeastTwo 5299619240641551281634865583518297030282874472190772894086521144482721001553 :=
  ⟨by norm_num⟩

scoped instance literalBaseY :
    Nat.AtLeastTwo 16950150798460657717958625567821834550301663161624707787222815936182638968203 :=
  ⟨by norm_num⟩

scoped instance literalTransfer :
    Nat.AtLeastTwo 9624046651210114118368372030655974117312882557386278324440779205771319188317 :=
  ⟨by norm_num⟩

/-- Membership in a list of field elements is decided by their equality. -/
scoped instance lawfulBEqFr : LawfulBEq Fr := inferInstance

theorem modulus_lt : bn254ScalarFieldModulus < 256 ^ 32 := by norm_num [bn254ScalarFieldModulus]

theorem two_pow_128_lt_modulus : 2 ^ 128 < bn254ScalarFieldModulus := by
  norm_num [bn254ScalarFieldModulus]

/-- A number below the modulus is the value of its field element. -/
theorem val_natCast_of_lt {n : ℕ} (h : n < bn254ScalarFieldModulus) : ((n : Fr)).val = n := by
  rw [ZMod.val_natCast, Nat.mod_eq_of_lt h]

/-- The 32-byte big-endian encoding of a field element. -/
def Fr.toBytes (x : Fr) : Bytes 32 := beBytes 32 x.val

/-- The field element a canonical 32-byte array encodes. -/
def Fr.ofBytes? (b : Bytes 32) : Option Fr :=
  if beNat b.val < bn254ScalarFieldModulus then some (beNat b.val : Fr) else none

/-- A 32-byte array whose value is below the modulus. -/
def Canonical (b : Bytes 32) : Prop := beNat b.val < bn254ScalarFieldModulus

instance (b : Bytes 32) : Decidable (Canonical b) := inferInstanceAs (Decidable (_ < _))

@[simp] theorem beNat_toBytes (x : Fr) : beNat x.toBytes.val = x.val :=
  beNat_beBytes (lt_trans (ZMod.val_lt x) modulus_lt)

theorem canonical_toBytes (x : Fr) : Canonical x.toBytes := by
  rw [Canonical, beNat_toBytes]
  exact ZMod.val_lt x

@[simp] theorem ofBytes?_toBytes (x : Fr) : Fr.ofBytes? x.toBytes = some x := by
  rw [Fr.ofBytes?, beNat_toBytes, if_pos (ZMod.val_lt x), ZMod.natCast_zmod_val]

theorem toBytes_injective : Function.Injective Fr.toBytes := by
  intro x y h
  have := congrArg Fr.ofBytes? h
  simpa using this

/-- The arrays that decode are exactly the encodings. -/
theorem ofBytes?_eq_some_iff {b : Bytes 32} {x : Fr} : Fr.ofBytes? b = some x ↔ b = x.toBytes := by
  constructor
  · intro h
    rw [Fr.ofBytes?] at h
    split at h
    · rename_i hlt
      rw [Option.some_inj] at h
      rw [← h]
      refine beNat_injective ?_
      rw [beNat_toBytes, val_natCast_of_lt hlt]
    · cases h
  · rintro rfl
    exact ofBytes?_toBytes x

/-- Every canonical array is the encoding of a field element. -/
theorem Canonical.exists_toBytes {b : Bytes 32} (h : Canonical b) : ∃ x : Fr, b = x.toBytes :=
  ⟨(beNat b.val : Fr), ofBytes?_eq_some_iff.1 (if_pos h)⟩

@[simp] theorem toBytes_eq_zero_iff (x : Fr) : x.toBytes = Bytes.zero 32 ↔ x = 0 := by
  rw [← beNat_eq_zero_iff, beNat_toBytes, ZMod.val_eq_zero]

/-! ## The tree hash -/

/-- The hash of a tree node, `poseidon_v1([left, right, level])`, Poseidon being a parameter. -/
def nodeHash (poseidon : Fr → Fr → Fr → Fr) (left right : Fr) (level : ℕ) : Fr :=
  poseidon left right level

end Kakure
