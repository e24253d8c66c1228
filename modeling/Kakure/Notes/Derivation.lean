import Kakure.Lib.Text
import Kakure.Notes.Keys

/-!
# Derived scalars

How the scalars of an account and of a group follow from their view secrets: `crypto/Kdf.ts`,
`crypto/fields.ts`, and the derivations of `note/keys.ts` and `frost/multisigNote.ts`.  The hash is a
parameter.
-/

namespace Kakure.Notes

open Slices

/-- `toBjjScalar`. -/
def toBjjScalar (fr : Fr) : Fr := ((fr.val % subOrder : ℕ) : Fr)

section Derivation

variable (hash : List Fr → Fr)

/-- `stringToFr`, of a label of at most 32 characters. -/
def stringToFr (text : String) : Fr := hash [(beNat (Text.asciiBytes text.toList) : Fr)]

/-- `Kdf.derive`. -/
def kdfDerive (purpose : String) (master : Fr) (nonce : Option Fr) : Fr :=
  match nonce with
  | none => hash [master, stringToFr hash purpose]
  | some n => if n = 0 then hash [master, stringToFr hash purpose] else hash [master, stringToFr hash purpose, n]

/-- `deriveIncomingKey`. -/
def deriveIncomingKey (skView : Fr) (index : ℕ) : Fr :=
  toBjjScalar (kdfDerive hash "kakure.inKey" skView (some (index : Fr)))

/-- `deriveSelfEphemeral`. -/
def deriveSelfEphemeral (skView : Fr) (index : ℕ) : Fr :=
  toBjjScalar (kdfDerive hash "kakure.selfEph" skView (some (index : Fr)))

/-- `deriveSelfSpendKey`. -/
def deriveSelfSpendKey (skView : Fr) : Fr := toBjjScalar (kdfDerive hash "kakure.selfSpend" skView none)

/-- `deriveSelfEph` of a member of a group. -/
def deriveSelfEph (v : Fr) (memberId j : ℕ) : Fr :=
  toBjjScalar (kdfDerive hash "kakure.msSelfEph" v (some (hash [(memberId : Fr), (j : Fr)])))

/-- `deriveMultisigIncomingKey`. -/
def deriveMultisigIncomingKey (v : Fr) (index : ℕ) : Fr :=
  toBjjScalar (kdfDerive hash "kakure.msInKey" v (some (index : Fr)))

end Derivation

theorem val_toBjjScalar (fr : Fr) : (toBjjScalar fr).val = fr.val % subOrder := by
  have hlt : fr.val % subOrder < bn254ScalarFieldModulus :=
    lt_trans (Nat.mod_lt _ prime_subOrder.pos) (by norm_num [subOrder, bn254ScalarFieldModulus])
  exact val_natCast_of_lt hlt

/-- A derived scalar is reduced. -/
theorem toBjjScalar_lt (fr : Fr) : (toBjjScalar fr).val < subOrder := by
  rw [val_toBjjScalar]
  exact Nat.mod_lt _ prime_subOrder.pos

theorem toBjjScalar_of_lt {fr : Fr} (h : fr.val < subOrder) : toBjjScalar fr = fr := by
  rw [toBjjScalar, Nat.mod_eq_of_lt h, ZMod.natCast_zmod_val]

end Kakure.Notes
