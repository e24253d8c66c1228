import Kakure.Circuits.Inclusion
import Kakure.Circuits.Mint

/-!
# Spending in the circuits

`circuits/shared/src/spend.nr`: the nullifier and the root of a note that is spent, by the owner of a scalar or
by a group.  Both hashes are parameters.

* `verifySpend_nullifier`, `openMultisigNote_nullifier` — the nullifier is the one of `psi` and the index.
-/

namespace Kakure.Circuit

open Notes

/-- `TREE_DEPTH`. -/
def treeDepth : ℕ := 32

variable (poseidon : Fr → Fr → Fr → Fr) (poseidon2 : List Fr → Fr)

/-- `spend_membership_nullifier`. -/
def spendMembershipNullifier (note : Note) (leafIndex : Fr) (path : Fin treeDepth → Fr) : Option (Fr × Fr) := do
  guard (note.1.noteVersion = noteVersion)
  assertAssetId note.1.assetId
  let computedRoot ← leanImtInclusionProof poseidon (note.leaf poseidon2) leafIndex path
  some (nullifier poseidon2 note.1.psi leafIndex, computedRoot)

/-- `verify_spend`. -/
def verifySpend (note : Note) (spendScalar leafIndex : Fr) (path : Fin treeDepth → Fr) : Option (Fr × Fr) := do
  assertSubgroupScalar spendScalar
  let pk ← derivePublicKey spendScalar
  guard (note.1.owner = pubkeyOwner poseidon2 pk)
  guard (note.1.noteType = noteTypeStandard)
  spendMembershipNullifier poseidon poseidon2 note leafIndex path

/-- `open_multisig_note`. -/
def openMultisigNote (note : Note) (gpk : Point) (leafIndex : Fr) (path : Fin treeDepth → Fr) :
    Option (Fr × Fr) := do
  let gpkEd ← Point.new gpk.x gpk.y
  assertInPrimeSubgroup gpk
  guard ¬ gpkEd.isZero
  guard (note.1.owner = pubkeyOwner poseidon2 gpk)
  guard (note.1.noteType = noteTypeMultisig)
  spendMembershipNullifier poseidon poseidon2 note leafIndex path

variable {poseidon : Fr → Fr → Fr → Fr} {poseidon2 : List Fr → Fr} {note : Note} {leafIndex nf root : Fr}
  {path : Fin treeDepth → Fr}

theorem spendMembershipNullifier_nullifier
    (h : spendMembershipNullifier poseidon poseidon2 note leafIndex path = some (nf, root)) :
    nf = computeNullifier poseidon2 note.1.psi leafIndex := by
  unfold spendMembershipNullifier at h
  simp only [bind_eq_some, guard_eq_some, exists_and_left, exists_const] at h
  obtain ⟨-, _, -, _, -, h⟩ := h
  cases h
  rfl

theorem verifySpend_nullifier {spendScalar : Fr}
    (h : verifySpend poseidon poseidon2 note spendScalar leafIndex path = some (nf, root)) :
    nf = computeNullifier poseidon2 note.1.psi leafIndex := by
  unfold verifySpend at h
  simp only [bind_eq_some, guard_eq_some, exists_and_left, exists_const] at h
  obtain ⟨_, -, _, -, -, -, h⟩ := h
  exact spendMembershipNullifier_nullifier h

theorem openMultisigNote_nullifier {gpk : Point}
    (h : openMultisigNote poseidon poseidon2 note gpk leafIndex path = some (nf, root)) :
    nf = computeNullifier poseidon2 note.1.psi leafIndex := by
  unfold openMultisigNote at h
  simp only [bind_eq_some, guard_eq_some, exists_and_left, exists_const] at h
  obtain ⟨_, -, _, -, -, -, -, h⟩ := h
  exact spendMembershipNullifier_nullifier h

end Kakure.Circuit
