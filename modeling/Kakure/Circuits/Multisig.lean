import Kakure.Circuits.Frost
import Kakure.Circuits.Standard

/-!
# The multisig circuits

`main` of the circuits of `circuits/multisig/`, and the messages of `circuits/shared/src/multisig/frost.nr` that a
quorum signs for them.  The hashes are parameters; a failing assert is `none`.

* `MultisigWitness.main_signed` — a witness that is accepted carries signatures of its message;
* `quorum_binding` — the message determines all that the circuit makes public.
-/

namespace Kakure.Circuit

open Notes

section Main

variable (poseidon : Fr → Fr → Fr → Fr) (poseidon2 : List Fr → Fr)

/-! ## Messages -/

/-- `ACTION_WITHDRAW`. -/
def actionWithdraw : Fr := 0x61c32c849432c5cb181c8aff85b048edfe720f4d14f9330a19892e6b3f2858e

/-- `ACTION_TRANSFER`. -/
def actionTransfer : Fr := 0x1547047254eb19dda78a0a366ebb6a91dc073c5396d00f1d32a4afbea2ca1b5d

/-- `ACTION_SPLIT`. -/
def actionSplit : Fr := 0xda9aecde0fd0366b1cc6070cd943bffd9cdc2bece458fe66a67881019937b18

/-- `ACTION_JOIN`. -/
def actionJoin : Fr := 0x8d2a589888a5903aeb21e14836db1b3d9adb31de0dd29fb5103978815f30223

/-- `msg_withdraw`. -/
def msgWithdraw (root nullifier changeLeaf publicOut asset recipient intentHash : Fr) : Fr :=
  poseidon2 [actionWithdraw, root, nullifier, changeLeaf, publicOut, asset, recipient, intentHash]

/-- `msg_transfer`. -/
def msgTransfer (root nullifier memoLeaf memoTag changeLeaf asset : Fr) : Fr :=
  poseidon2 [actionTransfer, root, nullifier, memoLeaf, memoTag, changeLeaf, asset]

/-- `msg_split`. -/
def msgSplit (root nullifier out1Leaf out2Leaf asset : Fr) : Fr :=
  poseidon2 [actionSplit, root, nullifier, out1Leaf, out2Leaf, asset]

/-- `msg_join`. -/
def msgJoin (root nullifierA nullifierB outLeaf asset : Fr) : Fr :=
  poseidon2 [actionJoin, root, nullifierA, nullifierB, outLeaf, asset]

/-! ## Circuits -/

/-- `main` of the transfer by a group. -/
def transferMultisigMain (compliancePubkeyX compliancePubkeyY : Fr) (gpk frostR : Point) (frostZ : Fr)
    (recipientSpendPub recipientViewPub : Point) (oldNote : Note) (oldNoteIndex : Fr)
    (oldNotePath : Fin treeDepth → Fr) (memoNote : Note) (memoEph : Fr) (changeNote : Note) (changeEph : Fr) :
    Option (Fr × Fr × Fr × Fr × Fr × Fr × List Fr × Fr × Fr × List Fr) := do
  let compliancePk : Point := ⟨compliancePubkeyX, compliancePubkeyY⟩
  assertValidCompliancePk compliancePk
  let (nf, computedRoot) ← openMultisigNote poseidon poseidon2 oldNote gpk oldNoteIndex oldNotePath
  guard (oldNote.1.assetId = memoNote.1.assetId)
  guard (oldNote.1.assetId = changeNote.1.assetId)
  guard (memoEph ≠ changeEph)
  assertConserved [oldNote.amount] [memoNote.amount, changeNote.amount] ⟨0, zero_lt_u128⟩
  guard (memoNote.1.parents = parentsHidden)
  assertParentsBound changeNote oldNoteIndex 0
  let memo ← mintIncomingNote poseidon2 memoNote memoEph compliancePk recipientSpendPub recipientViewPub
  let change ← mintSelfNoteMultisig poseidon2 changeNote changeEph compliancePk gpk
  let m := msgTransfer poseidon2 computedRoot nf memo.leaf memo.tag change.leaf oldNote.1.assetId
  verifyFrostSpend poseidon2 gpk frostR frostZ m
  some (nf, computedRoot, memo.leaf, memo.ephPub.x, memo.tag, memo.cekWrap, memo.ciphertext, change.leaf,
    change.ephPub.x, change.ciphertext)

/-- `main` of the split. -/
def splitMultisigMain (compliancePubkeyX compliancePubkeyY : Fr) (gpk frostR : Point) (frostZ : Fr) (noteIn : Note)
    (indexIn : Fr) (pathIn : Fin treeDepth → Fr) (noteOut1 : Note) (eph1 : Fr) (noteOut2 : Note) (eph2 : Fr) :
    Option (Fr × Fr × Fr × Fr × List Fr × Fr × Fr × List Fr) := do
  let compliancePk : Point := ⟨compliancePubkeyX, compliancePubkeyY⟩
  assertValidCompliancePk compliancePk
  let (nf, computedRoot) ← openMultisigNote poseidon poseidon2 noteIn gpk indexIn pathIn
  guard (noteIn.1.assetId = noteOut1.1.assetId)
  guard (noteIn.1.assetId = noteOut2.1.assetId)
  guard (eph1 ≠ eph2)
  assertConserved [noteIn.amount] [noteOut1.amount, noteOut2.amount] ⟨0, zero_lt_u128⟩
  assertParentsBound noteOut1 indexIn 0
  assertParentsBound noteOut2 indexIn 0
  let out1 ← mintSelfNoteMultisig poseidon2 noteOut1 eph1 compliancePk gpk
  let out2 ← mintSelfNoteMultisig poseidon2 noteOut2 eph2 compliancePk gpk
  let m := msgSplit poseidon2 computedRoot nf out1.leaf out2.leaf noteIn.1.assetId
  verifyFrostSpend poseidon2 gpk frostR frostZ m
  some (nf, computedRoot, out1.leaf, out1.ephPub.x, out1.ciphertext, out2.leaf, out2.ephPub.x, out2.ciphertext)

/-- `main` of the join. -/
def joinMultisigMain (compliancePubkeyX compliancePubkeyY : Fr) (gpkA frostRA : Point) (frostZA : Fr) (noteA : Note)
    (indexA : Fr) (pathA : Fin treeDepth → Fr) (gpkB frostRB : Point) (frostZB : Fr) (noteB : Note) (indexB : Fr)
    (pathB : Fin treeDepth → Fr) (noteOut : Note) (ephOut : Fr) : Option (Fr × Fr × Fr × Fr × Fr × List Fr) := do
  let compliancePk : Point := ⟨compliancePubkeyX, compliancePubkeyY⟩
  assertValidCompliancePk compliancePk
  let (nullifierA, rootA) ← openMultisigNote poseidon poseidon2 noteA gpkA indexA pathA
  let (nullifierB, rootB) ← openMultisigNote poseidon poseidon2 noteB gpkB indexB pathB
  guard (rootA = rootB)
  guard (nullifierA ≠ nullifierB)
  guard (asU32 indexA < asU32 indexB)
  guard (gpkA.x = gpkB.x ∧ gpkA.y = gpkB.y)
  guard (noteA.1.assetId = noteB.1.assetId)
  guard (noteA.1.assetId = noteOut.1.assetId)
  assertConserved [noteA.amount, noteB.amount] [noteOut.amount] ⟨0, zero_lt_u128⟩
  assertParentsBound noteOut indexA indexB
  let out ← mintSelfNoteMultisig poseidon2 noteOut ephOut compliancePk gpkA
  let m := msgJoin poseidon2 rootA nullifierA nullifierB out.leaf noteA.1.assetId
  verifyFrostSpend poseidon2 gpkA frostRA frostZA m
  verifyFrostSpend poseidon2 gpkB frostRB frostZB m
  some (nullifierA, nullifierB, rootA, out.leaf, out.ephPub.x, out.ciphertext)

/-- `main` of the withdrawal by a group. -/
def withdrawMultisigMain (withdrawValue : U128) (recipient intentHash compliancePubkeyX compliancePubkeyY : Fr)
    (gpk frostR : Point) (frostZ : Fr) (oldNote : Note) (oldNoteIndex : Fr) (oldNotePath : Fin treeDepth → Fr)
    (changeNote : Note) (changeEph : Fr) : Option (Fr × Fr × Fr × Fr × Fr × List Fr) := do
  let compliancePk : Point := ⟨compliancePubkeyX, compliancePubkeyY⟩
  assertValidCompliancePk compliancePk
  let (nf, computedRoot) ← openMultisigNote poseidon poseidon2 oldNote gpk oldNoteIndex oldNotePath
  guard (oldNote.1.assetId = changeNote.1.assetId)
  assertConserved [oldNote.amount] [changeNote.amount] withdrawValue
  assertParentsBound changeNote oldNoteIndex 0
  let change ← mintSelfNoteMultisig poseidon2 changeNote changeEph compliancePk gpk
  let m := msgWithdraw poseidon2 computedRoot nf change.leaf (withdrawValue.1 : Fr) oldNote.1.assetId recipient intentHash
  verifyFrostSpend poseidon2 gpk frostR frostZ m
  some (nf, computedRoot, oldNote.1.assetId, change.leaf, change.ephPub.x, change.ciphertext)

/-! ## Witnesses -/

/-- A note that a group spends, with the signature for it. -/
structure GroupSpend where
  gpk : Point
  frostR : Point
  frostZ : Fr
  note : Note
  index : Fr
  path : Fin treeDepth → Fr

/-- A note that is minted, with its ephemeral scalar. -/
structure Output where
  note : Note
  eph : Fr

/-- The lists that a mint hashes for the leaf and for `psi`. -/
def Output.hashed (compliancePk : Point) (o : Output) : Set (List Fr) :=
  {l | l = o.note.1.preimage ∨ ∃ cek, deriveCek o.eph compliancePk = some cek ∧ l = [cek, psiDomain]}

/-- What a prover hands to one of the four circuits, the compliance key apart. -/
inductive MultisigWitness where
  | transfer (spend : GroupSpend) (recipientSpendPub recipientViewPub : Point) (memo change : Output)
  | split (spend : GroupSpend) (out1 out2 : Output)
  | join (spendA spendB : GroupSpend) (out : Output)
  | withdraw (withdrawValue : U128) (recipient intentHash : Fr) (spend : GroupSpend) (change : Output)

/-- What a proof makes public, the compliance key apart: the public parameters and what `main` returns. -/
inductive MultisigPublic where
  | transfer (out : Fr × Fr × Fr × Fr × Fr × Fr × List Fr × Fr × Fr × List Fr)
  | split (out : Fr × Fr × Fr × Fr × List Fr × Fr × Fr × List Fr)
  | join (out : Fr × Fr × Fr × Fr × Fr × List Fr)
  | withdraw (withdrawValue : U128) (recipient intentHash : Fr) (out : Fr × Fr × Fr × Fr × Fr × List Fr)

namespace MultisigWitness

/-- The circuit of a witness, on it. -/
def main (cx cy : Fr) : MultisigWitness → Option MultisigPublic
  | transfer s spendPub viewPub memo change =>
    (transferMultisigMain poseidon poseidon2 cx cy s.gpk s.frostR s.frostZ spendPub viewPub s.note s.index s.path
      memo.note memo.eph change.note change.eph).map .transfer
  | split s out1 out2 =>
    (splitMultisigMain poseidon poseidon2 cx cy s.gpk s.frostR s.frostZ s.note s.index s.path out1.note out1.eph
      out2.note out2.eph).map .split
  | join s t out =>
    (joinMultisigMain poseidon poseidon2 cx cy s.gpk s.frostR s.frostZ s.note s.index s.path t.gpk t.frostR t.frostZ
      t.note t.index t.path out.note out.eph).map .join
  | withdraw value recipient intentHash s change =>
    (withdrawMultisigMain poseidon poseidon2 value recipient intentHash cx cy s.gpk s.frostR s.frostZ s.note s.index
      s.path change.note change.eph).map (.withdraw value recipient intentHash)

/-- The notes that are spent. -/
def spends : MultisigWitness → List GroupSpend
  | transfer s .. => [s]
  | split s .. => [s]
  | join s t _ => [s, t]
  | withdraw _ _ _ s _ => [s]

/-- The notes that are minted. -/
def outputs : MultisigWitness → List Output
  | transfer _ _ _ memo change => [memo, change]
  | split _ out1 out2 => [out1, out2]
  | join _ _ out => [out]
  | withdraw _ _ _ _ change => [change]

/-- The asset of the note that is spent. -/
def asset : MultisigWitness → Fr
  | transfer s .. => s.note.1.assetId
  | split s .. => s.note.1.assetId
  | join s .. => s.note.1.assetId
  | withdraw _ _ _ s _ => s.note.1.assetId

end MultisigWitness

namespace MultisigPublic

/-- The message a quorum signs for what is made public. -/
def message (asset : Fr) : MultisigPublic → Fr
  | transfer (nf, root, memoLeaf, _, memoTag, _, _, changeLeaf, _, _) =>
    msgTransfer poseidon2 root nf memoLeaf memoTag changeLeaf asset
  | split (nf, root, out1Leaf, _, _, out2Leaf, _, _) => msgSplit poseidon2 root nf out1Leaf out2Leaf asset
  | join (nullifierA, nullifierB, root, outLeaf, _, _) => msgJoin poseidon2 root nullifierA nullifierB outLeaf asset
  | withdraw value recipient intentHash (nf, root, _, changeLeaf, _, _) =>
    msgWithdraw poseidon2 root nf changeLeaf (value.1 : Fr) asset recipient intentHash

/-- The list that the message hashes. -/
def signed (asset : Fr) : MultisigPublic → List Fr
  | transfer (nf, root, memoLeaf, _, memoTag, _, _, changeLeaf, _, _) =>
    [actionTransfer, root, nf, memoLeaf, memoTag, changeLeaf, asset]
  | split (nf, root, out1Leaf, _, _, out2Leaf, _, _) => [actionSplit, root, nf, out1Leaf, out2Leaf, asset]
  | join (nullifierA, nullifierB, root, outLeaf, _, _) =>
    [actionJoin, root, nullifierA, nullifierB, outLeaf, asset]
  | withdraw value recipient intentHash (nf, root, _, changeLeaf, _, _) =>
    [actionWithdraw, root, nf, changeLeaf, (value.1 : Fr), asset, recipient, intentHash]

theorem message_eq (asset : Fr) (p : MultisigPublic) : p.message poseidon2 asset = poseidon2 (p.signed asset) := by
  cases p <;> rfl

end MultisigPublic

/-- The lists that a circuit hashes for the message and for the notes it mints. -/
def MultisigWitness.hashed (compliancePk : Point) (w : MultisigWitness) (p : MultisigPublic) : Set (List Fr) :=
  {l | l = p.signed w.asset ∨ ∃ o ∈ w.outputs, l ∈ o.hashed compliancePk}

end Main

/-! ## What is accepted -/

section Accepted

variable {poseidon : Fr → Fr → Fr → Fr} {poseidon2 : List Fr → Fr} {cx cy : Fr} {p : MultisigPublic}

/-- What the group has signed. -/
def GroupSpend.Signs (poseidon2 : List Fr → Fr) (s : GroupSpend) (m : Fr) : Prop :=
  verifyFrostSpend poseidon2 s.gpk s.frostR s.frostZ m = some ()

/-- A self note that is minted, with its content key. -/
def Output.Mints (poseidon2 : List Fr → Fr) (o : Output) (compliancePk : Point) (m : Minted) : Prop :=
  MintedFrom poseidon2 o.note o.eph compliancePk m

theorem mintSelfNoteMultisig_minted {o : Output} {compliancePk gpk : Point} {s : SelfMint}
    (h : mintSelfNoteMultisig poseidon2 o.note o.eph compliancePk gpk = some s) :
    ∃ m, o.Mints poseidon2 compliancePk m ∧ s = ⟨m.leaf, m.ephPub, m.ciphertext⟩ := by
  obtain ⟨-, -, h⟩ := mintSelfNoteMultisig_eq h
  obtain ⟨m, hm, -, hs⟩ := selfMint_eq h
  exact ⟨m, hm, hs⟩

theorem transfer_inv {s : GroupSpend} {spendPub viewPub : Point} {memo change : Output}
    (h : (MultisigWitness.transfer s spendPub viewPub memo change).main poseidon poseidon2 cx cy = some p) :
    assertValidCompliancePk ⟨cx, cy⟩ = some () ∧ ∃ nf root m V m',
      memo.Mints poseidon2 ⟨cx, cy⟩ m ∧ viewPub = ofPoint (V : BabyJubJub.subgroup) ∧
      change.Mints poseidon2 ⟨cx, cy⟩ m' ∧
      s.Signs poseidon2 (p.message poseidon2 s.note.1.assetId) ∧
      p = .transfer (nf, root, m.leaf, m.ephPub.x, viewPub.x,
        m.cek + poseidon2 [(scaled memo.eph V : BabyJubJub.Point).x], m.ciphertext, m'.leaf, m'.ephPub.x,
        m'.ciphertext) := by
  obtain ⟨out, hout, rfl⟩ := Option.map_eq_some_iff.1 h
  unfold transferMultisigMain at hout
  simp only [bind_eq_some, guard_eq_some, exists_and_left, exists_const] at hout
  obtain ⟨_, hkey, ⟨nf, root⟩, -, -, -, -, _, -, -, _, -, i, hi, c, hc, _, hsigned, hout⟩ := hout
  obtain ⟨m, V, hm, hmemo, rfl⟩ := mintIncomingNote_eq hi
  obtain ⟨m', hm', rfl⟩ := mintSelfNoteMultisig_minted hc
  obtain rfl := Option.some_inj.1 hout
  exact ⟨hkey, nf, root, m, V, m', hm, hmemo.point, hm', hsigned, rfl⟩

theorem split_inv {s : GroupSpend} {out1 out2 : Output}
    (h : (MultisigWitness.split s out1 out2).main poseidon poseidon2 cx cy = some p) :
    assertValidCompliancePk ⟨cx, cy⟩ = some () ∧ ∃ nf root m m', out1.Mints poseidon2 ⟨cx, cy⟩ m ∧
      out2.Mints poseidon2 ⟨cx, cy⟩ m' ∧ s.Signs poseidon2 (p.message poseidon2 s.note.1.assetId) ∧
      p = .split (nf, root, m.leaf, m.ephPub.x, m.ciphertext, m'.leaf, m'.ephPub.x, m'.ciphertext) := by
  obtain ⟨out, hout, rfl⟩ := Option.map_eq_some_iff.1 h
  unfold splitMultisigMain at hout
  simp only [bind_eq_some, guard_eq_some, exists_and_left, exists_const] at hout
  obtain ⟨_, hkey, ⟨nf, root⟩, -, -, -, -, _, -, _, -, _, -, c, hc, c', hc', _, hsigned, hout⟩ := hout
  obtain ⟨m, hm, rfl⟩ := mintSelfNoteMultisig_minted hc
  obtain ⟨m', hm', rfl⟩ := mintSelfNoteMultisig_minted hc'
  obtain rfl := Option.some_inj.1 hout
  exact ⟨hkey, nf, root, m, m', hm, hm', hsigned, rfl⟩

theorem join_inv {s t : GroupSpend} {out : Output}
    (h : (MultisigWitness.join s t out).main poseidon poseidon2 cx cy = some p) :
    assertValidCompliancePk ⟨cx, cy⟩ = some () ∧ ∃ nf nf' root m, out.Mints poseidon2 ⟨cx, cy⟩ m ∧
      s.Signs poseidon2 (p.message poseidon2 s.note.1.assetId) ∧
      t.Signs poseidon2 (p.message poseidon2 s.note.1.assetId) ∧
      p = .join (nf, nf', root, m.leaf, m.ephPub.x, m.ciphertext) := by
  obtain ⟨out, hout, rfl⟩ := Option.map_eq_some_iff.1 h
  unfold joinMultisigMain at hout
  simp only [bind_eq_some, guard_eq_some, exists_and_left, exists_const] at hout
  obtain ⟨_, hkey, ⟨nf, root⟩, -, ⟨nf', root'⟩, -, -, -, -, -, -, -, _, -, _, -, c, hc, _, hs, _, ht, hout⟩ := hout
  obtain ⟨m, hm, rfl⟩ := mintSelfNoteMultisig_minted hc
  obtain rfl := Option.some_inj.1 hout
  exact ⟨hkey, nf, nf', root, m, hm, hs, ht, rfl⟩

theorem withdraw_inv {value : U128} {recipient intentHash : Fr} {s : GroupSpend} {change : Output}
    (h : (MultisigWitness.withdraw value recipient intentHash s change).main poseidon poseidon2 cx cy = some p) :
    assertValidCompliancePk ⟨cx, cy⟩ = some () ∧ ∃ nf root m, change.Mints poseidon2 ⟨cx, cy⟩ m ∧
      s.Signs poseidon2 (p.message poseidon2 s.note.1.assetId) ∧
      p = .withdraw value recipient intentHash (nf, root, s.note.1.assetId, m.leaf, m.ephPub.x, m.ciphertext) := by
  obtain ⟨out, hout, rfl⟩ := Option.map_eq_some_iff.1 h
  unfold withdrawMultisigMain at hout
  simp only [bind_eq_some, guard_eq_some, exists_and_left, exists_const] at hout
  obtain ⟨_, hkey, ⟨nf, root⟩, -, -, _, -, _, -, c, hc, _, hsigned, hout⟩ := hout
  obtain ⟨m, hm, rfl⟩ := mintSelfNoteMultisig_minted hc
  obtain rfl := Option.some_inj.1 hout
  exact ⟨hkey, nf, root, m, hm, hsigned, rfl⟩

/-! ## What the message binds -/

/-- The leaf determines the note, the content key and the ephemeral scalar, and so all that the mint makes public. -/
theorem Output.Mints.eq {o o' : Output} {C : BabyJubJub.subgroup} (hC : C ≠ 0) {m m' : Minted}
    (h : o.Mints poseidon2 (ofPoint C) m) (h' : o'.Mints poseidon2 (ofPoint C) m')
    (hinj : Set.InjOn poseidon2 (o.hashed (ofPoint C) ∪ o'.hashed (ofPoint C))) (hleaf : m.leaf = m'.leaf) :
    o = o' ∧ m = m' := by
  have hpreimage : o.note.1.preimage = o'.note.1.preimage := by
    refine hinj (Or.inl (Or.inl rfl)) (Or.inr (Or.inl rfl)) ?_
    rw [← h.leaf, ← h'.leaf, hleaf]
  have hnote : o.note = o'.note := Subtype.ext (preimage_injective o.note.2 o'.note.2 hpreimage)
  have hcek : m.cek = m'.cek := by
    have hpsi : poseidon2 [m.cek, psiDomain] = poseidon2 [m'.cek, psiDomain] := by
      have hsame : o.note.1.psi = o'.note.1.psi := by rw [hnote]
      rwa [h.psi, h'.psi] at hsame
    have hlist := hinj (Or.inl (Or.inr ⟨m.cek, h.deriveCek, rfl⟩)) (Or.inr (Or.inr ⟨m'.cek, h'.deriveCek, rfl⟩)) hpsi
    exact (List.cons.inj hlist).1
  have heph : o.eph = o'.eph := by
    obtain ⟨D, hD, hx⟩ := h.key
    obtain ⟨D', hD', hx'⟩ := h'.key
    obtain rfl : C = D := Subtype.ext (ofPoint_injective hD)
    obtain rfl : C = D' := Subtype.ext (ofPoint_injective hD')
    refine eq_of_smul_eq h.scalar.2 h'.scalar.2 hC (eq_of_x_eq ?_)
    exact hx.symm.trans (hcek.trans hx')
  have hephPub : m.ephPub = m'.ephPub := by rw [h.ephPub, h'.ephPub, heph]
  have hciphertext : m.ciphertext = m'.ciphertext := by rw [h.ciphertext, h'.ciphertext, hcek, hnote]
  refine ⟨?_, ?_⟩
  · cases o
    cases o'
    exact congr (congrArg Output.mk hnote) heph
  · cases m
    cases m'
    simp_all

theorem exists_of_assertValidCompliancePk {p : Point} (h : assertValidCompliancePk p = some ()) :
    ∃ C : BabyJubJub.subgroup, C ≠ 0 ∧ p = ofPoint C := exists_of_assertValidRecipientKey h

/-- The two witnesses of one message, with the lists they hash. -/
structure SameMessage (poseidon : Fr → Fr → Fr → Fr) (poseidon2 : List Fr → Fr) (cx cy : Fr) (w w' : MultisigWitness)
    (p p' : MultisigPublic) : Prop where
  accepted : w.main poseidon poseidon2 cx cy = some p
  accepted' : w'.main poseidon poseidon2 cx cy = some p'
  injOn : Set.InjOn poseidon2 (w.hashed ⟨cx, cy⟩ p ∪ w'.hashed ⟨cx, cy⟩ p')
  message : p.message poseidon2 w.asset = p'.message poseidon2 w'.asset

section SameMessage

variable {w w' : MultisigWitness} {p' : MultisigPublic}

theorem SameMessage.signed (h : SameMessage poseidon poseidon2 cx cy w w' p p') :
    p.signed w.asset = p'.signed w'.asset := by
  refine h.injOn (Or.inl (Or.inl rfl)) (Or.inr (Or.inl rfl)) ?_
  exact (MultisigPublic.message_eq poseidon2 _ p).symm.trans (h.message.trans (MultisigPublic.message_eq poseidon2 _ p'))

/-- Two notes minted under the key for one leaf are the same, and so is what their mints make public. -/
theorem SameMessage.mints_eq (h : SameMessage poseidon poseidon2 cx cy w w' p p')
    (hkey : assertValidCompliancePk ⟨cx, cy⟩ = some ()) {o o' : Output} (ho : o ∈ w.outputs) (ho' : o' ∈ w'.outputs)
    {m m' : Minted} (hm : o.Mints poseidon2 ⟨cx, cy⟩ m) (hm' : o'.Mints poseidon2 ⟨cx, cy⟩ m')
    (hleaf : m.leaf = m'.leaf) : o = o' ∧ m = m' := by
  obtain ⟨C, hC, hpoint⟩ := exists_of_assertValidCompliancePk hkey
  have hinj := h.injOn
  rw [hpoint] at hm hm' hinj
  refine hm.eq hC hm' (hinj.mono ?_) hleaf
  exact Set.union_subset_union (fun l hl => Or.inr ⟨o, ho, hl⟩) fun l hl => Or.inr ⟨o', ho', hl⟩

theorem SameMessage.transfer {s s' : GroupSpend} {spendPub viewPub spendPub' viewPub' : Point}
    {memo change memo' change' : Output}
    (h : SameMessage poseidon poseidon2 cx cy (.transfer s spendPub viewPub memo change)
      (.transfer s' spendPub' viewPub' memo' change') p p') : p = p' ∧ s.note.1.assetId = s'.note.1.assetId := by
  obtain ⟨hkey, nf, root, m, V, n, hm, hV, hn, -, rfl⟩ := transfer_inv h.accepted
  obtain ⟨-, nf', root', m', V', n', hm', hV', hn', -, rfl⟩ := transfer_inv h.accepted'
  have hsigned := h.signed
  simp only [MultisigPublic.signed, List.cons.injEq, and_true, true_and] at hsigned
  obtain ⟨rfl, rfl, hmemo, htag, hchange, hasset⟩ := hsigned
  obtain ⟨rfl, rfl⟩ := h.mints_eq hkey List.mem_cons_self List.mem_cons_self hm hm' hmemo
  obtain ⟨rfl, rfl⟩ := h.mints_eq hkey (List.mem_cons_of_mem _ List.mem_cons_self)
    (List.mem_cons_of_mem _ List.mem_cons_self) hn hn' hchange
  -- the tag determines the view key, and with it the pad of the content key
  have hview : V = V' := by
    rw [hV, hV'] at htag
    exact eq_of_x_eq htag
  refine ⟨?_, hasset⟩
  rw [htag, hview]

theorem SameMessage.split {s s' : GroupSpend} {out1 out2 out1' out2' : Output}
    (h : SameMessage poseidon poseidon2 cx cy (.split s out1 out2) (.split s' out1' out2') p p') :
    p = p' ∧ s.note.1.assetId = s'.note.1.assetId := by
  obtain ⟨hkey, nf, root, m, n, hm, hn, -, rfl⟩ := split_inv h.accepted
  obtain ⟨-, nf', root', m', n', hm', hn', -, rfl⟩ := split_inv h.accepted'
  have hsigned := h.signed
  simp only [MultisigPublic.signed, List.cons.injEq, and_true, true_and] at hsigned
  obtain ⟨rfl, rfl, hout1, hout2, hasset⟩ := hsigned
  obtain ⟨rfl, rfl⟩ := h.mints_eq hkey List.mem_cons_self List.mem_cons_self hm hm' hout1
  obtain ⟨rfl, rfl⟩ := h.mints_eq hkey (List.mem_cons_of_mem _ List.mem_cons_self)
    (List.mem_cons_of_mem _ List.mem_cons_self) hn hn' hout2
  exact ⟨rfl, hasset⟩

theorem SameMessage.join {s s' t t' : GroupSpend} {out out' : Output}
    (h : SameMessage poseidon poseidon2 cx cy (.join s t out) (.join s' t' out') p p') :
    p = p' ∧ s.note.1.assetId = s'.note.1.assetId := by
  obtain ⟨hkey, nfA, nfB, root, m, hm, -, -, rfl⟩ := join_inv h.accepted
  obtain ⟨-, nfA', nfB', root', m', hm', -, -, rfl⟩ := join_inv h.accepted'
  have hsigned := h.signed
  simp only [MultisigPublic.signed, List.cons.injEq, and_true, true_and] at hsigned
  obtain ⟨rfl, rfl, rfl, hout, hasset⟩ := hsigned
  obtain ⟨rfl, rfl⟩ := h.mints_eq hkey List.mem_cons_self List.mem_cons_self hm hm' hout
  exact ⟨rfl, hasset⟩

theorem SameMessage.withdraw {value value' : U128} {recipient recipient' intentHash intentHash' : Fr}
    {s s' : GroupSpend} {change change' : Output}
    (h : SameMessage poseidon poseidon2 cx cy (.withdraw value recipient intentHash s change)
      (.withdraw value' recipient' intentHash' s' change') p p') :
    p = p' ∧ s.note.1.assetId = s'.note.1.assetId := by
  obtain ⟨hkey, nf, root, m, hm, -, rfl⟩ := withdraw_inv h.accepted
  obtain ⟨-, nf', root', m', hm', -, rfl⟩ := withdraw_inv h.accepted'
  have hsigned := h.signed
  simp only [MultisigPublic.signed, List.cons.injEq, and_true, true_and] at hsigned
  obtain ⟨rfl, rfl, hchange, hvalue, hasset, rfl, rfl⟩ := hsigned
  obtain ⟨rfl, rfl⟩ := h.mints_eq hkey List.mem_cons_self List.mem_cons_self hm hm' hchange
  obtain rfl : value = value' := by
    have hval := congrArg ZMod.val hvalue
    rw [val_natCast_of_lt (lt_trans value.2 two_pow_128_lt_modulus),
      val_natCast_of_lt (lt_trans value'.2 two_pow_128_lt_modulus)] at hval
    exact Subtype.ext hval
  have hassetId : s.note.1.assetId = s'.note.1.assetId := hasset
  refine ⟨?_, hassetId⟩
  rw [hassetId]

end SameMessage

/-- The tag of a circuit's messages. -/
def MultisigWitness.action : MultisigWitness → Fr
  | transfer .. => actionTransfer
  | split .. => actionSplit
  | join .. => actionJoin
  | withdraw .. => actionWithdraw

theorem MultisigWitness.head_signed {w : MultisigWitness} (h : w.main poseidon poseidon2 cx cy = some p) (asset : Fr) :
    (p.signed asset).head? = some w.action := by
  cases w <;> obtain ⟨out, -, rfl⟩ := Option.map_eq_some_iff.1 h <;> rfl

/-- A witness that is accepted carries signatures of its message, one for each note it spends. -/
theorem MultisigWitness.main_signed {w : MultisigWitness} (h : w.main poseidon poseidon2 cx cy = some p) :
    ∀ s ∈ w.spends, s.Signs poseidon2 (p.message poseidon2 w.asset) := by
  intro s hs
  cases w with
  | transfer t spendPub viewPub memo change =>
    obtain ⟨-, nf, root, m, V, n, -, -, -, hsigns, -⟩ := transfer_inv h
    rwa [List.mem_singleton.1 hs]
  | split t out1 out2 =>
    obtain ⟨-, nf, root, m, n, -, -, hsigns, -⟩ := split_inv h
    rwa [List.mem_singleton.1 hs]
  | join t t' out =>
    obtain ⟨-, nfA, nfB, root, m, -, hsigns, hsigns', -⟩ := join_inv h
    rcases List.mem_pair.1 hs with rfl | rfl
    · exact hsigns
    · exact hsigns'
  | withdraw value recipient intentHash t change =>
    obtain ⟨-, nf, root, m, -, hsigns, -⟩ := withdraw_inv h
    rwa [List.mem_singleton.1 hs]

/-- Two accepted witnesses of one message, under one compliance key, are of one circuit and make the same public, if the
hash takes no two of the lists they hash to one value. -/
theorem quorum_binding {w w' : MultisigWitness} {p' : MultisigPublic}
    (h : w.main poseidon poseidon2 cx cy = some p) (h' : w'.main poseidon poseidon2 cx cy = some p')
    (hinj : Set.InjOn poseidon2 (w.hashed ⟨cx, cy⟩ p ∪ w'.hashed ⟨cx, cy⟩ p'))
    (hmessage : p.message poseidon2 w.asset = p'.message poseidon2 w'.asset) : p = p' ∧ w.asset = w'.asset := by
  have hsame : SameMessage poseidon poseidon2 cx cy w w' p p' := ⟨h, h', hinj, hmessage⟩
  have haction : w.action = w'.action := by
    have hhead := congrArg List.head? hsame.signed
    rw [MultisigWitness.head_signed h, MultisigWitness.head_signed h'] at hhead
    exact Option.some_inj.1 hhead
  cases w <;> cases w'
  case transfer.transfer => exact hsame.transfer
  case split.split => exact hsame.split
  case join.join => exact hsame.join
  case withdraw.withdraw => exact hsame.withdraw
  -- the tags of different circuits differ
  all_goals
    simp only [MultisigWitness.action] at haction
    exact absurd haction (by decide)

end Accepted

/-! ## A withdrawal signed twice -/

/-- A hash that is the first word. -/
def firstWord (words : List Fr) : Fr := words.headD 0

/-- The scalar a group whose key is the base point signs with, for the nonce `r`. -/
def sampleZ (r : ℕ) : ℕ := r + schnorrDomain.val % 2 ^ 248

/-- The content key of the change. -/
def sampleCek : Fr := (scaled 4 BabyJubJub.base : BabyJubJub.Point).x

def sampleOldNote : Note := ⟨⟨1, 1, 1, 0, 5, BabyJubJub.base8.x, 7, 0⟩, by norm_num⟩

def sampleChangeNote : Note := ⟨⟨1, 1, 1, 0, 3, BabyJubJub.base8.x, sampleCek, 0⟩, by norm_num⟩

/-- The withdrawal of two of five, signed with a nonce. -/
def sampleWithdrawal (r : ℕ) : MultisigWitness :=
  .withdraw ⟨2, by norm_num⟩ 9 0
    ⟨ofPoint BabyJubJub.base8, ofPoint (r • BabyJubJub.base8), (sampleZ r : Fr), sampleOldNote, 0, fun _ => 0⟩
    ⟨sampleChangeNote, 4⟩

/-- What the mint of the change makes public. -/
def sampleChange : Minted where
  leaf := 1
  ephPub := ofPoint (scaled 4 BabyJubJub.base)
  cek := sampleCek
  ciphertext := encrypted firstWord sampleCek sampleChangeNote.1.transmitted

def sampleWithdrawn : MultisigPublic :=
  .withdraw ⟨2, by norm_num⟩ 9 0 (7, 1, 1, sampleChange.leaf, sampleChange.ephPub.x, sampleChange.ciphertext)

theorem coe_scaled_four : (scaled 4 BabyJubJub.base : BabyJubJub.Point) = (4 : ℕ) • BabyJubJub.base8 := by
  have hval : (4 : Fr).val = 4 := by decide
  rw [scaled, hval, BabyJubJub.coe_natCast_smul]
  rfl

theorem sampleCek_ne : sampleCek ≠ 1 ∧ sampleCek ≠ actionWithdraw := by
  rw [sampleCek, coe_scaled_four]
  exact ⟨by decide +kernel, by decide +kernel⟩

theorem sample_mints : (⟨sampleChangeNote, 4⟩ : Output).Mints firstWord (ofPoint BabyJubJub.base) sampleChange where
  scalar := ⟨by decide, by decide⟩
  owner := by
    show BabyJubJub.base8.x ≠ 0
    decide
  noteType := Or.inr rfl
  assetId := by
    show (1 : Fr).val < 2 ^ 160
    rw [ZMod.val_one]
    norm_num
  key := ⟨BabyJubJub.base, rfl, rfl⟩
  psi := rfl
  leaf := rfl
  ephPub := rfl
  ciphertext := rfl

/-- The group's signature with a small nonce. -/
theorem sample_signs {r : ℕ} (hpos : 0 < r) (hlt : r < 8) (m : Fr) :
    verifyFrostSpend firstWord (ofPoint BabyJubJub.base8) (ofPoint (r • BabyJubJub.base8)) (sampleZ r : Fr) m =
      some () := by
  have hmod : schnorrDomain.val % 2 ^ 248 < 2 ^ 248 := Nat.mod_lt _ (by norm_num)
  have hz : sampleZ r < subOrder := by
    unfold sampleZ subOrder
    omega
  have hval : ((sampleZ r : ℕ) : Fr).val = sampleZ r :=
    val_natCast_of_lt (lt_trans hz (by norm_num [subOrder, bn254ScalarFieldModulus]))
  refine verifyFrostSpend_eq firstWord BabyJubJub.subOrder_nsmul_base8 BabyJubJub.base8_ne_zero ?_ ?_ ?_ ?_
  · intro hzero
    have hsmul : (r : ZMod subOrder) • BabyJubJub.base = 0 := by
      refine Subtype.ext ?_
      rw [BabyJubJub.coe_natCast_smul]
      exact hzero
    rcases smul_eq_zero.1 hsmul with hr | hbase
    · rw [ZMod.natCast_eq_zero_iff] at hr
      have hle := Nat.le_of_dvd hpos hr
      unfold subOrder at hle
      omega
    · exact BabyJubJub.base_ne_zero hbase
  · intro hzero
    have h := congrArg ZMod.val hzero
    rw [hval, ZMod.val_zero] at h
    unfold sampleZ at h
    omega
  · rwa [hval]
  · rw [hval, sampleZ, add_smul]
    rfl

theorem sample_open : openMultisigNote (fun _ _ _ => 0) firstWord sampleOldNote (ofPoint BabyJubJub.base8) 0 (fun _ => 0) =
    some (7, 1) := by
  have hnew : Point.new (ofPoint BabyJubJub.base8).x (ofPoint BabyJubJub.base8).y = some (ofPoint BabyJubJub.base8) :=
    Point.new_ofPoint _
  have hsubgroup := assertInPrimeSubgroup_ofPoint BabyJubJub.base8 BabyJubJub.subOrder_nsmul_base8
  have hne : ¬ (ofPoint BabyJubJub.base8).isZero := by
    rw [isZero_ofPoint]
    exact BabyJubJub.base8_ne_zero
  unfold openMultisigNote
  rw [bind_of_some hnew, bind_of_some hsubgroup, bind_guard hne]
  refine (bind_guard rfl _).trans ((bind_guard rfl _).trans ?_)
  decide

theorem sample_change : mintSelfNoteMultisig firstWord sampleChangeNote 4 (ofPoint BabyJubJub.base)
    (ofPoint BabyJubJub.base8) = some ⟨sampleChange.leaf, sampleChange.ephPub, sampleChange.ciphertext⟩ := by
  have hcommon := mintCommon_of sample_mints rfl rfl
  have heven : isEvenY (ofPoint (scaled 4 BabyJubJub.base)) := by
    rw [isEvenY_iff, coe_scaled_four]
    decide +kernel
  unfold mintSelfNoteMultisig selfMint
  refine (bind_guard rfl _).trans ((bind_guard rfl _).trans ?_)
  exact (bind_of_some hcommon _).trans (bind_guard heven _)

theorem sample_accepted {r : ℕ} (hpos : 0 < r) (hlt : r < 8) :
    (sampleWithdrawal r).main (fun _ _ _ => 0) firstWord (BabyJubJub.base : BabyJubJub.Point).x
      (BabyJubJub.base : BabyJubJub.Point).y = some sampleWithdrawn := by
  have hkey : assertValidCompliancePk (ofPoint BabyJubJub.base) = some () :=
    assertValidCompliancePk_ofPoint BabyJubJub.base_ne_zero
  have hconserved : assertConserved [sampleOldNote.amount] [sampleChangeNote.amount] ⟨2, by norm_num⟩ = some () :=
    assertConserved_one rfl
  have hparents : assertParentsBound sampleChangeNote 0 0 = some () := guard_eq_some.2 (by decide)
  unfold sampleWithdrawal MultisigWitness.main
  refine Option.map_eq_some_iff.2
    ⟨(7, 1, 1, sampleChange.leaf, sampleChange.ephPub.x, sampleChange.ciphertext), ?_, rfl⟩
  unfold withdrawMultisigMain
  refine (bind_of_some hkey _).trans ((bind_of_some sample_open _).trans ?_)
  refine (bind_guard rfl _).trans ?_
  refine (bind_of_some hconserved _).trans ?_
  refine (bind_of_some hparents _).trans ?_
  exact (bind_of_some sample_change _).trans (bind_of_some (sample_signs hpos hlt _) _)

theorem sample_hashed {r : ℕ} {l : List Fr}
    (h : l ∈ (sampleWithdrawal r).hashed (ofPoint BabyJubJub.base) sampleWithdrawn) :
    l = sampleWithdrawn.signed 1 ∨ l = sampleChangeNote.1.preimage ∨ l = [sampleCek, psiDomain] := by
  rcases h with rfl | ⟨o, ho, rfl | ⟨cek, hcek, rfl⟩⟩
  · exact Or.inl rfl
  · rw [List.mem_singleton.1 ho]
    exact Or.inr (Or.inl rfl)
  · rw [List.mem_singleton.1 ho, sample_mints.deriveCek, Option.some_inj] at hcek
    rw [← hcek]
    exact Or.inr (Or.inr rfl)

/-- The three lists begin with different words. -/
theorem sample_injOn : Set.InjOn firstWord ((sampleWithdrawal 1).hashed (ofPoint BabyJubJub.base) sampleWithdrawn ∪
    (sampleWithdrawal 2).hashed (ofPoint BabyJubJub.base) sampleWithdrawn) := by
  obtain ⟨hone, haction⟩ := sampleCek_ne
  have hversion : actionWithdraw ≠ 1 := by decide
  intro l hl l' hl' heq
  rcases hl.elim sample_hashed sample_hashed with rfl | rfl | rfl <;>
    rcases hl'.elim sample_hashed sample_hashed with rfl | rfl | rfl
  · rfl
  · exact absurd heq hversion
  · exact absurd heq.symm haction
  · exact absurd heq.symm hversion
  · rfl
  · exact absurd heq.symm hone
  · exact absurd heq haction
  · exact absurd heq hone
  · rfl

theorem asset_sample (r : ℕ) : (sampleWithdrawal r).asset = 1 := rfl

/-- Two signatures of one withdrawal, with two nonces. -/
theorem quorum_binding_sample :
    sampleWithdrawn = sampleWithdrawn ∧ (sampleWithdrawal 1).asset = (sampleWithdrawal 2).asset :=
  quorum_binding (sample_accepted (by norm_num) (by norm_num)) (sample_accepted (by norm_num) (by norm_num)) sample_injOn
    (by rw [asset_sample, asset_sample])

end Kakure.Circuit
