import Kakure.Frost.MultisigScan
import Kakure.Tx.Applications

/-!
# The transfers of a group

`assembleTransferMultisig.ts`: the witness of a transfer out of a note of a group, up to the signature of the quorum,
and `assembleRow` of `treasuryFlows.ts`, which tries again on a witness that is not up to date.

* `assembleRow_ok` — what is assembled spends the source note, and its memo is owned by the recipient and worth the
  amount.
-/

namespace Kakure.Tx

open Notes Tss Fallible Frost
open Wallet (CounterStore)
open Sync hiding newFr

/-- `AssembleTransferMultisigRequest`. -/
structure AssembleTransferMultisigRequest where
  gpk : Tss.Point
  v : Fr
  memberId : ℕ
  compliancePk : Tss.Point
  oldNoteView : MultisigNoteView
  transferValue : ℤ
  recipientInPub : Tss.Point
  recipientInKey : Fr
  memoEph : Fr

/-- The inputs of the circuit without the signature. -/
structure TransferMultisigInputs where
  compliancePk : Tss.Point
  recipientInPub : Tss.Point
  oldNote : ProverNoteInput
  oldNoteIndex : ℕ
  oldNotePath : Fin Circuit.treeDepth → Fr
  memoNote : ProverNoteInput
  memoEph : Fr
  changeNote : ProverNoteInput
  changeEph : Fr

/-- `AssembledTransferMultisig`. -/
structure AssembledTransferMultisig where
  partialInputs : TransferMultisigInputs
  message : Fr
  memo : MintedNote
  changeCommitment : Fr
  root : Fr

/-- `ACTION_TRANSFER`. -/
def actionTransfer : Fr := 0x1547047254eb19dda78a0a366ebb6a91dc073c5396d00f1d32a4afbea2ca1b5d

section Assembly

variable (lib : Library) (hash : List Fr → Fr)

/-- `msgTransfer`. -/
def msgTransfer (root nullifier memoLeaf memoTag changeLeaf asset : Fr) : Fr :=
  hash [actionTransfer, root, nullifier, memoLeaf, memoTag, changeLeaf, asset]

/-- `mintSelfNoteMultisig`. -/
def mintSelfNoteMultisig (eph : Fr) (value : ℤ) (assetId : Fr) (compliancePk gpk : Tss.Point) (parents : Fr) :
    Except String (ProverNoteInput × Fr) := do
  let owner ← multisigOwner hash gpk
  let cek ← deriveCek lib eph compliancePk
  let psi := computePsi hash cek
  let valueFr ← newFr value
  let commitment ← leafOf hash ⟨1, assetId, 1, 0, 0, owner, psi, parents⟩ value
  return (⟨1, assetId, 1, 0, valueFr, owner, psi, parents⟩, commitment)

/-- What `assembleTransferMultisig` does with the witness and the change ephemeral. -/
def finishTransferMultisig (req : AssembleTransferMultisigRequest) (w : MerkleWitness) (changeEph : Fr) :
    Except String AssembledTransferMultisig := do
  let assetId := req.oldNoteView.note.assetId
  let parents ← packParents w.leafIndex 0
  let change ← mintSelfNoteMultisig lib hash changeEph (req.oldNoteView.note.value - req.transferValue) assetId
    req.compliancePk req.gpk parents
  let memo ← mintIncomingNote lib hash req.memoEph req.transferValue req.recipientInPub req.recipientInKey assetId
    req.compliancePk parentsHidden
  return {
    partialInputs := {
      compliancePk := req.compliancePk
      recipientInPub := req.recipientInPub
      oldNote := proverInput req.oldNoteView.note
      oldNoteIndex := w.leafIndex
      oldNotePath := w.siblings
      memoNote := memo.note
      memoEph := req.memoEph
      changeNote := change.1
      changeEph := changeEph }
    message := msgTransfer hash w.root req.oldNoteView.nullifier memo.commitment memo.tag change.2 assetId
    memo := memo
    changeCommitment := change.2
    root := w.root }

/-- `assembleTransferMultisig`. -/
def assembleTransferMultisig (witness : Except WitnessError MerkleWitness) (req : AssembleTransferMultisigRequest)
    (counters : CounterStore) : Except WitnessError AssembledTransferMultisig × CounterStore :=
  match witness with
  | .error e => (.error e, counters)
  | .ok w =>
    if w.leafIndex ≠ req.oldNoteView.leafIndex then
      (.error (.other ("assembleTransferMultisig: merkle source placed the note at index " ++ toString w.leafIndex ++
        ", scanner has " ++ toString req.oldNoteView.leafIndex)), counters)
    else if (req.oldNoteView.note.value : ℤ) - req.transferValue < 0 then
      (.error (.other "assembleTransferMultisig: transfer value exceeds the note's value"), counters)
    else
      let changeEph := multisigDepositEph lib hash req.v req.memberId counters req.gpk
      ((changeEph.1 >>= finishTransferMultisig lib hash req w).mapError .other, changeEph.2)

/-- `assembleRow`, with the attempts that `retryOnTransientWitnessMismatch` has left, where the answers of the witness
source are numbered. -/
def assembleRow (witnessFor : ℕ → Fr → Except WitnessError MerkleWitness) (req : AssembleTransferMultisigRequest) :
    ℕ → CounterStore → Except String AssembledTransferMultisig × CounterStore
  | 0, counters => (.error "undefined", counters)
  | left + 1, counters =>
    match assembleTransferMultisig lib hash (witnessFor left req.oldNoteView.commitment) req counters with
    | (.ok assembled, counters) => (.ok assembled, counters)
    | (.error (.other message), counters) => (.error message, counters)
    | (.error (.rootMismatch message), counters) =>
      if left = 0 then (.error message, counters) else assembleRow witnessFor req left counters

end Assembly

/-! ## What is assembled -/

variable {lib : Library} {hash : List Fr → Fr}

/-- The memo of a transfer is owned by the key of an address and worth the amount. -/
structure TransferMultisigInputs.PaysTo (hash : List Fr → Fr) (i : TransferMultisigInputs) (recipient : Tss.Point)
    (amount : ℤ) : Prop where
  inPub : i.recipientInPub = recipient
  owner : i.memoNote.owner = pubkeyOwner hash recipient
  value : (i.memoNote.note.value : ℤ) = amount

theorem finish_note {eph : Fr} {value : ℤ} {owner assetId spendScalar parents : Fr} {compliancePk : Tss.Point}
    {p : MintedNote} (h : finish lib hash eph value owner assetId spendScalar parents compliancePk = .ok p) :
    p.note.owner = owner ∧ (p.note.note.value : ℤ) = value := by
  unfold finish at h
  obtain ⟨cek, -, h⟩ := bind_eq_ok.1 h
  obtain ⟨commitment, -, h⟩ := bind_eq_ok.1 h
  obtain ⟨valueFr, hvalue, h⟩ := bind_eq_ok.1 h
  obtain ⟨tag, -, h⟩ := bind_eq_ok.1 h
  obtain ⟨hnonneg, hlt, rfl⟩ := newFr_ok hvalue
  cases h
  refine ⟨rfl, ?_⟩
  unfold ProverNoteInput.note
  dsimp only
  rw [val_intCast hnonneg hlt, Int.toNat_of_nonneg hnonneg]

theorem mintIncomingNote_note {eph : Fr} {value : ℤ} {inPub : Tss.Point} {inKey assetId parents : Fr}
    {compliancePk : Tss.Point} {p : MintedNote}
    (h : mintIncomingNote lib hash eph value inPub inKey assetId compliancePk parents = .ok p) :
    p.note.owner = pubkeyOwner hash inPub ∧ (p.note.note.value : ℤ) = value := by
  unfold mintIncomingNote at h
  obtain ⟨built, hbuilt, h⟩ := bind_eq_ok.1 h
  obtain ⟨cekWrap, -, h⟩ := bind_eq_ok.1 h
  obtain ⟨tag, -, h⟩ := bind_eq_ok.1 h
  have hnote := finish_note hbuilt
  cases h
  exact hnote

theorem leafOf_eq {note : Notes.Note} {value : ℤ} {x : Fr} (h : leafOf hash note value = .ok x) :
    x = hash { note with value := value.toNat : Notes.Note }.preimage := by
  obtain ⟨hnonneg, hlt⟩ := leafOf_ok h
  have hrange : ({ note with value := value.toNat } : Notes.Note).value < 2 ^ 128 := by
    dsimp only
    omega
  rw [leafOf, if_neg (by omega), leaf_ok hrange] at h
  cases h
  rfl

/-- The commitment is the leaf of the note. -/
theorem mintSelfNoteMultisig_ok {eph : Fr} {value : ℤ} {assetId : Fr} {compliancePk gpk : Tss.Point} {parents : Fr}
    {change : ProverNoteInput × Fr}
    (h : mintSelfNoteMultisig lib hash eph value assetId compliancePk gpk parents = .ok change) :
    change.2 = hash change.1.note.preimage := by
  unfold mintSelfNoteMultisig at h
  obtain ⟨owner, -, h⟩ := bind_eq_ok.1 h
  obtain ⟨cek, -, h⟩ := bind_eq_ok.1 h
  obtain ⟨valueFr, hvalue, h⟩ := bind_eq_ok.1 h
  obtain ⟨commitment, hleaf, h⟩ := bind_eq_ok.1 h
  obtain ⟨hnonneg, hlt, rfl⟩ := newFr_ok hvalue
  cases h
  rw [leafOf_eq hleaf]
  unfold ProverNoteInput.note
  dsimp only
  rw [val_intCast hnonneg hlt]

variable {req : AssembleTransferMultisigRequest} {assembled : AssembledTransferMultisig}

theorem finishTransferMultisig_ok {w : MerkleWitness} {changeEph : Fr}
    (h : finishTransferMultisig lib hash req w changeEph = .ok assembled) :
    assembled.partialInputs.PaysTo hash req.recipientInPub req.transferValue ∧
      assembled.partialInputs.compliancePk = req.compliancePk ∧
      assembled.partialInputs.oldNote = proverInput req.oldNoteView.note ∧
      assembled.partialInputs.oldNoteIndex = w.leafIndex ∧
      assembled.changeCommitment = hash assembled.partialInputs.changeNote.note.preimage := by
  unfold finishTransferMultisig at h
  obtain ⟨parents, -, h⟩ := bind_eq_ok.1 h
  obtain ⟨change, hchange, h⟩ := bind_eq_ok.1 h
  have hleaf := mintSelfNoteMultisig_ok hchange
  obtain ⟨memo, hmemo, h⟩ := bind_eq_ok.1 h
  obtain ⟨howner, hvalue⟩ := mintIncomingNote_note hmemo
  cases h
  exact ⟨⟨rfl, howner, hvalue⟩, rfl, rfl, rfl, hleaf⟩

theorem assembleTransferMultisig_ok {witness : Except WitnessError MerkleWitness} {counters counters' : CounterStore}
    (h : assembleTransferMultisig lib hash witness req counters = (.ok assembled, counters')) :
    ∃ w changeEph, w.leafIndex = req.oldNoteView.leafIndex ∧
      finishTransferMultisig lib hash req w changeEph = .ok assembled := by
  unfold assembleTransferMultisig at h
  cases witness with
  | error e => simp at h
  | ok w =>
    dsimp only at h
    by_cases hindex : w.leafIndex ≠ req.oldNoteView.leafIndex
    · simp [hindex] at h
    · rw [if_neg hindex] at h
      by_cases hvalue : (req.oldNoteView.note.value : ℤ) - req.transferValue < 0
      · simp [hvalue] at h
      · rw [if_neg hvalue] at h
        obtain ⟨hassembled, -⟩ := Prod.ext_iff.1 h
        dsimp only at hassembled
        cases hfinished : (multisigDepositEph lib hash req.v req.memberId counters req.gpk).1 >>=
            finishTransferMultisig lib hash req w with
        | error e => simp [hfinished, Except.mapError] at hassembled
        | ok a =>
          rw [hfinished] at hassembled
          cases hassembled
          obtain ⟨changeEph, -, hfinish⟩ := bind_eq_ok.1 hfinished
          exact ⟨w, changeEph, not_not.1 hindex, hfinish⟩

/-- What is assembled spends the source note under the key that was read, pays the recipient the amount and waits for
the leaf of its change. -/
theorem assembleRow_ok {witnessFor : ℕ → Fr → Except WitnessError MerkleWitness} {attempts : ℕ}
    {counters counters' : CounterStore}
    (h : assembleRow lib hash witnessFor req attempts counters = (.ok assembled, counters')) :
    assembled.partialInputs.PaysTo hash req.recipientInPub req.transferValue ∧
      assembled.partialInputs.compliancePk = req.compliancePk ∧
      assembled.partialInputs.oldNote = proverInput req.oldNoteView.note ∧
      assembled.partialInputs.oldNoteIndex = req.oldNoteView.leafIndex ∧
      assembled.changeCommitment = hash assembled.partialInputs.changeNote.note.preimage := by
  induction attempts generalizing counters with
  | zero => simp [assembleRow] at h
  | succ left ih =>
    unfold assembleRow at h
    rcases hfirst : assembleTransferMultisig lib hash (witnessFor left req.oldNoteView.commitment) req counters with
      ⟨e | a, counters₁⟩
    · cases e with
      | other message => simp [hfirst] at h
      | rootMismatch message =>
        simp only [hfirst] at h
        by_cases hlast : left = 0
        · simp [hlast] at h
        · rw [if_neg hlast] at h
          exact ih h
    · simp only [hfirst, Prod.mk.injEq, Except.ok.injEq] at h
      obtain ⟨rfl, -⟩ := h
      obtain ⟨w, changeEph, hindex, hfinish⟩ := assembleTransferMultisig_ok hfirst
      rw [← hindex]
      exact finishTransferMultisig_ok hfinish

/-! ## A transfer of a group of one member -/

/-- A source that knows a leaf at an index. -/
def sampleSource (index : ℕ) (_ : ℕ) (leaf : Fr) : Except WitnessError MerkleWitness := .ok ⟨index, fun _ => 0, leaf⟩

/-- The first transfer of a press, of all of a note of value 1, waits for a change note whose leaf is the key of its
scalar under the compliance key. -/
theorem exists_assembleRow {view : MultisigNoteView} (hindex : view.leafIndex < 2 ^ 32) (hvalue : view.note.value = 1) :
    ∃ assembled counters, assembleRow Library.reference sampleHash (sampleSource view.leafIndex)
      ⟨publicKey Library.reference 4, 4, 1, coords BabyJubJub.base, view, 1, publicKey Library.reference 4, 0, 5⟩ 5
      freshCounters = (.ok assembled, counters) ∧ assembled.changeCommitment = sampleX := by
  obtain ⟨memo, hmemo⟩ := exists_incoming 0 view.note.assetId
  have hpacked : packParents view.leafIndex 0 = .ok ((view.leafIndex : ℤ) : Fr) := by
    have hindex0 : assertU32 "leafIndex" view.leafIndex = .ok view.leafIndex := if_neg (by omega)
    have hindex1 : assertU32 "leafIndex" 0 = .ok 0 := if_neg (by norm_num)
    unfold packParents
    rw [bind_of_ok hindex0, bind_of_ok hindex1]
    have hlt : (view.leafIndex : ℤ) < bn254ScalarFieldModulus := by
      norm_num [bn254ScalarFieldModulus]
      omega
    simpa using newFr_eq (Int.natCast_nonneg _) hlt
  have hzero : Tss.newFr 0 = .ok ((0 : ℤ) : Fr) := newFr_eq le_rfl (by norm_num [bn254ScalarFieldModulus])
  have hleaf : ∀ note, leafOf sampleHash note 0 = .ok (sampleHash { note with value := 0 : Notes.Note }.preimage) := by
    intro note
    rw [leafOf, if_neg (by norm_num)]
    exact leaf_ok (by norm_num)
  have hchange : ∀ parents, ∃ note, mintSelfNoteMultisig Library.reference sampleHash 4 0 view.note.assetId
      (coords BabyJubJub.base) (publicKey Library.reference 4) parents = .ok (note, sampleX) := by
    intro parents
    unfold mintSelfNoteMultisig
    rw [bind_of_ok multisigOwner_sample,
      bind_of_ok (deriveCek_coords Library.reference_lawful validScalar_four BabyJubJub.base_ne_zero)]
    dsimp only
    rw [bind_of_ok hzero, bind_of_ok (hleaf _)]
    exact ⟨_, rfl⟩
  obtain ⟨note, hchange⟩ := hchange ((view.leafIndex : ℤ) : Fr)
  have hfinish : ∃ assembled, finishTransferMultisig Library.reference sampleHash
      ⟨publicKey Library.reference 4, 4, 1, coords BabyJubJub.base, view, 1, publicKey Library.reference 4, 0, 5⟩
      ⟨view.leafIndex, fun _ => 0, view.commitment⟩ 4 = .ok assembled ∧ assembled.changeCommitment = sampleX := by
    unfold finishTransferMultisig
    dsimp only
    rw [hvalue, bind_of_ok hpacked]
    norm_num only [Nat.cast_one, sub_self]
    rw [bind_of_ok hchange, bind_of_ok hmemo]
    exact ⟨_, rfl, rfl⟩
  obtain ⟨assembled, hassembled, hcommitment⟩ := hfinish
  refine ⟨assembled, (multisigDepositEph Library.reference sampleHash 4 1 freshCounters
    (publicKey Library.reference 4)).2, ?_, hcommitment⟩
  have hfirst : assembleTransferMultisig Library.reference sampleHash (sampleSource view.leafIndex 4 view.commitment)
      ⟨publicKey Library.reference 4, 4, 1, coords BabyJubJub.base, view, 1, publicKey Library.reference 4, 0, 5⟩
      freshCounters = (.ok assembled, (multisigDepositEph Library.reference sampleHash 4 1 freshCounters
        (publicKey Library.reference 4)).2) := by
    unfold assembleTransferMultisig sampleSource
    dsimp only
    rw [if_neg (by simp), if_neg (by rw [hvalue]; norm_num), bind_of_ok multisigDepositEph_sample, hassembled]
    rfl
  unfold assembleRow
  rw [hfirst]

end Kakure.Tx
