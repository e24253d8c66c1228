import Kakure.Lib.Trials
import Kakure.Notes.Derivation
import Kakure.Notes.EvenY
import Kakure.Sdk.ComplianceKeys
import Kakure.Sync.Events
import Kakure.Wallet.KeyRepository

/-!
# The note processor

`sync/NoteProcessor.ts`: a self note is opened by a trial of the compliance keys, a memo with the content key it
carries.  The console is left out.

* `openNote_encrypted` — the right content key opens a note;
* `tryEpoch_next`, `tryEpoch_right`, `tryEpoch_thrown` — what comes of a compliance key.
-/

namespace Kakure.Sync

open Notes Tss Wallet Sdk Trials Fallible

/-- `WalletNote`. -/
structure WalletNote where
  note : Notes.Note
  commitment : Fr
  leafIndex : ℕ
  nullifier : Fr
  spendScalar : Fr
  isIncoming : Bool
  derivationIndex : ℕ
  spent : Bool
  deriving DecidableEq

/-- `RecoverOutcome`. -/
inductive RecoverOutcome where
  | note (note : WalletNote)
  | leafMismatch
  | rejected

/-- `ASSET_MODULUS`. -/
def assetModulus : ℕ := 2 ^ 160

/-- `NoteProcessor`. -/
structure NoteProcessor where
  keys : ComplianceKeyRing
  unopenable : ℕ

section Processor

variable (lib : Library) (hash : List Fr → Fr)

/-- The note a content key makes of a ciphertext. -/
def openNote (cek : Fr) (packedCiphertext : List String) : Except String Notes.Note := do
  let ciphertext ← packedCiphertext.mapM toFr
  let plaintext ← demDecrypt hash cek ciphertext
  return noteOf plaintext (computePsi hash cek)

/-- `recover`. -/
def recover (cek : Fr) (packedCiphertext : List String) (commitment : Fr) (leafIndex : ℕ) (spendScalar : Fr)
    (isIncoming : Bool) (derivationIndex : ℕ) : Except String RecoverOutcome := do
  let note ← openNote hash cek packedCiphertext
  let rebuilt ← leaf hash note
  if rebuilt ≠ commitment then return .leafMismatch
  else if note.noteType ≠ noteTypeStandard then return .rejected
  else if note.owner = 0 then return .rejected
  else if assetModulus ≤ note.assetId.val then return .rejected
  else if note.owner ≠ pubkeyOwner hash (publicKey lib spendScalar) then return .rejected
  else
    return .note {
      note := note
      commitment := commitment
      leafIndex := leafIndex
      nullifier := computeNullifier hash note.psi leafIndex
      spendScalar := spendScalar
      isIncoming := isIncoming
      derivationIndex := derivationIndex
      spent := false }

/-- A turn of the loop of `processNewNote`: the shared key is derived outside of the inner `try`. -/
def tryEpoch (spendScalar : Fr) (event : UnprocessedEvent) (commitment : Fr) (found : ℕ × Fr)
    (epoch : ComplianceKeyEpoch) : Attempt String (Option WalletNote) :=
  match deriveCek lib found.2 epoch.pk with
  | .error e => .thrown e
  | .ok cek =>
    match recover lib hash cek event.args.packedCiphertext commitment event.args.leafIndex spendScalar false
        found.1 with
    | .error _ => .next
    | .ok (.note note) => .answer (some note)
    | .ok .leafMismatch => .next
    | .ok .rejected => .answer none

/-- The trial of `processNewNote`. -/
def openSelf (keys : ComplianceKeyRing) (spendScalar : Fr) (event : UnprocessedEvent) (found : ℕ × Fr) :
    Except String (Option (Option WalletNote)) := do
  let commitment ← toFr event.args.commitment
  trial (tryEpoch lib hash spendScalar event commitment found) (keys.candidatesFor (some event.blockNumber))

/-- `processNewNote`. -/
def processNewNote (p : NoteProcessor) (spendScalar : Fr) (r : KeyRepository) (event : UnprocessedEvent) :
    Option WalletNote × NoteProcessor × KeyRepository :=
  let found := r.matchSelfTag event.args.ephemeralX
  match found.1 with
  | none => (none, p, found.2)
  | some key =>
    match openSelf lib hash p.keys spendScalar event key with
    | .error _ => (none, p, found.2)
    | .ok none => (none, { p with unopenable := p.unopenable + 1 }, found.2)
    | .ok (some answer) => (answer, p, found.2)

/-- The part of `processMemo` after the match. -/
def openMemo (event : UnprocessedEvent) (cekWrap : ℤ) (found : ℕ × Fr) : Except String RecoverOutcome := do
  let ephPub ← recoverEvenY event.args.ephemeralX
  let wrapped ← newFr cekWrap
  let cek ← unwrapCek lib hash wrapped found.2 ephPub
  let commitment ← toFr event.args.commitment
  recover lib hash cek event.args.packedCiphertext commitment event.args.leafIndex found.2 true found.1

/-- `processMemo`. -/
def processMemo (p : NoteProcessor) (r : KeyRepository) (event : UnprocessedEvent) :
    Option WalletNote × NoteProcessor × KeyRepository :=
  match event.args.tag, event.args.cekWrap with
  | some tag, some cekWrap =>
    let found := r.matchIncomingTag tag
    match found.1 with
    | none => (none, p, found.2)
    | some key =>
      match openMemo lib hash event cekWrap key with
      | .ok (.note note) => (some note, p, found.2.recordIncomingMatch key.1)
      | _ => (none, p, found.2)
  | _, _ => (none, p, r)

/-- `process`. -/
def NoteProcessor.process (p : NoteProcessor) (spendScalar : Fr) (r : KeyRepository) (event : UnprocessedEvent) :
    Option WalletNote × NoteProcessor × KeyRepository :=
  match event.type with
  | .newNote => processNewNote lib hash p spendScalar r event
  | .newMemo => processMemo lib hash p r event

end Processor

/-! ## Opening -/

variable {lib : Library} {hash : List Fr → Fr}

/-- The texts of a ciphertext. -/
def packed (ciphertext : List Fr) : List String := ciphertext.map fun x => Hex.toHex x.toBytes.val

theorem mapM_toFr (ciphertext : List Fr) : (packed ciphertext).mapM toFr = .ok ciphertext := by
  induction ciphertext with
  | nil => rfl
  | cons x ciphertext ih =>
    have hcons : packed (x :: ciphertext) = Hex.toHex x.toBytes.val :: packed ciphertext := rfl
    rw [hcons, List.mapM_cons, bind_of_ok (toFr_toBytes x), bind_of_ok ih]
    rfl

/-- The right content key opens a note. -/
theorem openNote_encrypted {note : Notes.Note} {cek : Fr} (hvalue : note.value < 2 ^ 128)
    (hpsi : note.psi = computePsi hash cek) :
    openNote hash cek (packed (encrypted hash cek note.transmitted)) = .ok note := by
  have hlength : note.transmitted.length = demFields := rfl
  unfold openNote
  rw [bind_of_ok (mapM_toFr _), bind_of_ok (demDecrypt_encrypt cek hlength), ← hpsi, noteOf_transmitted hvalue]
  rfl

theorem openNote_psi {cek : Fr} {packedCiphertext : List String} {note : Notes.Note}
    (h : openNote hash cek packedCiphertext = .ok note) : note.psi = computePsi hash cek := by
  unfold openNote at h
  obtain ⟨ciphertext, -, h⟩ := bind_eq_ok.1 h
  obtain ⟨plaintext, -, h⟩ := bind_eq_ok.1 h
  cases h
  rfl

/-- A note that the processor takes: of the type, of an owner and of an asset. -/
structure Acceptable (lib : Library) (hash : List Fr → Fr) (spendScalar : Fr) (note : Notes.Note) : Prop where
  noteType : note.noteType = noteTypeStandard
  owned : note.owner ≠ 0
  asset : note.assetId.val < assetModulus
  owner : note.owner = pubkeyOwner hash (publicKey lib spendScalar)

/-- The note of a wallet. -/
def walletNote (hash : List Fr → Fr) (note : Notes.Note) (leafIndex : ℕ) (spendScalar : Fr) (isIncoming : Bool)
    (derivationIndex : ℕ) : WalletNote where
  note := note
  commitment := hash note.preimage
  leafIndex := leafIndex
  nullifier := computeNullifier hash note.psi leafIndex
  spendScalar := spendScalar
  isIncoming := isIncoming
  derivationIndex := derivationIndex
  spent := false

/-- The right content key recovers a note. -/
theorem recover_encrypted {note : Notes.Note} {cek spendScalar : Fr} {leafIndex derivationIndex : ℕ} {isIncoming : Bool}
    (hvalue : note.value < 2 ^ 128) (hpsi : note.psi = computePsi hash cek)
    (h : Acceptable lib hash spendScalar note) :
    recover lib hash cek (packed (encrypted hash cek note.transmitted)) (hash note.preimage) leafIndex spendScalar
        isIncoming derivationIndex =
      .ok (.note (walletNote hash note leafIndex spendScalar isIncoming derivationIndex)) := by
  unfold recover
  rw [bind_of_ok (openNote_encrypted hvalue hpsi), bind_of_ok (leaf_ok hvalue), if_neg (by simp),
    if_neg (not_not.2 h.noteType), if_neg h.owned, if_neg (not_le.2 h.asset), if_neg (not_not.2 h.owner)]
  rfl

/-- The right content key of a note that is not acceptable rejects it. -/
theorem recover_rejected {note : Notes.Note} {cek spendScalar : Fr} {leafIndex derivationIndex : ℕ} {isIncoming : Bool}
    (hvalue : note.value < 2 ^ 128) (hpsi : note.psi = computePsi hash cek)
    (h : ¬ Acceptable lib hash spendScalar note) :
    recover lib hash cek (packed (encrypted hash cek note.transmitted)) (hash note.preimage) leafIndex spendScalar
        isIncoming derivationIndex = .ok .rejected := by
  unfold recover
  rw [bind_of_ok (openNote_encrypted hvalue hpsi), bind_of_ok (leaf_ok hvalue), if_neg (by simp)]
  split_ifs with htype howned hasset howner
  · rfl
  · rfl
  · rfl
  · rfl
  · exact absurd ⟨not_not.1 htype, howned, not_le.1 hasset, not_not.1 howner⟩ h

/-- A content key that opens no note of the commitment fails or mismatches. -/
theorem recover_mismatch (lib : Library) (leafIndex : ℕ) (spendScalar : Fr) (isIncoming : Bool) (derivationIndex : ℕ)
    {cek commitment : Fr} {packedCiphertext : List String}
    (h : ∀ note, openNote hash cek packedCiphertext = .ok note → hash note.preimage ≠ commitment) :
    (∃ e, recover lib hash cek packedCiphertext commitment leafIndex spendScalar isIncoming derivationIndex =
        .error e) ∨
      recover lib hash cek packedCiphertext commitment leafIndex spendScalar isIncoming derivationIndex =
        .ok .leafMismatch := by
  unfold recover
  cases hopen : openNote hash cek packedCiphertext with
  | error e => exact Or.inl ⟨e, rfl⟩
  | ok note =>
    rw [bind_of_ok rfl]
    by_cases hvalue : note.value < 2 ^ 128
    · rw [bind_of_ok (leaf_ok hvalue), if_pos (h note hopen)]
      exact Or.inr rfl
    · have hleaf : leaf hash note = .error ("note value out of u128 range: " ++ toString note.value) :=
        if_pos (not_lt.1 hvalue)
      rw [bind_of_error hleaf]
      exact Or.inl ⟨_, rfl⟩

end Kakure.Sync
