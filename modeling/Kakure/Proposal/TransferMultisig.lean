import Kakure.Proposal.Signing
import Kakure.Tx.Multisig

/-!
# Transfers of a group as proposals

`packages/cli/src/proposal/transferMultisigProposal.ts` and `execute.ts`, the input map of `packages/prover`, and
`runTransferMultisigProposal` of `treasuryFlows.ts`.  Every function that polls takes the log it is answered; proving and
building the instructions are parameters.

* `details_read` — what is serialised is read back;
* `run_assembled_iff` — what is signed and proved is what was assembled, if the first proposal that the log had with the
  identifier, where it had one, says the same.
-/

namespace Kakure.Proposal

open Fallible Numerals Runs
open Frost (Commitment Ciphersuite Signature encodeMessage)
open Tss (Point newFr)
open Tx (ProverNoteInput TransferMultisigInputs AssembledTransferMultisig)

/-! ## Texts -/

/-- `toString` of a field element. -/
def frText (x : Fr) : List Char := '0' :: 'x' :: padStart 64 (numeral 16 x.val)

/-- `new Fr(BigInt(text))`. -/
def readFr (text : List Char) : Except String Fr := do
  let value ← readBigInt text
  newFr value

theorem readFr_frText (x : Fr) : readFr (frText x) = .ok x := by
  have hbig : readBigInt (frText x) = .ok (x.val : ℤ) := by
    have htext : bigInt (frText x) = some (x.val : ℤ) := bigInt_padStart 64 x.val
    rw [readBigInt, htext]
  rw [readFr, bind_of_ok hbig, Tss.newFr_val]

theorem frText_injective : Function.Injective frText := by
  intro x y h
  have hread := readFr_frText x
  rw [h, readFr_frText] at hread
  exact (Except.ok.inj hread).symm

/-- A note as `noteToHex` writes it. -/
structure HexNote where
  noteVersion : List Char
  assetId : List Char
  noteType : List Char
  conditionsHash : List Char
  value : List Char
  owner : List Char
  psi : List Char
  parents : List Char
  deriving DecidableEq

/-- `noteToHex`. -/
def noteToHex (n : ProverNoteInput) : HexNote where
  noteVersion := frText n.noteVersion
  assetId := frText n.assetId
  noteType := frText n.noteType
  conditionsHash := frText n.conditionsHash
  value := frText n.value
  owner := frText n.owner
  psi := frText n.psi
  parents := frText n.parents

/-- `noteFromHex`. -/
def noteFromHex (h : HexNote) : Except String ProverNoteInput := do
  let noteVersion ← readFr h.noteVersion
  let assetId ← readFr h.assetId
  let noteType ← readFr h.noteType
  let conditionsHash ← readFr h.conditionsHash
  let value ← readFr h.value
  let owner ← readFr h.owner
  let psi ← readFr h.psi
  let parents ← readFr h.parents
  .ok ⟨noteVersion, assetId, noteType, conditionsHash, value, owner, psi, parents⟩

/-- `pointToHex`. -/
def pointToHex (p : Point) : HexPoint := ⟨toText 10 p.1, toText 10 p.2⟩

/-- `pointFromHexDec`. -/
def pointFromHexDec (h : HexPoint) : Except String Point := do
  let x ← readBigInt h.x
  let y ← readBigInt h.y
  .ok (x, y)

theorem noteFromHex_noteToHex (n : ProverNoteInput) : noteFromHex (noteToHex n) = .ok n := by
  unfold noteFromHex noteToHex
  simp only [bind_of_ok (readFr_frText _)]

theorem noteToHex_injective : Function.Injective noteToHex := by
  intro n m h
  have hread := noteFromHex_noteToHex n
  rw [h, noteFromHex_noteToHex] at hread
  exact (Except.ok.inj hread).symm

theorem pointFromHexDec_pointToHex (p : Point) : pointFromHexDec (pointToHex p) = .ok p := by
  rw [pointFromHexDec, pointToHex, bind_of_ok (readBigInt_decimal _), bind_of_ok (readBigInt_decimal _)]

/-! ## Details -/

/-- `TransferMultisigProposalDetails`. -/
structure TransferMultisigProposalDetails where
  compliancePk : HexPoint
  recipientInPub : HexPoint
  oldNote : HexNote
  oldNoteIndex : ℕ
  oldNotePath : List (List Char)
  memoNote : HexNote
  memoEph : List Char
  changeNote : HexNote
  changeEph : List Char

/-- The details of a proposal, `none` where they lack a field that a transfer reads. -/
abbrev Details := Option TransferMultisigProposalDetails

/-- `serializeAssembledTransferMultisig`. -/
def serializeAssembledTransferMultisig (assembled : AssembledTransferMultisig) : TransferMultisigProposalDetails :=
  let p := assembled.partialInputs
  { compliancePk := pointToHex p.compliancePk
    recipientInPub := pointToHex p.recipientInPub
    oldNote := noteToHex p.oldNote
    oldNoteIndex := p.oldNoteIndex
    oldNotePath := (List.ofFn p.oldNotePath).map frText
    memoNote := noteToHex p.memoNote
    memoEph := frText p.memoEph
    changeNote := noteToHex p.changeNote
    changeEph := frText p.changeEph }

/-- The payload of `createTransferMultisigProposal`. -/
def transferPayload (proposalId : List Char) (assembled : AssembledTransferMultisig) : ProposalPayload Details where
  kind := .transfer
  proposalId := proposalId
  messageHex := '0' :: 'x' :: toText 16 assembled.message.val
  details := some (serializeAssembledTransferMultisig assembled)

/-! ## The input map -/

/-- `TransferMultisigInputs` of the prover, for a memo that has one key. -/
structure ProverInputs where
  compliancePk : Point
  gpk : Point
  frostR : Point
  frostZ : Fr
  recipientInPub : Point
  oldNote : ProverNoteInput
  oldNoteIndex : ℕ
  oldNotePath : List Fr
  memoNote : ProverNoteInput
  memoEph : Fr
  changeNote : ProverNoteInput
  changeEph : Fr

/-- The input map of `transfer_multisig`. -/
structure InputMap where
  compliancePubkeyX : List Char
  compliancePubkeyY : List Char
  gpk : HexPoint
  frostR : HexPoint
  frostZ : List Char
  recipientSpendPub : HexPoint
  recipientViewPub : HexPoint
  oldNote : HexNote
  oldNoteIndex : List Char
  oldNotePath : List (List Char)
  memoNote : HexNote
  memoEph : List Char
  changeNote : HexNote
  changeEph : List Char
  deriving DecidableEq

/-- `pointHex`. -/
def pointHex (p : Point) : HexPoint := ⟨'0' :: 'x' :: toText 16 p.1, '0' :: 'x' :: toText 16 p.2⟩

/-- `marshalNote`: the texts are those of `noteToHex`. -/
def marshalNote (circuit : String) (note : ProverNoteInput) : Except String HexNote :=
  if 2 ^ 128 - 1 < note.value.val then .error (circuit ++ ": note value exceeds u128 range") else .ok (noteToHex note)

/-- `memoRecipientPoints`, without a group as the recipient. -/
def memoRecipientPoints (circuit : String) (memoNoteType : Fr) (inPub : Point) : Except String (Point × Point) :=
  if memoNoteType = Notes.noteTypeMultisig then
    .error (circuit ++ ": memo recipient: a MULTISIG memo requires recipientMultisig (owner and view must decouple)")
  else .ok (inPub, inPub)

/-- `buildTransferMultisigInputMap`. -/
def buildTransferMultisigInputMap (inputs : ProverInputs) : Except String InputMap := do
  let c := pointHex inputs.compliancePk
  let recipient ← memoRecipientPoints "transfer_multisig" inputs.memoNote.noteType inputs.recipientInPub
  let oldNote ← marshalNote "transfer_multisig" inputs.oldNote
  let memoNote ← marshalNote "transfer_multisig" inputs.memoNote
  let changeNote ← marshalNote "transfer_multisig" inputs.changeNote
  .ok {
    compliancePubkeyX := c.x
    compliancePubkeyY := c.y
    gpk := pointHex inputs.gpk
    frostR := pointHex inputs.frostR
    frostZ := frText inputs.frostZ
    recipientSpendPub := pointHex recipient.1
    recipientViewPub := pointHex recipient.2
    oldNote := oldNote
    oldNoteIndex := toText 10 inputs.oldNoteIndex
    oldNotePath := inputs.oldNotePath.map frText
    memoNote := memoNote
    memoEph := frText inputs.memoEph
    changeNote := changeNote
    changeEph := frText inputs.changeEph }

/-- The inputs that a proof of an assembled transfer takes, with a signature. -/
def ProverInputs.ofAssembled (assembled : AssembledTransferMultisig) (gpk frostR : Point) (frostZ : Fr) : ProverInputs :=
  let p := assembled.partialInputs
  { compliancePk := p.compliancePk
    gpk := gpk
    frostR := frostR
    frostZ := frostZ
    recipientInPub := p.recipientInPub
    oldNote := p.oldNote
    oldNoteIndex := p.oldNoteIndex
    oldNotePath := List.ofFn p.oldNotePath
    memoNote := p.memoNote
    memoEph := p.memoEph
    changeNote := p.changeNote
    changeEph := p.changeEph }

/-- The inputs that `buildTransferMultisigInputsFromProposal` reads out of a proposal. -/
def readInputs (signature : Signature Point) (details : Details) (gpk : Point) : Except String ProverInputs :=
  match details with
  | none => .error "TypeError: Cannot read properties of undefined"
  | some d => do
    let compliancePk ← pointFromHexDec d.compliancePk
    let frostZ ← newFr signature.z
    let recipientInPub ← pointFromHexDec d.recipientInPub
    let oldNote ← noteFromHex d.oldNote
    let oldNotePath ← d.oldNotePath.mapM readFr
    let memoNote ← noteFromHex d.memoNote
    let memoEph ← readFr d.memoEph
    let changeNote ← noteFromHex d.changeNote
    let changeEph ← readFr d.changeEph
    .ok ⟨compliancePk, gpk, signature.R, frostZ, recipientInPub, oldNote, d.oldNoteIndex, oldNotePath, memoNote, memoEph,
      changeNote, changeEph⟩

/-- `buildTransferMultisigInputsFromProposal`. -/
def buildTransferMultisigInputsFromProposal (signature : Signature Point) (proposal : ProposalPayload Details)
    (gpk : Point) : Except String InputMap := do
  let inputs ← readInputs signature proposal.details gpk
  buildTransferMultisigInputMap inputs

/-! ## What is read back -/

theorem pointHex_injective : Function.Injective pointHex := by
  intro p q h
  simp only [pointHex, HexPoint.mk.injEq, List.cons.injEq, true_and] at h
  exact Prod.ext (toText_hex_injective h.1) (toText_hex_injective h.2)

theorem marshalNote_eq_ok {circuit : String} {note : ProverNoteInput} {h : HexNote} :
    marshalNote circuit note = .ok h ↔ note.value.val < 2 ^ 128 ∧ noteToHex note = h := by
  unfold marshalNote
  split_ifs with hvalue
  · simp only [false_iff, not_and]
    omega
  · rw [Except.ok.injEq]
    exact ⟨fun heq => ⟨by omega, heq⟩, fun heq => heq.2⟩

/-- The inputs of a memo with one key have a map, if their values fit. -/
theorem exists_inputMap {i : ProverInputs} (htype : i.memoNote.noteType ≠ Notes.noteTypeMultisig)
    (hold : i.oldNote.value.val < 2 ^ 128) (hmemo : i.memoNote.value.val < 2 ^ 128)
    (hchange : i.changeNote.value.val < 2 ^ 128) : ∃ m, buildTransferMultisigInputMap i = .ok m := by
  have hrecipient : memoRecipientPoints "transfer_multisig" i.memoNote.noteType i.recipientInPub =
      .ok (i.recipientInPub, i.recipientInPub) := if_neg htype
  unfold buildTransferMultisigInputMap
  rw [bind_of_ok hrecipient, bind_of_ok (marshalNote_eq_ok.2 ⟨hold, rfl⟩), bind_of_ok (marshalNote_eq_ok.2 ⟨hmemo, rfl⟩),
    bind_of_ok (marshalNote_eq_ok.2 ⟨hchange, rfl⟩)]
  exact ⟨_, rfl⟩

/-- An input map has one set of inputs. -/
theorem buildTransferMultisigInputMap_injective {i j : ProverInputs} {m : InputMap}
    (hi : buildTransferMultisigInputMap i = .ok m) (hj : buildTransferMultisigInputMap j = .ok m) : i = j := by
  unfold buildTransferMultisigInputMap memoRecipientPoints at hi hj
  split_ifs at hi hj with htype htype'
  · cases hi
  · cases hi
  · cases hj
  simp only [bind_eq_ok, marshalNote_eq_ok, Except.ok.injEq] at hi hj
  obtain ⟨_, rfl, _, ⟨-, rfl⟩, _, ⟨-, rfl⟩, _, ⟨-, rfl⟩, rfl⟩ := hi
  obtain ⟨_, rfl, _, ⟨-, hold⟩, _, ⟨-, hmemo⟩, _, ⟨-, hchange⟩, hj⟩ := hj
  simp only [InputMap.mk.injEq] at hj
  obtain ⟨hx, hy, hgpk, hR, hz, hrecipient, -, rfl, hindex, hpath, rfl, hmemoEph, rfl, hchangeEph⟩ := hj
  have hkey : j.compliancePk = i.compliancePk := by
    refine pointHex_injective ?_
    rw [pointHex, pointHex, HexPoint.mk.injEq]
    exact ⟨hx, hy⟩
  have hgpk' := pointHex_injective hgpk
  have hR' := pointHex_injective hR
  have hz' := frText_injective hz
  have hrecipient' := pointHex_injective hrecipient
  have hindex' : j.oldNoteIndex = i.oldNoteIndex := Int.ofNat_inj.1 (toText_injective hindex)
  have hpath' := frText_injective.list_map hpath
  have hmemoEph' := frText_injective hmemoEph
  have hchangeEph' := frText_injective hchangeEph
  have hold' := noteToHex_injective hold
  have hmemo' := noteToHex_injective hmemo
  have hchange' := noteToHex_injective hchange
  cases i
  cases j
  simp_all

/-- What is serialised is read back, for any signature. -/
theorem details_read (assembled : AssembledTransferMultisig) (signature : Signature Point) {z : Fr}
    (hz : newFr signature.z = .ok z) (gpk : Point) :
    readInputs signature (some (serializeAssembledTransferMultisig assembled)) gpk =
      .ok (.ofAssembled assembled gpk signature.R z) := by
  have hpath : ((List.ofFn assembled.partialInputs.oldNotePath).map frText).mapM readFr =
      .ok (List.ofFn assembled.partialInputs.oldNotePath) := by
    have h : (List.ofFn assembled.partialInputs.oldNotePath).mapM (readFr ∘ frText) =
        .ok ((List.ofFn assembled.partialInputs.oldNotePath).map id) :=
      mapM_eq_ok fun x _ => readFr_frText x
    rw [List.mapM_map]
    rwa [List.map_id] at h
  unfold readInputs serializeAssembledTransferMultisig
  simp only [bind_of_ok (pointFromHexDec_pointToHex _), bind_of_ok hz, bind_of_ok (noteFromHex_noteToHex _),
    bind_of_ok hpath, bind_of_ok (readFr_frText _)]
  rfl

theorem readInputs_frostZ {signature : Signature Point} {details : Details} {gpk : Point} {inputs : ProverInputs}
    (h : readInputs signature details gpk = .ok inputs) : newFr signature.z = .ok inputs.frostZ := by
  cases details with
  | none => cases h
  | some d =>
    unfold readInputs at h
    simp only [bind_eq_ok] at h
    obtain ⟨_, -, z, hz, _, -, _, -, _, -, _, -, _, -, _, -, _, -, h⟩ := h
    cases h
    exact hz

/-- The signature is read apart from the details. -/
theorem readInputs_signature {signature signature' : Signature Point} {details : Details} {gpk : Point}
    {inputs : ProverInputs} (h : readInputs signature details gpk = .ok inputs) {z : Fr}
    (hz : newFr signature'.z = .ok z) :
    readInputs signature' details gpk = .ok { inputs with frostR := signature'.R, frostZ := z } := by
  cases details with
  | none => cases h
  | some d =>
    unfold readInputs at h ⊢
    dsimp only at h ⊢
    obtain ⟨c, hc, h⟩ := bind_eq_ok.1 h
    obtain ⟨_, -, h⟩ := bind_eq_ok.1 h
    obtain ⟨r, hr, h⟩ := bind_eq_ok.1 h
    obtain ⟨old, hold, h⟩ := bind_eq_ok.1 h
    obtain ⟨path, hpath, h⟩ := bind_eq_ok.1 h
    obtain ⟨memo, hmemo, h⟩ := bind_eq_ok.1 h
    obtain ⟨memoEph, hmemoEph, h⟩ := bind_eq_ok.1 h
    obtain ⟨change, hchange, h⟩ := bind_eq_ok.1 h
    obtain ⟨changeEph, hchangeEph, h⟩ := bind_eq_ok.1 h
    cases h
    rw [bind_of_ok hc, bind_of_ok hz, bind_of_ok hr, bind_of_ok hold, bind_of_ok hpath, bind_of_ok hmemo,
      bind_of_ok hmemoEph, bind_of_ok hchange, bind_of_ok hchangeEph]

theorem messageOf_transferPayload (proposalId : List Char) (assembled : AssembledTransferMultisig) :
    messageOf (transferPayload proposalId assembled) = .ok (encodeMessage assembled.message.val) := by
  have hmod : (assembled.message.val : ℤ) % 2 ^ 256 = assembled.message.val := by
    have hlt := ZMod.val_lt assembled.message
    refine Int.emod_eq_of_lt (Int.natCast_nonneg _) ?_
    have hle : bn254ScalarFieldModulus ≤ 2 ^ 256 := by norm_num [bn254ScalarFieldModulus]
    omega
  have hread : readBigInt (transferPayload proposalId assembled).messageHex = .ok (assembled.message.val : ℤ) :=
    readBigInt_hex (Int.natCast_nonneg _)
  rw [messageOf, bind_of_ok hread, hmod]
  rfl

/-! ## A run -/

section Run

variable {Κ Β Ι : Type} (session : Session Κ Details) (cs : Ciphersuite Point) (proposalId : List Char) (gpk : Point)
  (threshold : ℕ)

/-- A call of `signProposal`: the signer, its randomness, and what the log has gained by the time of its two polls. -/
structure SignerCall (Κ : Type) where
  myId : ℤ
  mySecretShare : ℤ
  hidingRandom : List UInt8
  bindingRandom : List UInt8
  fetched : List (Envelope Κ)
  collected : List (Envelope Κ)

/-- `signProposal` on a log: the message that is signed, and the two payloads that are published. -/
def signProposal (log : List (Envelope Κ)) (call : SignerCall Κ) :
    Except String (List UInt8 × NonceEnvelopePayload × ShareEnvelopePayload) := do
  let proposal ← fetchProposal session (log ++ call.fetched) proposalId
  let message ← messageOf proposal
  let (nonces, commitment) ← Frost.commit cs call.myId call.mySecretShare call.hidingRandom call.bindingRandom
  let commitments ← collectCommitments session proposalId threshold (log ++ call.collected)
  let zShare ← (Frost.signShare cs call.myId nonces call.mySecretShare gpk message commitments).1
  .ok (message, noncePayload proposalId commitment, sharePayload proposalId call.myId zShare)

/-- What `executeProposal` returns, with the message that is signed and the input map that is proved. -/
structure Executed (Β Ι : Type) where
  message : List UInt8
  signature : Signature Point
  inputs : InputMap
  bundle : Β
  instructions : List Ι

/-- `executeProposal` without a transaction, with what the log has gained by the time of its three polls. -/
def executeProposal (publicShares : List Char → Option Point) (prove : InputMap → Except String Β)
    (buildInstructions : Β → List Ι) (proposalLog nonceLog shareLog : List (Envelope Κ)) :
    Except String (Executed Β Ι) := do
  let result ← aggregateProposal session cs proposalId gpk threshold publicShares proposalLog nonceLog shareLog
  let inputs ← buildTransferMultisigInputsFromProposal result.signature result.proposal gpk
  let bundle ← prove inputs
  .ok ⟨result.message, result.signature, inputs, bundle, buildInstructions bundle⟩

/-- What a run has signed and executed. -/
structure TransferRun (Β Ι : Type) where
  signed : List (List UInt8)
  executed : Executed Β Ι

/-- `runTransferMultisigProposal`, on a log that had entries before. -/
def runTransferMultisigProposal (publicShares : List Char → Option Point) (prove : InputMap → Except String Β)
    (buildInstructions : Β → List Ι) (assembled : AssembledTransferMultisig) (random : ℕ) (prior : List (Envelope Κ))
    (quorum : List (SignerCall Κ)) (proposalMore nonceMore shareMore : List (Envelope Κ)) :
    Except String (TransferRun Β Ι) := do
  let log := prior ++ [createProposal session random (transferPayload proposalId assembled)]
  let signed ← quorum.mapM (signProposal session cs proposalId gpk threshold log)
  let executed ← executeProposal session cs proposalId gpk threshold publicShares prove buildInstructions
    (log ++ proposalMore) (log ++ nonceMore) (log ++ shareMore)
  .ok ⟨signed.map Prod.fst, executed⟩

end Run

/-- What is signed and what is proved are those of an assembled transfer. -/
structure TransferRun.OfAssembled {Β Ι : Type} (run : TransferRun Β Ι) (assembled : AssembledTransferMultisig) (gpk : Point) :
    Prop where
  signed : ∀ m ∈ run.signed, m = encodeMessage assembled.message.val
  message : run.executed.message = encodeMessage assembled.message.val
  inputs : ∃ z, newFr run.executed.signature.z = .ok z ∧
    buildTransferMultisigInputMap (.ofAssembled assembled gpk run.executed.signature.R z) = .ok run.executed.inputs

/-- A proposal asks for an assembled transfer: its message, and details that read as its inputs. -/
structure Asks (p : ProposalPayload Details) (assembled : AssembledTransferMultisig) (gpk : Point) : Prop where
  message : messageOf p = .ok (encodeMessage assembled.message.val)
  inputs : ∀ signature z, newFr signature.z = .ok z →
    readInputs signature p.details gpk = .ok (.ofAssembled assembled gpk signature.R z)

theorem asks_transferPayload (proposalId : List Char) (assembled : AssembledTransferMultisig) (gpk : Point) :
    Asks (transferPayload proposalId assembled) assembled gpk :=
  ⟨messageOf_transferPayload proposalId assembled, fun signature _ hz => details_read assembled signature hz gpk⟩

section Run

variable {Κ Β Ι : Type} {session : Session Κ Details} {cs : Ciphersuite Point} {proposalId : List Char} {gpk : Point}
  {threshold : ℕ} {publicShares : List Char → Option Point} {prove : InputMap → Except String Β}
  {buildInstructions : Β → List Ι} {assembled : AssembledTransferMultisig} {random : ℕ} {prior : List (Envelope Κ)}
  {quorum : List (SignerCall Κ)} {proposalMore nonceMore shareMore : List (Envelope Κ)} {run : TransferRun Β Ι}

/-- The proposal that every reader finds: the first with the identifier that the log had, or else the one of the run. -/
theorem fetchProposal_run (more : List (Envelope Κ)) :
    fetchProposal session (prior ++ [createProposal session random (transferPayload proposalId assembled)] ++ more)
      proposalId =
      .ok ((prior.findSome? (proposalOf session proposalId)).getD (transferPayload proposalId assembled)) := by
  have hown : proposalOf session proposalId (createProposal session random (transferPayload proposalId assembled)) =
      some (transferPayload proposalId assembled) := by
    simp [proposalOf, createProposal, session.open_seal, transferPayload]
  rw [fetchProposal_eq_ok_iff, List.findSome?_append, List.findSome?_append]
  cases prior.findSome? (proposalOf session proposalId) with
  | none => simp [hown]
  | some p => rfl

/-- A run that returns has read one proposal everywhere. -/
theorem run_eq_ok (h : runTransferMultisigProposal session cs proposalId gpk threshold publicShares prove buildInstructions
      assembled random prior quorum proposalMore nonceMore shareMore = .ok run) :
    ∃ p message, p = (prior.findSome? (proposalOf session proposalId)).getD (transferPayload proposalId assembled) ∧
      messageOf p = .ok message ∧ (∀ m ∈ run.signed, m = message) ∧ run.executed.message = message ∧
      buildTransferMultisigInputsFromProposal run.executed.signature p gpk = .ok run.executed.inputs := by
  unfold runTransferMultisigProposal at h
  obtain ⟨signed, hsigned, h⟩ := bind_eq_ok.1 h
  obtain ⟨executed, hexecuted, h⟩ := bind_eq_ok.1 h
  cases h
  unfold executeProposal at hexecuted
  obtain ⟨result, hresult, hexecuted⟩ := bind_eq_ok.1 hexecuted
  obtain ⟨inputs, hinputs, hexecuted⟩ := bind_eq_ok.1 hexecuted
  obtain ⟨bundle, -, hexecuted⟩ := bind_eq_ok.1 hexecuted
  cases hexecuted
  unfold aggregateProposal at hresult
  rw [bind_of_ok (fetchProposal_run proposalMore)] at hresult
  obtain ⟨message, hmessage, hresult⟩ := bind_eq_ok.1 hresult
  obtain ⟨commitments, -, hresult⟩ := bind_eq_ok.1 hresult
  obtain ⟨envelopes, -, hresult⟩ := bind_eq_ok.1 hresult
  obtain ⟨shares, -, hresult⟩ := bind_eq_ok.1 hresult
  obtain ⟨rhos, -, hresult⟩ := bind_eq_ok.1 hresult
  obtain ⟨R, -, hresult⟩ := bind_eq_ok.1 hresult
  obtain ⟨signature, -, hresult⟩ := bind_eq_ok.1 hresult
  cases hresult
  refine ⟨_, message, rfl, hmessage, ?_, rfl, hinputs⟩
  intro m hm
  obtain ⟨out, hout, rfl⟩ := List.mem_map.1 hm
  obtain ⟨call, -, hcall⟩ := exists_mem_of_forall₂ (forall_of_mapM hsigned) hout
  unfold signProposal at hcall
  rw [bind_of_ok (fetchProposal_run call.fetched), bind_of_ok hmessage] at hcall
  obtain ⟨⟨nonces, commitment⟩, -, hcall⟩ := bind_eq_ok.1 hcall
  obtain ⟨commitments, -, hcall⟩ := bind_eq_ok.1 hcall
  obtain ⟨zShare, -, hcall⟩ := bind_eq_ok.1 hcall
  cases hcall
  rfl

/-- So it has signed and proved what that proposal asks for. -/
theorem ofAssembled_of_asks (h : runTransferMultisigProposal session cs proposalId gpk threshold publicShares prove
      buildInstructions assembled random prior quorum proposalMore nonceMore shareMore = .ok run)
    {asked : AssembledTransferMultisig}
    (hasks : Asks ((prior.findSome? (proposalOf session proposalId)).getD (transferPayload proposalId assembled)) asked gpk) :
    run.OfAssembled asked gpk := by
  obtain ⟨p, message, rfl, hmessage, hsigned, hexecuted, hinputs⟩ := run_eq_ok h
  unfold buildTransferMultisigInputsFromProposal at hinputs
  obtain ⟨inputs, hread, hmap⟩ := bind_eq_ok.1 hinputs
  have hz := readInputs_frostZ hread
  have hsame : message = encodeMessage asked.message.val := Except.ok.inj (hmessage.symm.trans hasks.message)
  refine ⟨fun m hm => (hsigned m hm).trans hsame, hexecuted.trans hsame, inputs.frostZ, hz, ?_⟩
  have hinputs' := Except.ok.inj (hread.symm.trans (hasks.inputs _ _ hz))
  rw [← hinputs', hmap]

/-- A run that returns has signed and proved the transfer it was given exactly if the log had no proposal with the
identifier before, or the first one that it had asks for that transfer. -/
theorem run_assembled_iff (h : runTransferMultisigProposal session cs proposalId gpk threshold publicShares prove
      buildInstructions assembled random prior quorum proposalMore nonceMore shareMore = .ok run) :
    run.OfAssembled assembled gpk ↔
      ∀ p, prior.findSome? (proposalOf session proposalId) = some p → Asks p assembled gpk := by
  constructor
  · intro hof q hq
    obtain ⟨p, message, hp, hmessage, -, hexecuted, hinputs⟩ := run_eq_ok h
    obtain rfl : p = q := by rw [hp, hq, Option.getD_some]
    unfold buildTransferMultisigInputsFromProposal at hinputs
    obtain ⟨inputs, hread, hmap⟩ := bind_eq_ok.1 hinputs
    refine ⟨?_, fun signature z hz => ?_⟩
    · rw [hmessage, ← hexecuted, hof.message]
    · obtain ⟨z', -, hmap'⟩ := hof.inputs
      rw [readInputs_signature hread hz, buildTransferMultisigInputMap_injective hmap hmap']
      rfl
  · intro hprior
    refine ofAssembled_of_asks h ?_
    cases hfind : prior.findSome? (proposalOf session proposalId) with
    | none => exact asks_transferPayload proposalId assembled gpk
    | some q => exact hprior q hfind

end Run

/-! ## A second batch -/

/-- The group of the sample, with transfers as its proposals. -/
noncomputable def sampleSigning : Signing (Payload Details) Details where
  poseidon := Signing.sample.poseidon
  lib := Tss.Library.reference
  lawful := Tss.Library.reference_lawful
  session := ⟨[], 1, fun _ p => p, some, fun _ _ => rfl⟩
  proposalId := "group-row-0".toList
  group := Signing.sample.group

/-- The run of one signer, on a log without nonces and shares for the proposal. -/
theorem exists_run {assembled : AssembledTransferMultisig} {prior : List (Envelope (Payload Details))}
    {p : ProposalPayload Details} {message : List UInt8}
    (hp : (prior.findSome? (proposalOf sampleSigning.session sampleSigning.proposalId)).getD
      (transferPayload sampleSigning.proposalId assembled) = p)
    (hmessage : messageOf p = .ok message)
    (hprior : ∀ e ∈ prior, e.kind = .proposal)
    (hinputs : ∀ signature z, newFr signature.z = .ok z →
      ∃ m, buildTransferMultisigInputsFromProposal signature p sampleSigning.gpk = .ok m) :
    ∃ quorum more run, runTransferMultisigProposal sampleSigning.session sampleSigning.cs sampleSigning.proposalId
      sampleSigning.gpk 1 sampleSigning.publicShares (fun _ => .ok ()) (fun _ => ([] : List Unit)) assembled 0 prior quorum
      more more more = .ok run := by
  let x := sampleSigning
  let log := prior ++ [createProposal x.session 0 (transferPayload x.proposalId assembled)]
  have hfetched : ∀ more, fetchProposal x.session (log ++ more) x.proposalId = .ok p := fun more =>
    hp ▸ fetchProposal_run more
  have hkind : ∀ e ∈ log, e.kind = .proposal := by
    intro e he
    rcases List.mem_append.1 he with he | he
    · exact hprior e he
    · rw [List.mem_singleton.1 he]
      rfl
  have hstart : x.Proposed log p message := by
    refine ⟨?_, hmessage, fun e he => ?_, fun e he => ?_⟩
    · have h := hfetched []
      rwa [List.append_nil] at h
    · simp [nonceOf, hkind e he]
    · simp [shareOf, hkind e he]
  have hmember : x.Member (Signing.sampleSigner 1) :=
    ⟨(Signing.sampleSigner_member (by simp [Signing.sample])).mem, by norm_num [Signing.sampleSigner, subOrder]⟩
  have hcommit : x.commit 1 [] [] =
      .ok ((Signing.sampleSigner 1).handle, (Signing.sampleSigner 1).commitment x.cs) := Signing.sample_commit 1
  obtain ⟨as, σ, z, rhos, rho, c, hrun, halone, -, -, -⟩ := Signing.exists_signedAlone rfl hmember hcommit hstart
  let nonce := nonceEnvelope x.session 0 x.proposalId ((Signing.sampleSigner 1).commitment x.cs)
  let share := shareEnvelope x.session 0 x.proposalId 1 z
  have hcall : signProposal x.session x.cs x.proposalId x.gpk 1 log ⟨1, 1, [], [], [], [nonce]⟩ =
      .ok (message, noncePayload x.proposalId ((Signing.sampleSigner 1).commitment x.cs), sharePayload x.proposalId 1 z) := by
    obtain ⟨commitments, hcommitments, hz⟩ := bind_eq_ok.1 halone.zShare
    have hcollected : collectCommitments x.session x.proposalId 1 (log ++ [nonce]) = .ok commitments := by
      rw [collectCommitments, collectUntil, decide_eq_true (by rw [halone.nonces]; exact le_rfl), if_pos rfl]
      exact (congrArg (List.mapM toCommitment) halone.nonces).trans hcommitments
    unfold signProposal
    rw [bind_of_ok (hfetched []), bind_of_ok hmessage]
    exact (bind_of_ok hcommit _).trans ((bind_of_ok hcollected _).trans (bind_of_ok hz _))
  obtain ⟨result, quorum, _, _, _, hresult, hproposal, -, -, hholds⟩ := Signing.aggregateProposal_holds hstart hrun Run.start
    Run.start (by rw [halone.shares]; exact le_rfl) halone.settled
  have hz := Tss.newFr_eq hholds.z_range.1 (lt_trans hholds.z_range.2 (by norm_num [subOrder, bn254ScalarFieldModulus]))
  obtain ⟨m, hm⟩ := hinputs result.signature _ hz
  rw [← hproposal] at hm
  rw [halone.log_eq, List.append_assoc] at hresult
  refine ⟨[⟨1, 1, [], [], [], [nonce]⟩], [nonce] ++ [share],
    ⟨[message], ⟨result.message, result.signature, m, (), []⟩⟩, ?_⟩
  unfold runTransferMultisigProposal
  have hsigned := mapM_eq_ok (f := signProposal x.session x.cs x.proposalId x.gpk 1 log)
    (g := fun _ => (message, noncePayload x.proposalId ((Signing.sampleSigner 1).commitment x.cs),
      sharePayload x.proposalId 1 z)) (List.forall_mem_singleton.2 hcall)
  refine (bind_of_ok hsigned _).trans ?_
  unfold executeProposal
  refine (bind_of_ok ((bind_of_ok hresult _).trans ((bind_of_ok hm _).trans (bind_of_ok rfl _))) _).trans ?_
  rfl

/-- A transfer of all of a note, of some value and with some message. -/
def sampleAssembled (value message : Fr) : AssembledTransferMultisig where
  partialInputs :=
    { compliancePk := (0, 1)
      recipientInPub := (0, 1)
      oldNote := ⟨1, 1, 1, 0, value, 1, 1, 0⟩
      oldNoteIndex := 0
      oldNotePath := fun _ => 0
      memoNote := ⟨1, 1, 0, 0, value, 1, 1, 0⟩
      memoEph := 1
      changeNote := ⟨1, 1, 1, 0, 0, 1, 1, 0⟩
      changeEph := 2 }
  message := message
  memo := ⟨⟨1, 1, 0, 0, value, 1, 1, 0⟩, 1, 1, (0, 1), 1, 1, 1, 1, none, none⟩
  changeCommitment := 1
  root := 1

theorem sample_inputs {value message : Fr} (h : value.val < 2 ^ 128) (signature : Signature Point) {z : Fr}
    (hz : newFr signature.z = .ok z) : ∃ m, buildTransferMultisigInputsFromProposal signature
      (transferPayload sampleSigning.proposalId (sampleAssembled value message)) sampleSigning.gpk = .ok m := by
  have hstd : (0 : Fr) ≠ Notes.noteTypeMultisig := by decide
  have hzero : (0 : Fr).val < 2 ^ 128 := by norm_num
  obtain ⟨m, hm⟩ := exists_inputMap
    (i := .ofAssembled (sampleAssembled value message) sampleSigning.gpk signature.R z) hstd h h hzero
  exact ⟨m, (bind_of_ok (details_read (sampleAssembled value message) signature hz sampleSigning.gpk) _).trans hm⟩

/-- A row of a second batch signs and proves the row of the first batch with its number, which was given up. -/
theorem earlier_row_paid : ∃ quorum more run, runTransferMultisigProposal sampleSigning.session sampleSigning.cs
    sampleSigning.proposalId sampleSigning.gpk 1 sampleSigning.publicShares (fun _ => .ok ())
    (fun _ => ([] : List Unit)) (sampleAssembled 2 2) 0
    [createProposal sampleSigning.session 0 (transferPayload sampleSigning.proposalId (sampleAssembled 1 1))]
    quorum more more more = .ok run ∧ run.OfAssembled (sampleAssembled 1 1) sampleSigning.gpk ∧
      ¬ run.OfAssembled (sampleAssembled 2 2) sampleSigning.gpk := by
  have hfirst : proposalOf sampleSigning.session sampleSigning.proposalId (createProposal sampleSigning.session 0
      (transferPayload sampleSigning.proposalId (sampleAssembled 1 1))) =
      some (transferPayload sampleSigning.proposalId (sampleAssembled 1 1)) := by
    simp [proposalOf, createProposal, sampleSigning, transferPayload]
  have hp : ([createProposal sampleSigning.session 0 (transferPayload sampleSigning.proposalId (sampleAssembled 1 1))].findSome?
      (proposalOf sampleSigning.session sampleSigning.proposalId)).getD
      (transferPayload sampleSigning.proposalId (sampleAssembled 2 2)) =
      transferPayload sampleSigning.proposalId (sampleAssembled 1 1) := by
    rw [List.findSome?_cons, hfirst]
    rfl
  obtain ⟨quorum, more, run, hrun⟩ := exists_run hp (messageOf_transferPayload _ _) (List.forall_mem_singleton.2 rfl)
    fun signature z hz => sample_inputs (by decide) signature hz
  have hof : run.OfAssembled (sampleAssembled 1 1) sampleSigning.gpk :=
    ofAssembled_of_asks hrun (hp ▸ asks_transferPayload _ _ _)
  refine ⟨quorum, more, run, hrun, hof, fun hsecond => ?_⟩
  have hmessage := congrArg Frost.decodeMessage (hof.message.symm.trans hsecond.message)
  rw [Frost.decodeMessage_encodeMessage, Frost.decodeMessage_encodeMessage] at hmessage
  exact absurd hmessage (by decide)

/-- The rows of the session so far: another row, and an earlier posting of this one. -/
noncomputable def sampleRows : List (Envelope (Payload Details)) :=
  [createProposal sampleSigning.session 0 (transferPayload "group-row-1".toList (sampleAssembled 1 1)),
    createProposal sampleSigning.session 0 (transferPayload sampleSigning.proposalId (sampleAssembled 2 2))]

/-- The other row is passed over. -/
theorem proposalOf_sampleRows : sampleRows.findSome? (proposalOf sampleSigning.session sampleSigning.proposalId) =
    some (transferPayload sampleSigning.proposalId (sampleAssembled 2 2)) := by
  simp [sampleRows, proposalOf, createProposal, sampleSigning, transferPayload]

/-- After another row, and posted once before, the row signs and proves what it was given. -/
theorem run_assembled_iff_sample : ∃ quorum more run, runTransferMultisigProposal sampleSigning.session sampleSigning.cs
    sampleSigning.proposalId sampleSigning.gpk 1 sampleSigning.publicShares (fun _ => .ok ())
    (fun _ => ([] : List Unit)) (sampleAssembled 2 2) 0 sampleRows quorum more more more = .ok run ∧
      run.OfAssembled (sampleAssembled 2 2) sampleSigning.gpk := by
  obtain ⟨quorum, more, run, hrun⟩ := @exists_run (sampleAssembled 2 2) sampleRows _ _
    (by rw [proposalOf_sampleRows, Option.getD_some]) (messageOf_transferPayload _ (sampleAssembled 2 2))
    (by simp [sampleRows, createProposal]) fun signature z hz => sample_inputs (by decide) signature hz
  refine ⟨quorum, more, run, hrun, (run_assembled_iff hrun).2 fun p hp => ?_⟩
  rw [proposalOf_sampleRows, Option.some.injEq] at hp
  exact hp ▸ asks_transferPayload _ _ _

end Kakure.Proposal
