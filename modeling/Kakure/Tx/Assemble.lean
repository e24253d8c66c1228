import Kakure.Discovery.Preflight
import Kakure.Frost.Bjj
import Kakure.Tx.Mint

/-!
# The witnesses that are assembled

`assembleDeposit`, `assembleWithdraw` and `assembleTransfer` of `tx/assemble.ts`, against `main` of their circuits.
An assembly reads and writes the handles of the self mints, which a consumption spends even if a later check throws.

* `recovered_facts`, `issued_facts` — what the scanner and the key repository have checked of what they hand out;
* `deposit_satisfies_iff`, `transfer_satisfies_iff`, `withdraw_satisfies_iff` — what the assemblies leave unchecked.
-/

namespace Kakure.Tx

open Notes Tss Fallible Sdk Discovery Wallet Sync Runs

/-! ## Assemblies -/

/-- `AssemblyError`, and what else is thrown. -/
inductive AssembleError where
  | assembly (reason message : String)
  | consume (e : ConsumeError)
  | other (message : String)

/-- A computation that may consume handles. -/
abbrev Assembly (α : Type) := List AuthorizationState → Except AssembleError α × List AuthorizationState

namespace Assembly

variable {α β : Type}

def pure (a : α) : Assembly α := fun states => (.ok a, states)

def bind (x : Assembly α) (f : α → Assembly β) : Assembly β := fun states =>
  match x states with
  | (.error e, states) => (.error e, states)
  | (.ok a, states) => f a states

instance : Monad Assembly where
  pure := pure
  bind := bind

/-- A call of a function that may throw. -/
def call (x : Except String α) : Assembly α := fun states => (x.mapError .other, states)

theorem bind_eq_ok {x : Assembly α} {f : α → Assembly β} {b : β} {s s' : List AuthorizationState} :
    (x >>= f) s = (.ok b, s') ↔ ∃ a s₁, x s = (.ok a, s₁) ∧ f a s₁ = (.ok b, s') := by
  show bind x f s = (.ok b, s') ↔ _
  unfold bind
  cases hx : x s with
  | mk result s₁ => cases result <;> simp

theorem bind_of_ok {x : Assembly α} {a : α} {s s₁ : List AuthorizationState} (h : x s = (.ok a, s₁))
    (f : α → Assembly β) : (x >>= f) s = f a s₁ := by
  show bind x f s = _
  simp [bind, h]

theorem call_eq_ok {x : Except String α} {a : α} {s s' : List AuthorizationState} :
    call x s = (.ok a, s') ↔ x = .ok a ∧ s' = s := by
  unfold call
  cases x with
  | error e => simp [Except.mapError]
  | ok a' => simp [Except.mapError, eq_comm]

theorem pure_eq_ok {a b : α} {s s' : List AuthorizationState} :
    (Pure.pure a : Assembly α) s = (.ok b, s') ↔ a = b ∧ s = s' := by
  show (Except.ok a, s) = (Except.ok b, s') ↔ _
  simp

end Assembly

open Assembly

/-! ## Requests -/

/-- `SpendableNote`. -/
structure SpendableNote where
  note : ProverNoteInput
  leaf : Fr
  leafIndex : ℕ
  spendScalar : Fr

/-- The answer of `MerkleWitnessSource`. -/
structure MerkleWitness where
  leafIndex : ℕ
  siblings : Fin Circuit.treeDepth → Fr
  root : Fr

/-- `AssemblyContext`. -/
structure AssemblyContext where
  compliancePk : Tss.Point
  complianceVersion : Doubles.Double
  complianceHistory : Option CompleteComplianceHistory
  chainId : ℤ
  poolAddress : String
  deploymentAnchor : ℤ
  witnessFor : Fr → Except String MerkleWitness

/-- The source returns paths that lead to their roots. -/
def AssemblyContext.TruePaths (ctx : AssemblyContext) (poseidon : Fr → Fr → Fr → Fr) : Prop :=
  ∀ leaf w, ctx.witnessFor leaf = .ok w →
    leanImtInclusionProof poseidon leaf (w.leafIndex : Fr) w.siblings = some w.root

structure DepositRequest where
  value : ℤ
  assetId : Fr
  spendScalar : Fr
  selfMint : ℕ

structure WithdrawRequest where
  input : SpendableNote
  value : ℤ
  recipient : Fr
  selfSpendScalar : Fr
  changeMint : ℕ
  intentHash : Option Fr

structure TransferRequest where
  input : SpendableNote
  value : ℤ
  recipientInPub : Tss.Point
  recipientInKey : Fr
  selfSpendScalar : Fr
  memoEph : Fr
  changeMint : ℕ

/-! ## Witnesses -/

structure DepositInputs where
  compliancePk : Tss.Point
  note : ProverNoteInput
  eph : Fr

structure WithdrawInputs where
  withdrawValue : Fr
  recipient : Fr
  intentHash : Fr
  compliancePk : Tss.Point
  oldNote : ProverNoteInput
  spendScalar : Fr
  oldNoteIndex : ℕ
  oldNotePath : Fin Circuit.treeDepth → Fr
  changeNote : ProverNoteInput
  changeEph : Fr

structure TransferInputs where
  compliancePk : Tss.Point
  recipientInPub : Tss.Point
  oldNote : ProverNoteInput
  spendScalar : Fr
  oldNoteIndex : ℕ
  oldNotePath : Fin Circuit.treeDepth → Fr
  memoNote : ProverNoteInput
  memoEph : Fr
  changeNote : ProverNoteInput
  changeEph : Fr

/-- The witness meets every range and every assert of the deposit. -/
def DepositInputs.Satisfies (hash : List Fr → Fr) (i : DepositInputs) : Prop :=
  ∃ hnote : i.note.note.value < 2 ^ 128,
    (Circuit.depositMain hash i.compliancePk.1 i.compliancePk.2 ⟨i.note.note, hnote⟩ i.eph).isSome

/-- The witness meets every range and every assert of the withdrawal. -/
def WithdrawInputs.Satisfies (poseidon : Fr → Fr → Fr → Fr) (hash : List Fr → Fr) (i : WithdrawInputs) : Prop :=
  ∃ (hvalue : i.withdrawValue.val < 2 ^ 128) (hold : i.oldNote.note.value < 2 ^ 128)
    (hchange : i.changeNote.note.value < 2 ^ 128),
    (Circuit.withdrawMain poseidon hash ⟨i.withdrawValue.val, hvalue⟩ i.recipient i.intentHash i.compliancePk.1
      i.compliancePk.2 ⟨i.oldNote.note, hold⟩ i.spendScalar i.oldNoteIndex i.oldNotePath ⟨i.changeNote.note, hchange⟩
      i.changeEph).isSome

/-- The witness meets every range and every assert of the transfer, where the recipient has one key. -/
def TransferInputs.Satisfies (poseidon : Fr → Fr → Fr → Fr) (hash : List Fr → Fr) (i : TransferInputs) : Prop :=
  ∃ (hold : i.oldNote.note.value < 2 ^ 128) (hmemo : i.memoNote.note.value < 2 ^ 128)
    (hchange : i.changeNote.note.value < 2 ^ 128),
    (Circuit.transferMain poseidon hash i.compliancePk.1 i.compliancePk.2 (Frost.circuitPoint i.recipientInPub)
      (Frost.circuitPoint i.recipientInPub) ⟨i.oldNote.note, hold⟩ i.spendScalar i.oldNoteIndex i.oldNotePath
      ⟨i.memoNote.note, hmemo⟩ i.memoEph ⟨i.changeNote.note, hchange⟩ i.changeEph).isSome

/-- `AssembledDeposit`. -/
structure AssembledDeposit where
  inputs : DepositInputs
  minted : MintedNote

/-- `AssembledWithdraw`. -/
structure AssembledWithdraw where
  inputs : WithdrawInputs
  change : MintedNote
  root : Fr

/-- `AssembledTransfer`. -/
structure AssembledTransfer where
  inputs : TransferInputs
  memo : MintedNote
  change : MintedNote
  root : Fr

/-! ## The assemblies -/

/-- `openSpend`. -/
def openSpend (ctx : AssemblyContext) (input : SpendableNote) : Assembly MerkleWitness := do
  let w ← call (ctx.witnessFor input.leaf)
  if w.leafIndex ≠ input.leafIndex then
    fun states => (.error (.assembly "MERKLE_INDEX_MISMATCH" ("merkle source placed the note at index " ++
      toString w.leafIndex ++ ", wallet has " ++ toString input.leafIndex)), states)
  else return w

/-- `assertPositive`. -/
def assertPositive (value : ℤ) (what : String) : Assembly Unit := fun states =>
  if value < 0 then
    (.error (.assembly "NEGATIVE_VALUE" (what ++ " would be negative (" ++ toString value ++ ")")), states)
  else (.ok (), states)

/-- `selfMintContext`. -/
def selfMintContext (ctx : AssemblyContext) (ownerCommitment : Fr) : ExpectedContext :=
  ⟨some ownerCommitment, some ctx.compliancePk, ctx.complianceVersion, ctx.complianceHistory, some ctx.chainId,
    some ctx.poolAddress, some ctx.deploymentAnchor⟩

/-- The first result of `consumeSelfMints` for one handle. -/
def consumeSelfMint (handle : ℕ) (expected : ExpectedContext) : Assembly AuthorizedSelfMintCandidate := fun states =>
  match consumeSelfMints states [handle] expected with
  | (.error e, states) => (.error (.consume e), states)
  | (.ok candidates, states) =>
    match candidates.head? with
    | none => (.error (.other "Cannot read properties of undefined (reading 'eph')"), states)
    | some candidate => (.ok candidate, states)

section Assemble

variable (lib : Library) (hash : List Fr → Fr)

/-- `assembleDeposit`. -/
def assembleDeposit (ctx : AssemblyContext) (req : DepositRequest) : Assembly AssembledDeposit := do
  assertPositive req.value "deposit value"
  let ownerCommitment := pubkeyOwner hash (publicKey lib req.spendScalar)
  let selfMint ← consumeSelfMint req.selfMint (selfMintContext ctx ownerCommitment)
  let minted ← call (mintSelfNote lib hash selfMint.eph req.value req.spendScalar req.assetId ctx.compliancePk 0)
  return ⟨⟨ctx.compliancePk, minted.note, selfMint.eph⟩, minted⟩

/-- `assembleWithdraw`. -/
def assembleWithdraw (ctx : AssemblyContext) (req : WithdrawRequest) : Assembly AssembledWithdraw := do
  let spend ← openSpend ctx req.input
  let changeValue := (req.input.note.value.val : ℤ) - req.value
  assertPositive changeValue "withdraw change"
  let ownerCommitment := pubkeyOwner hash (publicKey lib req.selfSpendScalar)
  let changeMint ← consumeSelfMint req.changeMint (selfMintContext ctx ownerCommitment)
  let parents ← call (packParents spend.leafIndex 0)
  let change ← call (mintSelfNote lib hash changeMint.eph changeValue req.selfSpendScalar req.input.note.assetId
    ctx.compliancePk parents)
  let withdrawValue ← call (Tss.newFr req.value)
  return {
    inputs := {
      withdrawValue := withdrawValue
      recipient := req.recipient
      intentHash := req.intentHash.getD 0
      compliancePk := ctx.compliancePk
      oldNote := req.input.note
      spendScalar := req.input.spendScalar
      oldNoteIndex := spend.leafIndex
      oldNotePath := spend.siblings
      changeNote := change.note
      changeEph := changeMint.eph }
    change := change
    root := spend.root }

/-- `assembleTransfer`. -/
def assembleTransfer (ctx : AssemblyContext) (req : TransferRequest) : Assembly AssembledTransfer := do
  let spend ← openSpend ctx req.input
  let changeValue := (req.input.note.value.val : ℤ) - req.value
  assertPositive changeValue "transfer change"
  let ownerCommitment := pubkeyOwner hash (publicKey lib req.selfSpendScalar)
  let changeMint ← consumeSelfMint req.changeMint (selfMintContext ctx ownerCommitment)
  let memo ← call (mintIncomingNote lib hash req.memoEph req.value req.recipientInPub req.recipientInKey
    req.input.note.assetId ctx.compliancePk parentsHidden)
  let parents ← call (packParents spend.leafIndex 0)
  let change ← call (mintSelfNote lib hash changeMint.eph changeValue req.selfSpendScalar req.input.note.assetId
    ctx.compliancePk parents)
  return {
    inputs := {
      compliancePk := ctx.compliancePk
      recipientInPub := req.recipientInPub
      oldNote := req.input.note
      spendScalar := req.input.spendScalar
      oldNoteIndex := spend.leafIndex
      oldNotePath := spend.siblings
      memoNote := memo.note
      memoEph := req.memoEph
      changeNote := change.note
      changeEph := changeMint.eph }
    memo := memo
    change := change
    root := spend.root }

end Assemble

/-! ## What the steps have checked -/

variable {lib : Library} {hash : List Fr → Fr} {poseidon : Fr → Fr → Fr → Fr} {ctx : AssemblyContext}
  {states states' : List AuthorizationState}

theorem openSpend_ok {input : SpendableNote} {w : MerkleWitness}
    (h : openSpend ctx input states = (.ok w, states')) :
    ctx.witnessFor input.leaf = .ok w ∧ w.leafIndex = input.leafIndex ∧ states = states' := by
  unfold openSpend at h
  obtain ⟨w', s, hcall, hrest⟩ := bind_eq_ok.1 h
  obtain ⟨hw, hs⟩ := call_eq_ok.1 hcall
  by_cases hindex : w'.leafIndex ≠ input.leafIndex
  · rw [if_pos hindex] at hrest
    cases hrest
  · rw [if_neg hindex] at hrest
    obtain ⟨rfl, rfl⟩ := pure_eq_ok.1 hrest
    exact ⟨hw, not_not.1 hindex, hs.symm⟩

theorem assertPositive_ok {value : ℤ} {what : String} {u : Unit}
    (h : assertPositive value what states = (.ok u, states')) : 0 ≤ value ∧ states = states' := by
  unfold assertPositive at h
  by_cases hneg : value < 0
  · rw [if_pos hneg] at h
    cases h
  · rw [if_neg hneg] at h
    cases h
    exact ⟨not_lt.1 hneg, rfl⟩

/-- What is consumed is the candidate of the handle. -/
theorem consumeSelfMint_ok {handle : ℕ} {expected : ExpectedContext} {candidate : AuthorizedSelfMintCandidate}
    (h : consumeSelfMint handle expected states = (.ok candidate, states')) :
    ∃ a, states[handle]? = some a ∧ a.candidate = candidate := by
  unfold consumeSelfMint at h
  rcases consumeSelfMints_cases states [handle] expected with ⟨e, heq⟩ | ⟨found, -, hfound, heq⟩
  · rw [heq] at h
    cases h
  · rw [heq] at h
    cases hfound with
    | cons ha _ =>
      simp only [List.map_cons, List.head?_cons, Prod.mk.injEq, Except.ok.injEq] at h
      exact ⟨_, ha.1, h.1⟩

/-! ## What the scanner and the key repository hand out -/

/-- A note that the scanner of a wallet returned, of any event, with any keys and after any calls. -/
def Recovered (lib : Library) (hash : List Fr → Fr) (skView : Fr) (w : WalletNote) : Prop :=
  ∃ (calls : List RepoCall) (p : NoteProcessor) (event : UnprocessedEvent),
    (p.process lib hash (deriveSelfSpendKey hash skView)
      (calls.foldl (RepoCall.apply lib (accountOf hash skView)) .new) event).1 = some w

/-- The note as it is spent. -/
def spendable (w : WalletNote) : SpendableNote := ⟨proverInput w.note, w.commitment, w.leafIndex, w.spendScalar⟩

/-- An address that `nextIncomingAddress` issued. -/
def Issued (lib : Library) (inPub : Tss.Point) : Prop :=
  ∃ (account : Wallet.Account) (r : KeyRepository) (address : IncomingAddress),
    (r.nextIncomingAddress lib account).1 = .ok address ∧ address.inPub = inPub

/-- What the scanner has checked. -/
structure RecoveredFacts (lib : Library) (hash : List Fr → Fr) (w : WalletNote) : Prop where
  range : w.note.value < 2 ^ 128
  commitment : hash w.note.preimage = w.commitment
  acceptable : Acceptable lib hash w.spendScalar w.note
  lt : w.spendScalar.val < subOrder

theorem recovered_facts {skView : Fr} {w : WalletNote} (h : Recovered lib hash skView w) :
    RecoveredFacts lib hash w := by
  obtain ⟨calls, p, event, h⟩ := h
  have hderived := @calls_derived lib (accountOf hash skView) _ derived_new calls
  unfold NoteProcessor.process at h
  cases htype : event.type with
  | newNote =>
    simp only [htype] at h
    obtain ⟨index, key, -, commitment, -, e, -, cek, -, hrecover⟩ := processNewNote_some h
    obtain ⟨-, hvalue, -, hacceptable, hw⟩ := recover_note hrecover
    rw [hw]
    exact ⟨hvalue, rfl, hacceptable, toBjjScalar_lt _⟩
  | newMemo =>
    simp only [htype] at h
    cases htag : event.args.tag with
    | none =>
      unfold processMemo at h
      simp [htag] at h
    | some tag =>
      cases hwrap : event.args.cekWrap with
      | none =>
        unfold processMemo at h
        simp [htag, hwrap] at h
      | some cekWrap =>
        obtain ⟨index, key, hmatch, hopen⟩ := processMemo_some htag hwrap h
        unfold openMemo at hopen
        obtain ⟨ephPub, -, hopen⟩ := Fallible.bind_eq_ok.1 hopen
        obtain ⟨wrapped, -, hopen⟩ := Fallible.bind_eq_ok.1 hopen
        obtain ⟨cek, -, hopen⟩ := Fallible.bind_eq_ok.1 hopen
        obtain ⟨commitment, -, hrecover⟩ := Fallible.bind_eq_ok.1 hopen
        obtain ⟨-, hvalue, -, hacceptable, hw⟩ := recover_note hrecover
        rw [hw]
        refine ⟨hvalue, rfl, hacceptable, ?_⟩
        -- the key is one that the repository derived
        unfold KeyRepository.matchIncomingTag at hmatch
        split at hmatch
        · dsimp only at hmatch
          rw [Lookahead.Window.fst_lookup] at hmatch
          have hentry := hderived.incoming _ _ _ hmatch
          obtain ⟨-, hkey, -⟩ := evenY_of_tagged hentry
          show key.val < subOrder
          rw [hkey]
          exact toBjjScalar_lt _
        · cases hmatch

/-- What the key repository has checked. -/
theorem issued_facts (hlib : lib.Lawful) {inPub : Tss.Point} (h : Issued lib inPub) :
    ∃ V : BabyJubJub.subgroup, inPub = coords V ∧ Circuit.isEvenY (Circuit.ofPoint V) := by
  obtain ⟨account, r, address, h, rfl⟩ := h
  unfold KeyRepository.nextIncomingAddress at h
  cases hroll : KeyRepository.rollIncoming lib account r.incomingIssueCounter r.incomingIssueCounter maxIndexRoll with
  | error e =>
    simp only [hroll] at h
    cases h
  | ok index =>
    simp only [hroll] at h
    cases h
    have heven := (rollIncoming_eq_ok hroll).1
    rw [publicKey_scaled hlib] at heven
    exact ⟨_, publicKey_scaled hlib _, (Circuit.isEvenY_ofPoint _).2 heven⟩

/-- A recovered note with a path is spent exactly if its scalar is not zero and its version is the one of notes. -/
theorem RecoveredFacts.verifySpend_isSome_iff (hlib : lib.Lawful) {w : WalletNote} (h : RecoveredFacts lib hash w)
    {leafIndex root : Fr} {path : Fin Circuit.treeDepth → Fr}
    (hroot : leanImtInclusionProof poseidon w.commitment leafIndex path = some root) :
    (Circuit.verifySpend poseidon hash ⟨w.note, h.range⟩ w.spendScalar leafIndex path).isSome ↔
      w.spendScalar ≠ 0 ∧ w.note.noteVersion = noteVersion := by
  constructor
  · intro hsome
    obtain ⟨out, hout⟩ := Option.isSome_iff_exists.1 hsome
    obtain ⟨hvalid, hversion⟩ := Circuit.validScalar_of_verifySpend hout
    exact ⟨hvalid.1, hversion⟩
  · rintro ⟨hne, hversion⟩
    have hchecks := NoteChecks.of_acceptable hlib h.lt h.range h.commitment h.acceptable hversion
    rw [hchecks.verifySpend ⟨hne, h.lt⟩ poseidon hroot]
    rfl

theorem proverInput_lt {note : Notes.Note} (h : note.value < 2 ^ 128) : (proverInput note).note.value < 2 ^ 128 := by
  rwa [proverInput_note h]

/-- A note of a wallet, as a circuit takes it. -/
theorem proverInput_circuit {note : Notes.Note} (h : note.value < 2 ^ 128) :
    (⟨(proverInput note).note, proverInput_lt h⟩ : Circuit.Note) = ⟨note, h⟩ := Subtype.ext (proverInput_note h)

theorem asU32_natCast {n : ℕ} (h : n < 2 ^ 32) : Circuit.asU32 (n : Fr) = n := by
  unfold Circuit.asU32
  rw [val_natCast_of_lt (lt_trans h (by norm_num [bn254ScalarFieldModulus])), Nat.mod_eq_of_lt h]

/-! ## What the assemblies leave unchecked -/

theorem cast_coords (P : BabyJubJub.Point) : (((coords P).1 : ℤ) : Fr) = P.x ∧ (((coords P).2 : ℤ) : Fr) = P.y :=
  ⟨congrArg Circuit.Point.x (Frost.circuitPoint_coords P), congrArg Circuit.Point.y (Frost.circuitPoint_coords P)⟩

/-- The change that is prepared is the one of the spend. -/
theorem FinishedFrom.changeOf {eph owner parents : Fr} {C : BabyJubJub.subgroup} {input : ProverNoteInput}
    {old : Circuit.Note} {value : ℤ}
    (h : FinishedFrom hash eph value noteTypeStandard owner old.1.assetId parents C input) {index paid : ℕ}
    (hparents : packParents index 0 = .ok parents) (hvalue : (old.1.value : ℤ) = paid + value) :
    Circuit.ChangeOf old h.circuitNote (index : Fr) paid := by
  obtain ⟨hpacked, hindex, -⟩ := packParents_ok hparents
  have hnonneg := h.nonneg
  have hnote : h.circuitNote.1 = ⟨noteVersion, old.1.assetId, noteTypeStandard, 0, value.toNat, owner,
      computePsi hash (Circuit.scaled eph C : BabyJubJub.Point).x, parents⟩ := h.note
  constructor
  · rw [hnote]
  · rw [hnote]
    dsimp only
    omega
  · rw [hnote, asU32_natCast hindex]
    exact hpacked
  · rw [hnote]

/-- Every handle is for a scalar whose point has a tag. -/
def TaggedHandles (lib : Library) (states : List AuthorizationState) : Prop :=
  ∀ (handle : ℕ) (a : AuthorizationState), states[handle]? = some a → isEvenY (publicKey lib a.candidate.eph) = true

/-- A note that is prepared without parents, as the deposit circuit takes it. -/
theorem FinishedFrom.deposit_iff (hlib : lib.Lawful) {eph noteType owner assetId : Fr} {value : ℤ}
    {C : BabyJubJub.subgroup} {input : ProverNoteInput}
    (h : FinishedFrom hash eph value noteType owner assetId 0 C input) :
    (⟨coords C, input, eph⟩ : DepositInputs).Satisfies hash ↔
      owner ≠ 0 ∧ assetId.val < 2 ^ 160 ∧ isEvenY (publicKey lib eph) = true := by
  have hmain := @Circuit.depositMain_isSome_iff hash h.circuitNote eph C h.key
  have hparents : h.circuitNote.1.parents = 0 := congrArg Notes.Note.parents h.note
  unfold DepositInputs.Satisfies
  dsimp only
  rw [exists_prop_of_true h.value_lt, (cast_coords C).1, (cast_coords C).2]
  refine hmain.trans ?_
  rw [h.mintable_iff hlib]
  exact ⟨fun hboth => hboth.2, fun hmintable => ⟨hparents, hmintable⟩⟩

/-- An assembled deposit satisfies the circuit exactly if its asset id has twenty bytes and its owner is not zero. -/
theorem deposit_satisfies_iff (hlib : lib.Lawful) {C : BabyJubJub.subgroup} (hctx : ctx.compliancePk = coords C)
    (htagged : TaggedHandles lib states) {req : DepositRequest} {out : AssembledDeposit}
    (h : assembleDeposit lib hash ctx req states = (.ok out, states')) :
    out.inputs.Satisfies hash ↔
      req.assetId.val < 2 ^ 160 ∧ pubkeyOwner hash (publicKey lib req.spendScalar) ≠ 0 := by
  unfold assembleDeposit at h
  obtain ⟨_, s₁, hpositive, h₁⟩ := bind_eq_ok.1 h
  obtain ⟨-, rfl⟩ := assertPositive_ok hpositive
  obtain ⟨selfMint, s₂, hconsume, h₂⟩ := bind_eq_ok.1 h₁
  obtain ⟨a, ha, rfl⟩ := consumeSelfMint_ok hconsume
  obtain ⟨minted, s₃, hcall, h₃⟩ := bind_eq_ok.1 h₂
  obtain ⟨hmint, -⟩ := call_eq_ok.1 hcall
  obtain ⟨rfl, -⟩ := pure_eq_ok.1 h₃
  rw [hctx] at hmint
  rw [hctx, (finish_ok hlib hmint).deposit_iff hlib]
  exact ⟨fun h => ⟨h.2.1, h.1⟩, fun h => ⟨h.2, h.1, htagged _ a ha⟩⟩

/-- The inputs of a withdrawal from a recovered note with a path and the change that is left. -/
theorem FinishedFrom.withdraw_iff (hlib : lib.Lawful) {w : WalletNote} (hw : RecoveredFacts lib hash w)
    {eph owner parents : Fr} {C : BabyJubJub.subgroup} {value : ℤ} {change : ProverNoteInput}
    (h : FinishedFrom hash eph value noteTypeStandard owner w.note.assetId parents C change) {spend : MerkleWitness}
    (hroot : leanImtInclusionProof poseidon w.commitment (spend.leafIndex : Fr) spend.siblings = some spend.root)
    (hparents : packParents spend.leafIndex 0 = .ok parents) {withdrawValue : Fr}
    (hvalue : (w.note.value : ℤ) = withdrawValue.val + value) (heven : isEvenY (publicKey lib eph) = true)
    (recipient intentHash : Fr) :
    (⟨withdrawValue, recipient, intentHash, coords C, proverInput w.note, w.spendScalar, spend.leafIndex,
        spend.siblings, change, eph⟩ : WithdrawInputs).Satisfies poseidon hash ↔
      recipient ≠ 0 ∧ intentHash = 0 ∧ (w.spendScalar ≠ 0 ∧ w.note.noteVersion = noteVersion) ∧ owner ≠ 0 := by
  have hrange := hw.range
  have hnonneg := h.nonneg
  have hpaid : withdrawValue.val < 2 ^ 128 := by omega
  have hchange : Circuit.ChangeOf ⟨w.note, hw.range⟩ h.circuitNote (spend.leafIndex : Fr)
      (⟨withdrawValue.val, hpaid⟩ : Circuit.U128).1 := FinishedFrom.changeOf h hparents hvalue
  have hmain := @Circuit.withdrawMain_isSome_iff poseidon hash C ⟨w.note, hw.range⟩ h.circuitNote w.spendScalar
    spend.leafIndex eph spend.siblings h.key ⟨_, hpaid⟩ recipient intentHash hchange
  have hasset : w.note.assetId.val < 2 ^ 160 := hw.acceptable.asset
  have hspend := hw.verifySpend_isSome_iff hlib hroot
  unfold WithdrawInputs.Satisfies
  dsimp only
  rw [exists_prop_of_true hpaid, exists_prop_of_true (proverInput_lt hw.range), exists_prop_of_true h.value_lt,
    (cast_coords C).1, (cast_coords C).2, proverInput_circuit hw.range]
  refine hmain.trans ?_
  rw [hspend, h.mintable_iff hlib]
  tauto

/-- An assembled withdrawal of a recovered note satisfies the circuit exactly if it has a recipient and no intent,
and the scalar, the version and the owner of the change are right. -/
theorem withdraw_satisfies_iff (hlib : lib.Lawful) {C : BabyJubJub.subgroup} (hctx : ctx.compliancePk = coords C)
    (hpaths : ctx.TruePaths poseidon) (htagged : TaggedHandles lib states) {req : WithdrawRequest} {w : WalletNote}
    (hinput : req.input = spendable w) (hw : RecoveredFacts lib hash w) {out : AssembledWithdraw}
    (h : assembleWithdraw lib hash ctx req states = (.ok out, states')) :
    out.inputs.Satisfies poseidon hash ↔
      req.recipient ≠ 0 ∧ req.intentHash.getD 0 = 0 ∧ (w.spendScalar ≠ 0 ∧ w.note.noteVersion = noteVersion) ∧
        pubkeyOwner hash (publicKey lib req.selfSpendScalar) ≠ 0 := by
  unfold assembleWithdraw at h
  obtain ⟨spend, s₁, hopen, h₁⟩ := bind_eq_ok.1 h
  obtain ⟨hwitness, -, rfl⟩ := openSpend_ok hopen
  obtain ⟨_, s₂, hpositive, h₂⟩ := bind_eq_ok.1 h₁
  obtain ⟨hchange, rfl⟩ := assertPositive_ok hpositive
  obtain ⟨changeMint, s₃, hconsume, h₃⟩ := bind_eq_ok.1 h₂
  obtain ⟨a, ha, rfl⟩ := consumeSelfMint_ok hconsume
  obtain ⟨parents, s₄, hpack, h₄⟩ := bind_eq_ok.1 h₃
  obtain ⟨hparents, -⟩ := call_eq_ok.1 hpack
  obtain ⟨change, s₅, hmint, h₅⟩ := bind_eq_ok.1 h₄
  obtain ⟨hminted, -⟩ := call_eq_ok.1 hmint
  obtain ⟨withdrawValue, s₆, hfield, h₆⟩ := bind_eq_ok.1 h₅
  obtain ⟨hvalue, -⟩ := call_eq_ok.1 hfield
  obtain ⟨rfl, -⟩ := pure_eq_ok.1 h₆
  obtain ⟨hnonneg, hlt, rfl⟩ := newFr_ok hvalue
  have hamount : (spendable w).note.value.val = w.note.value :=
    val_natCast_of_lt (lt_trans hw.range two_pow_128_lt_modulus)
  rw [hctx] at hminted
  rw [hinput] at hwitness hchange hminted
  rw [hamount] at hchange hminted
  have hpaid : ((req.value : ℤ) : Fr).val = req.value.toNat := val_intCast hnonneg hlt
  have hfinished := finish_ok hlib hminted
  dsimp only
  rw [hctx, hinput]
  exact FinishedFrom.withdraw_iff hlib hw hfinished (hpaths _ _ hwitness) hparents (by omega) (htagged _ a ha) _ _

/-- An assembled transfer of a recovered note to an issued address satisfies the circuit exactly if the point of the
memo's scalar has a tag, the scalar is not the one of the change, and the owners, the scalar and the version are
right. -/
theorem transfer_satisfies_iff (hlib : lib.Lawful) {C : BabyJubJub.subgroup} (hctx : ctx.compliancePk = coords C)
    (hpaths : ctx.TruePaths poseidon) (htagged : TaggedHandles lib states) {req : TransferRequest} {w : WalletNote}
    (hinput : req.input = spendable w) (hw : RecoveredFacts lib hash w) (hissued : Issued lib req.recipientInPub)
    {out : AssembledTransfer} (h : assembleTransfer lib hash ctx req states = (.ok out, states')) :
    out.inputs.Satisfies poseidon hash ↔
      isEvenY (publicKey lib req.memoEph) = true ∧
        (∀ a, states[req.changeMint]? = some a → req.memoEph ≠ a.candidate.eph) ∧
        pubkeyOwner hash req.recipientInPub ≠ 0 ∧ pubkeyOwner hash (publicKey lib req.selfSpendScalar) ≠ 0 ∧
        w.spendScalar ≠ 0 ∧ w.note.noteVersion = noteVersion := by
  unfold assembleTransfer at h
  obtain ⟨spend, s₁, hopen, h₁⟩ := bind_eq_ok.1 h
  obtain ⟨hwitness, -, rfl⟩ := openSpend_ok hopen
  obtain ⟨_, s₂, hpositive, h₂⟩ := bind_eq_ok.1 h₁
  obtain ⟨hchange, rfl⟩ := assertPositive_ok hpositive
  obtain ⟨changeMint, s₃, hconsume, h₃⟩ := bind_eq_ok.1 h₂
  obtain ⟨a, ha, rfl⟩ := consumeSelfMint_ok hconsume
  obtain ⟨memo, s₄, hmemo, h₄⟩ := bind_eq_ok.1 h₃
  obtain ⟨hminted, -⟩ := call_eq_ok.1 hmemo
  obtain ⟨parents, s₅, hpack, h₅⟩ := bind_eq_ok.1 h₄
  obtain ⟨hparents, -⟩ := call_eq_ok.1 hpack
  obtain ⟨change, s₆, hmint, h₆⟩ := bind_eq_ok.1 h₅
  obtain ⟨hselfMinted, -⟩ := call_eq_ok.1 hmint
  obtain ⟨rfl, -⟩ := pure_eq_ok.1 h₆
  obtain ⟨V, hV, hVeven⟩ := issued_facts hlib hissued
  have hamount : (spendable w).note.value.val = w.note.value :=
    val_natCast_of_lt (lt_trans hw.range two_pow_128_lt_modulus)
  rw [hctx] at hminted hselfMinted
  rw [hinput] at hwitness hchange hminted hselfMinted
  rw [hamount] at hchange hselfMinted
  rw [hV] at hminted
  obtain ⟨hmemoFinished, hvalid⟩ := mintIncomingNote_ok hlib hminted
  have hfinished := finish_ok hlib hselfMinted
  have hVne : V ≠ 0 := by
    obtain ⟨P, hP, hcoords⟩ := (assertValidPoint_ok hlib (reduced_coords _)).1 hvalid
    rwa [Subtype.ext (coords_injective hcoords)]
  have hrange := hw.range
  have hpaid := hmemoFinished.nonneg
  have hmemoNote : hmemoFinished.circuitNote.1 = ⟨noteVersion, w.note.assetId, noteTypeStandard, 0, req.value.toNat,
      pubkeyOwner hash (coords V), computePsi hash (Circuit.scaled req.memoEph C : BabyJubJub.Point).x,
      parentsHidden⟩ := hmemoFinished.note
  have hchangeOf : Circuit.ChangeOf ⟨w.note, hw.range⟩ hfinished.circuitNote (spend.leafIndex : Fr)
      hmemoFinished.circuitNote.1.value := by
    refine FinishedFrom.changeOf hfinished hparents ?_
    rw [hmemoNote]
    dsimp only
    omega
  have hroot := hpaths _ _ hwitness
  have howner : hmemoFinished.circuitNote.1.owner = Circuit.pubkeyOwner hash (Circuit.ofPoint V) := by
    rw [hmemoNote, pubkeyOwner_ofPoint]
  have hmain := @Circuit.transferMain_isSome_iff poseidon hash C ⟨w.note, hw.range⟩ hfinished.circuitNote w.spendScalar
    spend.leafIndex a.candidate.eph spend.siblings hfinished.key V hVne hVeven hmemoFinished.circuitNote req.memoEph
    (by rw [hmemoNote]) howner (by rw [hmemoNote]) (by rw [hmemoNote, parentsHidden_eq]) hchangeOf
  have hspend := hw.verifySpend_isSome_iff hlib hroot
  have hasset : w.note.assetId.val < 2 ^ 160 := hw.acceptable.asset
  have heven := htagged _ a ha
  have hold : (spendable w).note = proverInput w.note := rfl
  have hdistinct : (∀ a', states[req.changeMint]? = some a' → req.memoEph ≠ a'.candidate.eph) ↔
      req.memoEph ≠ a.candidate.eph := by
    simp [ha]
  unfold TransferInputs.Satisfies
  dsimp only
  rw [hctx, hinput, hV, hdistinct, hold, Frost.circuitPoint_coords, exists_prop_of_true (proverInput_lt hw.range),
    exists_prop_of_true hmemoFinished.value_lt, exists_prop_of_true hfinished.value_lt, (cast_coords C).1,
    (cast_coords C).2, proverInput_circuit hw.range]
  refine hmain.trans ?_
  rw [hspend, hfinished.mintable_iff hlib, hmemoFinished.mintable_iff hlib]
  tauto

/-- On every handle that a run of the preflights issued for steady objects, with true paths and a key of the subgroup:
the witnesses that the assemblies return satisfy their circuits exactly if the asset id, the point of the memo's scalar,
the recipient, the intent and the owners are right, and the note that is spent has the version and a scalar. -/
theorem assembled_satisfies_iff (hlib : lib.Lawful) {account : Wallet.Account} {owner : Fr}
    {opens : SelfMintContext → AuthorizedSelfMintCandidate → Option HowlNoteRecord → Bool} {store : CounterStore}
    {objects : ℕ → CandidateObject} {acts : List SelfMintAct} {s : SelfMints}
    (hrun : Run (SteadyStep lib account owner opens) (.start store objects) acts s) (C : BabyJubJub.subgroup)
    (hctx : ctx.compliancePk = coords C) (hpaths : ctx.TruePaths poseidon) :
    (∀ (req : DepositRequest) out states', assembleDeposit lib hash ctx req s.authorizations = (.ok out, states') →
      (out.inputs.Satisfies hash ↔
        req.assetId.val < 2 ^ 160 ∧ pubkeyOwner hash (publicKey lib req.spendScalar) ≠ 0)) ∧
    (∀ (req : WithdrawRequest) skView w out states', req.input = spendable w → Recovered lib hash skView w →
      assembleWithdraw lib hash ctx req s.authorizations = (.ok out, states') →
        (out.inputs.Satisfies poseidon hash ↔
          req.recipient ≠ 0 ∧ req.intentHash.getD 0 = 0 ∧ (w.spendScalar ≠ 0 ∧ w.note.noteVersion = noteVersion) ∧
            pubkeyOwner hash (publicKey lib req.selfSpendScalar) ≠ 0)) ∧
    (∀ (req : TransferRequest) skView w out states', req.input = spendable w → Recovered lib hash skView w →
      Issued lib req.recipientInPub → assembleTransfer lib hash ctx req s.authorizations = (.ok out, states') →
        (out.inputs.Satisfies poseidon hash ↔
          isEvenY (publicKey lib req.memoEph) = true ∧
            (∀ a, s.authorizations[req.changeMint]? = some a → req.memoEph ≠ a.candidate.eph) ∧
            pubkeyOwner hash req.recipientInPub ≠ 0 ∧ pubkeyOwner hash (publicKey lib req.selfSpendScalar) ≠ 0 ∧
            w.spendScalar ≠ 0 ∧ w.note.noteVersion = noteVersion)) := by
  have htagged : TaggedHandles lib s.authorizations := fun handle a ha => evenY_of_authorized hrun ha
  refine ⟨?_, ?_, ?_⟩
  · intro req out states' h
    exact deposit_satisfies_iff hlib hctx htagged h
  · intro req skView w out states' hinput hw h
    exact withdraw_satisfies_iff hlib hctx hpaths htagged hinput (recovered_facts hw) h
  · intro req skView w out states' hinput hw hissued h
    exact transfer_satisfies_iff hlib hctx hpaths htagged hinput (recovered_facts hw) hissued h

/-! ## Assemblies of one wallet -/

/-- A pool under the base point, whose tree has one leaf. -/
def sampleAssembly : AssemblyContext :=
  ⟨coords BabyJubJub.base, .int 1, some sampleHistory, 1, "0x", 0, fun leaf => .ok ⟨0, fun _ => 0, leaf⟩⟩

def sampleCertified : SelfMintContext := ⟨sampleX, coords BabyJubJub.base, 1, sampleHistory, 1, "0x", 0⟩

/-- What the take leaves. -/
def sampleState : SelfMints :=
  (takeActs sampleCertified).foldl (SelfMints.act Library.reference sampleAccount sampleX fun _ _ _ => false)
    (.start (.new fun _ => none) sampleObjects)

/-- The handle that it issues. -/
def sampleHandles : List AuthorizationState := [⟨sampleCandidate.authorized, sampleCertified, false, 0⟩]

theorem authorizations_sample : sampleState.authorizations = sampleHandles := take_sample sampleCertified

theorem run_sample : Run (SteadyStep Library.reference sampleAccount sampleX fun _ _ _ => false)
    (.start (.new fun _ => none) sampleObjects) (takeActs sampleCertified) sampleState :=
  steadyRun_of_objects (fun _ => ⟨rfl, rfl⟩) fun object c hmem => by simp [takeActs, takeOne] at hmem

theorem truePaths_sample : sampleAssembly.TruePaths poseidon := by
  intro leaf w hw
  cases hw
  dsimp only
  rw [Nat.cast_zero]
  exact inclusion_zero _ _

theorem owner_sample : pubkeyOwner sampleHash (publicKey Library.reference 4) = sampleX := by
  rw [publicKey_scaled Library.reference_lawful, ← pubkeyOwner_ofPoint]
  rfl

theorem sampleX_ne_zero : sampleX ≠ 0 := minted_sample.owner

/-- The handle is consumed by the owner's assemblies. -/
theorem consume_sample : consumeSelfMint 0 (selfMintContext sampleAssembly sampleX) sampleHandles =
    (.ok sampleCandidate.authorized, consumeAll sampleHandles [0]) := by
  have hlower : "0x".toLower = "0x" := by decide +kernel
  have hsame : sameContext sampleCertified (selfMintContext sampleAssembly sampleX) = .ok true := by
    simp [sameContext, sampleCertified, selfMintContext, sampleAssembly, hlower]
  unfold consumeSelfMint
  simp [sampleHandles, consumeSelfMints, authorizationOf, hsame, sameCandidate]

theorem bind_consume_sample {α : Type} (f : AuthorizedSelfMintCandidate → Assembly α) :
    (consumeSelfMint 0 (selfMintContext sampleAssembly sampleX) >>= f) sampleHandles =
      f sampleCandidate.authorized (consumeAll sampleHandles [0]) := @bind_of_ok _ _ _ _ _ _ consume_sample f

/-- A note is prepared for every owner, asset and value of the range. -/
theorem exists_finish (hlib : lib.Lawful) {eph : Fr} (heph : ValidScalar eph) {C : BabyJubJub.subgroup} (hC : C ≠ 0)
    {value : ℤ} (hnonneg : 0 ≤ value) (hlt : value < 2 ^ 128) (owner assetId spendScalar parents : Fr) :
    ∃ p, finish lib hash eph value owner assetId spendScalar parents (coords C) = .ok p := by
  have hvalue := newFr_eq hnonneg (lt_trans hlt (by norm_num [bn254ScalarFieldModulus]))
  have htag : Tss.newFr (publicKey lib eph).1 = .ok ((publicKey lib eph).1 : Fr) := by
    rw [publicKey_scaled hlib]
    have hreduced := reduced_coords (Circuit.scaled eph BabyJubJub.base : BabyJubJub.Point)
    exact newFr_eq hreduced.1 hreduced.2.1
  have hleaf : ∀ note, leafOf hash note value = .ok (hash { note with value := value.toNat : Notes.Note }.preimage) := by
    intro note
    have hrange : ({ note with value := value.toNat } : Notes.Note).value < 2 ^ 128 := by
      dsimp only
      omega
    rw [leafOf, if_neg (by omega), leaf_ok hrange]
  unfold finish
  rw [Fallible.bind_of_ok (deriveCek_coords hlib heph hC)]
  dsimp only
  rw [Fallible.bind_of_ok (hleaf _), Fallible.bind_of_ok hvalue, Fallible.bind_of_ok htag]
  exact ⟨_, rfl⟩

/-- The consumed candidate is minted with every value of the range. -/
theorem exists_selfMint {value : ℤ} (hnonneg : 0 ≤ value) (hlt : value < 2 ^ 128) (assetId : Fr) :
    ∃ p, call (mintSelfNote Library.reference sampleHash sampleCandidate.authorized.eph value 4 assetId
      sampleAssembly.compliancePk 0) (consumeAll sampleHandles [0]) = (.ok p, consumeAll sampleHandles [0]) := by
  obtain ⟨p, hp⟩ := @exists_finish Library.reference sampleHash Library.reference_lawful 4 validScalar_four
    BabyJubJub.base BabyJubJub.base_ne_zero value hnonneg hlt sampleX assetId 4 0
  refine ⟨p, call_eq_ok.2 ⟨?_, rfl⟩⟩
  rw [mintSelfNote, owner_sample]
  exact hp

/-- A deposit of value 1 of any asset. -/
theorem exists_deposit (assetId : Fr) : ∃ out states', assembleDeposit Library.reference sampleHash sampleAssembly
    ⟨1, assetId, 4, 0⟩ sampleHandles = (.ok out, states') := by
  have hpositive : assertPositive 1 "deposit value" sampleHandles = (.ok (), sampleHandles) := rfl
  obtain ⟨p, hmint⟩ := @exists_selfMint 1 (by norm_num) (by norm_num) assetId
  unfold assembleDeposit
  dsimp only
  rw [bind_of_ok hpositive, owner_sample, bind_consume_sample, bind_of_ok hmint]
  exact ⟨_, _, rfl⟩

/-- A deposit of an asset id of twenty-one bytes is assembled and not satisfied. -/
theorem assembled_fails : ∃ (acts : List SelfMintAct) (s : SelfMints) (req : DepositRequest) (out : AssembledDeposit)
    (states' : List AuthorizationState),
    Run (SelfMintStep Library.reference sampleAccount sampleX fun _ _ _ => false)
      (.start (.new fun _ => none) sampleObjects) acts s ∧
      sampleAssembly.compliancePk = coords BabyJubJub.base ∧ sampleAssembly.TruePaths (fun _ _ _ => 0) ∧
      assembleDeposit Library.reference sampleHash sampleAssembly req s.authorizations = (.ok out, states') ∧
      ¬ out.inputs.Satisfies sampleHash := by
  obtain ⟨out, states', hout⟩ := exists_deposit (2 ^ 160)
  rw [← authorizations_sample] at hout
  refine ⟨_, sampleState, _, out, states', run_sample.mono fun _ _ _ hstep => hstep.1, rfl, truePaths_sample, hout, ?_⟩
  rw [deposit_satisfies_iff Library.reference_lawful rfl (fun handle a ha => evenY_of_authorized run_sample ha) hout]
  rintro ⟨hasset, -⟩
  revert hasset
  decide +kernel

/-- The sample wallet's note, as it is recovered. -/
theorem recovered_sample : ∃ w : WalletNote, Recovered Library.reference sampleHash 4 w ∧ w.note = sampleNote.1 ∧
    w.leafIndex = 0 ∧ w.spendScalar = 4 := by
  have hlib := Library.reference_lawful
  have hspend : deriveSelfSpendKey sampleHash 4 = 4 := toBjjScalar_four
  have hring : RingOf ⟨[⟨1, bigOf sampleKey, none⟩]⟩ sampleKey := by
    refine ⟨fun e he => ?_, _, List.mem_cons_self, rfl⟩
    rw [List.mem_singleton.1 he]
    exact reduced_coords _
  have hopens : Opens ⟨[⟨1, bigOf sampleKey, none⟩]⟩ sampleKey (some 0) := by
    refine ⟨⟨_, List.mem_cons_self, rfl⟩, Trials.passesUntil_of_forall fun e he => ?_⟩
    rw [ComplianceKeyRing.mem_candidatesFor] at he
    rw [List.mem_singleton.1 he]
    exact validPoint_sampleKey
  obtain ⟨⟨index, key⟩, hentry⟩ := Option.isSome_iff_exists.1 registered_sample
  have hderived : Derived Library.reference (accountOf sampleHash 4) sampleRepository :=
    calls_derived derived_new [RepoCall.ensureSelfLookahead 1]
  have htag := hderived.self _ _ _ hentry
  obtain ⟨-, hkey, -⟩ := evenY_of_tagged htag
  rw [selfEphemeral_sample] at hkey
  rw [hkey] at hentry
  have hx : (sampleEmitted.event 0 0 "").args.ephemeralX = (sampleMinted.ephPub.x.val : ℤ) := rfl
  have hmatch : (sampleRepository.matchSelfTag (sampleEmitted.event 0 0 "").args.ephemeralX).1 = some (index, 4) := by
    rw [hx, matchSelfTag_val]
    dsimp only
    rw [hentry]
  have hread := @wallet_read_self Library.reference sampleHash _ _ _ hlib _
    ⟨⟨[⟨1, bigOf sampleKey, none⟩]⟩, 0⟩ sampleHash_psi.injOn minted_sample sampleRepository (sampleEmitted.event 0 0 "") 4 index rfl hmatch
    hring.reduced rfl
    (toFr_toBytes sampleMinted.leaf) (leafCollisionFree_sample _)
  have hacceptable : Acceptable Library.reference sampleHash 4 sampleNote.1 :=
    ⟨rfl, minted_sample.owner, minted_sample.assetId, owner_sample.symm⟩
  have hprocess := hread.1 hacceptable hopens
  rw [← hspend] at hprocess
  have hrecovered : Recovered Library.reference sampleHash 4
      (walletNote sampleHash sampleNote.1 0 (deriveSelfSpendKey sampleHash 4) false index) :=
    ⟨[RepoCall.ensureSelfLookahead 1], _, _, hprocess⟩
  exact ⟨_, hrecovered, rfl, rfl, hspend⟩

/-- An address of the sample account. -/
theorem issued_sample : Issued Library.reference (publicKey Library.reference 4) := by
  have heven : isEvenY (publicKey Library.reference (sampleAccount.getIncomingKey 0)) = true := isEvenY_sample 0
  have hroll : KeyRepository.rollIncoming Library.reference sampleAccount KeyRepository.new.incomingIssueCounter
      KeyRepository.new.incomingIssueCounter maxIndexRoll = .ok 0 := by
    rw [maxIndexRoll, KeyRepository.rollIncoming]
    exact if_pos heven
  refine ⟨sampleAccount, .new, ⟨4, publicKey Library.reference 4, 0⟩, ?_, rfl⟩
  unfold KeyRepository.nextIncomingAddress
  rw [hroll]
  rfl

section Spends

variable {w : WalletNote}

theorem openSpend_sample (hindex : w.leafIndex = 0) :
    openSpend sampleAssembly (spendable w) sampleHandles = (.ok ⟨0, fun _ => 0, w.commitment⟩, sampleHandles) := by
  have hcall : call (sampleAssembly.witnessFor (spendable w).leaf) sampleHandles =
      (.ok ⟨0, fun _ => 0, w.commitment⟩, sampleHandles) := rfl
  unfold openSpend
  rw [bind_of_ok hcall]
  simp [spendable, hindex]
  rfl

theorem amount_sample (hnote : w.note = sampleNote.1) : ((spendable w).note.value.val : ℤ) - 1 = 0 := by
  have hvalue : (spendable w).note.value = (1 : Fr) := by
    show ((w.note.value : ℕ) : Fr) = 1
    rw [hnote]
    exact Nat.cast_one
  rw [hvalue, ZMod.val_one]
  norm_num

/-- A withdrawal of all of it. -/
theorem exists_withdraw (hnote : w.note = sampleNote.1) (hindex : w.leafIndex = 0) :
    ∃ out states', assembleWithdraw Library.reference sampleHash sampleAssembly ⟨spendable w, 1, 1, 4, 0, none⟩
      sampleHandles = (.ok out, states') := by
  obtain ⟨p, hmint⟩ := @exists_selfMint 0 (by norm_num) (by norm_num) (spendable w).note.assetId
  have hpositive : assertPositive 0 "withdraw change" sampleHandles = (.ok (), sampleHandles) := rfl
  have hpack : call (packParents 0 0) (consumeAll sampleHandles [0]) = (.ok 0, consumeAll sampleHandles [0]) := rfl
  have hvalue : call (Tss.newFr 1) (consumeAll sampleHandles [0]) =
      (.ok ((1 : ℤ) : Fr), consumeAll sampleHandles [0]) :=
    call_eq_ok.2 ⟨newFr_eq (by norm_num) (by norm_num [bn254ScalarFieldModulus]), rfl⟩
  unfold assembleWithdraw
  dsimp only
  rw [bind_of_ok (openSpend_sample hindex), amount_sample hnote, bind_of_ok hpositive, owner_sample,
    bind_consume_sample, bind_of_ok hpack, bind_of_ok hmint, bind_of_ok hvalue]
  exact ⟨_, _, rfl⟩

/-- A memo of value 1 to the point of 4 under the scalar 5. -/
theorem exists_incoming (inKey assetId : Fr) : ∃ memo, mintIncomingNote Library.reference sampleHash 5 1
    (publicKey Library.reference 4) inKey assetId (coords BabyJubJub.base) parentsHidden = .ok memo := by
  have hlib := Library.reference_lawful
  have hfive : ValidScalar 5 := ⟨by decide +kernel, by decide +kernel⟩
  obtain ⟨built, hbuilt⟩ := @exists_finish Library.reference sampleHash hlib 5 hfive
    BabyJubJub.base BabyJubJub.base_ne_zero 1 (by norm_num) (by norm_num) sampleX assetId inKey parentsHidden
  obtain ⟨cekWrap, hwrap, -⟩ := @unwrap_wrap Library.reference sampleHash hlib built.cek 5 4 hfive validScalar_four
  have htag : Tss.newFr (publicKey Library.reference 4).1 = .ok ((publicKey Library.reference 4).1 : Fr) := by
    rw [publicKey_scaled hlib]
    have hreduced := reduced_coords (Circuit.scaled 4 BabyJubJub.base : BabyJubJub.Point)
    exact newFr_eq hreduced.1 hreduced.2.1
  unfold mintIncomingNote
  rw [owner_sample, Fallible.bind_of_ok hbuilt, Fallible.bind_of_ok hwrap, Fallible.bind_of_ok htag]
  exact ⟨_, rfl⟩

/-- A transfer of all of it under the scalar 5. -/
theorem exists_transfer (hnote : w.note = sampleNote.1) (hindex : w.leafIndex = 0) :
    ∃ out states', assembleTransfer Library.reference sampleHash sampleAssembly
      ⟨spendable w, 1, publicKey Library.reference 4, 4, 4, 5, 0⟩ sampleHandles = (.ok out, states') := by
  obtain ⟨p, hmint⟩ := @exists_selfMint 0 (by norm_num) (by norm_num) (spendable w).note.assetId
  obtain ⟨memo, hmemo⟩ := exists_incoming 4 (spendable w).note.assetId
  have hincoming : call (mintIncomingNote Library.reference sampleHash 5 1 (publicKey Library.reference 4) 4
      (spendable w).note.assetId sampleAssembly.compliancePk parentsHidden) (consumeAll sampleHandles [0]) =
      (.ok memo, consumeAll sampleHandles [0]) := call_eq_ok.2 ⟨hmemo, rfl⟩
  have hpositive : assertPositive 0 "transfer change" sampleHandles = (.ok (), sampleHandles) := rfl
  have hpack : call (packParents 0 0) (consumeAll sampleHandles [0]) = (.ok 0, consumeAll sampleHandles [0]) := rfl
  unfold assembleTransfer
  dsimp only
  rw [bind_of_ok (openSpend_sample hindex), amount_sample hnote, bind_of_ok hpositive, owner_sample,
    bind_consume_sample, bind_of_ok hincoming, bind_of_ok hpack, bind_of_ok hmint]
  exact ⟨_, _, rfl⟩

end Spends

/-- A deposit, a withdrawal and a transfer that satisfy their circuits. -/
theorem assembled_satisfies_iff_sample : ∃ (deposit : AssembledDeposit) (withdraw : AssembledWithdraw)
    (transfer : AssembledTransfer), deposit.inputs.Satisfies sampleHash ∧
      withdraw.inputs.Satisfies (fun _ _ _ => 0) sampleHash ∧ transfer.inputs.Satisfies (fun _ _ _ => 0) sampleHash := by
  obtain ⟨w, hrecovered, hnote, hindex, hscalar⟩ := recovered_sample
  obtain ⟨deposit, s₁, hdeposit⟩ := exists_deposit 1
  obtain ⟨withdraw, s₂, hwithdraw⟩ := exists_withdraw hnote hindex
  obtain ⟨transfer, s₃, htransfer⟩ := exists_transfer hnote hindex
  have hiff := @assembled_satisfies_iff Library.reference sampleHash (fun _ _ _ => 0) sampleAssembly
    Library.reference_lawful _ _ _ _ _ _ _ run_sample BabyJubJub.base rfl truePaths_sample
  rw [authorizations_sample] at hiff
  have hfour : (4 : Fr) ≠ 0 := validScalar_four.1
  have hversion : w.note.noteVersion = noteVersion := by rw [hnote]; rfl
  have howner : pubkeyOwner sampleHash (publicKey Library.reference 4) ≠ 0 := by
    rw [owner_sample]
    exact sampleX_ne_zero
  refine ⟨deposit, withdraw, transfer, ?_, ?_, ?_⟩
  · refine (hiff.1 _ _ _ hdeposit).2 ⟨?_, howner⟩
    rw [ZMod.val_one]
    norm_num
  · exact (hiff.2.1 _ _ _ _ _ rfl hrecovered hwithdraw).2
      ⟨one_ne_zero, rfl, ⟨by rw [hscalar]; exact hfour, hversion⟩, howner⟩
  · refine (hiff.2.2 _ _ _ _ _ rfl hrecovered issued_sample htransfer).2
      ⟨?_, ?_, howner, howner, by rw [hscalar]; exact hfour, hversion⟩
    · rw [publicKey_five]
      decide
    · intro a ha
      cases ha
      show (5 : Fr) ≠ 4
      decide +kernel

end Kakure.Tx
