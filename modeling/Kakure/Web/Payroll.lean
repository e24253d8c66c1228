import Kakure.Lib.Runs
import Kakure.Tx.Multisig
import Kakure.Web.PayrollPlan

/-!
# Paying people

`onPay` of `TreasuryPage.tsx` and `payOneRecipient` of `treasuryFlows.ts`: the batch that pays the rows of a preview
out of the notes of a treasury, one transaction a row, each from the change of the one before.

The state is what the page shows, the attempt it is in the middle of, the proposals that the coordinator holds, the
leaves and nullifiers of the pool, and the transactions in flight.  Everything that an attempt awaits is a step of its
own, and at each of them it may throw; transactions land, or are dropped, at any time.

* `step_pays` — what the steps of the page and of the others keep;
* `payroll_pays_once` — rows are paid at most once, and show whether they were, in every run without a failure after
  a transaction that can land and without a second attempt at a row that was paid.
-/

namespace Kakure.Web

open Notes Tss Frost Tx Runs
open Wallet (CounterStore)
open Sync hiding newFr

/-! ## The page -/

/-- `PayrollRow`. -/
structure PayrollRow where
  address : String
  amount : ℤ
  status : PayrollRowStatus

/-- The point of an address. -/
def ReceiveAddress.pub (address : ReceiveAddress) : Tss.Point := (address.pubX, address.pubY)

/-- `GroupRecord`, with the secret of `groupViewKey`. -/
structure GroupRecord where
  gpk : Tss.Point
  groupViewKey : ℤ
  myId : ℕ

/-- The treasury of a page, and how it reads an address. -/
structure TreasuryPage where
  id : String
  group : GroupRecord
  decodeReceiveAddress : String → Except String ReceiveAddress

/-- `proposalId`. -/
def TreasuryPage.proposalId (page : TreasuryPage) (i : ℕ) : String := page.id ++ "-row-" ++ toString i

/-- An instruction of the pool: the inputs it proves, and the nullifier whose account it names. -/
structure TransferMultisigIx where
  inputs : TransferMultisigInputs
  nullifier : Fr

/-- A transaction that was sent for a row. -/
structure SentTransaction where
  signature : ℕ
  row : ℕ
  ix : TransferMultisigIx

/-- A transaction that landed. -/
structure Payment where
  row : ℕ
  inputs : TransferMultisigInputs

/-- What `payOneRecipient` is about to do. -/
inductive Stage where
  | reading
  | assembling (compliancePk : Tss.Point)
  | proposing (assembled : AssembledTransferMultisig)
  | signing (assembled : AssembledTransferMultisig)
  | executing (assembled : AssembledTransferMultisig)
  | sending (assembled : AssembledTransferMultisig) (ix : TransferMultisigIx)
  | confirming (assembled : AssembledTransferMultisig) (signature : ℕ)
  | resolving (assembled : AssembledTransferMultisig)

/-- A call of `payOneRecipient`. -/
structure Attempt where
  row : ℕ
  sourceNote : MultisigNoteView
  recipient : ReceiveAddress
  amount : ℤ
  counters : CounterStore
  stage : Stage

/-- Whether the batch runs, and where it is. -/
inductive Activity where
  | idle
  | connecting
  | paying (attempt : Attempt)

structure State where
  rows : List PayrollRow
  activity : Activity
  proposals : List (String × TransferMultisigInputs)
  leaves : List Fr
  nullifiers : List Fr
  compliancePk : Tss.Point
  inFlight : List SentTransaction
  sent : ℕ
  payments : List Payment

/-- The page after `onParseCsv`, at a pool. -/
def State.preview (cells : List (String × ℤ)) (leaves nullifiers : List Fr) (compliancePk : Tss.Point) : State where
  rows := cells.map fun cell => ⟨cell.1, cell.2, .pending⟩
  activity := .idle
  proposals := []
  leaves := leaves
  nullifiers := nullifiers
  compliancePk := compliancePk
  inFlight := []
  sent := 0
  payments := []

/-! ## The batch -/

namespace State

variable (s : State)

/-- `setRows`, of the status of a row. -/
def setStatus (i : ℕ) (status : PayrollRowStatus) : State :=
  { s with rows := s.rows.modify i fun row => { row with status := status } }

/-- The `catch` of a row, which ends the batch. -/
def fail (i : ℕ) : State := { s.setStatus i .failed with activity := .idle }

/-- The row of the loop, up to the call of `payOneRecipient`. -/
def startRow (page : TreasuryPage) (i : ℕ) (sourceNote : MultisigNoteView) (counters : CounterStore) : State :=
  match s.rows[i]? with
  | none => { s with activity := .idle }
  | some row =>
    match page.decodeReceiveAddress row.address with
    | .error _ => (s.setStatus i .proving).fail i
    | .ok recipient =>
      { (s.setStatus i .proving).setStatus i .awaitingSignatures with
        activity := .paying ⟨i, sourceNote, recipient, row.amount, counters, .reading⟩ }

/-- The attempt goes on. -/
def advance (attempt : Attempt) (stage : Stage) : State := { s with activity := .paying { attempt with stage := stage } }

/-- `fetchProposal`: the first proposal with the id. -/
def fetchProposal (proposalId : String) : Option TransferMultisigInputs :=
  (s.proposals.find? fun p => p.1 = proposalId).map (·.2)

/-- `createProposal`. -/
def append (proposalId : String) (inputs : TransferMultisigInputs) : State :=
  { s with proposals := s.proposals ++ [(proposalId, inputs)] }

/-- The network accepts a transaction. -/
def submit (row : ℕ) (ix : TransferMultisigIx) : State :=
  { s with inFlight := s.inFlight ++ [⟨s.sent, row, ix⟩], sent := s.sent + 1 }

/-- `fetchNotes` of an indexer that has ingested some of the leaves. -/
def fetchNotes (reported fromLeafIndex : ℕ) : List (Fr × ℕ) := (s.leaves.take reported).zipIdx.drop fromLeafIndex

end State

/-- `selectSpendableNotes`. -/
def selectSpendableNotes (nullifiers : List Fr) (notes : List MultisigNoteView) : List MultisigNoteView :=
  ((notes.filter fun n => !n.isIncoming).mergeSort fun a b => a.leafIndex ≤ b.leafIndex).filter fun n =>
    n.nullifier ∉ nullifiers

section Steps

variable (lib : Library) (hash : List Fr → Fr)

/-- `changeNoteView`. -/
def changeNoteView (assembled : AssembledTransferMultisig) (leafIndex memberId : ℕ) : MultisigNoteView where
  note := assembled.partialInputs.changeNote.note
  commitment := assembled.changeCommitment
  leafIndex := leafIndex
  nullifier := computeNullifier hash assembled.partialInputs.changeNote.psi (leafIndex : Fr)
  isIncoming := false
  memberId := some memberId
  derivationJ := none

/-- `resolveChangeNote`, of the events of one poll. -/
def resolveChangeNote (events : List (Fr × ℕ)) (assembled : AssembledTransferMultisig) (memberId : ℕ) :
    Option MultisigNoteView :=
  (events.find? fun e => e.1 = assembled.changeCommitment).map fun hit => changeNoteView hash assembled hit.2 memberId

/-- `assembleRow` of the page. -/
def TreasuryPage.assembleRow (page : TreasuryPage) (witnessFor : ℕ → Fr → Except WitnessError MerkleWitness)
    (memoEph : Fr) (compliancePk : Tss.Point) (attempt : Attempt) :
    Except String AssembledTransferMultisig × CounterStore :=
  match newFr page.group.groupViewKey with
  | .error e => (.error e, attempt.counters)
  | .ok v =>
    Tx.assembleRow lib hash witnessFor
      ⟨page.group.gpk, v, page.group.myId, compliancePk, attempt.sourceNote, attempt.amount, attempt.recipient.pub, 0,
        memoEph⟩ 5 attempt.counters

/-- What an attempt is waiting for. -/
inductive Answer where
  | pool
  | witness (witnessFor : ℕ → Fr → Except WitnessError MerkleWitness) (memoEph : Fr)
  | appended
  | signed
  | proved
  | accepted
  | confirmed
  | notes (reported : ℕ)

/-- `payOneRecipient` goes on with an answer, and `onPay` with its result. -/
def State.resume (page : TreasuryPage) (s : State) (attempt : Attempt) (answer : Answer) : Option State :=
  let id := page.proposalId attempt.row
  match attempt.stage, answer with
  | .reading, .pool => some (s.advance attempt (.assembling s.compliancePk))
  | .assembling compliancePk, .witness witnessFor memoEph =>
    -- `randomEvenYScalar` samples until the point has a tag
    if isEvenY (publicKey lib memoEph) = false then none
    else
      match page.assembleRow lib hash witnessFor memoEph compliancePk attempt with
      | (.error _, _) => some (s.fail attempt.row)
      | (.ok assembled, counters) => some (s.advance { attempt with counters := counters } (.proposing assembled))
  | .proposing assembled, .appended =>
    some ((s.append id assembled.partialInputs).advance attempt (.signing assembled))
  | .signing assembled, .signed =>
    match s.fetchProposal id with
    | none => some (s.fail attempt.row)
    | some _ => some (s.advance attempt (.executing assembled))
  | .executing assembled, .proved =>
    -- the inputs are those of the proposal, the account that of the note the loop is at
    match s.fetchProposal id with
    | none => some (s.fail attempt.row)
    | some inputs => some (s.advance attempt (.sending assembled ⟨inputs, attempt.sourceNote.nullifier⟩))
  | .sending assembled ix, .accepted =>
    some ((s.submit attempt.row ix).advance attempt (.confirming assembled s.sent))
  | .confirming assembled signature, .confirmed =>
    -- the transaction landed or failed: `confirmTransaction` returns either way
    if s.inFlight.any fun tx => tx.signature = signature then none else some (s.advance attempt (.resolving assembled))
  | .resolving assembled, .notes reported =>
    (resolveChangeNote hash (s.fetchNotes reported (attempt.sourceNote.leafIndex + 1)) assembled page.group.myId).map
      fun changeNote => (s.setStatus attempt.row .confirmed).startRow page (attempt.row + 1) changeNote attempt.counters
  | _, _ => none

/-- The leaf of a note of a circuit. -/
def leafOfInput (note : ProverNoteInput) : Fr := hash note.note.preimage

/-- What the pool and the circuit ask of the key, the source note and its nullifier. -/
def State.Accepts (s : State) (ix : TransferMultisigIx) : Prop :=
  ix.inputs.compliancePk = s.compliancePk ∧
    s.leaves[ix.inputs.oldNoteIndex]? = some (leafOfInput hash ix.inputs.oldNote) ∧
      computeNullifier hash ix.inputs.oldNote.psi (ix.inputs.oldNoteIndex : Fr) = ix.nullifier ∧
        ix.nullifier ∉ s.nullifiers

instance (s : State) (ix : TransferMultisigIx) : Decidable (s.Accepts hash ix) := by
  unfold State.Accepts
  infer_instance

/-- A transaction in flight lands. -/
def State.landed (s : State) (k : ℕ) (tx : SentTransaction) : State :=
  { s with
    leaves := s.leaves ++ [leafOfInput hash tx.ix.inputs.memoNote, leafOfInput hash tx.ix.inputs.changeNote]
    nullifiers := s.nullifiers ++ [tx.ix.nullifier]
    inFlight := s.inFlight.eraseIdx k
    payments := s.payments ++ [⟨tx.row, tx.ix.inputs⟩] }

/-- What the user, the page and the others do. -/
inductive PayAct where
  /-- `Pay everyone`, which is disabled while the batch runs. -/
  | press
  /-- The wallet is connected and the notes are scanned. -/
  | select (views : List MultisigNoteView)
  | resume (answer : Answer)
  /-- What the page awaits fails. -/
  | throw
  | land (k : ℕ)
  /-- A transaction fails on chain or expires. -/
  | drop (k : ℕ)
  /-- A leaf of another transaction. -/
  | mint (leaf : Fr)
  /-- A nullifier of another transaction. -/
  | spend (nullifier : Fr)
  | rotate (compliancePk : Tss.Point)
  /-- A proposal that another page or member puts on the session. -/
  | post (proposalId : String) (inputs : TransferMultisigInputs)
  /-- The coordinator sweeps the session. -/
  | forget

/-- One step, if it is possible. -/
def State.step (page : TreasuryPage) (s : State) : PayAct → Option State
  | .press =>
    match s.activity with
    | .idle => if s.rows = [] then none else some { s with activity := .connecting }
    | _ => none
  | .select views =>
    match s.activity with
    | .connecting =>
      match selectSpendableNotes s.nullifiers views with
      | [] => some { s with activity := .idle }
      | sourceNote :: _ => some (s.startRow page 0 sourceNote (.new fun _ => none))
    | _ => none
  | .resume answer =>
    match s.activity with
    | .paying attempt => s.resume lib hash page attempt answer
    | _ => none
  | .throw =>
    match s.activity with
    | .idle => none
    | .connecting => some { s with activity := .idle }
    | .paying attempt => some (s.fail attempt.row)
  | .land k =>
    match s.inFlight[k]? with
    | none => none
    | some tx => if s.Accepts hash tx.ix then some (s.landed hash k tx) else none
  | .drop k => some { s with inFlight := s.inFlight.eraseIdx k }
  | .mint leaf => some { s with leaves := s.leaves ++ [leaf] }
  | .spend nullifier => some { s with nullifiers := s.nullifiers ++ [nullifier] }
  | .rotate compliancePk => some { s with compliancePk := compliancePk }
  | .post proposalId inputs => some (s.append proposalId inputs)
  | .forget => some { s with proposals := [] }

end Steps

/-! ## What is to hold -/

/-- What a row asks for. -/
def State.cells (s : State) : List (String × ℤ) := s.rows.map fun row => (row.address, row.amount)

/-- The status that the page shows at a row. -/
def State.statusAt (s : State) (i : ℕ) : Option PayrollRowStatus := s.rows[i]?.map (·.status)

/-- The rows that transactions landed for. -/
def State.paidRows (s : State) : List ℕ := s.payments.map (·.row)

section Property

variable (hash : List Fr → Fr) (page : TreasuryPage)

/-- A transaction pays exactly what a row asks for to its address. -/
def TreasuryPage.Pays (cell : String × ℤ) (inputs : TransferMultisigInputs) : Prop :=
  ∃ address, page.decodeReceiveAddress cell.1 = .ok address ∧ inputs.PaysTo hash address.pub cell.2

/-- Rows are paid at most once and nothing else is paid, a row shown as confirmed was paid, and one shown as failed was
not. -/
structure State.PaysOnce (s : State) : Prop where
  once : ∀ i, (s.payments.filter fun p => p.row = i).length ≤ 1
  own : ∀ p ∈ s.payments, ∃ cell, s.cells[p.row]? = some cell ∧ page.Pays hash cell p.inputs
  confirmed : ∀ i, s.statusAt i = some .confirmed →
    ∃ p ∈ s.payments, p.row = i ∧ ∃ cell, s.cells[i]? = some cell ∧ page.Pays hash cell p.inputs
  failed : ∀ i, s.statusAt i = some .failed → ∀ p ∈ s.payments, p.row ≠ i

/-- The assembly whose change an attempt waits for. -/
def Stage.awaited : Stage → Option AssembledTransferMultisig
  | .confirming assembled _ => some assembled
  | .resolving assembled => some assembled
  | _ => none

/-- The batch does not start again once the first row is paid, no attempt fails once its row is paid, a transaction
lands while its attempt waits for it, no other leaf is the change that an attempt waits for, and no one else uses the ids
of the rows. -/
def State.Careful (s : State) : PayAct → Prop
  | .select _ => 0 ∉ s.paidRows
  | .throw => ∀ attempt, s.activity = .paying attempt → attempt.row ∉ s.paidRows
  | .land k => ∀ tx, s.inFlight[k]? = some tx → ∃ attempt assembled, s.activity = .paying attempt ∧
      attempt.stage = .confirming assembled tx.signature
  | .resume .accepted => ∀ attempt assembled ix, s.activity = .paying attempt →
      attempt.stage = .sending assembled ix → assembled.changeCommitment ∉ s.leaves
  | .mint leaf => ∀ attempt assembled, s.activity = .paying attempt → attempt.stage.awaited = some assembled →
      leaf ≠ assembled.changeCommitment
  | .post proposalId _ => ∀ i < s.rows.length, proposalId ≠ page.proposalId i
  | _ => True

end Property

/-! ## Rows -/

namespace State

variable {s : State}

@[simp]
theorem cells_setStatus (s : State) (i : ℕ) (status : PayrollRowStatus) : (s.setStatus i status).cells = s.cells := by
  unfold cells setStatus
  apply List.ext_getElem?
  intro j
  simp only [List.getElem?_map, List.getElem?_modify]
  cases s.rows[j]? with
  | none => rfl
  | some row => by_cases hij : i = j <;> simp [hij]

theorem statusAt_setStatus (s : State) (i j : ℕ) (status : PayrollRowStatus) :
    (s.setStatus i status).statusAt j = if i = j then (s.statusAt j).map fun _ => status else s.statusAt j := by
  unfold statusAt setStatus
  simp only [List.getElem?_modify]
  cases s.rows[j]? with
  | none => simp
  | some row => by_cases hij : i = j <;> simp [hij]

/-- A status is the one that was set, or was there. -/
theorem statusAt_setStatus_cases {i j : ℕ} {status status' : PayrollRowStatus}
    (h : (s.setStatus i status).statusAt j = some status') :
    i = j ∧ status = status' ∨ s.statusAt j = some status' := by
  rw [statusAt_setStatus] at h
  by_cases hij : i = j
  · rw [if_pos hij] at h
    obtain ⟨_, -, hstatus⟩ := Option.map_eq_some_iff.1 h
    exact Or.inl ⟨hij, hstatus⟩
  · rw [if_neg hij] at h
    exact Or.inr h

theorem statusAt_setStatus_self {i : ℕ} {status : PayrollRowStatus} {row : PayrollRow} (h : s.rows[i]? = some row) :
    (s.setStatus i status).statusAt i = some status := by
  rw [statusAt_setStatus, if_pos rfl, statusAt, h]
  rfl

theorem cells_getElem? {i : ℕ} {row : PayrollRow} (h : s.rows[i]? = some row) :
    s.cells[i]? = some (row.address, row.amount) := by
  rw [cells, List.getElem?_map, h]
  rfl

/-- The other transactions have other signatures. -/
theorem signature_ne (h : (s.inFlight.map (·.signature)).Nodup) {k : ℕ} {tx tx' : SentTransaction}
    (htx : s.inFlight[k]? = some tx) (htx' : tx' ∈ s.inFlight.eraseIdx k) : tx'.signature ≠ tx.signature := by
  obtain ⟨j, hj, hother⟩ := List.mem_eraseIdx_iff_getElem?.1 htx'
  intro hsame
  have hlt : j < (s.inFlight.map (·.signature)).length := by
    rw [List.length_map]
    exact (List.getElem?_eq_some_iff.1 hother).1
  refine hj ((List.getElem?_inj hlt h).1 ?_)
  rw [List.getElem?_map, List.getElem?_map, hother, htx]
  exact congrArg some hsame

theorem mem_fetchProposal {id : String} {inputs : TransferMultisigInputs} (h : s.fetchProposal id = some inputs) :
    (id, inputs) ∈ s.proposals := by
  unfold fetchProposal at h
  obtain ⟨q, hq, rfl⟩ := Option.map_eq_some_iff.1 h
  have hid : q.1 = id := by simpa using List.find?_some hq
  rw [← hid]
  exact List.mem_of_find?_eq_some hq

/-- A change note that is found is a leaf. -/
theorem resolved_mem {hash : List Fr → Fr} {reported fromLeafIndex memberId : ℕ} {assembled : AssembledTransferMultisig}
    {changeNote : MultisigNoteView}
    (h : resolveChangeNote hash (s.fetchNotes reported fromLeafIndex) assembled memberId = some changeNote) :
    assembled.changeCommitment ∈ s.leaves := by
  unfold resolveChangeNote fetchNotes at h
  obtain ⟨hit, hhit, -⟩ := Option.map_eq_some_iff.1 h
  have hleaf : hit.1 = assembled.changeCommitment := by simpa using List.find?_some hhit
  have hmem := List.mem_of_mem_drop (List.mem_of_find?_eq_some hhit)
  rw [← hleaf]
  exact List.mem_of_mem_take (List.fst_mem_of_mem_zipIdx hmem)

end State

theorem TreasuryPage.proposalId_injective (page : TreasuryPage) : Function.Injective page.proposalId := by
  intro i j h
  have htext : (toString i : String) = toString j := by
    unfold TreasuryPage.proposalId at h
    simpa using h
  exact Nat.repr_injective htext

/-! ## What steps keep -/

section Invariant

variable (hash : List Fr → Fr) (page : TreasuryPage)

/-- What the page shows and the coordinator holds is true. -/
structure State.Settled (s : State) : Prop where
  proposals : ∀ q ∈ s.proposals, ∀ i cell, s.cells[i]? = some cell → q.1 = page.proposalId i → page.Pays hash cell q.2
  own : ∀ p ∈ s.payments, ∃ cell, s.cells[p.row]? = some cell ∧ page.Pays hash cell p.inputs
  confirmed : ∀ i, s.statusAt i = some .confirmed → i ∈ s.paidRows
  failed : ∀ i, s.statusAt i = some .failed → i ∉ s.paidRows
  signatures : (s.inFlight.map (·.signature)).Nodup
  fresh : ∀ tx ∈ s.inFlight, tx.signature < s.sent

/-- A transaction is that of a row. -/
def State.PaysAt (s : State) (i : ℕ) (inputs : TransferMultisigInputs) : Prop :=
  ∃ cell, s.cells[i]? = some cell ∧ page.Pays hash cell inputs

/-- The rows before the one of an attempt are paid, and its own once its transaction landed. -/
def State.Progress (s : State) (i : ℕ) : Stage → Prop
  | .proposing assembled => s.paidRows = List.range i ∧ s.PaysAt hash page i assembled.partialInputs
  | .sending _ ix => s.paidRows = List.range i ∧ s.PaysAt hash page i ix.inputs
  | .confirming assembled signature =>
    (s.paidRows = List.range i ∨ s.paidRows = List.range (i + 1)) ∧
      (assembled.changeCommitment ∈ s.leaves → s.paidRows = List.range (i + 1)) ∧
      ∀ tx ∈ s.inFlight, tx.signature = signature →
        tx.row = i ∧ s.PaysAt hash page i tx.ix.inputs ∧ s.paidRows = List.range i
  | .resolving assembled =>
    (s.paidRows = List.range i ∨ s.paidRows = List.range (i + 1)) ∧
      (assembled.changeCommitment ∈ s.leaves → s.paidRows = List.range (i + 1))
  | _ => s.paidRows = List.range i

/-- Where the batch is. -/
def State.Active (s : State) : Activity → Prop
  | .paying attempt =>
    (∃ address, s.cells[attempt.row]? = some (address, attempt.amount) ∧
      page.decodeReceiveAddress address = .ok attempt.recipient) ∧
      s.statusAt attempt.row = some .awaitingSignatures ∧ s.Progress hash page attempt.row attempt.stage
  | _ => ∃ k, s.paidRows = List.range k

structure State.Inv (s : State) : Prop where
  settled : s.Settled hash page
  active : s.Active hash page s.activity

end Invariant

section Steps

variable {lib : Library} {hash : List Fr → Fr} {page : TreasuryPage} {s s' : State}

theorem State.preview_inv (cells : List (String × ℤ)) (leaves nullifiers : List Fr) (compliancePk : Tss.Point) :
    (State.preview cells leaves nullifiers compliancePk).Inv hash page := by
  have hpending : ∀ i status, (State.preview cells leaves nullifiers compliancePk).statusAt i = some status →
      status = .pending := by
    intro i status h
    simp only [State.statusAt, State.preview, List.getElem?_map, Option.map_map, Option.map_eq_some_iff] at h
    obtain ⟨cell, -, hstatus⟩ := h
    exact hstatus.symm
  refine ⟨⟨?_, ?_, ?_, ?_, List.nodup_nil, ?_⟩, 0, rfl⟩
  · intro q hq
    cases hq
  · intro p hp
    cases hp
  · intro i h
    cases hpending i _ h
  · intro i h
    cases hpending i _ h
  · intro tx htx
    cases htx

/-- A status is set where it is true. -/
theorem State.Settled.setStatus (h : s.Settled hash page) (i : ℕ) (status : PayrollRowStatus)
    (hconfirmed : status = .confirmed → i ∈ s.paidRows) (hfailed : status = .failed → i ∉ s.paidRows) :
    (s.setStatus i status).Settled hash page := by
  have hpaid : (s.setStatus i status).paidRows = s.paidRows := rfl
  refine ⟨?_, ?_, ?_, ?_, h.signatures, h.fresh⟩
  · intro q hq j cell hcell hid
    rw [State.cells_setStatus] at hcell
    exact h.proposals q hq j cell hcell hid
  · intro p hp
    rw [State.cells_setStatus]
    exact h.own p hp
  · intro j hj
    rw [hpaid]
    rcases State.statusAt_setStatus_cases hj with ⟨rfl, hstatus⟩ | hj
    · exact hconfirmed hstatus
    · exact h.confirmed j hj
  · intro j hj
    rw [hpaid]
    rcases State.statusAt_setStatus_cases hj with ⟨rfl, hstatus⟩ | hj
    · exact hfailed hstatus
    · exact h.failed j hj

/-- What does not read the activity stays settled. -/
theorem State.Settled.withActivity (h : s.Settled hash page) (activity : Activity) :
    ({ s with activity := activity } : State).Settled hash page :=
  ⟨h.proposals, h.own, h.confirmed, h.failed, h.signatures, h.fresh⟩

/-- A row fails that was not paid. -/
theorem State.Settled.fail (h : s.Settled hash page) {i k : ℕ} (hpaid : s.paidRows = List.range k) (hi : k ≤ i) :
    (s.fail i).Inv hash page := by
  have hnot : i ∉ s.paidRows := by
    rw [hpaid, List.mem_range]
    omega
  have hset := h.setStatus i .failed (by rintro ⟨⟩) (fun _ => hnot)
  exact ⟨hset.withActivity .idle, k, hpaid⟩

/-- The loop comes to a row after the ones that are paid. -/
theorem State.Settled.startRow (h : s.Settled hash page) {i : ℕ} (hpaid : s.paidRows = List.range i)
    (sourceNote : MultisigNoteView) (counters : CounterStore) :
    (s.startRow page i sourceNote counters).Inv hash page := by
  unfold State.startRow
  cases hrow : s.rows[i]? with
  | none => exact ⟨h.withActivity .idle, i, hpaid⟩
  | some row =>
    have hproving := h.setStatus i .proving (by rintro ⟨⟩) (by rintro ⟨⟩)
    dsimp only
    cases hdecode : page.decodeReceiveAddress row.address with
    | error e => exact hproving.fail hpaid le_rfl
    | ok recipient =>
      have hset := hproving.setStatus i .awaitingSignatures (by rintro ⟨⟩) (by rintro ⟨⟩)
      refine ⟨hset.withActivity _, ⟨row.address, ?_, hdecode⟩, ?_, hpaid⟩
      · have hcells : ((s.setStatus i .proving).setStatus i .awaitingSignatures).cells = s.cells := by simp
        exact (congrArg (·[i]?) hcells).trans (State.cells_getElem? hrow)
      · have hstatus : ((s.setStatus i .proving).setStatus i .awaitingSignatures).statusAt i =
            some .awaitingSignatures := by
          rw [State.statusAt_setStatus, if_pos rfl, State.statusAt_setStatus_self hrow]
          rfl
        exact hstatus

theorem TreasuryPage.assembleRow_ok {witnessFor : ℕ → Fr → Except WitnessError MerkleWitness} {memoEph : Fr}
    {compliancePk : Tss.Point} {attempt : Attempt} {assembled : AssembledTransferMultisig} {counters : CounterStore}
    (h : page.assembleRow lib hash witnessFor memoEph compliancePk attempt = (.ok assembled, counters)) :
    assembled.partialInputs.PaysTo hash attempt.recipient.pub attempt.amount := by
  unfold TreasuryPage.assembleRow at h
  cases hsecret : Tss.newFr page.group.groupViewKey with
  | error e => simp [hsecret] at h
  | ok v =>
    simp only [hsecret] at h
    exact (Tx.assembleRow_ok h).1

/-- Going on keeps what is settled. -/
theorem State.Inv.advance (h : s.Inv hash page) {attempt : Attempt} (hactivity : s.activity = .paying attempt)
    {counters : CounterStore} {stage : Stage} (hprogress : s.Progress hash page attempt.row stage) :
    (s.advance { attempt with counters := counters } stage).Inv hash page := by
  have hactive := h.active
  rw [hactivity] at hactive
  obtain ⟨hcell, hstatus, -⟩ := hactive
  refine ⟨h.settled.withActivity _, hcell, hstatus, ?_⟩
  cases stage <;> exact hprogress

/-- A transaction gets a signature of its own. -/
theorem State.Settled.submit (h : s.Settled hash page) (row : ℕ) (ix : TransferMultisigIx) :
    (s.submit row ix).Settled hash page := by
  refine ⟨h.proposals, h.own, h.confirmed, h.failed, ?_, ?_⟩
  · unfold State.submit
    rw [List.map_append, List.nodup_append]
    refine ⟨h.signatures, List.nodup_singleton _, ?_⟩
    intro signature hold _ hnew heq
    obtain ⟨tx, htx, rfl⟩ := List.mem_map.1 hold
    have hlt := h.fresh tx htx
    rw [heq, List.mem_singleton.1 hnew] at hlt
    exact lt_irrefl _ hlt
  · intro tx htx
    rcases List.mem_append.1 htx with hold | hnew
    · exact Nat.lt_succ_of_lt (h.fresh tx hold)
    · obtain rfl := List.mem_singleton.1 hnew
      exact Nat.lt_succ_self _

theorem State.resume_inv (h : s.Inv hash page) {attempt : Attempt} (hactivity : s.activity = .paying attempt)
    {answer : Answer} (hcareful : s.Careful page (.resume answer))
    (hstep : s.resume lib hash page attempt answer = some s') : s'.Inv hash page := by
  have hs := h.settled
  have hactive := h.active
  rw [hactivity] at hactive
  obtain ⟨⟨address, hcell, hdecode⟩, hstatus, hprogress⟩ := hactive
  have hattempt : ∀ stage, s.advance attempt stage = s.advance { attempt with counters := attempt.counters } stage :=
    fun _ => rfl
  unfold State.resume at hstep
  cases hstage : attempt.stage with
  | reading =>
    rw [hstage] at hprogress hstep
    cases answer <;> cases hstep
    rw [hattempt]
    exact h.advance hactivity hprogress
  | assembling compliancePk =>
    rw [hstage] at hprogress hstep
    cases answer with
    | witness witnessFor memoEph =>
      dsimp only at hstep
      split_ifs at hstep
      rcases hrow : page.assembleRow lib hash witnessFor memoEph compliancePk attempt with ⟨e | assembled, counters⟩
      · simp only [hrow, Option.some.injEq] at hstep
        rw [← hstep]
        exact hs.fail hprogress le_rfl
      · simp only [hrow, Option.some.injEq] at hstep
        rw [← hstep]
        exact h.advance hactivity
          ⟨hprogress, _, hcell, attempt.recipient, hdecode, TreasuryPage.assembleRow_ok hrow⟩
    | _ => cases hstep
  | proposing assembled =>
    rw [hstage] at hprogress hstep
    obtain ⟨hpaid, cell, hown, hpays⟩ := hprogress
    cases answer <;> cases hstep
    refine ⟨⟨?_, hs.own, hs.confirmed, hs.failed, hs.signatures, hs.fresh⟩, ⟨address, hcell, hdecode⟩, hstatus, hpaid⟩
    -- the id of the proposal is that of this row only
    intro q hq i cell' hcell' hid
    rcases List.mem_append.1 hq with hold | hnew
    · exact hs.proposals q hold i cell' hcell' hid
    · obtain rfl := List.mem_singleton.1 hnew
      obtain rfl := page.proposalId_injective hid
      obtain rfl : cell = cell' := Option.some.inj (hown.symm.trans hcell')
      exact hpays
  | signing assembled =>
    rw [hstage] at hprogress hstep
    cases answer with
    | signed =>
      dsimp only at hstep
      cases hfetch : s.fetchProposal (page.proposalId attempt.row) with
      | none =>
        simp only [hfetch, Option.some.injEq] at hstep
        rw [← hstep]
        exact hs.fail hprogress le_rfl
      | some inputs =>
        simp only [hfetch, Option.some.injEq] at hstep
        rw [← hstep, hattempt]
        exact h.advance hactivity hprogress
    | _ => cases hstep
  | executing assembled =>
    rw [hstage] at hprogress hstep
    cases answer with
    | proved =>
      dsimp only at hstep
      cases hfetch : s.fetchProposal (page.proposalId attempt.row) with
      | none =>
        simp only [hfetch, Option.some.injEq] at hstep
        rw [← hstep]
        exact hs.fail hprogress le_rfl
      | some inputs =>
        simp only [hfetch, Option.some.injEq] at hstep
        rw [← hstep, hattempt]
        have hpays := hs.proposals _ (State.mem_fetchProposal hfetch) _ _ hcell rfl
        exact h.advance hactivity ⟨hprogress, _, hcell, hpays⟩
    | _ => cases hstep
  | sending assembled ix =>
    rw [hstage] at hprogress hstep
    obtain ⟨hpaid, hown⟩ := hprogress
    cases answer with
    | accepted =>
      simp only [Option.some.injEq] at hstep
      rw [← hstep]
      have hfresh := hcareful attempt assembled ix hactivity hstage
      refine ⟨(hs.submit attempt.row ix).withActivity _, ⟨address, hcell, hdecode⟩, hstatus, Or.inl hpaid,
        fun hmem => absurd hmem hfresh, ?_⟩
      intro tx htx hsignature
      rcases List.mem_append.1 htx with hold | hnew
      · have hlt := hs.fresh tx hold
        rw [hsignature] at hlt
        exact absurd hlt (lt_irrefl _)
      · obtain rfl := List.mem_singleton.1 hnew
        exact ⟨rfl, hown, hpaid⟩
    | _ => cases hstep
  | confirming assembled signature =>
    rw [hstage] at hprogress hstep
    obtain ⟨hpaid, hchange, -⟩ := hprogress
    cases answer with
    | confirmed =>
      dsimp only at hstep
      split_ifs at hstep
      simp only [Option.some.injEq] at hstep
      rw [← hstep, hattempt]
      exact h.advance hactivity ⟨hpaid, hchange⟩
    | _ => cases hstep
  | resolving assembled =>
    rw [hstage] at hprogress hstep
    obtain ⟨-, hchange⟩ := hprogress
    cases answer with
    | notes reported =>
      dsimp only at hstep
      obtain ⟨changeNote, hresolved, rfl⟩ := Option.map_eq_some_iff.1 hstep
      -- the change is a leaf, so the transaction landed
      have hpaid := hchange (State.resolved_mem hresolved)
      have hrow : attempt.row ∈ s.paidRows := by
        rw [hpaid, List.mem_range]
        omega
      exact (hs.setStatus attempt.row .confirmed (fun _ => hrow) (by rintro ⟨⟩)).startRow hpaid changeNote
        attempt.counters
    | _ => cases hstep

/-- The rows that are paid are the first ones. -/
theorem State.Inv.exists_range (h : s.Inv hash page) : ∃ k, s.paidRows = List.range k := by
  have hactive := h.active
  cases hactivity : s.activity with
  | paying attempt =>
    rw [hactivity] at hactive
    obtain ⟨-, -, hprogress⟩ := hactive
    cases hstage : attempt.stage with
    | proposing assembled =>
      rw [hstage] at hprogress
      exact ⟨_, hprogress.1⟩
    | sending assembled ix =>
      rw [hstage] at hprogress
      exact ⟨_, hprogress.1⟩
    | confirming assembled signature =>
      rw [hstage] at hprogress
      rcases hprogress.1 with hrange | hrange <;> exact ⟨_, hrange⟩
    | resolving assembled =>
      rw [hstage] at hprogress
      rcases hprogress.1 with hrange | hrange <;> exact ⟨_, hrange⟩
    | _ =>
      rw [hstage] at hprogress
      exact ⟨_, hprogress⟩
  | _ =>
    rw [hactivity] at hactive
    exact hactive

/-- What keeps the rows and the payments and takes transactions away keeps where the batch is. -/
theorem State.Active.frame {activity : Activity} (h : s.Active hash page activity) (hrows : s'.rows = s.rows)
    (hpayments : s'.payments = s.payments) (hflight : ∀ tx ∈ s'.inFlight, tx ∈ s.inFlight)
    (hleaves : ∀ attempt assembled, activity = .paying attempt → attempt.stage.awaited = some assembled →
      assembled.changeCommitment ∈ s'.leaves → assembled.changeCommitment ∈ s.leaves) :
    s'.Active hash page activity := by
  have hcells : s'.cells = s.cells := by rw [State.cells, hrows, State.cells]
  have hpaid : s'.paidRows = s.paidRows := by rw [State.paidRows, hpayments, State.paidRows]
  have hpays : ∀ i inputs, s.PaysAt hash page i inputs → s'.PaysAt hash page i inputs := by
    rintro i inputs ⟨cell, hcell, hinputs⟩
    exact ⟨cell, by rw [hcells]; exact hcell, hinputs⟩
  cases activity with
  | paying attempt =>
    obtain ⟨⟨address, hcell, hdecode⟩, hstatus, hprogress⟩ := h
    refine ⟨⟨address, by rw [hcells]; exact hcell, hdecode⟩, by rw [State.statusAt, hrows]; exact hstatus, ?_⟩
    cases hstage : attempt.stage with
    | proposing assembled =>
      rw [hstage] at hprogress
      exact ⟨hpaid.trans hprogress.1, hpays _ _ hprogress.2⟩
    | sending assembled ix =>
      rw [hstage] at hprogress
      exact ⟨hpaid.trans hprogress.1, hpays _ _ hprogress.2⟩
    | confirming assembled signature =>
      rw [hstage] at hprogress
      obtain ⟨hrange, hchange, hown⟩ := hprogress
      refine ⟨by rwa [hpaid], ?_, ?_⟩
      · intro hmem
        exact hpaid.trans (hchange (hleaves attempt assembled rfl (by rw [hstage]; rfl) hmem))
      · intro tx htx hsignature
        obtain ⟨hrow, hinputs, hbefore⟩ := hown tx (hflight tx htx) hsignature
        exact ⟨hrow, hpays _ _ hinputs, hpaid.trans hbefore⟩
    | resolving assembled =>
      rw [hstage] at hprogress
      obtain ⟨hrange, hchange⟩ := hprogress
      refine ⟨by rwa [hpaid], ?_⟩
      intro hmem
      exact hpaid.trans (hchange (hleaves attempt assembled rfl (by rw [hstage]; rfl) hmem))
    | _ =>
      rw [hstage] at hprogress
      exact hpaid.trans hprogress
  | _ =>
    obtain ⟨k, hrange⟩ := h
    exact ⟨k, hpaid.trans hrange⟩

/-- The transaction of an attempt lands. -/
theorem State.land_inv (h : s.Inv hash page) {k : ℕ} {tx : SentTransaction} (htx : s.inFlight[k]? = some tx)
    (hcareful : s.Careful page (.land k)) : (s.landed hash k tx).Inv hash page := by
  have hs := h.settled
  obtain ⟨attempt, assembled, hpaying, hstage⟩ := hcareful tx htx
  have hactive := h.active
  rw [hpaying] at hactive
  obtain ⟨hcell, hstatus, hprogress⟩ := hactive
  rw [hstage] at hprogress
  obtain ⟨-, -, hown⟩ := hprogress
  obtain ⟨hrow, hpays, hrange⟩ := hown tx (List.mem_of_getElem? htx) rfl
  have hpaid : (s.landed hash k tx).paidRows = List.range (attempt.row + 1) := by
    rw [State.paidRows, State.landed, List.map_append, ← State.paidRows, hrange, List.range_succ, ← hrow]
    rfl
  have hsub : (s.inFlight.eraseIdx k).Sublist s.inFlight := List.eraseIdx_sublist _ _
  refine ⟨⟨hs.proposals, ?_, ?_, ?_, hs.signatures.sublist (hsub.map _), ?_⟩, ?_⟩
  · intro p hp
    rcases List.mem_append.1 hp with hold | hnew
    · exact hs.own p hold
    · obtain rfl := List.mem_singleton.1 hnew
      dsimp only
      rw [hrow]
      exact hpays
  · intro i hi
    have hmem := hs.confirmed i hi
    rw [hrange, List.mem_range] at hmem
    rw [hpaid, List.mem_range]
    omega
  · intro i hi
    have hmem := hs.failed i hi
    rw [hrange, List.mem_range] at hmem
    rw [hpaid, List.mem_range]
    -- the row of the attempt is shown as waiting for signatures
    have hne : i ≠ attempt.row := by
      rintro rfl
      cases hstatus.symm.trans hi
    omega
  · intro tx' htx'
    exact hs.fresh tx' (hsub.subset htx')
  · have hactivity : (s.landed hash k tx).activity = .paying attempt := hpaying
    rw [hactivity]
    refine ⟨hcell, hstatus, ?_⟩
    rw [hstage]
    refine ⟨Or.inr hpaid, fun _ => hpaid, ?_⟩
    -- no other transaction has its signature
    intro tx' htx' hsignature
    exact absurd hsignature (State.signature_ne hs.signatures htx htx')

/-- A careful step keeps what is settled, and where the batch is. -/
theorem State.step_inv (h : s.Inv hash page) {act : PayAct} (hcareful : s.Careful page act)
    (hstep : s.step lib hash page act = some s') : s'.Inv hash page := by
  have hs := h.settled
  have hactive := h.active
  cases act with
  | press =>
    unfold State.step at hstep
    cases hactivity : s.activity with
    | idle =>
      rw [hactivity] at hactive
      simp only [hactivity] at hstep
      split_ifs at hstep
      cases hstep
      exact ⟨hs.withActivity _, hactive⟩
    | _ => simp [hactivity] at hstep
  | select views =>
    unfold State.step at hstep
    cases hactivity : s.activity with
    | connecting =>
      rw [hactivity] at hactive
      obtain ⟨k, hpaid⟩ := hactive
      simp only [hactivity] at hstep
      cases hselected : selectSpendableNotes s.nullifiers views with
      | nil =>
        simp only [hselected, Option.some.injEq] at hstep
        rw [← hstep]
        exact ⟨hs.withActivity _, k, hpaid⟩
      | cons sourceNote rest =>
        simp only [hselected, Option.some.injEq] at hstep
        rw [← hstep]
        -- the first row is not paid, so no row is
        have hzero : k = 0 := by
          have hnot : 0 ∉ s.paidRows := hcareful
          rw [hpaid, List.mem_range] at hnot
          omega
        rw [hzero] at hpaid
        exact hs.startRow hpaid sourceNote _
    | _ => simp [hactivity] at hstep
  | resume answer =>
    unfold State.step at hstep
    cases hactivity : s.activity with
    | paying attempt =>
      simp only [hactivity] at hstep
      exact State.resume_inv h hactivity hcareful hstep
    | _ => simp [hactivity] at hstep
  | throw =>
    unfold State.step at hstep
    cases hactivity : s.activity with
    | idle => simp [hactivity] at hstep
    | connecting =>
      rw [hactivity] at hactive
      simp only [hactivity, Option.some.injEq] at hstep
      rw [← hstep]
      exact ⟨hs.withActivity _, hactive⟩
    | paying attempt =>
      simp only [hactivity, Option.some.injEq] at hstep
      rw [← hstep]
      obtain ⟨k, hpaid⟩ := h.exists_range
      have hnot := hcareful attempt hactivity
      rw [hpaid, List.mem_range] at hnot
      exact hs.fail hpaid (by omega)
  | land k =>
    unfold State.step at hstep
    cases htx : s.inFlight[k]? with
    | none => simp [htx] at hstep
    | some tx =>
      simp only [htx] at hstep
      split_ifs at hstep
      cases hstep
      exact State.land_inv h htx hcareful
  | drop k =>
    cases hstep
    have hsub : (s.inFlight.eraseIdx k).Sublist s.inFlight := List.eraseIdx_sublist _ _
    exact ⟨⟨hs.proposals, hs.own, hs.confirmed, hs.failed, hs.signatures.sublist (hsub.map _),
      fun tx htx => hs.fresh tx (hsub.subset htx)⟩,
      hactive.frame rfl rfl (fun _ htx => hsub.subset htx) fun _ _ _ _ hmem => hmem⟩
  | mint leaf =>
    cases hstep
    refine ⟨⟨hs.proposals, hs.own, hs.confirmed, hs.failed, hs.signatures, hs.fresh⟩,
      hactive.frame rfl rfl (fun _ htx => htx) ?_⟩
    intro attempt assembled hactivity hawaited hmem
    rcases List.mem_append.1 hmem with hold | hnew
    · exact hold
    · exact absurd (List.mem_singleton.1 hnew).symm (hcareful attempt assembled hactivity hawaited)
  | spend nullifier =>
    cases hstep
    exact ⟨⟨hs.proposals, hs.own, hs.confirmed, hs.failed, hs.signatures, hs.fresh⟩,
      hactive.frame rfl rfl (fun _ htx => htx) fun _ _ _ _ hmem => hmem⟩
  | rotate compliancePk =>
    cases hstep
    exact ⟨⟨hs.proposals, hs.own, hs.confirmed, hs.failed, hs.signatures, hs.fresh⟩,
      hactive.frame rfl rfl (fun _ htx => htx) fun _ _ _ _ hmem => hmem⟩
  | post proposalId inputs =>
    cases hstep
    refine ⟨⟨?_, hs.own, hs.confirmed, hs.failed, hs.signatures, hs.fresh⟩,
      hactive.frame rfl rfl (fun _ htx => htx) fun _ _ _ _ hmem => hmem⟩
    intro q hq i cell hcell hid
    rcases List.mem_append.1 hq with hold | hnew
    · exact hs.proposals q hold i cell hcell hid
    · obtain rfl := List.mem_singleton.1 hnew
      have hlt : i < s.rows.length := by
        have hlength := (List.getElem?_eq_some_iff.1 hcell).1
        rw [State.cells, List.length_map] at hlength
        exact hlength
      exact absurd hid (hcareful i hlt)
  | forget =>
    cases hstep
    refine ⟨⟨?_, hs.own, hs.confirmed, hs.failed, hs.signatures, hs.fresh⟩,
      hactive.frame rfl rfl (fun _ htx => htx) fun _ _ _ _ hmem => hmem⟩
    intro q hq
    cases hq

/-- What is settled says that rows are paid at most once. -/
theorem State.Inv.paysOnce (h : s.Inv hash page) : s.PaysOnce hash page := by
  have hs := h.settled
  obtain ⟨k, hpaid⟩ := h.exists_range
  refine ⟨?_, hs.own, ?_, ?_⟩
  · intro i
    have hnodup : s.paidRows.Nodup := by
      rw [hpaid]
      exact List.nodup_range
    have hcount := List.nodup_iff_count_le_one.1 hnodup i
    rw [State.paidRows, List.count_eq_countP, List.countP_map, List.countP_eq_length_filter] at hcount
    simpa only [Function.comp_def, beq_eq_decide] using hcount
  · intro i hi
    obtain ⟨p, hp, rfl⟩ := List.mem_map.1 (hs.confirmed i hi)
    exact ⟨p, hp, rfl, hs.own p hp⟩
  · intro i hi p hp hrow
    exact hs.failed i hi (List.mem_map.2 ⟨p, hp, hrow⟩)

/-- In every run whose steps are careful, from a preview of any rows at any pool: every row is paid at most once, a row
shown as confirmed was paid its amount to its address, and a row shown as failed was not paid. -/
theorem payroll_pays_once {cells : List (String × ℤ)} {leaves nullifiers : List Fr} {compliancePk : Tss.Point}
    {acts : List PayAct}
    (h : Run (fun s act s' => s.step lib hash page act = some s' ∧ s.Careful page act)
      (State.preview cells leaves nullifiers compliancePk) acts s) : s.PaysOnce hash page := by
  have hinv := h.invariant (P := fun _ s => s.Inv hash page) (State.preview_inv cells leaves nullifiers compliancePk)
    (fun _ _ _ _ _ hs hstep => State.step_inv hs hstep.2 hstep.1)
  exact hinv.paysOnce

end Steps

/-! ## A batch of one row -/

/-- The point of 4, as its owner shares it. -/
def sampleAddress : String :=
  "eyJpbmRleCI6IjAiLCJwdWJYIjoiMTIyNTI4ODY2MDQ4MjYxOTIzMTY5Mjg3ODk5Mjk3MDYzOTczNDk4NDY" ++
    "yMzQ5MTExOTg5MzEyNDkwMjU0NDk5NTUwNjkzMzA4NjcxNDQiLCJwdWJZIjoiMTI4NjE0MDc1MTkwODgzND" ++
    "AyODYwNzAyMzc1OTcxNzE2MjA3MzE0NjYxMDY4ODA4NDkwOTAwNDg0MzM2NTg0MTYzNTQ3NjQ1OTQ4NCJ9"

def sampleRecipient : ReceiveAddress := ⟨0, (publicKey Library.reference 4).1, (publicKey Library.reference 4).2⟩

/-- The page of a group of one member. -/
def samplePage : TreasuryPage where
  id := "treasury"
  group := ⟨publicKey Library.reference 4, 4, 1⟩
  decodeReceiveAddress text :=
    if text = sampleAddress then .ok sampleRecipient else .error "not the address of the row"

/-- A deposit of value 1 of the group, and its view. -/
def sampleView (leafIndex : ℕ) (psi : Fr) : MultisigNoteView :=
  ⟨⟨1, 1, 1, 0, 1, sampleX, psi, 0⟩, psi, leafIndex, psi, false, some 1, some 0⟩

/-- An attempt for the row out of this note. -/
def sampleAttempt (leafIndex : ℕ) (psi : Fr) (counters : CounterStore) (stage : Stage) : Attempt :=
  ⟨0, sampleView leafIndex psi, sampleRecipient, 1, counters, stage⟩

/-- What it does until its transaction is sent. -/
def prepareActs (views : List MultisigNoteView) (leafIndex : ℕ) : List PayAct :=
  [.select views, .resume .pool, .resume (.witness (sampleSource leafIndex) 5),
    .resume .appended, .resume .signed, .resume .proved]

section Attempts

variable {lib : Library} {hash : List Fr → Fr} {page : TreasuryPage} {s : State} {attempt : Attempt}

/-- The page goes on with an answer to what its attempt awaits. -/
theorem step_resume (h : s.activity = .paying attempt) (answer : Answer) :
    s.step lib hash page (.resume answer) = s.resume lib hash page attempt answer := by
  show (match s.activity with
    | .paying attempt => s.resume lib hash page attempt answer
    | _ => none) = _
  rw [h]

theorem step_pool (h : s.activity = .paying attempt) (hstage : attempt.stage = .reading) :
    s.step lib hash page (.resume .pool) = some (s.advance attempt (.assembling s.compliancePk)) := by
  rw [step_resume h]
  cases attempt
  subst hstage
  rfl

theorem step_witness (h : s.activity = .paying attempt) {compliancePk : Tss.Point}
    (hstage : attempt.stage = .assembling compliancePk)
    {witnessFor : ℕ → Fr → Except WitnessError MerkleWitness} {memoEph : Fr}
    (heven : isEvenY (publicKey lib memoEph) = true) {assembled : AssembledTransferMultisig} {counters : CounterStore}
    (hrow : page.assembleRow lib hash witnessFor memoEph compliancePk attempt = (.ok assembled, counters)) :
    s.step lib hash page (.resume (.witness witnessFor memoEph)) =
      some (s.advance { attempt with counters := counters } (.proposing assembled)) := by
  rw [step_resume h]
  cases attempt
  subst hstage
  refine (if_neg (by simp [heven])).trans ?_
  rw [hrow]

theorem step_appended (h : s.activity = .paying attempt) {assembled : AssembledTransferMultisig}
    (hstage : attempt.stage = .proposing assembled) :
    s.step lib hash page (.resume .appended) =
      some ((s.append (page.proposalId attempt.row) assembled.partialInputs).advance attempt (.signing assembled)) := by
  rw [step_resume h]
  cases attempt
  subst hstage
  rfl

theorem step_signed (h : s.activity = .paying attempt) {assembled : AssembledTransferMultisig}
    (hstage : attempt.stage = .signing assembled) {inputs : TransferMultisigInputs}
    (hfetch : s.fetchProposal (page.proposalId attempt.row) = some inputs) :
    s.step lib hash page (.resume .signed) = some (s.advance attempt (.executing assembled)) := by
  rw [step_resume h]
  cases attempt
  subst hstage
  show (match s.fetchProposal _ with
    | none => _
    | some _ => _) = _
  rw [hfetch]

theorem step_proved (h : s.activity = .paying attempt) {assembled : AssembledTransferMultisig}
    (hstage : attempt.stage = .executing assembled) {inputs : TransferMultisigInputs}
    (hfetch : s.fetchProposal (page.proposalId attempt.row) = some inputs) :
    s.step lib hash page (.resume .proved) =
      some (s.advance attempt (.sending assembled ⟨inputs, attempt.sourceNote.nullifier⟩)) := by
  rw [step_resume h]
  cases attempt
  subst hstage
  show (match s.fetchProposal _ with
    | none => _
    | some inputs => _) = _
  rw [hfetch]

theorem step_accepted (h : s.activity = .paying attempt) {assembled : AssembledTransferMultisig}
    {ix : TransferMultisigIx} (hstage : attempt.stage = .sending assembled ix) :
    s.step lib hash page (.resume .accepted) =
      some ((s.submit attempt.row ix).advance attempt (.confirming assembled s.sent)) := by
  rw [step_resume h]
  cases attempt
  subst hstage
  rfl

theorem step_land {k : ℕ} {tx : SentTransaction} (htx : s.inFlight[k]? = some tx) (haccepts : s.Accepts hash tx.ix) :
    s.step lib hash page (.land k) = some (s.landed hash k tx) := by
  show (match s.inFlight[k]? with
    | none => none
    | some tx => if s.Accepts hash tx.ix then some (s.landed hash k tx) else none) = _
  rw [htx]
  exact if_pos haccepts

theorem step_confirmed (h : s.activity = .paying attempt) {assembled : AssembledTransferMultisig} {signature : ℕ}
    (hstage : attempt.stage = .confirming assembled signature) (hflight : s.inFlight = []) :
    s.step lib hash page (.resume .confirmed) = some (s.advance attempt (.resolving assembled)) := by
  rw [step_resume h]
  cases attempt
  subst hstage
  exact if_neg (by simp [hflight])

theorem step_notes (h : s.activity = .paying attempt) {assembled : AssembledTransferMultisig}
    (hstage : attempt.stage = .resolving assembled) {reported : ℕ} {changeNote : MultisigNoteView}
    (hresolved : resolveChangeNote hash (s.fetchNotes reported (attempt.sourceNote.leafIndex + 1)) assembled
      page.group.myId = some changeNote) :
    s.step lib hash page (.resume (.notes reported)) =
      some ((s.setStatus attempt.row .confirmed).startRow page (attempt.row + 1) changeNote attempt.counters) := by
  rw [step_resume h]
  cases attempt
  subst hstage
  exact congrArg (Option.map _) hresolved

/-- The change is found once it is reported. -/
theorem resolveChangeNote_of_mem {events : List (Fr × ℕ)} {assembled : AssembledTransferMultisig} {leafIndex : ℕ}
    (h : (assembled.changeCommitment, leafIndex) ∈ events) (memberId : ℕ) :
    ∃ changeNote, resolveChangeNote hash events assembled memberId = some changeNote := by
  have hsome : (events.find? fun e => e.1 = assembled.changeCommitment).isSome := by
    rw [List.find?_isSome]
    exact ⟨_, h, by simp⟩
  obtain ⟨hit, hhit⟩ := Option.isSome_iff_exists.1 hsome
  exact ⟨_, by rw [resolveChangeNote, hhit]; rfl⟩

end Attempts

/-- Notes of the group are spent in the order of their leaves. -/
theorem selectSpendableNotes_of_sorted {views : List MultisigNoteView} (nullifiers : List Fr)
    (hincoming : ∀ view ∈ views, view.isIncoming = false)
    (hsorted : views.Pairwise fun a b => a.leafIndex ≤ b.leafIndex) :
    selectSpendableNotes nullifiers views = views.filter fun n => n.nullifier ∉ nullifiers := by
  have hall : (views.filter fun n => !n.isIncoming) = views :=
    List.filter_eq_self.2 fun view hview => by simp [hincoming view hview]
  have hordered : (views.mergeSort fun a b => a.leafIndex ≤ b.leafIndex) = views :=
    List.mergeSort_of_pairwise (hsorted.imp fun h => by simpa using h)
  rw [selectSpendableNotes, hall, hordered]

/-- The first attempt of a press, at the first row of the sample and out of a deposit that is not spent, up to its
transaction.  Its steps are careful where the row was not paid before. -/
theorem exists_prepared {s : State} {leafIndex : ℕ} {psi : Fr} {status : PayrollRowStatus} {more : List PayrollRow}
    (hactivity : s.activity = .connecting) (hrows : s.rows = ⟨sampleAddress, 1, status⟩ :: more)
    (hproposals : s.proposals = []) (hkey : s.compliancePk = coords BabyJubJub.base) (hindex : leafIndex < 2 ^ 32)
    {views rest : List MultisigNoteView}
    (hviews : selectSpendableNotes s.nullifiers views = sampleView leafIndex psi :: rest) :
    ∃ t counters assembled, Run (fun t act t' => t.step Library.reference sampleHash samplePage act = some t' ∧
        (0 ∉ s.paidRows → t.Careful samplePage act)) s (prepareActs views leafIndex) t ∧
      assembled.changeCommitment = sampleX ∧
      leafOfInput sampleHash assembled.partialInputs.changeNote = sampleX ∧
      assembled.partialInputs.compliancePk = coords BabyJubJub.base ∧
      assembled.partialInputs.oldNote = proverInput (sampleView leafIndex psi).note ∧
      assembled.partialInputs.oldNoteIndex = leafIndex ∧
      t = { s with
        rows := ⟨sampleAddress, 1, .awaitingSignatures⟩ :: more
        proposals := [(samplePage.proposalId 0, assembled.partialInputs)]
        activity := .paying (sampleAttempt leafIndex psi counters (.sending assembled ⟨assembled.partialInputs, psi⟩)) } := by
  obtain ⟨assembled, counters, hassembled, hcommitment⟩ :=
    @exists_assembleRow (sampleView leafIndex psi) hindex rfl
  obtain ⟨-, hpk, hold, holdIndex, hchange⟩ := Tx.assembleRow_ok hassembled
  have hsecret : Tss.newFr 4 = .ok (4 : Fr) := newFr_eq (by norm_num) (by norm_num [bn254ScalarFieldModulus])
  have hrow : s.rows[0]? = some ⟨sampleAddress, 1, status⟩ := by rw [hrows]; rfl
  have hassemble : ∀ stage, samplePage.assembleRow Library.reference sampleHash (sampleSource leafIndex) 5
      (coords BabyJubJub.base) (sampleAttempt leafIndex psi freshCounters stage) = (.ok assembled, counters) := by
    intro stage
    unfold TreasuryPage.assembleRow
    simp only [samplePage, hsecret]
    exact hassembled
  have heven : isEvenY (publicKey Library.reference 5) = true := by
    rw [publicKey_five]
    decide
  -- the loop is at the row
  obtain ⟨t₁, ht₁⟩ : ∃ t, t = { s with
      rows := ⟨sampleAddress, 1, .awaitingSignatures⟩ :: more
      activity := .paying (sampleAttempt leafIndex psi freshCounters .reading) } := ⟨_, rfl⟩
  have hstep₁ : s.step Library.reference sampleHash samplePage (.select views) = some t₁ := by
    have hstart : s.startRow samplePage 0 (sampleView leafIndex psi) freshCounters = t₁ := by
      rw [ht₁, State.startRow, hrow]
      simp [samplePage, State.setStatus, hrows, sampleAttempt]
    simp only [State.step, hactivity]
    rw [hviews]
    exact congrArg some hstart
  have h₁ : t₁.activity = .paying (sampleAttempt leafIndex psi freshCounters .reading) := by rw [ht₁]
  have hstep₂ := @step_pool Library.reference sampleHash samplePage _ _ h₁ rfl
  have hkey₁ : t₁.compliancePk = coords BabyJubJub.base := by rw [ht₁]; exact hkey
  rw [hkey₁] at hstep₂
  obtain ⟨t₂, ht₂⟩ : ∃ t, t = t₁.advance (sampleAttempt leafIndex psi freshCounters .reading)
      (.assembling (coords BabyJubJub.base)) := ⟨_, rfl⟩
  rw [← ht₂] at hstep₂
  have h₂ : t₂.activity = .paying (sampleAttempt leafIndex psi freshCounters (.assembling (coords BabyJubJub.base))) := by
    rw [ht₂]
    rfl
  have hstep₃ := @step_witness Library.reference sampleHash samplePage _ _ h₂ _ rfl _ _ heven _ _ (hassemble _)
  obtain ⟨t₃, ht₃⟩ : ∃ t, t = t₂.advance (sampleAttempt leafIndex psi counters (.assembling (coords BabyJubJub.base)))
      (.proposing assembled) := ⟨_, rfl⟩
  have hstep₃ : t₂.step Library.reference sampleHash samplePage (.resume (.witness (sampleSource leafIndex) 5)) =
      some t₃ := by
    rw [ht₃]
    exact hstep₃
  have h₃ : t₃.activity = .paying (sampleAttempt leafIndex psi counters (.proposing assembled)) := by
    rw [ht₃]
    rfl
  have hstep₄ := @step_appended Library.reference sampleHash samplePage _ _ h₃ _ rfl
  obtain ⟨t₄, ht₄⟩ : ∃ t, t = (t₃.append (samplePage.proposalId 0) assembled.partialInputs).advance
      (sampleAttempt leafIndex psi counters (.proposing assembled)) (.signing assembled) := ⟨_, rfl⟩
  have hstep₄ : t₃.step Library.reference sampleHash samplePage (.resume .appended) = some t₄ := by
    rw [ht₄]
    exact hstep₄
  have h₄ : t₄.activity = .paying (sampleAttempt leafIndex psi counters (.signing assembled)) := by
    rw [ht₄]
    rfl
  have hproposals₄ : t₄.proposals = [(samplePage.proposalId 0, assembled.partialInputs)] := by
    rw [ht₄, ht₃, ht₂, ht₁]
    show s.proposals ++ [(samplePage.proposalId 0, assembled.partialInputs)] = _
    rw [hproposals]
    rfl
  have hfetch : ∀ t : State, t.proposals = [(samplePage.proposalId 0, assembled.partialInputs)] →
      t.fetchProposal (samplePage.proposalId 0) = some assembled.partialInputs := by
    intro t ht
    simp [State.fetchProposal, ht]
  have hstep₅ := @step_signed Library.reference sampleHash samplePage _ _ h₄ _ rfl _ (hfetch t₄ hproposals₄)
  obtain ⟨t₅, ht₅⟩ : ∃ t, t = t₄.advance (sampleAttempt leafIndex psi counters (.signing assembled))
      (.executing assembled) := ⟨_, rfl⟩
  rw [← ht₅] at hstep₅
  have h₅ : t₅.activity = .paying (sampleAttempt leafIndex psi counters (.executing assembled)) := by
    rw [ht₅]
    rfl
  have hproposals₅ : t₅.proposals = [(samplePage.proposalId 0, assembled.partialInputs)] := by
    rw [ht₅]
    exact hproposals₄
  have hstep₆ := @step_proved Library.reference sampleHash samplePage _ _ h₅ _ rfl _ (hfetch t₅ hproposals₅)
  refine ⟨_, counters, assembled, (((((Run.start.snoc ⟨hstep₁, fun h => h⟩).snoc ⟨hstep₂, fun _ => trivial⟩).snoc
    ⟨hstep₃, fun _ => trivial⟩).snoc ⟨hstep₄, fun _ => trivial⟩).snoc ⟨hstep₅, fun _ => trivial⟩).snoc
    ⟨hstep₆, fun _ => trivial⟩, hcommitment, hchange.symm.trans hcommitment, hpk, hold, holdIndex, ?_⟩
  rw [ht₅, ht₄, ht₃, ht₂, ht₁]
  simp [State.advance, State.append, hproposals, sampleAttempt, sampleView]

/-- The attempt goes on until its transaction landed and was confirmed.  Its steps are careful where the row was not
paid before and the change it waits for is no leaf. -/
theorem exists_attempt {s : State} {leafIndex : ℕ} {psi : Fr} {status : PayrollRowStatus} {more : List PayrollRow}
    (hactivity : s.activity = .connecting) (hrows : s.rows = ⟨sampleAddress, 1, status⟩ :: more)
    (hproposals : s.proposals = []) (hflight : s.inFlight = []) (hkey : s.compliancePk = coords BabyJubJub.base)
    (hindex : leafIndex < 2 ^ 32) (hleaf : s.leaves[leafIndex]? = some psi) (hspent : psi ∉ s.nullifiers)
    {views rest : List MultisigNoteView}
    (hviews : selectSpendableNotes s.nullifiers views = sampleView leafIndex psi :: rest) :
    ∃ t counters assembled, Run (fun t act t' => t.step Library.reference sampleHash samplePage act = some t' ∧
        (0 ∉ s.paidRows → sampleX ∉ s.leaves → t.Careful samplePage act)) s
        (prepareActs views leafIndex ++ [.resume .accepted] ++ [.land 0] ++ [.resume .confirmed]) t ∧
      assembled.changeCommitment = sampleX ∧
      t = { s with
        rows := ⟨sampleAddress, 1, .awaitingSignatures⟩ :: more
        proposals := [(samplePage.proposalId 0, assembled.partialInputs)]
        activity := .paying (sampleAttempt leafIndex psi counters (.resolving assembled))
        leaves := s.leaves ++ [leafOfInput sampleHash assembled.partialInputs.memoNote, sampleX]
        nullifiers := s.nullifiers ++ [psi]
        sent := s.sent + 1
        payments := s.payments ++ [⟨0, assembled.partialInputs⟩] } := by
  obtain ⟨t, counters, assembled, hrun, hcommitment, hchange, hpk, hold, holdIndex, ht⟩ :=
    exists_prepared hactivity hrows hproposals hkey hindex hviews
  have h : t.activity =
      .paying (sampleAttempt leafIndex psi counters (.sending assembled ⟨assembled.partialInputs, psi⟩)) := by rw [ht]
  have haccept := @step_accepted Library.reference sampleHash samplePage _ _ h _ _ rfl
  obtain ⟨u, hu⟩ : ∃ u, u = (t.submit 0 ⟨assembled.partialInputs, psi⟩).advance
      (sampleAttempt leafIndex psi counters (.sending assembled ⟨assembled.partialInputs, psi⟩))
      (.confirming assembled t.sent) := ⟨_, rfl⟩
  have haccept : t.step Library.reference sampleHash samplePage (.resume .accepted) = some u := by
    rw [hu]
    exact haccept
  have hfresh : sampleX ∉ s.leaves → t.Careful samplePage (.resume .accepted) := by
    intro hnew attempt assembled' ix hattempt hstage
    obtain rfl := Activity.paying.inj (h.symm.trans hattempt)
    obtain ⟨rfl, -⟩ := Stage.sending.inj hstage
    rw [hcommitment, ht]
    exact hnew
  have hsent : u.inFlight[0]? = some ⟨t.sent, 0, ⟨assembled.partialInputs, psi⟩⟩ := by
    have hlist : u.inFlight = s.inFlight ++ [⟨t.sent, 0, ⟨assembled.partialInputs, psi⟩⟩] := by
      rw [hu, ht]
      rfl
    rw [hlist, hflight]
    rfl
  have haccepts : u.Accepts sampleHash ⟨assembled.partialInputs, psi⟩ := by
    have hpool : u.compliancePk = s.compliancePk ∧ u.leaves = s.leaves ∧ u.nullifiers = s.nullifiers := by
      rw [hu, ht]
      exact ⟨rfl, rfl, rfl⟩
    unfold State.Accepts
    rw [hpool.1, hpool.2.1, hpool.2.2]
    dsimp only
    rw [hpk, holdIndex, hold, hkey]
    exact ⟨rfl, hleaf, rfl, hspent⟩
  have hland := @step_land Library.reference sampleHash samplePage _ 0 _ hsent haccepts
  obtain ⟨v, hv⟩ : ∃ v, v = u.landed sampleHash 0 ⟨t.sent, 0, ⟨assembled.partialInputs, psi⟩⟩ := ⟨_, rfl⟩
  rw [← hv] at hland
  have hwaiting : u.activity = .paying (sampleAttempt leafIndex psi counters (.confirming assembled t.sent)) := by
    rw [hu]
    rfl
  have hown : u.Careful samplePage (.land 0) := by
    intro tx htx
    obtain rfl := Option.some.inj (hsent.symm.trans htx)
    exact ⟨_, assembled, hwaiting, rfl⟩
  have hactive : v.activity = .paying (sampleAttempt leafIndex psi counters (.confirming assembled t.sent)) := by
    rw [hv]
    exact hwaiting
  have hnone : v.inFlight = [] := by
    rw [hv, hu, ht]
    show (s.inFlight ++ [_]).eraseIdx 0 = []
    rw [hflight]
    rfl
  have hconfirm := @step_confirmed Library.reference sampleHash samplePage _ _ hactive _ _ rfl hnone
  have hprepared : Run (fun t act t' => t.step Library.reference sampleHash samplePage act = some t' ∧
      (0 ∉ s.paidRows → sampleX ∉ s.leaves → t.Careful samplePage act)) s (prepareActs views leafIndex) t :=
    hrun.mono fun _ _ _ hstep => ⟨hstep.1, fun hnot _ => hstep.2 hnot⟩
  refine ⟨_, counters, assembled, ((hprepared.snoc ⟨haccept, fun _ => hfresh⟩).snoc ⟨hland, fun _ _ => hown⟩).snoc
    ⟨hconfirm, fun _ _ => trivial⟩, hcommitment, ?_⟩
  rw [hv, hu, ht]
  simp [State.advance, State.submit, State.landed, hflight, hchange, sampleAttempt]

/-- The page of the sample, whose group has two deposits in the pool. -/
def sampleBatch : State :=
  .preview [(sampleAddress, 1)] [sampleX + 1, sampleX + 2] [] (coords BabyJubJub.base)

theorem sampleBatch_press : sampleBatch.step Library.reference sampleHash samplePage .press =
    some { sampleBatch with activity := .connecting } := rfl

/-- The older deposit is the first one. -/
theorem sampleBatch_views : selectSpendableNotes sampleBatch.nullifiers
    [sampleView 0 (sampleX + 1), sampleView 1 (sampleX + 2)] =
      sampleView 0 (sampleX + 1) :: [sampleView 1 (sampleX + 2)] := by
  rw [selectSpendableNotes_of_sorted _ (by simp [sampleView]) (by simp [sampleView])]
  rfl

/-- After the sample's transaction landed the indexer does not report its change in time, so the row is shown as
failed.  The coordinator sweeps its session, and a second press pays the row out of the other deposit. -/
theorem payroll_fails : ∃ acts s, Run (fun s act s' => s.step Library.reference sampleHash samplePage act = some s')
    sampleBatch acts s ∧ ¬ s.PaysOnce sampleHash samplePage ∧ s.statusAt 0 = some .failed ∧
      (s.payments.filter fun p => p.row = 0).length = 2 := by
  obtain ⟨t, counters, assembled, hrun, -, ht⟩ := @exists_attempt { sampleBatch with activity := .connecting } 0
    (sampleX + 1) .pending [] rfl rfl rfl rfl rfl (by norm_num) rfl List.not_mem_nil _ _ sampleBatch_views
  have hthrow : t.step Library.reference sampleHash samplePage .throw = some (t.fail 0) := by
    rw [ht]
    rfl
  have hforget : (t.fail 0).step Library.reference sampleHash samplePage .forget =
      some { t.fail 0 with proposals := [] } := rfl
  have hrows : (t.fail 0).rows = [⟨sampleAddress, 1, .failed⟩] := by
    rw [ht]
    rfl
  have hagain : ({ t.fail 0 with proposals := [] } : State).step Library.reference sampleHash samplePage .press =
      some { t.fail 0 with proposals := [], activity := .connecting } := by
    simp [State.step, State.fail, State.setStatus, ht]
  have hne : sampleX + 2 ≠ sampleX + 1 := by
    intro h
    exact absurd (add_left_cancel h) (by decide +kernel)
  have hspent : t.nullifiers = [sampleX + 1] := by
    rw [ht]
    rfl
  have hviews' : selectSpendableNotes t.nullifiers
      [sampleView 0 (sampleX + 1), sampleView 1 (sampleX + 2), changeNoteView sampleHash assembled 3 1] =
        sampleView 1 (sampleX + 2) ::
          [changeNoteView sampleHash assembled 3 1].filter fun n => n.nullifier ∉ t.nullifiers := by
    rw [selectSpendableNotes_of_sorted _ (by simp [sampleView, changeNoteView]) (by simp [sampleView, changeNoteView]),
      hspent, List.filter_cons_of_neg (by simp [sampleView]), List.filter_cons_of_pos (by simp [sampleView, hne])]
  obtain ⟨u, counters', assembled', hrun', -, hu⟩ := @exists_attempt
    { t.fail 0 with proposals := [], activity := .connecting } 1 (sampleX + 2) .failed [] rfl hrows rfl (by rw [ht]; rfl)
    (by rw [ht]; rfl) (by norm_num) (by rw [ht]; rfl) (by simpa [State.fail, State.setStatus, hspent] using hne) _ _ hviews'
  have hthrow' : u.step Library.reference sampleHash samplePage .throw = some (u.fail 0) := by
    rw [hu]
    rfl
  have hpaid : ((u.fail 0).payments.filter fun p => p.row = 0).length = 2 := by
    rw [hu, ht]
    rfl
  refine ⟨_, u.fail 0, ((((((Run.single sampleBatch_press).append (hrun.mono fun _ _ _ h => h.1)).snoc hthrow).snoc
    hforget).snoc hagain).append (hrun'.mono fun _ _ _ h => h.1)).snoc hthrow', ?_, ?_, hpaid⟩
  · intro h
    have honce := h.once 0
    omega
  · rw [hu]
    rfl

/-- The page of a batch of two rows, the second with an address that is none. -/
def sampleRows : State :=
  .preview [(sampleAddress, 1), ("elsewhere", 1)] [sampleX + 1, sampleX + 2] [] (coords BabyJubJub.base)

/-- After a first press that fails before anything is sent. -/
def sampleAgain : State :=
  { sampleRows with
    rows := [⟨sampleAddress, 1, .failed⟩, ⟨"elsewhere", 1, .pending⟩]
    activity := .connecting }

/-- The deposits of the group, as they are scanned. -/
def sampleViews : List MultisigNoteView := [sampleView 0 (sampleX + 1), sampleView 1 (sampleX + 2)]

/-- The first press fails, the user presses again. -/
theorem run_sampleAgain : Run (fun s act s' => s.step Library.reference sampleHash samplePage act = some s' ∧
    s.Careful samplePage act) sampleRows [.press, .select sampleViews, .throw, .press] sampleAgain := by
  have hpress : sampleRows.step Library.reference sampleHash samplePage .press =
      some { sampleRows with activity := .connecting } := rfl
  have hselect : ({ sampleRows with activity := .connecting } : State).step Library.reference sampleHash samplePage
      (.select sampleViews) = some { sampleRows with
        rows := [⟨sampleAddress, 1, .awaitingSignatures⟩, ⟨"elsewhere", 1, .pending⟩]
        activity := .paying (sampleAttempt 0 (sampleX + 1) freshCounters .reading) } := by
    have hviews : selectSpendableNotes sampleRows.nullifiers sampleViews =
        sampleView 0 (sampleX + 1) :: [sampleView 1 (sampleX + 2)] := sampleBatch_views
    simp only [State.step]
    rw [hviews]
    simp [State.startRow, sampleRows, State.preview, samplePage, State.setStatus, sampleAttempt, freshCounters]
  refine (((Run.single ⟨hpress, trivial⟩).snoc ⟨hselect, List.not_mem_nil⟩).snoc ⟨rfl, ?_⟩).snoc ⟨rfl, trivial⟩
  exact fun _ _ => List.not_mem_nil

/-- The second press pays the first row, which is confirmed, and ends at the second. -/
theorem payroll_pays_once_sample : ∃ s, Run (fun s act s' => s.step Library.reference sampleHash samplePage act =
      some s' ∧ s.Careful samplePage act) sampleRows
      ([.press, .select sampleViews, .throw, .press] ++ (prepareActs sampleViews 0 ++ [.resume .accepted] ++ [.land 0] ++
        [.resume .confirmed]) ++ [.resume (.notes 4)]) s ∧
    s.statusAt 0 = some .confirmed ∧ s.statusAt 1 = some .failed ∧ s.PaysOnce sampleHash samplePage := by
  obtain ⟨t, counters, assembled, hrun, hcommitment, ht⟩ := @exists_attempt sampleAgain 0 (sampleX + 1) .failed
    [⟨"elsewhere", 1, .pending⟩] rfl rfl rfl rfl rfl (by norm_num) rfl List.not_mem_nil _ _ sampleBatch_views
  have hnot : 0 ∉ sampleAgain.paidRows := List.not_mem_nil
  have hfresh : sampleX ∉ sampleAgain.leaves := by
    have htwo : (2 : Fr) ≠ 0 := by decide +kernel
    simp [sampleAgain, sampleRows, State.preview, htwo]
  have hreported : ∃ s', t.step Library.reference sampleHash samplePage (.resume (.notes 4)) = some s' ∧
      s'.statusAt 0 = some .confirmed ∧ s'.statusAt 1 = some .failed := by
    have hactivity : t.activity = .paying (sampleAttempt 0 (sampleX + 1) counters (.resolving assembled)) := by rw [ht]
    have hmem : (assembled.changeCommitment, 3) ∈ t.fetchNotes 4 1 := by
      rw [hcommitment, ht]
      simp [State.fetchNotes, sampleAgain, sampleRows, State.preview]
    obtain ⟨changeNote, hresolved⟩ := @resolveChangeNote_of_mem sampleHash _ _ _ hmem 1
    refine ⟨_, @step_notes Library.reference sampleHash samplePage _ _ hactivity _ rfl 4 _ hresolved, ?_⟩
    have helsewhere : samplePage.decodeReceiveAddress "elsewhere" = .error "not the address of the row" := by
      have hne : "elsewhere" ≠ sampleAddress := by decide
      simp [samplePage, hne]
    rw [ht]
    simp [State.startRow, State.setStatus, State.statusAt, State.fail, sampleAttempt, helsewhere]
  obtain ⟨s', hresolve, hconfirmed, hfailed⟩ := hreported
  have hall := (run_sampleAgain.append (hrun.mono fun _ _ _ h => ⟨h.1, h.2 hnot hfresh⟩)).snoc ⟨hresolve, trivial⟩
  exact ⟨s', hall, hconfirmed, hfailed, payroll_pays_once hall⟩

end Kakure.Web
