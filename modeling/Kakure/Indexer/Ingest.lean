import Kakure.Indexer.Events
import Kakure.Indexer.Store
import Kakure.Tree.Indexer

/-!
# The ingestor

`ingest.ts`, `errors.ts`, `logScope.ts` and the field texts of `poseidonV1.ts`.  What an
ingestor does between two awaits is a function of the mirror it starts with: the store
statements it executes, the mirror it leaves, and the error it may end with.

* `processSignature` — the code behind an awaited `getTransaction`;
* `applyLines_logLines` — a transaction's lines are applied event by event.
-/

namespace Kakure.Indexer

open Slices Hex

/-! ## Field texts -/

/-- `fieldFromHex`. -/
def fieldFromHex (hex : String) : Except String ℕ :=
  let clean := if "0x".toList <+: hex.toList ∨ "0X".toList <+: hex.toList then hex.toList.drop 2
    else hex.toList
  if clean = [] then .ok 0
  else
    match parseHex clean with
    | none => .error ("Cannot convert 0x" ++ String.ofList clean ++ " to a BigInt")
    | some value =>
      if value ≥ bn254ScalarFieldModulus then
        .error ("field value " ++ toString value ++ " is not canonical (>= BN254 scalar modulus)")
      else .ok value

/-- `fieldToHex`: `0x` and the 64 digits. -/
def fieldToHex (value : ℕ) : Except String String :=
  if value ≥ bn254ScalarFieldModulus then
    .error ("field value " ++ toString value ++ " is not a canonical BN254 scalar")
  else .ok (toHex (beBytes 32 value).val)

theorem fieldFromHex_toHex (b : Bytes 32) : fieldFromHex (toHex b.val) =
    if beNat b.val ≥ bn254ScalarFieldModulus then
      .error ("field value " ++ toString (beNat b.val) ++
        " is not canonical (>= BN254 scalar modulus)")
    else .ok (beNat b.val) := by
  have htext : (toHex b.val).toList = '0' :: 'x' :: hexDigits b.val := by
    unfold toHex
    rw [String.toList_ofList]
  have hne : hexDigits b.val ≠ [] := by
    obtain ⟨bytes, hlen⟩ := b
    cases bytes with
    | nil => cases hlen
    | cons c bytes => simp [hexDigits, byteDigits]
  have hstart : "0x".toList <+: '0' :: 'x' :: hexDigits b.val := ⟨hexDigits b.val, rfl⟩
  unfold fieldFromHex
  simp only [htext, hstart, true_or, if_true, List.drop_succ_cons, List.drop_zero, if_neg hne,
    parseHex_hexDigits]

theorem fieldFromHex_of_canonical {b : Bytes 32} (h : Canonical b) :
    fieldFromHex (toHex b.val) = .ok (beNat b.val) := by
  rw [fieldFromHex_toHex]
  exact if_neg (not_le.2 h)

theorem fieldToHex_val (x : Fr) : fieldToHex x.val = .ok (toHex x.toBytes.val) :=
  if_neg (not_le.2 (ZMod.val_lt x))

/-! ## `logScope.ts` -/

/-- The program id of a bracket line and what follows it. -/
def bracketLine (line : List Char) : Option (List Char × List Char) :=
  if "Program ".toList <+: line then
    let rest := line.drop 8
    let id := rest.takeWhile fun c => !Text.isBlank c
    if id = [] then none else some (id, rest.dropWhile fun c => !Text.isBlank c)
  else none

/-- `\d+\]$`. -/
def isDepth (text : List Char) : Bool :=
  (text.takeWhile Char.isDigit ≠ []) && (text.dropWhile Char.isDigit = [']'])

/-- `INVOKE_RE`, with the id it captures. -/
def invokeRe (line : List Char) : Option (List Char) :=
  match bracketLine line with
  | some (id, rest) => if " invoke [".toList <+: rest ∧ isDepth (rest.drop 9) then some id else none
  | none => none

/-- `END_RE`, with the id it captures. -/
def endRe (line : List Char) : Option (List Char) :=
  match bracketLine line with
  | some (id, rest) => if " success".toList <+: rest ∨ " failed".toList <+: rest then some id else none
  | none => none

/-- Whether an id is on the stack is decided by equality. -/
scoped instance lawfulBEqId : LawfulBEq (List Char) := inferInstance

/-- The loop of `programDataLinesFor`, with the stack innermost first. -/
def scopedLines (programId : List Char) : List (List Char) → List (List Char) → List (List Char)
  | _, [] => []
  | stack, line :: lines =>
    match invokeRe line with
    | some id => scopedLines programId (id :: stack) lines
    | none =>
      match endRe line with
      | some id =>
        -- the innermost invocation of this program is closed, with all inside it
        let stack' := if id ∈ stack then (stack.dropWhile fun id' => id' ≠ id).tail else stack
        scopedLines programId stack' lines
      | none =>
        if programDataPrefix <+: line ∧ stack.head? = some programId then
          line :: scopedLines programId stack lines
        else scopedLines programId stack lines

/-- `programDataLinesFor`. -/
def programDataLinesFor (logMessages : List (List Char)) (programId : List Char) : List (List Char) :=
  scopedLines programId [] logMessages

/-! ## `errors.ts` -/

/-- What a stretch of the ingestor can throw. -/
inductive IngestError where
  | logTruncation (signature : String) (slot : ℕ)
  | other (message : String)

/-- `logsWereTruncated`. -/
def logsWereTruncated (logMessages : List (List Char)) : Bool :=
  logMessages.any fun l => "Log truncated".toList.isPrefixOf l

/-! ## `ingest.ts` -/

structure SignatureInfo where
  signature : String
  slot : ℕ
  err : Bool
  deriving DecidableEq

structure RawTransaction where
  err : Bool
  logMessages : List (List Char)

/-- A statement on the store. -/
inductive Statement where
  | insertNote (note : NoteRow)
  | insertNullifier (nullifier : String) (slot : ℕ)
  | pushRoot (root : String) (nextLeafIndex slot : ℕ)
  | insertComplianceKey (row : ComplianceKeyRow)
  | setCursor (state : CursorState)

def IndexerStore.exec (s : IndexerStore) : Statement → IndexerStore
  | .insertNote note => s.insertNote note
  | .insertNullifier nullifier slot => s.insertNullifier nullifier slot
  | .pushRoot root nextLeafIndex slot => s.pushRoot root nextLeafIndex slot
  | .insertComplianceKey row => s.insertComplianceKey row
  | .setCursor state => s.setCursor state

def IndexerStore.execAll (s : IndexerStore) (statements : List Statement) : IndexerStore :=
  statements.foldl IndexerStore.exec s

/-- What a stretch between two awaits did. -/
structure Outcome where
  tree : LeanIMT
  statements : List Statement
  error : Option IngestError

/-- The next stretch, unless this one threw. -/
def Outcome.andThen (o : Outcome) (next : LeanIMT → Outcome) : Outcome :=
  match o.error with
  | some _ => o
  | none => { next o.tree with statements := o.statements ++ (next o.tree).statements }

variable (poseidon : Fr → Fr → Fr → Fr)

/-- `applyEvent`. -/
def applyEvent (tree : LeanIMT) (event : KakurePoolEvent) (slot : ℕ) : Outcome :=
  match event with
  | .noteInserted leafIndex leaf ephPubX tag cekWrap ciphertext _ =>
    match fieldFromHex leaf with
    | .error e => ⟨tree, [], some (.other e)⟩
    | .ok x =>
      match tree.insert poseidon x with
      | .error e => ⟨tree, [], some (.other e)⟩
      | .ok (tree', rootValue) =>
        match fieldToHex rootValue with
        | .error e => ⟨tree', [], some (.other e)⟩
        | .ok root => ⟨tree', [
            .insertNote ⟨leafIndex, leaf, ephPubX, tag, cekWrap, ciphertext, root, slot⟩,
            .pushRoot root tree'.nextIndex slot], none⟩
  | .nullifierSpent nullifier => ⟨tree, [.insertNullifier nullifier slot], none⟩
  | .complianceKeyRotated _ newVersion x y =>
    ⟨tree, [.insertComplianceKey ⟨newVersion, x, y, slot⟩], none⟩

/-- The loop of `processSignature` over the program-data lines. -/
def applyLines (slot : ℕ) : List (List Char) → LeanIMT → Outcome
  | [], tree => ⟨tree, [], none⟩
  | line :: lines, tree =>
    match decodeProgramDataLine defaultKakurePoolIdl line with
    | .error _ => applyLines slot lines tree
    | .ok none => applyLines slot lines tree
    | .ok (some decoded) =>
      match toDomainEvent decoded with
      | .error e => ⟨tree, [], some (.other e.message)⟩
      | .ok event => (applyEvent poseidon tree event slot).andThen (applyLines slot lines)

/-- `processSignature`, from the answer of `getTransaction` on. -/
def processSignature (programId : List Char) (signature : String) (slot : ℕ)
    (tx : Option RawTransaction) (tree : LeanIMT) : Outcome :=
  match tx with
  | none => ⟨tree, [.setCursor ⟨some signature, slot⟩], none⟩
  | some tx =>
    if tx.err then ⟨tree, [.setCursor ⟨some signature, slot⟩], none⟩
    else if logsWereTruncated tx.logMessages then ⟨tree, [], some (.logTruncation signature slot)⟩
    else (applyLines poseidon slot (programDataLinesFor tx.logMessages programId) tree).andThen
      fun tree => ⟨tree, [.setCursor ⟨some signature, slot⟩], none⟩

/-- `hydrateTree`. -/
def hydrateTree (store : IndexerStore) (tree : LeanIMT) : Except String LeanIMT :=
  (store.getNotesFrom 0).foldlM (fun tree note =>
    (fieldFromHex note.leaf).bind fun x => (tree.insert poseidon x).map Prod.fst) tree

/-- The arguments of `getSignaturesForAddress`: down to the cursor's signature, if there is one. -/
def backfillUntil (store : IndexerStore) : Option String := store.getCursor.lastSignature

/-- The signatures `backfill` processes one after the other. -/
def backfillQueue (signatures : List SignatureInfo) : List SignatureInfo :=
  signatures.reverse.filter fun sig => !sig.err

/-! ## Stretches -/

theorem IndexerStore.execAll_append (s : IndexerStore) (first second : List Statement) :
    s.execAll (first ++ second) = (s.execAll first).execAll second := List.foldl_append

@[simp] theorem IndexerStore.execAll_nil (s : IndexerStore) : s.execAll [] = s := rfl

@[simp] theorem IndexerStore.execAll_cons (s : IndexerStore) (st : Statement) (sts : List Statement) :
    s.execAll (st :: sts) = (s.exec st).execAll sts := rfl

theorem Outcome.andThen_of_none {o : Outcome} {next : LeanIMT → Outcome} (h : o.error = none) :
    o.andThen next = ⟨(next o.tree).tree, o.statements ++ (next o.tree).statements,
      (next o.tree).error⟩ := by
  unfold Outcome.andThen
  rw [h]

/-- The loop over typed events. -/
def applyEvents (slot : ℕ) : List KakurePoolEvent → LeanIMT → Outcome
  | [], tree => ⟨tree, [], none⟩
  | event :: events, tree => (applyEvent poseidon tree event slot).andThen (applyEvents slot events)

/-- The lines of some events are applied event by event. -/
theorem applyLines_logLines {evs : List Event} (hfits : ∀ ev ∈ evs, ev.Fits) (slot : ℕ)
    (tree : LeanIMT) : applyLines poseidon slot (evs.map Event.logLine) tree =
      applyEvents poseidon slot (evs.map domainOf) tree := by
  induction evs generalizing tree with
  | nil => rfl
  | cons ev evs ih =>
    have hline := decodeProgramDataLine_logLine (hfits ev List.mem_cons_self)
    have hrest : applyLines poseidon slot (evs.map Event.logLine) =
        applyEvents poseidon slot (evs.map domainOf) :=
      funext fun t => ih (fun ev' h => hfits ev' (List.mem_cons_of_mem _ h)) t
    rw [List.map_cons, List.map_cons, applyLines, hline]
    simp only [toDomainEvent_decoded, hrest]
    rfl

end Kakure.Indexer
