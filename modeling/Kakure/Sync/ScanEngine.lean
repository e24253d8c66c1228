import Kakure.Lib.Keyed
import Kakure.Sync.RoundTrip
import Kakure.Tree.Sdk

/-!
# The scan engine

`ScanEngine` of `sync/ScanEngine.ts` over the note repository of `state/UtxoRepository.ts`: passes over the notes
of the indexer, until neither family of tags moves on or the passes are used up.  The mirror of the tree is
optional.
-/

namespace Kakure.Sync

open Notes Tss Wallet Sdk

/-- `UtxoRepository`, the map of which keeps the order of its notes. -/
structure UtxoRepository where
  notes : List WalletNote

namespace UtxoRepository

def new : UtxoRepository := ⟨[]⟩

/-- `addNote`. -/
def addNote (u : UtxoRepository) (note : WalletNote) : UtxoRepository :=
  match u.notes.find? (fun n => n.nullifier = note.nullifier) with
  | some existing => ⟨Keyed.put WalletNote.nullifier u.notes { note with spent := existing.spent || note.spent }⟩
  | none => ⟨Keyed.put WalletNote.nullifier u.notes note⟩

/-- `markSpent`. -/
def markSpent (u : UtxoRepository) (nullifier : Fr) : Bool × UtxoRepository :=
  match u.notes.find? (fun n => n.nullifier = nullifier) with
  | some note =>
    if note.spent then (false, u) else (true, ⟨Keyed.put WalletNote.nullifier u.notes { note with spent := true }⟩)
  | none => (false, u)

/-- `getUnspentNotes`. -/
def getUnspentNotes (u : UtxoRepository) : List WalletNote := u.notes.filter fun n => !n.spent

/-- `getAllNotes`. -/
def getAllNotes (u : UtxoRepository) : List WalletNote := u.notes

/-- `getBalance` of an asset. -/
def getBalance (u : UtxoRepository) (assetId : Fr) : ℕ :=
  ((u.getUnspentNotes.filter fun n => n.note.assetId = assetId).map fun n => n.note.value).sum

end UtxoRepository

/-- The state of a `ScanEngine` and its repositories. -/
structure ScanState where
  processor : NoteProcessor
  keyRepo : KeyRepository
  utxoRepo : UtxoRepository
  merkleTree : Option LeanIMT

/-- The default of `lookaheadWindow`. -/
def scanWindow : ℤ := 20

/-- The number of passes. -/
def maxPasses : ℕ := 64

section Engine

variable (lib : Library) (hash : List Fr → Fr) (poseidon : Fr → Fr → Fr → Fr) (skView : Fr)

/-- The next leaf goes into the mirror. -/
def mirrorLeaf (tree : Option LeanIMT) (n : IndexerNoteInserted) : Except String (Option LeanIMT) :=
  match tree with
  | none => .ok none
  | some t =>
    if n.leafIndex = t.nextLeafIndex then do
      let leaf ← toFr n.leaf
      let inserted ← t.insert poseidon leaf
      return some inserted.1
    else .ok (some t)

/-- A turn of `scanOnce`. -/
def scanNote (s : ScanState) (n : IndexerNoteInserted) : Except String ScanState := do
  let tree ← mirrorLeaf poseidon s.merkleTree n
  let event ← toUnprocessedEvent n
  let processed := s.processor.process lib hash (deriveSelfSpendKey hash skView) s.keyRepo event
  return {
    processor := processed.2.1
    keyRepo := processed.2.2
    utxoRepo :=
      match processed.1 with
      | some note => s.utxoRepo.addNote note
      | none => s.utxoRepo
    merkleTree := tree }

/-- `scanOnce`. -/
def scanOnce (notes : List IndexerNoteInserted) (s : ScanState) : Except String ScanState :=
  notes.foldlM (scanNote lib hash poseidon skView) s

/-- Both lookaheads, with whether one of them advanced. -/
def ensureLookaheads (window : ℤ) (r : KeyRepository) : Bool × KeyRepository :=
  let ext1 := r.ensureSelfLookahead lib (accountOf hash skView) window
  let ext2 := ext1.2.ensureIncomingLookahead lib (accountOf hash skView) window
  (ext1.1 || ext2.1, ext2.2)

/-- The loop of `scanPasses`. -/
def scanLoop (window : ℤ) (notes : List IndexerNoteInserted) : ℕ → ScanState → Except String ScanState
  | 0, s => .ok s
  | left + 1, s => do
    let s ← scanOnce lib hash poseidon skView notes s
    let ensured := ensureLookaheads lib hash skView window s.keyRepo
    let s := { s with keyRepo := ensured.2 }
    if ensured.1 then scanLoop window notes left s else return s

/-- `scanPasses`, of the notes that are fetched. -/
def scanPasses (window : ℤ) (notes : List IndexerNoteInserted) (s : ScanState) : Except String ScanState :=
  scanLoop lib hash poseidon skView window notes maxPasses
    { s with keyRepo := (ensureLookaheads lib hash skView window s.keyRepo).2 }

/-- `sync` of an engine with a lookahead window. -/
def sync (lookaheadWindow : ℤ) (notes : List IndexerNoteInserted) (s : ScanState) : Except String ScanState :=
  scanPasses lib hash poseidon skView lookaheadWindow notes s

end Engine

/-- An engine on new repositories. -/
def coldState (keys : ComplianceKeyRing) (merkleTree : Option LeanIMT) : ScanState :=
  ⟨⟨keys, 0⟩, .new, .new, merkleTree⟩

end Kakure.Sync
