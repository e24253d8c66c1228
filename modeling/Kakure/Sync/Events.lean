import Kakure.Circuits.Mint
import Kakure.Indexer.Chain
import Kakure.Lib.Fallible
import Kakure.Lib.Numerals

/-!
# The notes of the indexer

What `GET /notes` lists, and the events `sync/ScanEngine.ts` makes of it: `toUnprocessedEvent`, with the texts
read as `crypto/fields.ts` reads them.

* `toUnprocessedEvent_emitted` — the event of a note that was minted.
-/

namespace Kakure.Sync

open Hex Indexer Numerals Slices

/-- `IndexerNoteInserted`. -/
structure IndexerNoteInserted where
  leafIndex : ℕ
  leaf : String
  ephPubX : String
  tag : Option String
  cekWrap : Option String
  ciphertext : List String
  root : String

/-- The handler of `GET /notes`, for one row. -/
def serveNote (n : NoteRow) : IndexerNoteInserted :=
  ⟨n.leafIndex, n.leaf, n.ephPubX, n.tag, n.cekWrap, n.ciphertext, n.root⟩

/-- The types of events. -/
inductive EventType where
  | newNote
  | newMemo
  deriving DecidableEq

structure EventArgs where
  leafIndex : ℕ
  commitment : String
  ephemeralX : ℤ
  packedCiphertext : List String
  tag : Option ℤ
  cekWrap : Option ℤ

/-- `UnprocessedEvent`. -/
structure UnprocessedEvent where
  type : EventType
  blockNumber : ℤ
  txHash : String
  args : EventArgs

/-- `BigInt` of a text. -/
def bigIntOf (text : String) : Except String ℤ :=
  match bigInt text.toList with
  | some n => .ok n
  | none => .error ("Cannot convert " ++ text ++ " to a BigInt")

/-- `new Fr` of a bigint. -/
def newFr (n : ℤ) : Except String Fr :=
  if 0 ≤ n ∧ n < bn254ScalarFieldModulus then .ok (n : Fr)
  else .error ("Value " ++ toString n ++ " is greater or equal to field modulus.")

/-- `toFr` of a text. -/
def toFr (text : String) : Except String Fr := do
  let n ← bigIntOf text
  newFr n

/-- `toUnprocessedEvent`. -/
def toUnprocessedEvent (n : IndexerNoteInserted) : Except String UnprocessedEvent := do
  let memoFields : Option ℤ × Option ℤ ←
    match n.tag, n.cekWrap with
    | some tag, some cekWrap => do
      let tag ← bigIntOf tag
      let cekWrap ← bigIntOf cekWrap
      pure (some tag, some cekWrap)
    | _, _ => pure (none, none)
  let ephemeralX ← bigIntOf n.ephPubX
  return {
    type := if n.tag.isSome ∧ n.cekWrap.isSome then .newMemo else .newNote
    blockNumber := n.leafIndex
    txHash := n.root
    args := ⟨n.leafIndex, n.leaf, ephemeralX, n.ciphertext, memoFields.1, memoFields.2⟩ }

/-! ## Texts -/

/-- The text of bytes reads as the number they are. -/
theorem bigIntOf_toHex (b : Bytes 32) : bigIntOf (toHex b.val) = .ok (beNat b.val : ℤ) := by
  have hne : b.val ≠ [] := List.ne_nil_of_length_pos (by rw [b.property]; norm_num)
  have hread : bigInt (toHex b.val).toList = some (beNat b.val : ℤ) := by
    unfold toHex
    rw [String.toList_ofList]
    exact bigInt_hexDigits hne
  rw [bigIntOf, hread]

theorem bigIntOf_toBytes (x : Fr) : bigIntOf (toHex x.toBytes.val) = .ok (x.val : ℤ) := by
  rw [bigIntOf_toHex, beNat_toBytes]

@[simp] theorem newFr_val (x : Fr) : newFr (x.val : ℤ) = .ok x := by
  have hlt : (x.val : ℤ) < (bn254ScalarFieldModulus : ℕ) := Int.ofNat_lt.2 (ZMod.val_lt x)
  refine (if_pos ⟨Int.natCast_nonneg _, hlt⟩).trans ?_
  rw [Int.cast_natCast, ZMod.natCast_zmod_val]

/-- The text of a field element reads as the element. -/
@[simp] theorem toFr_toBytes (x : Fr) : toFr (toHex x.toBytes.val) = .ok x := by
  rw [toFr, Fallible.bind_of_ok (bigIntOf_toBytes x), newFr_val]

/-! ## Events of notes that are minted -/

/-- What a mint makes public. -/
structure Emitted where
  leaf : Fr
  ephPub : Circuit.Point
  memo : Option (Fr × Fr)
  ciphertext : List Fr

def Emitted.ofSelf (s : Circuit.SelfMint) : Emitted := ⟨s.leaf, s.ephPub, none, s.ciphertext⟩

def Emitted.ofIncoming (i : Circuit.IncomingMint) : Emitted :=
  ⟨i.leaf, i.ephPub, some (i.tag, i.cekWrap), i.ciphertext⟩

namespace Emitted

/-- The event of the pool. -/
def noteInserted (m : Emitted) (leafIndex : ℕ) (root : Bytes 32) : NoteInserted where
  leafIndex := leafIndex
  leaf := m.leaf.toBytes
  ephPubX := m.ephPub.x.toBytes
  tag := m.memo.map fun p => p.1.toBytes
  cekWrap := m.memo.map fun p => p.2.toBytes
  ciphertext := m.ciphertext.map Fr.toBytes
  root := root

/-- The event of a scan. -/
def event (m : Emitted) (leafIndex : ℕ) (blockNumber : ℤ) (txHash : String) : UnprocessedEvent where
  type := if m.memo.isSome then .newMemo else .newNote
  blockNumber := blockNumber
  txHash := txHash
  args :=
    { leafIndex := leafIndex
      commitment := toHex m.leaf.toBytes.val
      ephemeralX := (m.ephPub.x.val : ℤ)
      packedCiphertext := m.ciphertext.map fun x => toHex x.toBytes.val
      tag := m.memo.map fun p => (p.1.val : ℤ)
      cekWrap := m.memo.map fun p => (p.2.val : ℤ) }

/-- The event a scan makes of what the indexer lists of the event of the pool.  It takes the index for the number
of the block, and the root for the hash of the transaction. -/
theorem toUnprocessedEvent_emitted (m : Emitted) (leafIndex slot : ℕ) (root : Bytes 32) :
    toUnprocessedEvent (serveNote (noteRow slot (m.noteInserted leafIndex root))) =
      .ok (m.event leafIndex leafIndex (toHex root.val)) := by
  obtain ⟨leaf, ephPub, memo, ciphertext⟩ := m
  have hciphertext : (ciphertext.map Fr.toBytes).map (fun b => toHex b.val) =
      ciphertext.map fun x => toHex x.toBytes.val := by
    rw [List.map_map]
    rfl
  unfold toUnprocessedEvent
  cases memo with
  | none =>
    simp only [serveNote, noteRow, noteInserted, Option.map_none, hciphertext, bigIntOf_toBytes, pure_bind]
    rfl
  | some p =>
    simp only [serveNote, noteRow, noteInserted, Option.map_some, hciphertext, bigIntOf_toBytes]
    rfl

end Emitted

end Kakure.Sync
