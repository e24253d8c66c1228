import Kakure.Curve.Primes

/-!
# Private discovery

The types of `packages/sdk/src/discovery/types.ts`: what a client asks a discovery service and what it
is answered.
-/

namespace Kakure.Discovery

/-- `HOWL_NOTE_LAYOUT_VERSION`. -/
def howlNoteLayoutVersion : ℕ := 1

/-- `HOWL_NOTE_RECORD_BYTES`. -/
def howlNoteRecordBytes : ℕ := 246

/-- `HOWL_NOTE_CELL_BYTES`. -/
def howlNoteCellBytes : ℕ := 256

/-- `COMMITMENT_PREFIX_BYTES`. -/
def commitmentPrefixBytes : ℕ := 16

/-- `CIPHERTEXT_KEPT_INDICES`. -/
def ciphertextKeptIndices : List ℕ := [1, 2, 3, 4, 6]

/-- `RecordKind`, whose values are 0 and 1. -/
inductive RecordKind where
  | self
  | incoming
  deriving DecidableEq

/-- `HowlNoteRecord`. -/
structure HowlNoteRecord where
  layoutVersion : ℕ
  recordKind : RecordKind
  leafIndex : ℕ
  commitmentPrefix : List UInt8
  ephemeralPkX : Fr
  cekWrap : Fr
  ciphertextKept : List Fr
  deriving DecidableEq

/-- `FirstOccurrence`. -/
structure FirstOccurrence where
  tag : Fr
  record : Option HowlNoteRecord
  occurrenceCount : ℤ

/-- `IndexedTag`. -/
structure IndexedTag where
  index : ℕ
  tag : Fr

end Kakure.Discovery
