import Kakure.Lib.Base64
import Kakure.Lib.Text
import Kakure.Pool.Instruction

/-!
# The events on the wire

`events.rs`: an event is logged as a tag and the borsh encoding of its fields, and the
runtime writes both into one line of the transaction's log.
-/

namespace Kakure

open Slices

/-- `NOTE_INSERTED_TAG`. -/
def noteInsertedTag : String := "kakure:NoteInserted"

/-- `NULLIFIER_SPENT_TAG`. -/
def nullifierSpentTag : String := "kakure:NullifierSpent"

/-- `COMPLIANCE_KEY_ROTATED_TAG`. -/
def complianceKeyRotatedTag : String := "kakure:ComplianceKeyRotated"

/-- The borsh encoding of an optional word. -/
def optionBytes : Option (Bytes 32) → List UInt8
  | none => [0]
  | some b => 1 :: b.val

/-- The encodings of some words, one after the other. -/
def wordBytes (words : List (Bytes 32)) : List UInt8 := (words.map Subtype.val).flatten

/-- `borsh::to_vec` of a `NoteInserted`. -/
def NoteInserted.toVec (ev : NoteInserted) : List UInt8 :=
  [(leBytes 8 ev.leafIndex).val, ev.leaf.val, ev.ephPubX.val, optionBytes ev.tag,
    optionBytes ev.cekWrap, wordBytes ev.ciphertext, ev.root.val].flatten

/-- The tag of an event. -/
def Event.tag : Event → String
  | .noteInserted _ => noteInsertedTag
  | .nullifierSpent _ => nullifierSpentTag
  | .complianceKeyRotated _ _ _ _ => complianceKeyRotatedTag

/-- The borsh encoding of an event. -/
def Event.body : Event → List UInt8
  | .noteInserted ev => ev.toVec
  | .nullifierSpent nullifier => nullifier.val
  | .complianceKeyRotated oldVersion newVersion x y =>
    [(leBytes 4 oldVersion).val, (leBytes 4 newVersion).val, x.val, y.val].flatten

/-- The values the fields of the Rust types can have: `leaf_index` is a `u64`, `ciphertext` has
seven words, the versions are `u32`s. -/
def Event.Fits : Event → Prop
  | .noteInserted ev => ev.leafIndex < 2 ^ 64 ∧ ev.ciphertext.length = 7
  | .nullifierSpent _ => True
  | .complianceKeyRotated oldVersion newVersion _ _ => oldVersion < 2 ^ 32 ∧ newVersion < 2 ^ 32

/-- The log line of `sol_log_data`: every field in base64, joined by blanks. -/
def solLogData (fields : List (List UInt8)) : List Char :=
  "Program data: ".toList ++ [' '].intercalate (fields.map Base64.encode)

/-- The log line of an event, as the `emit_*` functions write it. -/
def Event.logLine (ev : Event) : List Char :=
  solLogData [Text.asciiBytes ev.tag.toList, ev.body]

theorem Event.body_ne_nil (ev : Event) : ev.body ≠ [] := by
  intro h
  have hlen := congrArg List.length h
  cases ev with
  | noteInserted ev => simp [Event.body, NoteInserted.toVec] at hlen
  | nullifierSpent nullifier => simp [Event.body] at hlen
  | complianceKeyRotated oldVersion newVersion x y => simp [Event.body] at hlen

end Kakure
