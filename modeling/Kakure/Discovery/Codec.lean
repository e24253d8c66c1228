import Kakure.Discovery.Types
import Kakure.Notes.Note

/-!
# The note record on the wire

`discovery/codec.ts` and `discovery/reconstruct.ts`: the 256-byte cell of a note record, and the two words
of a ciphertext that are not sent and put back.  `Fr.fromBuffer` is a parameter.

* `decode_eq_ok_iff` — the decoder gives the record of this layout whose cell it was handed, and no other;
* `reconstruct_kept` — the owner puts back the two words of a note of its own.
-/

namespace Kakure.Discovery

open Slices Fallible Notes

/-! ## The cell -/

/-- `OFF_LAYOUT`. -/
def offLayout : ℕ := 0

/-- `OFF_KIND`. -/
def offKind : ℕ := 1

/-- `OFF_LEAF_INDEX`. -/
def offLeafIndex : ℕ := 2

/-- `OFF_COMMITMENT_PREFIX`. -/
def offCommitmentPrefix : ℕ := 6

/-- `OFF_EPH_X`. -/
def offEphX : ℕ := 22

/-- `OFF_CEK_WRAP`. -/
def offCekWrap : ℕ := 54

/-- `OFF_CIPHERTEXT`. -/
def offCiphertext : ℕ := 86

/-- `FIELD_BYTES`. -/
def fieldBytes : ℕ := 32

/-- `RECORD_KIND_SELF` and `RECORD_KIND_INCOMING`. -/
def RecordKind.toByte : RecordKind → UInt8
  | .self => 0
  | .incoming => 1

/-- The kind a byte stands for. -/
def RecordKind.ofByte? (b : UInt8) : Option RecordKind :=
  if b = RecordKind.self.toByte then some .self
  else if b = RecordKind.incoming.toByte then some .incoming
  else none

theorem RecordKind.ofByte?_eq_some_iff {b : UInt8} {kind : RecordKind} : ofByte? b = some kind ↔ b = kind.toByte := by
  constructor
  · intro h
    rw [ofByte?] at h
    split at h
    · next hself => cases h; exact hself
    · split at h
      · next hincoming => cases h; exact hincoming
      · cases h
  · rintro rfl
    cases kind <;> rfl

/-- `putField`; a field element has 32 bytes. -/
def putField (out : List UInt8) (offset : ℕ) (value : Fr) : List UInt8 := writeAt out offset value.toBytes.val

/-- `encodeHowlNoteRecord`. -/
def encodeHowlNoteRecord (record : HowlNoteRecord) : Except String (List UInt8) :=
  if record.ciphertextKept.length ≠ ciphertextKeptIndices.length then
    .error ("record carries " ++ toString record.ciphertextKept.length ++ " kept ciphertext words, expected " ++
      toString ciphertextKeptIndices.length)
  else if record.commitmentPrefix.length ≠ commitmentPrefixBytes then
    .error ("commitment prefix is " ++ toString record.commitmentPrefix.length ++ " bytes, expected " ++
      toString commitmentPrefixBytes)
  else if 0xffffffff < record.leafIndex then .error ("leafIndex " ++ toString record.leafIndex ++ " is not a u32")
  else
    let out := List.replicate howlNoteCellBytes 0
    let out := writeAt out offLayout [UInt8.ofNat record.layoutVersion]
    let out := writeAt out offKind [record.recordKind.toByte]
    let out := writeAt out offLeafIndex (beBytes 4 record.leafIndex).val
    let out := writeAt out offCommitmentPrefix record.commitmentPrefix
    let out := putField out offEphX record.ephemeralPkX
    let out := putField out offCekWrap record.cekWrap
    .ok (record.ciphertextKept.zipIdx.foldl (fun out word => putField out (offCiphertext + word.2 * fieldBytes) word.1) out)

/-- `Uint8Array.subarray`. -/
def subarray (src : List UInt8) (start stop : ℕ) : List UInt8 := (src.drop start).take (stop - start)

section FromBuffer

variable (fromBuffer : List UInt8 → Except String Fr)

/-- `readField`. -/
def readField (src : List UInt8) (offset : ℕ) : Except String Fr :=
  fromBuffer (subarray src offset (offset + fieldBytes))

/-- `decodeHowlNoteRecord`. -/
def decodeHowlNoteRecord (cell : List UInt8) : Except String HowlNoteRecord :=
  if cell.length ≠ howlNoteCellBytes then
    .error ("cell is " ++ toString cell.length ++ " bytes, expected " ++ toString howlNoteCellBytes)
  else
    let layoutVersion := (cell.getD offLayout 0).toNat
    if layoutVersion ≠ howlNoteLayoutVersion then
      .error ("record layout version " ++ toString layoutVersion ++ " is not the supported " ++
        toString howlNoteLayoutVersion)
    else
      match RecordKind.ofByte? (cell.getD offKind 0) with
      | none => .error ("record kind " ++ toString (cell.getD offKind 0).toNat ++ " is neither self nor incoming")
      | some recordKind =>
        match (List.range' howlNoteRecordBytes (howlNoteCellBytes - howlNoteRecordBytes)).find?
            fun i => cell.getD i 0 ≠ 0 with
        | some i => .error ("cell padding is non-zero at byte " ++ toString i)
        | none => do
          let leafIndex := beNat (subarray cell offLeafIndex (offLeafIndex + 4))
          let commitmentPrefix := subarray cell offCommitmentPrefix (offCommitmentPrefix + commitmentPrefixBytes)
          let ephemeralPkX ← readField fromBuffer cell offEphX
          let cekWrap ← readField fromBuffer cell offCekWrap
          let ciphertextKept ← ciphertextKeptIndices.zipIdx.mapM fun word =>
            readField fromBuffer cell (offCiphertext + word.2 * fieldBytes)
          .ok { layoutVersion, recordKind, leafIndex, commitmentPrefix, ephemeralPkX, cekWrap, ciphertextKept }

end FromBuffer

/-! ## The fields of a cell -/

/-- What a record has in its cell, field by field. -/
def HowlNoteRecord.fields (record : HowlNoteRecord) : List (List UInt8) :=
  [[UInt8.ofNat record.layoutVersion], [record.recordKind.toByte], (beBytes 4 record.leafIndex).val,
    record.commitmentPrefix, record.ephemeralPkX.toBytes.val, record.cekWrap.toBytes.val] ++
    record.ciphertextKept.map fun word => word.toBytes.val

/-- The bytes behind the record. -/
def padding : List UInt8 := List.replicate (howlNoteCellBytes - howlNoteRecordBytes) 0

/-- The widths of the fields and of what is behind them. -/
def cellWidths : List ℕ := [1, 1, 4, 16, 32, 32, 32, 32, 32, 32, 32, 10]

/-- The words of a ciphertext are written one behind the other. -/
theorem foldl_putField (words : List Fr) (out : List UInt8) (start offset : ℕ) :
    (words.zipIdx start).foldl (fun out word => putField out (offset + word.2 * fieldBytes) word.1) out =
      writeFields out (offset + start * fieldBytes) (words.map fun word => word.toBytes.val) := by
  induction words generalizing out start with
  | nil => rfl
  | cons word words ih =>
    rw [List.zipIdx_cons, List.foldl_cons, ih, List.map_cons, writeFields, Bytes.length_val, putField, Nat.add_mul,
      Nat.one_mul, ← Nat.add_assoc]
    rfl

theorem encode_eq_ok_iff {record : HowlNoteRecord} {cell : List UInt8} : encodeHowlNoteRecord record = .ok cell ↔
    record.ciphertextKept.length = ciphertextKeptIndices.length ∧
      record.commitmentPrefix.length = commitmentPrefixBytes ∧ record.leafIndex ≤ 0xffffffff ∧
      (record.fields ++ [padding]).flatten = cell := by
  by_cases hkept : record.ciphertextKept.length = ciphertextKeptIndices.length
  swap
  · simp [encodeHowlNoteRecord, hkept]
  by_cases hprefix : record.commitmentPrefix.length = commitmentPrefixBytes
  swap
  · simp [encodeHowlNoteRecord, hkept, hprefix]
  by_cases hleaf : record.leafIndex ≤ 0xffffffff
  swap
  · simp [encodeHowlNoteRecord, hkept, hprefix, hleaf, not_le.1 hleaf]
  have hlength : record.fields.flatten.length = howlNoteRecordBytes := by
    simp [HowlNoteRecord.fields, Function.comp_def, hkept, hprefix]
    rfl
  have hwritten := @writeFields_zeros record.fields [] howlNoteCellBytes (by rw [hlength]; decide)
  rw [hlength, List.nil_append, List.nil_append] at hwritten
  rw [encodeHowlNoteRecord, if_neg (not_not.2 hkept), if_neg (not_not.2 hprefix), if_neg (not_lt.2 hleaf)]
  dsimp only
  rw [foldl_putField]
  have hcell : (record.fields ++ [padding]).flatten = record.fields.flatten ++ padding := by simp
  rw [hcell, padding, ← hwritten]
  simp [HowlNoteRecord.fields, hkept, hprefix, hleaf, writeFields, putField]
  exact Iff.rfl

/-! ## Reading a cell -/

/-- What the decoder accepts of a field element. -/
def AcceptsCanonical (fromBuffer : List UInt8 → Except String Fr) : Prop :=
  ∀ bytes x, fromBuffer bytes = .ok x ↔ bytes = x.toBytes.val

theorem subarray_eq_map {src : List UInt8} {start stop : ℕ} (h : stop ≤ src.length) :
    subarray src start stop = (List.range' start (stop - start)).map fun i => src.getD i 0 := by
  refine List.ext_getElem ?_ fun i hi hi' => ?_
  · rw [subarray, List.length_take, List.length_drop, List.length_map, List.length_range']
    omega
  · rw [List.length_map, List.length_range'] at hi'
    simp only [subarray, List.getElem_take, List.getElem_drop, List.getElem_map, List.getElem_range', Nat.one_mul]
    rw [List.getD_eq_getElem _ _ (by omega)]

theorem subarray_one {src : List UInt8} {i : ℕ} (h : i < src.length) : subarray src i (i + 1) = [src.getD i 0] := by
  have hstop : i + 1 ≤ src.length := h
  rw [subarray_eq_map hstop, Nat.add_sub_cancel_left]
  rfl

/-- The padding is zero if none of its bytes is not. -/
theorem padding_iff {cell : List UInt8} (h : cell.length = howlNoteCellBytes) :
    (List.range' howlNoteRecordBytes (howlNoteCellBytes - howlNoteRecordBytes)).find? (fun i => cell.getD i 0 ≠ 0) = none ↔
      subarray cell howlNoteRecordBytes howlNoteCellBytes = padding := by
  rw [List.find?_eq_none, subarray_eq_map h.ge, padding, List.eq_replicate_iff, List.forall_mem_map]
  simp

/-- A cell is made of the parts the decoder reads. -/
theorem split_cell (cell : List UInt8) : split cellWidths cell =
    [subarray cell 0 1, subarray cell 1 2, subarray cell 2 6, subarray cell 6 22, subarray cell 22 54,
      subarray cell 54 86, subarray cell 86 118, subarray cell 118 150, subarray cell 150 182, subarray cell 182 214,
      subarray cell 214 246, subarray cell 246 256] := by
  simp [split, cellWidths, subarray, List.drop_drop]

/-- The words of a ciphertext are read one behind the other. -/
theorem mapM_readField {fromBuffer : List UInt8 → Except String Fr} (hbuffer : AcceptsCanonical fromBuffer)
    {cell : List UInt8} {words : List Fr} :
    (ciphertextKeptIndices.zipIdx.mapM fun word =>
        readField fromBuffer cell (offCiphertext + word.2 * fieldBytes)) = .ok words ↔
      [subarray cell 86 118, subarray cell 118 150, subarray cell 150 182, subarray cell 182 214,
        subarray cell 214 246] = words.map fun word => word.toBytes.val := by
  rw [mapM_eq_ok_iff, ← List.forall₂_eq_eq_eq, List.forall₂_map_right_iff]
  simp only [readField, hbuffer _ _, ciphertextKeptIndices, List.zipIdx_cons, List.zipIdx_nil, List.forall₂_cons_left_iff,
    List.forall₂_nil_left_iff]
  exact Iff.rfl

/-- What the decoder accepts, field by field. -/
theorem decode_eq_ok_iff_fields {fromBuffer : List UInt8 → Except String Fr} (hbuffer : AcceptsCanonical fromBuffer)
    {cell : List UInt8} {record : HowlNoteRecord} : decodeHowlNoteRecord fromBuffer cell = .ok record ↔
      cell.length = howlNoteCellBytes ∧ record.layoutVersion = howlNoteLayoutVersion ∧
        record.leafIndex ≤ 0xffffffff ∧ split cellWidths cell = record.fields ++ [padding] := by
  by_cases hlength : cell.length = howlNoteCellBytes
  swap
  · simp [decodeHowlNoteRecord, hlength]
  have hversion := @subarray_one cell offLayout (by rw [hlength]; decide)
  have hkind := @subarray_one cell offKind (by rw [hlength]; decide)
  have hleaf : (subarray cell offLeafIndex (offLeafIndex + 4)).length = 4 := by
    rw [subarray, List.length_take, List.length_drop, hlength]
    rfl
  have hsplit : split cellWidths cell =
      [[cell.getD offLayout 0], [cell.getD offKind 0], subarray cell offLeafIndex (offLeafIndex + 4),
        subarray cell offCommitmentPrefix (offCommitmentPrefix + commitmentPrefixBytes),
        subarray cell offEphX (offEphX + fieldBytes), subarray cell offCekWrap (offCekWrap + fieldBytes)] ++
        [subarray cell 86 118, subarray cell 118 150, subarray cell 150 182, subarray cell 182 214,
          subarray cell 214 246] ++ [subarray cell howlNoteRecordBytes howlNoteCellBytes] := by
    rw [split_cell, ← hversion, ← hkind]
    rfl
  rw [decodeHowlNoteRecord, if_neg (not_not.2 hlength), hsplit]
  dsimp only
  constructor
  · intro h
    split at h
    · cases h
    · next hv =>
      split at h
      · cases h
      · next recordKind hk =>
        split at h
        · cases h
        · next hpadding =>
          obtain ⟨ephemeralPkX, heph, h⟩ := bind_eq_ok.1 h
          obtain ⟨cekWrap, hcek, h⟩ := bind_eq_ok.1 h
          obtain ⟨ciphertextKept, hkept, h⟩ := bind_eq_ok.1 h
          cases h
          have hbe := (eq_beBytes_iff hleaf).2 rfl
          refine ⟨hlength, not_not.1 hv, Nat.le_of_lt_succ hbe.1, ?_⟩
          rw [(padding_iff hlength).1 hpadding, (mapM_readField hbuffer).1 hkept, RecordKind.ofByte?_eq_some_iff.1 hk,
            (hbuffer _ _).1 heph, (hbuffer _ _).1 hcek, HowlNoteRecord.fields]
          dsimp only
          rw [← hbe.2, UInt8.ofNat_toNat]
  · rintro ⟨-, hv, hle, h⟩
    obtain ⟨layoutVersion, recordKind, leafIndex, commitmentPrefix, ephemeralPkX, cekWrap, ciphertextKept⟩ := record
    obtain ⟨h, hpadding⟩ := List.append_inj' h rfl
    obtain ⟨h, hkept⟩ := List.append_inj h rfl
    simp only [List.cons.injEq, and_true] at h hpadding
    obtain ⟨hbyte, hk, hbe, hprefix, heph, hcek⟩ := h
    cases hv
    have hone : (cell.getD offLayout 0).toNat = howlNoteLayoutVersion := by rw [hbyte]; rfl
    rw [if_neg (not_not.2 hone), RecordKind.ofByte?_eq_some_iff.2 hk, (padding_iff hlength).2 hpadding]
    dsimp only
    rw [readField, (hbuffer _ _).2 heph, readField, (hbuffer _ _).2 hcek, bind_of_ok rfl, bind_of_ok rfl,
      bind_of_ok ((mapM_readField hbuffer).2 hkept), ← (eq_beBytes_iff hleaf).1 ⟨Nat.lt_succ_of_le hle, hbe⟩, hprefix, hone]
    rfl

/-- A record fills its cell if its prefix and its ciphertext have their lengths. -/
theorem lengths_fields {record : HowlNoteRecord} : (record.fields ++ [padding]).map List.length = cellWidths ↔
    record.ciphertextKept.length = ciphertextKeptIndices.length ∧
      record.commitmentPrefix.length = commitmentPrefixBytes := by
  constructor
  · intro h
    have hcount := congrArg List.length h
    simp [HowlNoteRecord.fields, padding, cellWidths] at h hcount
    exact ⟨by rw [hcount]; rfl, h.1⟩
  · rintro ⟨hkept, hprefix⟩
    simp [HowlNoteRecord.fields, padding, Function.comp_def, hkept, hprefix]
    rfl

/-- The decoder gives the records of this layout that have the cell it was handed. -/
theorem decode_eq_ok_iff {fromBuffer : List UInt8 → Except String Fr} (hbuffer : AcceptsCanonical fromBuffer)
    {cell : List UInt8} {record : HowlNoteRecord} : decodeHowlNoteRecord fromBuffer cell = .ok record ↔
      record.layoutVersion = howlNoteLayoutVersion ∧ encodeHowlNoteRecord record = .ok cell := by
  rw [decode_eq_ok_iff_fields hbuffer, encode_eq_ok_iff]
  constructor
  · rintro ⟨hlength, hversion, hle, hsplit⟩
    have hsum : cell.length = cellWidths.sum := hlength
    have hwidths := lengths_split hsum
    rw [hsplit, lengths_fields] at hwidths
    exact ⟨hversion, hwidths.1, hwidths.2, hle, by rw [← hsplit, flatten_split hsum]⟩
  · rintro ⟨hversion, hkept, hprefix, hle, rfl⟩
    have hwidths := lengths_fields.2 ⟨hkept, hprefix⟩
    refine ⟨?_, hversion, hle, by rw [← hwidths, split_flatten]⟩
    rw [List.length_flatten, hwidths]
    rfl

/-! ## The words that are not sent -/

section Hash

variable (hash : List Fr → Fr)

/-- `STRIPPED_NOTE_VERSION_INDEX`. -/
def strippedNoteVersionIndex : ℕ := 0

/-- `STRIPPED_OWNER_INDEX`. -/
def strippedOwnerIndex : ℕ := 5

/-- `keystream`. -/
def keystream (cek : Fr) (index : ℕ) : Fr := hash [cek, encDomain, (index : Fr)]

/-- `reconstructCiphertext`. -/
def reconstructCiphertext (record : HowlNoteRecord) (cek ownerCommitment : Fr) : Except String (List Fr) :=
  if record.ciphertextKept.length ≠ ciphertextKeptIndices.length then
    .error ("record carries " ++ toString record.ciphertextKept.length ++ " kept words, expected " ++
      toString ciphertextKeptIndices.length)
  else
    let full := ciphertextKeptIndices.zipIdx.foldl
      (fun full word => full.set word.1 record.ciphertextKept[word.2]?) (List.replicate demFields none)
    let versionPad := keystream hash cek strippedNoteVersionIndex
    let ownerPad := keystream hash cek strippedOwnerIndex
    let full := full.set strippedNoteVersionIndex
      (some (((noteVersion.val + versionPad.val) % bn254ScalarFieldModulus : ℕ) : Fr))
    let full := full.set strippedOwnerIndex
      (some (((ownerCommitment.val + ownerPad.val) % bn254ScalarFieldModulus : ℕ) : Fr))
    match full.findIdx? Option.isNone with
    | some missing => .error ("reconstructed ciphertext is missing word " ++ toString missing)
    | none => .ok (full.filterMap id)

/-- The words of a ciphertext that are sent. -/
def keptWords (ciphertext : List Fr) : List Fr := ciphertextKeptIndices.map fun index => ciphertext.getD index 0

variable {hash}

/-- The sum modulo the field's is the sum in the field. -/
theorem natCast_add_mod (x y : Fr) : (((x.val + y.val) % bn254ScalarFieldModulus : ℕ) : Fr) = x + y := by
  rw [ZMod.natCast_mod, Nat.cast_add, ZMod.natCast_zmod_val, ZMod.natCast_zmod_val]

/-- The owner of a note puts back the words of its ciphertext that were not sent. -/
theorem reconstruct_kept {note : Note} (hversion : note.noteVersion = noteVersion) {cek : Fr} {record : HowlNoteRecord}
    (hkept : record.ciphertextKept = keptWords (encrypted hash cek note.transmitted)) :
    reconstructCiphertext hash record cek note.owner = .ok (encrypted hash cek note.transmitted) := by
  have hlength : record.ciphertextKept.length = ciphertextKeptIndices.length := by rw [hkept, keptWords, List.length_map]
  rw [reconstructCiphertext, if_neg (not_not.2 hlength)]
  dsimp only
  rw [natCast_add_mod, natCast_add_mod, hkept, ← hversion]
  rfl

/-- The cell keeps what it is given: a record, a cell and the words of a ciphertext. -/
theorem cell_faithful {fromBuffer : List UInt8 → Except String Fr} (hbuffer : AcceptsCanonical fromBuffer) :
    (∀ record cell, record.layoutVersion = howlNoteLayoutVersion → encodeHowlNoteRecord record = .ok cell →
      decodeHowlNoteRecord fromBuffer cell = .ok record) ∧
    (∀ cell record, decodeHowlNoteRecord fromBuffer cell = .ok record → encodeHowlNoteRecord record = .ok cell) ∧
    ∀ (note : Note) (cek : Fr) (ciphertext : List Fr) (record : HowlNoteRecord), note.noteVersion = noteVersion →
      demEncrypt hash cek note.transmitted = .ok ciphertext → record.ciphertextKept = keptWords ciphertext →
      record.layoutVersion = howlNoteLayoutVersion → record.commitmentPrefix.length = commitmentPrefixBytes →
      record.leafIndex ≤ 0xffffffff →
      ∃ cell decoded, encodeHowlNoteRecord record = .ok cell ∧ decodeHowlNoteRecord fromBuffer cell = .ok decoded ∧
        reconstructCiphertext hash decoded cek note.owner = .ok ciphertext ∧
        demDecrypt hash cek ciphertext = .ok note.transmitted := by
  refine ⟨?_, ?_, ?_⟩
  · intro record cell hversion hencode
    exact (decode_eq_ok_iff hbuffer).2 ⟨hversion, hencode⟩
  · intro cell record hdecode
    exact ((decode_eq_ok_iff hbuffer).1 hdecode).2
  · intro note cek ciphertext record hnote hencrypt hkept hversion hprefix hle
    rw [demEncrypt_ok rfl] at hencrypt
    cases hencrypt
    have hlength : record.ciphertextKept.length = ciphertextKeptIndices.length := by rw [hkept, keptWords, List.length_map]
    have hencode := encode_eq_ok_iff.2 ⟨hlength, hprefix, hle, rfl⟩
    exact ⟨_, record, hencode, (decode_eq_ok_iff hbuffer).2 ⟨hversion, hencode⟩, reconstruct_kept hnote hkept,
      demDecrypt_encrypt cek rfl⟩

end Hash

/-! ## A cell that is sent -/

/-- A decoder of canonical field elements. -/
def canonicalBuffer (bytes : List UInt8) : Except String Fr :=
  if h : bytes.length = 32 then
    match Fr.ofBytes? ⟨bytes, h⟩ with
    | some x => .ok x
    | none => .error "not a canonical field element"
  else .error "not a field element"

theorem acceptsCanonical_canonicalBuffer : AcceptsCanonical canonicalBuffer := by
  intro bytes x
  rw [canonicalBuffer]
  split
  · next h =>
    split
    · next y hy =>
      have hiff := @ofBytes?_eq_some_iff ⟨bytes, h⟩ x
      rw [hy, Subtype.ext_iff] at hiff
      rw [← hiff, Except.ok.injEq, Option.some_inj]
    · next hy =>
      have hiff := @ofBytes?_eq_some_iff ⟨bytes, h⟩ x
      rw [hy, Subtype.ext_iff] at hiff
      rw [← hiff]
      simp
  · next h =>
    constructor
    · intro hok
      cases hok
    · rintro rfl
      exact absurd x.toBytes.2 h

/-- A standard note. -/
def sentNote : Note := ⟨noteVersion, 2, noteTypeStandard, 0, 1000, 3, 4, 5⟩

def sentHash (words : List Fr) : Fr := words.sum

/-- Its record. -/
def sentRecord : HowlNoteRecord where
  layoutVersion := 1
  recordKind := .self
  leafIndex := 0x01020304
  commitmentPrefix := List.replicate 16 7
  ephemeralPkX := 0
  cekWrap := 0
  ciphertextKept := keptWords (encrypted sentHash 6 sentNote.transmitted)

theorem cell_faithful_sample : ∃ cell decoded, encodeHowlNoteRecord sentRecord = .ok cell ∧
    decodeHowlNoteRecord canonicalBuffer cell = .ok decoded ∧
    reconstructCiphertext sentHash decoded 6 3 = .ok (encrypted sentHash 6 sentNote.transmitted) ∧
    demDecrypt sentHash 6 (encrypted sentHash 6 sentNote.transmitted) = .ok sentNote.transmitted :=
  (@cell_faithful sentHash _ acceptsCanonical_canonicalBuffer).2.2 sentNote 6 _ sentRecord rfl (demEncrypt_ok rfl) rfl
    rfl (by decide) (by decide)

end Kakure.Discovery
