import Kakure.Lib.Hex
import Kakure.Lib.Wire
import Kakure.Pool.Events

/-!
# The indexer's event decoder

`decode.ts`, `types.ts` and the IDL of `idl.ts`: a log line is cut into base64 fields,
the first one names a struct of the IDL, and the second one is read field by field as
the IDL says.

* `parses_decodeValue` — what the reader of an IDL type accepts;
* `decodeBody_eq_ok_iff` — a body is accepted exactly if it starts with the encoding of
  the event it is decoded to;
* `toDomainEvent_decoded` — the typed event has every field of the emitted one.
-/

namespace Kakure.Indexer

open Slices Guarded Wire Hex

/-! ## The IDL -/

inductive IdlType where
  | u8
  | u16
  | u32
  | u64
  | bool
  | array (elem : IdlType) (len : ℕ)
  | option (type : IdlType)
  | defined (name : String)
  deriving DecidableEq

structure IdlField where
  name : String
  type : IdlType

structure IdlTypeDef where
  name : String
  fields : List IdlField

structure KakurePoolIdl where
  types : List IdlTypeDef

/-- `{ array: ["u8", 32] }`. -/
def IdlType.word : IdlType := .array .u8 32

/-- `DEFAULT_KAKURE_POOL_IDL`. -/
def defaultKakurePoolIdl : KakurePoolIdl where
  types :=
    [{ name := "NoteInserted"
       fields := [⟨"leaf_index", .u64⟩, ⟨"leaf", .word⟩, ⟨"eph_pub_x", .word⟩,
        ⟨"tag", .option .word⟩, ⟨"cek_wrap", .option .word⟩, ⟨"ciphertext", .array .word 7⟩,
        ⟨"root", .word⟩] },
     { name := "NullifierSpent", fields := [⟨"nullifier", .word⟩] },
     { name := "ComplianceKeyRotated"
       fields := [⟨"old_version", .u32⟩, ⟨"new_version", .u32⟩, ⟨"x", .word⟩, ⟨"y", .word⟩] }]

/-! ## Decoding -/

/-- `EventDecodeError`, with its message. -/
structure EventDecodeError where
  message : String
  deriving DecidableEq

/-- A decoded value: a `number` or `bigint`, a `boolean`, a `Uint8Array`, an array or `null`. -/
inductive Value where
  | number (n : ℕ)
  | boolean (b : Bool)
  | bytes (b : List UInt8)
  | array (values : List Value)
  | null

/-- `Reader.take`. -/
def takeBytes (n : ℕ) : Reader EventDecodeError (Bytes n) := take n ⟨"unexpected end of event data"⟩

/-- `Reader.u8`, `Reader.u32` and `Reader.u64`, by their width. -/
def word (n : ℕ) : Reader EventDecodeError ℕ := do
  let b ← takeBytes n
  pure (leNat b.val)

/-- `decodeValue`. -/
def decodeValue : IdlType → Reader EventDecodeError Value
  | .u8 => do
    let n ← word 1
    pure (.number n)
  | .u16 => fail ⟨"u16 decoding not implemented"⟩
  | .u32 => do
    let n ← word 4
    pure (.number n)
  | .u64 => do
    let n ← word 8
    pure (.number n)
  | .bool => do
    let n ← word 1
    pure (.boolean (n ≠ 0))
  | .array elem len =>
    if elem = .u8 then do
      let b ← takeBytes len
      pure (.bytes b.val)
    else do
      let values ← times len (decodeValue elem)
      pure (.array values)
  | .option type => do
    let tag ← word 1
    if tag = 0 then pure .null
    else if tag = 1 then decodeValue type
    else fail ⟨"invalid Option tag byte: " ++ toString tag⟩
  | .defined name => fail ⟨"unsupported defined type reference: " ++ name⟩

/-- The loop of `decodeBody` over the fields of the struct. -/
def decodeFields : List IdlField → Reader EventDecodeError (List (String × Value))
  | [] => pure []
  | field :: fields => do
    let value ← decodeValue field.type
    let rest ← decodeFields fields
    pure ((field.name, value) :: rest)

structure DecodedEvent where
  name : String
  fields : List (String × Value)

/-- `decoded.fields[name]`: the value assigned last. -/
def DecodedEvent.field (decoded : DecodedEvent) (name : String) : Option Value :=
  decoded.fields.reverse.lookup name

/-- `decodeBody`; bytes after the last field are not looked at. -/
def decodeBody (idl : KakurePoolIdl) (eventName : String) (body : List UInt8) :
    Except EventDecodeError DecodedEvent :=
  match idl.types.find? fun t => t.name = eventName with
  | none => .error ⟨"IDL has no type definition for event '" ++ eventName ++ "'"⟩
  | some typeDef => (decodeFields typeDef.fields body).map fun out => ⟨eventName, out.1⟩

/-- `KAKURE_EVENT_TAG_PREFIX`. -/
def kakureEventTagPrefix : List Char := "kakure:".toList

/-- `PROGRAM_DATA_PREFIX`. -/
def programDataPrefix : List Char := "Program data: ".toList

/-- `decodeSolLogDataFields`; `Buffer.from` of a text never throws. -/
def decodeSolLogDataFields (idl : KakurePoolIdl) (fields : List (List Char)) :
    Except EventDecodeError DecodedEvent :=
  match fields with
  | tagField :: bodyField :: _ =>
    let tag := Text.utf8Decode (Base64.decode tagField)
    if kakureEventTagPrefix <+: tag then
      decodeBody idl (String.ofList (tag.drop kakureEventTagPrefix.length)) (Base64.decode bodyField)
    else .error ⟨"not a kakure event tag: '" ++ String.ofList tag ++ "'"⟩
  | _ => .error ⟨"sol_log_data event needs at least 2 base64 fields (tag, body), got " ++
      toString fields.length⟩

/-- The fields of a program-data line: `line.slice(…).trim().split(/\s+/)`. -/
def lineFields (line : List Char) : List (List Char) :=
  Text.splitRuns Text.isBlank (Text.trim Text.isBlank (line.drop programDataPrefix.length))

/-- `decodeProgramDataLine`. -/
def decodeProgramDataLine (idl : KakurePoolIdl) (line : List Char) :
    Except EventDecodeError (Option DecodedEvent) :=
  if programDataPrefix <+: line then (decodeSolLogDataFields idl (lineFields line)).map some
  else .ok none

/-! ## Typed events -/

/-- `KakurePoolEvent`. -/
inductive KakurePoolEvent where
  | noteInserted (leafIndex : ℕ) (leaf ephPubX : String) (tag cekWrap : Option String)
      (ciphertext : List String) (root : String)
  | nullifierSpent (nullifier : String)
  | complianceKeyRotated (oldVersion newVersion : ℕ) (x y : String)
  deriving DecidableEq

/-- `toHex` of a field. -/
def toHexField : Option Value → Except EventDecodeError String
  | some (.bytes b) => .ok (toHex b)
  | _ => .error ⟨"expected a byte array field"⟩

/-- `toHexOrNull`. -/
def toHexOrNull : Option Value → Except EventDecodeError (Option String)
  | some .null => .ok none
  | v => (toHexField v).map some

/-- `toHexArray`. -/
def toHexArray : Option Value → Except EventDecodeError (List String)
  | some (.array values) => values.mapM fun v => toHexField (some v)
  | _ => .error ⟨"expected an array field"⟩

/-- The cast of a field to `bigint` or `number`.  The source does not check it; a field of another
type, which no IDL of these events has, ends here. -/
def asNumber : Option Value → Except EventDecodeError ℕ
  | some (.number n) => .ok n
  | _ => .error ⟨"expected a number field"⟩

/-- `toDomainEvent`. -/
def toDomainEvent (decoded : DecodedEvent) : Except EventDecodeError KakurePoolEvent :=
  if decoded.name = "NoteInserted" then do
    let leafIndex ← asNumber (decoded.field "leaf_index")
    let leaf ← toHexField (decoded.field "leaf")
    let ephPubX ← toHexField (decoded.field "eph_pub_x")
    let tag ← toHexOrNull (decoded.field "tag")
    let cekWrap ← toHexOrNull (decoded.field "cek_wrap")
    let ciphertext ← toHexArray (decoded.field "ciphertext")
    let root ← toHexField (decoded.field "root")
    pure (.noteInserted leafIndex leaf ephPubX tag cekWrap ciphertext root)
  else if decoded.name = "NullifierSpent" then do
    let nullifier ← toHexField (decoded.field "nullifier")
    pure (.nullifierSpent nullifier)
  else if decoded.name = "ComplianceKeyRotated" then do
    let oldVersion ← asNumber (decoded.field "old_version")
    let newVersion ← asNumber (decoded.field "new_version")
    let x ← toHexField (decoded.field "x")
    let y ← toHexField (decoded.field "y")
    pure (.complianceKeyRotated oldVersion newVersion x y)
  else .error ⟨"no domain mapping for event '" ++ decoded.name ++ "'"⟩

/-! ## What the reader of a type accepts -/

/-- The values of a type with their encodings, as the reader takes them. -/
def Encodes : IdlType → Value → List UInt8 → Prop
  | .u8, v, bytes => ∃ b : Bytes 1, v = .number (leNat b.val) ∧ bytes = b.val
  | .u16, _, _ => False
  | .u32, v, bytes => ∃ b : Bytes 4, v = .number (leNat b.val) ∧ bytes = b.val
  | .u64, v, bytes => ∃ b : Bytes 8, v = .number (leNat b.val) ∧ bytes = b.val
  | .bool, v, bytes => ∃ b : Bytes 1, v = .boolean (leNat b.val ≠ 0) ∧ bytes = b.val
  | .array elem len, v, bytes =>
    if elem = .u8 then ∃ b : Bytes len, v = .bytes b.val ∧ bytes = b.val
    else ∃ values, v = .array values ∧ values.length = len ∧
      ∃ parts, List.Forall₂ (Encodes elem) values parts ∧ bytes = parts.flatten
  | .option type, v, bytes =>
    (v = .null ∧ bytes = [0]) ∨ ∃ back, Encodes type v back ∧ bytes = 1 :: back
  | .defined _, _, _ => False

theorem parses_word (n : ℕ) :
    Parses (word n) fun v bytes => ∃ b : Bytes n, bytes = b.val ∧ v = leNat b.val :=
  (parses_take n _).map fun b => leNat b.val

/-- A one-byte word is its byte. -/
theorem leNat_eq_byte {b : Bytes 1} {c : UInt8} (h : leNat b.val = c.toNat) : b.val = [c] :=
  leNat_injective (by simp) (by simpa [leNat] using h)

theorem parses_number (n : ℕ) :
    Parses (word n >>= fun m => pure (Value.number m)) fun v bytes =>
      ∃ b : Bytes n, v = .number (leNat b.val) ∧ bytes = b.val := by
  refine ((parses_word n).map Value.number).congr fun v bytes => ?_
  constructor
  · rintro ⟨m, ⟨b, rfl, rfl⟩, rfl⟩
    exact ⟨b, rfl, rfl⟩
  · rintro ⟨b, rfl, rfl⟩
    exact ⟨_, ⟨b, rfl, rfl⟩, rfl⟩

/-- The reader of a type accepts exactly the encodings of its values. -/
theorem parses_decodeValue (type : IdlType) : Parses (decodeValue type) (Encodes type) := by
  induction type with
  | u8 => exact parses_number 1
  | u16 => exact parses_fail _
  | u32 => exact parses_number 4
  | u64 => exact parses_number 8
  | bool =>
    refine ((parses_word 1).map fun n => Value.boolean (n ≠ 0)).congr fun v bytes => ?_
    constructor
    · rintro ⟨m, ⟨b, rfl, rfl⟩, rfl⟩
      exact ⟨b, rfl, rfl⟩
    · rintro ⟨b, rfl, rfl⟩
      exact ⟨_, ⟨b, rfl, rfl⟩, rfl⟩
  | array elem len ih =>
    unfold decodeValue
    split
    · rename_i helem
      refine ((parses_take len _).map fun b => Value.bytes b.val).congr fun v bytes => ?_
      rw [Encodes, if_pos helem]
      constructor
      · rintro ⟨b, rfl, rfl⟩
        exact ⟨b, rfl, rfl⟩
      · rintro ⟨b, rfl, rfl⟩
        exact ⟨b, rfl, rfl⟩
    · rename_i helem
      refine ((parses_times ih len).map Value.array).congr fun v bytes => ?_
      rw [Encodes, if_neg helem]
      constructor
      · rintro ⟨values, ⟨hlen, parts, hparts, rfl⟩, rfl⟩
        exact ⟨values, rfl, hlen, parts, hparts, rfl⟩
      · rintro ⟨values, rfl, hlen, parts, hparts, rfl⟩
        exact ⟨values, ⟨hlen, parts, hparts, rfl⟩, rfl⟩
  | option type ih =>
    -- what is read after the tag depends on it
    have htail : ∀ tag : ℕ, Parses (if tag = 0 then pure Value.null
        else if tag = 1 then decodeValue type
        else fail ⟨"invalid Option tag byte: " ++ toString tag⟩ : Reader EventDecodeError Value)
        fun v bytes => (tag = 0 ∧ v = .null ∧ bytes = []) ∨ (tag = 1 ∧ Encodes type v bytes) := by
      intro tag
      split
      · rename_i h0
        refine (parses_pure Value.null).congr fun v bytes => ?_
        simp [h0]
      · rename_i h0
        split
        · rename_i h1
          refine ih.congr fun v bytes => ?_
          simp [h1]
        · rename_i h1
          refine (parses_fail _).congr fun v bytes => ?_
          simp [h0, h1]
    refine ((parses_word 1).bind htail).congr fun v bytes => ?_
    constructor
    · rintro ⟨tag, front, back, ⟨b, rfl, rfl⟩, ⟨h0, rfl, rfl⟩ | ⟨h1, hback⟩, rfl⟩
      · left
        rw [leNat_eq_byte (c := 0) h0]
        exact ⟨rfl, rfl⟩
      · right
        rw [leNat_eq_byte (c := 1) h1]
        exact ⟨back, hback, rfl⟩
    · rintro (⟨rfl, rfl⟩ | ⟨back, hback, rfl⟩)
      · exact ⟨0, [0], [], ⟨⟨[0], rfl⟩, rfl, rfl⟩, Or.inl ⟨rfl, rfl, rfl⟩, rfl⟩
      · exact ⟨1, [1], back, ⟨⟨[1], rfl⟩, rfl, rfl⟩, Or.inr ⟨rfl, hback⟩, rfl⟩
  | defined name => exact parses_fail _

/-- The fields of a struct with their values, and the encodings in a row. -/
def EncodesFields : List IdlField → List (String × Value) → List UInt8 → Prop
  | [], values, bytes => values = [] ∧ bytes = []
  | field :: fields, values, bytes => ∃ v front rest back, Encodes field.type v front ∧
      EncodesFields fields rest back ∧ values = (field.name, v) :: rest ∧ bytes = front ++ back

theorem parses_decodeFields (fields : List IdlField) :
    Parses (decodeFields fields) (EncodesFields fields) := by
  induction fields with
  | nil => exact parses_pure []
  | cons field fields ih =>
    refine ((parses_decodeValue field.type).bind fun v => ih.map ((field.name, v) :: ·)).congr ?_
    intro values bytes
    constructor
    · rintro ⟨v, front, back, hv, ⟨rest, hrest, rfl⟩, rfl⟩
      exact ⟨v, front, rest, back, hv, hrest, rfl, rfl⟩
    · rintro ⟨v, front, rest, back, hv, hrest, rfl, rfl⟩
      exact ⟨v, front, back, hv, ⟨rest, hrest, rfl⟩, rfl⟩

/-! ## The types of the events -/

/-- The value of a word. -/
def wordValue (b : Bytes 32) : Value := .bytes b.val

/-- The value of an optional word. -/
def optionValue : Option (Bytes 32) → Value
  | none => .null
  | some b => wordValue b

theorem encodes_word {v : Value} {bytes : List UInt8} :
    Encodes .word v bytes ↔ ∃ b : Bytes 32, v = wordValue b ∧ bytes = b.val := by
  unfold IdlType.word Encodes
  rw [if_pos rfl]
  rfl

theorem encodes_number {n : ℕ} {v : Value} {bytes : List UInt8} :
    (∃ b : Bytes n, v = .number (leNat b.val) ∧ bytes = b.val) ↔
      ∃ m, m < 256 ^ n ∧ v = .number m ∧ bytes = (leBytes n m).val := by
  constructor
  · rintro ⟨b, rfl, rfl⟩
    have hlt : leNat b.val < 256 ^ n := by simpa using leNat_lt b.val
    refine ⟨leNat b.val, hlt, rfl, ?_⟩
    exact leNat_injective (by simp) (leNat_leBytes n _ hlt).symm
  · rintro ⟨m, hm, rfl, rfl⟩
    exact ⟨leBytes n m, by rw [leNat_leBytes n m hm], rfl⟩

theorem encodes_option {v : Value} {bytes : List UInt8} :
    Encodes (.option .word) v bytes ↔
      ∃ o : Option (Bytes 32), v = optionValue o ∧ bytes = optionBytes o := by
  unfold Encodes
  constructor
  · rintro (⟨rfl, rfl⟩ | ⟨back, hback, rfl⟩)
    · exact ⟨none, rfl, rfl⟩
    · obtain ⟨b, rfl, rfl⟩ := encodes_word.1 hback
      exact ⟨some b, rfl, rfl⟩
  · rintro ⟨o, rfl, rfl⟩
    cases o with
    | none => exact Or.inl ⟨rfl, rfl⟩
    | some b => exact Or.inr ⟨b.val, encodes_word.2 ⟨b, rfl, rfl⟩, rfl⟩

theorem encodes_words {n : ℕ} {v : Value} {bytes : List UInt8} :
    Encodes (.array .word n) v bytes ↔ ∃ words : List (Bytes 32), words.length = n ∧
      v = .array (words.map wordValue) ∧ bytes = wordBytes words := by
  unfold Encodes
  rw [if_neg (by simp [IdlType.word])]
  constructor
  · rintro ⟨values, rfl, hlen, parts, hparts, rfl⟩
    obtain ⟨words, rfl, rfl⟩ : ∃ words : List (Bytes 32), values = words.map wordValue ∧
        parts = words.map Subtype.val := by
      clear hlen
      induction hparts with
      | nil => exact ⟨[], rfl, rfl⟩
      | cons hv _ ih =>
        obtain ⟨b, rfl, rfl⟩ := encodes_word.1 hv
        obtain ⟨words, rfl, rfl⟩ := ih
        exact ⟨b :: words, rfl, rfl⟩
    exact ⟨words, by rwa [List.length_map] at hlen, rfl, rfl⟩
  · rintro ⟨words, hlen, rfl, rfl⟩
    refine ⟨words.map wordValue, rfl, by rwa [List.length_map], words.map Subtype.val, ?_, rfl⟩
    clear hlen
    induction words with
    | nil => exact .nil
    | cons b words ih => exact .cons (encodes_word.2 ⟨b, rfl, rfl⟩) ih

/-! ## The events -/

/-- An emitted event as the decoder returns it. -/
def decodedOf : Event → DecodedEvent
  | .noteInserted ev =>
    ⟨"NoteInserted", [("leaf_index", .number ev.leafIndex), ("leaf", wordValue ev.leaf),
      ("eph_pub_x", wordValue ev.ephPubX), ("tag", optionValue ev.tag),
      ("cek_wrap", optionValue ev.cekWrap), ("ciphertext", .array (ev.ciphertext.map wordValue)),
      ("root", wordValue ev.root)]⟩
  | .nullifierSpent nullifier => ⟨"NullifierSpent", [("nullifier", wordValue nullifier)]⟩
  | .complianceKeyRotated oldVersion newVersion x y =>
    ⟨"ComplianceKeyRotated", [("old_version", .number oldVersion), ("new_version", .number newVersion),
      ("x", wordValue x), ("y", wordValue y)]⟩

/-- An emitted event with its bytes as text. -/
def domainOf : Event → KakurePoolEvent
  | .noteInserted ev =>
    .noteInserted ev.leafIndex (toHex ev.leaf.val) (toHex ev.ephPubX.val)
      (ev.tag.map fun b => toHex b.val) (ev.cekWrap.map fun b => toHex b.val)
      (ev.ciphertext.map fun b => toHex b.val) (toHex ev.root.val)
  | .nullifierSpent nullifier => .nullifierSpent (toHex nullifier.val)
  | .complianceKeyRotated oldVersion newVersion x y =>
    .complianceKeyRotated oldVersion newVersion (toHex x.val) (toHex y.val)

theorem toHexOrNull_optionValue (o : Option (Bytes 32)) :
    toHexOrNull (some (optionValue o)) = .ok (o.map fun b => toHex b.val) := by
  cases o with
  | none => rfl
  | some b => rfl

theorem toHexArray_words (words : List (Bytes 32)) :
    toHexArray (some (.array (words.map wordValue))) = .ok (words.map fun b => toHex b.val) := by
  show (words.map wordValue).mapM (fun v => toHexField (some v)) = _
  induction words with
  | nil => rfl
  | cons b words ih =>
    rw [List.map_cons, List.mapM_cons, ih]
    rfl

/-- The typed event has every field of the emitted one. -/
theorem toDomainEvent_decoded (ev : Event) : toDomainEvent (decodedOf ev) = .ok (domainOf ev) := by
  cases ev with
  | noteInserted ev =>
    have htag := toHexOrNull_optionValue ev.tag
    have hcek := toHexOrNull_optionValue ev.cekWrap
    have hct := toHexArray_words ev.ciphertext
    show (do
      let leafIndex ← asNumber (some (.number ev.leafIndex))
      let leaf ← toHexField (some (wordValue ev.leaf))
      let ephPubX ← toHexField (some (wordValue ev.ephPubX))
      let tag ← toHexOrNull (some (optionValue ev.tag))
      let cekWrap ← toHexOrNull (some (optionValue ev.cekWrap))
      let ciphertext ← toHexArray (some (.array (ev.ciphertext.map wordValue)))
      let root ← toHexField (some (wordValue ev.root))
      pure (.noteInserted leafIndex leaf ephPubX tag cekWrap ciphertext root) :
        Except EventDecodeError KakurePoolEvent) = _
    rw [htag, hcek, hct]
    rfl
  | nullifierSpent nullifier => rfl
  | complianceKeyRotated oldVersion newVersion x y => rfl

/-- Different events have different texts. -/
theorem domainOf_injective : Function.Injective domainOf := by
  have hword : Function.Injective fun b : Bytes 32 => toHex b.val := fun _ _ h => toHex_injective h
  intro ev ev' h
  cases ev with
  | noteInserted e =>
    cases ev' with
    | noteInserted e' =>
      simp only [domainOf, KakurePoolEvent.noteInserted.injEq] at h
      obtain ⟨hindex, hleaf, heph, htag, hcek, hct, hroot⟩ := h
      rw [Event.noteInserted.injEq]
      cases e
      cases e'
      simp only [NoteInserted.mk.injEq]
      exact ⟨hindex, hword hleaf, hword heph, Option.map_injective hword htag,
        Option.map_injective hword hcek, hword.list_map hct, hword hroot⟩
    | nullifierSpent _ => cases h
    | complianceKeyRotated _ _ _ _ => cases h
  | nullifierSpent n =>
    cases ev' with
    | noteInserted _ => cases h
    | nullifierSpent n' =>
      simp only [domainOf, KakurePoolEvent.nullifierSpent.injEq] at h
      rw [hword h]
    | complianceKeyRotated _ _ _ _ => cases h
  | complianceKeyRotated o n x y =>
    cases ev' with
    | noteInserted _ => cases h
    | nullifierSpent _ => cases h
    | complianceKeyRotated o' n' x' y' =>
      simp only [domainOf, KakurePoolEvent.complianceKeyRotated.injEq] at h
      obtain ⟨rfl, rfl, hx, hy⟩ := h
      rw [hword hx, hword hy]

/-! ## The structs of the IDL -/

/-- The fields of the struct with this name. -/
def structFields (name : String) : List IdlField :=
  ((defaultKakurePoolIdl.types.find? fun t => t.name = name).map IdlTypeDef.fields).getD []

theorem encodes_noteInserted {values : List (String × Value)} {bytes : List UInt8} :
    EncodesFields (structFields "NoteInserted") values bytes ↔ ∃ ev : NoteInserted,
      (Event.noteInserted ev).Fits ∧ values = (decodedOf (.noteInserted ev)).fields ∧
        bytes = ev.toVec := by
  constructor
  · rintro ⟨_, _, _, _, hindex, ⟨_, _, _, _, hleaf, ⟨_, _, _, _, heph, ⟨_, _, _, _, htag,
      ⟨_, _, _, _, hcek, ⟨_, _, _, _, hct, ⟨_, _, _, _, hroot, ⟨rfl, rfl⟩, rfl, rfl⟩, rfl, rfl⟩,
      rfl, rfl⟩, rfl, rfl⟩, rfl, rfl⟩, rfl, rfl⟩, rfl, rfl⟩
    obtain ⟨leafIndex, hlt, rfl, rfl⟩ := encodes_number.1 hindex
    obtain ⟨leaf, rfl, rfl⟩ := encodes_word.1 hleaf
    obtain ⟨ephPubX, rfl, rfl⟩ := encodes_word.1 heph
    obtain ⟨tag, rfl, rfl⟩ := encodes_option.1 htag
    obtain ⟨cekWrap, rfl, rfl⟩ := encodes_option.1 hcek
    obtain ⟨ciphertext, hlen, rfl, rfl⟩ := encodes_words.1 hct
    obtain ⟨root, rfl, rfl⟩ := encodes_word.1 hroot
    exact ⟨⟨leafIndex, leaf, ephPubX, tag, cekWrap, ciphertext, root⟩, ⟨hlt, hlen⟩, rfl, rfl⟩
  · rintro ⟨ev, ⟨hlt, hlen⟩, rfl, rfl⟩
    refine ⟨_, _, _, _, encodes_number.2 ⟨ev.leafIndex, hlt, rfl, rfl⟩, ?_, rfl, rfl⟩
    refine ⟨_, _, _, _, encodes_word.2 ⟨ev.leaf, rfl, rfl⟩, ?_, rfl, rfl⟩
    refine ⟨_, _, _, _, encodes_word.2 ⟨ev.ephPubX, rfl, rfl⟩, ?_, rfl, rfl⟩
    refine ⟨_, _, _, _, encodes_option.2 ⟨ev.tag, rfl, rfl⟩, ?_, rfl, rfl⟩
    refine ⟨_, _, _, _, encodes_option.2 ⟨ev.cekWrap, rfl, rfl⟩, ?_, rfl, rfl⟩
    refine ⟨_, _, _, _, encodes_words.2 ⟨ev.ciphertext, hlen, rfl, rfl⟩, ?_, rfl, rfl⟩
    exact ⟨_, _, _, _, encodes_word.2 ⟨ev.root, rfl, rfl⟩, ⟨rfl, rfl⟩, rfl, rfl⟩

theorem encodes_nullifierSpent {values : List (String × Value)} {bytes : List UInt8} :
    EncodesFields (structFields "NullifierSpent") values bytes ↔ ∃ nullifier : Bytes 32,
      values = (decodedOf (.nullifierSpent nullifier)).fields ∧ bytes = nullifier.val := by
  constructor
  · rintro ⟨_, _, _, _, hnullifier, ⟨rfl, rfl⟩, rfl, rfl⟩
    obtain ⟨nullifier, rfl, rfl⟩ := encodes_word.1 hnullifier
    exact ⟨nullifier, rfl, List.append_nil _⟩
  · rintro ⟨nullifier, rfl, rfl⟩
    exact ⟨_, _, _, _, encodes_word.2 ⟨nullifier, rfl, rfl⟩, ⟨rfl, rfl⟩, rfl,
      (List.append_nil _).symm⟩

theorem encodes_complianceKeyRotated {values : List (String × Value)} {bytes : List UInt8} :
    EncodesFields (structFields "ComplianceKeyRotated") values bytes ↔
      ∃ (oldVersion newVersion : ℕ) (x y : Bytes 32),
        (Event.complianceKeyRotated oldVersion newVersion x y).Fits ∧
        values = (decodedOf (.complianceKeyRotated oldVersion newVersion x y)).fields ∧
        bytes = (Event.complianceKeyRotated oldVersion newVersion x y).body := by
  constructor
  · rintro ⟨_, _, _, _, hold, ⟨_, _, _, _, hnew, ⟨_, _, _, _, hx, ⟨_, _, _, _, hy, ⟨rfl, rfl⟩,
      rfl, rfl⟩, rfl, rfl⟩, rfl, rfl⟩, rfl, rfl⟩
    obtain ⟨oldVersion, hlt, rfl, rfl⟩ := encodes_number.1 hold
    obtain ⟨newVersion, hlt', rfl, rfl⟩ := encodes_number.1 hnew
    obtain ⟨x, rfl, rfl⟩ := encodes_word.1 hx
    obtain ⟨y, rfl, rfl⟩ := encodes_word.1 hy
    exact ⟨oldVersion, newVersion, x, y, ⟨hlt, hlt'⟩, rfl, rfl⟩
  · rintro ⟨oldVersion, newVersion, x, y, ⟨hlt, hlt'⟩, rfl, rfl⟩
    refine ⟨_, _, _, _, encodes_number.2 ⟨oldVersion, hlt, rfl, rfl⟩, ?_, rfl, rfl⟩
    refine ⟨_, _, _, _, encodes_number.2 ⟨newVersion, hlt', rfl, rfl⟩, ?_, rfl, rfl⟩
    refine ⟨_, _, _, _, encodes_word.2 ⟨x, rfl, rfl⟩, ?_, rfl, rfl⟩
    exact ⟨_, _, _, _, encodes_word.2 ⟨y, rfl, rfl⟩, ⟨rfl, rfl⟩, rfl, rfl⟩

/-! ## Bodies and lines -/

/-- The IDL knows the three events. -/
theorem decodeBody_of_known {name : String}
    (h : name = "NoteInserted" ∨ name = "NullifierSpent" ∨ name = "ComplianceKeyRotated")
    (body : List UInt8) : decodeBody defaultKakurePoolIdl name body =
      (decodeFields (structFields name) body).map fun out => ⟨name, out.1⟩ := by
  rcases h with rfl | rfl | rfl <;> rfl

theorem known_of_decodeBody {name : String} {body : List UInt8} {d : DecodedEvent}
    (h : decodeBody defaultKakurePoolIdl name body = .ok d) :
    name = "NoteInserted" ∨ name = "NullifierSpent" ∨ name = "ComplianceKeyRotated" := by
  unfold decodeBody at h
  split at h
  · cases h
  · rename_i typeDef hfind
    have hname := List.find?_some hfind
    have hmem := List.mem_of_find?_eq_some hfind
    rw [decide_eq_true_eq] at hname
    simp only [defaultKakurePoolIdl, List.mem_cons, List.not_mem_nil, or_false] at hmem
    rcases hmem with rfl | rfl | rfl
    · exact Or.inl hname.symm
    · exact Or.inr (Or.inl hname.symm)
    · exact Or.inr (Or.inr hname.symm)

theorem known_decodedOf (ev : Event) : (decodedOf ev).name = "NoteInserted" ∨
    (decodedOf ev).name = "NullifierSpent" ∨ (decodedOf ev).name = "ComplianceKeyRotated" := by
  cases ev <;> simp [decodedOf]

/-- The body of an event encodes its fields. -/
theorem encodesFields_decodedOf {ev : Event} (h : ev.Fits) :
    EncodesFields (structFields (decodedOf ev).name) (decodedOf ev).fields ev.body := by
  cases ev with
  | noteInserted ev => exact encodes_noteInserted.2 ⟨ev, h, rfl, rfl⟩
  | nullifierSpent nullifier => exact encodes_nullifierSpent.2 ⟨nullifier, rfl, rfl⟩
  | complianceKeyRotated old new x y =>
    exact encodes_complianceKeyRotated.2 ⟨old, new, x, y, h, rfl, rfl⟩

/-- A body is accepted exactly if it starts with the encoding of an event of that name, and it is
decoded to that event. -/
theorem decodeBody_eq_ok_iff {name : String} {body : List UInt8} {d : DecodedEvent} :
    decodeBody defaultKakurePoolIdl name body = .ok d ↔ ∃ (ev : Event) (rest : List UInt8),
      ev.Fits ∧ d = decodedOf ev ∧ d.name = name ∧ body = ev.body ++ rest := by
  constructor
  · intro h
    have hknown := known_of_decodeBody h
    rw [decodeBody_of_known hknown] at h
    cases hfields : decodeFields (structFields name) body with
    | error e =>
      rw [hfields] at h
      cases h
    | ok out =>
      obtain ⟨values, rest⟩ := out
      rw [hfields] at h
      cases h
      obtain ⟨bytes, hbytes, rfl⟩ := (parses_decodeFields _ _ _ _).1 hfields
      rcases hknown with rfl | rfl | rfl
      · obtain ⟨ev, hfits, rfl, rfl⟩ := encodes_noteInserted.1 hbytes
        exact ⟨.noteInserted ev, rest, hfits, rfl, rfl, rfl⟩
      · obtain ⟨nullifier, rfl, rfl⟩ := encodes_nullifierSpent.1 hbytes
        exact ⟨.nullifierSpent nullifier, rest, trivial, rfl, rfl, rfl⟩
      · obtain ⟨old, new, x, y, hfits, rfl, rfl⟩ := encodes_complianceKeyRotated.1 hbytes
        exact ⟨.complianceKeyRotated old new x y, rest, hfits, rfl, rfl, rfl⟩
  · rintro ⟨ev, rest, hfits, rfl, rfl, rfl⟩
    rw [decodeBody_of_known (known_decodedOf ev),
      (parses_decodeFields _).reads (encodesFields_decodedOf hfits) rest]
    rfl

/-- A proper prefix of an event's encoding is refused under the event's name. -/
theorem decodeBody_eq_error_of_cut {ev : Event} {input : List UInt8} (hfits : ev.Fits)
    (hcut : input <+: ev.body) (hne : input ≠ ev.body) :
    ∃ e, decodeBody defaultKakurePoolIdl (decodedOf ev).name input = .error e := by
  obtain ⟨e, he⟩ := (parses_decodeFields _).error_of_cut (encodesFields_decodedOf hfits) hcut hne
  rw [decodeBody_of_known (known_decodedOf ev), he]
  exact ⟨e, rfl⟩

theorem tag_eq (ev : Event) : ev.tag.toList = kakureEventTagPrefix ++ (decodedOf ev).name.toList := by
  cases ev with
  | noteInserted _ =>
    show noteInsertedTag.toList = kakureEventTagPrefix ++ "NoteInserted".toList
    decide
  | nullifierSpent _ =>
    show nullifierSpentTag.toList = kakureEventTagPrefix ++ "NullifierSpent".toList
    decide
  | complianceKeyRotated _ _ _ _ =>
    show complianceKeyRotatedTag.toList = kakureEventTagPrefix ++ "ComplianceKeyRotated".toList
    decide

theorem tag_mem (ev : Event) :
    ev.tag ∈ [noteInsertedTag, nullifierSpentTag, complianceKeyRotatedTag] := by
  cases ev <;> simp [Event.tag]

theorem tag_ascii (ev : Event) : ∀ c ∈ ev.tag.toList, c.toNat < 128 := by
  have hall : ∀ tag ∈ [noteInsertedTag, nullifierSpentTag, complianceKeyRotatedTag],
      tag.toList.all (fun c => c.toNat < 128) = true := by decide +kernel
  intro c hc
  simpa using List.all_eq_true.1 (hall _ (tag_mem ev)) c hc

theorem tagBytes_ne_nil (ev : Event) : Text.asciiBytes ev.tag.toList ≠ [] := by
  have hall : ∀ tag ∈ [noteInsertedTag, nullifierSpentTag, complianceKeyRotatedTag],
      Text.asciiBytes tag.toList ≠ [] := by decide
  exact hall _ (tag_mem ev)

/-- Two fields that decode to the tag and a body are read as that body under the event's name. -/
theorem decodeSolLogDataFields_of_tag {ev : Event} {tagField bodyField : List Char}
    {more : List (List Char)} (htag : Text.utf8Decode (Base64.decode tagField) = ev.tag.toList) :
    decodeSolLogDataFields defaultKakurePoolIdl (tagField :: bodyField :: more) =
      decodeBody defaultKakurePoolIdl (decodedOf ev).name (Base64.decode bodyField) := by
  simp only [decodeSolLogDataFields, htag, tag_eq ev, List.prefix_append, if_true, List.drop_left,
    String.ofList_toList]

/-- No character of an encoding is a blank. -/
theorem isBlank_encode {bytes : List UInt8} : ∀ c ∈ Base64.encode bytes, Text.isBlank c = false := by
  intro c hc
  have hall : ('=' :: Base64.alphabet).all (fun d => !Text.isBlank d) = true := by decide +kernel
  simpa using List.all_eq_true.1 hall c (Base64.mem_encode hc)

theorem intercalate_two (sep : Char) (first second : List Char) :
    [sep].intercalate [first, second] = first ++ sep :: second := by
  simp [List.intercalate]

/-- The fields of an event's line are the encodings of its tag and its body. -/
theorem lineFields_logLine (ev : Event) : programDataPrefix <+: ev.logLine ∧
    lineFields ev.logLine =
      [Base64.encode (Text.asciiBytes ev.tag.toList), Base64.encode ev.body] := by
  have hline : ev.logLine = programDataPrefix ++
      (Base64.encode (Text.asciiBytes ev.tag.toList) ++ ' ' :: Base64.encode ev.body) := by
    unfold Event.logLine solLogData programDataPrefix
    rw [List.map_cons, List.map_cons, List.map_nil, intercalate_two]
  have htag : Base64.encode (Text.asciiBytes ev.tag.toList) ≠ [] :=
    Base64.encode_ne_nil (tagBytes_ne_nil ev)
  have hbody : Base64.encode ev.body ≠ [] := Base64.encode_ne_nil ev.body_ne_nil
  have htrim : Text.trim Text.isBlank (Base64.encode (Text.asciiBytes ev.tag.toList) ++
      ' ' :: Base64.encode ev.body) =
      Base64.encode (Text.asciiBytes ev.tag.toList) ++ ' ' :: Base64.encode ev.body := by
    apply Text.trim_eq
    · intro c hc
      rw [List.head?_append_of_ne_nil _ htag] at hc
      exact isBlank_encode c (List.mem_of_mem_head? hc)
    · intro c hc
      rw [List.getLast?_append_of_ne_nil _ (List.cons_ne_nil _ _),
        List.getLast?_cons_of_ne_nil hbody] at hc
      exact isBlank_encode c (List.mem_of_mem_getLast? hc)
  refine ⟨⟨_, hline.symm⟩, ?_⟩
  unfold lineFields
  rw [hline, List.drop_left, htrim, Text.splitRuns_two Text.isBlank (by decide) isBlank_encode
    isBlank_encode]

/-- The line of an event is decoded to the event. -/
theorem decodeProgramDataLine_logLine {ev : Event} (h : ev.Fits) :
    decodeProgramDataLine defaultKakurePoolIdl ev.logLine = .ok (some (decodedOf ev)) := by
  obtain ⟨hstart, hfields⟩ := lineFields_logLine ev
  have htag : Text.utf8Decode (Base64.decode (Base64.encode (Text.asciiBytes ev.tag.toList))) =
      ev.tag.toList := by
    rw [Base64.decode_encode, Text.utf8Decode_ascii (tag_ascii ev)]
  have hbody : decodeBody defaultKakurePoolIdl (decodedOf ev).name ev.body = .ok (decodedOf ev) :=
    decodeBody_eq_ok_iff.2 ⟨ev, [], h, rfl, rfl, (List.append_nil _).symm⟩
  unfold decodeProgramDataLine
  rw [if_pos hstart, hfields, decodeSolLogDataFields_of_tag htag, Base64.decode_encode, hbody]
  rfl

/-- A line that is decoded carries a body that starts with the encoding of the decoded event. -/
theorem decodeProgramDataLine_eq_ok {line : List Char} {d : DecodedEvent}
    (h : decodeProgramDataLine defaultKakurePoolIdl line = .ok (some d)) :
    ∃ (ev : Event) (tagField bodyField : List Char) (more : List (List Char)) (rest : List UInt8),
      ev.Fits ∧ d = decodedOf ev ∧ lineFields line = tagField :: bodyField :: more ∧
        Base64.decode bodyField = ev.body ++ rest := by
  unfold decodeProgramDataLine at h
  split at h
  · unfold decodeSolLogDataFields at h
    split at h
    · rename_i tagField bodyField more hfields
      dsimp only at h
      split at h
      · rename_i hstart
        cases hbody : decodeBody defaultKakurePoolIdl (String.ofList ((Text.utf8Decode
            (Base64.decode tagField)).drop kakureEventTagPrefix.length)) (Base64.decode bodyField) with
        | error e =>
          rw [hbody] at h
          cases h
        | ok d' =>
          rw [hbody] at h
          cases h
          obtain ⟨ev, rest, hfits, hd, -, hrest⟩ := decodeBody_eq_ok_iff.1 hbody
          exact ⟨ev, tagField, bodyField, more, rest, hfits, hd, hfields, hrest⟩
      · cases h
    · cases h
  · cases h

end Kakure.Indexer
