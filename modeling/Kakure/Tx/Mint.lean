import Kakure.Circuits.Standard
import Kakure.Sync.Soundness
import Kakure.Tss.Hash

/-!
# The notes an application mints

`note/mint.ts`, and the parents of `note/note.ts`: the notes that the SDK prepares for a prover.

* `finish_ok`, `mintIncomingNote_ok` — what is known of a note that is prepared;
* `FinishedFrom.mintable_iff` — when the circuits mint it.
-/

namespace Kakure.Tx

open Notes Tss Fallible

/-! ## Parents -/

/-- `assertU32`. -/
def assertU32 (name : String) (value : ℕ) : Except String ℕ :=
  if 0xffffffff < value then .error (name ++ " not a u32 (0 <= x < 2^32): " ++ toString value) else .ok value

/-- `packParents`. -/
def packParents (first second : ℕ) : Except String Fr := do
  let index0 ← assertU32 "leafIndex" first
  let index1 ← assertU32 "leafIndex" second
  newFr (index0 + index1 * 2 ^ 32)

/-- `PARENTS_HIDDEN`. -/
def parentsHidden : Fr := ((bn254ScalarFieldModulus - 1 : ℕ) : Fr)

/-! ## Notes for a prover -/

/-- `ProverNoteInput`. -/
structure ProverNoteInput where
  noteVersion : Fr
  assetId : Fr
  noteType : Fr
  conditionsHash : Fr
  value : Fr
  owner : Fr
  psi : Fr
  parents : Fr
  deriving DecidableEq

/-- The note a circuit reads, whose value has to be a `u128`. -/
def ProverNoteInput.note (input : ProverNoteInput) : Notes.Note :=
  ⟨input.noteVersion, input.assetId, input.noteType, input.conditionsHash, input.value.val, input.owner, input.psi,
    input.parents⟩

/-- A note of a wallet for a prover. -/
def proverInput (note : Notes.Note) : ProverNoteInput :=
  ⟨note.noteVersion, note.assetId, note.noteType, note.conditionsHash, (note.value : Fr), note.owner, note.psi,
    note.parents⟩

/-- `MintedNote`. -/
structure MintedNote where
  note : ProverNoteInput
  commitment : Fr
  eph : Fr
  ephPub : Tss.Point
  cek : Fr
  psi : Fr
  spendScalar : Fr
  tag : Fr
  inPub : Option Tss.Point
  cekWrap : Option Fr

section Mint

variable (lib : Library) (hash : List Fr → Fr)

/-- `leaf`, of a note whose value is a bigint. -/
def leafOf (note : Notes.Note) (value : ℤ) : Except String Fr :=
  if value < 0 then .error ("note value out of u128 range: " ++ toString value)
  else leaf hash { note with value := value.toNat }

/-- `finish`. -/
def finish (eph : Fr) (value : ℤ) (owner assetId spendScalar parents : Fr) (compliancePk : Tss.Point) :
    Except String MintedNote := do
  let cek ← deriveCek lib eph compliancePk
  let psi := computePsi hash cek
  let commitment ← leafOf hash ⟨noteVersion, assetId, noteTypeStandard, 0, 0, owner, psi, parents⟩ value
  let ephPub := publicKey lib eph
  let valueFr ← newFr value
  let tag ← newFr ephPub.1
  return {
    note := ⟨noteVersion, assetId, noteTypeStandard, 0, valueFr, owner, psi, parents⟩
    commitment := commitment
    eph := eph
    ephPub := ephPub
    cek := cek
    psi := psi
    spendScalar := spendScalar
    tag := tag
    inPub := none
    cekWrap := none }

/-- `mintSelfNote`. -/
def mintSelfNote (eph : Fr) (value : ℤ) (spendScalar assetId : Fr) (compliancePk : Tss.Point) (parents : Fr) :
    Except String MintedNote :=
  finish lib hash eph value (pubkeyOwner hash (publicKey lib spendScalar)) assetId spendScalar parents compliancePk

/-- `mintIncomingNote`. -/
def mintIncomingNote (eph : Fr) (value : ℤ) (inPub : Tss.Point) (inKey assetId : Fr) (compliancePk : Tss.Point)
    (parents : Fr) : Except String MintedNote := do
  let built ← finish lib hash eph value (pubkeyOwner hash inPub) assetId inKey parents compliancePk
  let cekWrap ← wrapCek lib hash built.cek eph inPub
  let tag ← newFr inPub.1
  return { built with inPub := some inPub, cekWrap := some cekWrap, tag := tag }

end Mint

/-! ## What is prepared -/

variable {lib : Library} {hash : List Fr → Fr}

theorem assertU32_ok {name : String} {value u : ℕ} (h : assertU32 name value = .ok u) :
    u = value ∧ value < 2 ^ 32 := by
  unfold assertU32 at h
  by_cases hlt : 0xffffffff < value
  · rw [if_pos hlt] at h
    cases h
  · rw [if_neg hlt] at h
    cases h
    exact ⟨rfl, by omega⟩

/-- The parents are packed as the circuits pack them. -/
theorem packParents_ok {first second : ℕ} {parents : Fr} (h : packParents first second = .ok parents) :
    parents = Circuit.packParents first second ∧ first < 2 ^ 32 ∧ second < 2 ^ 32 := by
  unfold packParents at h
  obtain ⟨index0, h0, hsecond⟩ := bind_eq_ok.1 h
  obtain ⟨index1, h1, hpacked⟩ := bind_eq_ok.1 hsecond
  obtain ⟨rfl, hlt0⟩ := assertU32_ok h0
  obtain ⟨rfl, hlt1⟩ := assertU32_ok h1
  refine ⟨?_, hlt0, hlt1⟩
  rw [newFr_eq (by positivity) (by norm_num [bn254ScalarFieldModulus]; omega)] at hpacked
  cases hpacked
  simp [Circuit.packParents]

theorem parentsHidden_eq : parentsHidden = Circuit.parentsHidden := by decide +kernel

theorem proverInput_note {note : Notes.Note} (h : note.value < 2 ^ 128) : (proverInput note).note = note := by
  have hvalue := val_natCast_of_lt (lt_trans h two_pow_128_lt_modulus)
  simp [proverInput, ProverNoteInput.note, hvalue]

theorem leafOf_ok {note : Notes.Note} {value : ℤ} {x : Fr} (h : leafOf hash note value = .ok x) :
    0 ≤ value ∧ value < 2 ^ 128 := by
  unfold leafOf leaf at h
  by_cases hneg : value < 0
  · rw [if_pos hneg] at h
    cases h
  · rw [if_neg hneg] at h
    dsimp only at h
    by_cases hlt : 2 ^ 128 ≤ value.toNat
    · rw [if_pos hlt] at h
      cases h
    · omega

/-- The number of a field element that comes from a bigint. -/
theorem val_intCast {value : ℤ} (hnonneg : 0 ≤ value) (hlt : value < bn254ScalarFieldModulus) :
    ((value : ℤ) : Fr).val = value.toNat := by
  have hcast : ((value : ℤ) : Fr) = (value.toNat : Fr) := by
    rw [← Int.cast_natCast, Int.toNat_of_nonneg hnonneg]
  rw [hcast, val_natCast_of_lt (by omega)]

theorem newFr_ok {value : ℤ} {x : Fr} (h : newFr value = .ok x) :
    0 ≤ value ∧ value < bn254ScalarFieldModulus ∧ x = (value : Fr) := by
  unfold newFr at h
  split at h
  · rename_i hrange
    cases h
    exact ⟨hrange.1, hrange.2, rfl⟩
  · cases h

/-- What is known of a note that is prepared for an owner: the key, the scalar, the type and the value are right, and
this is the note. -/
structure FinishedFrom (hash : List Fr → Fr) (eph : Fr) (value : ℤ) (noteType owner assetId parents : Fr)
    (C : BabyJubJub.subgroup) (input : ProverNoteInput) : Prop where
  key : C ≠ 0
  scalar : ValidScalar eph
  validType : noteType = noteTypeStandard ∨ noteType = noteTypeMultisig
  nonneg : 0 ≤ value
  range : value < 2 ^ 128
  note : input.note = ⟨noteVersion, assetId, noteType, 0, value.toNat, owner,
    computePsi hash (Circuit.scaled eph C : BabyJubJub.Point).x, parents⟩

/-- A note whose content key and leaf are there is such a note. -/
theorem FinishedFrom.of_leaf (hlib : lib.Lawful) {eph cek : Fr} {value : ℤ} {noteType owner assetId parents leaf : Fr}
    {C : BabyJubJub.subgroup} (hcek : deriveCek lib eph (coords C) = .ok cek)
    (htype : noteType = noteTypeStandard ∨ noteType = noteTypeMultisig)
    (hleaf : leafOf hash ⟨noteVersion, assetId, noteType, 0, 0, owner, computePsi hash cek, parents⟩ value = .ok leaf) :
    FinishedFrom hash eph value noteType owner assetId parents C
      ⟨noteVersion, assetId, noteType, 0, (value : Fr), owner, computePsi hash cek, parents⟩ := by
  obtain ⟨hnonneg, hrange⟩ := leafOf_ok hleaf
  obtain ⟨hscalar, P, hP, hcoords⟩ := deriveCek_ok hlib (reduced_coords _) hcek
  obtain rfl : C = P := Subtype.ext (coords_injective hcoords)
  have hlt : value < bn254ScalarFieldModulus := lt_trans hrange (by norm_num [bn254ScalarFieldModulus])
  rw [deriveCek_coords hlib hscalar hP] at hcek
  cases hcek
  refine ⟨hP, hscalar, htype, hnonneg, hrange, ?_⟩
  unfold ProverNoteInput.note
  dsimp only
  rw [val_intCast hnonneg hlt]
  rfl

theorem finish_ok (hlib : lib.Lawful) {eph : Fr} {value : ℤ} {owner assetId spendScalar parents : Fr}
    {C : BabyJubJub.subgroup} {p : MintedNote}
    (h : finish lib hash eph value owner assetId spendScalar parents (coords C) = .ok p) :
    FinishedFrom hash eph value noteTypeStandard owner assetId parents C p.note := by
  unfold finish at h
  obtain ⟨cek, hcek, h⟩ := bind_eq_ok.1 h
  obtain ⟨commitment, hleaf, h⟩ := bind_eq_ok.1 h
  obtain ⟨valueFr, hvalue, h⟩ := bind_eq_ok.1 h
  obtain ⟨tag, -, h⟩ := bind_eq_ok.1 h
  obtain ⟨-, -, rfl⟩ := newFr_ok hvalue
  cases h
  exact .of_leaf hlib hcek (Or.inl rfl) hleaf

theorem mintIncomingNote_ok (hlib : lib.Lawful) {eph : Fr} {value : ℤ} {inPub : Tss.Point} {inKey assetId parents : Fr}
    {C : BabyJubJub.subgroup} {p : MintedNote}
    (h : mintIncomingNote lib hash eph value inPub inKey assetId (coords C) parents = .ok p) :
    FinishedFrom hash eph value noteTypeStandard (pubkeyOwner hash inPub) assetId parents C p.note ∧
      assertValidPoint lib inPub = .ok () := by
  unfold mintIncomingNote at h
  obtain ⟨built, hbuilt, h⟩ := bind_eq_ok.1 h
  obtain ⟨cekWrap, hwrap, h⟩ := bind_eq_ok.1 h
  obtain ⟨tag, -, h⟩ := bind_eq_ok.1 h
  have hfinished := finish_ok hlib hbuilt
  unfold wrapCek at hwrap
  obtain ⟨_, -, hwrap⟩ := bind_eq_ok.1 hwrap
  obtain ⟨_, hvalid, -⟩ := bind_eq_ok.1 hwrap
  cases h
  exact ⟨hfinished, hvalid⟩

namespace FinishedFrom

variable {eph : Fr} {value : ℤ} {noteType owner assetId parents : Fr} {C : BabyJubJub.subgroup} {input : ProverNoteInput}

theorem value_lt (h : FinishedFrom hash eph value noteType owner assetId parents C input) :
    input.note.value < 2 ^ 128 := by
  have hrange := h.range
  rw [h.note]
  show value.toNat < 2 ^ 128
  omega

/-- The note as a circuit takes it. -/
def circuitNote (h : FinishedFrom hash eph value noteType owner assetId parents C input) : Circuit.Note :=
  ⟨input.note, h.value_lt⟩

/-- A note that is prepared is mintable exactly if it has an owner and an asset id, and the point of its scalar has a
tag. -/
theorem mintable_iff (hlib : lib.Lawful) (h : FinishedFrom hash eph value noteType owner assetId parents C input) :
    Circuit.Mintable hash h.circuitNote eph C ↔
      owner ≠ 0 ∧ assetId.val < 2 ^ 160 ∧ isEvenY (publicKey lib eph) = true := by
  have hnote : h.circuitNote.1 = ⟨noteVersion, assetId, noteType, 0, value.toNat, owner,
      computePsi hash (Circuit.scaled eph C : BabyJubJub.Point).x, parents⟩ := h.note
  rw [Sync.publicKey_scaled hlib, ← Circuit.isEvenY_ofPoint]
  constructor
  · intro hmintable
    have howner := hmintable.owner
    have hasset := hmintable.assetId
    rw [hnote] at howner hasset
    exact ⟨howner, hasset, hmintable.even⟩
  · rintro ⟨howner, hasset, heven⟩
    constructor
    · exact h.scalar
    · rwa [hnote]
    · rw [hnote]
    · rw [hnote]
      exact h.validType
    · rw [hnote]
    · rwa [hnote]
    · rw [hnote]
    · exact heven

end FinishedFrom

end Kakure.Tx
