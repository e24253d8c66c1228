import Kakure.Circuits.Curve
import Kakure.Notes.Kem
import Kakure.Notes.Note

/-!
# Minting in the circuits

`circuits/shared/src/mint.nr` and what it calls: the check of the subgroup and the shared key of
`vendor/ecdh/src/bjj.nr`, and the note, the cipher and the tags of `circuits/shared/src/common/`.  The hash is
a parameter, a failing assert is `none`.

* `checkSubgroup_ofPoint`, `deriveSharedKey_eq` — a shared key is one with a point of the subgroup;
* `mintCommon_eq`, `mintIncomingNote_eq` — what holds of a note that is minted, and what is emitted.
-/

namespace Kakure.Circuit

open Notes

/-! ## Shared keys -/

/-- `SUBGROUP_ORDER`, the lowest bit first. -/
def subgroupOrder : List ℕ :=
  [1, 0, 0, 0, 1, 1, 1, 1, 0, 1, 1, 0, 0, 1, 0, 0, 1, 0, 0, 0, 0, 1, 0, 0, 1, 0, 0, 1, 1, 1, 0, 0,
    0, 0, 1, 1, 1, 0, 1, 1, 1, 1, 1, 0, 1, 0, 0, 1, 0, 1, 0, 0, 1, 1, 1, 0, 1, 1, 1, 0, 0, 1, 1, 0,
    0, 1, 0, 1, 0, 0, 0, 0, 0, 1, 1, 1, 0, 1, 1, 1, 0, 0, 0, 0, 0, 1, 0, 0, 1, 0, 0, 1, 1, 1, 0, 0,
    0, 0, 0, 1, 1, 1, 0, 1, 1, 0, 1, 1, 0, 1, 1, 1, 0, 1, 1, 1, 1, 1, 0, 0, 1, 1, 0, 1, 0, 1, 0, 1,
    1, 1, 0, 1, 0, 0, 0, 0, 1, 1, 0, 1, 0, 1, 0, 0, 0, 0, 0, 0, 1, 1, 0, 0, 0, 0, 0, 0, 1, 0, 1, 1,
    0, 1, 1, 0, 1, 1, 0, 1, 0, 0, 0, 1, 0, 0, 0, 0, 0, 1, 0, 1, 0, 0, 0, 0, 1, 1, 1, 0, 1, 1, 0, 0,
    1, 0, 1, 0, 0, 0, 0, 0, 0, 0, 1, 0, 1, 1, 0, 0, 0, 1, 1, 0, 0, 1, 0, 0, 0, 0, 1, 1, 1, 0, 1, 0,
    0, 1, 1, 1, 0, 0, 1, 1, 1, 0, 0, 1, 0, 0, 0, 1, 0, 0, 1, 1, 0, 0, 0, 0, 0, 1, 1]

/-- One turn of the loop of `check_subgroup`. -/
def checkStep (point p : Point) (bit : ℕ) : Option Point := do
  let doubled ← p.add p
  if bit = 1 then doubled.add point else some doubled

/-- `check_subgroup`. -/
def checkSubgroup (point : Point) : Option Bool := do
  let p ← (subgroupOrder.take 250).reverse.foldlM (checkStep point) point
  some (decide p.isZero)

/-- `derive_shared_key`. -/
def deriveSharedKey (privateKey : Fr) (publicKey : Point) : Option Fr := do
  guard publicKey.IsOnCurve
  let inSubgroup ← checkSubgroup publicKey
  guard (inSubgroup = true)
  let scalar ← ScalarField.from 63 privateKey
  let sharedKey ← publicKey.mul scalar
  some sharedKey.x

/-- `is_even_y`: the half of an even number is below the half of the modulus. -/
def isEvenY (p : Point) : Prop :=
  (p.y * 0x183227397098d014dc2822db40c0ac2e9419f4243cdcb848a1f0fac9f8000001).val <
    0x183227397098d014dc2822db40c0ac2e9419f4243cdcb848a1f0fac9f8000001

instance (p : Point) : Decidable (isEvenY p) := inferInstanceAs (Decidable (_ < _))

/-! ## Notes -/

/-- A note with a `u128`. -/
abbrev Note := { note : Notes.Note // note.value < 2 ^ 128 }

section Hash

variable (poseidon2 : List Fr → Fr)

/-- `leaf`. -/
def Note.leaf (note : Note) : Fr := poseidon2 note.1.preimage

/-- `pubkey_owner`. -/
def pubkeyOwner (pk : Point) : Fr := poseidon2 [pk.x, pk.y]

/-- `psi`. -/
def psi (cek : Fr) : Fr := poseidon2 [cek, psiDomain]

/-- `nullifier`. -/
def nullifier (notePsi leafIndex : Fr) : Fr := poseidon2 [notePsi, leafIndex]

/-- `dem_encrypt`. -/
def demEncrypt (cek : Fr) (plaintext : List Fr) : List Fr :=
  plaintext.mapIdx fun k word => word + poseidon2 [cek, encDomain, (k : Fr)]

/-- `derive_cek`. -/
def deriveCek (eph : Fr) (compliancePk : Point) : Option Fr := do
  assertSubgroupScalar eph
  deriveSharedKey eph compliancePk

/-- `wrap_cek`. -/
def wrapCek (cek eph : Fr) (inPub : Point) : Option Fr := do
  assertSubgroupScalar eph
  let pad ← deriveSharedKey eph inPub
  some (cek + poseidon2 [pad])

/-- `assert_asset_id`: twenty bytes. -/
def assertAssetId (assetId : Fr) : Option Unit := guard (assetId.val < 256 ^ 20)

/-- `assert_valid_note_type`. -/
def assertValidNoteType (noteType : Fr) : Option Unit :=
  guard (noteType = noteTypeStandard ∨ noteType = noteTypeMultisig)

/-! ## Minting -/

/-- What `mint_common` returns. -/
structure Minted where
  leaf : Fr
  ephPub : Point
  cek : Fr
  ciphertext : List Fr

/-- `mint_common`. -/
def mintCommon (note : Note) (eph : Fr) (compliancePk : Point) : Option Minted := do
  assertSubgroupScalar eph
  guard (note.1.owner ≠ 0)
  guard (note.1.noteVersion = noteVersion)
  assertValidNoteType note.1.noteType
  guard (note.1.conditionsHash = 0)
  assertAssetId note.1.assetId
  let cek ← deriveCek eph compliancePk
  guard (note.1.psi = psi poseidon2 cek)
  let ephPub ← derivePublicKey eph
  some ⟨note.leaf poseidon2, ephPub, cek, demEncrypt poseidon2 cek note.1.transmitted⟩

/-- `SelfMint`. -/
structure SelfMint where
  leaf : Fr
  ephPub : Point
  ciphertext : List Fr

/-- The end of the three functions that mint a self note. -/
def selfMint (note : Note) (eph : Fr) (compliancePk : Point) : Option SelfMint := do
  let minted ← mintCommon poseidon2 note eph compliancePk
  guard (isEvenY minted.ephPub)
  some ⟨minted.leaf, minted.ephPub, minted.ciphertext⟩

/-- `mint_self_note`. -/
def mintSelfNote (note : Note) (eph : Fr) (compliancePk : Point) : Option SelfMint := do
  guard (note.1.noteType = noteTypeStandard)
  selfMint poseidon2 note eph compliancePk

/-- `mint_self_note_multisig`. -/
def mintSelfNoteMultisig (note : Note) (eph : Fr) (compliancePk gpk : Point) : Option SelfMint := do
  guard (note.1.noteType = noteTypeMultisig)
  guard (note.1.owner = pubkeyOwner poseidon2 gpk)
  selfMint poseidon2 note eph compliancePk

/-- `mint_deposit`. -/
def mintDeposit (note : Note) (eph : Fr) (compliancePk : Point) : Option SelfMint :=
  selfMint poseidon2 note eph compliancePk

/-- `IncomingMint`. -/
structure IncomingMint where
  leaf : Fr
  ephPub : Point
  tag : Fr
  cekWrap : Fr
  ciphertext : List Fr

/-- `assert_valid_recipient_key`. -/
def assertValidRecipientKey (p : Point) : Option Unit := do
  let ed ← Point.new p.x p.y
  let inSubgroup ← checkSubgroup ed
  guard (inSubgroup = true)
  guard ¬ ed.isZero

/-- A condition as a field element. -/
def asField (condition : Prop) [Decidable condition] : Fr := if condition then 1 else 0

/-- `mint_incoming_note`. -/
def mintIncomingNote (note : Note) (eph : Fr) (compliancePk spendPub viewPub : Point) : Option IncomingMint := do
  let isStd := asField (note.1.noteType = noteTypeStandard)
  let isMs := asField (note.1.noteType = noteTypeMultisig)
  guard (isStd + isMs = 1)
  guard (asField (spendPub.x = viewPub.x) = isStd)
  guard (isStd * (spendPub.y - viewPub.y) = 0)
  assertInPrimeSubgroup spendPub
  let spendEd ← Point.new spendPub.x spendPub.y
  guard ¬ spendEd.isZero
  assertValidRecipientKey viewPub
  guard (note.1.owner = pubkeyOwner poseidon2 spendPub)
  let minted ← mintCommon poseidon2 note eph compliancePk
  guard (isEvenY viewPub)
  guard (isEvenY minted.ephPub)
  let cekWrap ← wrapCek poseidon2 minted.cek eph viewPub
  some ⟨minted.leaf, minted.ephPub, viewPub.x, cekWrap, minted.ciphertext⟩

end Hash

/-! ## The curve -/

theorem bind_guard_eq_some {α : Type} {c : Prop} [Decidable c] {f : Unit → Option α} {a : α} :
    (guard c >>= f) = some a ↔ c ∧ f () = some a := by
  by_cases h : c
  · rw [bind_guard h]
    simp [h]
  · simp [guard, h]

theorem bind_eq_some {α β : Type} {x : Option α} {f : α → Option β} {b : β} :
    (x >>= f) = some b ↔ ∃ a, x = some a ∧ f a = some b := Option.bind_eq_some_iff

theorem guard_eq_some {c : Prop} [Decidable c] {u : Unit} : guard c = some u ↔ c := by
  by_cases h : c <;> simp [guard, h]

theorem exists_ofPoint {p : Point} (h : p.IsOnCurve) : ∃ P, p = ofPoint P := by
  refine ⟨⟨p.x, p.y, ?_⟩, rfl⟩
  have hcurve : a * (p.x * p.x) + p.y * p.y = 1 + d * (p.x * p.x) * (p.y * p.y) := h
  change (168700 : Fr) * p.x ^ 2 + p.y ^ 2 = 1 + 168696 * p.x ^ 2 * p.y ^ 2
  change (168700 : Fr) * (p.x * p.x) + p.y * p.y = 1 + 168696 * (p.x * p.x) * (p.y * p.y) at hcurve
  linear_combination hcurve

/-- A turn doubles, and adds for a bit that is set. -/
theorem checkStep_ofPoint (P : BabyJubJub.Point) (k bit : ℕ) :
    checkStep (ofPoint P) (ofPoint (k • P)) bit =
      some (ofPoint ((2 * k + if bit = 1 then 1 else 0) • P)) := by
  have hdouble : k • P + k • P = (2 * k) • P := by rw [← add_smul, two_mul]
  rw [checkStep, add_ofPoint, hdouble]
  show (if bit = 1 then (ofPoint ((2 * k) • P)).add (ofPoint P) else some (ofPoint ((2 * k) • P))) = _
  split
  · rw [add_ofPoint, add_smul (2 * k) 1, one_smul]
  · rw [add_zero]

theorem foldlM_checkStep (P : BabyJubJub.Point) (bits : List ℕ) (k : ℕ) :
    bits.foldlM (checkStep (ofPoint P)) (ofPoint (k • P)) =
      some (ofPoint (bits.foldl (fun k bit => 2 * k + if bit = 1 then 1 else 0) k • P)) := by
  induction bits generalizing k with
  | nil => rfl
  | cons bit bits ih => rw [List.foldlM_cons, bind_of_some (checkStep_ofPoint P k bit), ih, List.foldl_cons]

/-- The bits are those of the order of the subgroup. -/
theorem foldl_subgroupOrder :
    (subgroupOrder.take 250).reverse.foldl (fun k bit => 2 * k + if bit = 1 then 1 else 0) 1 = subOrder := by
  decide +kernel

theorem checkSubgroup_ofPoint (P : BabyJubJub.Point) :
    checkSubgroup (ofPoint P) = some (decide (BabyJubJub.InSubgroup P)) := by
  have h := foldlM_checkStep P (subgroupOrder.take 250).reverse 1
  rw [one_smul, foldl_subgroupOrder] at h
  rw [checkSubgroup, bind_of_some h, Option.some_inj, decide_eq_decide, isZero_ofPoint]
  rfl

/-- A shared key is one with a point of the subgroup. -/
theorem deriveSharedKey_eq {privateKey x : Fr} {publicKey : Point} (h : privateKey.val < 16 ^ 63) :
    deriveSharedKey privateKey publicKey = some x ↔
      ∃ P : BabyJubJub.subgroup, publicKey = ofPoint P ∧
        x = (((privateKey.val : ZMod subOrder) • P : BabyJubJub.subgroup) : BabyJubJub.Point).x := by
  rw [deriveSharedKey, bind_guard_eq_some]
  constructor
  · rintro ⟨hcurve, hrest⟩
    obtain ⟨P, rfl⟩ := exists_ofPoint hcurve
    rw [bind_of_some (checkSubgroup_ofPoint P), bind_guard_eq_some, decide_eq_true_eq] at hrest
    obtain ⟨hmem, hrest⟩ := hrest
    obtain ⟨s, hs, hmul⟩ := exists_mul P h
    rw [bind_of_some hs, bind_of_some hmul, Option.some_inj] at hrest
    refine ⟨⟨P, hmem⟩, rfl, ?_⟩
    rw [← hrest, BabyJubJub.coe_natCast_smul]
    rfl
  · rintro ⟨P, rfl, rfl⟩
    refine ⟨isOnCurve_ofPoint _, ?_⟩
    obtain ⟨s, hs, hmul⟩ := exists_mul (P : BabyJubJub.Point) h
    rw [bind_of_some (checkSubgroup_ofPoint _), bind_guard (decide_eq_true (BabyJubJub.mem_subgroup.1 P.2)), bind_of_some hs, bind_of_some hmul,
      BabyJubJub.coe_natCast_smul]
    rfl

theorem isEvenY_iff (p : Point) : isEvenY p ↔ p.y.val % 2 = 0 := by
  have hmodulus : bn254ScalarFieldModulus + 1 =
      2 * 0x183227397098d014dc2822db40c0ac2e9419f4243cdcb848a1f0fac9f8000001 := by norm_num [bn254ScalarFieldModulus]
  exact Parity.val_mul_half_lt_iff hmodulus p.y

theorem isEvenY_ofPoint (P : BabyJubJub.Point) : isEvenY (ofPoint P) ↔ Notes.isEvenY (Tss.coords P) = true := by
  rw [isEvenY_iff, Notes.isEvenY_coords]
  rfl

/-! ## What is minted -/

variable {poseidon2 : List Fr → Fr}

/-- A scalar the circuits accept fits the slices of `mul`. -/
theorem val_lt_of_valid {scalar : Fr} (h : ValidScalar scalar) : scalar.val < 16 ^ 63 :=
  lt_trans h.2 (by norm_num [subOrder])

theorem assertSubgroupScalar_eq_some {x : Fr} {u : Unit} : assertSubgroupScalar x = some u ↔ ValidScalar x := by
  rw [assertSubgroupScalar, bind_guard_eq_some]
  simp [guard, ValidScalar]

/-- The multiple of a point of the subgroup by a scalar. -/
def scaled (scalar : Fr) (P : BabyJubJub.subgroup) : BabyJubJub.subgroup := (scalar.val : ZMod subOrder) • P

/-- A note that is minted, with its content key and its ephemeral point. -/
structure MintedFrom (poseidon2 : List Fr → Fr) (note : Note) (eph : Fr) (compliancePk : Point) (m : Minted) : Prop where
  scalar : ValidScalar eph
  owner : note.1.owner ≠ 0
  noteType : note.1.noteType = noteTypeStandard ∨ note.1.noteType = noteTypeMultisig
  assetId : note.1.assetId.val < 2 ^ 160
  key : ∃ C : BabyJubJub.subgroup, compliancePk = ofPoint C ∧ m.cek = (scaled eph C : BabyJubJub.Point).x
  psi : note.1.psi = computePsi poseidon2 m.cek
  leaf : m.leaf = poseidon2 note.1.preimage
  ephPub : m.ephPub = ofPoint (scaled eph BabyJubJub.base)
  ciphertext : m.ciphertext = encrypted poseidon2 m.cek note.1.transmitted

theorem mintCommon_eq {note : Note} {eph : Fr} {compliancePk : Point} {m : Minted}
    (h : mintCommon poseidon2 note eph compliancePk = some m) : MintedFrom poseidon2 note eph compliancePk m := by
  unfold mintCommon at h
  simp only [bind_eq_some, assertSubgroupScalar_eq_some, guard_eq_some, assertValidNoteType, assertAssetId,
    deriveCek, exists_and_left, exists_const] at h
  obtain ⟨hscalar, howner, -, htype, -, hasset, cek, ⟨-, hshared⟩, hpsi, ephPub, hephPub, hm⟩ := h
  obtain ⟨C, hC, hx⟩ := (deriveSharedKey_eq (val_lt_of_valid hscalar)).1 hshared
  rw [derivePublicKey_eq (val_lt_of_valid hscalar), Option.some_inj] at hephPub
  cases hm
  refine ⟨hscalar, howner, htype, lt_of_lt_of_le hasset (by norm_num), ⟨C, hC, hx⟩, hpsi, rfl, ?_, rfl⟩
  rw [← hephPub, scaled, BabyJubJub.coe_natCast_smul]
  rfl

theorem MintedFrom.deriveCek {note : Note} {eph : Fr} {compliancePk : Point} {m : Minted}
    (h : MintedFrom poseidon2 note eph compliancePk m) : deriveCek eph compliancePk = some m.cek := by
  obtain ⟨C, hC, hcek⟩ := h.key
  have hshared : deriveSharedKey eph compliancePk = some m.cek :=
    (deriveSharedKey_eq (val_lt_of_valid h.scalar)).2 ⟨C, hC, hcek⟩
  have hscalar : assertSubgroupScalar eph = some () := assertSubgroupScalar_eq_some.2 h.scalar
  unfold Circuit.deriveCek
  rw [bind_of_some hscalar, hshared]

/-- The other way round: such a note is minted, if its version is right and it has no conditions. -/
theorem mintCommon_of {note : Note} {eph : Fr} {compliancePk : Point} {m : Minted}
    (h : MintedFrom poseidon2 note eph compliancePk m) (hversion : note.1.noteVersion = noteVersion)
    (hconditions : note.1.conditionsHash = 0) : mintCommon poseidon2 note eph compliancePk = some m := by
  have hscalar : assertSubgroupScalar eph = some () := assertSubgroupScalar_eq_some.2 h.scalar
  have hasset : note.1.assetId.val < 256 ^ 20 := lt_of_lt_of_le h.assetId (by norm_num)
  have hpsi : note.1.psi = psi poseidon2 m.cek := h.psi
  have hpub : derivePublicKey eph = some m.ephPub := by
    rw [derivePublicKey_eq (val_lt_of_valid h.scalar), h.ephPub, scaled, BabyJubJub.coe_natCast_smul]
    rfl
  unfold mintCommon
  rw [bind_of_some hscalar, bind_guard h.owner, bind_guard hversion]
  unfold assertValidNoteType assertAssetId
  rw [bind_guard h.noteType, bind_guard hconditions, bind_guard hasset, bind_of_some h.deriveCek, bind_guard hpsi,
    bind_of_some hpub, Option.some_inj]
  have hm : m = ⟨m.leaf, m.ephPub, m.cek, m.ciphertext⟩ := rfl
  rw [hm, h.leaf, h.ciphertext]
  rfl

/-- A self note that is minted has an ephemeral point with a tag. -/
theorem selfMint_eq {note : Note} {eph : Fr} {compliancePk : Point} {s : SelfMint}
    (h : selfMint poseidon2 note eph compliancePk = some s) :
    ∃ m, MintedFrom poseidon2 note eph compliancePk m ∧ isEvenY m.ephPub ∧ s = ⟨m.leaf, m.ephPub, m.ciphertext⟩ := by
  unfold selfMint at h
  obtain ⟨m, hm, h⟩ := bind_eq_some.1 h
  rw [bind_guard_eq_some] at h
  exact ⟨m, mintCommon_eq hm, h.1, (Option.some_inj.1 h.2).symm⟩

theorem mintSelfNote_eq {note : Note} {eph : Fr} {compliancePk : Point} {s : SelfMint}
    (h : mintSelfNote poseidon2 note eph compliancePk = some s) :
    note.1.noteType = noteTypeStandard ∧ selfMint poseidon2 note eph compliancePk = some s := by
  unfold mintSelfNote at h
  rwa [bind_guard_eq_some] at h

theorem mintSelfNoteMultisig_eq {note : Note} {eph : Fr} {compliancePk gpk : Point} {s : SelfMint}
    (h : mintSelfNoteMultisig poseidon2 note eph compliancePk gpk = some s) :
    note.1.noteType = noteTypeMultisig ∧ note.1.owner = pubkeyOwner poseidon2 gpk ∧
      selfMint poseidon2 note eph compliancePk = some s := by
  unfold mintSelfNoteMultisig at h
  rwa [bind_guard_eq_some, bind_guard_eq_some] at h

/-- What holds of a memo besides: the recipient's keys, and the content key under the pad of its view
key. -/
structure MemoFor (poseidon2 : List Fr → Fr) (note : Note) (eph : Fr) (m : Minted) (spendPub viewPub : Point)
    (V : BabyJubJub.subgroup) : Prop where
  point : viewPub = ofPoint V
  nonzero : V ≠ 0
  even : isEvenY viewPub
  ephEven : isEvenY m.ephPub
  owner : note.1.owner = pubkeyOwner poseidon2 spendPub
  standard : note.1.noteType = noteTypeStandard → spendPub = viewPub

/-- A key that is accepted is a point of the subgroup that is not zero. -/
theorem exists_of_assertValidRecipientKey {p : Point} (h : assertValidRecipientKey p = some ()) :
    ∃ P : BabyJubJub.subgroup, P ≠ 0 ∧ p = ofPoint P := by
  unfold assertValidRecipientKey at h
  rw [bind_eq_some] at h
  obtain ⟨ed, hed, h⟩ := h
  unfold Point.new at hed
  rw [bind_guard_eq_some] at hed
  obtain ⟨P, hP⟩ := exists_ofPoint hed.1
  have hed' : ed = ofPoint P := (Option.some_inj.1 hed.2).symm.trans hP
  rw [hed', bind_of_some (checkSubgroup_ofPoint P), bind_guard_eq_some, decide_eq_true_eq] at h
  have hne : ¬ (ofPoint P).isZero := by simpa [guard] using h.2
  refine ⟨⟨P, h.1⟩, fun hzero => hne ?_, hP⟩
  rw [isZero_ofPoint]
  exact congrArg Subtype.val hzero

theorem mintIncomingNote_eq {note : Note} {eph : Fr} {compliancePk spendPub viewPub : Point} {i : IncomingMint}
    (h : mintIncomingNote poseidon2 note eph compliancePk spendPub viewPub = some i) :
    ∃ m V, MintedFrom poseidon2 note eph compliancePk m ∧ MemoFor poseidon2 note eph m spendPub viewPub V ∧
      i = ⟨m.leaf, m.ephPub, viewPub.x, m.cek + poseidon2 [(scaled eph V : BabyJubJub.Point).x], m.ciphertext⟩ := by
  unfold mintIncomingNote at h
  simp only [bind_eq_some, guard_eq_some, exists_and_left, exists_const] at h
  obtain ⟨-, hsame, hy, -, _, -, -, -, _, hview, howner, m, hm, heven, hephEven, cekWrap, hwrap, hi⟩ := h
  have hminted := mintCommon_eq hm
  obtain ⟨V, hne, rfl⟩ := exists_of_assertValidRecipientKey hview
  unfold wrapCek at hwrap
  rw [bind_eq_some] at hwrap
  obtain ⟨_, -, hwrap⟩ := hwrap
  rw [bind_eq_some] at hwrap
  obtain ⟨pad, hpad, hwrap⟩ := hwrap
  obtain ⟨V', hV', hx⟩ := (deriveSharedKey_eq (val_lt_of_valid hminted.scalar)).1 hpad
  obtain rfl : V = V' := Subtype.ext (ofPoint_injective hV')
  refine ⟨m, V, hminted, ⟨rfl, hne, heven, hephEven, howner, fun hstd => ?_⟩, ?_⟩
  · -- a standard memo has one key
    have hone : asField (note.1.noteType = noteTypeStandard) = 1 := if_pos hstd
    rw [hone] at hsame hy
    have hx : spendPub.x = (ofPoint V).x := by
      by_contra hne
      rw [asField, if_neg hne] at hsame
      exact zero_ne_one hsame
    have hy' : spendPub.y = (ofPoint V).y := by
      rw [one_mul] at hy
      exact sub_eq_zero.1 hy
    exact Point.ext hx hy'
  · rw [← Option.some_inj.1 hi, ← Option.some_inj.1 hwrap, hx]
    rfl

end Kakure.Circuit
