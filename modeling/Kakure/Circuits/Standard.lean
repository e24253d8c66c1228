import Kakure.Circuits.Spend

/-!
# The circuits of a wallet

`main` of `circuits/standard/deposit`, `transfer` and `withdraw`, with the checks of
`circuits/shared/src/common/conservation.nr` and `note.nr`.

* `selfMint_isSome_iff`, `mintIncomingNote_isSome_iff` — when a note is minted;
* `depositMain_isSome_iff`, `transferMain_isSome_iff`, `withdrawMain_isSome_iff` — when the circuits accept a
  witness whose keys are points of the subgroup.
-/

namespace Kakure.Circuit

open Notes

/-! ## Shared checks -/

/-- A `u128`. -/
abbrev U128 := { n : ℕ // n < 2 ^ 128 }

theorem zero_lt_u128 : 0 < 2 ^ 128 := by norm_num

/-- The sum of two `u128`, which must not overflow. -/
def addU128 (n m : ℕ) : Option ℕ := if n + m < 2 ^ 128 then some (n + m) else none

/-- `assert_conserved`. -/
def assertConserved (inputs outputs : List U128) (publicOut : U128) : Option Unit := do
  let totalIn ← (inputs.map Subtype.val).foldlM addU128 0
  let totalOut ← (outputs.map Subtype.val).foldlM addU128 publicOut.1
  guard (totalIn = totalOut)

/-- `as u32`. -/
def asU32 (x : Fr) : ℕ := x.val % 2 ^ 32

/-- `pack_parents`. -/
def packParents (first second : ℕ) : Fr := (first : Fr) + (second : Fr) * 4294967296

/-- `assert_parents_bound`. -/
def assertParentsBound (note : Note) (first second : Fr) : Option Unit :=
  guard (note.1.parents = packParents (asU32 first) (asU32 second))

/-- `PARENTS_HIDDEN`. -/
def parentsHidden : Fr := 0x30644e72e131a029b85045b68181585d2833e84879b9709143e1f593f0000000

/-- `assert_valid_compliance_pk`. -/
def assertValidCompliancePk (c : Point) : Option Unit := do
  let cEd ← Point.new c.x c.y
  let inSubgroup ← checkSubgroup cEd
  guard (inSubgroup = true)
  guard ¬ cEd.isZero

/-- The value of a note. -/
def Note.amount (note : Note) : U128 := ⟨note.1.value, note.2⟩

/-! ## The circuits -/

section Main

variable (poseidon : Fr → Fr → Fr → Fr) (poseidon2 : List Fr → Fr)

/-- `main` of the deposit. -/
def depositMain (compliancePubkeyX compliancePubkeyY : Fr) (note : Note) (eph : Fr) :
    Option (Fr × Fr × Fr × Fr × List Fr) := do
  let compliancePk : Point := ⟨compliancePubkeyX, compliancePubkeyY⟩
  assertValidCompliancePk compliancePk
  guard (note.1.parents = 0)
  let minted ← mintDeposit poseidon2 note eph compliancePk
  some (minted.leaf, minted.ephPub.x, (note.1.value : Fr), note.1.assetId, minted.ciphertext)

/-- `main` of the transfer. -/
def transferMain (compliancePubkeyX compliancePubkeyY : Fr) (recipientSpendPub recipientViewPub : Point)
    (oldNote : Note) (spendScalar oldNoteIndex : Fr) (oldNotePath : Fin treeDepth → Fr) (memoNote : Note) (memoEph : Fr)
    (changeNote : Note) (changeEph : Fr) :
    Option (Fr × Fr × Fr × Fr × Fr × Fr × List Fr × Fr × Fr × List Fr) := do
  let compliancePk : Point := ⟨compliancePubkeyX, compliancePubkeyY⟩
  assertValidCompliancePk compliancePk
  let (nf, computedRoot) ← verifySpend poseidon poseidon2 oldNote spendScalar oldNoteIndex oldNotePath
  guard (oldNote.1.assetId = memoNote.1.assetId)
  guard (oldNote.1.assetId = changeNote.1.assetId)
  guard (memoEph ≠ changeEph)
  assertConserved [oldNote.amount] [memoNote.amount, changeNote.amount] ⟨0, zero_lt_u128⟩
  guard (memoNote.1.parents = parentsHidden)
  assertParentsBound changeNote oldNoteIndex 0
  let memo ← mintIncomingNote poseidon2 memoNote memoEph compliancePk recipientSpendPub recipientViewPub
  let change ← mintSelfNote poseidon2 changeNote changeEph compliancePk
  some (nf, computedRoot, memo.leaf, memo.ephPub.x, memo.tag, memo.cekWrap, memo.ciphertext, change.leaf,
    change.ephPub.x, change.ciphertext)

/-- `main` of the withdrawal. -/
def withdrawMain (withdrawValue : U128) (recipient intentHash compliancePubkeyX compliancePubkeyY : Fr) (oldNote : Note)
    (spendScalar oldNoteIndex : Fr) (oldNotePath : Fin treeDepth → Fr) (changeNote : Note) (changeEph : Fr) :
    Option (Fr × Fr × Fr × Fr × Fr × List Fr) := do
  let compliancePk : Point := ⟨compliancePubkeyX, compliancePubkeyY⟩
  assertValidCompliancePk compliancePk
  guard (recipient ≠ 0)
  guard (intentHash = 0)
  let (nf, computedRoot) ← verifySpend poseidon poseidon2 oldNote spendScalar oldNoteIndex oldNotePath
  guard (oldNote.1.assetId = changeNote.1.assetId)
  assertConserved [oldNote.amount] [changeNote.amount] withdrawValue
  assertParentsBound changeNote oldNoteIndex 0
  let change ← mintSelfNote poseidon2 changeNote changeEph compliancePk
  some (nf, computedRoot, oldNote.1.assetId, change.leaf, change.ephPub.x, change.ciphertext)

end Main

/-! ## Programs that return -/

theorem isSome_bind {α β : Type} {x : Option α} {f : α → Option β} :
    (x >>= f).isSome ↔ ∃ a, x = some a ∧ (f a).isSome := by
  cases x <;> simp

theorem isSome_guard_bind {β : Type} {c : Prop} [Decidable c] {f : Unit → Option β} :
    (guard c >>= f).isSome ↔ c ∧ (f ()).isSome := by
  by_cases h : c <;> simp [guard, h]

/-! ## When a note is minted -/

variable {poseidon : Fr → Fr → Fr → Fr} {poseidon2 : List Fr → Fr} {note : Note} {eph : Fr}

/-- What a note has to be to be minted for a scalar, under a key of the subgroup. -/
structure Mintable (poseidon2 : List Fr → Fr) (note : Note) (eph : Fr) (C : BabyJubJub.subgroup) : Prop where
  scalar : ValidScalar eph
  owner : note.1.owner ≠ 0
  noteVersion : note.1.noteVersion = noteVersion
  noteType : note.1.noteType = noteTypeStandard ∨ note.1.noteType = noteTypeMultisig
  conditionsHash : note.1.conditionsHash = 0
  assetId : note.1.assetId.val < 2 ^ 160
  psi : note.1.psi = computePsi poseidon2 (scaled eph C : BabyJubJub.Point).x
  even : isEvenY (ofPoint (scaled eph BabyJubJub.base))

/-- What the mint makes of it. -/
def mintedOf (poseidon2 : List Fr → Fr) (note : Note) (eph : Fr) (C : BabyJubJub.subgroup) : Minted where
  leaf := poseidon2 note.1.preimage
  ephPub := ofPoint (scaled eph BabyJubJub.base)
  cek := (scaled eph C : BabyJubJub.Point).x
  ciphertext := encrypted poseidon2 (scaled eph C : BabyJubJub.Point).x note.1.transmitted

theorem Mintable.mintCommon {C : BabyJubJub.subgroup} (h : Mintable poseidon2 note eph C) :
    mintCommon poseidon2 note eph (ofPoint C) = some (mintedOf poseidon2 note eph C) :=
  mintCommon_of ⟨h.scalar, h.owner, h.noteType, h.assetId, ⟨C, rfl, rfl⟩, h.psi, rfl, rfl, rfl⟩ h.noteVersion
    h.conditionsHash

theorem Mintable.selfMint {C : BabyJubJub.subgroup} (h : Mintable poseidon2 note eph C) :
    selfMint poseidon2 note eph (ofPoint C) = some ⟨(mintedOf poseidon2 note eph C).leaf,
      (mintedOf poseidon2 note eph C).ephPub, (mintedOf poseidon2 note eph C).ciphertext⟩ := by
  have heven : isEvenY (mintedOf poseidon2 note eph C).ephPub := h.even
  unfold Circuit.selfMint
  exact (bind_of_some h.mintCommon _).trans (bind_guard heven _)

theorem Mintable.mintSelfNote {C : BabyJubJub.subgroup} (h : Mintable poseidon2 note eph C)
    (htype : note.1.noteType = noteTypeStandard) :
    mintSelfNote poseidon2 note eph (ofPoint C) = some ⟨(mintedOf poseidon2 note eph C).leaf,
      (mintedOf poseidon2 note eph C).ephPub, (mintedOf poseidon2 note eph C).ciphertext⟩ := by
  unfold Circuit.mintSelfNote
  exact (bind_guard htype _).trans h.selfMint

/-- The checks of the version and the conditions. -/
theorem mintCommon_fields {compliancePk : Point} {m : Minted}
    (h : mintCommon poseidon2 note eph compliancePk = some m) :
    note.1.noteVersion = noteVersion ∧ note.1.conditionsHash = 0 := by
  unfold mintCommon at h
  simp only [bind_eq_some, guard_eq_some, exists_and_left, exists_const] at h
  obtain ⟨_, -, -, hversion, _, -, hconditions, -⟩ := h
  exact ⟨hversion, hconditions⟩

/-- A self note is minted exactly if it is mintable. -/
theorem selfMint_isSome_iff (C : BabyJubJub.subgroup) :
    (selfMint poseidon2 note eph (ofPoint C)).isSome ↔ Mintable poseidon2 note eph C := by
  constructor
  · intro h
    unfold selfMint at h
    obtain ⟨m, hm, h⟩ := isSome_bind.1 h
    obtain ⟨heven, -⟩ := isSome_guard_bind.1 h
    have hminted := mintCommon_eq hm
    obtain ⟨hversion, hconditions⟩ := mintCommon_fields hm
    obtain ⟨C', hC', hcek⟩ := hminted.key
    obtain rfl : C = C' := Subtype.ext (ofPoint_injective hC')
    refine ⟨hminted.scalar, hminted.owner, hversion, hminted.noteType, hconditions, hminted.assetId, ?_, ?_⟩
    · rw [hminted.psi, hcek]
    · rwa [hminted.ephPub] at heven
  · intro h
    rw [h.selfMint]
    rfl

theorem mintDeposit_isSome_iff (C : BabyJubJub.subgroup) :
    (mintDeposit poseidon2 note eph (ofPoint C)).isSome ↔ Mintable poseidon2 note eph C := selfMint_isSome_iff C

theorem mintSelfNote_isSome_iff (C : BabyJubJub.subgroup) :
    (mintSelfNote poseidon2 note eph (ofPoint C)).isSome ↔
      note.1.noteType = noteTypeStandard ∧ Mintable poseidon2 note eph C := by
  unfold mintSelfNote
  rw [isSome_guard_bind, selfMint_isSome_iff]

/-- A point of the subgroup that is not zero is a valid key. -/
theorem assertValidRecipientKey_ofPoint {V : BabyJubJub.subgroup} (hV : V ≠ 0) :
    assertValidRecipientKey (ofPoint V) = some () := by
  have hnew : Point.new (ofPoint (V : BabyJubJub.Point)).x (ofPoint (V : BabyJubJub.Point)).y = some (ofPoint V) :=
    Point.new_ofPoint V
  have hmem : decide (BabyJubJub.InSubgroup (V : BabyJubJub.Point)) = true :=
    decide_eq_true (BabyJubJub.mem_subgroup.1 V.2)
  have hne : ¬ (ofPoint (V : BabyJubJub.Point)).isZero := by
    rw [isZero_ofPoint]
    exact fun h => hV (Subtype.ext h)
  unfold assertValidRecipientKey
  rw [bind_of_some hnew, bind_of_some (checkSubgroup_ofPoint V), bind_guard hmem]
  exact guard_eq_some.2 hne

theorem assertValidCompliancePk_ofPoint {C : BabyJubJub.subgroup} (hC : C ≠ 0) :
    assertValidCompliancePk (ofPoint C) = some () := assertValidRecipientKey_ofPoint hC

/-- The memo of a standard note to a key of the subgroup. -/
theorem Mintable.mintIncomingNote {C V : BabyJubJub.subgroup} (h : Mintable poseidon2 note eph C) (hV : V ≠ 0)
    (heven : isEvenY (ofPoint V)) (htype : note.1.noteType = noteTypeStandard)
    (howner : note.1.owner = pubkeyOwner poseidon2 (ofPoint V)) :
    mintIncomingNote poseidon2 note eph (ofPoint C) (ofPoint V) (ofPoint V) =
      some ⟨(mintedOf poseidon2 note eph C).leaf, (mintedOf poseidon2 note eph C).ephPub, (V : BabyJubJub.Point).x,
        (mintedOf poseidon2 note eph C).cek + poseidon2 [(scaled eph V : BabyJubJub.Point).x],
        (mintedOf poseidon2 note eph C).ciphertext⟩ := by
  have hne : ¬ noteTypeStandard = noteTypeMultisig := by decide +kernel
  have hstd : asField (note.1.noteType = noteTypeStandard) = 1 := if_pos htype
  have hms : asField (note.1.noteType = noteTypeMultisig) = 0 := if_neg (htype ▸ hne)
  have hsame : asField ((ofPoint (V : BabyJubJub.Point)).x = (ofPoint (V : BabyJubJub.Point)).x) = 1 := if_pos rfl
  have hsum : (1 : Fr) + 0 = 1 := add_zero 1
  have hy : (1 : Fr) * ((ofPoint (V : BabyJubJub.Point)).y - (ofPoint (V : BabyJubJub.Point)).y) = 0 := by simp
  have hsubgroup := assertInPrimeSubgroup_ofPoint V (BabyJubJub.mem_subgroup.1 V.2)
  have hnew : Point.new (ofPoint (V : BabyJubJub.Point)).x (ofPoint (V : BabyJubJub.Point)).y = some (ofPoint V) :=
    Point.new_ofPoint V
  have hzero : ¬ (ofPoint (V : BabyJubJub.Point)).isZero := by
    rw [isZero_ofPoint]
    exact fun h => hV (Subtype.ext h)
  have hephEven : isEvenY (mintedOf poseidon2 note eph C).ephPub := h.even
  have hwrap : wrapCek poseidon2 (mintedOf poseidon2 note eph C).cek eph (ofPoint V) =
      some ((mintedOf poseidon2 note eph C).cek + poseidon2 [(scaled eph V : BabyJubJub.Point).x]) := by
    have hshared : deriveSharedKey eph (ofPoint V) = some (scaled eph V : BabyJubJub.Point).x :=
      (deriveSharedKey_eq (val_lt_of_valid h.scalar)).2 ⟨V, rfl, rfl⟩
    have hscalar : assertSubgroupScalar eph = some () := assertSubgroupScalar_eq_some.2 h.scalar
    unfold wrapCek
    rw [bind_of_some hscalar, bind_of_some hshared]
  unfold Circuit.mintIncomingNote
  rw [hstd, hms, hsame, bind_guard hsum, bind_guard rfl, bind_guard hy, bind_of_some hsubgroup, bind_of_some hnew,
    bind_guard hzero, bind_of_some (assertValidRecipientKey_ofPoint hV), bind_guard howner,
    bind_of_some h.mintCommon, bind_guard heven, bind_guard hephEven, bind_of_some hwrap]
  rfl

/-- A memo of a standard note to a key of the subgroup is minted exactly if the note is mintable. -/
theorem mintIncomingNote_isSome_iff (C : BabyJubJub.subgroup) {V : BabyJubJub.subgroup} (hV : V ≠ 0)
    (heven : isEvenY (ofPoint V)) (htype : note.1.noteType = noteTypeStandard)
    (howner : note.1.owner = pubkeyOwner poseidon2 (ofPoint V)) :
    (mintIncomingNote poseidon2 note eph (ofPoint C) (ofPoint V) (ofPoint V)).isSome ↔
      Mintable poseidon2 note eph C := by
  constructor
  · intro h
    obtain ⟨i, hi⟩ := Option.isSome_iff_exists.1 h
    unfold mintIncomingNote at hi
    simp only [bind_eq_some, guard_eq_some, exists_and_left, exists_const] at hi
    obtain ⟨-, -, -, -, _, -, -, -, _, -, -, m, hm, -, hephEven, -⟩ := hi
    refine (selfMint_isSome_iff C).1 ?_
    unfold selfMint
    rw [bind_of_some hm, bind_guard hephEven]
    rfl
  · intro h
    rw [h.mintIncomingNote hV heven htype howner]
    rfl

/-! ## When a circuit accepts -/

/-- A deposit is accepted exactly if its note is mintable and has no parents. -/
theorem depositMain_isSome_iff {C : BabyJubJub.subgroup} (hC : C ≠ 0) :
    (depositMain poseidon2 (C : BabyJubJub.Point).x (C : BabyJubJub.Point).y note eph).isSome ↔
      note.1.parents = 0 ∧ Mintable poseidon2 note eph C := by
  have hkey : assertValidCompliancePk ⟨(C : BabyJubJub.Point).x, (C : BabyJubJub.Point).y⟩ = some () :=
    assertValidCompliancePk_ofPoint hC
  unfold depositMain
  rw [bind_of_some hkey, isSome_guard_bind, isSome_bind]
  refine and_congr_right fun _ => ?_
  rw [← mintDeposit_isSome_iff C, Option.isSome_iff_exists]
  simp only [Option.isSome_some, and_true]
  rfl

theorem addU128_of_lt {n m : ℕ} (h : n + m < 2 ^ 128) : addU128 n m = some (n + m) := if_pos h

/-- One input of the value of the outputs is conserved. -/
theorem assertConserved_one {input output publicOut : U128} (h : input.1 = publicOut.1 + output.1) :
    assertConserved [input] [output] publicOut = some () := by
  have hinput := input.2
  unfold assertConserved
  simp only [List.map_cons, List.map_nil, List.foldlM_cons, List.foldlM_nil]
  rw [addU128_of_lt (by omega), addU128_of_lt (by omega)]
  simp [h, guard]

theorem assertConserved_two {input first second : U128} (h : input.1 = first.1 + second.1) :
    assertConserved [input] [first, second] ⟨0, zero_lt_u128⟩ = some () := by
  have hinput := input.2
  unfold assertConserved
  simp only [List.map_cons, List.map_nil, List.foldlM_cons, List.foldlM_nil]
  rw [addU128_of_lt (by omega), addU128_of_lt (by omega)]
  simp only [Option.bind_eq_bind, Option.bind_some]
  rw [addU128_of_lt (by omega)]
  simp [h, guard]

/-- The scalar of a spend that is verified is valid. -/
theorem validScalar_of_verifySpend {spendScalar leafIndex : Fr} {path : Fin treeDepth → Fr} {out : Fr × Fr}
    (h : verifySpend poseidon poseidon2 note spendScalar leafIndex path = some out) :
    ValidScalar spendScalar ∧ note.1.noteVersion = noteVersion := by
  unfold verifySpend at h
  simp only [bind_eq_some, guard_eq_some, exists_and_left, exists_const] at h
  obtain ⟨_, hscalar, _, -, -, -, h⟩ := h
  unfold spendMembershipNullifier at h
  obtain ⟨hversion, -⟩ := bind_guard_eq_some.1 h
  exact ⟨assertSubgroupScalar_eq_some.1 hscalar, hversion⟩

variable {C : BabyJubJub.subgroup} {oldNote changeNote : Note} {spendScalar leafIndex changeEph : Fr}
  {path : Fin treeDepth → Fr}

/-- What a spend of one note asks of the change: its asset, the value left and its parents. -/
structure ChangeOf (oldNote changeNote : Note) (leafIndex : Fr) (paid : ℕ) : Prop where
  assetId : oldNote.1.assetId = changeNote.1.assetId
  value : oldNote.1.value = paid + changeNote.1.value
  parents : changeNote.1.parents = packParents (asU32 leafIndex) (asU32 0)
  noteType : changeNote.1.noteType = noteTypeStandard

/-- What the transfer of a note with its change makes public, if the spend is verified, the scalars differ, and memo and
change are mintable. -/
theorem transferMain_eq (hC : C ≠ 0) {V : BabyJubJub.subgroup} (hV : V ≠ 0) (heven : isEvenY (ofPoint V))
    {memoNote : Note} {memoEph : Fr} (htype : memoNote.1.noteType = noteTypeStandard)
    (howner : memoNote.1.owner = pubkeyOwner poseidon2 (ofPoint V))
    (hasset : oldNote.1.assetId = memoNote.1.assetId) (hhidden : memoNote.1.parents = parentsHidden)
    (hchange : ChangeOf oldNote changeNote leafIndex memoNote.1.value) {nf root : Fr}
    (hspend : verifySpend poseidon poseidon2 oldNote spendScalar leafIndex path = some (nf, root))
    (hne : memoEph ≠ changeEph) (hmemo : Mintable poseidon2 memoNote memoEph C)
    (hself : Mintable poseidon2 changeNote changeEph C) :
    transferMain poseidon poseidon2 (C : BabyJubJub.Point).x (C : BabyJubJub.Point).y (ofPoint V) (ofPoint V) oldNote
        spendScalar leafIndex path memoNote memoEph changeNote changeEph =
      some (nf, root, (mintedOf poseidon2 memoNote memoEph C).leaf, (mintedOf poseidon2 memoNote memoEph C).ephPub.x,
        (V : BabyJubJub.Point).x,
        (mintedOf poseidon2 memoNote memoEph C).cek + poseidon2 [(scaled memoEph V : BabyJubJub.Point).x],
        (mintedOf poseidon2 memoNote memoEph C).ciphertext, (mintedOf poseidon2 changeNote changeEph C).leaf,
        (mintedOf poseidon2 changeNote changeEph C).ephPub.x,
        (mintedOf poseidon2 changeNote changeEph C).ciphertext) := by
  have hkey : assertValidCompliancePk ⟨(C : BabyJubJub.Point).x, (C : BabyJubJub.Point).y⟩ = some () :=
    assertValidCompliancePk_ofPoint hC
  have hconserved : assertConserved [oldNote.amount] [memoNote.amount, changeNote.amount] ⟨0, zero_lt_u128⟩ = some () :=
    assertConserved_two hchange.value
  have hparents : assertParentsBound changeNote leafIndex 0 = some () := guard_eq_some.2 hchange.parents
  have hm := hmemo.mintIncomingNote hV heven htype howner
  have hc := hself.mintSelfNote hchange.noteType
  have hpoint : ofPoint (C : BabyJubJub.Point) = ⟨(C : BabyJubJub.Point).x, (C : BabyJubJub.Point).y⟩ := rfl
  rw [hpoint] at hm hc
  unfold transferMain
  rw [bind_of_some hkey, bind_of_some hspend]
  dsimp only
  rw [bind_guard hasset, bind_guard hchange.assetId, bind_guard hne, bind_of_some hconserved, bind_guard hhidden,
    bind_of_some hparents, bind_of_some hm, bind_of_some hc]

/-- A transfer of a note with its change is accepted exactly if the spend is verified, the scalars differ, and memo
and change are mintable. -/
theorem transferMain_isSome_iff (hC : C ≠ 0) {V : BabyJubJub.subgroup} (hV : V ≠ 0) (heven : isEvenY (ofPoint V))
    {memoNote : Note} {memoEph : Fr} (htype : memoNote.1.noteType = noteTypeStandard)
    (howner : memoNote.1.owner = pubkeyOwner poseidon2 (ofPoint V)) (hasset : oldNote.1.assetId = memoNote.1.assetId)
    (hhidden : memoNote.1.parents = parentsHidden)
    (hchange : ChangeOf oldNote changeNote leafIndex memoNote.1.value) :
    (transferMain poseidon poseidon2 (C : BabyJubJub.Point).x (C : BabyJubJub.Point).y (ofPoint V) (ofPoint V) oldNote
        spendScalar leafIndex path memoNote memoEph changeNote changeEph).isSome ↔
      (verifySpend poseidon poseidon2 oldNote spendScalar leafIndex path).isSome ∧ memoEph ≠ changeEph ∧
        Mintable poseidon2 memoNote memoEph C ∧ Mintable poseidon2 changeNote changeEph C := by
  constructor
  · have hkey : assertValidCompliancePk ⟨(C : BabyJubJub.Point).x, (C : BabyJubJub.Point).y⟩ = some () :=
      assertValidCompliancePk_ofPoint hC
    have hconserved : assertConserved [oldNote.amount] [memoNote.amount, changeNote.amount] ⟨0, zero_lt_u128⟩ =
        some () := assertConserved_two hchange.value
    have hparents : assertParentsBound changeNote leafIndex 0 = some () := guard_eq_some.2 hchange.parents
    have hmemo := @mintIncomingNote_isSome_iff poseidon2 memoNote memoEph C V hV heven htype howner
    have hself := @mintSelfNote_isSome_iff poseidon2 changeNote changeEph C
    unfold transferMain
    rw [bind_of_some hkey, isSome_bind]
    rintro ⟨⟨nf, root⟩, hspend, h⟩
    dsimp only at h
    rw [bind_guard hasset, bind_guard hchange.assetId, isSome_guard_bind, bind_of_some hconserved, bind_guard hhidden,
      bind_of_some hparents, isSome_bind] at h
    obtain ⟨hne, memo, hm, h⟩ := h
    obtain ⟨change, hc, -⟩ := isSome_bind.1 h
    refine ⟨Option.isSome_iff_exists.2 ⟨_, hspend⟩, hne, ?_, ?_⟩
    · exact hmemo.1 (Option.isSome_iff_exists.2 ⟨memo, hm⟩)
    · exact (hself.1 (Option.isSome_iff_exists.2 ⟨change, hc⟩)).2
  · rintro ⟨hspend, hne, hmintable, hmintable'⟩
    obtain ⟨⟨nf, root⟩, hout⟩ := Option.isSome_iff_exists.1 hspend
    rw [transferMain_eq hC hV heven htype howner hasset hhidden hchange hout hne hmintable hmintable']
    rfl

/-- A withdrawal from a note with its change is accepted exactly if it has a recipient and no intent, the spend is
verified, and the change is mintable. -/
theorem withdrawMain_isSome_iff (hC : C ≠ 0) {withdrawValue : U128} {recipient intentHash : Fr}
    (hchange : ChangeOf oldNote changeNote leafIndex withdrawValue.1) :
    (withdrawMain poseidon poseidon2 withdrawValue recipient intentHash (C : BabyJubJub.Point).x
        (C : BabyJubJub.Point).y oldNote spendScalar leafIndex path changeNote changeEph).isSome ↔
      recipient ≠ 0 ∧ intentHash = 0 ∧ (verifySpend poseidon poseidon2 oldNote spendScalar leafIndex path).isSome ∧
        Mintable poseidon2 changeNote changeEph C := by
  have hkey : assertValidCompliancePk ⟨(C : BabyJubJub.Point).x, (C : BabyJubJub.Point).y⟩ = some () :=
    assertValidCompliancePk_ofPoint hC
  have hconserved : assertConserved [oldNote.amount] [changeNote.amount] withdrawValue = some () :=
    assertConserved_one hchange.value
  have hparents : assertParentsBound changeNote leafIndex 0 = some () := guard_eq_some.2 hchange.parents
  have hself := @mintSelfNote_isSome_iff poseidon2 changeNote changeEph C
  unfold withdrawMain
  rw [bind_of_some hkey, isSome_guard_bind, isSome_guard_bind, isSome_bind]
  constructor
  · rintro ⟨hrecipient, hintent, ⟨nf, root⟩, hspend, h⟩
    dsimp only at h
    rw [bind_guard hchange.assetId, bind_of_some hconserved, bind_of_some hparents, isSome_bind] at h
    obtain ⟨change, hc, -⟩ := h
    exact ⟨hrecipient, hintent, Option.isSome_iff_exists.2 ⟨_, hspend⟩,
      (hself.1 (Option.isSome_iff_exists.2 ⟨change, hc⟩)).2⟩
  · rintro ⟨hrecipient, hintent, hspend, hmintable⟩
    obtain ⟨⟨nf, root⟩, hout⟩ := Option.isSome_iff_exists.1 hspend
    obtain ⟨change, hc⟩ := Option.isSome_iff_exists.1 (hself.2 ⟨hchange.noteType, hmintable⟩)
    have hpoint : ofPoint (C : BabyJubJub.Point) = ⟨(C : BabyJubJub.Point).x, (C : BabyJubJub.Point).y⟩ := rfl
    rw [hpoint] at hc
    refine ⟨hrecipient, hintent, _, hout, ?_⟩
    dsimp only
    rw [bind_guard hchange.assetId, bind_of_some hconserved, bind_of_some hparents, bind_of_some hc]
    rfl

end Kakure.Circuit
