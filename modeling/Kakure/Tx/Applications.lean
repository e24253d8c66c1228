import Kakure.Lib.Hex
import Kakure.Tx.Assemble

/-!
# The witnesses of the applications

The inputs that the applications put together themselves: `runDeposit` of the command line, `depositToTreasury` of
`treasuryFlows.ts` and `assembleWithdrawInputs` of `claimFlows.ts`, up to the call of the prover.  The maps are their
numbers; SHA-256 is a parameter.

* `rollDepositEph_ok` — a roll over reservations ends at a point with a tag;
* `runDeposit_satisfies_iff` — the command line takes the first index, whatever its point is;
* `application_satisfies_iff` — when the three maps satisfy their circuits.
-/

namespace Kakure.Tx

open Notes Tss Fallible Wallet Doubles Slices
open Sync hiding newFr

/-! ## Identifiers -/

section Identifiers

variable (sha256 : List UInt8 → Bytes 32)

/-- `assetId`. -/
def assetId (mint : Bytes 32) : List UInt8 :=
  (sha256 (Text.asciiBytes "kakure.asset.v1".toList ++ mint.val)).val.take 20

/-- `recipientField`. -/
def recipientField (destinationTokenAccount : Bytes 32) : List UInt8 :=
  (sha256 (Text.asciiBytes "kakure.recipient.v1".toList ++ destinationTokenAccount.val)).val.set 0 0

end Identifiers

/-! ## Ephemerals -/

/-- The `BigInt` of a base, as the number of a field element. -/
def indexOf (base : Double) : Except String ℕ :=
  match base with
  | .int n => do
    let _ ← newFr n
    return n.toNat
  | _ => .error "The number cannot be converted to a BigInt because it is not an integer"

/-- `multisigOwner`. -/
def multisigOwner (hash : List Fr → Fr) (gpk : Tss.Point) : Except String Fr := do
  let x ← newFr gpk.1
  let y ← newFr gpk.2
  return hash [x, y]

/-- `depositScope`. -/
def depositScope (hash : List Fr → Fr) (v : Fr) (memberId : ℕ) : String :=
  "msSelf:" ++ Hex.toHex (hash [v]).toBytes.val ++ ":" ++ toString memberId

section Applications

variable (lib : Library) (hash : List Fr → Fr) (sha256 : List UInt8 → Bytes 32)

/-- The loop of `multisigDepositEph`: an odd index the store reserves is burned. -/
def rollDepositEph (v : Fr) (memberId : ℕ) (scope : String) : ℕ → CounterStore → Except String Fr × CounterStore
  | 0, counters => (.error ("multisig: no even-y self ephemeral within " ++ toString maxIndexRoll ++
      " reservations for member " ++ toString memberId), counters)
  | left + 1, counters =>
    let reserved := counters.reserve scope (.int 1)
    match reserved.1 with
    | .error e => (.error e, reserved.2)
    | .ok reservation =>
      match indexOf reservation.base with
      | .error e => (.error e, reserved.2)
      | .ok j =>
        let eph := deriveSelfEph hash v memberId j
        if isEvenY (publicKey lib eph) then
          ((reservation.commit reservation.base).map fun _ => eph, reserved.2)
        else rollDepositEph v memberId scope left reserved.2

/-- `multisigDepositEph`, of which the scalar is used. -/
def multisigDepositEph (v : Fr) (memberId : ℕ) (counters : CounterStore) (gpk : Tss.Point) :
    Except String Fr × CounterStore :=
  let rolled := rollDepositEph lib hash v memberId (depositScope hash v memberId) maxIndexRoll counters
  (do
    let eph ← rolled.1
    let _ ← multisigOwner hash gpk
    return eph, rolled.2)

/-! ## Deposits -/

/-- `DEPOSIT_SELF_SCOPE`. -/
def depositSelfScope : String := "kakure.cli.deposit.self"

/-- `runDeposit`, up to the proof. -/
def runDeposit (skView : Fr) (mint : Bytes 32) (amount : ℤ) (compliancePk : Tss.Point) (counters : CounterStore) :
    Except String DepositInputs × CounterStore :=
  let reserved := counters.reserve depositSelfScope (.int 1)
  (do
    let reservation ← reserved.1
    reservation.commit reservation.base
    let index ← indexOf reservation.base
    let eph := deriveSelfEphemeral hash skView index
    let assetIdField ← newFr (beNat (assetId sha256 mint))
    let minted ← mintSelfNote lib hash eph amount (deriveSelfSpendKey hash skView) assetIdField compliancePk 0
    return ⟨compliancePk, minted.note, eph⟩, reserved.2)

/-- `depositToTreasury`, up to the proof. -/
def depositToTreasury (groupViewSecret : ℤ) (depositorMemberId : ℕ) (gpk : Tss.Point) (mint : Bytes 32) (amount : ℤ)
    (compliancePk : Tss.Point) (counters : CounterStore) : Except String DepositInputs × CounterStore :=
  match newFr groupViewSecret with
  | .error e => (.error e, counters)
  | .ok v =>
    let reserved := multisigDepositEph lib hash v depositorMemberId counters gpk
    (do
      let eph ← reserved.1
      let owner ← multisigOwner hash gpk
      let assetIdField ← newFr (beNat (assetId sha256 mint))
      let cek ← deriveCek lib eph compliancePk
      let psi := computePsi hash cek
      let _ ← leafOf hash ⟨1, assetIdField, 1, 0, 0, owner, psi, 0⟩ amount
      return ⟨compliancePk, ⟨1, assetIdField, 1, 0, (amount : Fr), owner, psi, 0⟩, eph⟩, reserved.2)

/-! ## Withdrawals -/

/-- `WitnessSourceError`, by whether its reason is `ROOT_MISMATCH`, and what else is thrown. -/
inductive WitnessError where
  | rootMismatch (message : String)
  | other (message : String)

def WitnessError.message : WitnessError → String
  | rootMismatch message => message
  | other message => message

/-- `retryOnTransientWitnessMismatch`, where the answers of the function are numbered. -/
def retryOnTransientWitnessMismatch {α : Type} (fn : ℕ → Except WitnessError α) (attempts : ℕ) :
    Except String α :=
  match attempts with
  | 0 => .error "undefined"
  | left + 1 =>
    match fn left with
    | .ok a => .ok a
    | .error (.other message) => .error message
    | .error (.rootMismatch message) =>
      if left = 0 then .error message else retryOnTransientWitnessMismatch fn left

/-- `assembleWithdrawInputs`, with the amount. -/
def assembleWithdrawInputs (witnessFor : ℕ → Fr → Except WitnessError MerkleWitness) (skView : Fr)
    (answers : ℕ → Except String ℕ) (commit : Except String Unit) (keyRepo : KeyRepository) (note : WalletNote)
    (compliancePk : Tss.Point) (recipientField32 : List UInt8) : Except String (WithdrawInputs × ℕ) := do
  let w ← retryOnTransientWitnessMismatch (fun attempt => witnessFor attempt note.commitment) 5
  if w.leafIndex ≠ note.leafIndex then
    .error ("withdraw: merkle source placed the note at index " ++ toString w.leafIndex ++ ", scanner has " ++
      toString note.leafIndex)
  else
    let amount := note.note.value
    let reserved ← (keyRepo.nextSelfEphemeral lib (accountOf hash skView) answers commit).1
    let selfSpendScalar := deriveSelfSpendKey hash skView
    let parents ← packParents w.leafIndex 0
    let change ← mintSelfNote lib hash reserved.eph 0 selfSpendScalar note.note.assetId compliancePk parents
    return ({
      withdrawValue := (amount : Fr)
      recipient := (beNat recipientField32 : Fr)
      intentHash := 0
      compliancePk := compliancePk
      oldNote := proverInput note.note
      spendScalar := note.spendScalar
      oldNoteIndex := w.leafIndex
      oldNotePath := w.siblings
      changeNote := change.note
      changeEph := reserved.eph }, amount)

end Applications

/-! ## What the steps have checked -/

variable {lib : Library} {hash : List Fr → Fr} {sha256 : List UInt8 → Bytes 32} {poseidon : Fr → Fr → Fr → Fr}

theorem indexOf_ok {base : Double} {index : ℕ} (h : indexOf base = .ok index) : ∃ n, base = .int n ∧ index = n.toNat := by
  cases base with
  | int n =>
    unfold indexOf at h
    obtain ⟨_, -, h⟩ := Fallible.bind_eq_ok.1 h
    cases h
    exact ⟨n, rfl, rfl⟩
  | _ => cases h

theorem multisigOwner_ok {gpk : Tss.Point} {owner : Fr} (h : multisigOwner hash gpk = .ok owner) :
    owner = pubkeyOwner hash gpk := by
  unfold multisigOwner at h
  obtain ⟨x, hx, h⟩ := Fallible.bind_eq_ok.1 h
  obtain ⟨y, hy, h⟩ := Fallible.bind_eq_ok.1 h
  obtain ⟨-, -, rfl⟩ := newFr_ok hx
  obtain ⟨-, -, rfl⟩ := newFr_ok hy
  cases h
  rfl

/-- An asset id has twenty bytes. -/
theorem newFr_assetId (sha256 : List UInt8 → Bytes 32) (mint : Bytes 32) :
    Tss.newFr (beNat (assetId sha256 mint)) = .ok (beNat (assetId sha256 mint) : Fr) ∧
      (beNat (assetId sha256 mint) : Fr).val < 2 ^ 160 := by
  have hlength : (assetId sha256 mint).length = 20 := by simp [assetId]
  have hbytes := beNat_lt (assetId sha256 mint)
  rw [hlength] at hbytes
  have hlt : beNat (assetId sha256 mint) < bn254ScalarFieldModulus :=
    lt_trans hbytes (by norm_num [bn254ScalarFieldModulus])
  refine ⟨?_, ?_⟩
  · rw [newFr_eq (by positivity) (by exact_mod_cast hlt), Int.cast_natCast]
  · rw [val_natCast_of_lt hlt]
    exact lt_of_lt_of_le hbytes (by norm_num)

theorem assetId_lt {mint : Bytes 32} {assetIdField : Fr}
    (h : Tss.newFr (beNat (assetId sha256 mint)) = .ok assetIdField) : assetIdField.val < 2 ^ 160 := by
  obtain ⟨hfield, hlt⟩ := newFr_assetId sha256 mint
  rw [hfield] at h
  cases h
  exact hlt

/-- A roll over reservations ends at a point with a tag, whatever the store has reserved before. -/
theorem rollDepositEph_ok {v eph : Fr} {memberId left : ℕ} {scope : String} {counters : CounterStore}
    (h : (rollDepositEph lib hash v memberId scope left counters).1 = .ok eph) :
    isEvenY (publicKey lib eph) = true := by
  induction left generalizing counters with
  | zero => cases h
  | succ left ih =>
    unfold rollDepositEph at h
    dsimp only at h
    cases hreserved : (counters.reserve scope (.int 1)).1 with
    | error e => simp [hreserved] at h
    | ok reservation =>
      simp only [hreserved] at h
      cases hindex : indexOf reservation.base with
      | error e => simp [hindex] at h
      | ok j =>
        simp only [hindex] at h
        by_cases heven : isEvenY (publicKey lib (deriveSelfEph hash v memberId j)) = true
        · rw [if_pos heven] at h
          cases hcommit : reservation.commit reservation.base with
          | error e => simp [hcommit, Except.map] at h
          | ok =>
            simp only [hcommit, Except.map, Except.ok.injEq] at h
            rw [← h]
            exact heven
        · rw [if_neg heven] at h
          exact ih h

theorem retry_ok {α : Type} {fn : ℕ → Except WitnessError α} {attempts : ℕ} {a : α}
    (h : retryOnTransientWitnessMismatch fn attempts = .ok a) : ∃ attempt, fn attempt = .ok a := by
  induction attempts with
  | zero => cases h
  | succ left ih =>
    unfold retryOnTransientWitnessMismatch at h
    cases hfn : fn left with
    | ok b =>
      simp only [hfn, Except.ok.injEq] at h
      exact ⟨left, by rw [hfn, h]⟩
    | error e =>
      cases e with
      | other message => simp [hfn] at h
      | rootMismatch message =>
        simp only [hfn] at h
        by_cases hlast : left = 0
        · simp [hlast] at h
        · rw [if_neg hlast] at h
          exact ih h

/-- The repository hands out a scalar whose point has a tag. -/
theorem nextSelfEphemeral_ok {account : Wallet.Account} {answers : ℕ → Except String ℕ} {commit : Except String Unit}
    {r : KeyRepository} {reserved : SelfEphemeral} (h : (r.nextSelfEphemeral lib account answers commit).1 = .ok reserved) :
    isEvenY (publicKey lib reserved.eph) = true := by
  unfold KeyRepository.nextSelfEphemeral at h
  cases hroll : KeyRepository.rollSelf lib account answers 0 maxIndexRoll with
  | error e => simp [hroll] at h
  | ok index =>
    cases commit with
    | error e => simp [hroll] at h
    | ok =>
      simp only [hroll, Except.ok.injEq] at h
      rw [← h]
      exact (rollSelf_eq_ok hroll).1

/-! ## When the maps satisfy the circuits -/

variable {C : BabyJubJub.subgroup} {mint : Bytes 32} {amount : ℤ} {counters : CounterStore}

/-- The deposit of the command line satisfies the circuit exactly if the point at the index it takes has a tag, and the
owner is not zero. -/
theorem runDeposit_satisfies_iff (hlib : lib.Lawful) {skView : Fr} {inputs : DepositInputs}
    (h : (runDeposit lib hash sha256 skView mint amount (coords C) counters).1 = .ok inputs) :
    inputs.Satisfies hash ↔
      (∀ n, counters.mark depositSelfScope = .int n →
        isEvenY (publicKey lib (deriveSelfEphemeral hash skView n.toNat)) = true) ∧
      pubkeyOwner hash (publicKey lib (deriveSelfSpendKey hash skView)) ≠ 0 := by
  unfold runDeposit at h
  obtain ⟨reservation, hreserve, h⟩ := Fallible.bind_eq_ok.1 h
  obtain ⟨_, -, h⟩ := Fallible.bind_eq_ok.1 h
  obtain ⟨index, hindex, h⟩ := Fallible.bind_eq_ok.1 h
  obtain ⟨assetIdField, hasset, h⟩ := Fallible.bind_eq_ok.1 h
  obtain ⟨minted, hminted, h⟩ := Fallible.bind_eq_ok.1 h
  cases h
  have hbase : reservation.base = counters.mark depositSelfScope := by
    unfold CounterStore.reserve at hreserve
    dsimp only at hreserve
    split_ifs at hreserve
    cases hreserve
    rfl
  obtain ⟨n, hn, rfl⟩ := indexOf_ok hindex
  have hmark : counters.mark depositSelfScope = .int n := hbase.symm.trans hn
  rw [(finish_ok hlib hminted).deposit_iff hlib]
  constructor
  · rintro ⟨howner, -, heven⟩
    refine ⟨fun m hm => ?_, howner⟩
    rw [hmark] at hm
    cases hm
    exact heven
  · rintro ⟨heven, howner⟩
    exact ⟨howner, assetId_lt hasset, heven n hmark⟩

/-- The deposit to a treasury satisfies the circuit exactly if the owner is not zero: its scalar is rolled. -/
theorem depositToTreasury_satisfies_iff (hlib : lib.Lawful) {groupViewSecret : ℤ} {depositorMemberId : ℕ}
    {gpk : Tss.Point} {inputs : DepositInputs}
    (h : (depositToTreasury lib hash sha256 groupViewSecret depositorMemberId gpk mint amount (coords C) counters).1 =
      .ok inputs) :
    inputs.Satisfies hash ↔ pubkeyOwner hash gpk ≠ 0 := by
  unfold depositToTreasury at h
  cases hsecret : Tss.newFr groupViewSecret with
  | error e => simp [hsecret] at h
  | ok v =>
    simp only [hsecret] at h
    obtain ⟨eph, heph, h⟩ := Fallible.bind_eq_ok.1 h
    obtain ⟨owner, howner, h⟩ := Fallible.bind_eq_ok.1 h
    obtain ⟨assetIdField, hasset, h⟩ := Fallible.bind_eq_ok.1 h
    obtain ⟨cek, hcek, h⟩ := Fallible.bind_eq_ok.1 h
    obtain ⟨noteLeaf, hleaf, h⟩ := Fallible.bind_eq_ok.1 h
    cases h
    have heven : isEvenY (publicKey lib eph) = true := by
      unfold multisigDepositEph at heph
      obtain ⟨rolled, hrolled, heph⟩ := Fallible.bind_eq_ok.1 heph
      obtain ⟨_, -, heph⟩ := Fallible.bind_eq_ok.1 heph
      cases heph
      exact rollDepositEph_ok hrolled
    have hfinished : FinishedFrom hash eph amount noteTypeMultisig owner assetIdField 0 C
        ⟨noteVersion, assetIdField, noteTypeMultisig, 0, (amount : Fr), owner, computePsi hash cek, 0⟩ :=
      .of_leaf hlib hcek (Or.inr rfl) hleaf
    refine (hfinished.deposit_iff hlib).trans ?_
    rw [multisigOwner_ok howner]
    exact ⟨fun h => h.1, fun h => ⟨h, assetId_lt hasset, heven⟩⟩

/-- The withdrawal of a recovered note satisfies the circuit exactly if its recipient, the scalar, the version and the
owner of the change are right. -/
theorem assembleWithdrawInputs_satisfies_iff (hlib : lib.Lawful)
    {witnessFor : ℕ → Fr → Except WitnessError MerkleWitness}
    (hpaths : ∀ attempt leaf w, witnessFor attempt leaf = .ok w →
      leanImtInclusionProof poseidon leaf (w.leafIndex : Fr) w.siblings = some w.root)
    {skView : Fr} {answers : ℕ → Except String ℕ} {commit : Except String Unit} {keyRepo : KeyRepository}
    {note : WalletNote} (hnote : RecoveredFacts lib hash note) {recipientField32 : List UInt8}
    {inputs : WithdrawInputs} {paid : ℕ}
    (h : assembleWithdrawInputs lib hash witnessFor skView answers commit keyRepo note (coords C) recipientField32 =
      .ok (inputs, paid)) :
    inputs.Satisfies poseidon hash ↔
      (beNat recipientField32 : Fr) ≠ 0 ∧ (note.spendScalar ≠ 0 ∧ note.note.noteVersion = noteVersion) ∧
        pubkeyOwner hash (publicKey lib (deriveSelfSpendKey hash skView)) ≠ 0 := by
  unfold assembleWithdrawInputs at h
  obtain ⟨w, hretry, h⟩ := Fallible.bind_eq_ok.1 h
  by_cases hindex : w.leafIndex ≠ note.leafIndex
  · rw [if_pos hindex] at h
    cases h
  · rw [if_neg hindex] at h
    obtain ⟨reserved, hreserved, h⟩ := Fallible.bind_eq_ok.1 h
    obtain ⟨parents, hparents, h⟩ := Fallible.bind_eq_ok.1 h
    obtain ⟨change, hchange, h⟩ := Fallible.bind_eq_ok.1 h
    cases h
    obtain ⟨attempt, hwitness⟩ := retry_ok hretry
    have hvalue : ((note.note.value : ℕ) : Fr).val = note.note.value :=
      val_natCast_of_lt (lt_trans hnote.range two_pow_128_lt_modulus)
    have hfinished := finish_ok hlib hchange
    have hiff := FinishedFrom.withdraw_iff hlib hnote hfinished (hpaths _ _ _ hwitness) hparents
      (by rw [hvalue, add_zero]) (nextSelfEphemeral_ok hreserved) (beNat recipientField32 : Fr) 0
    refine hiff.trans ?_
    simp

/-- For every account, group, counter store, amount, mint and key of the subgroup: the maps of the deposits satisfy
the circuit exactly if the point at the index the command line takes has a tag and the owners are not zero, and the
map of a withdrawal of a recovered note with true paths exactly if the recipient, the scalar, the version and the
owner of the change are right. -/
theorem application_satisfies_iff (hlib : lib.Lawful) (sha256 : List UInt8 → Bytes 32) (C : BabyJubJub.subgroup)
    {witnessFor : ℕ → Fr → Except WitnessError MerkleWitness}
    (hpaths : ∀ attempt leaf w, witnessFor attempt leaf = .ok w →
      leanImtInclusionProof poseidon leaf (w.leafIndex : Fr) w.siblings = some w.root) :
    (∀ skView mint amount counters inputs,
      (runDeposit lib hash sha256 skView mint amount (coords C) counters).1 = .ok inputs →
        (inputs.Satisfies hash ↔
          (∀ n, counters.mark depositSelfScope = .int n →
            isEvenY (publicKey lib (deriveSelfEphemeral hash skView n.toNat)) = true) ∧
          pubkeyOwner hash (publicKey lib (deriveSelfSpendKey hash skView)) ≠ 0)) ∧
    (∀ groupViewSecret depositorMemberId gpk mint amount counters inputs,
      (depositToTreasury lib hash sha256 groupViewSecret depositorMemberId gpk mint amount (coords C) counters).1 =
          .ok inputs →
        (inputs.Satisfies hash ↔ pubkeyOwner hash gpk ≠ 0)) ∧
    (∀ skView answers commit keyRepo note destination inputs paid, Recovered lib hash skView note →
      assembleWithdrawInputs lib hash witnessFor skView answers commit keyRepo note (coords C)
          (recipientField sha256 destination) = .ok (inputs, paid) →
        (inputs.Satisfies poseidon hash ↔
          (beNat (recipientField sha256 destination) : Fr) ≠ 0 ∧
            (note.spendScalar ≠ 0 ∧ note.note.noteVersion = noteVersion) ∧
              pubkeyOwner hash (publicKey lib (deriveSelfSpendKey hash skView)) ≠ 0)) := by
  refine ⟨?_, ?_, ?_⟩
  · intro skView mint amount counters inputs h
    exact runDeposit_satisfies_iff hlib h
  · intro groupViewSecret depositorMemberId gpk mint amount counters inputs h
    exact depositToTreasury_satisfies_iff hlib h
  · intro skView answers commit keyRepo note destination inputs paid hnote h
    exact assembleWithdrawInputs_satisfies_iff hlib hpaths (recovered_facts hnote) h

/-! ## Maps of one account -/

def sampleSha (_ : List UInt8) : Bytes 32 := ⟨List.replicate 32 1, by simp⟩

/-- A store that reserved nothing. -/
def freshCounters : CounterStore := .new fun _ => none

theorem reserve_fresh (scope : String) :
    (freshCounters.reserve scope (.int 1)).1 = .ok ⟨scope, .int 0, 1⟩ := by
  simp [freshCounters, CounterStore.new, CounterStore.reserve, CounterStore.mark]

theorem commit_fresh (scope : String) : (⟨scope, .int 0, 1⟩ : EphemeralReservation).commit (.int 0) = .ok () := by
  have hadd : Double.add (.int 0) (.int 1) = .int 1 := add_of_le (by norm_num)
  simp [EphemeralReservation.commit, hadd, Double.le]

theorem indexOf_zero : indexOf (.int 0) = .ok 0 := by
  have hzero : Tss.newFr 0 = .ok ((0 : ℤ) : Fr) := newFr_eq le_rfl (by norm_num [bn254ScalarFieldModulus])
  unfold indexOf
  simp [hzero, Bind.bind, Except.bind, Pure.pure, Except.pure]

/-- Under the sample hash every scalar of an account is its view key. -/
theorem kdfDerive_sample (purpose : String) (master : Fr) (nonce : Option Fr) :
    kdfDerive sampleHash purpose master nonce = master := by
  unfold kdfDerive
  cases nonce with
  | none => rfl
  | some n =>
    by_cases hn : n = 0
    · simp [hn, sampleHash]
    · simp [hn, sampleHash]

theorem deriveSelfEphemeral_sample {skView : Fr} (h : ValidScalar skView) (index : ℕ) :
    deriveSelfEphemeral sampleHash skView index = skView := by
  rw [deriveSelfEphemeral, kdfDerive_sample, toBjjScalar_of_lt h.2]

/-- The deposit of an account from a fresh store. -/
theorem exists_runDeposit {skView : Fr} (h : ValidScalar skView) : ∃ inputs,
    (runDeposit Library.reference sampleHash sampleSha skView (sampleSha []) 1 (coords BabyJubJub.base)
      freshCounters).1 = .ok inputs := by
  obtain ⟨p, hp⟩ := @exists_finish Library.reference sampleHash Library.reference_lawful skView h
    BabyJubJub.base BabyJubJub.base_ne_zero 1 (by norm_num) (by norm_num)
    (pubkeyOwner sampleHash (publicKey Library.reference (deriveSelfSpendKey sampleHash skView)))
    (beNat (assetId sampleSha (sampleSha [])) : Fr) (deriveSelfSpendKey sampleHash skView) 0
  unfold runDeposit
  dsimp only
  rw [Fallible.bind_of_ok (reserve_fresh _)]
  dsimp only
  rw [Fallible.bind_of_ok (commit_fresh _), Fallible.bind_of_ok indexOf_zero,
    Fallible.bind_of_ok (newFr_assetId _ _).1, deriveSelfEphemeral_sample h]
  unfold mintSelfNote
  rw [Fallible.bind_of_ok hp]
  exact ⟨_, rfl⟩

/-- The deposit of the account whose scalars are 1, from a fresh store, is handed to the prover and not satisfied. -/
theorem application_fails : ∃ inputs : DepositInputs,
    (runDeposit Library.reference sampleHash sampleSha 1 (sampleSha []) 1 (coords BabyJubJub.base) freshCounters).1 =
      .ok inputs ∧ ¬ inputs.Satisfies sampleHash := by
  have hone : ValidScalar 1 := ⟨one_ne_zero, by decide +kernel⟩
  obtain ⟨inputs, hinputs⟩ := exists_runDeposit hone
  refine ⟨inputs, hinputs, ?_⟩
  rw [runDeposit_satisfies_iff Library.reference_lawful hinputs]
  rintro ⟨heven, -⟩
  have hodd := heven 0 rfl
  rw [deriveSelfEphemeral_sample hone, isEvenY_one] at hodd
  cases hodd

theorem deriveSelfEph_sample (memberId j : ℕ) : deriveSelfEph sampleHash 4 memberId j = 4 := by
  rw [deriveSelfEph, kdfDerive_sample, toBjjScalar_four]

theorem multisigOwner_sample : multisigOwner sampleHash (publicKey Library.reference 4) = .ok sampleX := by
  have hreduced := reduced_coords (Circuit.scaled 4 BabyJubJub.base : BabyJubJub.Point)
  rw [← owner_sample, publicKey_scaled Library.reference_lawful]
  unfold multisigOwner
  rw [Fallible.bind_of_ok (newFr_eq hreduced.1 hreduced.2.1),
    Fallible.bind_of_ok (newFr_eq hreduced.2.2.1 hreduced.2.2.2)]
  rfl

/-- The only member of a group whose key is the point of 4 rolls the scalar 4. -/
theorem multisigDepositEph_sample :
    (multisigDepositEph Library.reference sampleHash 4 1 freshCounters (publicKey Library.reference 4)).1 = .ok 4 := by
  have hrolled : ∀ scope, (rollDepositEph Library.reference sampleHash 4 1 scope maxIndexRoll freshCounters).1 =
      .ok 4 := by
    intro scope
    rw [maxIndexRoll]
    unfold rollDepositEph
    dsimp only
    rw [reserve_fresh]
    dsimp only
    rw [indexOf_zero]
    dsimp only
    rw [deriveSelfEph_sample, if_pos isEvenY_publicKey_four, commit_fresh]
    rfl
  unfold multisigDepositEph
  dsimp only
  rw [Fallible.bind_of_ok (hrolled _), Fallible.bind_of_ok multisigOwner_sample]
  rfl

/-- The deposit of this member. -/
theorem exists_depositToTreasury : ∃ inputs,
    (depositToTreasury Library.reference sampleHash sampleSha 4 1 (publicKey Library.reference 4) (sampleSha []) 1
      (coords BabyJubJub.base) freshCounters).1 = .ok inputs := by
  have hsecret : Tss.newFr 4 = .ok (4 : Fr) := newFr_eq (by norm_num) (by norm_num [bn254ScalarFieldModulus])
  have hleaf : ∀ note, ∃ x, leafOf sampleHash note 1 = .ok x := by
    intro note
    rw [leafOf, if_neg (by norm_num)]
    exact ⟨_, leaf_ok (by norm_num)⟩
  unfold depositToTreasury
  rw [hsecret]
  dsimp only
  rw [Fallible.bind_of_ok multisigDepositEph_sample, Fallible.bind_of_ok multisigOwner_sample,
    Fallible.bind_of_ok (newFr_assetId _ _).1,
    Fallible.bind_of_ok (deriveCek_coords Library.reference_lawful validScalar_four BabyJubJub.base_ne_zero)]
  obtain ⟨x, hx⟩ := hleaf ⟨1, (beNat (assetId sampleSha (sampleSha [])) : Fr), 1, 0, 0, sampleX,
    computePsi sampleHash (Circuit.scaled 4 BabyJubJub.base : BabyJubJub.Point).x, 0⟩
  exact ⟨_, Fallible.bind_of_ok hx _⟩

/-- A source with one leaf. -/
def sampleWitness (_ : ℕ) (leaf : Fr) : Except WitnessError MerkleWitness := .ok ⟨0, fun _ => 0, leaf⟩

/-- The withdrawal of the sample wallet's note. -/
theorem exists_assembleWithdrawInputs {w : WalletNote} (hindex : w.leafIndex = 0) : ∃ inputs paid,
    assembleWithdrawInputs Library.reference sampleHash sampleWitness 4 (fun _ => .ok 0) (.ok ()) .new w
      (coords BabyJubJub.base) (recipientField sampleSha (sampleSha [])) = .ok (inputs, paid) := by
  have hroll : KeyRepository.rollSelf Library.reference (accountOf sampleHash 4) (fun _ => .ok 0) 0 maxIndexRoll =
      .ok 0 := by
    rw [maxIndexRoll, KeyRepository.rollSelf]
    dsimp only
    rw [selfEphemeral_sample, if_pos isEvenY_publicKey_four]
  have hnext : ∃ reserved, (KeyRepository.new.nextSelfEphemeral Library.reference (accountOf sampleHash 4)
      (fun _ => .ok 0) (.ok ())).1 = .ok reserved ∧ reserved.eph = 4 := by
    unfold KeyRepository.nextSelfEphemeral
    rw [hroll]
    exact ⟨_, rfl, selfEphemeral_sample 0⟩
  obtain ⟨reserved, hreserved, heph⟩ := hnext
  obtain ⟨p, hp⟩ := @exists_finish Library.reference sampleHash Library.reference_lawful 4 validScalar_four
    BabyJubJub.base BabyJubJub.base_ne_zero 0 (by norm_num) (by norm_num)
    (pubkeyOwner sampleHash (publicKey Library.reference (deriveSelfSpendKey sampleHash 4))) w.note.assetId
    (deriveSelfSpendKey sampleHash 4) 0
  have hretry : retryOnTransientWitnessMismatch (fun attempt => sampleWitness attempt w.commitment) 5 =
      .ok ⟨0, fun _ => 0, w.commitment⟩ := rfl
  have hparents : packParents 0 0 = .ok 0 := rfl
  unfold assembleWithdrawInputs
  rw [Fallible.bind_of_ok hretry, if_neg (by simp [hindex])]
  dsimp only
  rw [Fallible.bind_of_ok hreserved, heph, Fallible.bind_of_ok hparents]
  unfold mintSelfNote
  rw [Fallible.bind_of_ok hp]
  exact ⟨_, _, rfl⟩

/-- Two deposits and a withdrawal that satisfy their circuits. -/
theorem application_satisfies_iff_sample : ∃ (deposit treasury : DepositInputs) (withdraw : WithdrawInputs),
    deposit.Satisfies sampleHash ∧ treasury.Satisfies sampleHash ∧
      withdraw.Satisfies (fun _ _ _ => 0) sampleHash := by
  have hpaths : ∀ attempt leaf w, sampleWitness attempt leaf = .ok w →
      leanImtInclusionProof (fun _ _ _ => 0) leaf (w.leafIndex : Fr) w.siblings = some w.root := by
    intro attempt leaf w hw
    cases hw
    dsimp only
    rw [Nat.cast_zero]
    exact inclusion_zero _ _
  have hiff := @application_satisfies_iff Library.reference sampleHash (fun _ _ _ => 0) Library.reference_lawful
    sampleSha BabyJubJub.base sampleWitness hpaths
  obtain ⟨w, hrecovered, hnote, hindex, hscalar⟩ := recovered_sample
  obtain ⟨deposit, hdeposit⟩ := exists_runDeposit validScalar_four
  obtain ⟨treasury, htreasury⟩ := exists_depositToTreasury
  obtain ⟨withdraw, paid, hwithdraw⟩ := @exists_assembleWithdrawInputs w hindex
  have howner : pubkeyOwner sampleHash (publicKey Library.reference 4) ≠ 0 := by
    rw [owner_sample]
    exact sampleX_ne_zero
  have hspend : deriveSelfSpendKey sampleHash 4 = 4 := toBjjScalar_four
  refine ⟨deposit, treasury, withdraw, (hiff.1 _ _ _ _ _ hdeposit).2 ⟨?_, by rwa [hspend]⟩,
    (hiff.2.1 _ _ _ _ _ _ _ htreasury).2 howner,
    (hiff.2.2 _ _ _ _ _ _ _ _ hrecovered hwithdraw).2 ⟨?_, ⟨?_, ?_⟩, by rwa [hspend]⟩⟩
  · intro n _
    rw [deriveSelfEphemeral_sample validScalar_four]
    exact isEvenY_publicKey_four
  · decide +kernel
  · rw [hscalar]
    exact validScalar_four.1
  · rw [hnote]
    rfl

end Kakure.Tx
