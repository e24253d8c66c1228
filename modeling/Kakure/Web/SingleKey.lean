import Kakure.Sync.ColdScan
import Kakure.Sync.Unspent
import Kakure.Web.ComplianceRing

/-!
# Single-key wallets of the web application

`findClaimableNotes` of `lib/claimFlows.ts` and `scanSingleKey` of `lib/singleKeyScan.ts`, each a cold sync with the
ring of the web application.  The repositories of `lib/scanOnlyRepositories.ts` are those of the SDK for what a sync
asks of them.

* `scanSingleKey_balances` — the balances are totals of the notes;
* `unspent_iff` — when the notes that are taken for unspent are the unspent ones;
* `spent_note_kept` — a spent note is one of them.
-/

namespace Kakure.Web

open Notes Tss Sdk Sync Numerals Fallible Indexer

/-- `AssetBalance`. -/
structure AssetBalance where
  assetId : String
  total : ℕ

/-- `SingleKeyScanResult`. -/
structure SingleKeyScanResult where
  notes : List WalletNote
  balances : List AssetBalance

/-- The range of leaves of a claim link. -/
structure LeafRange where
  fromLeaf : ℤ
  toLeaf : ℤ

/-- A leaf is in a range. -/
def LeafRange.Has (range : LeafRange) (w : WalletNote) : Prop :=
  range.fromLeaf ≤ w.leafIndex ∧ (w.leafIndex : ℤ) < range.toLeaf

instance (range : LeafRange) (w : WalletNote) : Decidable (range.Has w) := inferInstanceAs (Decidable (_ ∧ _))

/-- `toHexAssetId`. -/
def toHexAssetId (assetId : Fr) : String := String.ofList ('0' :: 'x' :: padStart 40 (numeral 16 assetId.val))

section Scan

variable (lib : Library) (hash : List Fr → Fr) (poseidon : Fr → Fr → Fr → Fr)

/-- `findClaimableNotes`, of what the indexer and the account answer. -/
def findClaimableNotes (skView : Fr) (leafRange : LeafRange) (res : ComplianceAnswer)
    (fallback : Option (Option (List UInt8))) (served : List IndexerNoteInserted) :
    Except String (List WalletNote × Wallet.KeyRepository) := do
  let compliance ← fetchComplianceRing res fallback
  let s ← sync lib hash poseidon skView scanWindow served (coldState compliance none)
  let notes := (s.utxoRepo.getUnspentNotes.filter fun n => leafRange.Has n).mergeSort fun a b => a.leafIndex ≤ b.leafIndex
  return (notes, s.keyRepo)

/-- The view key of `scanSingleKey`. -/
def readViewKey (viewKeyHex : String) : Except String Fr := do
  let value ← hexToBigInt viewKeyHex
  Sync.newFr value

/-- `scanSingleKey`, of what the indexer answers. -/
def scanSingleKey (viewKeyHex : String) (res : ComplianceAnswer) (fallback : Option (Option (List UInt8)))
    (served : List IndexerNoteInserted) : Except String SingleKeyScanResult := do
  let viewKey ← readViewKey viewKeyHex
  let compliance ← fetchComplianceRing res fallback
  let s ← sync lib hash poseidon viewKey scanWindow served (coldState compliance none)
  let notes := s.utxoRepo.getAllNotes
  let totals := Keyed.tally (fun n : WalletNote => toHexAssetId n.note.assetId) (fun n => n.note.value)
    (notes.filter fun n => !n.spent)
  return ⟨notes, totals.map fun t => ⟨t.1, t.2⟩⟩

end Scan

/-- The balance of an asset, of none zero. -/
def balanceOf (balances : List AssetBalance) (assetId : String) : ℕ :=
  Keyed.totalOf (balances.map fun b => (b.assetId, b.total)) assetId

/-! ## Balances -/

theorem toHexAssetId_injective : Function.Injective toHexAssetId := by
  intro a b h
  unfold toHexAssetId at h
  have htext := congrArg String.toList h
  rw [String.toList_ofList, String.toList_ofList] at htext
  exact ZMod.val_injective _ (padStart_injective 40 (List.cons_injective (List.cons_injective htext)))

variable {lib : Library} {hash : List Fr → Fr} {poseidon : Fr → Fr → Fr → Fr}

/-- The steps of a scan. -/
theorem scanSingleKey_ok {viewKeyHex : String} {res : ComplianceAnswer} {fallback : Option (Option (List UInt8))}
    {served : List IndexerNoteInserted} {r : SingleKeyScanResult}
    (h : scanSingleKey lib hash poseidon viewKeyHex res fallback served = .ok r) :
    ∃ viewKey ring s, readViewKey viewKeyHex = .ok viewKey ∧ fetchComplianceRing res fallback = .ok ring ∧
      sync lib hash poseidon viewKey scanWindow served (coldState ring none) = .ok s ∧
      r.notes = s.utxoRepo.notes ∧
      ∀ assetId, balanceOf r.balances (toHexAssetId assetId) =
        ((r.notes.filter fun n => !n.spent && decide (n.note.assetId = assetId)).map fun n => n.note.value).sum := by
  unfold scanSingleKey at h
  obtain ⟨viewKey, hkey, h⟩ := bind_eq_ok.1 h
  obtain ⟨ring, hring, h⟩ := bind_eq_ok.1 h
  obtain ⟨s, hs, h⟩ := bind_eq_ok.1 h
  cases h
  refine ⟨viewKey, ring, s, hkey, hring, hs, rfl, ?_⟩
  intro assetId
  unfold balanceOf
  simp only [List.map_map, Function.comp_def, Prod.mk.eta, List.map_id', Keyed.totalOf_tally, List.filter_filter,
    toHexAssetId_injective.eq_iff, Bool.and_comm]

/-- What a scan counts of an asset is what is unspent of it exactly if nothing that it counts is spent. -/
theorem balance_right_iff {r : SingleKeyScanResult} {history : List (PoolNote hash)} {skView : Fr}
    {ring : ComplianceKeyRing} (hnotes : ∀ w, w ∈ r.notes ↔ Readable lib hash skView ring history w) {assetId : Fr}
    (hbalance : balanceOf r.balances (toHexAssetId assetId) =
      ((r.notes.filter fun n => !n.spent && decide (n.note.assetId = assetId)).map fun n => n.note.value).sum)
    (spent : List Fr) :
    balanceOf r.balances (toHexAssetId assetId) =
        ((r.notes.filter fun w => decide (w.note.assetId = assetId) && decide (w.nullifier ∉ spent)).map
          fun w => w.note.value).sum ↔
      ∀ w, OwnedIn lib hash skView history w → OpenedIn ring history w → w.note.assetId = assetId →
        w.nullifier ∈ spent → w.note.value = 0 := by
  have hflags : (r.notes.filter fun n => !n.spent && decide (n.note.assetId = assetId)) =
      r.notes.filter fun n => decide (n.note.assetId = assetId) := by
    refine List.filter_congr fun w hw => ?_
    rw [((hnotes w).1 hw).spent]
    rfl
  rw [hbalance, hflags, Keyed.sum_filter_eq_iff]
  simp only [hnotes, readable_iff, decide_eq_true_eq, decide_eq_false_iff_not, not_not, and_imp]

/-! ## Spent notes -/

variable {skView : Fr} {places : Places} {ring : ComplianceKeyRing}

/-- A cold sync has exactly the notes that can be read, if their indices are within reach. -/
theorem cold_notes (hlib : lib.Lawful) {window : ℤ} {history : List (PoolNote hash)}
    (hcollisions : Collisions lib hash skView ring history) (hreduced : ∀ e ∈ ring.ordered, Reduced e.pk)
    (hreach : WithinReach lib hash skView ring window history) {tree : Option Sdk.LeanIMT} {s : ScanState}
    (h : sync lib hash poseidon skView window (feed places history) (coldState ring tree) = .ok s) (w : WalletNote) :
    w ∈ s.utxoRepo.notes ↔ Readable lib hash skView ring history w := by
  rw [sync_cold hlib hcollisions hreduced h]
  constructor
  · rintro ⟨inc, index, hreads, -⟩
    exact ⟨inc, index, hreads⟩
  · rintro ⟨inc, index, hreads⟩
    exact ⟨inc, index, hreads, hreach inc index w hreads⟩

/-- The notes that are taken for unspent are the unspent ones exactly if those that were spent are those that the ring
does not open; the notes to claim and the balances are right exactly if none that it opens was spent. -/
theorem unspent_iff (hlib : lib.Lawful) (hreduced : ∀ e ∈ ring.ordered, Reduced e.pk) {window : ℤ}
    {batches : List (List (PoolOperation hash))} (hbatches : batches ≠ [])
    (hcollisions : Collisions lib hash skView ring (leavesOf batches.flatten))
    (hreach : WithinReach lib hash skView ring window (leavesOf batches.flatten)) {tree : Option Sdk.LeanIMT}
    {s : ScanState}
    (h : syncAll lib hash poseidon skView window places [] batches (coldState ring tree) = .ok s) :
    ((∀ w, w ∈ s.utxoRepo.getUnspentNotes ↔
        OwnedIn lib hash skView (leavesOf batches.flatten) w ∧ w.nullifier ∉ spentIn batches.flatten) ↔
      ∀ w, OwnedIn lib hash skView (leavesOf batches.flatten) w →
        (w.nullifier ∈ spentIn batches.flatten ↔ ¬ OpenedIn ring (leavesOf batches.flatten) w)) ∧
    ∀ res fallback, fetchComplianceRing res fallback = .ok ring →
      WithinReach lib hash skView ring scanWindow (leavesOf batches.flatten) →
      (∀ leafRange r, findClaimableNotes lib hash poseidon skView leafRange res fallback
          (feed places (leavesOf batches.flatten)) = .ok r →
        ((∀ w ∈ r.1, w.nullifier ∉ spentIn batches.flatten) ↔
          ∀ w, OwnedIn lib hash skView (leavesOf batches.flatten) w →
            OpenedIn ring (leavesOf batches.flatten) w → leafRange.Has w → w.nullifier ∉ spentIn batches.flatten)) ∧
      ∀ viewKeyHex r, readViewKey viewKeyHex = .ok skView →
        scanSingleKey lib hash poseidon viewKeyHex res fallback (feed places (leavesOf batches.flatten)) = .ok r →
        ∀ assetId, (balanceOf r.balances (toHexAssetId assetId) =
            ((r.notes.filter fun w => decide (w.note.assetId = assetId) &&
              decide (w.nullifier ∉ spentIn batches.flatten)).map fun w => w.note.value).sum ↔
          ∀ w, OwnedIn lib hash skView (leavesOf batches.flatten) w →
            OpenedIn ring (leavesOf batches.flatten) w → w.note.assetId = assetId →
              w.nullifier ∈ spentIn batches.flatten → w.note.value = 0) := by
  refine ⟨?_, ?_⟩
  · exact unspent_exact_iff (syncAll_spec hlib hreduced hbatches hcollisions hreach (between_cold ring tree _) h)
  · intro res fallback hring hreach'
    refine ⟨?_, ?_⟩
    · intro leafRange r hr
      unfold findClaimableNotes at hr
      rw [bind_of_ok hring] at hr
      obtain ⟨s', hs', hr⟩ := bind_eq_ok.1 hr
      cases hr
      rw [← unspent_right_iff leafRange.Has (cold_notes hlib hcollisions hreduced hreach' hs')]
      simp only [List.mem_mergeSort, List.mem_filter, decide_eq_true_eq, and_imp]
    · intro viewKeyHex r hkey hr assetId
      obtain ⟨viewKey, ring', s', hkey', hring', hs', hnotes, hbalance⟩ := scanSingleKey_ok hr
      rw [hkey] at hkey'
      cases hkey'
      rw [hring] at hring'
      cases hring'
      refine balance_right_iff (fun w => ?_) (hbalance assetId) _
      rw [hnotes]
      exact cold_notes hlib hcollisions hreduced hreach' hs' w

/-! ## A spent note -/

/-- A note of the wallet is minted and spent. -/
def spentOperations : List (List (PoolOperation ladderHash)) := [[⟨ladderHistory 1, []⟩, ⟨[], [ladderX 0]⟩]]

theorem withinReach_ladder {count : ℕ} (hcount : count ≤ 64) :
    WithinReach Library.reference ladderHash 4 ladderRing scanWindow (ladderHistory count) := fun _ _ _ hreads =>
  lt_reach_ladder hcount hreads

/-- A sync returns the note, which was spent. -/
theorem spent_note_kept :
    Collisions Library.reference ladderHash 4 ladderRing (leavesOf spentOperations.flatten) ∧
      WithinReach Library.reference ladderHash 4 ladderRing scanWindow (leavesOf spentOperations.flatten) ∧
      (∀ w, OwnedIn Library.reference ladderHash 4 (leavesOf spentOperations.flatten) w →
        OpenedIn ladderRing (leavesOf spentOperations.flatten) w) ∧
      ∃ s, syncAll Library.reference ladderHash (fun _ _ _ => 0) 4 scanWindow
          ⟨fun _ => 0, fun _ => Slices.Bytes.zero 32⟩ [] spentOperations (coldState ladderRing none) = .ok s ∧
        ∃ w ∈ s.utxoRepo.getUnspentNotes, w.nullifier ∈ spentIn spentOperations.flatten := by
  have hleaves : leavesOf spentOperations.flatten = ladderHistory 1 := rfl
  rw [hleaves]
  obtain ⟨s, hs, -⟩ := @sync_ok Library.reference ladderHash (fun _ _ _ => 0) 4
    ⟨fun _ => 0, fun _ => Slices.Bytes.zero 32⟩ (ladderHistory 1) scanWindow (coldState ladderRing none) rfl
  refine ⟨collisions_ladder (by norm_num), withinReach_ladder (by norm_num), ?_, s, ?_, ?_⟩
  · rintro w ⟨n, inc, index, hn, howned⟩
    obtain ⟨hk, rfl⟩ := getElem?_ladder.1 hn
    exact ⟨_, hn, fun _ => opens_ladder _⟩
  · unfold spentOperations
    rw [syncAll]
    exact bind_of_ok hs _
  · have hreads := readsFrom_ladder (show 1 ≤ 65 by norm_num) (Nat.zero_lt_one)
    have hnotes := cold_notes Library.reference_lawful (collisions_ladder (show 1 ≤ 65 by norm_num)) reduced_ladder
      (withinReach_ladder (by norm_num)) hs
    refine ⟨_, (mem_getUnspentNotes hnotes _).2 ⟨false, _, hreads⟩, ?_⟩
    exact List.mem_singleton_self _

/-- Two notes of the wallet, then a third one, and someone else spends. -/
def unspentOperations : List (List (PoolOperation ladderHash)) :=
  [[⟨ladderHistory 2, []⟩], [⟨[.minted (ladderMinted 2)], []⟩, ⟨[], [ladderX 64]⟩]]

/-- The nullifier of a note of the wallet is its key. -/
theorem nullifier_ladder {k i index : ℕ} {isIncoming : Bool} {w : WalletNote}
    (h : Owned Library.reference ladderHash 4 i (.minted (ladderMinted k)) isIncoming index w) : w.nullifier = ladderX k := by
  cases h with
  | self => rfl
  | memo hmemo => cases hmemo

/-- After both syncs the wallet has all three notes, and all is right. -/
theorem unspent_iff_ladder : ∃ s, syncAll Library.reference ladderHash (fun _ _ _ => 0) 4 scanWindow
      ⟨fun _ => 0, fun _ => Slices.Bytes.zero 32⟩ [] unspentOperations (coldState ladderRing none) = .ok s ∧
    (∀ w, w ∈ s.utxoRepo.getUnspentNotes ↔
      OwnedIn Library.reference ladderHash 4 (leavesOf unspentOperations.flatten) w ∧
        w.nullifier ∉ spentIn unspentOperations.flatten) ∧
    ∀ k < 3, walletNote ladderHash (ladderNote k).1 k (deriveSelfSpendKey ladderHash 4) false (20 * k + 19) ∈
      s.utxoRepo.getUnspentNotes := by
  have hleaves : leavesOf unspentOperations.flatten = ladderHistory 3 := rfl
  obtain ⟨s, hs⟩ := @syncAll_ok Library.reference ladderHash (fun _ _ _ => 0) 4
    ⟨fun _ => 0, fun _ => Slices.Bytes.zero 32⟩ scanWindow unspentOperations [] (coldState ladderRing none) rfl
  have hother : ∀ w, OwnedIn Library.reference ladderHash 4 (ladderHistory 3) w →
      w.nullifier ∉ spentIn unspentOperations.flatten ∧ OpenedIn ladderRing (ladderHistory 3) w := by
    rintro w ⟨n, inc, index, hn, howned⟩
    obtain ⟨hk, rfl⟩ := getElem?_ladder.1 hn
    refine ⟨?_, _, hn, fun _ => opens_ladder _⟩
    rw [nullifier_ladder howned]
    intro hspent
    have heq := ladderX_injective (by omega) (List.mem_singleton.1 hspent)
    omega
  have hunspent := (unspent_iff Library.reference_lawful reduced_ladder (List.cons_ne_nil _ _)
    (collisions_ladder (show 3 ≤ 65 by norm_num)) (withinReach_ladder (show 3 ≤ 64 by norm_num)) hs).1.2
      fun w howned => iff_of_false (hother w howned).1 (not_not.2 (hother w howned).2)
  refine ⟨s, hs, hunspent, fun k hk => (hunspent _).2 ?_⟩
  have howned := (readable_iff.1 ⟨false, _, readsFrom_ladder (show 3 ≤ 65 by norm_num) hk⟩).1
  exact ⟨howned, (hother _ howned).1⟩

end Kakure.Web
