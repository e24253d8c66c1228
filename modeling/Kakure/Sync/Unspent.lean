import Kakure.Sync.Passes

/-!
# What a wallet takes for unspent

A wallet that syncs again and again while the pool goes on: operations insert leaves and spend nullifiers, and each
sync is over all leaves there are.  No sync marks a note as spent.

* `syncAll_spec` — the notes after the last sync;
* `mem_getUnspentNotes` — they are all unspent;
* `unspent_exact_iff` — when that is right.
-/

namespace Kakure.Sync

open Notes Tss Wallet Sdk Lookahead Fallible

variable {lib : Library} {hash : List Fr → Fr} {poseidon : Fr → Fr → Fr → Fr} {skView : Fr} {places : Places}
  {ring : ComplianceKeyRing}

/-! ## Operations -/

/-- What an operation of the pool inserts and spends. -/
structure PoolOperation (hash : List Fr → Fr) where
  leaves : List (PoolNote hash)
  nullifiers : List Fr

def leavesOf (ops : List (PoolOperation hash)) : List (PoolNote hash) := ops.flatMap PoolOperation.leaves

def spentIn (ops : List (PoolOperation hash)) : List Fr := ops.flatMap PoolOperation.nullifiers

/-- Syncs, each over all leaves after some more operations. -/
def syncAll (lib : Library) (hash : List Fr → Fr) (poseidon : Fr → Fr → Fr → Fr) (skView : Fr) (window : ℤ)
    (places : Places) : List (PoolOperation hash) → List (List (PoolOperation hash)) → ScanState →
      Except String ScanState
  | _, [], s => .ok s
  | done, ops :: batches, s => do
    let s ← sync lib hash poseidon skView window (feed places (leavesOf (done ++ ops))) s
    syncAll lib hash poseidon skView window places (done ++ ops) batches s

/-- Without a mirror syncs return. -/
theorem syncAll_ok {window : ℤ} (batches : List (List (PoolOperation hash))) {done : List (PoolOperation hash)} {s : ScanState}
    (hs : s.merkleTree = none) : ∃ s', syncAll lib hash poseidon skView window places done batches s = .ok s' := by
  induction batches generalizing done s with
  | nil => exact ⟨s, rfl⟩
  | cons ops batches ih =>
    obtain ⟨s₁, hs₁, hnone⟩ := @sync_ok lib hash poseidon skView places (leavesOf (done ++ ops)) window _ hs
    obtain ⟨s', hs'⟩ := @ih (done ++ ops) _ hnone
    refine ⟨s', ?_⟩
    rw [syncAll, bind_of_ok hs₁, hs']

theorem leavesOf_append (ops ops' : List (PoolOperation hash)) : leavesOf (ops ++ ops') = leavesOf ops ++ leavesOf ops' :=
  List.flatMap_append

/-! ## More leaves -/

theorem ReadsFrom.append {first : ℕ} {history later : List (PoolNote hash)} {isIncoming : Bool} {index : ℕ}
    {w : WalletNote} (h : ReadsFrom lib hash skView ring first history isIncoming index w) :
    ReadsFrom lib hash skView ring first (history ++ later) isIncoming index w := by
  obtain ⟨k, n, hn, hread⟩ := h
  refine ⟨k, n, ?_, hread⟩
  rw [List.getElem?_append_left (List.getElem?_eq_some_iff.1 hn).1, hn]

theorem Collisions.of_append {history later : List (PoolNote hash)}
    (h : Collisions lib hash skView ring (history ++ later)) : Collisions lib hash skView ring history where
  psi := fun n hn => h.psi n (List.mem_append_left _ hn)
  leaf := fun n hn => h.leaf n (List.mem_append_left _ hn)
  nullifier := fun inc inc' index index' w w' hw hw' => h.nullifier inc inc' index index' w w' hw.append hw'.append

theorem Between.append {history : List (PoolNote hash)} {s : ScanState}
    (h : Between lib hash skView ring history s) (later : List (PoolNote hash)) :
    Between lib hash skView ring (history ++ later) s where
  ringKeys := h.ringKeys
  keys := h.keys
  low := h.low
  notes := fun w hw => by
    obtain ⟨inc, index, hreads⟩ := h.notes w hw
    exact ⟨inc, index, hreads.append⟩

theorem between_cold (ring : ComplianceKeyRing) (tree : Option Sdk.LeanIMT) (history : List (PoolNote hash)) :
    Between lib hash skView ring history (coldState ring tree) where
  ringKeys := rfl
  keys := ⟨Window.exact_empty, Window.exact_empty⟩
  low := ⟨le_refl _, le_refl _⟩
  notes := fun _ hw => absurd hw List.not_mem_nil

/-! ## Syncs -/

/-- The indices of all notes of a wallet are within the reach of a cold sync. -/
def WithinReach (lib : Library) (hash : List Fr → Fr) (skView : Fr) (ring : ComplianceKeyRing) (window : ℤ)
    (history : List (PoolNote hash)) : Prop :=
  ∀ isIncoming index w, ReadsFrom lib hash skView ring 0 history isIncoming index w →
    index < reach (usedBy lib hash skView history isIncoming) window (maxPasses - 1)

/-- After some syncs a wallet has exactly the notes it can read. -/
theorem syncAll_spec (hlib : lib.Lawful) (hreduced : ∀ e ∈ ring.ordered, Reduced e.pk) {window : ℤ}
    {done : List (PoolOperation hash)} {batches : List (List (PoolOperation hash))} (hbatches : batches ≠ [])
    (hcollisions : Collisions lib hash skView ring (leavesOf (done ++ batches.flatten)))
    (hreach : WithinReach lib hash skView ring window (leavesOf (done ++ batches.flatten))) {s s' : ScanState}
    (hbetween : Between lib hash skView ring (leavesOf done) s)
    (h : syncAll lib hash poseidon skView window places done batches s = .ok s') (w : WalletNote) :
    w ∈ s'.utxoRepo.notes ↔ Readable lib hash skView ring (leavesOf (done ++ batches.flatten)) w := by
  induction batches generalizing done s with
  | nil => exact absurd rfl hbatches
  | cons ops batches ih =>
    rw [syncAll] at h
    obtain ⟨s₁, hsync, h⟩ := bind_eq_ok.1 h
    rw [List.flatten_cons, ← List.append_assoc] at hcollisions hreach ⊢
    have hfirst : Collisions lib hash skView ring (leavesOf (done ++ ops)) := by
      rw [leavesOf_append] at hcollisions
      exact hcollisions.of_append
    have hbetween' : Between lib hash skView ring (leavesOf (done ++ ops)) s := by
      rw [leavesOf_append]
      exact hbetween.append _
    obtain ⟨hbetween₁, -, hfound⟩ := sync_warm hlib hfirst hreduced hbetween' hsync
    cases batches with
    | nil =>
      cases h
      rw [List.flatten_nil, List.append_nil] at hreach ⊢
      constructor
      · exact hbetween₁.notes w
      · rintro ⟨inc, index, hreads⟩
        exact hfound w inc index hreads (hreach inc index w hreads)
    | cons ops' batches => exact ih (List.cons_ne_nil _ _) hcollisions hreach hbetween₁ h

/-- No sync marks a note as spent. -/
theorem mem_getUnspentNotes {s : ScanState} {history : List (PoolNote hash)}
    (hnotes : ∀ w, w ∈ s.utxoRepo.notes ↔ Readable lib hash skView ring history w) (w : WalletNote) :
    w ∈ s.utxoRepo.getUnspentNotes ↔ Readable lib hash skView ring history w := by
  unfold UtxoRepository.getUnspentNotes
  rw [List.mem_filter, hnotes, and_iff_left_iff_imp]
  intro hreadable
  rw [hreadable.spent]
  rfl

/-! ## Notes of a wallet -/

/-- A note of a wallet, with the family and the index it is found by, whatever ring opens it. -/
inductive Owned (lib : Library) (hash : List Fr → Fr) (skView : Fr) (i : ℕ) :
    PoolNote hash → Bool → ℕ → WalletNote → Prop
  | self {n : MintedNote hash} {index : ℕ} (hmemo : n.emitted.memo = none)
      (hfirst : First (tagged lib (accountOf hash skView).getSelfEphemeral) n.emitted.ephPub.x index n.eph)
      (hacceptable : Acceptable lib hash (deriveSelfSpendKey hash skView) n.note.1) :
      Owned lib hash skView i (.minted n) false index
        (walletNote hash n.note.1 i (deriveSelfSpendKey hash skView) false index)
  | memo {n : MintedNote hash} {index : ℕ} {key tag cekWrap : Fr} (hmemo : n.emitted.memo = some (tag, cekWrap))
      (hfirst : First (tagged lib (accountOf hash skView).getIncomingKey) tag index key)
      (hstandard : n.note.1.noteType = noteTypeStandard) :
      Owned lib hash skView i (.minted n) true index (walletNote hash n.note.1 i key true index)

/-- A ring opens a leaf: it comes to the minting key of a self note, and is not asked for a memo. -/
def Opened (ring : ComplianceKeyRing) (i : ℕ) : PoolNote hash → Prop
  | .genesis _ => False
  | .minted n => n.emitted.memo = none → Opens ring n.compliancePk (some (i : ℤ))

theorem reads_iff {i : ℕ} {n : PoolNote hash} {isIncoming : Bool} {index : ℕ} {w : WalletNote} :
    Reads lib hash skView ring i n isIncoming index w ↔ Owned lib hash skView i n isIncoming index w ∧ Opened ring i n := by
  constructor
  · intro h
    cases h with
    | self hmemo hfirst hacceptable hopens => exact ⟨.self hmemo hfirst hacceptable, fun _ => hopens⟩
    | memo hmemo hfirst hstandard =>
      refine ⟨.memo hmemo hfirst hstandard, fun hnone => ?_⟩
      rw [hmemo] at hnone
      cases hnone
  · rintro ⟨howned, hopened⟩
    cases howned with
    | self hmemo hfirst hacceptable => exact .self hmemo hfirst hacceptable (hopened hmemo)
    | memo hmemo hfirst hstandard => exact .memo hmemo hfirst hstandard

theorem Owned.leafIndex {i : ℕ} {n : PoolNote hash} {isIncoming : Bool} {index : ℕ} {w : WalletNote}
    (h : Owned lib hash skView i n isIncoming index w) : w.leafIndex = i := by
  cases h <;> rfl

/-- A note of a wallet in some leaves. -/
def OwnedIn (lib : Library) (hash : List Fr → Fr) (skView : Fr) (history : List (PoolNote hash)) (w : WalletNote) :
    Prop :=
  ∃ n isIncoming index, history[w.leafIndex]? = some n ∧ Owned lib hash skView w.leafIndex n isIncoming index w

/-- The leaf of a note is opened. -/
def OpenedIn (ring : ComplianceKeyRing) (history : List (PoolNote hash)) (w : WalletNote) : Prop :=
  ∃ n, history[w.leafIndex]? = some n ∧ Opened ring w.leafIndex n

theorem readable_iff {history : List (PoolNote hash)} {w : WalletNote} :
    Readable lib hash skView ring history w ↔ OwnedIn lib hash skView history w ∧ OpenedIn ring history w := by
  constructor
  · rintro ⟨inc, index, k, n, hn, hread⟩
    rw [Nat.zero_add] at hread
    obtain ⟨howned, hopened⟩ := reads_iff.1 hread
    have hk := howned.leafIndex
    subst hk
    exact ⟨⟨n, inc, index, hn, howned⟩, n, hn, hopened⟩
  · rintro ⟨⟨n, inc, index, hn, howned⟩, n', hn', hopened⟩
    rw [hn] at hn'
    cases hn'
    exact ⟨inc, index, w.leafIndex, n, hn, by rw [Nat.zero_add]; exact reads_iff.2 ⟨howned, hopened⟩⟩

/-- The notes that are taken for unspent are the unspent ones exactly if those that were spent are those that the ring
does not open. -/
theorem unspent_exact_iff {s : ScanState} {history : List (PoolNote hash)} {spent : List Fr}
    (hnotes : ∀ w, w ∈ s.utxoRepo.notes ↔ Readable lib hash skView ring history w) :
    (∀ w, w ∈ s.utxoRepo.getUnspentNotes ↔ OwnedIn lib hash skView history w ∧ w.nullifier ∉ spent) ↔
      ∀ w, OwnedIn lib hash skView history w → (w.nullifier ∈ spent ↔ ¬ OpenedIn ring history w) := by
  simp only [mem_getUnspentNotes hnotes, readable_iff]
  refine forall_congr' fun w => ?_
  tauto

/-- Among the notes that are taken for unspent none is spent exactly if none that the ring opens is. -/
theorem unspent_right_iff {s : ScanState} {history : List (PoolNote hash)} {spent : List Fr} (P : WalletNote → Prop)
    (hnotes : ∀ w, w ∈ s.utxoRepo.notes ↔ Readable lib hash skView ring history w) :
    (∀ w ∈ s.utxoRepo.getUnspentNotes, P w → w.nullifier ∉ spent) ↔
      ∀ w, OwnedIn lib hash skView history w → OpenedIn ring history w → P w → w.nullifier ∉ spent := by
  simp only [mem_getUnspentNotes hnotes, readable_iff, and_imp]

end Kakure.Sync
