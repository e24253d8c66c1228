import Kakure.Sync.History
import Kakure.Sync.ScanEngine

/-!
# Passes over a history

What a sync over the notes of the indexer leaves in the repositories: the notes that were there, and every note
that is read with the tags that were registered when its last pass began.

* `scanOnce_spec` — one pass;
* `scanLoop_spec` — the passes of a sync;
* `sync_cold`, `sync_warm` — the tags that are registered in the last one, from nothing and from anything.
-/

namespace Kakure.Sync

open Notes Tss Wallet Sdk Lookahead Slices Hex Indexer Fallible

variable {lib : Library} {hash : List Fr → Fr}

/-! ## Feeds -/

/-- The slot and the root a leaf was inserted with. -/
structure Places where
  slot : ℕ → ℕ
  root : ℕ → Bytes 32

/-- What the indexer lists of some leaves from an index on. -/
def feedFrom (places : Places) : ℕ → List (PoolNote hash) → List IndexerNoteInserted
  | _, [] => []
  | i, n :: history =>
    serveNote (noteRow (places.slot i) (n.noteInserted i (places.root i))) :: feedFrom places (i + 1) history

/-- What the indexer lists of a history. -/
def feed (places : Places) (history : List (PoolNote hash)) : List IndexerNoteInserted := feedFrom places 0 history

def selfTags (history : List (PoolNote hash)) : List Fr := history.filterMap PoolNote.selfTag

def memoTags (history : List (PoolNote hash)) : List Fr := history.filterMap PoolNote.memoTag

/-- A note that a wallet can read from some leaves that start at an index, with the family and the index it is read
by. -/
def ReadsFrom (lib : Library) (hash : List Fr → Fr) (skView : Fr) (ring : ComplianceKeyRing) (first : ℕ)
    (history : List (PoolNote hash)) (isIncoming : Bool) (index : ℕ) (w : WalletNote) : Prop :=
  ∃ k n, history[k]? = some n ∧ Reads lib hash skView ring (first + k) n isIncoming index w

/-! ## The notes -/

/-- A note that is read is fresh, and carries the index of its leaf. -/
theorem Reads.fields {skView : Fr} {ring : ComplianceKeyRing} {i : ℕ} {n : PoolNote hash} {isIncoming : Bool}
    {index : ℕ} {w : WalletNote} (h : Reads lib hash skView ring i n isIncoming index w) :
    w.leafIndex = i ∧ w.spent = false ∧ w.nullifier = computeNullifier hash w.note.psi i := by
  cases h <;> exact ⟨rfl, rfl, rfl⟩

/-- It also carries the family and the index it was read by. -/
theorem Reads.index_eq {skView : Fr} {ring : ComplianceKeyRing} {i : ℕ} {n : PoolNote hash} {isIncoming : Bool}
    {index : ℕ} {w : WalletNote} (h : Reads lib hash skView ring i n isIncoming index w) :
    w.isIncoming = isIncoming ∧ w.derivationIndex = index := by
  cases h <;> exact ⟨rfl, rfl⟩

/-- A leaf is read as one note. -/
theorem Reads.unique {skView : Fr} {ring : ComplianceKeyRing} {i : ℕ} {n : PoolNote hash} {inc inc' : Bool}
    {index index' : ℕ} {w w' : WalletNote} (h : Reads lib hash skView ring i n inc index w)
    (h' : Reads lib hash skView ring i n inc' index' w') : w = w' := by
  cases h with
  | self hmemo hfirst =>
    cases h' with
    | self hmemo' hfirst' =>
      obtain rfl := hfirst.index_eq hfirst'
      rfl
    | memo hmemo' =>
      rw [hmemo] at hmemo'
      cases hmemo'
  | memo hmemo hfirst =>
    cases h' with
    | self hmemo' =>
      rw [hmemo] at hmemo'
      cases hmemo'
    | memo hmemo' hfirst' =>
      rw [hmemo] at hmemo'
      cases hmemo'
      obtain rfl := hfirst.index_eq hfirst'
      have hkeys := hfirst.has.symm.trans hfirst'.has
      cases hkeys
      rfl

/-- No two notes that a wallet can read have one nullifier. -/
def NullifiersDiffer (lib : Library) (hash : List Fr → Fr) (skView : Fr) (ring : ComplianceKeyRing)
    (history : List (PoolNote hash)) : Prop :=
  ∀ inc inc' index index' w w', ReadsFrom lib hash skView ring 0 history inc index w →
    ReadsFrom lib hash skView ring 0 history inc' index' w' → w.nullifier = w'.nullifier → w.leafIndex = w'.leafIndex

/-- A note that a wallet can read from a history. -/
def Readable (lib : Library) (hash : List Fr → Fr) (skView : Fr) (ring : ComplianceKeyRing)
    (history : List (PoolNote hash)) (w : WalletNote) : Prop :=
  ∃ isIncoming index, ReadsFrom lib hash skView ring 0 history isIncoming index w

theorem Readable.eq {skView : Fr} {ring : ComplianceKeyRing} {history : List (PoolNote hash)}
    (hdiffer : NullifiersDiffer lib hash skView ring history) {w w' : WalletNote}
    (h : Readable lib hash skView ring history w) (h' : Readable lib hash skView ring history w')
    (hnullifier : w.nullifier = w'.nullifier) : w = w' := by
  obtain ⟨inc, index, hreads⟩ := h
  obtain ⟨inc', index', hreads'⟩ := h'
  have hindex := hdiffer _ _ _ _ _ _ hreads hreads' hnullifier
  obtain ⟨k, n, hn, hread⟩ := hreads
  obtain ⟨k', n', hn', hread'⟩ := hreads'
  rw [hread.fields.1, hread'.fields.1, Nat.zero_add, Nat.zero_add] at hindex
  subst hindex
  rw [hn] at hn'
  cases hn'
  exact hread.unique hread'

theorem Readable.spent {skView : Fr} {ring : ComplianceKeyRing} {history : List (PoolNote hash)} {w : WalletNote}
    (h : Readable lib hash skView ring history w) : w.spent = false := by
  obtain ⟨_, _, _, _, _, hread⟩ := h
  exact hread.fields.2.1

/-- Among readable notes, adding one adds it. -/
theorem mem_addNote {skView : Fr} {ring : ComplianceKeyRing} {history : List (PoolNote hash)}
    (hdiffer : NullifiersDiffer lib hash skView ring history) {u : UtxoRepository}
    (hu : ∀ w ∈ u.notes, Readable lib hash skView ring history w) {a : WalletNote}
    (ha : Readable lib hash skView ring history a) {w : WalletNote} :
    w ∈ (u.addNote a).notes ↔ w = a ∨ w ∈ u.notes := by
  have hput : w ∈ Keyed.put WalletNote.nullifier u.notes a ↔ w = a ∨ w ∈ u.notes := by
    rw [Keyed.mem_put]
    constructor
    · rintro (hw | ⟨hw, -⟩)
      · exact Or.inl hw
      · exact Or.inr hw
    · rintro (hw | hw)
      · exact Or.inl hw
      · by_cases hkey : w.nullifier = a.nullifier
        · exact Or.inl ((hu w hw).eq hdiffer ha hkey)
        · exact Or.inr ⟨hw, hkey⟩
  unfold UtxoRepository.addNote
  split
  · rename_i existing hfind
    -- nothing is spent, so there is no flag to carry over
    have hspent : existing.spent = false := (hu existing (List.mem_of_find?_eq_some hfind)).spent
    have hsame : ({ a with spent := existing.spent || a.spent } : WalletNote) = a := by
      rw [hspent, ha.spent, Bool.or_false, ← ha.spent]
    rw [hsame]
    exact hput
  · exact hput

/-! ## One pass -/

variable {poseidon : Fr → Fr → Fr → Fr} {skView : Fr} {places : Places}

/-- What is assumed of the hash and a ring over a history. -/
structure Collisions (lib : Library) (hash : List Fr → Fr) (skView : Fr) (ring : ComplianceKeyRing)
    (history : List (PoolNote hash)) : Prop where
  psi : ∀ n, PoolNote.minted n ∈ history → Set.InjOn (computePsi hash) (contentKeys ring n.compliancePk n.eph)
  leaf : ∀ n, PoolNote.minted n ∈ history →
    LeafCollisionFree lib hash ring n.note.1 n.eph (packed n.emitted.ciphertext)
  nullifier : NullifiersDiffer lib hash skView ring history

/-- The state a pass over some leaves leads to. -/
structure PassedOver (lib : Library) (hash : List Fr → Fr) (skView : Fr) (first : ℕ) (history : List (PoolNote hash))
    (s s' : ScanState) : Prop where
  keys : s'.processor.keys = s.processor.keys
  keyRepo : s'.keyRepo = lookedUp s.keyRepo (selfTags history) (memoTags history)
  notes : ∀ w, w ∈ s'.utxoRepo.notes ↔ w ∈ s.utxoRepo.notes ∨
    ∃ isIncoming index, ReadsFrom lib hash skView s.processor.keys first history isIncoming index w ∧
      index < nextOf s.keyRepo isIncoming

theorem lookedUp_append (r : KeyRepository) (ts ts' us us' : List Fr) :
    lookedUp (lookedUp r ts us) ts' us' = lookedUp r (ts ++ ts') (us ++ us') := by
  unfold lookedUp Window.lookupAll
  simp only [List.foldl_append]

/-- One leaf. -/
theorem scanNote_spec (hlib : lib.Lawful) {ring : ComplianceKeyRing} {full : List (PoolNote hash)}
    (hcollisions : Collisions lib hash skView ring full) (hreduced : ∀ e ∈ ring.ordered, Reduced e.pk)
    {s s' : ScanState} (hring : s.processor.keys = ring) (hexact : ExactKeys lib hash skView s.keyRepo)
    (hu : ∀ w ∈ s.utxoRepo.notes, Readable lib hash skView ring full w) {i : ℕ} {n : PoolNote hash}
    (hn : full[i]? = some n)
    (h : scanNote lib hash poseidon skView s
      (serveNote (noteRow (places.slot i) (n.noteInserted i (places.root i)))) = .ok s') :
    PassedOver lib hash skView i [n] s s' ∧ ∀ w ∈ s'.utxoRepo.notes, Readable lib hash skView ring full w := by
  subst hring
  unfold scanNote at h
  obtain ⟨tree, -, h⟩ := bind_eq_ok.1 h
  rw [bind_of_ok (toUnprocessedEvent_noteInserted n i (places.slot i) (places.root i))] at h
  cases h
  have hmem := List.mem_of_getElem? hn
  have hiff := @process_iff lib hash skView s.keyRepo s.processor i (places.root i) hlib n
    (fun m hm => hcollisions.psi m (hm ▸ hmem)) hreduced hexact (fun m hm => hcollisions.leaf m (hm ▸ hmem))
  obtain ⟨hkeys, hprocessor⟩ := @process_keys lib hash s.processor (deriveSelfSpendKey hash skView) s.keyRepo n i
    (places.root i)
  have hreads : ∀ {isIncoming index w}, Reads lib hash skView s.processor.keys i n isIncoming index w →
      Readable lib hash skView s.processor.keys full w := fun hread =>
    ⟨_, _, i, n, hn, by rw [Nat.zero_add]; exact hread⟩
  have hfrom : ∀ {isIncoming index w}, ReadsFrom lib hash skView s.processor.keys i [n] isIncoming index w ↔
      Reads lib hash skView s.processor.keys i n isIncoming index w := by
    intro isIncoming index w
    constructor
    · rintro ⟨k, m, hm, hread⟩
      obtain ⟨hk, rfl⟩ : k = 0 ∧ m = n := by
        cases k with
        | zero => exact ⟨rfl, (Option.some_inj.1 hm).symm⟩
        | succ k => simp at hm
      rwa [hk] at hread
    · intro hread
      exact ⟨0, n, rfl, hread⟩
  have htags : ∀ f : PoolNote hash → Option Fr, [n].filterMap f = (f n).toList := by
    intro f
    cases hf : f n <;> simp [hf]
  cases hresult : (s.processor.process lib hash (deriveSelfSpendKey hash skView) s.keyRepo
      (n.event i (places.root i))).1 with
  | none =>
    refine ⟨⟨hprocessor, ?_, ?_⟩, ?_⟩
    · rw [selfTags, memoTags, htags, htags]
      exact hkeys
    · intro w
      constructor
      · exact Or.inl
      · rintro (hw | ⟨isIncoming, index, hread, hlt⟩)
        · exact hw
        · have hsome := (hiff w).2 ⟨isIncoming, index, hfrom.1 hread, hlt⟩
          rw [hresult] at hsome
          cases hsome
    · exact hu
  | some a =>
    obtain ⟨inc, index, hread, hlt⟩ := (hiff a).1 hresult
    refine ⟨⟨hprocessor, ?_, ?_⟩, ?_⟩
    · rw [selfTags, memoTags, htags, htags]
      exact hkeys
    · intro w
      show w ∈ (s.utxoRepo.addNote a).notes ↔ _
      rw [mem_addNote hcollisions.nullifier hu (hreads hread)]
      constructor
      · rintro (rfl | hw)
        · exact Or.inr ⟨inc, index, hfrom.2 hread, hlt⟩
        · exact Or.inl hw
      · rintro (hw | ⟨inc', index', hread', -⟩)
        · exact Or.inr hw
        · exact Or.inl ((hfrom.1 hread').unique hread)
    · intro w hw
      have hw' : w ∈ (s.utxoRepo.addNote a).notes := hw
      rw [mem_addNote hcollisions.nullifier hu (hreads hread)] at hw'
      rcases hw' with rfl | hw'
      · exact hreads hread
      · exact hu w hw'

theorem ReadsFrom.cons_iff {ring : ComplianceKeyRing} {first : ℕ} {n : PoolNote hash} {history : List (PoolNote hash)}
    {isIncoming : Bool} {index : ℕ} {w : WalletNote} :
    ReadsFrom lib hash skView ring first (n :: history) isIncoming index w ↔
      ReadsFrom lib hash skView ring first [n] isIncoming index w ∨
        ReadsFrom lib hash skView ring (first + 1) history isIncoming index w := by
  constructor
  · rintro ⟨k, m, hm, hread⟩
    cases k with
    | zero =>
      cases hm
      exact Or.inl ⟨0, n, rfl, hread⟩
    | succ k =>
      refine Or.inr ⟨k, m, by simpa using hm, ?_⟩
      rwa [Nat.add_assoc, Nat.add_comm 1 k]
  · rintro (⟨k, m, hm, hread⟩ | ⟨k, m, hm, hread⟩)
    · cases k with
      | zero =>
        cases hm
        exact ⟨0, n, rfl, hread⟩
      | succ k => simp at hm
    · refine ⟨k + 1, m, by simpa using hm, ?_⟩
      rwa [Nat.add_assoc, Nat.add_comm 1 k] at hread

/-- Passing over a leaf and then over others. -/
theorem PassedOver.cons {first : ℕ} {n : PoolNote hash} {history : List (PoolNote hash)} {s s' s'' : ScanState}
    (h : PassedOver lib hash skView first [n] s s') (h' : PassedOver lib hash skView (first + 1) history s' s'') :
    PassedOver lib hash skView first (n :: history) s s'' where
  keys := h'.keys.trans h.keys
  keyRepo := by
    have hcons : ∀ f : PoolNote hash → Option Fr, (n :: history).filterMap f = [n].filterMap f ++ history.filterMap f :=
      fun f => @List.filterMap_append _ _ [n] history f
    rw [h'.keyRepo, h.keyRepo, lookedUp_append]
    simp only [selfTags, memoTags, hcons]
  notes := by
    intro w
    rw [h'.notes, h.notes, h.keys, h.keyRepo, or_assoc]
    simp only [nextOf_lookedUp, @ReadsFrom.cons_iff _ _ _ _ _ _ history, or_and_right, exists_or]

/-- One pass over the leaves from an index on. -/
theorem scanOnce_spec (hlib : lib.Lawful) {ring : ComplianceKeyRing} {full : List (PoolNote hash)}
    (hcollisions : Collisions lib hash skView ring full) (hreduced : ∀ e ∈ ring.ordered, Reduced e.pk)
    {first : ℕ} {history : List (PoolNote hash)} (hsuffix : ∀ k n, history[k]? = some n → full[first + k]? = some n)
    {s s' : ScanState} (hring : s.processor.keys = ring) (hexact : ExactKeys lib hash skView s.keyRepo)
    (hu : ∀ w ∈ s.utxoRepo.notes, Readable lib hash skView ring full w)
    (h : scanOnce lib hash poseidon skView (feedFrom places first history) s = .ok s') :
    PassedOver lib hash skView first history s s' ∧
      ∀ w ∈ s'.utxoRepo.notes, Readable lib hash skView ring full w := by
  induction history generalizing first s with
  | nil =>
    cases h
    refine ⟨⟨rfl, rfl, ?_⟩, hu⟩
    intro w
    constructor
    · exact Or.inl
    · rintro (hw | ⟨_, _, ⟨k, n, hn, -⟩, -⟩)
      · exact hw
      · simp at hn
  | cons n history ih =>
    unfold scanOnce at h
    rw [feedFrom, List.foldlM_cons] at h
    obtain ⟨s₁, hnote, hrest⟩ := bind_eq_ok.1 h
    have hn : full[first]? = some n := hsuffix 0 n rfl
    obtain ⟨hpassed, hu₁⟩ := scanNote_spec hlib hcollisions hreduced hring hexact hu hn hnote
    have hexact₁ : ExactKeys lib hash skView s₁.keyRepo := by
      rw [hpassed.keyRepo]
      exact hexact.lookedUp _ _
    obtain ⟨hpassed', hu'⟩ := @ih (first + 1) (fun k m hm => by
      rw [Nat.add_assoc, Nat.add_comm 1 k]
      exact hsuffix (k + 1) m (by simpa using hm)) _ (hpassed.keys.trans hring) hexact₁ hu₁ hrest
    exact ⟨hpassed.cons hpassed', hu'⟩

/-! ## The passes of a sync -/

/-- The repository after a pass and the lookaheads. -/
def passKeys (lib : Library) (hash : List Fr → Fr) (skView : Fr) (window : ℤ) (history : List (PoolNote hash))
    (r : KeyRepository) : KeyRepository :=
  { r with
    self := r.self.pass (tagged lib (accountOf hash skView).getSelfEphemeral) (selfTags history) window
    incoming := r.incoming.pass (tagged lib (accountOf hash skView).getIncomingKey) (memoTags history) window }

theorem ensureLookaheads_eq (window : ℤ) (r : KeyRepository) :
    ensureLookaheads lib hash skView window r =
      (decide (r.self.next < (r.self.ensure (tagged lib (accountOf hash skView).getSelfEphemeral) window).next) ||
        decide (r.incoming.next <
          (r.incoming.ensure (tagged lib (accountOf hash skView).getIncomingKey) window).next),
        { r with
          self := r.self.ensure (tagged lib (accountOf hash skView).getSelfEphemeral) window
          incoming := r.incoming.ensure (tagged lib (accountOf hash skView).getIncomingKey) window }) := rfl

theorem ExactKeys.passKeys {r : KeyRepository} (h : ExactKeys lib hash skView r) (window : ℤ)
    (history : List (PoolNote hash)) : ExactKeys lib hash skView (passKeys lib hash skView window history r) :=
  ⟨(h.self.lookupAll _).ensure window, (h.incoming.lookupAll _).ensure window⟩

/-- A pass moves no mark of a repository. -/
def Still (lib : Library) (hash : List Fr → Fr) (skView : Fr) (window : ℤ) (history : List (PoolNote hash))
    (r : KeyRepository) : Prop :=
  (passKeys lib hash skView window history r).self.next = r.self.next ∧
    (passKeys lib hash skView window history r).incoming.next = r.incoming.next

theorem nextOf_le_passKeys (window : ℤ) (history : List (PoolNote hash)) (r : KeyRepository) (isIncoming : Bool) :
    nextOf r isIncoming ≤ nextOf (passKeys lib hash skView window history r) isIncoming := by
  have hself : r.self.next ≤
      (r.self.pass (tagged lib (accountOf hash skView).getSelfEphemeral) (selfTags history) window).next :=
    Window.le_next_pass
  have hincoming : r.incoming.next ≤
      (r.incoming.pass (tagged lib (accountOf hash skView).getIncomingKey) (memoTags history) window).next :=
    Window.le_next_pass
  cases isIncoming
  · exact hself
  · exact hincoming

/-- The loop over the whole history: the notes of its last pass, which is the last one there is unless it moves no
mark. -/
theorem scanLoop_spec (hlib : lib.Lawful) {ring : ComplianceKeyRing} {history : List (PoolNote hash)}
    (hcollisions : Collisions lib hash skView ring history) (hreduced : ∀ e ∈ ring.ordered, Reduced e.pk)
    {window : ℤ} {left : ℕ} {s s' : ScanState} (hring : s.processor.keys = ring)
    (hexact : ExactKeys lib hash skView s.keyRepo)
    (hu : ∀ w ∈ s.utxoRepo.notes, Readable lib hash skView ring history w)
    (h : scanLoop lib hash poseidon skView window (feed places history) (left + 1) s = .ok s') :
    ∃ m ≤ left, (m = left ∨
        Still lib hash skView window history ((passKeys lib hash skView window history)^[m] s.keyRepo)) ∧
      s'.processor.keys = ring ∧
      s'.keyRepo = (passKeys lib hash skView window history)^[m + 1] s.keyRepo ∧
      ∀ w, w ∈ s'.utxoRepo.notes ↔ w ∈ s.utxoRepo.notes ∨
        ∃ isIncoming index, ReadsFrom lib hash skView ring 0 history isIncoming index w ∧
          index < nextOf ((passKeys lib hash skView window history)^[m] s.keyRepo) isIncoming := by
  induction left generalizing s with
  | zero =>
    rw [scanLoop] at h
    obtain ⟨s₁, hpass, h⟩ := bind_eq_ok.1 h
    obtain ⟨hpassed, -⟩ := scanOnce_spec hlib hcollisions hreduced (fun k n hn => by rwa [Nat.zero_add]) hring hexact
      hu hpass
    have hs' : s' = { s₁ with keyRepo := (ensureLookaheads lib hash skView window s₁.keyRepo).2 } := by
      dsimp only at h
      split at h
      · cases h
        rfl
      · cases h
        rfl
    have hkeys := hpassed.keys
    have hnotes := hpassed.notes
    rw [hring] at hkeys hnotes
    refine ⟨0, le_refl _, Or.inl rfl, ?_, ?_, ?_⟩
    · rw [hs']
      exact hkeys
    · rw [hs', ensureLookaheads_eq, hpassed.keyRepo]
      rfl
    · rw [hs']
      exact hnotes
  | succ left ih =>
    rw [scanLoop] at h
    obtain ⟨s₁, hpass, h⟩ := bind_eq_ok.1 h
    obtain ⟨hpassed, hu₁⟩ := scanOnce_spec hlib hcollisions hreduced (fun k n hn => by rwa [Nat.zero_add]) hring
      hexact hu hpass
    have hkeyRepo : (ensureLookaheads lib hash skView window s₁.keyRepo).2 =
        passKeys lib hash skView window history s.keyRepo := by
      rw [ensureLookaheads_eq, hpassed.keyRepo]
      rfl
    have hkeys := hpassed.keys
    have hnotes := hpassed.notes
    rw [hring] at hkeys hnotes
    dsimp only at h
    split at h
    · have hexact₁ : ExactKeys lib hash skView (ensureLookaheads lib hash skView window s₁.keyRepo).2 := by
        rw [hkeyRepo]
        exact hexact.passKeys window history
      obtain ⟨m, hm, hlast, hkeys', hkeyRepo', hnotes'⟩ := ih (s := { s₁ with
        keyRepo := (ensureLookaheads lib hash skView window s₁.keyRepo).2 }) hkeys hexact₁ hu₁ h
      dsimp only at hlast hkeyRepo' hnotes'
      rw [hkeyRepo] at hlast hkeyRepo' hnotes'
      refine ⟨m + 1, Nat.succ_le_succ hm, ?_, hkeys', hkeyRepo', ?_⟩
      · rcases hlast with rfl | hstill
        · exact Or.inl rfl
        · exact Or.inr hstill
      · intro w
        rw [hnotes', hnotes, or_assoc]
        refine or_congr_right ⟨?_, Or.inr⟩
        rintro (⟨isIncoming, index, hreads, hlt⟩ | hlater)
        · -- a tag that is registered in this pass is registered in the last
          refine ⟨isIncoming, index, hreads, lt_of_lt_of_le hlt ?_⟩
          have hmono : ∀ (k : ℕ) (r : KeyRepository), nextOf r isIncoming ≤
              nextOf ((passKeys lib hash skView window history)^[k] r) isIncoming := by
            intro k
            induction k with
            | zero => exact fun _ => le_refl _
            | succ k ihk =>
              intro r
              exact le_trans (nextOf_le_passKeys window history r isIncoming) (ihk _)
          exact hmono (m + 1) s.keyRepo
        · exact hlater
    · rename_i hadvanced
      cases h
      refine ⟨0, Nat.zero_le _, Or.inr ?_, hkeys, hkeyRepo, hnotes⟩
      rw [ensureLookaheads_eq, Bool.or_eq_true, decide_eq_true_eq, decide_eq_true_eq, not_or, not_lt, not_lt,
        hpassed.keyRepo] at hadvanced
      have hself : (lookedUp s.keyRepo (selfTags history) (memoTags history)).self.next = s.keyRepo.self.next :=
        Window.next_lookupAll _
      have hincoming : (lookedUp s.keyRepo (selfTags history) (memoTags history)).incoming.next =
          s.keyRepo.incoming.next := Window.next_lookupAll _
      have hle : ∀ isIncoming, nextOf s.keyRepo isIncoming ≤
          nextOf (passKeys lib hash skView window history s.keyRepo) isIncoming :=
        nextOf_le_passKeys window history s.keyRepo
      refine ⟨le_antisymm ?_ (hle false), le_antisymm ?_ (hle true)⟩
      · exact hself ▸ hadvanced.1
      · exact hincoming ▸ hadvanced.2

/-! ## Reach -/

/-- The indices of a family that a history uses. -/
def usedBy (lib : Library) (hash : List Fr → Fr) (skView : Fr) (history : List (PoolNote hash)) : Bool → ℕ → Bool
  | false => Window.usedIn (tagged lib (accountOf hash skView).getSelfEphemeral) (selfTags history)
  | true => Window.usedIn (tagged lib (accountOf hash skView).getIncomingKey) (memoTags history)

/-- The index of a note that is read is one of them. -/
theorem ReadsFrom.used {ring : ComplianceKeyRing} {first : ℕ} {history : List (PoolNote hash)} {isIncoming : Bool}
    {index : ℕ} {w : WalletNote} (h : ReadsFrom lib hash skView ring first history isIncoming index w) :
    usedBy lib hash skView history isIncoming index = true := by
  obtain ⟨k, n, hn, hread⟩ := h
  have hmem := List.mem_of_getElem? hn
  cases hread with
  | self hmemo hfirst =>
    exact Window.usedIn_iff.2 ⟨_, List.mem_filterMap.2 ⟨_, hmem, if_pos hmemo⟩, _, hfirst⟩
  | memo hmemo hfirst =>
    refine Window.usedIn_iff.2 ⟨_, List.mem_filterMap.2 ⟨_, hmem, ?_⟩, _, hfirst⟩
    simp [PoolNote.memoTag, hmemo]

/-- A repository after some passes from nothing. -/
structure KeysAtPass (lib : Library) (hash : List Fr → Fr) (skView : Fr) (window : ℤ) (history : List (PoolNote hash))
    (k : ℕ) (r : KeyRepository) : Prop where
  self : Window.AtPass (tagged lib (accountOf hash skView).getSelfEphemeral) (selfTags history) window k r.self
  incoming : Window.AtPass (tagged lib (accountOf hash skView).getIncomingKey) (memoTags history) window k r.incoming

theorem KeysAtPass.iterate {window : ℤ} {history : List (PoolNote hash)} {k : ℕ} {r : KeyRepository}
    (h : KeysAtPass lib hash skView window history k r) (m : ℕ) :
    KeysAtPass lib hash skView window history (k + m) ((passKeys lib hash skView window history)^[m] r) := by
  induction m with
  | zero => exact h
  | succ m ih =>
    rw [Function.iterate_succ_apply']
    exact ⟨ih.self.pass, ih.incoming.pass⟩

theorem KeysAtPass.nextOf_eq {window : ℤ} {history : List (PoolNote hash)} {k : ℕ} {r : KeyRepository}
    (h : KeysAtPass lib hash skView window history k r) (isIncoming : Bool) :
    nextOf r isIncoming = reach (usedBy lib hash skView history isIncoming) window k := by
  cases isIncoming
  · exact h.self.next
  · exact h.incoming.next

/-- A repository that is at least as far as one after some passes from nothing. -/
structure KeysBeyond (lib : Library) (hash : List Fr → Fr) (skView : Fr) (window : ℤ) (history : List (PoolNote hash))
    (k : ℕ) (r : KeyRepository) : Prop where
  self : Window.Beyond (tagged lib (accountOf hash skView).getSelfEphemeral) (selfTags history) window k r.self
  incoming : Window.Beyond (tagged lib (accountOf hash skView).getIncomingKey) (memoTags history) window k r.incoming

theorem KeysBeyond.iterate {window : ℤ} {history : List (PoolNote hash)} {k : ℕ} {r : KeyRepository}
    (h : KeysBeyond lib hash skView window history k r) (m : ℕ) :
    KeysBeyond lib hash skView window history (k + m) ((passKeys lib hash skView window history)^[m] r) := by
  induction m with
  | zero => exact h
  | succ m ih =>
    rw [Function.iterate_succ_apply']
    exact ⟨ih.self.pass, ih.incoming.pass⟩

theorem KeysBeyond.le_nextOf {window : ℤ} {history : List (PoolNote hash)} {k : ℕ} {r : KeyRepository}
    (h : KeysBeyond lib hash skView window history k r) (isIncoming : Bool) :
    reach (usedBy lib hash skView history isIncoming) window k ≤ nextOf r isIncoming := by
  cases isIncoming
  · exact h.self.next
  · exact h.incoming.next

/-- Once a pass moves no mark, nothing is out of reach. -/
theorem KeysBeyond.le_of_still {window : ℤ} {history : List (PoolNote hash)} {k : ℕ} {r : KeyRepository}
    (h : KeysBeyond lib hash skView window history k r) (hstill : Still lib hash skView window history r)
    (isIncoming : Bool) (j : ℕ) :
    reach (usedBy lib hash skView history isIncoming) window j ≤ nextOf r isIncoming := by
  cases isIncoming
  · exact h.self.le_of_still hstill.1 j
  · exact h.incoming.le_of_still hstill.2 j

/-! ## Whole syncs -/

/-- A sync from nothing: the notes with an index below the reach of its passes. -/
theorem sync_cold (hlib : lib.Lawful) {ring : ComplianceKeyRing} {history : List (PoolNote hash)}
    (hcollisions : Collisions lib hash skView ring history) (hreduced : ∀ e ∈ ring.ordered, Reduced e.pk)
    {window : ℤ} {tree : Option Sdk.LeanIMT} {s : ScanState}
    (h : sync lib hash poseidon skView window (feed places history) (coldState ring tree) = .ok s) (w : WalletNote) :
    w ∈ s.utxoRepo.notes ↔ ∃ isIncoming index, ReadsFrom lib hash skView ring 0 history isIncoming index w ∧
      index < reach (usedBy lib hash skView history isIncoming) window (maxPasses - 1) := by
  have hstart : KeysAtPass lib hash skView window history 0
      (ensureLookaheads lib hash skView window (coldState ring tree).keyRepo).2 :=
    ⟨Window.atPass_start _ _, Window.atPass_start _ _⟩
  obtain ⟨m, hm, hlast, -, -, hnotes⟩ := @scanLoop_spec lib hash poseidon skView places hlib ring history hcollisions hreduced
    window (maxPasses - 1) { coldState ring tree with keyRepo := (ensureLookaheads lib hash skView window
      (coldState ring tree).keyRepo).2 } s rfl
    ⟨hstart.self.exact, hstart.incoming.exact⟩ (fun w hw => absurd hw List.not_mem_nil) h
  dsimp only at hlast hnotes
  have hnext : ∀ isIncoming, nextOf ((passKeys lib hash skView window history)^[m]
      (ensureLookaheads lib hash skView window (coldState ring tree).keyRepo).2) isIncoming =
        reach (usedBy lib hash skView history isIncoming) window (maxPasses - 1) := by
    intro isIncoming
    have hat := hstart.iterate m
    rw [Nat.zero_add] at hat
    rcases hlast with rfl | hstill
    · exact hat.nextOf_eq isIncoming
    · -- the last pass moved no mark, so those that were left would not have either
      have hnext := (hat.iterate 1).nextOf_eq isIncoming
      have hsame : nextOf (passKeys lib hash skView window history ((passKeys lib hash skView window history)^[m]
          (ensureLookaheads lib hash skView window (coldState ring tree).keyRepo).2)) isIncoming =
          nextOf ((passKeys lib hash skView window history)^[m]
            (ensureLookaheads lib hash skView window (coldState ring tree).keyRepo).2) isIncoming := by
        cases isIncoming
        · exact hstill.1
        · exact hstill.2
      rw [Function.iterate_one, hsame, hat.nextOf_eq isIncoming] at hnext
      rw [hat.nextOf_eq isIncoming, reach_stable hnext.symm hm]
  rw [hnotes]
  simp only [hnext]
  constructor
  · rintro (hw | hw)
    · exact absurd hw List.not_mem_nil
    · exact hw
  · exact Or.inr

/-- The state between two syncs. -/
structure Between (lib : Library) (hash : List Fr → Fr) (skView : Fr) (ring : ComplianceKeyRing)
    (history : List (PoolNote hash)) (s : ScanState) : Prop where
  ringKeys : s.processor.keys = ring
  keys : ExactKeys lib hash skView s.keyRepo
  low : -1 ≤ s.keyRepo.self.matched ∧ -1 ≤ s.keyRepo.incoming.matched
  notes : ∀ w ∈ s.utxoRepo.notes, Readable lib hash skView ring history w

/-- A sync from anything: every note with an index within reach, and none that is not readable. -/
theorem sync_warm (hlib : lib.Lawful) {ring : ComplianceKeyRing} {history : List (PoolNote hash)}
    (hcollisions : Collisions lib hash skView ring history) (hreduced : ∀ e ∈ ring.ordered, Reduced e.pk)
    {window : ℤ} {s s' : ScanState} (hbetween : Between lib hash skView ring history s)
    (h : sync lib hash poseidon skView window (feed places history) s = .ok s') :
    Between lib hash skView ring history s' ∧
      (∀ w ∈ s.utxoRepo.notes, w ∈ s'.utxoRepo.notes) ∧
      ∀ w isIncoming index, ReadsFrom lib hash skView ring 0 history isIncoming index w →
        index < reach (usedBy lib hash skView history isIncoming) window (maxPasses - 1) →
          w ∈ s'.utxoRepo.notes := by
  have hstart : KeysBeyond lib hash skView window history 0 (ensureLookaheads lib hash skView window s.keyRepo).2 :=
    ⟨Window.beyond_start hbetween.keys.self hbetween.low.1 _ _,
      Window.beyond_start hbetween.keys.incoming hbetween.low.2 _ _⟩
  obtain ⟨m, hm, hlast, hkeys, hkeyRepo, hnotes⟩ := @scanLoop_spec lib hash poseidon skView places hlib ring history hcollisions
    hreduced window (maxPasses - 1) { s with keyRepo := (ensureLookaheads lib hash skView window s.keyRepo).2 } s'
    hbetween.ringKeys ⟨hstart.self.exact, hstart.incoming.exact⟩ hbetween.notes h
  dsimp only at hlast hkeyRepo hnotes
  have hend := hstart.iterate (m + 1)
  rw [← hkeyRepo] at hend
  refine ⟨⟨hkeys, ⟨hend.self.exact, hend.incoming.exact⟩, ⟨hend.self.low, hend.incoming.low⟩, ?_⟩, ?_, ?_⟩
  · intro w hw
    rcases (hnotes w).1 hw with hw | ⟨isIncoming, index, hreads, -⟩
    · exact hbetween.notes w hw
    · exact ⟨isIncoming, index, hreads⟩
  · exact fun w hw => (hnotes w).2 (Or.inl hw)
  · intro w isIncoming index hreads hlt
    refine (hnotes w).2 (Or.inr ⟨isIncoming, index, hreads, lt_of_lt_of_le hlt ?_⟩)
    have hbeyond := hstart.iterate m
    rw [Nat.zero_add] at hbeyond
    rcases hlast with rfl | hstill
    · exact hbeyond.le_nextOf isIncoming
    · exact hbeyond.le_of_still hstill isIncoming _

/-! ## A sync without a mirror -/

theorem scanNote_ok {s : ScanState} (hs : s.merkleTree = none) (n : PoolNote hash) (i : ℕ) :
    ∃ s', scanNote lib hash poseidon skView s
      (serveNote (noteRow (places.slot i) (n.noteInserted i (places.root i)))) = .ok s' ∧ s'.merkleTree = none := by
  have hmirror : mirrorLeaf poseidon s.merkleTree
      (serveNote (noteRow (places.slot i) (n.noteInserted i (places.root i)))) = .ok none := by
    rw [hs]
    rfl
  unfold scanNote
  rw [bind_of_ok hmirror, bind_of_ok (toUnprocessedEvent_noteInserted n i (places.slot i) (places.root i))]
  exact ⟨_, rfl, rfl⟩

theorem scanOnce_ok (history : List (PoolNote hash)) (first : ℕ) {s : ScanState} (hs : s.merkleTree = none) :
    ∃ s', scanOnce lib hash poseidon skView (feedFrom places first history) s = .ok s' ∧ s'.merkleTree = none := by
  unfold scanOnce
  induction history generalizing first s with
  | nil => exact ⟨s, rfl, hs⟩
  | cons n history ih =>
    obtain ⟨s₁, hnote, hs₁⟩ := @scanNote_ok lib hash poseidon skView places _ hs n first
    rw [feedFrom, List.foldlM_cons, bind_of_ok hnote]
    exact ih (first + 1) hs₁

/-- Without a mirror a sync returns. -/
theorem sync_ok (history : List (PoolNote hash)) (window : ℤ) {s : ScanState} (hs : s.merkleTree = none) :
    ∃ s', sync lib hash poseidon skView window (feed places history) s = .ok s' ∧ s'.merkleTree = none := by
  have hloop : ∀ (left : ℕ) {s : ScanState}, s.merkleTree = none →
      ∃ s', scanLoop lib hash poseidon skView window (feed places history) left s = .ok s' ∧ s'.merkleTree = none := by
    intro left
    induction left with
    | zero => exact fun hs => ⟨_, rfl, hs⟩
    | succ left ih =>
      intro s hs
      obtain ⟨s₁, hpass, hs₁⟩ := @scanOnce_ok lib hash poseidon skView places history 0 _ hs
      rw [scanLoop, feed, bind_of_ok hpass]
      dsimp only
      split
      · exact ih hs₁
      · exact ⟨_, rfl, hs₁⟩
  exact hloop maxPasses hs

end Kakure.Sync
