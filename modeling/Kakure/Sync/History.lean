import Kakure.Lib.Reach
import Kakure.Pool.Spec
import Kakure.Sync.RoundTrip

/-!
# What a wallet reads of a history

The leaves of a pool, the genesis leaf and notes that circuits minted, and what the note processor makes of each:
a note, if its tag is registered, it is acceptable and the ring opens it.

* `toUnprocessedEvent_noteInserted` — the event of a leaf;
* `process_keys` — what it does to the key repository is a lookup;
* `process_iff` — the note that is read.
-/

namespace Kakure.Sync

open Notes Tss Wallet Sdk Lookahead Slices Hex Indexer

/-! ## Leaves -/

/-- A note that a circuit minted. -/
structure MintedNote (hash : List Fr → Fr) where
  note : Circuit.Note
  eph : Fr
  compliancePk : Circuit.Point
  emitted : Emitted
  mints : Mints hash note eph compliancePk emitted

/-- A leaf of a pool. -/
inductive PoolNote (hash : List Fr → Fr)
  | genesis (leaf : Bytes 32)
  | minted (n : MintedNote hash)

namespace PoolNote

variable {hash : List Fr → Fr}

/-- The event of the pool. -/
def noteInserted (index : ℕ) (root : Bytes 32) : PoolNote hash → NoteInserted
  | genesis leaf => { genesisEvent leaf root with leafIndex := index }
  | minted n => n.emitted.noteInserted index root

/-- The event of a scan. -/
def event (index : ℕ) (root : Bytes 32) : PoolNote hash → UnprocessedEvent
  | genesis leaf =>
    ⟨.newNote, index, toHex root.val,
      ⟨index, toHex leaf.val, 0, List.replicate 7 (toHex (Bytes.zero 32).val), none, none⟩⟩
  | minted n => n.emitted.event index index (toHex root.val)

/-- The tag that is looked up among those of self notes. -/
def selfTag : PoolNote hash → Option Fr
  | genesis _ => some 0
  | minted n => if n.emitted.memo = none then some n.emitted.ephPub.x else none

/-- The tag that is looked up among those of addresses. -/
def memoTag : PoolNote hash → Option Fr
  | genesis _ => none
  | minted n => n.emitted.memo.map Prod.fst

end PoolNote

variable {lib : Library} {hash : List Fr → Fr}

theorem toHex_zero : toHex (Bytes.zero 32).val = toHex (0 : Fr).toBytes.val := by
  rw [(toBytes_eq_zero_iff 0).2 rfl]

/-- The event a scan makes of what the indexer lists of a leaf. -/
theorem toUnprocessedEvent_noteInserted (n : PoolNote hash) (index slot : ℕ) (root : Bytes 32) :
    toUnprocessedEvent (serveNote (noteRow slot (n.noteInserted index root))) = .ok (n.event index root) := by
  cases n with
  | minted n => exact n.emitted.toUnprocessedEvent_emitted index slot root
  | genesis leaf =>
    have hzero : bigIntOf (toHex (Bytes.zero 32).val) = .ok 0 := by
      rw [toHex_zero, bigIntOf_toBytes, ZMod.val_zero]
      rfl
    have hmap : (List.replicate 7 (Bytes.zero 32)).map (fun b => toHex b.val) =
        List.replicate 7 (toHex (Bytes.zero 32).val) := List.map_replicate
    unfold toUnprocessedEvent
    simp only [serveNote, noteRow, PoolNote.noteInserted, genesisEvent, Option.map_none, hmap, hzero, pure_bind]
    rfl

/-! ## Tags -/

/-- No scalar has the tag zero. -/
theorem not_tagOf_zero (hlib : lib.Lawful) {scalar : Fr} : ¬ Frost.TagOf lib 0 scalar := by
  rintro ⟨heven, htag⟩
  rw [publicKey_scaled hlib] at heven htag
  rw [discoveryTag_coords] at htag
  have hzero : Circuit.scaled scalar BabyJubJub.base = 0 := eq_of_x_eq htag.symm
  rw [hzero] at heven
  exact absurd heven (by decide)

/-- A self note's ephemeral scalar is the key that its tag is registered with. -/
theorem Mints.eq_of_tagged (hlib : lib.Lawful) {note : Circuit.Note} {eph : Fr} {compliancePk : Circuit.Point}
    {m : Emitted} (h : Mints hash note eph compliancePk m) {key : ℕ → Fr} (hkey : ∀ i, (key i).val < subOrder)
    {index : ℕ} {k : Fr} (htagged : tagged lib key index = some (m.ephPub.x, k)) : k = eph := by
  obtain ⟨minted, hminted, heven, hm⟩ := h.cases
  have hephPub : m.ephPub = minted.ephPub := by
    rcases hm with rfl | ⟨_, _, _, -, rfl⟩ <;> rfl
  obtain ⟨htag, hk⟩ := tagOf_of_tagged htagged
  rw [hephPub, hminted.ephPub] at htag
  rw [hminted.ephPub] at heven
  refine eq_of_scaled_base ?_ hminted.scalar.2 (eq_of_tagOf hlib heven htag)
  rw [hk]
  exact hkey index

/-! ## Readable notes -/

/-- The note a wallet reads of a leaf, with the family and the index it reads it by. -/
inductive Reads (lib : Library) (hash : List Fr → Fr) (skView : Fr) (ring : ComplianceKeyRing) (i : ℕ) :
    PoolNote hash → Bool → ℕ → WalletNote → Prop
  | self {n : MintedNote hash} {index : ℕ} (hmemo : n.emitted.memo = none)
      (hfirst : First (tagged lib (accountOf hash skView).getSelfEphemeral) n.emitted.ephPub.x index n.eph)
      (hacceptable : Acceptable lib hash (deriveSelfSpendKey hash skView) n.note.1)
      (hopens : Opens ring n.compliancePk (some i)) :
      Reads lib hash skView ring i (.minted n) false index
        (walletNote hash n.note.1 i (deriveSelfSpendKey hash skView) false index)
  | memo {n : MintedNote hash} {index : ℕ} {key tag cekWrap : Fr} (hmemo : n.emitted.memo = some (tag, cekWrap))
      (hfirst : First (tagged lib (accountOf hash skView).getIncomingKey) tag index key)
      (hstandard : n.note.1.noteType = noteTypeStandard) :
      Reads lib hash skView ring i (.minted n) true index (walletNote hash n.note.1 i key true index)

/-- The mark of a family. -/
def nextOf (r : KeyRepository) (isIncoming : Bool) : ℕ := if isIncoming then r.incoming.next else r.self.next

/-- The tables of a repository have every tag below their marks. -/
structure ExactKeys (lib : Library) (hash : List Fr → Fr) (skView : Fr) (r : KeyRepository) : Prop where
  self : r.self.Exact (tagged lib (accountOf hash skView).getSelfEphemeral)
  incoming : r.incoming.Exact (tagged lib (accountOf hash skView).getIncomingKey)

/-- The repository after some tags were looked up. -/
def lookedUp (r : KeyRepository) (selfTags memoTags : List Fr) : KeyRepository :=
  { r with self := r.self.lookupAll selfTags, incoming := r.incoming.lookupAll memoTags }

theorem ExactKeys.lookedUp {skView : Fr} {r : KeyRepository} (h : ExactKeys lib hash skView r)
    (selfTags memoTags : List Fr) : ExactKeys lib hash skView (lookedUp r selfTags memoTags) :=
  ⟨h.self.lookupAll selfTags, h.incoming.lookupAll memoTags⟩

@[simp] theorem nextOf_lookedUp (r : KeyRepository) (selfTags memoTags : List Fr) (isIncoming : Bool) :
    nextOf (lookedUp r selfTags memoTags) isIncoming = nextOf r isIncoming := by
  unfold nextOf lookedUp
  simp

/-! ## What processing does to the keys -/

theorem matchSelfTag_keys (r : KeyRepository) (tag : Fr) :
    (r.matchSelfTag (tag.val : ℤ)).2 = lookedUp r [tag] [] := by
  rw [matchSelfTag_val]
  rfl

theorem matchIncomingTag_keys (r : KeyRepository) (tag : Fr) :
    (r.matchIncomingTag (tag.val : ℤ)).2 = lookedUp r [] [tag] := by
  rw [matchIncomingTag_val]
  rfl

theorem processNewNote_keys (p : NoteProcessor) (spendScalar : Fr) (r : KeyRepository) (event : UnprocessedEvent) :
    (processNewNote lib hash p spendScalar r event).2.2 = (r.matchSelfTag event.args.ephemeralX).2 ∧
      (processNewNote lib hash p spendScalar r event).2.1.keys = p.keys := by
  unfold processNewNote
  dsimp only
  cases hmatch : (r.matchSelfTag event.args.ephemeralX).1 with
  | none => exact ⟨rfl, rfl⟩
  | some key =>
    dsimp only
    cases openSelf lib hash p.keys spendScalar event key with
    | error e => exact ⟨rfl, rfl⟩
    | ok answer => cases answer <;> exact ⟨rfl, rfl⟩

/-- An index that was just met is met again. -/
theorem recordIncomingMatch_lookedUp {r : KeyRepository} {tag : Fr} {key : ℕ × Fr}
    (h : r.incoming.entries tag = some key) :
    (lookedUp r [] [tag]).recordIncomingMatch key.1 = lookedUp r [] [tag] := by
  have hlookup : r.incoming.lookupAll [tag] = r.incoming.meet key.1 := by
    show (r.incoming.lookup tag).2 = _
    simp only [Window.lookup, h]
  have hmeet : (r.incoming.meet key.1).meet key.1 = r.incoming.meet key.1 := by
    simp [Window.meet]
  unfold KeyRepository.recordIncomingMatch lookedUp
  simp only [hlookup, hmeet]

/-- A memo's tag is looked up, and met again if the memo is read. -/
theorem processMemo_repository (p : NoteProcessor) (r : KeyRepository) {event : UnprocessedEvent} {tag cekWrap : ℤ}
    (htag : event.args.tag = some tag) (hwrap : event.args.cekWrap = some cekWrap) :
    (processMemo lib hash p r event).2.1 = p ∧
      ((processMemo lib hash p r event).2.2 = (r.matchIncomingTag tag).2 ∨
        ∃ key, (r.matchIncomingTag tag).1 = some key ∧
          (processMemo lib hash p r event).2.2 = (r.matchIncomingTag tag).2.recordIncomingMatch key.1) := by
  unfold processMemo
  simp only [htag, hwrap]
  cases (r.matchIncomingTag tag).1 with
  | none => exact ⟨rfl, Or.inl rfl⟩
  | some key =>
    dsimp only
    cases openMemo lib hash event cekWrap key with
    | error e => exact ⟨rfl, Or.inl rfl⟩
    | ok outcome =>
      cases outcome with
      | note note => exact ⟨rfl, Or.inr ⟨key, rfl, rfl⟩⟩
      | leafMismatch => exact ⟨rfl, Or.inl rfl⟩
      | rejected => exact ⟨rfl, Or.inl rfl⟩

theorem processMemo_keys (p : NoteProcessor) (r : KeyRepository) {event : UnprocessedEvent} {tag : Fr} {cekWrap : ℤ}
    (htag : event.args.tag = some (tag.val : ℤ)) (hwrap : event.args.cekWrap = some cekWrap) :
    (processMemo lib hash p r event).2.2 = lookedUp r [] [tag] ∧ (processMemo lib hash p r event).2.1 = p := by
  obtain ⟨hp, hr⟩ := @processMemo_repository lib hash p r _ _ _ htag hwrap
  refine ⟨?_, hp⟩
  rcases hr with hr | ⟨key, hkey, hr⟩
  · rw [hr, matchIncomingTag_keys]
  · rw [matchIncomingTag_val] at hkey
    rw [hr, matchIncomingTag_keys, recordIncomingMatch_lookedUp hkey]

/-- What processing a leaf does to the keys is a lookup; the ring stays. -/
theorem process_keys (p : NoteProcessor) (spendScalar : Fr) (r : KeyRepository) (n : PoolNote hash) (index : ℕ)
    (root : Bytes 32) :
    (p.process lib hash spendScalar r (n.event index root)).2.2 = lookedUp r n.selfTag.toList n.memoTag.toList ∧
      (p.process lib hash spendScalar r (n.event index root)).2.1.keys = p.keys := by
  cases n with
  | genesis leaf =>
    have hzero : (0 : ℤ) = ((0 : Fr).val : ℤ) := by rw [ZMod.val_zero]; rfl
    obtain ⟨hkeys, hring⟩ := @processNewNote_keys lib hash p spendScalar r
      ((PoolNote.genesis leaf : PoolNote hash).event index root)
    refine ⟨hkeys.trans ?_, hring⟩
    show (r.matchSelfTag 0).2 = _
    rw [hzero, matchSelfTag_keys]
    rfl
  | minted n =>
    cases hmemo : n.emitted.memo with
    | none =>
      have hself : (PoolNote.minted n).selfTag = some n.emitted.ephPub.x := if_pos hmemo
      have hnone : (PoolNote.minted n).memoTag = none := by simp [PoolNote.memoTag, hmemo]
      rw [hself, hnone]
      unfold PoolNote.event
      have htype : (n.emitted.event index index (toHex root.val)).type = .newNote := by
        simp [Emitted.event, hmemo]
      have hprocess : p.process lib hash spendScalar r (n.emitted.event index index (toHex root.val)) =
          processNewNote lib hash p spendScalar r (n.emitted.event index index (toHex root.val)) := by
        unfold NoteProcessor.process
        simp only [htype]
      rw [hprocess]
      obtain ⟨hkeys, hring⟩ := @processNewNote_keys lib hash p spendScalar r
        (n.emitted.event index index (toHex root.val))
      refine ⟨hkeys.trans ?_, hring⟩
      exact matchSelfTag_keys r n.emitted.ephPub.x
    | some memo =>
      have hnone : (PoolNote.minted n).selfTag = none := by simp [PoolNote.selfTag, hmemo]
      have hsome : (PoolNote.minted n).memoTag = some memo.1 := by simp [PoolNote.memoTag, hmemo]
      rw [hnone, hsome]
      unfold PoolNote.event
      have htype : (n.emitted.event index index (toHex root.val)).type = .newMemo := by
        simp [Emitted.event, hmemo]
      have hprocess : p.process lib hash spendScalar r (n.emitted.event index index (toHex root.val)) =
          processMemo lib hash p r (n.emitted.event index index (toHex root.val)) := by
        unfold NoteProcessor.process
        simp only [htype]
      rw [hprocess]
      obtain ⟨hkeys, hring⟩ := @processMemo_keys lib hash p r
        (n.emitted.event index index (toHex root.val)) memo.1 (memo.2.val : ℤ)
        (by simp [Emitted.event, hmemo]) (by simp [Emitted.event, hmemo])
      exact ⟨hkeys, by rw [hring]⟩

/-! ## What is read -/

variable {skView : Fr} {ring : ComplianceKeyRing} {r : KeyRepository} {p : NoteProcessor} {i : ℕ} {root : Bytes 32}

theorem ExactKeys.self_entry (h : ExactKeys lib hash skView r) {tag : Fr} {index : ℕ} {key : Fr} :
    r.self.entries tag = some (index, key) ↔
      index < nextOf r false ∧ First (tagged lib (accountOf hash skView).getSelfEphemeral) tag index key :=
  h.self tag index key

theorem ExactKeys.incoming_entry (h : ExactKeys lib hash skView r) {tag : Fr} {index : ℕ} {key : Fr} :
    r.incoming.entries tag = some (index, key) ↔
      index < nextOf r true ∧ First (tagged lib (accountOf hash skView).getIncomingKey) tag index key :=
  h.incoming tag index key

/-- A new note without a match is not read. -/
theorem process_noMatch {event : UnprocessedEvent} (spendScalar : Fr) (htype : event.type = .newNote)
    (hmatch : (r.matchSelfTag event.args.ephemeralX).1 = none) :
    (p.process lib hash spendScalar r event).1 = none := by
  unfold NoteProcessor.process
  simp only [htype]
  unfold processNewNote
  simp only [hmatch]

theorem process_memo_noMatch {event : UnprocessedEvent} (spendScalar : Fr) {tag cekWrap : ℤ}
    (htype : event.type = .newMemo) (htag : event.args.tag = some tag) (hwrap : event.args.cekWrap = some cekWrap)
    (hmatch : (r.matchIncomingTag tag).1 = none) : (p.process lib hash spendScalar r event).1 = none := by
  unfold NoteProcessor.process
  simp only [htype]
  unfold processMemo
  simp only [htag, hwrap, hmatch]

/-- The note that is read of a self note. -/
theorem process_self_iff (hlib : lib.Lawful) {n : MintedNote hash}
    (hpsi : Set.InjOn (computePsi hash) (contentKeys p.keys n.compliancePk n.eph))
    (hreduced : ∀ e ∈ p.keys.ordered, Reduced e.pk) (hexact : ExactKeys lib hash skView r) (hmemo : n.emitted.memo = none)
    (hleaf : LeafCollisionFree lib hash p.keys n.note.1 n.eph (packed n.emitted.ciphertext)) (w : WalletNote) :
    (p.process lib hash (deriveSelfSpendKey hash skView) r ((PoolNote.minted n).event i root)).1 = some w ↔
      ∃ isIncoming index, Reads lib hash skView p.keys i (.minted n) isIncoming index w ∧
        index < nextOf r isIncoming := by
  obtain ⟨note, eph, compliancePk, m, hmints⟩ := n
  obtain ⟨minted, hminted, heven, rfl | ⟨_, _, _, -, rfl⟩⟩ := hmints.cases
  · generalize hevent : (PoolNote.minted ⟨note, eph, compliancePk, _, hmints⟩ : PoolNote hash).event i root = event
    have htype : event.type = .newNote := by rw [← hevent]; rfl
    have hx : event.args.ephemeralX = (minted.ephPub.x.val : ℤ) := by rw [← hevent]; rfl
    have hindex : event.args.leafIndex = i := by rw [← hevent]; rfl
    have hblock : event.blockNumber = (i : ℤ) := by rw [← hevent]; rfl
    have hpacked : event.args.packedCiphertext = packed minted.ciphertext := by rw [← hevent]; rfl
    have hcommitment : toFr event.args.commitment = .ok minted.leaf := by
      rw [← hevent]
      exact toFr_toBytes minted.leaf
    have hmatch : (r.matchSelfTag event.args.ephemeralX).1 = r.self.entries minted.ephPub.x := by
      rw [hx, matchSelfTag_val]
    cases hentry : r.self.entries minted.ephPub.x with
    | none =>
      rw [process_noMatch _ htype (hmatch.trans hentry)]
      constructor
      · intro h
        cases h
      · rintro ⟨_, index, hreads, hlt⟩
        cases hreads with
        | self _ hfirst =>
          rw [hexact.self_entry.2 ⟨hlt, hfirst⟩] at hentry
          cases hentry
        | memo hmemo' => cases hmemo'
    | some entry =>
      obtain ⟨index, key⟩ := entry
      obtain ⟨hlt, hfirst⟩ := hexact.self_entry.1 hentry
      obtain rfl : key = eph := hmints.eq_of_tagged hlib (fun _ => toBjjScalar_lt _) hfirst.has
      have hread := wallet_read_self hlib hpsi hminted (p := p) (deriveSelfSpendKey hash skView) htype
        (hmatch.trans hentry) hreduced hpacked hcommitment (by rw [hpacked]; exact hleaf)
      rw [hindex, hblock] at hread
      constructor
      · intro h
        by_cases hreadable : Acceptable lib hash (deriveSelfSpendKey hash skView) note.1 ∧
            Opens p.keys compliancePk (some (i : ℤ))
        · rw [hread.1 hreadable.1 hreadable.2] at h
          cases h
          exact ⟨false, index, .self rfl hfirst hreadable.1 hreadable.2, hlt⟩
        · rw [hread.2 hreadable] at h
          cases h
      · rintro ⟨_, index', hreads, -⟩
        cases hreads with
        | self _ hfirst' hacceptable hopens =>
          obtain rfl := hfirst.index_eq hfirst'
          exact hread.1 hacceptable hopens
        | memo hmemo' => cases hmemo'
  · cases hmemo

/-- The note that is read of a memo. -/
theorem process_memo_iff (hlib : lib.Lawful) (hexact : ExactKeys lib hash skView r) {n : MintedNote hash}
    {memo : Fr × Fr} (hmemo : n.emitted.memo = some memo) (w : WalletNote) :
    (p.process lib hash (deriveSelfSpendKey hash skView) r ((PoolNote.minted n).event i root)).1 = some w ↔
      ∃ isIncoming index, Reads lib hash skView p.keys i (.minted n) isIncoming index w ∧
        index < nextOf r isIncoming := by
  obtain ⟨note, eph, compliancePk, m, hmints⟩ := n
  obtain ⟨minted, hminted, heven, rfl | ⟨spendPub, viewPub, V, hmemoFor, rfl⟩⟩ := hmints.cases
  · cases hmemo
  · generalize hevent : (PoolNote.minted ⟨note, eph, compliancePk, _, hmints⟩ : PoolNote hash).event i root = event
    have hpoint := hmemoFor.point
    have hmemoEvent : MemoEvent hash eph minted V event := by
      rw [← hevent]
      exact ⟨rfl, congrArg (fun p : Circuit.Point => some (p.x.val : ℤ)) hpoint, rfl, rfl, toFr_toBytes minted.leaf,
        rfl⟩
    have hindex : event.args.leafIndex = i := by rw [← hevent]; rfl
    have hmatch : (r.matchIncomingTag ((V : BabyJubJub.Point).x.val : ℤ)).1 =
        r.incoming.entries (V : BabyJubJub.Point).x := by rw [matchIncomingTag_val]
    have hview : viewPub.x = (V : BabyJubJub.Point).x := by rw [hpoint]; rfl
    cases hentry : r.incoming.entries (V : BabyJubJub.Point).x with
    | none =>
      rw [process_memo_noMatch _ hmemoEvent.type hmemoEvent.tag hmemoEvent.cekWrap (hmatch.trans hentry)]
      constructor
      · intro h
        cases h
      · rintro ⟨_, index, hreads, hlt⟩
        cases hreads with
        | self hmemo' => cases hmemo'
        | memo hmemo' hfirst =>
          cases hmemo'
          rw [hview] at hfirst
          rw [hexact.incoming_entry.2 ⟨hlt, hfirst⟩] at hentry
          cases hentry
    | some entry =>
      obtain ⟨index, key⟩ := entry
      obtain ⟨hlt, hfirst⟩ := hexact.incoming_entry.1 hentry
      obtain ⟨htag, hkey⟩ := tagOf_of_tagged hfirst.has
      have hVeven := hmemoFor.even
      rw [hpoint] at hVeven
      have hV : Circuit.scaled key BabyJubJub.base = V := eq_of_tagOf hlib hVeven htag
      have hkeylt : key.val < subOrder := by
        rw [hkey]
        exact toBjjScalar_lt _
      have hacceptable : Acceptable lib hash key note.1 ↔ note.1.noteType = noteTypeStandard := by
        refine ⟨fun h => h.noteType, fun hstandard => ⟨hstandard, hminted.owner, hminted.assetId, ?_⟩⟩
        rw [hmemoFor.owner, hmemoFor.standard hstandard, hpoint, pubkeyOwner_ofPoint, publicKey_scaled hlib, hV]
      have hopen := @openMemo_eq lib hash _ _ _ hlib _ hminted heven _ hmemoFor.nonzero _ hmemoEvent index _ hkeylt hV
      rw [hindex] at hopen
      have hread : ∀ {outcome : RecoverOutcome}, openMemo lib hash event
          ((minted.cek + hash [(Circuit.scaled eph V : BabyJubJub.Point).x]).val : ℤ) (index, key) = .ok outcome →
          (p.process lib hash (deriveSelfSpendKey hash skView) r event).1 = outcome.note? := by
        intro outcome h
        exact process_newMemo (deriveSelfSpendKey hash skView) hmemoEvent.type hmemoEvent.tag hmemoEvent.cekWrap
          (hmatch.trans hentry) h
      constructor
      · intro h
        by_cases hstandard : note.1.noteType = noteTypeStandard
        · rw [hread (hopen.1 (hacceptable.2 hstandard))] at h
          cases h
          refine ⟨true, index, .memo rfl ?_ hstandard, hlt⟩
          rw [hview]
          exact hfirst
        · rw [hread (hopen.2 fun hacc => hstandard (hacceptable.1 hacc))] at h
          cases h
      · rintro ⟨_, index', hreads, -⟩
        cases hreads with
        | self hmemo' => cases hmemo'
        | memo hmemo' hfirst' hstandard =>
          cases hmemo'
          rw [hview] at hfirst'
          obtain rfl := hfirst.index_eq hfirst'
          have hkeys := hfirst.has.symm.trans hfirst'.has
          cases hkeys
          rw [hread (hopen.1 (hacceptable.2 hstandard))]
          rfl

/-- The note that is read of a leaf. -/
theorem process_iff (hlib : lib.Lawful) {n : PoolNote hash}
    (hpsi : ∀ m, n = .minted m → Set.InjOn (computePsi hash) (contentKeys p.keys m.compliancePk m.eph))
    (hreduced : ∀ e ∈ p.keys.ordered, Reduced e.pk) (hexact : ExactKeys lib hash skView r)
    (hleaf : ∀ m, n = .minted m → LeafCollisionFree lib hash p.keys m.note.1 m.eph (packed m.emitted.ciphertext))
    (w : WalletNote) :
    (p.process lib hash (deriveSelfSpendKey hash skView) r (n.event i root)).1 = some w ↔
      ∃ isIncoming index, Reads lib hash skView p.keys i n isIncoming index w ∧ index < nextOf r isIncoming := by
  cases n with
  | genesis leaf =>
    have hzero : (0 : ℤ) = ((0 : Fr).val : ℤ) := by rw [ZMod.val_zero]; rfl
    have hentry : r.self.entries 0 = none := by
      by_contra hne
      obtain ⟨⟨index, key⟩, hentry⟩ := Option.ne_none_iff_exists'.1 hne
      exact not_tagOf_zero hlib (tagOf_of_tagged (hexact.self_entry.1 hentry).2.has).1
    have hmatch : (r.matchSelfTag 0).1 = none := by
      rw [hzero, matchSelfTag_val, hentry]
    rw [@process_noMatch lib hash r p ((PoolNote.genesis leaf : PoolNote hash).event i root) _ rfl hmatch]
    constructor
    · intro h
      cases h
    · rintro ⟨_, _, hreads, -⟩
      cases hreads
  | minted n =>
    cases hmemo : n.emitted.memo with
    | none => exact process_self_iff hlib (hpsi n rfl) hreduced hexact hmemo (hleaf n rfl) w
    | some memo => exact process_memo_iff hlib hexact hmemo w

end Kakure.Sync
