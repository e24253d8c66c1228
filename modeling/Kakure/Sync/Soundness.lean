import Kakure.Sync.History

/-!
# The notes a wallet takes are spendable

What `NoteProcessor` returns of a note that a circuit minted, against the checks of `verify_spend`.  The scanner
looks at the leaf, the type, the owner and the asset; the version follows from the mint, whose note has the
same leaf.

* `recover_note` — what is known of a note that is recovered;
* `Mints.version` — every mint asserts the version;
* `scan_sound` — so what is returned passes the checks of the note.
-/

namespace Kakure.Circuit

open Notes

variable {poseidon2 : List Fr → Fr} {note : Note} {eph : Fr} {compliancePk : Point}

/-- A note that is minted has the version of notes. -/
theorem mintCommon_version {m : Minted} (h : mintCommon poseidon2 note eph compliancePk = some m) :
    note.1.noteVersion = noteVersion := by
  unfold mintCommon at h
  simp only [bind_eq_some, guard_eq_some, exists_and_left, exists_const] at h
  obtain ⟨_, -, -, hversion, -⟩ := h
  exact hversion

theorem selfMint_version {s : SelfMint} (h : selfMint poseidon2 note eph compliancePk = some s) :
    note.1.noteVersion = noteVersion := by
  unfold selfMint at h
  obtain ⟨m, hm, -⟩ := bind_eq_some.1 h
  exact mintCommon_version hm

theorem mintIncomingNote_version {spendPub viewPub : Point} {i : IncomingMint}
    (h : mintIncomingNote poseidon2 note eph compliancePk spendPub viewPub = some i) :
    note.1.noteVersion = noteVersion := by
  unfold mintIncomingNote at h
  simp only [bind_eq_some, guard_eq_some, exists_and_left, exists_const] at h
  obtain ⟨-, -, -, -, _, -, -, -, _, -, -, m, hm, -⟩ := h
  exact mintCommon_version hm

end Kakure.Circuit

namespace Kakure.Sync

open Notes Tss Wallet Sdk Frost Trials Fallible

/-! ## The checks of a note -/

/-- What `verify_spend` asserts of a note with a scalar, and that the note has a leaf. -/
structure NoteChecks (hash : List Fr → Fr) (note : Notes.Note) (spendScalar leaf : Fr) : Prop where
  range : note.value < 2 ^ 128
  leaf : hash note.preimage = leaf
  owner : ∃ pk, Circuit.derivePublicKey spendScalar = some pk ∧ note.owner = Circuit.pubkeyOwner hash pk
  noteType : note.noteType = noteTypeStandard
  noteVersion : note.noteVersion = noteVersion
  assetId : Circuit.assertAssetId note.assetId = some ()

/-- A note that passes them is spent by a valid scalar with a path from its leaf. -/
theorem NoteChecks.verifySpend {hash : List Fr → Fr} {note : Notes.Note} {spendScalar leaf : Fr}
    (h : NoteChecks hash note spendScalar leaf) (hscalar : ValidScalar spendScalar) (poseidon : Fr → Fr → Fr → Fr)
    {leafIndex root : Fr} {path : Fin Circuit.treeDepth → Fr}
    (hroot : leanImtInclusionProof poseidon leaf leafIndex path = some root) :
    Circuit.verifySpend poseidon hash ⟨note, h.range⟩ spendScalar leafIndex path =
      some (computeNullifier hash note.psi leafIndex, root) := by
  obtain ⟨pk, hpk, howner⟩ := h.owner
  have hscalar' : Circuit.assertSubgroupScalar spendScalar = some () :=
    Circuit.assertSubgroupScalar_eq_some.2 hscalar
  have hleaf : Circuit.Note.leaf hash ⟨note, h.range⟩ = leaf := h.leaf
  unfold Circuit.verifySpend Circuit.spendMembershipNullifier
  rw [Circuit.bind_of_some hscalar', Circuit.bind_of_some hpk, Circuit.bind_guard howner,
    Circuit.bind_guard h.noteType, Circuit.bind_guard h.noteVersion, Circuit.bind_of_some h.assetId, hleaf,
    Circuit.bind_of_some hroot]
  rfl

/-! ## What is recovered -/

variable {lib : Library} {hash : List Fr → Fr}

/-- What is known of a note that is recovered. -/
theorem recover_note {cek commitment spendScalar : Fr} {packedCiphertext : List String} {leafIndex index : ℕ}
    {isIncoming : Bool} {w : WalletNote}
    (h : recover lib hash cek packedCiphertext commitment leafIndex spendScalar isIncoming index = .ok (.note w)) :
    openNote hash cek packedCiphertext = .ok w.note ∧ w.note.value < 2 ^ 128 ∧ hash w.note.preimage = commitment ∧
      Acceptable lib hash spendScalar w.note ∧
      w = walletNote hash w.note leafIndex spendScalar isIncoming index := by
  unfold recover at h
  obtain ⟨note, hopen, h⟩ := bind_eq_ok.1 h
  obtain ⟨rebuilt, hrebuilt, h⟩ := bind_eq_ok.1 h
  have hvalue : note.value < 2 ^ 128 := by
    by_contra hge
    rw [leaf, if_pos (not_lt.1 hge)] at hrebuilt
    cases hrebuilt
  rw [leaf_ok hvalue] at hrebuilt
  cases hrebuilt
  split_ifs at h with hleaf htype howned hasset howner
  · cases h
  · cases h
  · cases h
  · cases h
  · cases h
  · cases h
    have hleaf' := not_not.1 hleaf
    refine ⟨hopen, hvalue, hleaf', ⟨not_not.1 htype, howned, not_le.1 hasset, not_not.1 howner⟩, ?_⟩
    simp [walletNote, hleaf']

/-- A self note that is returned was recovered under a key of the ring. -/
theorem processNewNote_some {p : NoteProcessor} {spendScalar : Fr} {r : KeyRepository} {event : UnprocessedEvent}
    {w : WalletNote} (h : (processNewNote lib hash p spendScalar r event).1 = some w) :
    ∃ index key, (r.matchSelfTag event.args.ephemeralX).1 = some (index, key) ∧
      ∃ commitment, toFr event.args.commitment = .ok commitment ∧
        ∃ e ∈ p.keys.ordered, ∃ cek, deriveCek lib key e.pk = .ok cek ∧
          recover lib hash cek event.args.packedCiphertext commitment event.args.leafIndex spendScalar false index =
            .ok (.note w) := by
  unfold processNewNote at h
  dsimp only at h
  cases hmatch : (r.matchSelfTag event.args.ephemeralX).1 with
  | none =>
    rw [hmatch] at h
    cases h
  | some found =>
    rw [hmatch] at h
    have hopen : openSelf lib hash p.keys spendScalar event found = .ok (some (some w)) := by
      cases ho : openSelf lib hash p.keys spendScalar event found with
      | error e =>
        simp only [ho] at h
        cases h
      | ok answer =>
        cases answer with
        | none =>
          simp only [ho] at h
          cases h
        | some answer =>
          simp only [ho] at h
          rw [h]
    unfold openSelf at hopen
    obtain ⟨commitment, hcommitment, htrial⟩ := bind_eq_ok.1 hopen
    obtain ⟨before, e, after, hsplit, -, hanswer⟩ := trial_answer_iff.1 htrial
    refine ⟨found.1, found.2, rfl, commitment, hcommitment, e, ?_, ?_⟩
    · have he : e ∈ p.keys.candidatesFor (some event.blockNumber) := by simp [hsplit]
      exact ComplianceKeyRing.mem_candidatesFor.1 he
    · unfold tryEpoch at hanswer
      cases hcek : deriveCek lib found.2 e.pk with
      | error err =>
        simp only [hcek] at hanswer
        cases hanswer
      | ok cek =>
        refine ⟨cek, rfl, ?_⟩
        simp only [hcek] at hanswer
        split at hanswer
        · cases hanswer
        · rename_i note hnote
          cases hanswer
          exact hnote
        · cases hanswer
        · cases hanswer

/-- A memo that is returned was opened. -/
theorem processMemo_some {p : NoteProcessor} {r : KeyRepository} {event : UnprocessedEvent} {tag cekWrap : ℤ}
    {w : WalletNote} (htag : event.args.tag = some tag) (hwrap : event.args.cekWrap = some cekWrap)
    (h : (processMemo lib hash p r event).1 = some w) :
    ∃ index key, (r.matchIncomingTag tag).1 = some (index, key) ∧
      openMemo lib hash event cekWrap (index, key) = .ok (.note w) := by
  unfold processMemo at h
  simp only [htag, hwrap] at h
  cases hmatch : (r.matchIncomingTag tag).1 with
  | none =>
    simp only [hmatch] at h
    cases h
  | some found =>
    refine ⟨found.1, found.2, rfl, ?_⟩
    simp only [hmatch] at h
    split at h
    · rename_i note hopen
      cases h
      exact hopen
    · cases h

/-! ## Notes that circuits minted -/

/-- Every mint asserts the version. -/
theorem Mints.version {note : Circuit.Note} {eph : Fr} {compliancePk : Circuit.Point} {m : Emitted}
    (h : Mints hash note eph compliancePk m) : note.1.noteVersion = noteVersion := by
  cases h with
  | self h => exact Circuit.selfMint_version (Circuit.mintSelfNote_eq h).2
  | selfMultisig h => exact Circuit.selfMint_version (Circuit.mintSelfNoteMultisig_eq h).2.2
  | deposit h => exact Circuit.selfMint_version h
  | incoming h => exact Circuit.mintIncomingNote_version h

/-- A note that is acceptable, of the version and in the range passes the checks. -/
theorem NoteChecks.of_acceptable (hlib : lib.Lawful) {note : Notes.Note} {spendScalar commitment : Fr}
    (hlt : spendScalar.val < subOrder) (hvalue : note.value < 2 ^ 128) (hleaf : hash note.preimage = commitment)
    (hacceptable : Acceptable lib hash spendScalar note) (hversion : note.noteVersion = Notes.noteVersion) :
    NoteChecks hash note spendScalar commitment where
  range := hvalue
  leaf := hleaf
  owner := by
    have hlt' : spendScalar.val < 16 ^ 63 := lt_trans hlt (by norm_num [subOrder])
    refine ⟨_, Circuit.derivePublicKey_eq hlt', ?_⟩
    have hpoint : spendScalar.val • BabyJubJub.base8 = (Circuit.scaled spendScalar BabyJubJub.base : BabyJubJub.Point) := by
      rw [Circuit.scaled, BabyJubJub.coe_natCast_smul]
      rfl
    rw [hacceptable.owner, publicKey_scaled hlib, hpoint, pubkeyOwner_ofPoint]
  noteType := hacceptable.noteType
  noteVersion := hversion
  assetId := by
    have hasset : note.assetId.val < 256 ^ 20 := lt_of_lt_of_le hacceptable.asset (by norm_num [assetModulus])
    exact Circuit.guard_eq_some.2 hasset

/-- What is known of a note that a wallet returns: the checks pass, and its scalar is its self spend key or a key
that is not zero. -/
structure Returned (hash : List Fr → Fr) (skView : Fr) (leaf : Fr) (leafIndex : ℕ) (w : WalletNote) : Prop where
  checks : NoteChecks hash w.note w.spendScalar leaf
  lt : w.spendScalar.val < subOrder
  scalar : w.spendScalar = deriveSelfSpendKey hash skView ∨ w.spendScalar ≠ 0
  commitment : w.commitment = leaf
  index : w.leafIndex = leafIndex
  nullifier : w.nullifier = computeNullifier hash w.note.psi leafIndex

variable {skView : Fr} {r : KeyRepository} {p : NoteProcessor}

/-- A self note: the key that opened it may be another one, but no other note has the leaf. -/
theorem returned_self (hlib : lib.Lawful) (hderived : Derived lib (accountOf hash skView) r) {n : MintedNote hash}
    (hleaf : LeafCollisionFree lib hash p.keys n.note.1 n.eph (packed n.emitted.ciphertext)) {leafIndex : ℕ}
    {blockNumber : ℤ} {txHash : String} {w : WalletNote}
    (h : (processNewNote lib hash p (deriveSelfSpendKey hash skView) r
      (n.emitted.event leafIndex blockNumber txHash)).1 = some w) :
    Returned hash skView n.emitted.leaf leafIndex w := by
  obtain ⟨index, key, hmatch, commitment, hcommitment, e, he, cek, hcek, hrecover⟩ := processNewNote_some h
  obtain ⟨hopen, hvalue, hpreimage, hacceptable, hw⟩ := recover_note hrecover
  have hcommitment' : toFr (n.emitted.event leafIndex blockNumber txHash).args.commitment = .ok n.emitted.leaf :=
    toFr_toBytes n.emitted.leaf
  rw [hcommitment'] at hcommitment
  cases hcommitment
  have hkey : key = n.eph := by
    have hentry : r.self.entries n.emitted.ephPub.x = some (index, key) := by
      rw [← hmatch]
      exact (congrArg Prod.fst (matchSelfTag_val r n.emitted.ephPub.x)).symm
    exact n.mints.eq_of_tagged hlib (fun _ => toBjjScalar_lt _) (hderived.self _ _ _ hentry)
  rw [hkey] at hcek
  -- the note that was opened has the leaf of the note that was minted, and so its version
  have hminted : hash n.note.1.preimage = n.emitted.leaf := by
    obtain ⟨minted, hminted, -, hm | ⟨_, _, _, -, hm⟩⟩ := n.mints.cases <;>
      rw [hm, hminted.leaf]
  have hsame := hleaf e he cek w.note hcek hopen (hpreimage.trans hminted.symm)
  have hversion : w.note.noteVersion = noteVersion := by
    rw [← n.mints.version]
    exact (List.cons.inj hsame).1
  have hscalar : w.spendScalar = deriveSelfSpendKey hash skView := by rw [hw]; rfl
  refine ⟨?_, ?_, Or.inl hscalar, ?_, ?_, ?_⟩
  · rw [hscalar]
    exact .of_acceptable hlib (toBjjScalar_lt _) hvalue hpreimage hacceptable hversion
  · rw [hscalar]
    exact toBjjScalar_lt _
  · rw [hw, ← hpreimage]
    rfl
  · rw [hw]
    rfl
  · rw [hw]
    rfl

/-- A memo: it opens to the note that was minted. -/
theorem returned_memo (hlib : lib.Lawful) (hderived : Derived lib (accountOf hash skView) r) {n : MintedNote hash}
    {memo : Fr × Fr} (hmemo : n.emitted.memo = some memo) {leafIndex : ℕ} {blockNumber : ℤ} {txHash : String}
    {w : WalletNote}
    (h : (processMemo lib hash p r (n.emitted.event leafIndex blockNumber txHash)).1 = some w) :
    Returned hash skView n.emitted.leaf leafIndex w := by
  have hversion := n.mints.version
  obtain ⟨note, eph, compliancePk, m, hmints⟩ := n
  obtain ⟨minted, hminted, heven, rfl | ⟨spendPub, viewPub, V, hfor, rfl⟩⟩ := hmints.cases
  · cases hmemo
  · generalize hm : (⟨minted.leaf, minted.ephPub, some (viewPub.x, minted.cek + hash [(Circuit.scaled eph V :
      BabyJubJub.Point).x]), minted.ciphertext⟩ : Emitted).event leafIndex blockNumber txHash = event at h
    have hevent : MemoEvent hash eph minted V event := by
      rw [← hm]
      exact ⟨rfl, by rw [hfor.point]; rfl, rfl, rfl, toFr_toBytes minted.leaf, rfl⟩
    have hindex : event.args.leafIndex = leafIndex := by rw [← hm]; rfl
    obtain ⟨index, key, hmatch, hopen⟩ := processMemo_some hevent.tag hevent.cekWrap h
    have hentry : r.incoming.entries (V : BabyJubJub.Point).x = some (index, key) := by
      rw [← hmatch]
      exact (congrArg Prod.fst (matchIncomingTag_val r _)).symm
    obtain ⟨htag, hkey⟩ := tagOf_of_tagged (hderived.incoming _ _ _ hentry)
    have hVeven := hfor.even
    rw [hfor.point] at hVeven
    have hV : Circuit.scaled key BabyJubJub.base = V := eq_of_tagOf hlib hVeven htag
    have hlt : key.val < subOrder := by
      rw [hkey]
      exact toBjjScalar_lt _
    have hne : key ≠ 0 := by
      rintro rfl
      refine hfor.nonzero ?_
      rw [← hV, Circuit.scaled, ZMod.val_zero, Nat.cast_zero, zero_smul]
    have heq := @openMemo_eq lib hash _ _ _ hlib _ hminted heven _ hfor.nonzero _ hevent index _ hlt hV
    by_cases hacceptable : Acceptable lib hash key note.1
    · rw [heq.1 hacceptable, hindex] at hopen
      cases hopen
      exact ⟨.of_acceptable hlib hlt note.2 hminted.leaf.symm hacceptable hversion, hlt, Or.inr hne,
        hminted.leaf.symm, rfl, rfl⟩
    · rw [heq.2 hacceptable] at hopen
      cases hopen

/-- So it is with every event of a mint. -/
theorem returned (hlib : lib.Lawful) (hderived : Derived lib (accountOf hash skView) r) {n : MintedNote hash}
    (hleaf : LeafCollisionFree lib hash p.keys n.note.1 n.eph (packed n.emitted.ciphertext)) {leafIndex : ℕ}
    {blockNumber : ℤ} {txHash : String} {w : WalletNote}
    (h : (p.process lib hash (deriveSelfSpendKey hash skView) r
      (n.emitted.event leafIndex blockNumber txHash)).1 = some w) :
    Returned hash skView n.emitted.leaf leafIndex w := by
  unfold NoteProcessor.process at h
  cases hmemo : n.emitted.memo with
  | none =>
    have htype : (n.emitted.event leafIndex blockNumber txHash).type = .newNote := by simp [Emitted.event, hmemo]
    simp only [htype] at h
    exact returned_self hlib hderived hleaf h
  | some memo =>
    have htype : (n.emitted.event leafIndex blockNumber txHash).type = .newMemo := by simp [Emitted.event, hmemo]
    simp only [htype] at h
    exact returned_memo hlib hderived hmemo h

/-- Whatever a circuit minted, a note that the processor returns of its event passes the note's checks of
`verify_spend` with the scalar it recorded; with a path from the leaf it is spent under the recorded nullifier, if
the wallet's self spend key is not zero. -/
theorem scan_sound (hlib : lib.Lawful) (skView : Fr) (calls : List RepoCall) (p : NoteProcessor)
    (n : MintedNote hash)
    (hleaf : LeafCollisionFree lib hash p.keys n.note.1 n.eph (packed n.emitted.ciphertext)) (leafIndex : ℕ)
    (blockNumber : ℤ) (txHash : String) (w : WalletNote)
    (h : (p.process lib hash (deriveSelfSpendKey hash skView)
      (calls.foldl (RepoCall.apply lib (accountOf hash skView)) .new)
      (n.emitted.event leafIndex blockNumber txHash)).1 = some w) :
    ∃ hchecks : NoteChecks hash w.note w.spendScalar n.emitted.leaf,
      deriveSelfSpendKey hash skView ≠ 0 → ∀ (poseidon : Fr → Fr → Fr → Fr) (root : Fr)
        (path : Fin Circuit.treeDepth → Fr),
        leanImtInclusionProof poseidon n.emitted.leaf (leafIndex : Fr) path = some root →
          Circuit.verifySpend poseidon hash ⟨w.note, hchecks.range⟩ w.spendScalar (w.leafIndex : Fr) path =
            some (w.nullifier, root) := by
  have hreturned := returned hlib (calls_derived derived_new calls) hleaf h
  refine ⟨hreturned.checks, fun hspend poseidon root path hroot => ?_⟩
  have hscalar : ValidScalar w.spendScalar := by
    rcases hreturned.scalar with hself | hne
    · exact ⟨hself ▸ hspend, hreturned.lt⟩
    · exact ⟨hne, hreturned.lt⟩
  rw [hreturned.nullifier, hreturned.index]
  exact hreturned.checks.verifySpend hscalar poseidon hroot

/-- A path of zeros leads from the first leaf to itself. -/
theorem inclusion_zero (poseidon : Fr → Fr → Fr → Fr) (leaf : Fr) :
    leanImtInclusionProof poseidon leaf 0 (fun _ : Fin Circuit.treeDepth => 0) = some leaf := by
  have hbits : toLeBits Circuit.treeDepth 0 = some fun _ => false := by simp [toLeBits]
  have hloop : ∀ levels : List (Fin Circuit.treeDepth),
      levels.foldlM (inclusionLevel poseidon (fun _ => false) fun _ => 0) leaf = some leaf := by
    intro levels
    induction levels with
    | nil => rfl
    | cons i levels ih =>
      rw [List.foldlM_cons]
      exact ih
  unfold leanImtInclusionProof
  rw [hbits]
  exact hloop _

/-- The sample wallet's note is spent with a path of zeros. -/
theorem scan_sound_sample :
    ∃ w : WalletNote, ∃ hchecks : NoteChecks sampleHash w.note w.spendScalar sampleEmitted.leaf,
      Circuit.verifySpend (fun _ _ _ => 0) sampleHash ⟨w.note, hchecks.range⟩ w.spendScalar (w.leafIndex : Fr)
        (fun _ => 0) = some (w.nullifier, sampleEmitted.leaf) := by
  have hlib := Library.reference_lawful
  have hspend : deriveSelfSpendKey sampleHash 4 = 4 := toBjjScalar_four
  have hpass : KeysPass sampleKey ((⟨[⟨1, bigOf sampleKey, none⟩]⟩ : ComplianceKeyRing).candidatesFor (some 0)) := by
    refine passesUntil_of_forall fun e he => ?_
    rw [ComplianceKeyRing.mem_candidatesFor] at he
    rw [List.mem_singleton.1 he]
    exact validPoint_sampleKey
  have hring : RingOf ⟨[⟨1, bigOf sampleKey, none⟩]⟩ sampleKey := by
    refine ⟨fun e he => ?_, _, List.mem_cons_self, rfl⟩
    rw [List.mem_singleton.1 he]
    exact reduced_coords _
  have hrecovers : (sampleReader [⟨1, bigOf sampleKey, none⟩]).Recovers Library.reference sampleHash (fun _ _ _ => 0)
      sampleNote (sampleEmitted.event 0 0 "") :=
    (wallet_self_iff hlib sampleHash_psi.injOn minted_sample ((Circuit.isEvenY_ofPoint _).2 isEvenY_four) rfl
      (owns_sample _) registered_sample hring (leafCollisionFree_sample _)).2 hpass
  obtain ⟨nf, hread, -⟩ := hrecovers
  unfold sampleReader Reader.read at hread
  rw [Option.map_eq_some_iff] at hread
  obtain ⟨w, hw, -⟩ := hread
  obtain ⟨hchecks, hverify⟩ := scan_sound hlib 4 [RepoCall.ensureSelfLookahead 1] _
    ⟨sampleNote, 4, sampleKey, sampleEmitted, mints_sample⟩ (leafCollisionFree_sample _) 0 0 "" w hw
  refine ⟨w, hchecks, hverify ?_ (fun _ _ _ => 0) sampleEmitted.leaf (fun _ => 0) ?_⟩
  · rw [hspend]
    exact validScalar_four.1
  · have hzero : ((0 : ℕ) : Fr) = 0 := Nat.cast_zero
    rw [hzero]
    exact inclusion_zero _ _

end Kakure.Sync
