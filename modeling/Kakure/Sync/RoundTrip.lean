import Kakure.Circuits.Spend
import Kakure.Frost.MultisigScan

/-!
# From the mint to the scan

A note that a circuit mints, against the note that its owner's wallet or group reads from the event.  The
reader tries the compliance keys of its ring; a key that is no point of the subgroup, which the pool accepts as any
other, makes it stop.

* `wallet_sorted`, `group_sorted` — what comes of each key: one of the subgroup is passed over, unless the note was
  minted under it;
* `mint_scan_iff` — so a self note is read exactly if every key that is tried up to the minting one is of the
  subgroup; a memo always is.
-/

namespace Kakure.Sync

open Notes Tss Wallet Sdk Frost Trials Fallible

/-! ## Mints and readers -/

/-- The coordinates of a point of the circuits as bigints. -/
def bigOf (p : Circuit.Point) : Tss.Point := ((p.x.val : ℤ), (p.y.val : ℤ))

/-- A mint function accepts a note under a scalar and a compliance key, and this becomes public. -/
inductive Mints (hash : List Fr → Fr) (note : Circuit.Note) (eph : Fr) (compliancePk : Circuit.Point) : Emitted → Prop
  | self {s : Circuit.SelfMint} (h : Circuit.mintSelfNote hash note eph compliancePk = some s) :
      Mints hash note eph compliancePk (.ofSelf s)
  | selfMultisig {gpk : Circuit.Point} {s : Circuit.SelfMint}
      (h : Circuit.mintSelfNoteMultisig hash note eph compliancePk gpk = some s) :
      Mints hash note eph compliancePk (.ofSelf s)
  | deposit {s : Circuit.SelfMint} (h : Circuit.mintDeposit hash note eph compliancePk = some s) :
      Mints hash note eph compliancePk (.ofSelf s)
  | incoming {spendPub viewPub : Circuit.Point} {i : Circuit.IncomingMint}
      (h : Circuit.mintIncomingNote hash note eph compliancePk spendPub viewPub = some i) :
      Mints hash note eph compliancePk (.ofIncoming i)

/-- A nullifier that a spend circuit outputs for a note. -/
inductive SpendOutputs (poseidon : Fr → Fr → Fr → Fr) (hash : List Fr → Fr) (note : Circuit.Note) (leafIndex : Fr) :
    Fr → Prop
  | standard {spendScalar nf root : Fr} {path : Fin Circuit.treeDepth → Fr}
      (h : Circuit.verifySpend poseidon hash note spendScalar leafIndex path = some (nf, root)) :
      SpendOutputs poseidon hash note leafIndex nf
  | multisig {gpk : Circuit.Point} {nf root : Fr} {path : Fin Circuit.treeDepth → Fr}
      (h : Circuit.openMultisigNote poseidon hash note gpk leafIndex path = some (nf, root)) :
      SpendOutputs poseidon hash note leafIndex nf

/-- The account of a view key. -/
def accountOf (hash : List Fr → Fr) (skView : Fr) : Wallet.Account where
  getSelfEphemeral := deriveSelfEphemeral hash skView
  getIncomingKey := deriveIncomingKey hash skView

/-- Who reads events: a wallet with a key repository and a note processor, or a group with a scanner. -/
inductive Reader where
  | wallet (skView : Fr) (p : NoteProcessor) (r : KeyRepository)
  | group (cfg : MultisigScanConfig) (s : MultisigScanner)

namespace Reader

variable (lib : Library) (hash : List Fr → Fr)

/-- The compliance keys a reader tries. -/
def ring : Reader → ComplianceKeyRing
  | wallet _ p _ => p.keys
  | group _ s => s.complianceKeys

/-- The note a reader reads from an event, and its nullifier. -/
def read : Reader → UnprocessedEvent → Option (Notes.Note × Fr)
  | wallet skView p r, event =>
    (p.process lib hash (deriveSelfSpendKey hash skView) r event).1.map fun n => (n.note, n.nullifier)
  | group _ s, event => (s.readNote lib hash event).1.map fun view => (view.note, view.nullifier)

/-- The repository or the scanner is in a state that some calls lead to. -/
def Reached : Reader → Prop
  | wallet skView _ r => ∃ calls : List RepoCall, r = calls.foldl (RepoCall.apply lib (accountOf hash skView)) .new
  | group cfg s => ∃ s₀, MultisigScanner.create lib hash cfg = .ok s₀ ∧
      ∃ calls : List ScanCall, s = scanned lib hash s₀ calls

/-- The keys of a reader own a note: those of a wallet the standard notes to its spend key, and the standard memos,
whose tag says whose they are; those of a group the notes of their type to its key. -/
def Owns (note : Notes.Note) (m : Emitted) : Reader → Prop
  | wallet skView _ _ => note.noteType = noteTypeStandard ∧
      (m.memo = none → note.owner = pubkeyOwner hash (publicKey lib (deriveSelfSpendKey hash skView)))
  | group cfg _ => note.noteType = noteTypeMultisig ∧ note.owner = pubkeyOwner hash cfg.gpk

/-- The tag of an event is registered. -/
def Registered (m : Emitted) : Reader → Prop
  | wallet _ _ r =>
    match m.memo with
    | none => (r.self.entries m.ephPub.x).isSome
    | some memo => (r.incoming.entries memo.1).isSome
  | group _ s =>
    match m.memo with
    | none => (s.selfTags m.ephPub.x).isSome
    | some memo => (s.incomingTags memo.1).isSome

/-- The reader reads the note, with the nullifier of the spend circuits. -/
def Recovers (poseidon : Fr → Fr → Fr → Fr) (note : Circuit.Note) (event : UnprocessedEvent) (reader : Reader) :
    Prop :=
  ∃ nf, reader.read lib hash event = some (note.1, nf) ∧
    ∀ nf', SpendOutputs poseidon hash note event.args.leafIndex nf' → nf = nf'

end Reader

/-- No note that a key of the ring makes of the ciphertext has the leaf of another one. -/
def LeafCollisionFree (lib : Library) (hash : List Fr → Fr) (ring : ComplianceKeyRing) (note : Notes.Note) (eph : Fr)
    (packedCiphertext : List String) : Prop :=
  ∀ e ∈ ring.ordered, ∀ cek other, deriveCek lib eph e.pk = .ok cek → openNote hash cek packedCiphertext = .ok other →
    hash other.preimage = hash note.preimage → other.preimage = note.preimage

/-- The content keys of a note under the key it is minted for and under those of a ring. -/
def contentKeys (ring : ComplianceKeyRing) (compliancePk : Circuit.Point) (eph : Fr) : Set Fr :=
  {cek | ∃ P : BabyJubJub.subgroup, (bigOf compliancePk = coords P ∨ ∃ e ∈ ring.ordered, e.pk = coords P) ∧
    cek = (Circuit.scaled eph P : BabyJubJub.Point).x}

/-! ## What is emitted -/

variable {lib : Library} {hash : List Fr → Fr} {note : Circuit.Note} {eph : Fr} {compliancePk : Circuit.Point}
  {m : Emitted}

/-- A self note or a memo, with its content key. -/
theorem Mints.cases (h : Mints hash note eph compliancePk m) :
    ∃ minted, Circuit.MintedFrom hash note eph compliancePk minted ∧
      Circuit.isEvenY minted.ephPub ∧
      (m = ⟨minted.leaf, minted.ephPub, none, minted.ciphertext⟩ ∨
        ∃ spendPub viewPub V, Circuit.MemoFor hash note eph minted spendPub viewPub V ∧
          m = ⟨minted.leaf, minted.ephPub,
            some (viewPub.x, minted.cek + hash [(Circuit.scaled eph V : BabyJubJub.Point).x]), minted.ciphertext⟩) := by
  have hself : ∀ {s : Circuit.SelfMint}, Circuit.selfMint hash note eph compliancePk = some s →
      ∃ minted, Circuit.MintedFrom hash note eph compliancePk minted ∧ Circuit.isEvenY minted.ephPub ∧
        Emitted.ofSelf s = ⟨minted.leaf, minted.ephPub, none, minted.ciphertext⟩ := by
    intro s hs
    obtain ⟨minted, hminted, heven, rfl⟩ := Circuit.selfMint_eq hs
    exact ⟨minted, hminted, heven, rfl⟩
  cases h with
  | self h =>
    obtain ⟨minted, hminted, heven, hm⟩ := hself (Circuit.mintSelfNote_eq h).2
    exact ⟨minted, hminted, heven, Or.inl hm⟩
  | selfMultisig h =>
    obtain ⟨minted, hminted, heven, hm⟩ := hself (Circuit.mintSelfNoteMultisig_eq h).2.2
    exact ⟨minted, hminted, heven, Or.inl hm⟩
  | deposit h =>
    obtain ⟨minted, hminted, heven, hm⟩ := hself h
    exact ⟨minted, hminted, heven, Or.inl hm⟩
  | incoming h =>
    obtain ⟨minted, V, hminted, hmemo, rfl⟩ := Circuit.mintIncomingNote_eq h
    exact ⟨minted, hminted, hmemo.ephEven, Or.inr ⟨_, _, V, hmemo, rfl⟩⟩

/-- The nullifier that the spend circuits output. -/
theorem SpendOutputs.eq {poseidon : Fr → Fr → Fr → Fr} {leafIndex nf : Fr}
    (h : SpendOutputs poseidon hash note leafIndex nf) : nf = computeNullifier hash note.1.psi leafIndex := by
  cases h with
  | standard h => exact Circuit.verifySpend_nullifier h
  | multisig h => exact Circuit.openMultisigNote_nullifier h

theorem bigOf_ofPoint (P : BabyJubJub.Point) : bigOf (Circuit.ofPoint P) = coords P := rfl

/-! ## The keys -/

/-- A reduced scalar is its own multiple of the base point. -/
theorem publicKey_scaled (hlib : lib.Lawful) (scalar : Fr) :
    publicKey lib scalar = coords (Circuit.scaled scalar BabyJubJub.base) := publicKey_eq hlib scalar

/-- A valid scalar takes different points of the subgroup to different ones. -/
theorem scaled_injective {scalar : Fr} (h : ValidScalar scalar) : Function.Injective (Circuit.scaled scalar) := by
  intro P Q hPQ
  have hne : (scalar.val : ZMod subOrder) ≠ 0 := by
    intro hzero
    rw [ZMod.natCast_eq_zero_iff] at hzero
    have hval := Nat.eq_zero_of_dvd_of_lt hzero h.2
    exact h.1 ((ZMod.val_eq_zero scalar).1 hval)
  exact smul_right_injective _ hne hPQ

/-- A key that is none of the subgroup has no content key. -/
theorem deriveCek_of_invalid (hlib : lib.Lawful) {pk : Tss.Point} (hreduced : Reduced pk) (h : ¬ ValidPoint pk) :
    ∃ e, deriveCek lib eph pk = .error e := by
  cases hcek : deriveCek lib eph pk with
  | error e => exact ⟨e, rfl⟩
  | ok cek => exact absurd (deriveCek_ok hlib hreduced hcek).2 h

/-- The content key of the minting key is that of the note. -/
theorem deriveCek_minting (hlib : lib.Lawful) {minted : Circuit.Minted}
    (h : Circuit.MintedFrom hash note eph compliancePk minted) (hvalid : ValidPoint (bigOf compliancePk)) :
    deriveCek lib eph (bigOf compliancePk) = .ok minted.cek := by
  obtain ⟨C, rfl, hcek⟩ := h.key
  obtain ⟨P, hP, hcoords⟩ := hvalid
  have hC : C = P := Subtype.ext (coords_injective hcoords)
  rw [bigOf_ofPoint, deriveCek_coords hlib h.scalar (hC ▸ hP), hcek]
  rfl

/-- Another key of the subgroup has another one. -/
theorem deriveCek_other (hlib : lib.Lawful) {minted : Circuit.Minted}
    (h : Circuit.MintedFrom hash note eph compliancePk minted) {pk : Tss.Point} (hvalid : ValidPoint pk)
    (hne : pk ≠ bigOf compliancePk) : ∃ cek, deriveCek lib eph pk = .ok cek ∧ cek ≠ minted.cek := by
  obtain ⟨C, rfl, hcek⟩ := h.key
  obtain ⟨P, hP, rfl⟩ := hvalid
  refine ⟨_, deriveCek_coords hlib h.scalar hP, ?_⟩
  rw [hcek]
  intro heq
  have hPC : P = C := scaled_injective h.scalar (eq_of_x_eq heq)
  exact hne (by rw [hPC, bigOf_ofPoint])

/-- A tag and a scalar derived for it are those of the minting scalar. -/
theorem eq_of_tagOf (hlib : lib.Lawful) {P : BabyJubJub.subgroup} {scalar : Fr}
    (heven : Circuit.isEvenY (Circuit.ofPoint P)) (h : TagOf lib (P : BabyJubJub.Point).x scalar) :
    Circuit.scaled scalar BabyJubJub.base = P := by
  have heven' := h.even
  have htag := h.tag
  rw [publicKey_scaled hlib] at heven' htag
  rw [discoveryTag_coords] at htag
  exact Subtype.ext (eq_of_evenY heven' ((Circuit.isEvenY_ofPoint P).1 heven) htag.symm)

theorem eq_of_scaled_base {a b : Fr} (ha : a.val < subOrder) (hb : b.val < subOrder)
    (h : Circuit.scaled a BabyJubJub.base = Circuit.scaled b BabyJubJub.base) : a = b :=
  eq_of_smul_eq ha hb BabyJubJub.base_ne_zero h

/-- The content key of a note is that of the key it is minted for. -/
theorem minted_mem_contentKeys {minted : Circuit.Minted}
    (h : Circuit.MintedFrom hash note eph compliancePk minted) (ring : ComplianceKeyRing) :
    minted.cek ∈ contentKeys ring compliancePk eph := by
  obtain ⟨C, rfl, hcek⟩ := h.key
  exact ⟨C, Or.inl (bigOf_ofPoint C), hcek⟩

/-- What a key of the ring is agreed on with is a content key. -/
theorem deriveCek_mem_contentKeys (hlib : lib.Lawful) (hscalar : ValidScalar eph) {ring : ComplianceKeyRing}
    {e : ComplianceKeyEpoch} (he : e ∈ ring.ordered) (hvalid : ValidPoint e.pk) {cek : Fr}
    (hcek : deriveCek lib eph e.pk = .ok cek) : cek ∈ contentKeys ring compliancePk eph := by
  obtain ⟨P, hP, hcoords⟩ := hvalid
  have hderived := deriveCek_coords hlib hscalar hP
  rw [← hcoords, hcek, Except.ok.injEq] at hderived
  exact ⟨P, Or.inr ⟨e, he, hcoords⟩, hderived⟩

/-- A ciphertext that another content key opens has another leaf. -/
theorem leaf_ne_of_cek_ne {minted : Circuit.Minted} {ring : ComplianceKeyRing}
    (hpsi : Set.InjOn (computePsi hash) (contentKeys ring compliancePk eph))
    (hminted : Circuit.MintedFrom hash note eph compliancePk minted) {packedCiphertext : List String}
    (hleaf : LeafCollisionFree lib hash ring note.1 eph packedCiphertext) {e : ComplianceKeyEpoch}
    (he : e ∈ ring.ordered) {cek : Fr} (hcek : deriveCek lib eph e.pk = .ok cek)
    (hmem : cek ∈ contentKeys ring compliancePk eph) (hne : cek ≠ minted.cek) {other : Notes.Note}
    (hopen : openNote hash cek packedCiphertext = .ok other) : hash other.preimage ≠ hash note.1.preimage := by
  intro heq
  have hpreimage := hleaf e he cek other hcek hopen heq
  simp only [Notes.Note.preimage, List.cons.injEq] at hpreimage
  obtain ⟨-, -, -, -, -, -, hpsi', -⟩ := hpreimage
  rw [openNote_psi hopen, hminted.psi] at hpsi'
  exact hne (hpsi hmem (minted_mem_contentKeys hminted ring) hpsi')

/-! ## Self notes -/

/-- The keys up to the minting one are of the subgroup, and so is that one. -/
def KeysPass (compliancePk : Circuit.Point) (candidates : List ComplianceKeyEpoch) : Prop :=
  PassesUntil (fun e => ValidPoint e.pk) (fun e => e.pk = bigOf compliancePk) candidates

/-- The ring has the minting key, and its trial comes to it. -/
def Opens (ring : ComplianceKeyRing) (compliancePk : Circuit.Point) (block : Option ℤ) : Prop :=
  (∃ e ∈ ring.ordered, e.pk = bigOf compliancePk) ∧ KeysPass compliancePk (ring.candidatesFor block)

section Trial

variable {minted : Circuit.Minted} {ring : ComplianceKeyRing} {block : Option ℤ} {event : UnprocessedEvent}

/-- What the minting key comes to: the note, unless it is not acceptable. -/
theorem tryEpoch_right (hlib : lib.Lawful) (hminted : Circuit.MintedFrom hash note eph compliancePk minted)
    (hpacked : event.args.packedCiphertext = packed minted.ciphertext) {spendScalar : Fr} {index : ℕ}
    {e : ComplianceKeyEpoch} (hvalid : ValidPoint e.pk) (heq : e.pk = bigOf compliancePk) :
    (Acceptable lib hash spendScalar note.1 →
        tryEpoch lib hash spendScalar event minted.leaf (index, eph) e =
          .answer (some (walletNote hash note.1 event.args.leafIndex spendScalar false index))) ∧
      (¬ Acceptable lib hash spendScalar note.1 →
        tryEpoch lib hash spendScalar event minted.leaf (index, eph) e = .answer none) := by
  rw [tryEpoch, heq, deriveCek_minting hlib hminted (heq ▸ hvalid)]
  constructor
  · intro hacceptable
    simp only [hpacked, hminted.ciphertext, hminted.leaf, recover_encrypted note.2 hminted.psi hacceptable]
  · intro hacceptable
    simp only [hpacked, hminted.ciphertext, hminted.leaf, recover_rejected note.2 hminted.psi hacceptable]

/-- What another key of the subgroup opens has another leaf. -/
theorem deriveCek_other_leaf (hlib : lib.Lawful) (hpsi : Set.InjOn (computePsi hash) (contentKeys ring compliancePk eph))
    (hminted : Circuit.MintedFrom hash note eph compliancePk minted)
    (hleaf : LeafCollisionFree lib hash ring note.1 eph event.args.packedCiphertext) {e : ComplianceKeyEpoch}
    (he : e ∈ ring.candidatesFor block) (hvalid : ValidPoint e.pk) (hne : e.pk ≠ bigOf compliancePk) :
    ∃ cek, deriveCek lib eph e.pk = .ok cek ∧
      ∀ other, openNote hash cek event.args.packedCiphertext = .ok other → hash other.preimage ≠ minted.leaf := by
  obtain ⟨cek, hcek, hdiffers⟩ := deriveCek_other hlib hminted hvalid hne
  refine ⟨cek, hcek, fun other hopen => ?_⟩
  rw [hminted.leaf]
  have hring := ComplianceKeyRing.mem_candidatesFor.1 he
  have hmem : cek ∈ contentKeys ring compliancePk eph :=
    deriveCek_mem_contentKeys hlib hminted.scalar hring hvalid hcek
  exact leaf_ne_of_cek_ne hpsi hminted hleaf hring hcek hmem hdiffers hopen

/-- What comes of each key in the trial of a wallet. -/
theorem wallet_sorted (hlib : lib.Lawful) (hpsi : Set.InjOn (computePsi hash) (contentKeys ring compliancePk eph))
    (hminted : Circuit.MintedFrom hash note eph compliancePk minted) (hreduced : ∀ e ∈ ring.ordered, Reduced e.pk)
    (hleaf : LeafCollisionFree lib hash ring note.1 eph event.args.packedCiphertext) {spendScalar : Fr} {index : ℕ}
    {answer : Option WalletNote}
    (hanswer : ∀ e, ValidPoint e.pk → e.pk = bigOf compliancePk →
      tryEpoch lib hash spendScalar event minted.leaf (index, eph) e = .answer answer) :
    Sorted (tryEpoch lib hash spendScalar event minted.leaf (index, eph)) (fun e => ValidPoint e.pk)
      (fun e => e.pk = bigOf compliancePk) answer (ring.candidatesFor block) where
  thrown e he hinvalid := by
    obtain ⟨err, herr⟩ :=
      deriveCek_of_invalid hlib (hreduced e (ComplianceKeyRing.mem_candidatesFor.1 he)) hinvalid
    rw [tryEpoch, herr]
    exact ⟨err, rfl⟩
  next e he hvalid hne := by
    obtain ⟨cek, hcek, hother⟩ := deriveCek_other_leaf hlib hpsi hminted hleaf he hvalid hne
    rw [tryEpoch, hcek]
    rcases recover_mismatch lib event.args.leafIndex spendScalar false index hother with ⟨err, herr⟩ | hok
    · simp only [herr]
    · simp only [hok]
  answer e _ hvalid heq := hanswer e hvalid heq

/-- The view of a group. -/
def groupView (hash : List Fr → Fr) (note : Notes.Note) (leafIndex : ℕ) (isIncoming : Bool)
    (memberId derivationJ : Option ℕ) : MultisigNoteView where
  note := note
  commitment := hash note.preimage
  leafIndex := leafIndex
  nullifier := computeNullifier hash note.psi leafIndex
  isIncoming := isIncoming
  memberId := memberId
  derivationJ := derivationJ

/-- A note that a scanner takes. -/
structure GroupAcceptable (s : MultisigScanner) (note : Notes.Note) : Prop where
  noteType : note.noteType = noteTypeMultisig
  owner : note.owner = s.expectedOwner
  asset : note.assetId.val < assetModulus

/-- The right content key recovers a note of a group. -/
theorem recover_group {s : MultisigScanner} {cek : Fr} {isIncoming : Bool} {memberId derivationJ : Option ℕ}
    {note : Notes.Note} (hvalue : note.value < 2 ^ 128) (hpsi : note.psi = computePsi hash cek)
    (hpacked : event.args.packedCiphertext = packed (encrypted hash cek note.transmitted))
    (hcommitment : toFr event.args.commitment = .ok (hash note.preimage)) (h : GroupAcceptable s note) :
    s.recover hash event cek isIncoming memberId derivationJ =
      .ok (some (groupView hash note event.args.leafIndex isIncoming memberId derivationJ)) := by
  unfold MultisigScanner.recover
  rw [hpacked, bind_of_ok (openNote_encrypted hvalue hpsi), bind_of_ok hcommitment, bind_of_ok (leaf_ok hvalue),
    if_neg (by simp), if_neg (not_not.2 h.noteType), if_neg (not_not.2 h.owner), if_neg (not_le.2 h.asset)]
  rfl

/-- A content key that opens no note of the commitment recovers none. -/
theorem recover_group_mismatch (s : MultisigScanner) (isIncoming : Bool) (memberId derivationJ : Option ℕ)
    {cek commitment : Fr} (hcommitment : toFr event.args.commitment = .ok commitment)
    (h : ∀ other, openNote hash cek event.args.packedCiphertext = .ok other → hash other.preimage ≠ commitment) :
    (∃ e, s.recover hash event cek isIncoming memberId derivationJ = .error e) ∨
      s.recover hash event cek isIncoming memberId derivationJ = .ok none := by
  unfold MultisigScanner.recover
  cases hopen : openNote hash cek event.args.packedCiphertext with
  | error e => exact Or.inl ⟨e, rfl⟩
  | ok other =>
    rw [bind_of_ok rfl, bind_of_ok hcommitment]
    by_cases hvalue : other.value < 2 ^ 128
    · rw [bind_of_ok (leaf_ok hvalue), if_pos (h other hopen)]
      exact Or.inr rfl
    · have hleaf : leaf hash other = .error ("note value out of u128 range: " ++ toString other.value) :=
        if_pos (not_lt.1 hvalue)
      rw [bind_of_error hleaf]
      exact Or.inl ⟨_, rfl⟩

/-- The right content key of a note that is not acceptable recovers none. -/
theorem recover_group_rejected {s : MultisigScanner} {cek : Fr} {isIncoming : Bool} {memberId derivationJ : Option ℕ}
    {note : Notes.Note} (hvalue : note.value < 2 ^ 128) (hpsi : note.psi = computePsi hash cek)
    (hpacked : event.args.packedCiphertext = packed (encrypted hash cek note.transmitted))
    (hcommitment : toFr event.args.commitment = .ok (hash note.preimage)) (h : ¬ GroupAcceptable s note) :
    s.recover hash event cek isIncoming memberId derivationJ = .ok none := by
  unfold MultisigScanner.recover
  rw [hpacked, bind_of_ok (openNote_encrypted hvalue hpsi), bind_of_ok hcommitment, bind_of_ok (leaf_ok hvalue),
    if_neg (by simp)]
  split_ifs with htype howner hasset
  · rfl
  · rfl
  · rfl
  · exact absurd ⟨not_not.1 htype, not_not.1 howner, not_le.1 hasset⟩ h

/-- What the minting key comes to: the note, unless it is not acceptable. -/
theorem group_tryEpoch_right (hlib : lib.Lawful) (hminted : Circuit.MintedFrom hash note eph compliancePk minted)
    (hpacked : event.args.packedCiphertext = packed minted.ciphertext)
    (hcommitment : toFr event.args.commitment = .ok minted.leaf) {s : MultisigScanner} {memberId j : ℕ}
    {e : ComplianceKeyEpoch} (hvalid : ValidPoint e.pk) (heq : e.pk = bigOf compliancePk) :
    (GroupAcceptable s note.1 →
        s.tryEpoch lib hash event ⟨memberId, j, eph⟩ e =
          .answer (groupView hash note.1 event.args.leafIndex false (some memberId) (some j))) ∧
      (¬ GroupAcceptable s note.1 → s.tryEpoch lib hash event ⟨memberId, j, eph⟩ e = .next) := by
  rw [hminted.leaf] at hcommitment
  rw [hminted.ciphertext] at hpacked
  rw [MultisigScanner.tryEpoch, heq, deriveCek_minting hlib hminted (heq ▸ hvalid)]
  constructor
  · intro hacceptable
    simp only [recover_group note.2 hminted.psi hpacked hcommitment hacceptable]
  · intro hacceptable
    simp only [recover_group_rejected note.2 hminted.psi hpacked hcommitment hacceptable]

/-- What comes of each key in the trial of a group. -/
theorem group_sorted (hlib : lib.Lawful) (hpsi : Set.InjOn (computePsi hash) (contentKeys ring compliancePk eph))
    (hminted : Circuit.MintedFrom hash note eph compliancePk minted) (hreduced : ∀ e ∈ ring.ordered, Reduced e.pk)
    (hpacked : event.args.packedCiphertext = packed minted.ciphertext)
    (hcommitment : toFr event.args.commitment = .ok minted.leaf)
    (hleaf : LeafCollisionFree lib hash ring note.1 eph event.args.packedCiphertext) {s : MultisigScanner}
    {memberId j : ℕ} :
    (GroupAcceptable s note.1 → Sorted (s.tryEpoch lib hash event ⟨memberId, j, eph⟩) (fun e => ValidPoint e.pk)
        (fun e => e.pk = bigOf compliancePk)
        (groupView hash note.1 event.args.leafIndex false (some memberId) (some j)) (ring.candidatesFor block)) ∧
      (¬ GroupAcceptable s note.1 → Sorted (s.tryEpoch lib hash event ⟨memberId, j, eph⟩)
        (fun e => ValidPoint e.pk) (fun _ => False)
        (groupView hash note.1 event.args.leafIndex false (some memberId) (some j)) (ring.candidatesFor block)) := by
  have hthrown : ∀ e ∈ ring.candidatesFor block, ¬ ValidPoint e.pk →
      ∃ err, s.tryEpoch lib hash event ⟨memberId, j, eph⟩ e = .thrown err := by
    intro e he hinvalid
    obtain ⟨err, herr⟩ :=
      deriveCek_of_invalid hlib (hreduced e (ComplianceKeyRing.mem_candidatesFor.1 he)) hinvalid
    rw [MultisigScanner.tryEpoch, herr]
    exact ⟨err, rfl⟩
  have hnext : ∀ e ∈ ring.candidatesFor block, ValidPoint e.pk → e.pk ≠ bigOf compliancePk →
      s.tryEpoch lib hash event ⟨memberId, j, eph⟩ e = .next := by
    intro e he hvalid hne
    obtain ⟨cek, hcek, hother⟩ := deriveCek_other_leaf hlib hpsi hminted hleaf he hvalid hne
    rw [MultisigScanner.tryEpoch, hcek]
    rcases recover_group_mismatch s false (some memberId) (some j) hcommitment hother with ⟨err, herr⟩ | hok
    · simp only [herr]
    · simp only [hok]
  constructor
  · intro hacceptable
    exact ⟨hthrown, hnext, fun e _ hvalid heq =>
      (group_tryEpoch_right hlib hminted hpacked hcommitment hvalid heq).1 hacceptable⟩
  · intro hacceptable
    refine ⟨hthrown, fun e he hvalid _ => ?_, fun _ _ _ h => h.elim⟩
    by_cases heq : e.pk = bigOf compliancePk
    · exact (group_tryEpoch_right hlib hminted hpacked hcommitment hvalid heq).2 hacceptable
    · exact hnext e he hvalid heq

end Trial

/-! ## Matches -/

/-- A number that is a field element is looked up as the element. -/
theorem matchSelfTag_val (r : KeyRepository) (tag : Fr) :
    r.matchSelfTag (tag.val : ℤ) = (r.self.entries tag, { r with self := (r.self.lookup tag).2 }) := by
  have hlt : (tag.val : ℤ) < (bn254ScalarFieldModulus : ℕ) := Int.ofNat_lt.2 (ZMod.val_lt tag)
  have hcast : ((tag.val : ℤ) : Fr) = tag := by rw [Int.cast_natCast, ZMod.natCast_zmod_val]
  unfold KeyRepository.matchSelfTag
  rw [if_pos ⟨Int.natCast_nonneg _, hlt⟩, hcast, ← Lookahead.Window.fst_lookup]

theorem matchIncomingTag_val (r : KeyRepository) (tag : Fr) :
    r.matchIncomingTag (tag.val : ℤ) = (r.incoming.entries tag, { r with incoming := (r.incoming.lookup tag).2 }) := by
  have hlt : (tag.val : ℤ) < (bn254ScalarFieldModulus : ℕ) := Int.ofNat_lt.2 (ZMod.val_lt tag)
  have hcast : ((tag.val : ℤ) : Fr) = tag := by rw [Int.cast_natCast, ZMod.natCast_zmod_val]
  unfold KeyRepository.matchIncomingTag
  rw [if_pos ⟨Int.natCast_nonneg _, hlt⟩, hcast, ← Lookahead.Window.fst_lookup]

/-- A key of a reached repository is derived, with its tag. -/
theorem tagOf_of_tagged {key : ℕ → Fr} {index : ℕ} {tag k : Fr} (h : tagged lib key index = some (tag, k)) :
    TagOf lib tag k ∧ k = key index := by
  obtain ⟨heven, rfl, htag⟩ := evenY_of_tagged h
  exact ⟨⟨heven, htag⟩, rfl⟩

/-! ## What a wallet reads -/

/-- A new note is what the trial answers. -/
theorem process_newNote {p : NoteProcessor} {r : KeyRepository} {event : UnprocessedEvent} {spendScalar : Fr}
    {key : ℕ × Fr} (htype : event.type = .newNote) (hmatch : (r.matchSelfTag event.args.ephemeralX).1 = some key) :
    (p.process lib hash spendScalar r event).1 =
      match openSelf lib hash p.keys spendScalar event key with
      | .ok (some answer) => answer
      | _ => none := by
  unfold NoteProcessor.process
  simp only [htype]
  unfold processNewNote
  simp only [hmatch]
  cases openSelf lib hash p.keys spendScalar event key with
  | error e => rfl
  | ok answer => cases answer <;> rfl

/-- The note of an outcome. -/
def RecoverOutcome.note? : RecoverOutcome → Option WalletNote
  | .note note => some note
  | _ => none

/-- A memo is what it opens to. -/
theorem process_newMemo {p : NoteProcessor} {r : KeyRepository} {event : UnprocessedEvent} (spendScalar : Fr)
    {key : ℕ × Fr} {tag cekWrap : ℤ} {outcome : RecoverOutcome} (htype : event.type = .newMemo)
    (htag : event.args.tag = some tag) (hwrap : event.args.cekWrap = some cekWrap)
    (hmatch : (r.matchIncomingTag tag).1 = some key) (hopen : openMemo lib hash event cekWrap key = .ok outcome) :
    (p.process lib hash spendScalar r event).1 = outcome.note? := by
  unfold NoteProcessor.process
  simp only [htype]
  unfold processMemo
  simp only [htag, hwrap, hmatch, hopen]
  cases outcome <;> rfl

/-- The trial of sorted keys. -/
theorem trial_of_sorted {β : Type} {attempt : ComplianceKeyEpoch → Attempt String β} {ring : ComplianceKeyRing}
    {block : Option ℤ} {answer : β}
    (h : Sorted attempt (fun e => ValidPoint e.pk) (fun e => e.pk = bigOf compliancePk) answer
      (ring.candidatesFor block)) :
    (Opens ring compliancePk block → trial attempt (ring.candidatesFor block) = .ok (some answer)) ∧
      (¬ Opens ring compliancePk block → trial attempt (ring.candidatesFor block) = .ok none ∨
        ∃ e, trial attempt (ring.candidatesFor block) = .error e) := by
  constructor
  · rintro ⟨⟨e, he, hpk⟩, hpass⟩
    exact trial_of_passesUntil h ⟨e, ComplianceKeyRing.mem_candidatesFor.2 he, hpk⟩ hpass
  · intro hopens
    by_cases hring : ∃ e ∈ ring.ordered, e.pk = bigOf compliancePk
    · exact Or.inr (trial_of_not_passesUntil h fun hpass => hopens ⟨hring, hpass⟩)
    · push Not at hring
      exact trial_of_none_right h fun e he => hring e (ComplianceKeyRing.mem_candidatesFor.1 he)

/-- A self note is read exactly if it is acceptable and the ring opens it. -/
theorem wallet_read_self (hlib : lib.Lawful) {minted : Circuit.Minted} {p : NoteProcessor}
    (hpsi : Set.InjOn (computePsi hash) (contentKeys p.keys compliancePk eph))
    (hminted : Circuit.MintedFrom hash note eph compliancePk minted) {r : KeyRepository}
    {event : UnprocessedEvent} (spendScalar : Fr) {index : ℕ} (htype : event.type = .newNote)
    (hmatch : (r.matchSelfTag event.args.ephemeralX).1 = some (index, eph))
    (hreduced : ∀ e ∈ p.keys.ordered, Reduced e.pk)
    (hpacked : event.args.packedCiphertext = packed minted.ciphertext)
    (hcommitment : toFr event.args.commitment = .ok minted.leaf)
    (hleaf : LeafCollisionFree lib hash p.keys note.1 eph event.args.packedCiphertext) :
    (Acceptable lib hash spendScalar note.1 → Opens p.keys compliancePk (some event.blockNumber) →
        (p.process lib hash spendScalar r event).1 =
          some (walletNote hash note.1 event.args.leafIndex spendScalar false index)) ∧
      (¬ (Acceptable lib hash spendScalar note.1 ∧ Opens p.keys compliancePk (some event.blockNumber)) →
        (p.process lib hash spendScalar r event).1 = none) := by
  have hopen : openSelf lib hash p.keys spendScalar event (index, eph) =
      trial (tryEpoch lib hash spendScalar event minted.leaf (index, eph))
        (p.keys.candidatesFor (some event.blockNumber)) := by
    unfold openSelf
    rw [bind_of_ok hcommitment]
  rw [process_newNote htype hmatch, hopen]
  constructor
  · intro hacceptable hopens
    rw [(trial_of_sorted (wallet_sorted hlib hpsi hminted hreduced hleaf fun e hvalid heq =>
      (tryEpoch_right hlib hminted hpacked hvalid heq).1 hacceptable)).1 hopens]
  · intro hnot
    by_cases hacceptable : Acceptable lib hash spendScalar note.1
    · have htrial := (trial_of_sorted (@wallet_sorted lib hash _ _ _ _ _ (some event.blockNumber) _ hlib hpsi hminted hreduced hleaf _ _ _
        fun e hvalid heq => (@tryEpoch_right lib hash _ _ _ _ _ hlib hminted hpacked _ index _ hvalid heq).1 hacceptable)).2
        fun hopens => hnot ⟨hacceptable, hopens⟩
      rcases htrial with hnone | ⟨err, herr⟩
      · rw [hnone]
      · rw [herr]
    · -- the minting key rejects it, and any other key leaves it
      have htrial := trial_of_sorted (@wallet_sorted lib hash _ _ _ _ _ (some event.blockNumber) _ hlib hpsi hminted hreduced hleaf _ _ _
        fun e hvalid heq => (@tryEpoch_right lib hash _ _ _ _ _ hlib hminted hpacked _ index _ hvalid heq).2 hacceptable)
      by_cases hopens : Opens p.keys compliancePk (some event.blockNumber)
      · rw [htrial.1 hopens]
      · rcases htrial.2 hopens with hnone | ⟨err, herr⟩
        · rw [hnone]
        · rw [herr]

/-! ## What a group reads -/

/-- A new note is what the trial answers. -/
theorem readNote_newNote {s : MultisigScanner} {event : UnprocessedEvent} {source : SelfSource}
    (htype : event.type = .newNote) (hmatch : MultisigScanner.sourceOf s.selfTags event.args.ephemeralX = some source) :
    ∃ s' : MultisigScanner, s'.complianceKeys = s.complianceKeys ∧ s'.expectedOwner = s.expectedOwner ∧
      (s.readNote lib hash event).1 =
        match trial (s'.tryEpoch lib hash event source) (s.complianceKeys.candidatesFor (some event.blockNumber)) with
        | .ok answer => answer
        | .error _ => none := by
  refine ⟨{ s with
    highestMatchedSelf := Function.update s.highestMatchedSelf source.memberId
      (max (s.highestMatchedSelf source.memberId) source.j) }, rfl, rfl, ?_⟩
  unfold MultisigScanner.readNote
  simp only [htype]
  unfold MultisigScanner.readSelf
  simp only [hmatch]
  generalize trial _ (s.complianceKeys.candidatesFor (some event.blockNumber)) = outcome
  cases outcome with
  | error e => rfl
  | ok answer => cases answer <;> rfl

/-- A memo is what it opens to. -/
theorem readNote_newMemo {s : MultisigScanner} {event : UnprocessedEvent} {source : IncomingSource} {tag cekWrap : ℤ}
    (htype : event.type = .newMemo) (htag : event.args.tag = some tag) (hwrap : event.args.cekWrap = some cekWrap)
    (hmatch : MultisigScanner.sourceOf s.incomingTags tag = some source) :
    ∃ s' : MultisigScanner, s'.expectedOwner = s.expectedOwner ∧
      (s.readNote lib hash event).1 =
        match s'.openIncoming lib hash event cekWrap source with
        | .ok view => view
        | .error _ => none := by
  refine ⟨{ s with highestMatchedIncoming := max s.highestMatchedIncoming source.index }, rfl, ?_⟩
  unfold MultisigScanner.readNote
  simp only [htype]
  unfold MultisigScanner.readIncoming
  simp only [htag, hwrap, hmatch]
  generalize MultisigScanner.openIncoming lib hash _ event cekWrap source = outcome
  cases outcome <;> rfl

/-- A self note is read exactly if it is acceptable and the ring opens it. -/
theorem group_read_self (hlib : lib.Lawful) {minted : Circuit.Minted} {s : MultisigScanner}
    (hpsi : Set.InjOn (computePsi hash) (contentKeys s.complianceKeys compliancePk eph))
    (hminted : Circuit.MintedFrom hash note eph compliancePk minted) {event : UnprocessedEvent} {memberId j : ℕ}
    (htype : event.type = .newNote)
    (hmatch : MultisigScanner.sourceOf s.selfTags event.args.ephemeralX = some ⟨memberId, j, eph⟩)
    (hreduced : ∀ e ∈ s.complianceKeys.ordered, Reduced e.pk)
    (hpacked : event.args.packedCiphertext = packed minted.ciphertext)
    (hcommitment : toFr event.args.commitment = .ok minted.leaf)
    (hleaf : LeafCollisionFree lib hash s.complianceKeys note.1 eph event.args.packedCiphertext) :
    (GroupAcceptable s note.1 → Opens s.complianceKeys compliancePk (some event.blockNumber) →
        (s.readNote lib hash event).1 =
          some (groupView hash note.1 event.args.leafIndex false (some memberId) (some j))) ∧
      (¬ (GroupAcceptable s note.1 ∧ Opens s.complianceKeys compliancePk (some event.blockNumber)) →
        (s.readNote lib hash event).1 = none) := by
  obtain ⟨s', -, howner, hread⟩ := @readNote_newNote lib hash _ _ _ htype hmatch
  have hiff : GroupAcceptable s' note.1 ↔ GroupAcceptable s note.1 := by
    constructor <;> rintro ⟨htype', howner', hasset⟩
    · exact ⟨htype', by rw [howner', howner], hasset⟩
    · exact ⟨htype', by rw [howner', howner], hasset⟩
  have hsorted := @group_sorted lib hash _ _ _ _ _ (some event.blockNumber) _ hlib hpsi hminted hreduced hpacked
    hcommitment hleaf s' memberId j
  rw [hread]
  constructor
  · intro hacceptable hopens
    rw [(trial_of_sorted (hsorted.1 (hiff.2 hacceptable))).1 hopens]
  · intro hnot
    by_cases hacceptable : GroupAcceptable s note.1
    · rcases (trial_of_sorted (hsorted.1 (hiff.2 hacceptable))).2 fun hopens => hnot ⟨hacceptable, hopens⟩ with
        hnone | ⟨err, herr⟩
      · rw [hnone]
      · rw [herr]
    · rcases trial_of_none_right (hsorted.2 fun h => hacceptable (hiff.1 h)) (fun _ _ h => h) with
        hnone | ⟨err, herr⟩
      · rw [hnone]
      · rw [herr]

/-! ## Memos -/

theorem scaled_ne_zero {scalar : Fr} (h : ValidScalar scalar) {P : BabyJubJub.subgroup} (hP : P ≠ 0) :
    Circuit.scaled scalar P ≠ 0 := by
  intro hzero
  refine hP (scaled_injective h ?_)
  rw [hzero]
  exact (smul_zero _).symm

/-- The recipient of a memo unwraps its content key. -/
theorem unwrapCek_memo (hlib : lib.Lawful) {V : BabyJubJub.subgroup} (hV : V ≠ 0) (heph : ValidScalar eph)
    {inKey cek : Fr} (hlt : inKey.val < subOrder) (hkey : Circuit.scaled inKey BabyJubJub.base = V) :
    unwrapCek lib hash (cek + hash [(Circuit.scaled eph V : BabyJubJub.Point).x]) inKey
        (coords (Circuit.scaled eph BabyJubJub.base)) = .ok cek := by
  have hvalid : ValidScalar inKey := by
    refine ⟨?_, hlt⟩
    rintro rfl
    refine hV ?_
    rw [← hkey, Circuit.scaled, ZMod.val_zero, Nat.cast_zero, zero_smul]
  have hcomm : Circuit.scaled inKey (Circuit.scaled eph BabyJubJub.base) = Circuit.scaled eph V := by
    rw [← hkey]
    exact smul_comm _ _ _
  have hshared : sharedX lib inKey (coords (Circuit.scaled eph BabyJubJub.base)) =
      (Circuit.scaled eph V : BabyJubJub.Point).x := by
    rw [sharedX_coords hlib, ← hcomm]
    rfl
  unfold unwrapCek
  rw [bind_of_ok (assertSubgroupScalar_ok.2 hvalid),
    bind_of_ok (assertValidPoint_coords hlib (scaled_ne_zero heph BabyJubJub.base_ne_zero)), hshared,
    add_sub_cancel_right]
  rfl

/-- The owner of a memo with one key. -/
theorem pubkeyOwner_ofPoint (P : BabyJubJub.Point) :
    Circuit.pubkeyOwner hash (Circuit.ofPoint P) = Notes.pubkeyOwner hash (coords P) := by
  unfold Circuit.pubkeyOwner Notes.pubkeyOwner coords Circuit.ofPoint
  simp only [Int.cast_natCast, ZMod.natCast_zmod_val]

/-- What a memo's event says. -/
structure MemoEvent (hash : List Fr → Fr) (eph : Fr) (minted : Circuit.Minted) (V : BabyJubJub.subgroup)
    (event : UnprocessedEvent) : Prop where
  type : event.type = .newMemo
  tag : event.args.tag = some ((V : BabyJubJub.Point).x.val : ℤ)
  cekWrap : event.args.cekWrap = some ((minted.cek + hash [(Circuit.scaled eph V : BabyJubJub.Point).x]).val : ℤ)
  ephemeralX : event.args.ephemeralX = (minted.ephPub.x.val : ℤ)
  commitment : toFr event.args.commitment = .ok minted.leaf
  packed : event.args.packedCiphertext = packed minted.ciphertext

/-- The ephemeral point of a memo comes back from its event. -/
theorem recoverEvenY_memo {minted : Circuit.Minted} (hminted : Circuit.MintedFrom hash note eph compliancePk minted)
    (heven : Circuit.isEvenY minted.ephPub) {V : BabyJubJub.subgroup} {event : UnprocessedEvent}
    (hevent : MemoEvent hash eph minted V event) :
    recoverEvenY event.args.ephemeralX = .ok (coords (Circuit.scaled eph BabyJubJub.base)) := by
  rw [hminted.ephPub] at heven
  rw [hevent.ephemeralX, hminted.ephPub]
  exact recoverEvenY_coords ((Circuit.isEvenY_ofPoint _).1 heven)

/-- A memo opens to its note, unless it is not acceptable. -/
theorem openMemo_eq (hlib : lib.Lawful) {minted : Circuit.Minted}
    (hminted : Circuit.MintedFrom hash note eph compliancePk minted) (heven : Circuit.isEvenY minted.ephPub)
    {V : BabyJubJub.subgroup} (hV : V ≠ 0) {event : UnprocessedEvent} (hevent : MemoEvent hash eph minted V event)
    {index : ℕ} {inKey : Fr} (hlt : inKey.val < subOrder) (hkey : Circuit.scaled inKey BabyJubJub.base = V) :
    (Acceptable lib hash inKey note.1 →
        openMemo lib hash event ((minted.cek + hash [(Circuit.scaled eph V : BabyJubJub.Point).x]).val : ℤ)
          (index, inKey) =
        .ok (.note (walletNote hash note.1 event.args.leafIndex inKey true index))) ∧
      (¬ Acceptable lib hash inKey note.1 →
        openMemo lib hash event ((minted.cek + hash [(Circuit.scaled eph V : BabyJubJub.Point).x]).val : ℤ)
          (index, inKey) = .ok .rejected) := by
  unfold openMemo
  rw [bind_of_ok (recoverEvenY_memo hminted heven hevent), bind_of_ok (newFr_val _),
    bind_of_ok (unwrapCek_memo hlib hV hminted.scalar hlt hkey), bind_of_ok hevent.commitment, hevent.packed,
    hminted.leaf, hminted.ciphertext]
  exact ⟨recover_encrypted note.2 hminted.psi, recover_rejected note.2 hminted.psi⟩

/-- So it does to a group. -/
theorem openIncoming_eq (hlib : lib.Lawful) {minted : Circuit.Minted}
    (hminted : Circuit.MintedFrom hash note eph compliancePk minted) (heven : Circuit.isEvenY minted.ephPub)
    {V : BabyJubJub.subgroup} (hV : V ≠ 0) {event : UnprocessedEvent} (hevent : MemoEvent hash eph minted V event)
    {index : ℕ} {viewKey : Fr} (hlt : viewKey.val < subOrder) (hkey : Circuit.scaled viewKey BabyJubJub.base = V)
    {s : MultisigScanner} (hacceptable : GroupAcceptable s note.1) :
    s.openIncoming lib hash event ((minted.cek + hash [(Circuit.scaled eph V : BabyJubJub.Point).x]).val : ℤ)
        ⟨index, viewKey⟩ =
      .ok (some (groupView hash note.1 event.args.leafIndex true none (some index))) := by
  have hpacked := hevent.packed
  have hcommitment := hevent.commitment
  rw [hminted.ciphertext] at hpacked
  rw [hminted.leaf] at hcommitment
  unfold MultisigScanner.openIncoming
  rw [bind_of_ok (recoverEvenY_memo hminted heven hevent), bind_of_ok (newFr_val _),
    bind_of_ok (unwrapCek_memo hlib hV hminted.scalar hlt hkey)]
  exact recover_group note.2 hminted.psi hpacked hcommitment hacceptable

/-! ## Reading what is minted -/

variable {poseidon : Fr → Fr → Fr → Fr} {leafIndex : ℕ} {blockNumber : ℤ} {txHash : String}

/-- A reader that reads the note recovers it. -/
theorem recovers_of_read {reader : Reader} {event : UnprocessedEvent}
    (h : reader.read lib hash event = some (note.1, computeNullifier hash note.1.psi event.args.leafIndex)) :
    reader.Recovers lib hash poseidon note event :=
  ⟨_, h, fun _ hnf => hnf.eq.symm⟩

theorem not_recovers_of_read {reader : Reader} {event : UnprocessedEvent} (h : reader.read lib hash event = none) :
    ¬ reader.Recovers lib hash poseidon note event := by
  rintro ⟨nf, hread, -⟩
  rw [h] at hread
  cases hread

/-- A reader that reads the note on a condition, and otherwise nothing, recovers it on that condition. -/
theorem recovers_iff_of_read {reader : Reader} {event : UnprocessedEvent} {P : Prop}
    (hsome : P → reader.read lib hash event = some (note.1, computeNullifier hash note.1.psi event.args.leafIndex))
    (hnone : ¬ P → reader.read lib hash event = none) : reader.Recovers lib hash poseidon note event ↔ P := by
  constructor
  · intro hrecovers
    by_contra h
    exact not_recovers_of_read (hnone h) hrecovers
  · intro h
    exact recovers_of_read (hsome h)

/-- A ring of keys that the circuits can take, with the minting one. -/
structure RingOf (ring : ComplianceKeyRing) (compliancePk : Circuit.Point) : Prop where
  reduced : ∀ e ∈ ring.ordered, Reduced e.pk
  minting : ∃ e ∈ ring.ordered, e.pk = bigOf compliancePk

theorem accountOf_lt (skView : Fr) (index : ℕ) :
    ((accountOf hash skView).getSelfEphemeral index).val < subOrder ∧
      ((accountOf hash skView).getIncomingKey index).val < subOrder :=
  ⟨toBjjScalar_lt _, toBjjScalar_lt _⟩

/-- A wallet and a self note. -/
theorem wallet_self_iff (hlib : lib.Lawful) {minted : Circuit.Minted} {p : NoteProcessor}
    (hpsi : Set.InjOn (computePsi hash) (contentKeys p.keys compliancePk eph))
    (hminted : Circuit.MintedFrom hash note eph compliancePk minted) (heven : Circuit.isEvenY minted.ephPub)
    {skView : Fr} {r : KeyRepository} {calls : List RepoCall}
    (hcalls : r = calls.foldl (RepoCall.apply lib (accountOf hash skView)) .new)
    (howns : (Reader.wallet skView p r).Owns lib hash note.1
      ⟨minted.leaf, minted.ephPub, none, minted.ciphertext⟩)
    (hregistered : (r.self.entries minted.ephPub.x).isSome) (hring : RingOf p.keys compliancePk)
    (hleaf : LeafCollisionFree lib hash p.keys note.1 eph (packed minted.ciphertext)) :
    (Reader.wallet skView p r).Recovers lib hash poseidon note
        ((⟨minted.leaf, minted.ephPub, none, minted.ciphertext⟩ : Emitted).event leafIndex blockNumber txHash) ↔
      KeysPass compliancePk (p.keys.candidatesFor (some blockNumber)) := by
  obtain ⟨⟨index, key⟩, hentry⟩ := Option.isSome_iff_exists.1 hregistered
  obtain ⟨htag, hkey⟩ := tagOf_of_tagged ((calls_derived derived_new calls).self _ _ _ (hcalls ▸ hentry))
  -- the key of the tag is the scalar of the note
  rw [hminted.ephPub] at htag heven
  have heph : key = eph := by
    refine eq_of_scaled_base ?_ hminted.scalar.2 (eq_of_tagOf hlib heven htag)
    rw [hkey]
    exact (accountOf_lt skView index).1
  rw [heph] at hentry
  have hacceptable : Acceptable lib hash (deriveSelfSpendKey hash skView) note.1 :=
    ⟨howns.1, hminted.owner, hminted.assetId, howns.2 rfl⟩
  have hread := @wallet_read_self lib hash _ _ _ hlib _ p hpsi hminted r ((⟨minted.leaf, minted.ephPub, none,
    minted.ciphertext⟩ : Emitted).event leafIndex blockNumber txHash) (deriveSelfSpendKey hash skView) _ rfl
    ((congrArg Prod.fst (matchSelfTag_val r _)).trans hentry) hring.reduced
    rfl (toFr_toBytes minted.leaf) hleaf
  apply recovers_iff_of_read
  · intro hpass
    rw [Reader.read, hread.1 hacceptable ⟨hring.minting, hpass⟩]
    rfl
  · intro hpass
    rw [Reader.read, hread.2 fun h => hpass h.2.2]
    rfl

/-- A group and a self note. -/
theorem group_self_iff (hlib : lib.Lawful) {minted : Circuit.Minted} {s : MultisigScanner}
    (hpsi : Set.InjOn (computePsi hash) (contentKeys s.complianceKeys compliancePk eph))
    (hminted : Circuit.MintedFrom hash note eph compliancePk minted) (heven : Circuit.isEvenY minted.ephPub)
    {cfg : MultisigScanConfig} (hserves : Serves lib hash cfg s)
    (howns : (Reader.group cfg s).Owns lib hash note.1 ⟨minted.leaf, minted.ephPub, none, minted.ciphertext⟩)
    (hregistered : (s.selfTags minted.ephPub.x).isSome) (hring : RingOf s.complianceKeys compliancePk)
    (hleaf : LeafCollisionFree lib hash s.complianceKeys note.1 eph (packed minted.ciphertext)) :
    (Reader.group cfg s).Recovers lib hash poseidon note
        ((⟨minted.leaf, minted.ephPub, none, minted.ciphertext⟩ : Emitted).event leafIndex blockNumber txHash) ↔
      KeysPass compliancePk (s.complianceKeys.candidatesFor (some blockNumber)) := by
  obtain ⟨⟨memberId, j, key⟩, hentry⟩ := Option.isSome_iff_exists.1 hregistered
  obtain ⟨htag, hkey⟩ := hserves.self _ _ hentry
  rw [hminted.ephPub] at htag heven
  have heph : key = eph := by
    refine eq_of_scaled_base ?_ hminted.scalar.2 (eq_of_tagOf hlib heven htag)
    exact lt_of_eq_of_lt (congrArg ZMod.val hkey) (toBjjScalar_lt _)
  rw [heph] at hentry
  have hacceptable : GroupAcceptable s note.1 := ⟨howns.1, howns.2.trans hserves.owner.symm, hminted.assetId⟩
  have hread := @group_read_self lib hash _ _ _ hlib _ s hpsi hminted ((⟨minted.leaf, minted.ephPub, none,
    minted.ciphertext⟩ : Emitted).event leafIndex blockNumber txHash) _ _ rfl (MultisigScanner.sourceOf_val.trans hentry) hring.reduced
    rfl (toFr_toBytes minted.leaf) hleaf
  apply recovers_iff_of_read
  · intro hpass
    rw [Reader.read, hread.1 hacceptable ⟨hring.minting, hpass⟩]
    rfl
  · intro hpass
    rw [Reader.read, hread.2 fun h => hpass h.2.2]
    rfl

/-- The event of a memo that a circuit mints. -/
theorem memoEvent_emitted {minted : Circuit.Minted} {spendPub viewPub : Circuit.Point} {V : BabyJubJub.subgroup}
    (hmemo : Circuit.MemoFor hash note eph minted spendPub viewPub V) :
    MemoEvent hash eph minted V
      ((⟨minted.leaf, minted.ephPub, some (viewPub.x, minted.cek + hash [(Circuit.scaled eph V :
        BabyJubJub.Point).x]), minted.ciphertext⟩ : Emitted).event leafIndex blockNumber txHash) where
  type := rfl
  tag := by rw [hmemo.point]; rfl
  cekWrap := rfl
  ephemeralX := rfl
  commitment := toFr_toBytes minted.leaf
  packed := rfl

/-- A wallet and a memo. -/
theorem wallet_memo (hlib : lib.Lawful) {minted : Circuit.Minted}
    (hminted : Circuit.MintedFrom hash note eph compliancePk minted) (heven : Circuit.isEvenY minted.ephPub)
    {spendPub viewPub : Circuit.Point} {V : BabyJubJub.subgroup}
    (hmemo : Circuit.MemoFor hash note eph minted spendPub viewPub V) {skView : Fr} {p : NoteProcessor}
    {r : KeyRepository} {calls : List RepoCall}
    (hcalls : r = calls.foldl (RepoCall.apply lib (accountOf hash skView)) .new)
    (hstandard : note.1.noteType = noteTypeStandard) (hregistered : (r.incoming.entries viewPub.x).isSome) :
    (Reader.wallet skView p r).Recovers lib hash poseidon note
      ((⟨minted.leaf, minted.ephPub, some (viewPub.x, minted.cek + hash [(Circuit.scaled eph V :
        BabyJubJub.Point).x]), minted.ciphertext⟩ : Emitted).event leafIndex blockNumber txHash) := by
  obtain ⟨⟨index, key⟩, hentry⟩ := Option.isSome_iff_exists.1 hregistered
  obtain ⟨htag, hkey⟩ := tagOf_of_tagged ((calls_derived derived_new calls).incoming _ _ _ (hcalls ▸ hentry))
  have hview : spendPub = Circuit.ofPoint V := (hmemo.standard hstandard).trans hmemo.point
  have hVeven := hmemo.even
  rw [hmemo.point] at htag hVeven
  have hV : Circuit.scaled key BabyJubJub.base = V := eq_of_tagOf hlib hVeven htag
  have hlt : key.val < subOrder := by
    rw [hkey]
    exact (accountOf_lt skView index).2
  have hacceptable : Acceptable lib hash key note.1 := by
    refine ⟨hstandard, hminted.owner, hminted.assetId, ?_⟩
    rw [hmemo.owner, hview, pubkeyOwner_ofPoint, publicKey_scaled hlib, hV]
  generalize hm : (⟨minted.leaf, minted.ephPub, some (viewPub.x, minted.cek + hash [(Circuit.scaled eph V :
    BabyJubJub.Point).x]), minted.ciphertext⟩ : Emitted).event leafIndex blockNumber txHash = event
  have hevent : MemoEvent hash eph minted V event := hm ▸ memoEvent_emitted hmemo
  rw [hmemo.point] at hentry
  have hread := process_newMemo (p := p) (deriveSelfSpendKey hash skView) hevent.type hevent.tag
    hevent.cekWrap ((congrArg Prod.fst (matchIncomingTag_val r _)).trans hentry)
    ((openMemo_eq hlib hminted heven hmemo.nonzero hevent hlt hV).1 hacceptable)
  refine recovers_of_read ?_
  rw [Reader.read, hread]
  rfl

/-- A group and a memo. -/
theorem group_memo (hlib : lib.Lawful) {minted : Circuit.Minted}
    (hminted : Circuit.MintedFrom hash note eph compliancePk minted) (heven : Circuit.isEvenY minted.ephPub)
    {spendPub viewPub : Circuit.Point} {V : BabyJubJub.subgroup}
    (hmemo : Circuit.MemoFor hash note eph minted spendPub viewPub V) {cfg : MultisigScanConfig}
    {s : MultisigScanner} (hserves : Serves lib hash cfg s)
    (howns : note.1.noteType = noteTypeMultisig ∧ note.1.owner = Notes.pubkeyOwner hash cfg.gpk)
    (hregistered : (s.incomingTags viewPub.x).isSome) :
    (Reader.group cfg s).Recovers lib hash poseidon note
      ((⟨minted.leaf, minted.ephPub, some (viewPub.x, minted.cek + hash [(Circuit.scaled eph V :
        BabyJubJub.Point).x]), minted.ciphertext⟩ : Emitted).event leafIndex blockNumber txHash) := by
  obtain ⟨⟨index, key⟩, hentry⟩ := Option.isSome_iff_exists.1 hregistered
  obtain ⟨htag, hkey⟩ := hserves.incoming _ _ hentry
  have hVeven := hmemo.even
  rw [hmemo.point] at htag hVeven hentry
  have hV : Circuit.scaled key BabyJubJub.base = V := eq_of_tagOf hlib hVeven htag
  have hlt : key.val < subOrder := lt_of_eq_of_lt (congrArg ZMod.val hkey) (toBjjScalar_lt _)
  generalize hm : (⟨minted.leaf, minted.ephPub, some (viewPub.x, minted.cek + hash [(Circuit.scaled eph V :
    BabyJubJub.Point).x]), minted.ciphertext⟩ : Emitted).event leafIndex blockNumber txHash = event
  have hevent : MemoEvent hash eph minted V event := hm ▸ memoEvent_emitted hmemo
  obtain ⟨s', howner, hread⟩ := @readNote_newMemo lib hash s _ _ _ _ hevent.type hevent.tag
    hevent.cekWrap (MultisigScanner.sourceOf_val.trans hentry)
  have hacceptable : GroupAcceptable s' note.1 :=
    ⟨howns.1, by rw [howner, hserves.owner, howns.2], hminted.assetId⟩
  rw [openIncoming_eq hlib hminted heven hmemo.nonzero hevent hlt hV hacceptable] at hread
  refine recovers_of_read ?_
  rw [Reader.read, hread]
  rfl

/-- A note that a circuit mints, whatever ring its owner has, in whatever order its keys are tried: a wallet or a
group that owns the note and has its tag registered reads it from the event, with the nullifier of the spend
circuits, exactly if it is a memo or every key that is tried up to the minting one is of the subgroup. -/
theorem mint_scan_iff (hlib : lib.Lawful) (hmint : Mints hash note eph compliancePk m) {reader : Reader}
    (hpsi : Set.InjOn (computePsi hash) (contentKeys reader.ring compliancePk eph)) (hreached : reader.Reached lib hash)
    (howns : reader.Owns lib hash note.1 m) (hregistered : reader.Registered m)
    (hring : RingOf reader.ring compliancePk)
    (hleaf : LeafCollisionFree lib hash reader.ring note.1 eph (packed m.ciphertext)) (leafIndex : ℕ)
    (blockNumber : ℤ) (txHash : String) :
    reader.Recovers lib hash poseidon note (m.event leafIndex blockNumber txHash) ↔
      m.memo.isSome ∨ KeysPass compliancePk (reader.ring.candidatesFor (some blockNumber)) := by
  obtain ⟨minted, hminted, heven, rfl | ⟨spendPub, viewPub, V, hmemo, rfl⟩⟩ := hmint.cases
  · rw [or_iff_right (by simp)]
    cases reader with
    | wallet skView p r =>
      obtain ⟨calls, hcalls⟩ := hreached
      exact wallet_self_iff hlib hpsi hminted heven hcalls howns hregistered hring hleaf
    | group cfg s =>
      obtain ⟨s₀, hcreate, calls, rfl⟩ := hreached
      exact group_self_iff hlib hpsi hminted heven (calls_serve (create_serves hcreate) calls) howns hregistered
        hring hleaf
  · refine iff_of_true ?_ (Or.inl rfl)
    cases reader with
    | wallet skView p r =>
      obtain ⟨calls, hcalls⟩ := hreached
      exact wallet_memo hlib hminted heven hmemo hcalls howns.1 hregistered
    | group cfg s =>
      obtain ⟨s₀, hcreate, calls, rfl⟩ := hreached
      exact group_memo hlib hminted heven hmemo (calls_serve (create_serves hcreate) calls) howns hregistered

/-! ## A key that is no point -/

/-- A hash that is the first word, or the key of the note for a leaf. -/
def sampleHash (words : List Fr) : Fr := if words.length = 8 then words.getD 6 0 else words.headD 0

/-- The wallet whose view key is 4, as are then all its scalars. -/
def sampleRepository : KeyRepository :=
  [RepoCall.ensureSelfLookahead 1].foldl (RepoCall.apply Library.reference (accountOf sampleHash 4)) .new

/-- The base point as a compliance key. -/
def sampleKey : Circuit.Point := Circuit.ofPoint BabyJubJub.base

/-- The first coordinate of the public key of 4. -/
def sampleX : Fr := (Circuit.scaled 4 BabyJubJub.base : BabyJubJub.Point).x

/-- A note of value 1 that the wallet owns. -/
def sampleNote : Circuit.Note := ⟨⟨1, 1, 0, 0, 1, sampleX, sampleX, 0⟩, by norm_num⟩

/-- What its mint under the key makes public. -/
def sampleMinted : Circuit.Minted where
  leaf := sampleHash sampleNote.1.preimage
  ephPub := Circuit.ofPoint (Circuit.scaled 4 BabyJubJub.base)
  cek := sampleX
  ciphertext := encrypted sampleHash sampleX sampleNote.1.transmitted

def sampleEmitted : Emitted := ⟨sampleMinted.leaf, sampleMinted.ephPub, none, sampleMinted.ciphertext⟩

theorem coords_sample : coords (Circuit.scaled 4 BabyJubJub.base) =
    (0x1b16e357953d68d73398c838aa883cc65ddae2aef75a4bc437e4232afdbe43c8,
      0x2d7ee0be055310d2895c5ed5090a8aa1c700e73c64294f1e817ec77f46b4fdc) := by
  rw [← publicKey_scaled Library.reference_lawful, publicKey_four]

theorem sampleX_eq : sampleX = 0x1b16e357953d68d73398c838aa883cc65ddae2aef75a4bc437e4232afdbe43c8 := by
  have h := congrArg discoveryTag coords_sample
  rw [discoveryTag_coords] at h
  exact h

theorem sampleHash_psi : Function.Injective (computePsi sampleHash) := fun _ _ h => h

theorem toBjjScalar_four : toBjjScalar 4 = 4 := toBjjScalar_of_lt (by decide +kernel)

theorem selfEphemeral_sample (index : ℕ) : (accountOf sampleHash 4).getSelfEphemeral index = 4 := by
  have hkdf : kdfDerive sampleHash "kakure.selfEph" 4 (some (index : Fr)) = 4 := by
    unfold kdfDerive
    dsimp only
    split <;> rfl
  show toBjjScalar _ = 4
  rw [hkdf, toBjjScalar_four]

theorem validScalar_four : ValidScalar 4 := ⟨by decide +kernel, by decide +kernel⟩

theorem isEvenY_four : isEvenY (coords (Circuit.scaled 4 BabyJubJub.base)) = true := by
  rw [coords_sample]
  decide

theorem minted_sample : Circuit.MintedFrom sampleHash sampleNote 4 sampleKey sampleMinted where
  scalar := validScalar_four
  owner := by
    show sampleX ≠ 0
    rw [sampleX_eq]
    decide +kernel
  noteType := Or.inl rfl
  assetId := by
    show (1 : Fr).val < 2 ^ 160
    rw [ZMod.val_one]
    norm_num
  key := ⟨BabyJubJub.base, rfl, rfl⟩
  psi := rfl
  leaf := rfl
  ephPub := rfl
  ciphertext := rfl

theorem mints_sample : Mints sampleHash sampleNote 4 sampleKey sampleEmitted := by
  have hcommon := Circuit.mintCommon_of minted_sample rfl rfl
  have heven : Circuit.isEvenY sampleMinted.ephPub := (Circuit.isEvenY_ofPoint _).2 isEvenY_four
  have htype : sampleNote.1.noteType = noteTypeStandard := rfl
  refine Mints.self (s := ⟨sampleMinted.leaf, sampleMinted.ephPub, sampleMinted.ciphertext⟩) ?_
  unfold Circuit.mintSelfNote Circuit.selfMint
  rw [Circuit.bind_guard htype, Circuit.bind_of_some hcommon, Circuit.bind_guard heven]

/-- The tag of the note is registered. -/
theorem registered_sample : (sampleRepository.self.entries sampleMinted.ephPub.x).isSome := by
  have hx : sampleMinted.ephPub.x = sampleX := rfl
  have hself : sampleRepository.self =
      Lookahead.Window.ensure (tagged Library.reference (accountOf sampleHash 4).getSelfEphemeral)
        Lookahead.Window.empty 1 := rfl
  have hcovers : Lookahead.Window.Covers (tagged Library.reference (accountOf sampleHash 4).getSelfEphemeral)
      sampleRepository.self := by
    rw [hself]
    exact Lookahead.Window.covers_empty.ensure 1
  have hkey : publicKey Library.reference ((accountOf sampleHash 4).getSelfEphemeral 0) =
      coords (Circuit.scaled 4 BabyJubJub.base) := by
    rw [selfEphemeral_sample, publicKey_scaled Library.reference_lawful]
  have htag : discoveryTag (publicKey Library.reference ((accountOf sampleHash 4).getSelfEphemeral 0)) = sampleX := by
    rw [hkey, discoveryTag_coords, sampleX]
  have heven : isEvenY (publicKey Library.reference ((accountOf sampleHash 4).getSelfEphemeral 0)) = true := by
    rw [hkey, isEvenY_four]
  have hderive := @tagged_of_evenY Library.reference (accountOf sampleHash 4).getSelfEphemeral 0 heven
  rw [htag] at hderive
  rw [hx]
  refine hcovers.complete 0 sampleX _ ?_ hderive
  have hnext : (sampleRepository.self.next : ℤ) = 1 := by
    rw [hself]
    exact Lookahead.Window.next_extend 1
  omega

/-- A wallet with the sample repository and some keys. -/
def sampleReader (keys : List ComplianceKeyEpoch) : Reader := .wallet 4 ⟨⟨keys⟩, 0⟩ sampleRepository

theorem reached_sample (keys : List ComplianceKeyEpoch) :
    (sampleReader keys).Reached Library.reference sampleHash := ⟨_, rfl⟩

theorem owns_sample (keys : List ComplianceKeyEpoch) :
    (sampleReader keys).Owns Library.reference sampleHash sampleNote.1 sampleEmitted := by
  refine ⟨rfl, fun _ => ?_⟩
  have hkdf : deriveSelfSpendKey sampleHash 4 = 4 := toBjjScalar_four
  rw [hkdf, publicKey_scaled Library.reference_lawful, ← pubkeyOwner_ofPoint]
  rfl

theorem registered_reader (keys : List ComplianceKeyEpoch) : (sampleReader keys).Registered sampleEmitted := by
  have hx : sampleEmitted.ephPub.x = sampleMinted.ephPub.x := rfl
  have hmemo : sampleEmitted.memo = none := rfl
  unfold sampleReader Reader.Registered
  simp only [hmemo, hx]
  exact registered_sample

/-- The leaf is the content key, so no other key makes a note of it. -/
theorem leafCollisionFree_sample (ring : ComplianceKeyRing) :
    LeafCollisionFree Library.reference sampleHash ring sampleNote.1 4 (packed sampleMinted.ciphertext) := by
  intro e _ cek other _ hopen heq
  have hpsi := openNote_psi hopen
  have hcek : cek = sampleX := hpsi.symm.trans heq
  rw [hcek] at hopen
  have hright : openNote sampleHash sampleX (packed sampleMinted.ciphertext) = .ok sampleNote.1 :=
    openNote_encrypted sampleNote.2 rfl
  rw [hright] at hopen
  cases hopen
  rfl

theorem validPoint_sampleKey : ValidPoint (bigOf sampleKey) := ⟨BabyJubJub.base, BabyJubJub.base_ne_zero, rfl⟩

/-- The zero pair is no point. -/
theorem not_validPoint_zero : ¬ ValidPoint (0, 0) := by
  rintro ⟨P, -, hP⟩
  have hx := congrArg Prod.fst hP
  have hy := congrArg Prod.snd hP
  have hx' : (P : BabyJubJub.Point).x = 0 := (ZMod.val_eq_zero _).1 (Int.ofNat_inj.1 hx.symm)
  have hy' : (P : BabyJubJub.Point).y = 0 := (ZMod.val_eq_zero _).1 (Int.ofNat_inj.1 hy.symm)
  have hcurve := (P : BabyJubJub.Point).on_curve
  rw [hx', hy'] at hcurve
  norm_num at hcurve

/-- The ring of a pool that rotated to the zero pair. -/
def brokenKeys : List ComplianceKeyEpoch := [⟨1, bigOf sampleKey, none⟩, ⟨2, (0, 0), none⟩]

theorem ringOf_broken : RingOf ⟨brokenKeys⟩ sampleKey where
  reduced := by
    intro e he
    simp only [brokenKeys, List.mem_cons, List.not_mem_nil, or_false] at he
    rcases he with rfl | rfl
    · exact reduced_coords _
    · exact ⟨le_refl _, by decide, le_refl _, by decide⟩
  minting := ⟨_, List.mem_cons_self, rfl⟩

/-- The wallet does not read its note of version 1 after the pool rotated to the zero pair. -/
theorem round_trip_broken :
    Mints sampleHash sampleNote 4 sampleKey sampleEmitted ∧
      (sampleReader brokenKeys).Reached Library.reference sampleHash ∧
      (sampleReader brokenKeys).Owns Library.reference sampleHash sampleNote.1 sampleEmitted ∧
      (sampleReader brokenKeys).Registered sampleEmitted ∧ RingOf (sampleReader brokenKeys).ring sampleKey ∧
      Function.Injective (computePsi sampleHash) ∧
      LeafCollisionFree Library.reference sampleHash (sampleReader brokenKeys).ring sampleNote.1 4
        (packed sampleEmitted.ciphertext) ∧
      ¬ (sampleReader brokenKeys).Recovers Library.reference sampleHash (fun _ _ _ => 0) sampleNote
        (sampleEmitted.event 0 0 "") := by
  refine ⟨mints_sample, reached_sample _, owns_sample _, registered_reader _, ringOf_broken, sampleHash_psi,
    leafCollisionFree_sample _, ?_⟩
  intro hrecovers
  have hpass := (wallet_self_iff Library.reference_lawful sampleHash_psi.injOn minted_sample
    ((Circuit.isEvenY_ofPoint _).2 isEvenY_four) rfl (owns_sample brokenKeys) registered_sample ringOf_broken
    (leafCollisionFree_sample _)).1 hrecovers
  exact not_validPoint_zero hpass.1

/-- After a rotation to the double of the base point it does. -/
theorem mint_scan_iff_sample :
    (sampleReader [⟨1, bigOf sampleKey, none⟩, ⟨2, bigOf (Circuit.ofPoint (Circuit.scaled 2 BabyJubJub.base)), none⟩]).Recovers
      Library.reference sampleHash (fun _ _ _ => 0) sampleNote (sampleEmitted.event 0 0 "") := by
  have hring : RingOf ⟨[⟨1, bigOf sampleKey, none⟩,
      ⟨2, bigOf (Circuit.ofPoint (Circuit.scaled 2 BabyJubJub.base)), none⟩]⟩ sampleKey := by
    refine ⟨?_, _, List.mem_cons_self, rfl⟩
    intro e he
    simp only [List.mem_cons, List.not_mem_nil, or_false] at he
    rcases he with rfl | rfl <;> exact reduced_coords _
  have htwo : ValidScalar 2 := ⟨by decide +kernel, by decide +kernel⟩
  refine (mint_scan_iff Library.reference_lawful mints_sample sampleHash_psi.injOn (reached_sample _) (owns_sample _)
    (registered_reader _) hring (leafCollisionFree_sample _) 0 0 "").2 (Or.inr ?_)
  exact passesUntil_of_forall (by
    intro e he
    rw [ComplianceKeyRing.mem_candidatesFor] at he
    rcases List.mem_cons.1 he with rfl | he
    · exact validPoint_sampleKey
    · rw [List.mem_singleton.1 he]
      exact ⟨_, scaled_ne_zero htwo BabyJubJub.base_ne_zero, rfl⟩)

end Kakure.Sync
