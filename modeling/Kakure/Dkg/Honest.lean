import Kakure.Dkg.Quorum

/-!
# A ceremony of honest members

All members run the ceremony, and what they post reaches everyone, in any order.

* `collectAnnounces_honest` — every member knows all the members;
* `acceptDealer_honest` — every member accepts what every dealer tells it;
* `honest_ceremony` — every member's ceremony ends, with the sum of the dealers' secrets behind the key.
-/

namespace Kakure.Dkg

open Codes Fallible Hex Interpolation Keyed Numerals Runs
open Coordinator (EnvelopeKind State Act Relays Saw)
open Proposal (Envelope HexPoint hexToPoint hexToPoint_coords pointToHexObj readBigInt readBigInt_decimal)
open BabyJubJub (subgroup base)
open Tss

/-! ## Rounds -/

theorem forM_ok {α ε : Type} {f : α → Except ε Unit} {xs : List α} (h : ∀ x ∈ xs, f x = .ok ()) :
    xs.forM f = .ok () := by
  induction xs with
  | nil => rfl
  | cons x xs ih =>
    have hx : f x = .ok () := h x List.mem_cons_self
    exact (bind_of_ok hx fun _ => xs.forM f).trans (ih fun y hy => h y (List.mem_cons_of_mem x hy))

/-- What is read of a round in which everyone's message is, in any order. -/
theorem mapM_of_perm {α β γ : Type} {f : β → Except String γ} {es : List β} {ms : List α} {post : α → β} {said : α → γ}
    (hread : ∀ m ∈ ms, f (post m) = .ok (said m)) (h : es.Perm (ms.map post)) :
    ∃ ms' : List α, ms'.Perm ms ∧ es.mapM f = .ok (ms'.map said) := by
  have hposts : List.Forall₂ (fun e m => e = post m) (ms.map post) ms := by
    rw [List.forall₂_map_left_iff]
    exact List.forall₂_same.2 fun _ _ => rfl
  obtain ⟨ms', hes, hms⟩ := List.perm_comp_forall₂ h hposts
  refine ⟨ms', hms, mapM_eq_ok_iff.2 ?_⟩
  rw [List.forall₂_map_right_iff]
  have hmembers := (List.forall₂_and_left (p := (· ∈ ms)) ms' es).2 ⟨fun m hm => hms.mem_iff.1 hm, hes.flip⟩
  refine hmembers.flip.imp fun e m he => ?_
  rw [he.2]
  exact hread m he.1

/-! ## The members -/

/-- The options and the random numbers of a member. -/
abbrev Party := DkgCeremonyOptions × Random

section Everyone

variable {Κ Β : Type}

/-- Members that run one ceremony, and libraries that do for them what they are documented to do. -/
structure Honest (crypto : Crypto Κ Β) (parties : List Party) (sessionId : List Char) (t : ℕ) (context : ℤ) : Prop where
  options : ∀ m ∈ parties, m.1.sessionId = sessionId ∧ m.1.threshold = t ∧ m.1.memberCount = parties.length ∧
    m.1.context = context
  keys : (parties.map fun m => m.1.ed25519PublicKey).Nodup
  threshold : 0 < t
  context : 0 ≤ context ∧ context < bn254ScalarFieldModulus
  count : parties.length < subOrder
  verify : ∀ m ∈ parties, ∀ message,
    crypto.verify (crypto.sign message m.1.ed25519Seed) message m.1.ed25519PublicKey = .ok true
  announce : ∀ m ∈ parties, crypto.readAnnounce (crypto.writeAnnounce (announce crypto m.1)) = .ok (announce crypto m.1)
  opens : ∀ a ∈ parties, ∀ b ∈ parties, ∀ random inner, crypto.openInner (crypto.keyPair b.1.ed25519Seed).1
    (crypto.keyPair a.1.ed25519Seed).2 sessionId (crypto.sealInner random (crypto.keyPair a.1.ed25519Seed).1
      (crypto.keyPair b.1.ed25519Seed).2 sessionId inner) = .ok inner

/-- The announce of a member, as it is posted. -/
def announced (crypto : Crypto Κ Β) (m : Party) : Envelope Κ := ⟨.dkg1, crypto.writeAnnounce (announce crypto m.1)⟩

/-- The members that a ceremony of them has, in order. -/
def memberList (crypto : Crypto Κ Β) (parties : List Party) : List Announce :=
  sortByEdPub (parties.map fun m => announce crypto m.1)

variable {crypto : Crypto Κ Β} {parties : List Party} {sessionId : List Char} {t : ℕ} {context : ℤ}

theorem perm_memberList : (memberList crypto parties).Perm (parties.map fun m => announce crypto m.1) :=
  List.perm_insertionSort _ _

theorem length_memberList : (memberList crypto parties).length = parties.length := by
  rw [perm_memberList.length_eq, List.length_map]

/-- Announces of different identities are all kept. -/
theorem foldlM_addAnnounce_of_nodup {announces acc : List Announce}
    (h : ((acc ++ announces).map fun a => a.edPubHex).Nodup) :
    announces.foldlM addAnnounce acc = .ok (acc ++ announces) := by
  induction announces generalizing acc with
  | nil => simp; rfl
  | cons a announces ih =>
    have hnew : a.edPubHex ∉ acc.map fun a => a.edPubHex := by
      rw [List.map_append, List.nodup_append] at h
      exact fun hmem => h.2.2 _ hmem _ List.mem_cons_self rfl
    have hstep : addAnnounce acc a = .ok (acc ++ [a]) := by
      rw [addAnnounce, if_neg, put, if_neg hnew]
      rw [List.any_eq_true]
      rintro ⟨prior, hprior, hconflict⟩
      exact hnew (List.mem_map.2 ⟨prior, hprior, (of_decide_eq_true hconflict).1⟩)
    rw [List.foldlM_cons, bind_of_ok hstep, ih (by simpa using h)]
    simp

/-- The order in which announces are posted does not matter. -/
theorem sortByEdPub_of_perm {announces announces' : List Announce} (h : announces.Perm announces')
    (hkeys : (announces'.map fun a => a.edPubHex).Nodup) : sortByEdPub announces = sortByEdPub announces' := by
  have hperm : (sortByEdPub announces).Perm announces := List.perm_insertionSort _ _
  have hperm' : (sortByEdPub announces').Perm announces' := List.perm_insertionSort _ _
  have hordered : ∀ as : List Announce, (sortByEdPub as).Pairwise fun a b =>
      codeUnits a.edPubHex ≤ codeUnits b.edPubHex := fun as => List.pairwise_insertionSort _ _
  refine ((hperm.trans h).trans hperm'.symm).eq_of_pairwise ?_ (hordered _) (hordered _)
  intro a b ha hb hab hba
  have hinj := List.inj_on_of_nodup_map hkeys
  exact hinj ((hperm.trans h).mem_iff.1 ha) (hperm'.mem_iff.1 hb) (codeUnits_injective (le_antisymm hab hba))

theorem nodup_announced (H : Honest crypto parties sessionId t context) :
    ((parties.map fun m => announce crypto m.1).map fun a => a.edPubHex).Nodup := by
  have hhex := H.keys.map (f := hexDigits) fun a b => hexDigits_inj
  rwa [List.map_map] at hhex ⊢

/-- Every member knows all the members. -/
theorem collectAnnounces_honest (H : Honest crypto parties sessionId t context) {m : Party} (hm : m ∈ parties)
    {log : List (Envelope Κ)} (hlog : (ofKind .dkg1 log).Perm (parties.map (announced crypto))) :
    collectAnnounces crypto m.1 log = .ok (memberList crypto parties) := by
  obtain ⟨hsession, -, hcount, -⟩ := H.options m hm
  have hposted : ∀ m ∈ parties, (fun e : Envelope Κ => crypto.readAnnounce e.ciphertext) (announced crypto m) =
      .ok (announce crypto m.1) := H.announce
  obtain ⟨ms, hms, hread⟩ := mapM_of_perm (f := fun e : Envelope Κ => crypto.readAnnounce e.ciphertext) hposted hlog
  have hperm := hms.map fun m => announce crypto m.1
  have hcollect : collectUntil m.1 log (m.1.memberCount ≤ (ofKind .dkg1 log).length) = .ok log := by
    rw [collectUntil, if_pos]
    rw [decide_eq_true_eq, hcount, hlog.length_eq, List.length_map]
  have hcheck : (ms.map fun m => announce crypto m.1).forM (checkAnnounce crypto m.1) = .ok () := by
    refine forM_ok fun a ha => ?_
    obtain ⟨k, hk, rfl⟩ := List.mem_map.1 (hperm.mem_iff.1 ha)
    have hverify := H.verify k hk (announceSignBytes sessionId (crypto.keyPair k.1.ed25519Seed).2)
    rw [checkAnnounce, signedBy, announce, fromHex_hexDigits, fromHex_hexDigits, fromHex_hexDigits, hsession,
      (H.options k hk).1, hverify]
    rfl
  have hkeys := nodup_announced H
  have hadd : (ms.map fun m => announce crypto m.1).foldlM addAnnounce [] = .ok (ms.map fun m => announce crypto m.1) :=
    foldlM_addAnnounce_of_nodup ((hperm.map _).nodup_iff.2 hkeys)
  have hsorted : sortByEdPub (ms.map fun m => announce crypto m.1) = memberList crypto parties :=
    sortByEdPub_of_perm hperm hkeys
  rw [collectAnnounces, bind_of_ok hcollect, bind_of_ok hread, bind_of_ok hcheck, bind_of_ok hadd, hsorted, checkCount,
    if_neg]
  rw [length_memberList, hcount, not_not]

/-! ## The dealers -/

/-- The place of a member, which is its identifier. -/
def Placed (crypto : Crypto Κ Β) (parties : List Party) (m : Party) (i : ℕ) : Prop :=
  (memberList crypto parties)[i]? = some (announce crypto m.1)

theorem exists_placed {m : Party} (hm : m ∈ parties) : ∃ i, Placed crypto parties m i :=
  List.mem_iff_getElem?.1 (perm_memberList.mem_iff.2 (List.mem_map_of_mem hm))

theorem Placed.lt {m : Party} {i : ℕ} (h : Placed crypto parties m i) : i < parties.length := by
  have hlength : (memberList crypto parties).length = parties.length := length_memberList
  rw [← hlength]
  exact (List.getElem?_eq_some_iff.1 h).1

theorem Placed.edPubById {m : Party} {i : ℕ} (h : Placed crypto parties m i) :
    edPubById (memberList crypto parties) ((i : ℤ) + 1) = some (hexDigits m.1.ed25519PublicKey) := by
  rw [Dkg.edPubById, if_neg (by omega), show ((i : ℤ) + 1 - 1).toNat = i by omega, h]
  rfl

theorem Placed.ownId (H : Honest crypto parties sessionId t context) {m : Party} {i : ℕ}
    (h : Placed crypto parties m i) : ownId m.1 (memberList crypto parties) = .ok ((i : ℤ) + 1) := by
  obtain ⟨hlt, hget⟩ := List.getElem?_eq_some_iff.1 h
  have hnodup : ((memberList crypto parties).map fun a => a.edPubHex).Nodup :=
    (perm_memberList.map _).nodup_iff.2 (nodup_announced H)
  have hfind : (memberList crypto parties).findIdx? (fun a => a.edPubHex = hexDigits m.1.ed25519PublicKey) =
      some i := by
    refine List.findIdx?_eq_some_iff_getElem.2 ⟨hlt, by simp [hget, announce], fun j hj => ?_⟩
    have hne := List.pairwise_iff_getElem.1 hnodup j i (by simpa using hj.trans hlt) (by simpa using hlt) hj
    simp only [List.getElem_map, hget] at hne
    simpa [announce] using hne
  rw [Dkg.ownId, idByEdPub, hfind]
  rfl

/-- The contribution of a member, and what it posts. -/
theorem dealerMessage_honest (poseidon : List Fr → Fr) {lib : Library} (h : lib.Lawful)
    (H : Honest crypto parties sessionId t context) {m : Party} (hm : m ∈ parties) {i : ℕ} (hi : i < parties.length) :
    ∃ c, dealerContribute poseidon lib ((List.range t).map m.2.coeffs) m.2.k ((i : ℤ) + 1)
        (participantIds (memberList crypto parties)) context = .ok c ∧
      dealerMessage poseidon lib crypto m.1 (memberList crypto parties) ((i : ℤ) + 1) m.2 =
        .ok ⟨toText 10 ((i : ℤ) + 1), hexDigits (crypto.keyPair m.1.ed25519Seed).2, fun id =>
          ((memberList crypto parties).zipIdx.find? fun x => toText 10 ((x.2 : ℤ) + 1) = id).bind fun x =>
            boxFor crypto m.1 c m.2 x.2 x.1⟩ := by
  obtain ⟨-, hthreshold, -, hcontext⟩ := H.options m hm
  obtain ⟨n, rfl⟩ := Nat.exists_eq_succ_of_ne_zero H.threshold.ne'
  have hcount : ((subOrder : ℕ) : ℤ) < bn254ScalarFieldModulus := by decide
  have hlt := H.count
  obtain ⟨c, hc⟩ : ∃ c, dealerContribute poseidon lib (m.2.coeffs 0 :: (List.range n).map fun k => m.2.coeffs (k + 1))
      m.2.k ((i : ℤ) + 1) (participantIds (memberList crypto parties)) context = .ok c :=
    dealerContribute_isOk h _ _ (by omega) H.context
  have hcoeffs : (List.range (n + 1)).map m.2.coeffs =
      m.2.coeffs 0 :: (List.range n).map fun k => m.2.coeffs (k + 1) := by
    rw [List.range_succ_eq_map, List.map_cons, List.map_map]
    rfl
  refine ⟨c, by rw [Nat.succ_eq_add_one, hcoeffs, hc], ?_⟩
  rw [dealerMessage, hthreshold, hcontext, Nat.succ_eq_add_one, hcoeffs]
  exact bind_of_ok hc _

theorem dealerContribute_ok {poseidon : List Fr → Fr} {lib : Library} {coeffs participants : List ℤ} {k id context : ℤ}
    {c : DealerContribution} (hc : dealerContribute poseidon lib coeffs k id participants context = .ok c) :
    c.id = id ∧ c.pop.R = scalarBaseMul lib k := by
  cases coeffs with
  | nil => cases hc
  | cons secret coeffs =>
    obtain ⟨pop, hpop, hc⟩ := bind_eq_ok.1 hc
    obtain ⟨e, -, hpop⟩ := bind_eq_ok.1 hpop
    obtain rfl := Except.ok.inj hc
    rw [← Except.ok.inj hpop]
    exact ⟨rfl, rfl⟩

/-- The check of a contribution looks at the share of its recipient only. -/
theorem verifyContribution_congr {poseidon : List Fr → Fr} {lib : Library} {recipientId context : ℤ}
    {c d : DealerContribution} (hid : c.id = d.id) (hcommitments : c.commitments = d.commitments) (hpop : c.pop = d.pop)
    (hshare : c.shares recipientId = d.shares recipientId) :
    verifyContribution poseidon lib recipientId c context = verifyContribution poseidon lib recipientId d context := by
  rw [verifyContribution, verifyContribution, hid, hcommitments, hpop, hshare]

theorem mapM_hexToPoint (points : List subgroup) :
    ((coordsOf points).map pointToHexObj).mapM hexToPoint = .ok (coordsOf points) := by
  rw [mapM_eq_ok_iff, List.forall₂_map_left_iff, List.forall₂_same]
  intro p hp
  obtain ⟨P, -, rfl⟩ := List.mem_map.1 hp
  exact hexToPoint_coords P

/-- The message of a member that has this contribution. -/
def messageOf (crypto : Crypto Κ Β) (parties : List Party) (m : Party) (i : ℕ) (c : DealerContribution) :
    DealerMessage Β :=
  ⟨toText 10 ((i : ℤ) + 1), hexDigits (crypto.keyPair m.1.ed25519Seed).2, fun id =>
    ((memberList crypto parties).zipIdx.find? fun x => toText 10 ((x.2 : ℤ) + 1) = id).bind fun x =>
      boxFor crypto m.1 c m.2 x.2 x.1⟩

theorem messageOf_dealerId (m : Party) (i : ℕ) (c : DealerContribution) :
    (messageOf crypto parties m i c).dealerId = toText 10 ((i : ℤ) + 1) := rfl

theorem messageOf_sender (m : Party) (i : ℕ) (c : DealerContribution) :
    (messageOf crypto parties m i c).senderX25519PubHex = hexDigits (crypto.keyPair m.1.ed25519Seed).2 := rfl

theorem boxes_messageOf {a b : Party} {i j : ℕ} (hb : Placed crypto parties b j) (c : DealerContribution) :
    (messageOf crypto parties a i c).boxes (toText 10 ((j : ℤ) + 1)) =
      boxFor crypto a.1 c a.2 j (announce crypto b.1) := by
  obtain ⟨hlt, hget⟩ := List.getElem?_eq_some_iff.1 hb
  have hfind : ((memberList crypto parties).zipIdx.find? fun x => toText 10 ((x.2 : ℤ) + 1) = toText 10 ((j : ℤ) + 1)) =
      some (announce crypto b.1, j) := by
    refine List.find?_eq_some_iff_getElem.2 ⟨by simp, j, by simpa using hlt, by simp [hget], fun k hk => ?_⟩
    simp only [List.getElem_zipIdx, Bool.not_eq_true', decide_eq_false_iff_not]
    intro heq
    have := toText_injective heq
    omega
  rw [messageOf]
  simp only [hfind, Option.bind_some]

theorem signedBy_of_verify {sig key : List Char} {message : List UInt8}
    (h : crypto.verify (fromHex sig) message (fromHex key) = .ok true) : signedBy crypto sig message key = true := by
  rw [signedBy, h]

/-- Every member accepts what every dealer tells it. -/
theorem acceptDealer_honest {poseidon : List Fr → Fr} {lib : Library} (h : lib.Lawful)
    (H : Honest crypto parties sessionId t context) {a b : Party} (ha : a ∈ parties) (hb : b ∈ parties) {i j : ℕ}
    (hi : Placed crypto parties a i) (hj : Placed crypto parties b j) {c : DealerContribution}
    (hc : dealerContribute poseidon lib ((List.range t).map a.2.coeffs) a.2.k ((i : ℤ) + 1)
      (participantIds (memberList crypto parties)) context = .ok c) :
    ∃ share, acceptDealer poseidon lib crypto b.1 (memberList crypto parties) ((j : ℤ) + 1)
      (messageOf crypto parties a i c) = .ok (⟨(i : ℤ) + 1, c.commitments, c.pop,
        fun k => if k = (j : ℤ) + 1 then some share else none⟩, a.2.r) := by
  obtain ⟨hid, hR⟩ := dealerContribute_ok hc
  obtain ⟨hcommitments, hverified⟩ := dealerContribute_verified poseidon h hc
  have hmem : (j : ℤ) + 1 ∈ participantIds (memberList crypto parties) := mem_participantIds hj.edPubById
  obtain ⟨hshare, hverified⟩ := hverified _ hmem
  obtain ⟨hsession, -, -, hcontext⟩ := H.options b hb
  obtain ⟨share, hshares⟩ : ∃ share, c.shares ((j : ℤ) + 1) = some share := ⟨_, hshare⟩
  refine ⟨share, ?_⟩
  have hdealer : readBigInt (messageOf crypto parties a i c).dealerId = .ok ((i : ℤ) + 1) := by
    rw [messageOf_dealerId, readBigInt_decimal]
  have hbox : (messageOf crypto parties a i c).boxes (toText 10 ((j : ℤ) + 1)) =
      some (crypto.sealInner (a.2.boxes j) (crypto.keyPair a.1.ed25519Seed).1 (crypto.keyPair b.1.ed25519Seed).2
        sessionId (innerOf crypto a.1 c a.2.r share)) := by
    rw [boxes_messageOf hj, boxFor, hshares, Option.map_some, announce, fromHex_hexDigits, (H.options a ha).1]
  have hopen := H.opens a ha b hb (a.2.boxes j) (innerOf crypto a.1 c a.2.r share)
  have hsigned : signedBy crypto (innerOf crypto a.1 c a.2.r share).sig (dealerSignBytes sessionId
      (messageOf crypto parties a i c).dealerId (innerOf crypto a.1 c a.2.r share).commitments
      (innerOf crypto a.1 c a.2.r share).pop) (hexDigits a.1.ed25519PublicKey) = true := by
    refine signedBy_of_verify ?_
    rw [innerOf, fromHex_hexDigits, fromHex_hexDigits, (H.options a ha).1, hid]
    exact H.verify a ha _
  have hpoint : hexToPoint (pointToHexObj c.pop.R) = .ok c.pop.R := by
    rw [hR, scalarBaseMul_eq h]
    exact hexToPoint_coords _
  have hpoints : (c.commitments.map pointToHexObj).mapM hexToPoint = .ok c.commitments := by
    rw [hcommitments]
    exact mapM_hexToPoint _
  have hcheck : verifyContribution poseidon lib ((j : ℤ) + 1) ⟨(i : ℤ) + 1, c.commitments, c.pop,
      fun k => if k = (j : ℤ) + 1 then some share else none⟩ b.1.context = .ok true := by
    rw [← hverified, hcontext]
    exact verifyContribution_congr hid.symm rfl rfl ((if_pos rfl).trans hshares.symm)
  rw [acceptDealer, bind_of_ok hdealer, hi.edPubById, hbox]
  rw [bind_of_ok (rfl : orThrow (some (hexDigits a.1.ed25519PublicKey)) _ = .ok _)]
  rw [bind_of_ok (rfl : orThrow (some (crypto.sealInner _ _ _ _ _)) _ = .ok _)]
  rw [hsession, messageOf_sender, fromHex_hexDigits, bind_of_ok hopen]
  simp only [hsigned, Bool.not_true, if_neg Bool.false_ne_true]
  rw [innerOf, bind_of_ok (readBigInt_decimal share), bind_of_ok hpoints, bind_of_ok hpoint,
    bind_of_ok (readBigInt_decimal c.pop.z)]
  refine (bind_of_ok hcheck _).trans ?_
  rw [if_neg Bool.noConfusion, fromHex_hexDigits]

/-! ## The runs -/

/-- The places and the contributions of all members. -/
structure Dealt (poseidon : List Fr → Fr) (lib : Library) (crypto : Crypto Κ Β) (parties : List Party) (t : ℕ)
    (context : ℤ) (place : Party → ℕ) (contribution : Party → DealerContribution) : Prop where
  placed : ∀ m ∈ parties, Placed crypto parties m (place m)
  contributed : ∀ m ∈ parties, dealerContribute poseidon lib ((List.range t).map m.2.coeffs) m.2.k ((place m : ℤ) + 1)
    (participantIds (memberList crypto parties)) context = .ok (contribution m)

variable {poseidon : List Fr → Fr} {lib : Library} (h : lib.Lawful) {place : Party → ℕ}
  {contribution : Party → DealerContribution}

include h

theorem exists_dealt (poseidon : List Fr → Fr) (H : Honest crypto parties sessionId t context) :
    ∃ place contribution, Dealt poseidon lib crypto parties t context place contribution := by
  have hplaces : ∀ m, ∃ i, ∃ c, m ∈ parties → Placed crypto parties m i ∧
      dealerContribute poseidon lib ((List.range t).map m.2.coeffs) m.2.k ((i : ℤ) + 1)
        (participantIds (memberList crypto parties)) context = .ok c := by
    intro m
    by_cases hm : m ∈ parties
    · obtain ⟨i, hi⟩ : ∃ i, Placed crypto parties m i := exists_placed hm
      obtain ⟨c, hc, -⟩ := dealerMessage_honest poseidon h H hm hi.lt
      exact ⟨i, c, fun _ => ⟨hi, hc⟩⟩
    · exact ⟨0, ⟨0, [], ⟨(0, 0), 0⟩, fun _ => none⟩, fun h => absurd h hm⟩
  choose place contribution hdealt using hplaces
  exact ⟨place, contribution, ⟨fun m hm => (hdealt m hm).1, fun m hm => (hdealt m hm).2⟩⟩

/-- The message of a member is what it has dealt. -/
theorem Dealt.dealerMessage (H : Honest crypto parties sessionId t context)
    (D : Dealt poseidon lib crypto parties t context place contribution) {m : Party} (hm : m ∈ parties) :
    dealerMessage poseidon lib crypto m.1 (memberList crypto parties) ((place m : ℤ) + 1) m.2 =
      .ok (messageOf crypto parties m (place m) (contribution m)) := by
  obtain ⟨c, hc, hmessage⟩ := dealerMessage_honest poseidon h H hm (D.placed m hm).lt
  obtain rfl := Except.ok.inj (hc.symm.trans (D.contributed m hm))
  exact hmessage

/-- What a member accepts of the dealers. -/
theorem Dealt.exists_accepted (H : Honest crypto parties sessionId t context)
    (D : Dealt poseidon lib crypto parties t context place contribution) {m : Party} (hm : m ∈ parties) :
    ∃ x : Party → DealerContribution × List UInt8, ∀ a ∈ parties,
      acceptDealer poseidon lib crypto m.1 (memberList crypto parties) ((place m : ℤ) + 1)
        (messageOf crypto parties a (place a) (contribution a)) = .ok (x a) ∧
      (x a).1.id = (place a : ℤ) + 1 ∧ (x a).1.commitments = (contribution a).commitments := by
  have haccept : ∀ a, ∃ x : DealerContribution × List UInt8, a ∈ parties →
      acceptDealer poseidon lib crypto m.1 (memberList crypto parties) ((place m : ℤ) + 1)
        (messageOf crypto parties a (place a) (contribution a)) = .ok x ∧
      x.1.id = (place a : ℤ) + 1 ∧ x.1.commitments = (contribution a).commitments := by
    intro a
    by_cases ha : a ∈ parties
    · obtain ⟨share, hshare⟩ := acceptDealer_honest h H ha hm (D.placed a ha) (D.placed m hm) (D.contributed a ha)
      exact ⟨_, fun _ => ⟨hshare, rfl, rfl⟩⟩
    · exact ⟨⟨⟨0, [], ⟨(0, 0), 0⟩, fun _ => none⟩, []⟩, fun h => absurd h ha⟩
  choose x hx using haccept
  exact ⟨x, hx⟩

omit h in
/-- Every member collects what it accepts. -/
theorem collectDealers_honest (H : Honest crypto parties sessionId t context) {m : Party} (hm : m ∈ parties)
    {myId : ℤ} {log2 : List (Envelope Κ)} {ms : List Party} (hms : ms.Perm parties)
    {message : Party → DealerMessage Β} {x : Party → DealerContribution × List UInt8}
    (hread : (ofKind .dkg2 log2).mapM (fun e => crypto.readDealer e.ciphertext) = .ok (ms.map message))
    (hx : ∀ a ∈ parties, acceptDealer poseidon lib crypto m.1 (memberList crypto parties) myId (message a) =
      .ok (x a)) :
    collectDealers poseidon lib crypto m.1 (memberList crypto parties) myId log2 = .ok (ms.map x) := by
  have hcollect : collectUntil m.1 log2 (m.1.memberCount ≤ (ofKind .dkg2 log2).length) = .ok log2 := by
    rw [collectUntil, if_pos]
    rw [decide_eq_true_eq, (forall_of_mapM hread).length_eq, List.length_map, hms.length_eq, (H.options m hm).2.2.1]
  rw [collectDealers, bind_of_ok hcollect, bind_of_ok hread, mapM_eq_ok_iff, List.forall₂_map_left_iff,
    List.forall₂_map_right_iff, List.forall₂_same]
  exact fun a ha => hx a (hms.mem_iff.1 ha)

/-- The ceremony of every member ends. -/
theorem runDkgCeremony_honest (H : Honest crypto parties sessionId t context)
    (D : Dealt poseidon lib crypto parties t context place contribution) {m : Party} (hm : m ∈ parties)
    {log1 log2 : List (Envelope Κ)} (hlog1 : (ofKind .dkg1 log1).Perm (parties.map (announced crypto)))
    {ms : List Party} (hms : ms.Perm parties)
    (hread : (ofKind .dkg2 log2).mapM (fun e => crypto.readDealer e.ciphertext) =
      .ok (ms.map fun a => messageOf crypto parties a (place a) (contribution a))) :
    ∃ r, runDkgCeremony poseidon lib crypto m.1 m.2 log1 log2 = .ok r ∧ r.myId = (place m : ℤ) + 1 ∧
      r.dealerCommitments = mapOf (ms.map fun a => ((place a : ℤ) + 1, (contribution a).commitments)) := by
  have hplaced := D.placed m hm
  obtain ⟨-, -, -, hcontext⟩ := H.options m hm
  obtain ⟨own, -, hown⟩ := dealerMessage_honest poseidon h H hm hplaced.lt
  obtain ⟨x, hx⟩ := Dealt.exists_accepted h H D hm
  have hmem : ∀ a ∈ ms, a ∈ parties := fun a ha => hms.mem_iff.1 ha
  have hdealers : collectDealers poseidon lib crypto m.1 (memberList crypto parties) ((place m : ℤ) + 1) log2 =
      .ok (ms.map x) := collectDealers_honest H hm hms hread fun a ha => (hx a ha).1
  have hknown : ∀ c ∈ (ms.map x).map Prod.fst, c.commitments = coordsOf (pointsOf c.commitments) ∧
      ∀ i ∈ [(place m : ℤ) + 1], verifyContribution poseidon lib i c context = .ok true := by
    intro c hc
    obtain ⟨_, hmap, rfl⟩ := List.mem_map.1 hc
    obtain ⟨a, ha, rfl⟩ := List.mem_map.1 hmap
    obtain ⟨haccepted, -, hcommitments⟩ := hx a (hmem a ha)
    obtain ⟨inner, hinner, -⟩ := acceptDealer_ok haccepted
    have hpoints := (dealerContribute_verified poseidon h (D.contributed a (hmem a ha))).1
    refine ⟨coordsOf_pointsOf ⟨_, hcommitments.trans hpoints⟩, fun i hi => ?_⟩
    rw [List.mem_singleton.1 hi, ← hcontext]
    exact hinner.verified
  obtain ⟨result, hresult, -, -⟩ := aggregate_eq h (List.cons_ne_nil ((place m : ℤ) + 1) [])
    (fun c hc => (hknown c hc).1) fun c hc => (hknown c hc).2
  obtain ⟨r, hr⟩ : ∃ r, runDkgCeremony poseidon lib crypto m.1 m.2 log1 log2 = .ok r := by
    rw [runDkgCeremony, bind_of_ok (collectAnnounces_honest H hm hlog1), bind_of_ok (hplaced.ownId H), bind_of_ok hown,
      bind_of_ok hdealers, bind_of_ok hresult]
    exact ⟨_, rfl⟩
  obtain ⟨sorted, accepted, -, hsorted, hmyId, haccepted, -, -, -, -, hcommitments, -⟩ := runDkgCeremony_ok hr
  obtain rfl := Except.ok.inj ((collectAnnounces_honest H hm hlog1).symm.trans hsorted)
  have hid : r.myId = (place m : ℤ) + 1 := by
    have hown := hplaced.ownId H
    rw [ownId, hmyId] at hown
    exact Except.ok.inj hown
  rw [hid, hdealers, Except.ok.injEq] at haccepted
  refine ⟨r, hr, hid, ?_⟩
  rw [hcommitments, ← haccepted, List.map_map]
  refine congrArg mapOf (List.map_congr_left fun a ha => ?_)
  rw [Function.comp_apply, (hx a (hmem a ha)).2.1, (hx a (hmem a ha)).2.2]

omit h in
theorem Dealt.place_injective (H : Honest crypto parties sessionId t context)
    (D : Dealt poseidon lib crypto parties t context place contribution) {a b : Party} (ha : a ∈ parties)
    (hb : b ∈ parties) (heq : place a = place b) : a = b := by
  have hplaced := D.placed a ha
  have hplaced' := D.placed b hb
  rw [Placed, heq, hplaced', Option.some.injEq] at hplaced
  refine List.inj_on_of_nodup_map H.keys ha hb (hexDigits_inj ?_)
  exact (congrArg (fun a : Announce => a.edPubHex) hplaced).symm

/-- The value at zero of what a member has committed to. -/
theorem evalAt_contribution (H : Honest crypto parties sessionId t context)
    (D : Dealt poseidon lib crypto parties t context place contribution) {a : Party} (ha : a ∈ parties) :
    (∃ points : List subgroup, (contribution a).commitments = coordsOf points ∧ points.length ≤ t) ∧
      evalAt (pointsOf (contribution a).commitments) (0 : ZMod subOrder) =
        ((a.2.coeffs 0 : ℤ) : ZMod subOrder) • base := by
  have hpoints := (dealerContribute_verified poseidon h (D.contributed a ha)).1
  refine ⟨⟨_, hpoints, by simp⟩, ?_⟩
  have hinjective : Function.Injective coordsOf := List.map_injective_iff.2 fun P Q hPQ =>
    Subtype.ext (coords_injective hPQ)
  have hof := hinjective (hpoints.symm.trans (coordsOf_pointsOf ⟨_, hpoints⟩))
  obtain ⟨n, rfl⟩ := Nat.exists_eq_succ_of_ne_zero H.threshold.ne'
  rw [← hof, evalAt_map_smul, List.range_succ_eq_map, List.map_cons, residues_cons, eval_zero_ofCoefficients]

omit h in
/-- What a member finds in its box of an honest dealer's message. -/
theorem commitments_of_opens (H : Honest crypto parties sessionId t context)
    (D : Dealt poseidon lib crypto parties t context place contribution) {a b : Party} (ha : a ∈ parties)
    (hb : b ∈ parties) {m : Member Κ} (hopts : m.opts = b.1) (hmyId : m.result.myId = (place b : ℤ) + 1)
    {inner : InnerDealerPayload}
    (hopens : Opens crypto m (messageOf crypto parties a (place a) (contribution a)) inner) :
    inner.commitments = (contribution a).commitments.map pointToHexObj := by
  obtain ⟨box, hbox, hinner⟩ := hopens
  rw [hmyId, boxes_messageOf (D.placed b hb), boxFor] at hbox
  obtain ⟨share, -, rfl⟩ := Option.map_eq_some_iff.1 hbox
  rw [hopts, messageOf_sender, fromHex_hexDigits, announce, fromHex_hexDigits, (H.options a ha).1, (H.options b hb).1,
    H.opens a ha b hb] at hinner
  rw [← Except.ok.inj hinner, innerOf]

/-- What all members have of the dealers. -/
def entriesOf (place : Party → ℕ) (contribution : Party → DealerContribution) (ms : List Party) :
    List (ℤ × List Point) :=
  ms.map fun a => ((place a : ℤ) + 1, (contribution a).commitments)

omit h in
theorem nodup_entriesOf (H : Honest crypto parties sessionId t context)
    (D : Dealt poseidon lib crypto parties t context place contribution) {ms : List Party} (hms : ms.Perm parties) :
    ((entriesOf place contribution ms).map Prod.fst).Nodup := by
  rw [entriesOf, List.map_map]
  refine List.Nodup.map_on (fun a ha b hb hab => ?_) (hms.nodup_iff.2 H.keys.of_map)
  have hplace : (place a : ℤ) + 1 = (place b : ℤ) + 1 := hab
  exact D.place_injective H (hms.mem_iff.1 ha) (hms.mem_iff.1 hb) (by omega)

omit h in
/-- No dealer has two messages. -/
theorem not_repeats_honest (H : Honest crypto parties sessionId t context)
    (D : Dealt poseidon lib crypto parties t context place contribution) {log2 : List (Envelope Κ)} {ms : List Party}
    (hms : ms.Perm parties) (hread : (ofKind .dkg2 log2).mapM (fun e => crypto.readDealer e.ciphertext) =
      .ok (ms.map fun a => messageOf crypto parties a (place a) (contribution a))) : ¬ Repeats crypto log2 := by
  have hclaimed : (ofKind .dkg2 log2).map (claimedDealer crypto) =
      ((entriesOf place contribution ms).map Prod.fst).map .ok := by
    rw [entriesOf, List.map_map, List.map_map, ← List.forall₂_eq_eq_eq, List.forall₂_map_left_iff,
      List.forall₂_map_right_iff]
    have hmessages := forall_of_mapM hread
    rw [List.forall₂_map_right_iff] at hmessages
    refine hmessages.imp fun e a he => ?_
    rw [claimedDealer, bind_of_ok he, messageOf_dealerId, readBigInt_decimal]
    rfl
  rw [Repeats, not_not, hclaimed]
  exact (nodup_entriesOf H D hms).map fun i j hij => Except.ok.inj hij

omit h in
theorem sum_smul_base (cs : List ℤ) :
    (cs.map fun c : ℤ => (c : ZMod subOrder) • base).sum = ((cs.sum : ℤ) : ZMod subOrder) • base := by
  induction cs with
  | nil => simp
  | cons c cs ih => rw [List.map_cons, List.sum_cons, ih, List.sum_cons, Int.cast_add, add_smul]

/-- The key behind the commitments is the sum of the secrets. -/
theorem valueAt_entriesOf (H : Honest crypto parties sessionId t context)
    (D : Dealt poseidon lib crypto parties t context place contribution) {ms : List Party} (hms : ms.Perm parties) :
    coords (valueAt ((entriesOf place contribution ms).map Prod.snd) 0 : subgroup) =
      scalarBaseMul lib (parties.map fun m => m.2.coeffs 0).sum := by
  have hsum : valueAt ((entriesOf place contribution ms).map Prod.snd) 0 =
      (ms.map fun a => ((a.2.coeffs 0 : ℤ) : ZMod subOrder) • base).sum := by
    rw [valueAt, entriesOf, List.map_map, List.map_map]
    refine congrArg List.sum (List.map_congr_left fun a ha => ?_)
    exact (evalAt_contribution h H D (hms.mem_iff.1 ha)).2
  rw [hsum, scalarBaseMul_eq h, ← sum_smul_base, List.map_map, (hms.map _).sum_eq]
  rfl

/-- A party as a member, with its result. -/
def memberOf (log1 log2 : List (Envelope Κ)) (result : Party → DkgCeremonyResult) (m : Party) : Member Κ :=
  ⟨m.1, m.2, log1, log2, result m⟩

/-- A ceremony that ended for everyone. -/
structure Completed (poseidon : List Fr → Fr) (lib : Library) (crypto : Crypto Κ Β) (parties : List Party) (t : ℕ)
    (log1 log2 : List (Envelope Κ)) (result : Party → DkgCeremonyResult) (entries : List (ℤ × List Point)) : Prop where
  ended : ∀ m ∈ parties, (memberOf log1 log2 result m).Ended poseidon lib crypto
  dealers : ∀ m ∈ parties, (result m).dealerCommitments = entries
  gpk : ∀ m ∈ parties, (result m).gpk = scalarBaseMul lib (parties.map fun m => m.2.coeffs 0).sum
  short : ∀ d ∈ entries, ∃ points : List subgroup, d.2 = coordsOf points ∧ points.length ≤ t
  ids : ∀ a ∈ parties, ∀ b ∈ parties, (result a).myId = (result b).myId → a = b
  once : ¬ Repeats crypto log2 ∧ ∀ a ∈ parties, ∀ b ∈ parties, ∀ key,
    ¬ Equivocates crypto (memberOf log1 log2 result a) (memberOf log1 log2 result b) key

/-- If all that is dealt is posted, in any order, the ceremony ends for everyone. -/
theorem exists_completed (H : Honest crypto parties sessionId t context)
    (D : Dealt poseidon lib crypto parties t context place contribution) (hwritten : ∀ m ∈ parties, crypto.readDealer
      (crypto.writeDealer (messageOf crypto parties m (place m) (contribution m))) =
        .ok (messageOf crypto parties m (place m) (contribution m)))
    {log1 log2 : List (Envelope Κ)} (hlog1 : (ofKind .dkg1 log1).Perm (parties.map (announced crypto)))
    (hlog2 : (ofKind .dkg2 log2).Perm (parties.map fun m =>
      ⟨.dkg2, crypto.writeDealer (messageOf crypto parties m (place m) (contribution m))⟩)) :
    ∃ result entries, Completed poseidon lib crypto parties t log1 log2 result entries := by
  obtain ⟨ms, hms, hread⟩ := mapM_of_perm (f := fun e : Envelope Κ => crypto.readDealer e.ciphertext) hwritten hlog2
  have hends := fun m (hm : m ∈ parties) => runDkgCeremony_honest h H D hm hlog1 hms hread
  have hnonempty : Nonempty DkgCeremonyResult := ⟨⟨[], 0, 0, 0, [], (0, 0), 0, [], []⟩⟩
  choose! result hended hmyId hcommitments using hends
  have hentries : ∀ m ∈ parties, (result m).dealerCommitments = entriesOf place contribution ms := by
    intro m hm
    rw [hcommitments m hm]
    exact mapOf_of_nodup (nodup_entriesOf H D hms)
  have hrepeats := not_repeats_honest H D hms hread
  have hshort : ∀ d ∈ entriesOf place contribution ms, ∃ points : List subgroup, d.2 = coordsOf points ∧
      points.length ≤ t := by
    intro d hd
    obtain ⟨a, ha, rfl⟩ := List.mem_map.1 hd
    exact (evalAt_contribution h H D (hms.mem_iff.1 ha)).1
  refine ⟨result, entriesOf place contribution ms, hended, hentries, fun m hm => ?_, hshort, fun a ha b hb hab => ?_,
    hrepeats, ?_⟩
  · have hshare := Member.Ended.share h (m := memberOf log1 log2 result m) (hended m hm) hrepeats fun d hd => by
      rw [memberOf, hentries m hm] at hd
      exact (hshort d hd).imp fun _ hd => hd.1
    rw [← valueAt_entriesOf h H D hms, ← hentries m hm]
    exact hshare.1
  · rw [hmyId a ha, hmyId b hb] at hab
    exact D.place_injective H ha hb (by omega)
  · rintro a ha b hb key ⟨e, he, msg, inner, inner', hmsg, hopens, hopens', hne, -⟩
    obtain ⟨d, hd, rfl⟩ := List.mem_map.1 (hlog2.mem_iff.1 he)
    obtain rfl := Except.ok.inj ((hwritten d hd).symm.trans hmsg)
    refine hne ((commitments_of_opens H D hd ha rfl (hmyId a ha) hopens).trans ?_)
    exact (commitments_of_opens H D hd hb rfl (hmyId b hb) hopens').symm

/-- If all members run the ceremony, and the announces and then the messages of all dealers are posted, in any order,
every member's ceremony ends; all have the sum of the dealers' secrets behind the group key; and the shares of as many
members as the threshold interpolate that sum. -/
theorem honest_ceremony (H : Honest crypto parties sessionId t context) :
    ∃ posted : Party → DealerMessage Β,
      (∀ m ∈ parties, ∀ log1 : List (Envelope Κ), (ofKind .dkg1 log1).Perm (parties.map (announced crypto)) →
        ∃ sorted myId, collectAnnounces crypto m.1 log1 = .ok sorted ∧ ownId m.1 sorted = .ok myId ∧
          dealerMessage poseidon lib crypto m.1 sorted myId m.2 = .ok (posted m)) ∧
      ((∀ m ∈ parties, crypto.readDealer (crypto.writeDealer (posted m)) = .ok (posted m)) →
        ∀ log1 log2 : List (Envelope Κ), (ofKind .dkg1 log1).Perm (parties.map (announced crypto)) →
          (ofKind .dkg2 log2).Perm (parties.map fun m => ⟨.dkg2, crypto.writeDealer (posted m)⟩) →
          ∃ result : Party → DkgCeremonyResult,
            (∀ m ∈ parties, (memberOf log1 log2 result m).Ended poseidon lib crypto ∧
              (result m).gpk = scalarBaseMul lib (parties.map fun m => m.2.coeffs 0).sum) ∧
            ∀ quorum, quorum ⊆ parties → quorum.Nodup → quorum.length = t → ∃ s,
              interpolateAtZero lib (sharesOf (quorum.map (memberOf log1 log2 result)))
                (quorum.map fun m => (result m).myId) = .ok s ∧
              (s : ZMod subOrder) = ((parties.map fun m => m.2.coeffs 0).sum : ℤ)) := by
  obtain ⟨place, contribution, D⟩ := exists_dealt h poseidon H
  refine ⟨fun m => messageOf crypto parties m (place m) (contribution m), fun m hm log1 hlog1 => ?_,
    fun hwritten log1 log2 hlog1 hlog2 => ?_⟩
  · exact ⟨_, _, collectAnnounces_honest H hm hlog1, (D.placed m hm).ownId H, D.dealerMessage h H hm⟩
  · obtain ⟨result, entries, C⟩ := exists_completed h H D hwritten hlog1 hlog2
    refine ⟨result, fun m hm => ⟨C.ended m hm, C.gpk m hm⟩, fun quorum hquorum hnodup hlength => ?_⟩
    have hids : ((quorum.map (memberOf log1 log2 result)).map fun m => m.result.myId).Nodup := by
      rw [List.map_map]
      exact List.Nodup.map_on (fun a ha b hb hab => C.ids a (hquorum ha) b (hquorum hb) hab) hnodup
    have hmembers : ∀ k ∈ quorum.map (memberOf log1 log2 result), k.Ended poseidon lib crypto ∧
        k.opts.memberCount = parties.length ∧ ¬ Repeats crypto k.log2 := by
      intro k hk
      obtain ⟨m, hm, rfl⟩ := List.mem_map.1 hk
      exact ⟨C.ended m (hquorum hm), (H.options m (hquorum hm)).2.2.1, C.once.1⟩
    have hagreed : ∀ k ∈ quorum.map (memberOf log1 log2 result), k.result.dealerCommitments = entries := by
      intro k hk
      obtain ⟨m, hm, rfl⟩ := List.mem_map.1 hk
      exact C.dealers m (hquorum hm)
    obtain ⟨-, hkey⟩ := quorum_interpolates h H.count hmembers hagreed C.short hids (by rw [List.length_map, hlength])
    obtain ⟨m, hm⟩ := List.exists_mem_of_length_pos (hlength ▸ H.threshold)
    obtain ⟨s, hs, hbase⟩ := hkey _ (List.mem_map_of_mem hm)
    rw [List.map_map] at hs
    refine ⟨s, hs, ?_⟩
    have hsecret : scalarBaseMul lib s = scalarBaseMul lib (parties.map fun m => m.2.coeffs 0).sum :=
      hbase.trans (C.gpk m (hquorum hm))
    rw [scalarBaseMul_eq h, scalarBaseMul_eq h] at hsecret
    exact BabyJubJub.smul_base_injective (Subtype.ext (coords_injective hsecret))

end Everyone

/-! ## A ceremony of two members -/

namespace Sample

/-- A box names the two it is between. -/
abbrev Box := List UInt8 × List UInt8 × List Char × InnerDealerPayload

/-- Libraries for keys that are their own seeds, without the readers of messages. -/
def writers : Crypto (List Char) Box where
  sign message seed := seed ++ message
  verify sig message key := .ok (sig = key ++ message)
  keyPair seed := (seed, seed)
  writeAnnounce a := if a.edPubHex = ['0', '1'] then ['A', 'A', 'A', 'A'] else ['B', 'B', 'B', 'B']
  readAnnounce _ := .error "SyntaxError"
  writeDealer msg := if msg.dealerId = ['1'] then ['C', 'C', 'C', 'C'] else ['D', 'D', 'D', 'D']
  readDealer _ := .error "SyntaxError"
  sealInner _ priv pub sessionId inner := (priv, pub, sessionId, inner)
  openInner priv pub sessionId box :=
    if box.1 = pub ∧ box.2.1 = priv ∧ box.2.2.1 = sessionId then .ok box.2.2.2 else .error "seal: decryption failed"

def session : List Char := List.replicate 64 'a'

/-- The first and the second member. -/
def party (n : UInt8) : Party :=
  (⟨session, 2, 2, [n], [n], 7, 40⟩, ⟨fun k => n.toNat + k, 5, [n, n], fun _ => 0⟩)

def parties : List Party := [party 1, party 2]

/-- The libraries with the readers. -/
def crypto : Crypto (List Char) Box :=
  { writers with
    readAnnounce := fun text => .ok (announce writers (party (if text = ['A', 'A', 'A', 'A'] then 1 else 2)).1)
    readDealer := fun text =>
      let m := party (if text = ['C', 'C', 'C', 'C'] then 1 else 2)
      dealerMessage (fun _ => 0) Library.reference writers m.1 (memberList writers parties)
        (if text = ['C', 'C', 'C', 'C'] then 1 else 2) m.2 }

theorem honest : Honest crypto parties session 2 7 where
  options := by decide
  keys := by decide
  threshold := by decide
  context := by decide
  count := by decide
  verify m hm message := congrArg Except.ok (decide_eq_true (by
    simp only [parties, List.mem_cons, List.not_mem_nil, or_false] at hm
    rcases hm with rfl | rfl <;> rfl))
  announce m hm := by
    simp only [parties, List.mem_cons, List.not_mem_nil, or_false] at hm
    rcases hm with rfl | rfl
    · rfl
    · rfl
  opens a ha b hb random inner := if_pos ⟨rfl, rfl, rfl⟩

/-- An envelope is appended, and reaches a client that waits for it and then waits for the next. -/
def appended (id : ℕ) (kind : EnvelopeKind) (ciphertext : List Char) (waiting : List ℕ) : List Act :=
  [.appendNext id 0 session kind ciphertext 20, .post id, .call id .postReply] ++
    waiting.flatMap fun i => [.poller i .reply, .poller i .send, .poller i .handle]

/-- Both announce themselves and deal; one client waits for the first round, one for both. -/
def acts : List Act :=
  [.collect 0 session, .poller 0 .send, .poller 0 .handle, .collect 1 session, .poller 1 .send, .poller 1 .handle] ++
    appended 0 .dkg1 ['A', 'A', 'A', 'A'] [0, 1] ++ appended 1 .dkg1 ['B', 'B', 'B', 'B'] [0, 1] ++
    [.poller 0 .timeout, .poller 0 .reply, .poller 0 .stop] ++
    appended 2 .dkg2 ['C', 'C', 'C', 'C'] [1] ++ appended 3 .dkg2 ['D', 'D', 'D', 'D'] [1]

def announces : List (Envelope (List Char)) := [⟨.dkg1, ['A', 'A', 'A', 'A']⟩, ⟨.dkg1, ['B', 'B', 'B', 'B']⟩]

def deals : List (Envelope (List Char)) := [⟨.dkg2, ['C', 'C', 'C', 'C']⟩, ⟨.dkg2, ['D', 'D', 'D', 'D']⟩]

/-- What a client has received. -/
def received (σ : State) (i : ℕ) : Option (List Char × List (EnvelopeKind × List Char)) :=
  (σ.pollers i).map fun p => (p.sessionId, p.received.map fun r => (r.kind, r.ciphertext))

theorem saw_of_received {σ : State} {i : ℕ} {log : List (Envelope (List Char))}
    (h : received σ i = some (session, log.map fun e => (e.kind, e.ciphertext))) : Saw σ session log := by
  obtain ⟨p, hp, hlog⟩ := Option.map_eq_some_iff.1 h
  rw [Prod.mk.injEq] at hlog
  refine ⟨i, p, hp, hlog.1, ?_⟩
  have henvelopes := congrArg (List.map fun x => (⟨x.1, x.2⟩ : Envelope (List Char))) hlog.2
  simpa [Function.comp_def] using henvelopes.symm

theorem no_sweep : .sweep ∉ acts := by simp [acts, appended]

theorem run_acts : ∃ σ, Run Relays .init acts σ ∧ Saw σ session announces ∧ Saw σ session (announces ++ deals) := by
  have hcheck : (acts.foldlM State.step .init).map (fun σ => received σ 0) =
      some (some (session, announces.map fun e => (e.kind, e.ciphertext))) := by decide +kernel
  have hcheck' : (acts.foldlM State.step .init).map (fun σ => received σ 1) =
      some (some (session, (announces ++ deals).map fun e => (e.kind, e.ciphertext))) := by decide +kernel
  obtain ⟨σ, hσ, hfirst⟩ := Option.map_eq_some_iff.1 hcheck
  rw [hσ, Option.map_some, Option.some.injEq] at hcheck'
  exact ⟨σ, Run.of_foldlM hσ, saw_of_received hfirst, saw_of_received hcheck'⟩

theorem perm_announces : (ofKind .dkg1 announces).Perm (parties.map (announced crypto)) :=
  List.Perm.of_eq rfl

theorem perm_announces_deals : (ofKind .dkg1 (announces ++ deals)).Perm (parties.map (announced crypto)) :=
  List.Perm.of_eq rfl

theorem dealerId_of_ok {m : Party} {sorted : List Announce} {myId : ℤ} {msg : DealerMessage Box}
    (h : dealerMessage (fun _ => 0) Library.reference crypto m.1 sorted myId m.2 = .ok msg) :
    msg.dealerId = toText 10 myId := by
  obtain ⟨c, -, hmsg⟩ := bind_eq_ok.1 h
  rw [← Except.ok.inj hmsg]

/-- What a member posts is what is read of it. -/
theorem read_posted {posted : Party → DealerMessage Box}
    (h : ∀ m ∈ parties, ∀ log1 : List (Envelope (List Char)),
      (ofKind .dkg1 log1).Perm (parties.map (announced crypto)) → ∃ sorted myId,
        collectAnnounces crypto m.1 log1 = .ok sorted ∧ ownId m.1 sorted = .ok myId ∧
        dealerMessage (fun _ => 0) Library.reference crypto m.1 sorted myId m.2 = .ok (posted m)) :
    crypto.readDealer ['C', 'C', 'C', 'C'] = .ok (posted (party 1)) ∧ (posted (party 1)).dealerId = ['1'] ∧
      crypto.readDealer ['D', 'D', 'D', 'D'] = .ok (posted (party 2)) ∧ (posted (party 2)).dealerId = ['2'] := by
  have hone : party 1 ∈ parties := List.mem_cons_self
  have htwo : party 2 ∈ parties := List.mem_cons_of_mem _ List.mem_cons_self
  obtain ⟨sorted, myId, hsorted, hmyId, hmsg⟩ := h _ hone announces perm_announces
  obtain rfl := Except.ok.inj ((collectAnnounces_honest honest hone perm_announces).symm.trans hsorted)
  obtain ⟨sorted', myId', hsorted', hmyId', hmsg'⟩ := h _ htwo announces perm_announces
  obtain rfl := Except.ok.inj ((collectAnnounces_honest honest htwo perm_announces).symm.trans hsorted')
  have hown : ownId (party 1).1 (memberList crypto parties) = .ok 1 := rfl
  have hown' : ownId (party 2).1 (memberList crypto parties) = .ok 2 := rfl
  obtain rfl := Except.ok.inj (hown.symm.trans hmyId)
  obtain rfl := Except.ok.inj (hown'.symm.trans hmyId')
  refine ⟨hmsg, ?_, hmsg', ?_⟩
  · rw [dealerId_of_ok hmsg]
    decide +kernel
  · rw [dealerId_of_ok hmsg']
    decide +kernel

theorem written_posted (posted : Party → DealerMessage Box)
    (hread : crypto.readDealer ['C', 'C', 'C', 'C'] = .ok (posted (party 1)) ∧ (posted (party 1)).dealerId = ['1'] ∧
      crypto.readDealer ['D', 'D', 'D', 'D'] = .ok (posted (party 2)) ∧ (posted (party 2)).dealerId = ['2']) :
    (∀ m ∈ parties, crypto.readDealer (crypto.writeDealer (posted m)) = .ok (posted m)) ∧
      (ofKind .dkg2 (announces ++ deals)).Perm (parties.map fun m => ⟨.dkg2, crypto.writeDealer (posted m)⟩) := by
  obtain ⟨hread, hid, hread', hid'⟩ := hread
  have hwrite : crypto.writeDealer (posted (party 1)) = ['C', 'C', 'C', 'C'] := if_pos hid
  have hwrite' : crypto.writeDealer (posted (party 2)) = ['D', 'D', 'D', 'D'] := if_neg (by rw [hid']; decide)
  constructor
  · intro m hm
    simp only [parties, List.mem_cons, List.not_mem_nil, or_false] at hm
    rcases hm with rfl | rfl
    · rw [hwrite, hread]
    · rw [hwrite', hread']
  · rw [parties, List.map_cons, List.map_singleton, hwrite, hwrite']
    exact List.Perm.of_eq rfl

/-- Both members' ceremonies end, and their shares interpolate the sum of their secrets. -/
theorem honest_ceremony_sample : ∃ result : Party → DkgCeremonyResult,
    (∀ m ∈ parties, (memberOf announces (announces ++ deals) result m).Ended (fun _ => 0) Library.reference crypto) ∧
      ∃ s, interpolateAtZero Library.reference (sharesOf (parties.map (memberOf announces (announces ++ deals) result)))
        (parties.map fun m => (result m).myId) = .ok s ∧ (s : ZMod subOrder) = (3 : ℤ) := by
  obtain ⟨posted, hposted, hends⟩ := honest_ceremony Library.reference_lawful honest
  obtain ⟨hwritten, hdeals⟩ := written_posted posted (read_posted hposted)
  obtain ⟨result, hended, hquorum⟩ := hends hwritten announces (announces ++ deals) perm_announces hdeals
  obtain ⟨s, hs, hsecret⟩ := hquorum parties (List.Subset.refl _) honest.keys.of_map rfl
  exact ⟨result, fun m hm => (hended m hm).1, s, hs, hsecret⟩

theorem exists_completed_sample : ∃ result entries,
    Completed (fun _ => 0) Library.reference crypto parties 2 announces (announces ++ deals) result entries := by
  obtain ⟨place, contribution, D⟩ := exists_dealt Library.reference_lawful (fun _ => 0) honest
  obtain ⟨hwritten, hdeals⟩ := written_posted (fun m => messageOf crypto parties m (place m) (contribution m))
    (read_posted fun m hm log1 hlog1 => ⟨_, _, collectAnnounces_honest honest hm hlog1, (D.placed m hm).ownId honest,
      D.dealerMessage Library.reference_lawful honest hm⟩)
  exact exists_completed Library.reference_lawful honest D hwritten perm_announces_deals hdeals

/-- Both members agree on everything, and have different identifiers. -/
theorem ceremony_agreement_sample : ∃ (A B : Member (List Char)) (members : List DkgIdentity),
    A.Ended (fun _ => 0) Library.reference crypto ∧ B.Ended (fun _ => 0) Library.reference crypto ∧
      A.members crypto = .ok members ∧ B.members crypto = .ok members ∧ members.length = 2 ∧
      A.result.myId ≠ B.result.myId ∧ Agreed crypto A B := by
  obtain ⟨σ, hrun, hsaw, hsaw'⟩ := run_acts
  obtain ⟨result, entries, C⟩ := exists_completed_sample
  have hone : party 1 ∈ parties := List.mem_cons_self
  have htwo : party 2 ∈ parties := List.mem_cons_of_mem _ List.mem_cons_self
  obtain ⟨members, hA, hB, hlength, -, -, hids, hcases⟩ := ceremony_agreement hrun no_sweep (C.ended _ hone)
    (C.ended _ htwo) rfl rfl ⟨hsaw, hsaw'⟩ ⟨hsaw, hsaw'⟩
  refine ⟨_, _, members, C.ended _ hone, C.ended _ htwo, hA, hB, hlength, fun hsame => ?_, ?_⟩
  · exact absurd (hids.1 hsame) (show ¬ hexDigits [1] = hexDigits [2] by decide)
  · rcases hcases with hagreed | hrepeats | hrepeats | ⟨p, -, hequivocates⟩
    · exact hagreed
    · exact absurd hrepeats C.once.1
    · exact absurd hrepeats C.once.1
    · exact absurd hequivocates (C.once.2 _ hone _ htwo _)

/-- Both members' shares are of the key that both have. -/
theorem ceremony_key_sample : ∃ (quorum : List (Member (List Char))) (gpk : Point) (s : ℤ), quorum.length = 2 ∧
    (∀ m ∈ quorum, m.result.gpk = gpk) ∧
    interpolateAtZero Library.reference (sharesOf quorum) (quorum.map fun m => m.result.myId) = .ok s ∧
    scalarBaseMul Library.reference s = gpk := by
  obtain ⟨σ, hrun, hsaw, hsaw'⟩ := run_acts
  obtain ⟨result, entries, C⟩ := exists_completed_sample
  have hended : ∀ k ∈ parties.map (memberOf announces (announces ++ deals) result),
      k.Ended (fun _ => 0) Library.reference crypto ∧ k.opts.sessionId = session ∧ k.opts.memberCount = 2 ∧
        Saw σ session k.log1 ∧ Saw σ session k.log2 := by
    intro k hk
    obtain ⟨m, hm, rfl⟩ := List.mem_map.1 hk
    exact ⟨C.ended m hm, (honest.options m hm).1, (honest.options m hm).2.2.1, hsaw, hsaw'⟩
  have honce : ∀ k ∈ parties.map (memberOf announces (announces ++ deals) result), ¬ Repeats crypto k.log2 ∧
      ∀ members, k.members crypto = .ok members → ∀ p ∈ members,
        ∀ k' ∈ parties.map (memberOf announces (announces ++ deals) result), ¬ Equivocates crypto k k' p.edPubHex := by
    intro k hk
    obtain ⟨m, hm, rfl⟩ := List.mem_map.1 hk
    refine ⟨C.once.1, fun members _ p _ k' hk' => ?_⟩
    obtain ⟨m', hm', rfl⟩ := List.mem_map.1 hk'
    exact C.once.2 m hm m' hm' _
  have hpoints : ∀ k ∈ parties.map (memberOf announces (announces ++ deals) result),
      ∀ d ∈ k.result.dealerCommitments, ∃ points : List BabyJubJub.subgroup,
        d.2 = coordsOf points ∧ points.length ≤ 2 := by
    intro k hk d hd
    obtain ⟨m, hm, rfl⟩ := List.mem_map.1 hk
    rw [memberOf, C.dealers m hm] at hd
    exact C.short d hd
  obtain ⟨gpk, D, s, hmembers, -, hs, hkey⟩ := ceremony_key Library.reference_lawful hrun no_sweep (by decide)
    Nat.zero_lt_two hended honce hpoints honest.keys rfl
  exact ⟨_, gpk, s, rfl, fun m hm => (hmembers m hm).1, hs, hkey⟩

end Sample

end Kakure.Dkg
