import Kakure.Coordinator.Views
import Kakure.Dkg.Ceremony

/-!
# Agreement of a ceremony

Two members of one session whose ceremonies end, whatever the other members and their dealers post.

* `identities_eq` — both know the same members by the same keys;
* `counted_once` — without two messages of one dealer, every dealer is counted once;
* `commitments_eq` — dealers that sign one content told both the same commitments;
* `agreed`, `myId_eq_iff` — what the two agree on if no dealer broke the protocol, and their identifiers;
* `ceremony_agreement` — the two agree, or the log or two signatures name a dealer who broke the protocol.
-/

namespace Kakure.Dkg

open Coordinator Fallible Hex Keyed Numerals Runs
open Coordinator (EnvelopeKind)
open Proposal (Envelope HexPoint hexToPoint readBigInt)
open Tss (Library Point DealerContribution verifyContribution aggregate addCommitment)

/-! ## Rounds that are parts of one another -/

/-- What is read of the first part of a list is the first part of what is read. -/
theorem mapM_isPrefix {α β ε : Type} {f : α → Except ε β} {xs xs' : List α} {ys ys' : List β} (h : xs <+: xs')
    (hys : xs.mapM f = .ok ys) (hys' : xs'.mapM f = .ok ys') : ys <+: ys' := by
  obtain ⟨rest, rfl⟩ := h
  rw [List.mapM_append, hys, bind_eq_ok] at hys'
  obtain ⟨zs, hzs, hys'⟩ := hys'
  cases hzs
  rw [bind_eq_ok] at hys'
  obtain ⟨ws, -, hys'⟩ := hys'
  obtain rfl := Except.ok.inj hys'
  exact List.prefix_append ys ws

variable {Κ Β : Type} {poseidon : List Fr → Fr} {lib : Library} {crypto : Crypto Κ Β} {opts opts' : DkgCeremonyOptions}

theorem ofKind_isPrefix {log log' : List (Envelope Κ)} (kind : EnvelopeKind) (h : log <+: log') :
    ofKind kind log <+: ofKind kind log' := h.filter _

/-! ## Members -/

/-- The identities of the members, in order. -/
def identities (sorted : List Announce) : List DkgIdentity := sorted.map Announce.toDkgIdentity

theorem nodup_identities {sorted : List Announce} (h : (sorted.map fun a => a.edPubHex).Nodup) :
    (identities sorted).Nodup := by
  refine List.Nodup.of_map (fun p : DkgIdentity => p.edPubHex) ?_
  rwa [identities, List.map_map]

/-- Both know the same members by the same keys. -/
theorem identities_eq {log log' : List (Envelope Κ)} {sorted sorted' : List Announce}
    (hlogs : log <+: log' ∨ log' <+: log) (hcount : opts'.memberCount = opts.memberCount)
    (h : collectAnnounces crypto opts log = .ok sorted) (h' : collectAnnounces crypto opts' log' = .ok sorted') :
    identities sorted = identities sorted' := by
  wlog hprefix : log <+: log' generalizing log log' sorted sorted' opts opts'
  · exact (this hlogs.symm hcount.symm h' h (hlogs.resolve_left hprefix)).symm
  obtain ⟨announces, hread, -, hlength, hnodup, hsorted, hmem⟩ := collectAnnounces_ok h
  obtain ⟨announces', hread', -, hlength', hnodup', hsorted', hmem'⟩ := collectAnnounces_ok h'
  have hpart := mapM_isPrefix (ofKind_isPrefix .dkg1 hprefix) hread hread'
  -- the members of one round are among those of the other, and as many
  have hsub : identities sorted ⊆ identities sorted' := by
    intro p hp
    exact (hmem' p).2 ((hpart.map _).subset ((hmem p).1 hp))
  have hperm : (identities sorted).Perm (identities sorted') := by
    refine ((nodup_identities hnodup).subperm hsub).perm_of_length_le ?_
    rw [identities, identities, List.length_map, List.length_map, hlength, hlength', hcount]
  have hordered : (identities sorted).Pairwise fun p q => codeUnits p.edPubHex ≤ codeUnits q.edPubHex :=
    List.pairwise_map.2 hsorted
  have hordered' : (identities sorted').Pairwise fun p q => codeUnits p.edPubHex ≤ codeUnits q.edPubHex :=
    List.pairwise_map.2 hsorted'
  refine hperm.eq_of_pairwise ?_ hordered hordered'
  intro p q hp hq hpq hqp
  have hkeys : p.edPubHex = q.edPubHex := codeUnits_injective (le_antisymm hpq hqp)
  have hinj := List.inj_on_of_nodup_map (f := fun p : DkgIdentity => p.edPubHex) (l := identities sorted')
    (by rwa [identities, List.map_map])
  exact hinj (hsub hp) hq hkeys

theorem idByEdPub_eq (sorted : List Announce) (key : List Char) : idByEdPub sorted key =
    ((identities sorted).findIdx? fun p => p.edPubHex = key).map fun i : ℕ => (i : ℤ) + 1 := by
  rw [idByEdPub, identities, List.findIdx?_map]
  rfl

theorem edPubById_eq (sorted : List Announce) (id : ℤ) : edPubById sorted id =
    if id < 1 then none else ((identities sorted)[(id - 1).toNat]?).map fun p => p.edPubHex := by
  rw [edPubById, identities, List.getElem?_map, Option.map_map]
  rfl

theorem participantIds_eq (sorted : List Announce) :
    participantIds sorted = (List.range (identities sorted).length).map fun i : ℕ => (i : ℤ) + 1 := by
  rw [participantIds, identities, List.length_map]

theorem mem_participantIds {sorted : List Announce} {id : ℤ} {key : List Char} (h : edPubById sorted id = some key) :
    id ∈ participantIds sorted := by
  obtain ⟨i, a, rfl, ha, -⟩ := edPubById_eq_some h
  exact List.mem_map.2 ⟨i, List.mem_range.2 (List.getElem?_eq_some_iff.1 ha).1, rfl⟩

theorem nodup_participantIds (sorted : List Announce) : (participantIds sorted).Nodup := by
  refine List.nodup_range.map fun i j hij => ?_
  simpa using hij

/-- The identifier of a member is the place of its identity. -/
theorem idByEdPub_eq_some {sorted : List Announce} {key : List Char} {id : ℤ} (h : idByEdPub sorted key = some id) :
    edPubById sorted id = some key := by
  obtain ⟨i, hi, rfl⟩ := Option.map_eq_some_iff.1 h
  obtain ⟨hlt, hkey, -⟩ := List.findIdx?_eq_some_iff_getElem.1 hi
  rw [edPubById, if_neg (by omega), show ((i : ℤ) + 1 - 1).toNat = i by omega, List.getElem?_eq_getElem hlt]
  simpa using hkey

/-- A member of a ceremony, with the logs it was answered and its result. -/
structure Member (Κ : Type) where
  opts : DkgCeremonyOptions
  random : Random
  log1 : List (Envelope Κ)
  log2 : List (Envelope Κ)
  result : DkgCeremonyResult

/-- The ceremony of the member ended with its result. -/
def Member.Ended (poseidon : List Fr → Fr) (lib : Library) (crypto : Crypto Κ Β) (m : Member Κ) : Prop :=
  runDkgCeremony poseidon lib crypto m.opts m.random m.log1 m.log2 = .ok m.result

/-- The members that a member knows of. -/
def Member.members (crypto : Crypto Κ Β) (m : Member Κ) : Except String (List DkgIdentity) :=
  (collectAnnounces crypto m.opts m.log1).map identities

/-! ## Dealers -/

/-- The dealer that an envelope claims to come from. -/
def claimedDealer (crypto : Crypto Κ Β) (e : Envelope Κ) : Except String ℤ := do
  let msg ← crypto.readDealer e.ciphertext
  readBigInt msg.dealerId

/-- Two messages of a second round claim the same dealer. -/
def Repeats (crypto : Crypto Κ Β) (log : List (Envelope Κ)) : Prop :=
  ¬ ((ofKind .dkg2 log).map (claimedDealer crypto)).Nodup

/-- What a member finds in its box of a message. -/
def Opens (crypto : Crypto Κ Β) (m : Member Κ) (msg : DealerMessage Β) (inner : InnerDealerPayload) : Prop :=
  ∃ box, msg.boxes (toText 10 m.result.myId) = some box ∧ crypto.openInner (crypto.keyPair m.opts.ed25519Seed).1
    (fromHex msg.senderX25519PubHex) m.opts.sessionId box = .ok inner

/-- A message that two members have been sent commits to different polynomials in their boxes, and both are signed by
one key. -/
def Equivocates (crypto : Crypto Κ Β) (A B : Member Κ) (key : List Char) : Prop :=
  ∃ e ∈ ofKind .dkg2 A.log2, ∃ msg inner inner', crypto.readDealer e.ciphertext = .ok msg ∧ Opens crypto A msg inner ∧
    Opens crypto B msg inner' ∧ inner.commitments ≠ inner'.commitments ∧
    signedBy crypto inner.sig (dealerSignBytes A.opts.sessionId msg.dealerId inner.commitments inner.pop) key = true ∧
    signedBy crypto inner'.sig (dealerSignBytes A.opts.sessionId msg.dealerId inner'.commitments inner'.pop) key = true

variable {A B : Member Κ}

/-- A key does not equivocate if all that members have of it is signatures of its announce and of one dealer's
message. -/
theorem not_equivocates {key : List Char} (h : ∃ x25519Pub dealerId commitments pop, ∀ m, m = A ∨ m = B →
      ∀ msg inner, Opens crypto m msg inner →
        ∀ message, signedBy crypto inner.sig message key = true →
          message = announceSignBytes A.opts.sessionId x25519Pub ∨
            message = dealerSignBytes A.opts.sessionId dealerId commitments pop) :
    ¬ Equivocates crypto A B key := by
  obtain ⟨x25519Pub, dealerId, commitments, pop, honly⟩ := h
  rintro ⟨e, -, msg, inner, inner', -, hopens, hopens', hne, hsigned, hsigned'⟩
  have hfirst := (honly A (Or.inl rfl) msg inner hopens _ hsigned).resolve_left (announceSignBytes_ne _ _ _ _ _ _).symm
  have hsecond := (honly B (Or.inr rfl) msg inner' hopens' _ hsigned').resolve_left
    (announceSignBytes_ne _ _ _ _ _ _).symm
  exact hne ((dealerSignBytes_injective hfirst).2.2.1.trans (dealerSignBytes_injective hsecond).2.2.1.symm)

/-- The dealers of a second round are those it counts. -/
theorem claimedDealer_eq {sorted : List Announce} {myId : ℤ} {log : List (Envelope Κ)}
    {accepted : List (DealerContribution × List UInt8)}
    (h : collectDealers poseidon lib crypto opts sorted myId log = .ok accepted) :
    (ofKind .dkg2 log).map (claimedDealer crypto) = accepted.map fun x => .ok x.1.id := by
  obtain ⟨msgs, hread, -, haccepted⟩ := collectDealers_ok h
  replace hread := forall_of_mapM hread
  generalize ofKind .dkg2 log = es at hread
  clear h
  induction hread generalizing accepted with
  | nil =>
    cases haccepted
    rfl
  | cons hmsg _ ih =>
    cases haccepted with
    | cons hx hrest =>
      obtain ⟨inner, hinner, -⟩ := acceptDealer_ok hx
      rw [List.map_cons, List.map_cons, claimedDealer, bind_of_ok hmsg, hinner.id, ih hrest]

/-- Without two messages of one dealer, every dealer is counted once. -/
theorem counted_once {sorted : List Announce} {myId : ℤ} {log : List (Envelope Κ)}
    {accepted : List (DealerContribution × List UInt8)} (hcount : sorted.length = opts.memberCount)
    (h : collectDealers poseidon lib crypto opts sorted myId log = .ok accepted) (hrepeats : ¬ Repeats crypto log) :
    (accepted.map fun x => x.1.id).Perm (participantIds sorted) := by
  have hnodup : (accepted.map fun x => x.1.id).Nodup := by
    rw [Repeats, not_not, claimedDealer_eq h] at hrepeats
    refine List.Nodup.of_map (fun id : ℤ => (.ok id : Except String ℤ)) ?_
    rwa [List.map_map]
  obtain ⟨msgs, -, hready, haccepted⟩ := collectDealers_ok h
  have hsub : (accepted.map fun x => x.1.id) ⊆ participantIds sorted := by
    intro id hid
    obtain ⟨x, hx, rfl⟩ := List.mem_map.1 hid
    obtain ⟨msg, -, hmsg⟩ := exists_mem_of_forall₂ haccepted hx
    obtain ⟨inner, hinner, -⟩ := acceptDealer_ok hmsg
    obtain ⟨key, hkey, -⟩ := hinner.signed
    exact mem_participantIds hkey
  refine (hnodup.subperm hsub).perm_of_length_le ?_
  rw [participantIds, List.length_map, List.length_map, List.length_range, hcount, ← haccepted.length_eq]
  exact hready

/-- The second rounds of two members are the same, if no dealer has two messages. -/
theorem dealers_eq {sorted sorted' : List Announce} {myId myId' : ℤ} {log log' : List (Envelope Κ)}
    {accepted accepted' : List (DealerContribution × List UInt8)} (hlogs : log <+: log' ∨ log' <+: log)
    (hcount : sorted.length = opts.memberCount) (hcount' : sorted'.length = opts'.memberCount)
    (hsame : opts'.memberCount = opts.memberCount)
    (h : collectDealers poseidon lib crypto opts sorted myId log = .ok accepted) (hrepeats : ¬ Repeats crypto log)
    (h' : collectDealers poseidon lib crypto opts' sorted' myId' log' = .ok accepted')
    (hrepeats' : ¬ Repeats crypto log') :
    ofKind .dkg2 log = ofKind .dkg2 log' := by
  have hlength : ∀ {opts : DkgCeremonyOptions} {sorted : List Announce} {myId : ℤ} {log : List (Envelope Κ)}
      {accepted : List (DealerContribution × List UInt8)}, sorted.length = opts.memberCount →
      collectDealers poseidon lib crypto opts sorted myId log = .ok accepted → ¬ Repeats crypto log →
      (ofKind .dkg2 log).length = opts.memberCount := by
    intro opts sorted myId log accepted hcount h hrepeats
    have hclaimed := congrArg List.length (claimedDealer_eq h)
    have hperm := (counted_once hcount h hrepeats).length_eq
    rw [List.length_map, List.length_map] at hclaimed
    rw [List.length_map, participantIds, List.length_map, List.length_range, hcount] at hperm
    rw [hclaimed, hperm]
  have heq : (ofKind .dkg2 log).length = (ofKind .dkg2 log').length := by
    rw [hlength hcount h hrepeats, hlength hcount' h' hrepeats', hsame]
  rcases hlogs with hpart | hpart
  · exact (ofKind_isPrefix .dkg2 hpart).eq_of_length heq
  · exact ((ofKind_isPrefix .dkg2 hpart).eq_of_length heq.symm).symm

/-- A dealer that signs one content told both members the same commitments. -/
theorem commitments_eq {sorted sorted' : List Announce} {e : Envelope Κ} {msg : DealerMessage Β}
    {x x' : DealerContribution × List UInt8} (hsession : B.opts.sessionId = A.opts.sessionId)
    (hidentities : identities sorted = identities sorted')
    (honce : ∀ p ∈ identities sorted, ¬ Equivocates crypto A B p.edPubHex) (he : e ∈ ofKind .dkg2 A.log2)
    (hread : crypto.readDealer e.ciphertext = .ok msg)
    (h : acceptDealer poseidon lib crypto A.opts sorted A.result.myId msg = .ok x)
    (h' : acceptDealer poseidon lib crypto B.opts sorted' B.result.myId msg = .ok x') :
    x.1.id = x'.1.id ∧ x.1.commitments = x'.1.commitments := by
  obtain ⟨inner, hinner, -⟩ := acceptDealer_ok h
  obtain ⟨inner', hinner', -⟩ := acceptDealer_ok h'
  have hid : x.1.id = x'.1.id := Except.ok.inj (hinner.id.symm.trans hinner'.id)
  obtain ⟨key, hkey, hsigned⟩ := hinner.signed
  obtain ⟨key', hkey', hsigned'⟩ := hinner'.signed
  -- both have verified the signature of the same identity
  obtain rfl : key = key' := by
    rw [edPubById_eq, hidentities, hid, ← edPubById_eq, hkey', Option.some.injEq] at hkey
    exact hkey.symm
  obtain ⟨i, a, -, ha, rfl⟩ := edPubById_eq_some hkey
  have hmember : a.toDkgIdentity ∈ identities sorted := List.mem_map_of_mem (List.mem_of_getElem? ha)
  have hcontents : inner.commitments = inner'.commitments := by
    by_contra hne
    rw [hsession] at hsigned'
    exact honce _ hmember ⟨e, he, msg, inner, inner', hread, hinner.opened, hinner'.opened, hne, hsigned, hsigned'⟩
  refine ⟨hid, ?_⟩
  have hcommitments := hinner.commitments
  rw [hcontents, hinner'.commitments] at hcommitments
  exact (Except.ok.inj hcommitments).symm

/-- What two members accept of the same messages has the same commitments. -/
theorem entries_eq {sorted sorted' : List Announce} {msgs : List (DealerMessage Β)}
    {accepted accepted' : List (DealerContribution × List UInt8)} (hsession : B.opts.sessionId = A.opts.sessionId)
    (hidentities : identities sorted = identities sorted')
    (honce : ∀ p ∈ identities sorted, ¬ Equivocates crypto A B p.edPubHex)
    (hsource : ∀ msg ∈ msgs, ∃ e ∈ ofKind .dkg2 A.log2, crypto.readDealer e.ciphertext = .ok msg)
    (h : List.Forall₂ (fun msg x => acceptDealer poseidon lib crypto A.opts sorted A.result.myId msg = .ok x) msgs
      accepted)
    (h' : List.Forall₂ (fun msg x => acceptDealer poseidon lib crypto B.opts sorted' B.result.myId msg = .ok x) msgs
      accepted') :
    (accepted.map fun x => (x.1.id, x.1.commitments)) = accepted'.map fun x => (x.1.id, x.1.commitments) := by
  induction h generalizing accepted' with
  | nil =>
    cases h'
    rfl
  | cons hx _ ih =>
    cases h' with
    | cons hx' hrest =>
      obtain ⟨e, he, hmsg⟩ := hsource _ List.mem_cons_self
      obtain ⟨hid, hcommitments⟩ := commitments_eq hsession hidentities honce he hmsg hx hx'
      rw [List.map_cons, List.map_cons, hid, hcommitments]
      rw [ih (fun msg hmsg => hsource msg (List.mem_cons_of_mem _ hmsg)) hrest]

/-! ## Two members -/

theorem foldlM_addCommitment_congr {cs ds : List DealerContribution}
    (h : cs.map DealerContribution.commitments = ds.map DealerContribution.commitments) (acc : Point) :
    cs.foldlM (addCommitment lib) acc = ds.foldlM (addCommitment lib) acc := by
  induction cs generalizing ds acc with
  | nil =>
    rw [List.map_nil, eq_comm, List.map_eq_nil_iff] at h
    rw [h]
  | cons c cs ih =>
    cases ds with
    | nil => cases h
    | cons d ds =>
      rw [List.map_cons, List.map_cons, List.cons.injEq] at h
      rw [List.foldlM_cons, List.foldlM_cons, addCommitment, addCommitment, h.1]
      exact bind_congr fun C => ih h.2 C

/-- The key depends on the commitments only. -/
theorem aggregate_congr {ids ids' : List ℤ} {cs ds : List DealerContribution} {r r' : Tss.DkgResult}
    (hcommitments : cs.map DealerContribution.commitments = ds.map DealerContribution.commitments)
    (h : aggregate lib ids cs = .ok r) (h' : aggregate lib ids' ds = .ok r') : r.C = r'.C := by
  obtain ⟨C, hC, h⟩ := bind_eq_ok.1 h
  obtain ⟨C', hC', h'⟩ := bind_eq_ok.1 h'
  obtain ⟨shares, -, h⟩ := bind_eq_ok.1 h
  obtain ⟨shares', -, h'⟩ := bind_eq_ok.1 h'
  rw [foldlM_addCommitment_congr hcommitments, hC', Except.ok.injEq] at hC
  rw [← Except.ok.inj h, ← Except.ok.inj h', hC]

/-- A map of entries with different keys has all of them. -/
theorem mapOf_of_nodup {β : Type} {entries : List (ℤ × β)} (h : (entries.map Prod.fst).Nodup) :
    mapOf entries = entries := by
  have hfold : ∀ acc, ((acc ++ entries).map Prod.fst).Nodup → entries.foldl (put Prod.fst) acc = acc ++ entries := by
    clear h
    induction entries with
    | nil => simp
    | cons e entries ih =>
      intro acc hnodup
      have hnew : e.1 ∉ acc.map Prod.fst := by
        rw [List.map_append, List.nodup_append] at hnodup
        intro hmem
        exact hnodup.2.2 _ hmem _ List.mem_cons_self rfl
      rw [List.foldl_cons, put, if_neg hnew, ih (acc ++ [e]) (by simpa using hnodup)]
      simp
  exact hfold [] h

/-- What the two agree on, if no dealer has broken the protocol. -/
structure Agreed (crypto : Crypto Κ Β) (A B : Member Κ) : Prop where
  gpk : A.result.gpk = B.result.gpk
  dealerCommitments : A.result.dealerCommitments = B.result.dealerCommitments
  counted : ofKind .dkg2 A.log2 = ofKind .dkg2 B.log2 ∧
    ((ofKind .dkg2 A.log2).map (claimedDealer crypto)).Perm (A.result.participantIds.map .ok)

/-- Without two messages or two signed contents of one dealer, the results agree. -/
theorem agreed_of_once {sorted sorted' : List Announce} {accepted accepted' : List (DealerContribution × List UInt8)}
    {result result' : Tss.DkgResult} (hsession : B.opts.sessionId = A.opts.sessionId)
    (hcount : B.opts.memberCount = A.opts.memberCount) (hlogs : A.log2 <+: B.log2 ∨ B.log2 <+: A.log2)
    (hlength : sorted.length = A.opts.memberCount) (hidentities : identities sorted = identities sorted')
    (hA : collectDealers poseidon lib crypto A.opts sorted A.result.myId A.log2 = .ok accepted)
    (hB : collectDealers poseidon lib crypto B.opts sorted' B.result.myId B.log2 = .ok accepted')
    (hgpk : aggregate lib [A.result.myId] (accepted.map Prod.fst) = .ok result)
    (hgpk' : aggregate lib [B.result.myId] (accepted'.map Prod.fst) = .ok result')
    (hrepeats : ¬ Repeats crypto A.log2) (hrepeats' : ¬ Repeats crypto B.log2)
    (honce : ∀ p ∈ identities sorted, ¬ Equivocates crypto A B p.edPubHex) :
    result.C = result'.C ∧
      (accepted.map fun x => (x.1.id, x.1.commitments)) = (accepted'.map fun x => (x.1.id, x.1.commitments)) ∧
      ofKind .dkg2 A.log2 = ofKind .dkg2 B.log2 := by
  have hlength' : sorted'.length = B.opts.memberCount := by
    have := congrArg List.length hidentities
    rw [identities, identities, List.length_map, List.length_map] at this
    rw [← this, hlength, hcount]
  have hrounds := dealers_eq hlogs hlength hlength' hcount hA hrepeats hB hrepeats'
  obtain ⟨msgs, hread, -, haccepted⟩ := collectDealers_ok hA
  obtain ⟨msgs', hread', -, haccepted'⟩ := collectDealers_ok hB
  have hsource : ∀ msg ∈ msgs, ∃ e ∈ ofKind .dkg2 A.log2, crypto.readDealer e.ciphertext = .ok msg :=
    fun msg hmsg => exists_mem_of_forall₂ (forall_of_mapM hread) hmsg
  rw [hrounds, hread', Except.ok.injEq] at hread
  subst hread
  have hentries := entries_eq hsession hidentities honce hsource haccepted haccepted'
  refine ⟨aggregate_congr ?_ hgpk hgpk', hentries, hrounds⟩
  have hcommitments := congrArg (List.map Prod.snd) hentries
  simpa [Function.comp_def] using hcommitments

/-- Two members whose logs are parts of one another, of one session in which no dealer broke the protocol, agree. -/
theorem agreed (hA : A.Ended poseidon lib crypto) (hB : B.Ended poseidon lib crypto)
    (hsession : B.opts.sessionId = A.opts.sessionId) (hcount : B.opts.memberCount = A.opts.memberCount)
    (hlog1 : A.log1 <+: B.log1 ∨ B.log1 <+: A.log1) (hlog2 : A.log2 <+: B.log2 ∨ B.log2 <+: A.log2)
    (hrepeats : ¬ Repeats crypto A.log2) (hrepeats' : ¬ Repeats crypto B.log2)
    (honce : ∀ members, A.members crypto = .ok members → ∀ p ∈ members, ¬ Equivocates crypto A B p.edPubHex) :
    Agreed crypto A B := by
  obtain ⟨sorted, accepted, result, hsorted, -, haccepted, hresult, hids, hgpk, -, hcommitments, -⟩ :=
    runDkgCeremony_ok hA
  obtain ⟨sorted', accepted', result', hsorted', -, haccepted', hresult', -, hgpk', -, hcommitments', -⟩ :=
    runDkgCeremony_ok hB
  obtain ⟨-, -, -, hlength, -, -, -⟩ := collectAnnounces_ok hsorted
  have hmembers : A.members crypto = .ok (identities sorted) := by rw [Member.members, hsorted]; rfl
  obtain ⟨hC, hentries, hrounds⟩ := agreed_of_once hsession hcount hlog2 hlength
    (identities_eq hlog1 hcount hsorted hsorted') haccepted haccepted' hresult hresult' hrepeats hrepeats'
    (honce _ hmembers)
  refine ⟨by rw [hgpk, hgpk', hC], by rw [hcommitments, hcommitments', hentries], hrounds, ?_⟩
  rw [claimedDealer_eq haccepted, hids]
  have hperm := (counted_once hlength haccepted hrepeats).map (Except.ok : ℤ → Except String ℤ)
  rwa [List.map_map] at hperm

/-- Members of one session have one identifier exactly if they have one key. -/
theorem myId_eq_iff (hA : A.Ended poseidon lib crypto) (hB : B.Ended poseidon lib crypto)
    (hcount : B.opts.memberCount = A.opts.memberCount) (hlog1 : A.log1 <+: B.log1 ∨ B.log1 <+: A.log1) :
    A.result.myId = B.result.myId ↔ hexDigits A.opts.ed25519PublicKey = hexDigits B.opts.ed25519PublicKey := by
  obtain ⟨sorted, -, -, hsorted, hmyId, -⟩ := runDkgCeremony_ok hA
  obtain ⟨sorted', -, -, hsorted', hmyId', -⟩ := runDkgCeremony_ok hB
  have hmembers := identities_eq hlog1 hcount hsorted hsorted'
  constructor
  · intro hsame
    have hkey := idByEdPub_eq_some hmyId
    rw [edPubById_eq, hmembers, hsame, ← edPubById_eq, idByEdPub_eq_some hmyId', Option.some.injEq] at hkey
    exact hkey.symm
  · intro hsame
    rw [idByEdPub_eq, hmembers, hsame, ← idByEdPub_eq, hmyId', Option.some.injEq] at hmyId
    exact hmyId.symm

/-- Whatever is posted to a session while nothing is swept, two members whose ceremonies end know the same members by
the same keys, and have different identifiers unless they are one; and they agree on the group key and on every
dealer's commitments, each counted once, unless a dealer has two messages in what they were answered or has signed
two contents. -/
theorem ceremony_agreement {acts : List Act} {σ : State} (hrun : Run Relays .init acts σ) (hsweep : .sweep ∉ acts)
    {crypto : Crypto (List Char) Β} {A B : Member (List Char)} (hA : A.Ended poseidon lib crypto)
    (hB : B.Ended poseidon lib crypto) (hsession : B.opts.sessionId = A.opts.sessionId)
    (hcount : B.opts.memberCount = A.opts.memberCount)
    (hsawA : Saw σ A.opts.sessionId A.log1 ∧ Saw σ A.opts.sessionId A.log2)
    (hsawB : Saw σ B.opts.sessionId B.log1 ∧ Saw σ B.opts.sessionId B.log2) :
    ∃ members : List DkgIdentity, A.members crypto = .ok members ∧ B.members crypto = .ok members ∧
      members.length = A.opts.memberCount ∧ (members.map fun p => p.edPubHex).Nodup ∧
      A.result.participantIds = B.result.participantIds ∧
      (A.result.myId = B.result.myId ↔ hexDigits A.opts.ed25519PublicKey = hexDigits B.opts.ed25519PublicKey) ∧
      (Agreed crypto A B ∨ Repeats crypto A.log2 ∨ Repeats crypto B.log2 ∨
        ∃ p ∈ members, Equivocates crypto A B p.edPubHex) := by
  rw [hsession] at hsawB
  have hlog1 := hsawA.1.comparable hrun hsweep hsawB.1
  obtain ⟨sorted, -, -, hsorted, -, -, -, hids, -⟩ := runDkgCeremony_ok hA
  obtain ⟨sorted', -, -, hsorted', -, -, -, hids', -⟩ := runDkgCeremony_ok hB
  have hidentities := identities_eq hlog1 hcount hsorted hsorted'
  obtain ⟨-, -, -, hlength, hnodup, -, -⟩ := collectAnnounces_ok hsorted
  have hmembers : A.members crypto = .ok (identities sorted) := by rw [Member.members, hsorted]; rfl
  have hmembers' : B.members crypto = .ok (identities sorted) := by rw [Member.members, hsorted', hidentities]; rfl
  refine ⟨identities sorted, hmembers, hmembers', ?_, ?_, ?_, myId_eq_iff hA hB hcount hlog1, ?_⟩
  · rw [identities, List.length_map, hlength]
  · rwa [identities, List.map_map]
  · rw [hids, hids', participantIds_eq, participantIds_eq, hidentities]
  · by_contra hnone
    simp only [not_or, not_exists, not_and] at hnone
    obtain ⟨hdisagreed, hrepeats, hrepeats', honce⟩ := hnone
    have hlog2 := hsawA.2.comparable hrun hsweep hsawB.2
    refine hdisagreed (agreed hA hB hsession hcount hlog1 hlog2 hrepeats hrepeats' ?_)
    intro members hok
    rw [hmembers, Except.ok.injEq] at hok
    exact hok ▸ honce

end Kakure.Dkg
