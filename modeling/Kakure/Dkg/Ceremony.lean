import Kakure.Lib.Codes
import Kakure.Proposal.Session
import Kakure.Tss.Dkg

/-!
# The key ceremony

`packages/cli/src/dkg/ceremony.ts`: members announce themselves on a session's log, then every member deals to every
other in sealed boxes.  What a client polls is the log at that moment.  The signatures, the boxes and the JSON of the
messages are a parameter, random numbers are arguments.

* `dealerSignBytes_injective`, `announceSignBytes_ne` — what a signature is on;
* `codeUnits_injective` — the texts that identities are sorted by are told apart;
* `collectAnnounces_ok` — what is known of a first round that is accepted;
* `acceptDealer_ok` — what is known of a dealer's message that is accepted.
-/

namespace Kakure.Dkg

open Codes Fallible Hex Keyed Numerals
open Coordinator (EnvelopeKind)
open Proposal (Envelope HexPoint hexToPoint pointToHexObj readBigInt)
open Tss (Library Point DealerContribution SchnorrPoP dealerContribute verifyContribution aggregate)

/-! ## Messages -/

/-- `DkgIdentity`. -/
structure DkgIdentity where
  edPubHex : List Char
  x25519PubHex : List Char
  deriving DecidableEq

/-- `Announce`. -/
structure Announce extends DkgIdentity where
  sig : List Char
  deriving DecidableEq

/-- `DealerMessage`: the boxes by the recipient's identifier. -/
structure DealerMessage (Β : Type) where
  dealerId : List Char
  senderX25519PubHex : List Char
  boxes : List Char → Option Β

/-- The proof of possession of a payload. -/
structure HexPop where
  r : HexPoint
  z : List Char
  deriving DecidableEq

/-- `InnerDealerPayload`. -/
structure InnerDealerPayload where
  commitments : List HexPoint
  pop : HexPop
  share : List Char
  r : List Char
  sig : List Char
  deriving DecidableEq

/-- What the ceremony takes from its libraries: signatures on bytes, key pairs for boxes, and the messages in their
envelopes and boxes. -/
structure Crypto (Κ Β : Type) where
  sign : List UInt8 → List UInt8 → List UInt8
  verify : List UInt8 → List UInt8 → List UInt8 → Except String Bool
  keyPair : List UInt8 → List UInt8 × List UInt8
  writeAnnounce : Announce → Κ
  readAnnounce : Κ → Except String Announce
  writeDealer : DealerMessage Β → Κ
  readDealer : Κ → Except String (DealerMessage Β)
  sealInner : ℕ → List UInt8 → List UInt8 → List Char → InnerDealerPayload → Β
  openInner : List UInt8 → List UInt8 → List Char → Β → Except String InnerDealerPayload

/-! ## Texts -/

/-- `fromHex`: the bytes of the pairs of digits, up to the first that is none. -/
def fromHex : List Char → List UInt8
  | a :: b :: rest =>
    match digitValue a, digitValue b with
    | some x, some y => UInt8.ofNat (16 * x + y) :: fromHex rest
    | _, _ => []
  | _ => []

/-- `ANNOUNCE_DOMAIN`. -/
def announceDomain : String := "kakure.dkg1.v1"

/-- `DEALER_DOMAIN`. -/
def dealerDomain : String := "kakure.dkg2.v1"

/-- `announceSignBytes`. -/
def announceSignBytes (sessionId : List Char) (x25519Pub : List UInt8) : List UInt8 :=
  textBytes (announceDomain.toList ++ '|' :: sessionId ++ ['|']) ++ x25519Pub

/-- A point in JSON. -/
def jsonPoint (p : HexPoint) : List Char := jsonObject [jsonField "x" (jsonText p.x), jsonField "y" (jsonText p.y)]

/-- `dealerSignBytes`. -/
def dealerSignBytes (sessionId dealerId : List Char) (commitments : List HexPoint) (pop : HexPop) : List UInt8 :=
  textBytes (dealerDomain.toList ++ '|' :: jsonObject [jsonField "sessionId" (jsonText sessionId),
    jsonField "dealerId" (jsonText dealerId),
    jsonField "commitments" (jsonArray (commitments.map jsonPoint)),
    jsonField "pop" (jsonObject [jsonField "r" (jsonPoint pop.r), jsonField "z" (jsonText pop.z)])])

/-- The code units of a text, which JavaScript compares. -/
def codeUnits (text : List Char) : List ℕ :=
  text.flatMap fun c =>
    if c.toNat < 0x10000 then [c.toNat]
    else [0xd800 + (c.toNat - 0x10000) / 0x400, 0xdc00 + (c.toNat - 0x10000) % 0x400]

/-- A value that has to be there. -/
def orThrow {α : Type} (x : Option α) (message : String) : Except String α := x.elim (.error message) .ok

/-! ## The ceremony -/

/-- `DkgCeremonyOptions`. -/
structure DkgCeremonyOptions where
  sessionId : List Char
  threshold : ℕ
  memberCount : ℕ
  ed25519Seed : List UInt8
  ed25519PublicKey : List UInt8
  context : ℤ
  maxRounds : ℕ

/-- `DkgCeremonyResult`. -/
structure DkgCeremonyResult where
  sessionId : List Char
  myId : ℤ
  threshold : ℕ
  memberCount : ℕ
  participantIds : List ℤ
  gpk : Point
  mySecretShare : ℤ
  dealerCommitments : List (ℤ × List Point)
  viewContributions : List (ℤ × List UInt8)

/-- The random numbers of a member: the coefficients of its polynomial, one for its proof, its view contribution, and
one for each box. -/
structure Random where
  coeffs : ℕ → ℤ
  k : ℤ
  r : List UInt8
  boxes : ℕ → ℕ

section Program

variable {Κ Β : Type} (poseidon : List Fr → Fr) (lib : Library) (crypto : Crypto Κ Β) (opts : DkgCeremonyOptions)

/-- `collectUntil`, answered with the given log in its last round. -/
def collectUntil (log : List (Envelope Κ)) (ready : Bool) : Except String (List (Envelope Κ)) :=
  if ready then .ok log
  else .error ("CoordinatorClient.collectUntil: predicate never satisfied after " ++ toString opts.maxRounds ++
    " long-poll rounds on session " ++ String.ofList opts.sessionId)

/-- The envelopes of a round. -/
def ofKind (kind : EnvelopeKind) (log : List (Envelope Κ)) : List (Envelope Κ) := log.filter fun e => e.kind = kind

/-- A signature that `verify` accepts; an exception counts as a refusal. -/
def signedBy (sig : List Char) (message : List UInt8) (key : List Char) : Bool :=
  match crypto.verify (fromHex sig) message (fromHex key) with
  | .ok ok => ok
  | .error _ => false

/-- The announce of a member. -/
def announce : Announce where
  edPubHex := hexDigits opts.ed25519PublicKey
  x25519PubHex := hexDigits (crypto.keyPair opts.ed25519Seed).2
  sig := hexDigits (crypto.sign (announceSignBytes opts.sessionId (crypto.keyPair opts.ed25519Seed).2) opts.ed25519Seed)

/-- An announce has to be signed by the identity it claims. -/
def checkAnnounce (a : Announce) : Except String Unit :=
  if signedBy crypto a.sig (announceSignBytes opts.sessionId (fromHex a.x25519PubHex)) a.edPubHex then .ok ()
  else .error ("dkg: bad announce signature from " ++ String.ofList a.edPubHex ++ " (aborting ceremony)")

/-- An identity has to announce the same key every time. -/
def addAnnounce (byEdPub : List Announce) (a : Announce) : Except String (List Announce) :=
  if byEdPub.any fun prior => prior.edPubHex = a.edPubHex ∧ prior.x25519PubHex ≠ a.x25519PubHex then
    .error ("dkg: conflicting announce for identity " ++ String.ofList a.edPubHex ++ " (aborting ceremony)")
  else .ok (put (fun x : Announce => x.edPubHex) byEdPub a)

/-- In the order of the identities. -/
def sortByEdPub (byEdPub : List Announce) : List Announce :=
  byEdPub.insertionSort fun a b => codeUnits a.edPubHex ≤ codeUnits b.edPubHex

/-- There has to be one identity for every member. -/
def checkCount (sorted : List Announce) : Except String (List Announce) :=
  if sorted.length ≠ opts.memberCount then
    .error ("dkg: expected " ++ toString opts.memberCount ++ " distinct announces, saw " ++ toString sorted.length)
  else .ok sorted

/-- The announces of the first round by identity, in order. -/
def collectAnnounces (log : List (Envelope Κ)) : Except String (List Announce) := do
  let dkg1 ← collectUntil opts log (opts.memberCount ≤ (ofKind .dkg1 log).length)
  let announces ← (ofKind .dkg1 dkg1).mapM fun e => crypto.readAnnounce e.ciphertext
  announces.forM (checkAnnounce crypto opts)
  let byEdPub ← announces.foldlM addAnnounce []
  checkCount opts (sortByEdPub byEdPub)

/-- `participantIds`. -/
def participantIds (sorted : List Announce) : List ℤ := (List.range sorted.length).map fun i : ℕ => (i : ℤ) + 1

/-- `idByEdPub`. -/
def idByEdPub (sorted : List Announce) (edPubHex : List Char) : Option ℤ :=
  (sorted.findIdx? fun a => a.edPubHex = edPubHex).map fun i : ℕ => (i : ℤ) + 1

/-- `edPubById`. -/
def edPubById (sorted : List Announce) (id : ℤ) : Option (List Char) :=
  if id < 1 then none else (sorted[(id - 1).toNat]?).map fun a => a.edPubHex

/-- The identifier of this member. -/
def ownId (sorted : List Announce) : Except String ℤ :=
  orThrow (idByEdPub sorted (hexDigits opts.ed25519PublicKey))
    "dkg: my own announce was not observed back from the coordinator"

/-- What a dealer tells each recipient, without the share. -/
def innerOf (c : DealerContribution) (r : List UInt8) (share : ℤ) : InnerDealerPayload where
  commitments := c.commitments.map pointToHexObj
  pop := ⟨pointToHexObj c.pop.R, toText 10 c.pop.z⟩
  share := toText 10 share
  r := hexDigits r
  sig := hexDigits (crypto.sign (dealerSignBytes opts.sessionId (toText 10 c.id) (c.commitments.map pointToHexObj)
    ⟨pointToHexObj c.pop.R, toText 10 c.pop.z⟩) opts.ed25519Seed)

/-- The box of a dealer for a member. -/
def boxFor (c : DealerContribution) (random : Random) (i : ℕ) (recipient : Announce) : Option Β :=
  (c.shares ((i : ℤ) + 1)).map fun share =>
    crypto.sealInner (random.boxes i) (crypto.keyPair opts.ed25519Seed).1 (fromHex recipient.x25519PubHex)
      opts.sessionId (innerOf crypto opts c random.r share)

/-- The message of a dealer. -/
def dealerMessage (sorted : List Announce) (myId : ℤ) (random : Random) :
    Except String (DealerMessage Β) := do
  let coeffs := (List.range opts.threshold).map random.coeffs
  let c ← dealerContribute poseidon lib coeffs random.k myId (participantIds sorted) opts.context
  .ok ⟨toText 10 myId, hexDigits (crypto.keyPair opts.ed25519Seed).2, fun id =>
    (sorted.zipIdx.find? fun x => toText 10 ((x.2 : ℤ) + 1) = id).bind fun x => boxFor crypto opts c random x.2 x.1⟩

/-- What a dealer's message comes to for this member: the contribution, and the contribution to the view key. -/
def acceptDealer (sorted : List Announce) (myId : ℤ) (msg : DealerMessage Β) :
    Except String (DealerContribution × List UInt8) := do
  let dealerId ← readBigInt msg.dealerId
  let dealerEdPubHex ← orThrow (edPubById sorted dealerId)
    ("dkg: dealer message claims unknown dealer id " ++ toString dealerId ++ " (aborting ceremony)")
  let box ← orThrow (msg.boxes (toText 10 myId))
    ("dkg: dealer " ++ toString dealerId ++ " sent no box for me (" ++ toString myId ++ ")")
  let inner ← crypto.openInner (crypto.keyPair opts.ed25519Seed).1 (fromHex msg.senderX25519PubHex) opts.sessionId box
  let signed := dealerSignBytes opts.sessionId msg.dealerId inner.commitments inner.pop
  if !signedBy crypto inner.sig signed dealerEdPubHex then
    .error ("dkg: bad dealer-message signature from dealer " ++ toString dealerId ++ " (aborting ceremony)")
  else do
    let myShare ← readBigInt inner.share
    let commitments ← inner.commitments.mapM hexToPoint
    let R ← hexToPoint inner.pop.r
    let z ← readBigInt inner.pop.z
    let contribution : DealerContribution :=
      ⟨dealerId, commitments, ⟨R, z⟩, fun i => if i = myId then some myShare else none⟩
    let ok ← verifyContribution poseidon lib myId contribution opts.context
    if ok = false then
      .error ("dkg: dealer " ++ toString dealerId ++ "'s contribution failed verification (aborting ceremony)")
    else .ok (contribution, fromHex inner.r)

/-- The contributions of the second round, in the order of the log. -/
def collectDealers (sorted : List Announce) (myId : ℤ) (log : List (Envelope Κ)) :
    Except String (List (DealerContribution × List UInt8)) := do
  let dkg2 ← collectUntil opts log (opts.memberCount ≤ (ofKind .dkg2 log).length)
  let dealerMsgs ← (ofKind .dkg2 dkg2).mapM fun e => crypto.readDealer e.ciphertext
  dealerMsgs.mapM (acceptDealer poseidon lib crypto opts sorted myId)

/-- A map from a list of entries; the last one of a key counts. -/
def mapOf {β : Type} (entries : List (ℤ × β)) : List (ℤ × β) := entries.foldl (put Prod.fst) []

/-- `runDkgCeremony`, with the logs its two rounds are answered. -/
def runDkgCeremony (random : Random) (log1 log2 : List (Envelope Κ)) : Except String DkgCeremonyResult := do
  let sorted ← collectAnnounces crypto opts log1
  let myId ← ownId opts sorted
  let _ ← dealerMessage poseidon lib crypto opts sorted myId random
  let accepted ← collectDealers poseidon lib crypto opts sorted myId log2
  let result ← aggregate lib [myId] (accepted.map Prod.fst)
  .ok ⟨opts.sessionId, myId, opts.threshold, opts.memberCount, participantIds sorted, result.C,
    (result.shares myId).getD 0, mapOf (accepted.map fun x => (x.1.id, x.1.commitments)),
    mapOf (accepted.map fun x => (x.1.id, x.2))⟩

end Program

/-! ## What is signed -/

theorem jsonObject_two (a b : List Char) : jsonObject [a, b] = ['{'] ++ ((a ++ [',']) ++ b) ++ ['}'] := by
  simp [jsonObject]

theorem jsonObject_four (a b c d : List Char) :
    jsonObject [a, b, c, d] = ['{'] ++ ((a ++ [',']) ++ ((b ++ [',']) ++ ((c ++ [',']) ++ d))) ++ ['}'] := by
  simp [jsonObject]

/-- The fields of an object with two fields. -/
theorem prefixFree_object_two {α : Type} {β : Type} {f : α → List Char} {g : β → List Char} (hf : PrefixFree f)
    (hg : PrefixFree g) (first second : String) :
    PrefixFree fun x : α × β => jsonObject [jsonField first (f x.1), jsonField second (g x.2)] := by
  simp only [jsonObject_two]
  have hfields := PrefixFree.pair (PrefixFree.back (prefixFree_field hf first) [',']) (prefixFree_field hg second)
  exact PrefixFree.back (PrefixFree.front hfields ['{']) ['}']

theorem prefixFree_point : PrefixFree jsonPoint := by
  have hpair := (prefixFree_object_two prefixFree_text prefixFree_text "x" "y").comp
    (e := fun p : HexPoint => (p.x, p.y))
  refine hpair fun p q h => ?_
  cases p
  cases q
  simpa using h

theorem prefixFree_pop :
    PrefixFree fun pop : HexPop => jsonObject [jsonField "r" (jsonPoint pop.r), jsonField "z" (jsonText pop.z)] := by
  have hpair := (prefixFree_object_two prefixFree_point prefixFree_text "r" "z").comp
    (e := fun p : HexPop => (p.r, p.z))
  refine hpair fun p q h => ?_
  cases p
  cases q
  simpa using h

theorem head?_jsonPoint (p : HexPoint) (rest : List Char) : (jsonPoint p ++ rest).head? ≠ some ']' := by
  simp [jsonPoint, jsonObject]

/-- The content of a dealer's signature. -/
def signedContent (x : List Char × List Char × List HexPoint × HexPop) : List Char :=
  jsonObject [jsonField "sessionId" (jsonText x.1), jsonField "dealerId" (jsonText x.2.1),
    jsonField "commitments" (jsonArray (x.2.2.1.map jsonPoint)),
    jsonField "pop" (jsonObject [jsonField "r" (jsonPoint x.2.2.2.r), jsonField "z" (jsonText x.2.2.2.z)])]

theorem prefixFree_signedContent : PrefixFree signedContent := by
  have hcommitments := prefixFree_field (prefixFree_array prefixFree_point head?_jsonPoint) "commitments"
  have hpop := prefixFree_field prefixFree_pop "pop"
  have hlast := PrefixFree.pair (PrefixFree.back hcommitments [',']) hpop
  have htail := PrefixFree.pair (PrefixFree.back (prefixFree_field prefixFree_text "dealerId") [',']) hlast
  have hall := PrefixFree.pair (PrefixFree.back (prefixFree_field prefixFree_text "sessionId") [',']) htail
  have hobject := PrefixFree.back (PrefixFree.front hall ['{']) ['}']
  intro x y r s heq
  refine hobject ?_
  rwa [signedContent, signedContent, jsonObject_four, jsonObject_four] at heq

/-- A dealer's signature is on one session, one dealer, one list of commitments and one proof. -/
theorem dealerSignBytes_injective {sessionId sessionId' dealerId dealerId' : List Char}
    {commitments commitments' : List HexPoint} {pop pop' : HexPop}
    (h : dealerSignBytes sessionId dealerId commitments pop =
      dealerSignBytes sessionId' dealerId' commitments' pop') :
    sessionId = sessionId' ∧ dealerId = dealerId' ∧ commitments = commitments' ∧ pop = pop' := by
  have htext := List.append_cancel_left (textBytes_injective h)
  have hcontent : signedContent (sessionId, dealerId, commitments, pop) =
      signedContent (sessionId', dealerId', commitments', pop') := (List.cons.inj htext).2
  simpa using prefixFree_signedContent.injective hcontent

/-- No signature is on an announce and on a dealer's message. -/
theorem announceSignBytes_ne (sessionId sessionId' dealerId : List Char) (x25519Pub : List UInt8)
    (commitments : List HexPoint) (pop : HexPop) :
    announceSignBytes sessionId x25519Pub ≠ dealerSignBytes sessionId' dealerId commitments pop := by
  intro h
  have hdealer : dealerSignBytes sessionId' dealerId commitments pop = textBytes dealerDomain.toList ++ textBytes _ :=
    textBytes_append _ _
  rw [announceSignBytes, List.append_assoc, textBytes_append, List.append_assoc, hdealer] at h
  have hdomains := congrArg (List.take 14) h
  rw [List.take_left' (by decide), List.take_left' (by decide)] at hdomains
  exact absurd (textBytes_injective hdomains) (by decide)

/-! ## Texts that are read back -/

theorem fromHex_hexDigits (bytes : List UInt8) : fromHex (hexDigits bytes) = bytes := by
  induction bytes with
  | nil => rfl
  | cons b bytes ih =>
    have hdigits : hexDigits (b :: bytes) =
        (b.toNat / 16).digitChar :: (b.toNat % 16).digitChar :: hexDigits bytes := rfl
    have hb := b.toNat_lt
    rw [hdigits, fromHex, digitValue_digitChar (by omega), digitValue_digitChar (by omega)]
    simp only [ih, Nat.div_add_mod, UInt8.ofNat_toNat]

theorem hexDigits_inj {a b : List UInt8} (h : hexDigits a = hexDigits b) : a = b := by
  rw [← fromHex_hexDigits a, h, fromHex_hexDigits]

/-! ## The first round -/

theorem codeUnits_injective : Function.Injective codeUnits := by
  have hcode : PrefixFree fun c : Char => if c.toNat < 0x10000 then [c.toNat]
      else [0xd800 + (c.toNat - 0x10000) / 0x400, 0xdc00 + (c.toNat - 0x10000) % 0x400] := by
    intro c d r s heq
    -- the values of characters leave out the surrogates
    have hc : c.toNat < 0xd800 ∨ (0xdfff < c.toNat ∧ c.toNat < 0x110000) := c.valid
    have hd : d.toNat < 0xd800 ∨ (0xdfff < d.toNat ∧ d.toNat < 0x110000) := d.valid
    simp only at heq
    split_ifs at heq with hcsmall hdsmall hdsmall
    · simp only [List.cons_append, List.nil_append, List.cons.injEq] at heq
      exact ⟨Char.toNat_inj.1 heq.1, heq.2⟩
    · simp only [List.cons_append, List.nil_append, List.cons.injEq] at heq
      omega
    · simp only [List.cons_append, List.nil_append, List.cons.injEq] at heq
      omega
    · simp only [List.cons_append, List.nil_append, List.cons.injEq] at heq
      refine ⟨Char.toNat_inj.1 ?_, heq.2.2⟩
      omega
  refine hcode.flatMap fun c => ?_
  split_ifs
  · exact List.cons_ne_nil _ _
  · exact List.cons_ne_nil _ _

section Rounds

variable {Κ Β : Type} {crypto : Crypto Κ Β} {opts : DkgCeremonyOptions}

theorem collectUntil_ok {log log' : List (Envelope Κ)} {ready : Bool} (h : collectUntil opts log ready = .ok log') :
    ready = true ∧ log' = log := by
  rw [collectUntil] at h
  split_ifs at h with hready
  exact ⟨hready, (Except.ok.inj h).symm⟩

theorem orThrow_ok {α : Type} {x : Option α} {message : String} {a : α} (h : orThrow x message = .ok a) :
    x = some a := by
  cases x with
  | none => cases h
  | some b => rw [Except.ok.inj h]

/-- The identity an announce is for, and the key it is for. -/
theorem foldlM_addAnnounce {announces acc res : List Announce} (h : announces.foldlM addAnnounce acc = .ok res)
    (hacc : (acc.map fun a => a.edPubHex).Nodup) :
    (res.map fun a => a.edPubHex).Nodup ∧ ∀ p : DkgIdentity, p ∈ res.map Announce.toDkgIdentity ↔
      p ∈ announces.map Announce.toDkgIdentity ∨ p ∈ acc.map Announce.toDkgIdentity := by
  induction announces generalizing acc with
  | nil =>
    obtain rfl := Except.ok.inj h
    exact ⟨hacc, fun p => by simp⟩
  | cons a announces ih =>
    rw [List.foldlM_cons, bind_eq_ok] at h
    obtain ⟨acc', hstep, h⟩ := h
    rw [addAnnounce] at hstep
    split_ifs at hstep with hconflict
    obtain rfl := Except.ok.inj hstep
    obtain ⟨hnodup, hmem⟩ := ih h (nodup_put hacc a)
    refine ⟨hnodup, fun p => ?_⟩
    have hput : p ∈ (put (fun x : Announce => x.edPubHex) acc a).map Announce.toDkgIdentity ↔
        p = a.toDkgIdentity ∨ p ∈ acc.map Announce.toDkgIdentity := by
      simp only [List.mem_map, mem_put]
      constructor
      · rintro ⟨x, rfl | ⟨hx, -⟩, rfl⟩
        · exact Or.inl rfl
        · exact Or.inr ⟨x, hx, rfl⟩
      · rintro (rfl | ⟨x, hx, rfl⟩)
        · exact ⟨a, Or.inl rfl, rfl⟩
        · by_cases hkey : x.edPubHex = a.edPubHex
          · -- a prior announce of the identity has the same key
            refine ⟨a, Or.inl rfl, ?_⟩
            by_contra hne
            refine hconflict (List.any_eq_true.2 ⟨x, hx, decide_eq_true ⟨hkey, fun hx25519 => hne ?_⟩⟩)
            rw [DkgIdentity.mk.injEq]
            exact ⟨hkey.symm, hx25519.symm⟩
          · exact ⟨x, Or.inr ⟨hx, hkey⟩, rfl⟩
    rw [hmem, hput, List.map_cons, List.mem_cons]
    tauto

/-- What is known of a first round that is accepted. -/
theorem collectAnnounces_ok {log : List (Envelope Κ)} {sorted : List Announce}
    (h : collectAnnounces crypto opts log = .ok sorted) : ∃ announces,
    (ofKind .dkg1 log).mapM (fun e => crypto.readAnnounce e.ciphertext) = .ok announces ∧
      (∀ a ∈ announces, checkAnnounce crypto opts a = .ok ()) ∧ sorted.length = opts.memberCount ∧
      (sorted.map fun a => a.edPubHex).Nodup ∧
      sorted.Pairwise (fun a b => codeUnits a.edPubHex ≤ codeUnits b.edPubHex) ∧
      ∀ p, p ∈ sorted.map Announce.toDkgIdentity ↔ p ∈ announces.map Announce.toDkgIdentity := by
  rw [collectAnnounces, bind_eq_ok] at h
  obtain ⟨dkg1, hcollect, h⟩ := h
  obtain ⟨-, rfl⟩ := collectUntil_ok hcollect
  rw [bind_eq_ok] at h
  obtain ⟨announces, hread, h⟩ := h
  rw [bind_eq_ok] at h
  obtain ⟨⟨⟩, hcheck, h⟩ := h
  rw [bind_eq_ok] at h
  obtain ⟨byEdPub, hadd, h⟩ := h
  rw [checkCount] at h
  split_ifs at h with hlength
  obtain rfl := Except.ok.inj h
  obtain ⟨hnodup, hmem⟩ := foldlM_addAnnounce hadd (by simp)
  have hperm : (sortByEdPub byEdPub).Perm byEdPub := List.perm_insertionSort _ _
  refine ⟨announces, hread, forall_of_forM hcheck, not_not.1 hlength, ?_, List.pairwise_insertionSort _ _, fun p => ?_⟩
  · exact (hperm.map _).nodup_iff.2 hnodup
  · rw [(hperm.map _).mem_iff, hmem]
    simp

/-! ## The second round -/

variable {poseidon : List Fr → Fr} {lib : Library}

theorem edPubById_eq_some {sorted : List Announce} {id : ℤ} {key : List Char} (h : edPubById sorted id = some key) :
    ∃ (i : ℕ) (a : Announce), id = (i : ℤ) + 1 ∧ sorted[i]? = some a ∧ a.edPubHex = key := by
  rw [edPubById] at h
  split_ifs at h with hid
  obtain ⟨a, ha, hkey⟩ := Option.map_eq_some_iff.1 h
  exact ⟨(id - 1).toNat, a, by omega, ha, hkey⟩

/-- What is known of a dealer's message that is accepted. -/
structure Accepted (poseidon : List Fr → Fr) (lib : Library) (crypto : Crypto Κ Β) (opts : DkgCeremonyOptions)
    (sorted : List Announce) (myId : ℤ) (msg : DealerMessage Β) (c : DealerContribution) (inner : InnerDealerPayload) :
    Prop where
  id : readBigInt msg.dealerId = .ok c.id
  opened : ∃ box, msg.boxes (toText 10 myId) = some box ∧ crypto.openInner (crypto.keyPair opts.ed25519Seed).1
    (fromHex msg.senderX25519PubHex) opts.sessionId box = .ok inner
  signed : ∃ key, edPubById sorted c.id = some key ∧
    signedBy crypto inner.sig (dealerSignBytes opts.sessionId msg.dealerId inner.commitments inner.pop) key = true
  commitments : inner.commitments.mapM hexToPoint = .ok c.commitments
  share : ∃ s, readBigInt inner.share = .ok s ∧ c.shares = fun i => if i = myId then some s else none
  verified : verifyContribution poseidon lib myId c opts.context = .ok true

theorem acceptDealer_ok {sorted : List Announce} {myId : ℤ} {msg : DealerMessage Β}
    {x : DealerContribution × List UInt8}
    (h : acceptDealer poseidon lib crypto opts sorted myId msg = .ok x) : ∃ inner,
    Accepted poseidon lib crypto opts sorted myId msg x.1 inner ∧ x.2 = fromHex inner.r := by
  rw [acceptDealer, bind_eq_ok] at h
  obtain ⟨dealerId, hid, h⟩ := h
  rw [bind_eq_ok] at h
  obtain ⟨key, hkey, h⟩ := h
  rw [bind_eq_ok] at h
  obtain ⟨box, hbox, h⟩ := h
  rw [bind_eq_ok] at h
  obtain ⟨inner, hinner, h⟩ := h
  simp only at h
  split_ifs at h with hsigned
  rw [bind_eq_ok] at h
  obtain ⟨myShare, hshare, h⟩ := h
  rw [bind_eq_ok] at h
  obtain ⟨commitments, hcommitments, h⟩ := h
  rw [bind_eq_ok] at h
  obtain ⟨R, -, h⟩ := h
  rw [bind_eq_ok] at h
  obtain ⟨z, -, h⟩ := h
  rw [bind_eq_ok] at h
  obtain ⟨ok, hok, h⟩ := h
  split_ifs at h with hfalse
  obtain rfl := Except.ok.inj h
  rw [Bool.not_eq_false] at hfalse
  refine ⟨inner, ⟨hid, ⟨box, orThrow_ok hbox, hinner⟩, ⟨key, orThrow_ok hkey, by simpa using hsigned⟩, hcommitments,
    ⟨myShare, hshare, rfl⟩, ?_⟩, rfl⟩
  rw [hok, hfalse]

/-- What is known of a second round that is accepted. -/
theorem collectDealers_ok {sorted : List Announce} {myId : ℤ} {log : List (Envelope Κ)}
    {accepted : List (DealerContribution × List UInt8)}
    (h : collectDealers poseidon lib crypto opts sorted myId log = .ok accepted) : ∃ msgs,
    (ofKind .dkg2 log).mapM (fun e => crypto.readDealer e.ciphertext) = .ok msgs ∧ opts.memberCount ≤ msgs.length ∧
      List.Forall₂ (fun msg x => acceptDealer poseidon lib crypto opts sorted myId msg = .ok x) msgs accepted := by
  rw [collectDealers, bind_eq_ok] at h
  obtain ⟨dkg2, hcollect, h⟩ := h
  obtain ⟨hready, rfl⟩ := collectUntil_ok hcollect
  rw [bind_eq_ok] at h
  obtain ⟨msgs, hread, h⟩ := h
  refine ⟨msgs, hread, ?_, forall_of_mapM h⟩
  rw [← (forall_of_mapM hread).length_eq]
  simpa using hready

/-- A run of the ceremony that ends: its two rounds, and what they come to. -/
theorem runDkgCeremony_ok {random : Random} {log1 log2 : List (Envelope Κ)} {r : DkgCeremonyResult}
    (h : runDkgCeremony poseidon lib crypto opts random log1 log2 = .ok r) : ∃ sorted accepted result,
    collectAnnounces crypto opts log1 = .ok sorted ∧
      idByEdPub sorted (hexDigits opts.ed25519PublicKey) = some r.myId ∧
      collectDealers poseidon lib crypto opts sorted r.myId log2 = .ok accepted ∧
      aggregate lib [r.myId] (accepted.map Prod.fst) = .ok result ∧
      r.participantIds = participantIds sorted ∧ r.gpk = result.C ∧ r.mySecretShare = (result.shares r.myId).getD 0 ∧
      r.dealerCommitments = mapOf (accepted.map fun x => (x.1.id, x.1.commitments)) ∧
      r.viewContributions = mapOf (accepted.map fun x => (x.1.id, x.2)) := by
  rw [runDkgCeremony, bind_eq_ok] at h
  obtain ⟨sorted, hsorted, h⟩ := h
  rw [bind_eq_ok] at h
  obtain ⟨myId, hmyId, h⟩ := h
  rw [bind_eq_ok] at h
  obtain ⟨-, -, h⟩ := h
  rw [bind_eq_ok] at h
  obtain ⟨accepted, haccepted, h⟩ := h
  rw [bind_eq_ok] at h
  obtain ⟨result, hresult, h⟩ := h
  obtain rfl := Except.ok.inj h
  exact ⟨sorted, accepted, result, hsorted, orThrow_ok hmyId, haccepted, hresult, rfl, rfl, rfl, rfl, rfl⟩

end Rounds

end Kakure.Dkg
