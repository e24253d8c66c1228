import Kakure.Coordinator.Store
import Kakure.Frost.Bjj
import Kakure.Lib.Keyed
import Kakure.Lib.Numerals

/-!
# Proposals on a session

`packages/cli/src/proposal/proposal.ts` over the log of a session.  What a client polls is the log at
that moment, so every function that polls takes the log it is answered.  The cipher that seals
the envelopes, and the JSON inside, are a parameter.

* `toCommitment_noncePayload` — what a signer publishes is read back;
* `decodeUnique_append` — one more envelope sets the entry of its sender;
* `fetchProposal_append` — the first proposal with an identifier is the one that counts.
-/

namespace Kakure.Proposal

open Fallible Keyed Numerals
open Coordinator (EnvelopeKind)
open Frost (Commitment Ciphersuite encodeMessage)
open Tss (Point)

/-! ## Payloads -/

/-- A point as `pointToHexObj` writes it. -/
structure HexPoint where
  x : List Char
  y : List Char
  deriving DecidableEq

/-- `ProposalKind`. -/
inductive ProposalKind
  | transfer | split | join | withdraw
  deriving DecidableEq

/-- `ProposalPayload`. -/
structure ProposalPayload (Δ : Type) where
  kind : ProposalKind
  proposalId : List Char
  messageHex : List Char
  details : Δ

/-- `NonceEnvelopePayload`. -/
structure NonceEnvelopePayload where
  proposalId : List Char
  id : List Char
  D : HexPoint
  E : HexPoint
  deriving DecidableEq

/-- `ShareEnvelopePayload`. -/
structure ShareEnvelopePayload where
  proposalId : List Char
  id : List Char
  z : List Char
  deriving DecidableEq

/-- What is sealed. -/
inductive Payload (Δ : Type)
  | proposal (p : ProposalPayload Δ)
  | nonce (p : NonceEnvelopePayload)
  | share (p : ShareEnvelopePayload)

/-- A session: its identifier, the rounds a client polls, and `sealSessionJson` and `openSessionJson` under
its key, of which what was sealed is opened. -/
structure Session (Κ Δ : Type) where
  sessionId : List Char
  maxRounds : ℕ
  sealJson : ℕ → Payload Δ → Κ
  openJson : Κ → Option (Payload Δ)
  open_seal : ∀ random p, openJson (sealJson random p) = some p

/-- An envelope of the session. -/
structure Envelope (Κ : Type) where
  kind : EnvelopeKind
  ciphertext : Κ

/-! ## Numbers and points as text -/

/-- `BigInt`. -/
def readBigInt (text : List Char) : Except String ℤ :=
  match bigInt text with
  | none => .error s!"SyntaxError: Cannot convert {String.ofList text} to a BigInt"
  | some x => .ok x

/-- `hexToPoint`. -/
def hexToPoint (h : HexPoint) : Except String Point := do
  let x ← readBigInt ('0' :: 'x' :: h.x)
  let y ← readBigInt ('0' :: 'x' :: h.y)
  .ok (x, y)

/-- `pointToHexObj`. -/
def pointToHexObj (p : Point) : HexPoint := ⟨toText 16 p.1, toText 16 p.2⟩

theorem readBigInt_decimal (x : ℤ) : readBigInt (toText 10 x) = .ok x := by
  rw [readBigInt, bigInt_decimal]

theorem readBigInt_hex {x : ℤ} (h : 0 ≤ x) : readBigInt ('0' :: 'x' :: toText 16 x) = .ok x := by
  rw [readBigInt, bigInt_hex h]

theorem hexToPoint_coords (P : BabyJubJub.Point) : hexToPoint (pointToHexObj (Tss.coords P)) = .ok (Tss.coords P) := by
  obtain ⟨⟨hx, -⟩, hy, -⟩ := Tss.coords_range P
  rw [hexToPoint, pointToHexObj, bind_of_ok (readBigInt_hex hx), bind_of_ok (readBigInt_hex hy)]

/-! ## Reading the log -/

section Reading

variable {Κ Δ : Type} (session : Session Κ Δ)

/-- `collectUntil`, answered with the given log in its last round. -/
def collectUntil (maxRounds : ℕ) (log : List (Envelope Κ)) (ready : Bool) : Except String (List (Envelope Κ)) :=
  if ready then .ok log
  else .error s!"CoordinatorClient.collectUntil: predicate never satisfied after {maxRounds} long-poll rounds on session {String.ofList session.sessionId}"

/-- The proposal an envelope carries, if it has the identifier. -/
def proposalOf (proposalId : List Char) (e : Envelope Κ) : Option (ProposalPayload Δ) :=
  if e.kind = .proposal then
    match session.openJson e.ciphertext with
    | some (.proposal p) => if p.proposalId = proposalId then some p else none
    | _ => none
  else none

/-- The nonce commitment an envelope carries, if it is for the proposal. -/
def nonceOf (proposalId : List Char) (e : Envelope Κ) : Option NonceEnvelopePayload :=
  if e.kind = .nonce then
    match session.openJson e.ciphertext with
    | some (.nonce p) => if p.proposalId = proposalId then some p else none
    | _ => none
  else none

/-- The signature share an envelope carries, if it is for the proposal. -/
def shareOf (proposalId : List Char) (e : Envelope Κ) : Option ShareEnvelopePayload :=
  if e.kind = .share then
    match session.openJson e.ciphertext with
    | some (.share p) => if p.proposalId = proposalId then some p else none
    | _ => none
  else none

/-- `fetchProposal`. -/
def fetchProposal (log : List (Envelope Κ)) (proposalId : List Char) : Except String (ProposalPayload Δ) := do
  let all ← collectUntil session 1 log (log.any fun e => (proposalOf session proposalId e).isSome)
  match all.findSome? (proposalOf session proposalId) with
  | none => .error s!"proposal {String.ofList proposalId} not found on session {String.ofList session.sessionId}"
  | some p => .ok p

/-- `decodeUnique`, of the entries that an envelope kind carries. -/
def decodeUnique {T : Type} (entryOf : Envelope Κ → Option T) (id : T → List Char) (log : List (Envelope Κ)) : List T :=
  log.foldl (fun byId e => match entryOf e with
    | none => byId
    | some p => put id byId p) []

/-- The nonce commitments of a proposal, the latest of each signer. -/
def decodeNonces (proposalId : List Char) (log : List (Envelope Κ)) : List NonceEnvelopePayload :=
  decodeUnique (nonceOf session proposalId) NonceEnvelopePayload.id log

/-- The signature shares of a proposal, the latest of each signer. -/
def decodeShares (proposalId : List Char) (log : List (Envelope Κ)) : List ShareEnvelopePayload :=
  decodeUnique (shareOf session proposalId) ShareEnvelopePayload.id log

/-- The commitment that a payload stands for. -/
def toCommitment (p : NonceEnvelopePayload) : Except String (Commitment Point) := do
  let id ← readBigInt p.id
  let D ← hexToPoint p.D
  let E ← hexToPoint p.E
  .ok ⟨id, D, E⟩

/-- The commitments that a signer and the aggregator work with. -/
def collectCommitments (proposalId : List Char) (threshold : ℕ) (log : List (Envelope Κ)) :
    Except String (List (Commitment Point)) := do
  let nonceEnvelopes ← collectUntil session session.maxRounds log (threshold ≤ (decodeNonces session proposalId log).length)
  (decodeNonces session proposalId nonceEnvelopes).mapM toCommitment

/-- The message of a proposal. -/
def messageOf (p : ProposalPayload Δ) : Except String (List UInt8) := do
  let m ← readBigInt p.messageHex
  .ok (encodeMessage (m % 2 ^ 256).toNat)

/-! ## Writing to it -/

/-- `createProposal`: the envelope. -/
def createProposal (random : ℕ) (payload : ProposalPayload Δ) : Envelope Κ :=
  ⟨.proposal, session.sealJson random (.proposal payload)⟩

/-- The payload of a nonce commitment. -/
def noncePayload (proposalId : List Char) (c : Commitment Point) : NonceEnvelopePayload :=
  ⟨proposalId, toText 10 c.id, pointToHexObj c.D, pointToHexObj c.E⟩

/-- The payload of a signature share. -/
def sharePayload (proposalId : List Char) (id z : ℤ) : ShareEnvelopePayload := ⟨proposalId, toText 10 id, toText 10 z⟩

/-- The envelope of a nonce commitment. -/
def nonceEnvelope (random : ℕ) (proposalId : List Char) (c : Commitment Point) : Envelope Κ :=
  ⟨.nonce, session.sealJson random (.nonce (noncePayload proposalId c))⟩

/-- The envelope of a signature share. -/
def shareEnvelope (random : ℕ) (proposalId : List Char) (id z : ℤ) : Envelope Κ :=
  ⟨.share, session.sealJson random (.share (sharePayload proposalId id z))⟩

/-! ## Aggregation -/

/-- The partial that a share stands for, with the public share of its signer. -/
def toPartial (publicShares : List Char → Option Point) (p : ShareEnvelopePayload) :
    Except String (Frost.Partial Point) := do
  match publicShares p.id with
  | none => .error s!"aggregateProposal: no known public share for signer {String.ofList p.id}"
  | some publicShare =>
    let id ← readBigInt p.id
    let z ← readBigInt p.z
    .ok ⟨id, z, publicShare⟩

/-- The result of `aggregateProposal`. -/
structure Aggregated (Δ : Type) where
  signature : Frost.Signature Point
  message : List UInt8
  proposal : ProposalPayload Δ

variable (cs : Ciphersuite Point)

/-- `aggregateProposal`, with the logs its three polls are answered. -/
def aggregateProposal (proposalId : List Char) (gpk : Point) (threshold : ℕ) (publicShares : List Char → Option Point)
    (proposalLog nonceLog shareLog : List (Envelope Κ)) : Except String (Aggregated Δ) := do
  let proposal ← fetchProposal session proposalLog proposalId
  let message ← messageOf proposal
  let commitments ← collectCommitments session proposalId threshold nonceLog
  let shareEnvelopes ← collectUntil session session.maxRounds shareLog (threshold ≤ (decodeShares session proposalId shareLog).length)
  let shares ← (decodeShares session proposalId shareEnvelopes).mapM (toPartial publicShares)
  let rhos ← Frost.bindingFactors cs gpk message commitments
  let R ← Frost.groupCommitment cs commitments rhos
  let signature ← Frost.coordinatorAggregate cs R gpk message commitments shares threshold
  .ok ⟨signature, message, proposal⟩

/-! ## One more envelope -/

theorem decodeUnique_append {T : Type} (entryOf : Envelope Κ → Option T) (id : T → List Char)
    (log : List (Envelope Κ)) (e : Envelope Κ) : decodeUnique entryOf id (log ++ [e]) =
      match entryOf e with
      | none => decodeUnique entryOf id log
      | some p => put id (decodeUnique entryOf id log) p := by
  rw [decodeUnique, List.foldl_append]
  rfl

theorem nodup_decodeUnique {T : Type} (entryOf : Envelope Κ → Option T) (id : T → List Char)
    (log : List (Envelope Κ)) : ((decodeUnique entryOf id log).map id).Nodup := by
  induction log using List.reverseRecOn with
  | nil => exact List.nodup_nil
  | append_singleton log e ih =>
    rw [decodeUnique_append]
    cases entryOf e with
    | none => exact ih
    | some p => exact nodup_put ih p

variable {session}

/-- The first proposal with the identifier. -/
theorem fetchProposal_eq_ok_iff {log : List (Envelope Κ)} {proposalId : List Char} {p : ProposalPayload Δ} :
    fetchProposal session log proposalId = .ok p ↔ log.findSome? (proposalOf session proposalId) = some p := by
  rw [fetchProposal, collectUntil]
  cases hfind : log.findSome? (proposalOf session proposalId) with
  | none =>
    have hany : (log.any fun e => (proposalOf session proposalId e).isSome) = false := by
      rw [List.any_eq_false]
      intro e he
      simp [List.findSome?_eq_none_iff.1 hfind e he]
    rw [hany]
    constructor
    · intro h
      cases h
    · intro h
      cases h
  | some q =>
    have hany : (log.any fun e => (proposalOf session proposalId e).isSome) = true := by
      obtain ⟨e, he, hq⟩ := List.exists_of_findSome?_eq_some hfind
      rw [List.any_eq_true]
      exact ⟨e, he, by simp [hq]⟩
    rw [if_pos hany]
    refine ⟨fun h => ?_, fun h => ?_⟩
    · have hq := (bind_of_ok (rfl : (.ok log : Except String _) = .ok log) _).symm.trans h
      simp only [hfind] at hq
      cases hq
      rfl
    · cases h
      refine (bind_of_ok (rfl : (.ok log : Except String _) = .ok log) _).trans ?_
      simp only [hfind]

/-- A proposal that is found stays the one. -/
theorem fetchProposal_append {log : List (Envelope Κ)} {proposalId : List Char} {p : ProposalPayload Δ}
    (h : fetchProposal session log proposalId = .ok p) (more : List (Envelope Κ)) :
    fetchProposal session (log ++ more) proposalId = .ok p := by
  rw [fetchProposal_eq_ok_iff] at h ⊢
  rw [List.findSome?_append, h, Option.some_or]

@[simp] theorem nonceOf_nonceEnvelope (random : ℕ) (proposalId : List Char) (c : Commitment Point) :
    nonceOf session proposalId (nonceEnvelope session random proposalId c) = some (noncePayload proposalId c) := by
  simp [nonceOf, nonceEnvelope, session.open_seal, noncePayload]

@[simp] theorem shareOf_nonceEnvelope (random : ℕ) (proposalId : List Char) (c : Commitment Point) :
    shareOf session proposalId (nonceEnvelope session random proposalId c) = none := by
  simp [shareOf, nonceEnvelope]

@[simp] theorem shareOf_shareEnvelope (random : ℕ) (proposalId : List Char) (id z : ℤ) :
    shareOf session proposalId (shareEnvelope session random proposalId id z) = some (sharePayload proposalId id z) := by
  simp [shareOf, shareEnvelope, session.open_seal, sharePayload]

@[simp] theorem nonceOf_shareEnvelope (random : ℕ) (proposalId : List Char) (id z : ℤ) :
    nonceOf session proposalId (shareEnvelope session random proposalId id z) = none := by
  simp [nonceOf, shareEnvelope]

end Reading

/-- What a signer publishes is read back. -/
theorem toCommitment_noncePayload (proposalId : List Char) (id : ℤ) (D E : BabyJubJub.Point) :
    toCommitment (noncePayload proposalId ⟨id, Tss.coords D, Tss.coords E⟩) = .ok ⟨id, Tss.coords D, Tss.coords E⟩ := by
  rw [toCommitment, noncePayload, bind_of_ok (readBigInt_decimal id), bind_of_ok (hexToPoint_coords D),
    bind_of_ok (hexToPoint_coords E)]

end Kakure.Proposal
