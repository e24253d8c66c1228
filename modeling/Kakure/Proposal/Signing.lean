import Kakure.Lib.Runs
import Kakure.Proposal.Session

/-!
# Signers on one log

The signers of a proposal, each running `signProposal` as often as it likes, over the log of a session.

* `step_cases` — what one step does;
* `sound_step` — every commitment and share in the log is one that its signer made;
* `aggregateProposal_verifies` — the aggregator's signature is valid, if the shares it counts were signed
  over the commitments it reads;
* `late_signer_aborts` — a signer that arrives after the shares undoes them.
-/

namespace Kakure.Proposal

open Fallible Keyed Numerals Runs Polynomial
open Frost (Commitment Nonces NonceHandle Quorum Signer Sharing bjjCiphersuite bjjPrimeOrder)
open Tss (Point Library)

/-! ## Signers -/

/-- A group: its members hold the values of one polynomial. -/
structure Group where
  sharing : Sharing subOrder
  members : List ℤ
  range : ∀ i ∈ members, 0 < i ∧ i < subOrder
  share : ℤ → ℤ
  share_eq : ∀ i ∈ members, ((share i : ℤ) : ZMod subOrder) = sharing.polynomial.eval (i : ZMod subOrder)

/-- What the signers of a proposal have in common. -/
structure Signing (Κ Δ : Type) where
  poseidon : List Fr → Fr
  lib : Library
  lawful : lib.Lawful
  session : Session Κ Δ
  proposalId : List Char
  group : Group

/-- How far a run of `signProposal` is. -/
inductive Phase
  | started
  | fetched (message : List UInt8)
  | committed (message : List UInt8) (nonces : NonceHandle)
  | collected (message : List UInt8) (nonces : NonceHandle) (nonceEnvelopes : List NonceEnvelopePayload)

/-- The log, the run of each signer, and what the latest share of each signer was signed over. -/
structure State (Κ : Type) where
  log : List (Envelope Κ)
  runs : ℤ → Option Phase
  signedOver : ℤ → Option (List NonceEnvelopePayload)

/-- What happens: a signer begins, reads the proposal, publishes a commitment, collects those of the
others, signs, or crashes; or something else is appended to the log. -/
inductive Act (Κ : Type)
  | start (id : ℤ)
  | fetch (id : ℤ)
  | publish (id : ℤ) (hidingRandom bindingRandom : List UInt8) (random : ℕ)
  | collect (id : ℤ)
  | sign (id : ℤ) (random : ℕ)
  | crash (id : ℤ)
  | append (e : Envelope Κ)

/-- The state with the run of a signer at another point. -/
def State.setRun {Κ : Type} (σ : State Κ) (id : ℤ) (phase : Option Phase) : State Κ :=
  { σ with runs := Function.update σ.runs id phase }

namespace Signing

variable {Κ Δ : Type} (x : Signing Κ Δ)

/-- The suite of the signers. -/
abbrev cs : Frost.Ciphersuite Point := bjjCiphersuite x.poseidon x.lib

/-- The key of the group. -/
noncomputable def gpk : Point := x.group.sharing.groupKey (bjjPrimeOrder x.poseidon x.lawful)

/-- The members' true public shares, by decimal identifier. -/
noncomputable def publicShares (id : List Char) : Option Point :=
  (x.group.members.find? fun i => toText 10 i = id).map
    (x.group.sharing.publicShare (bjjPrimeOrder x.poseidon x.lawful))

/-- `signProposal` from the call to the answer of `fetchProposal`; an error ends the run. -/
def fetch (σ : State Κ) (id : ℤ) : State Κ :=
  match fetchProposal x.session σ.log x.proposalId >>= messageOf with
  | .error _ => σ.setRun id none
  | .ok message => σ.setRun id (some (.fetched message))

/-- The nonces and the commitment that are made then. -/
def commit (id : ℤ) (hidingRandom bindingRandom : List UInt8) : Except String (NonceHandle × Commitment Point) :=
  Frost.commit x.cs id (x.group.share id) hidingRandom bindingRandom

/-- What is done with them; an error ends the run. -/
def posted (σ : State Κ) (id : ℤ) (message : List UInt8) (random : ℕ) :
    Except String (NonceHandle × Commitment Point) → State Κ
  | .error _ => σ.setRun id none
  | .ok (nonces, commitment) =>
    { σ.setRun id (some (.committed message nonces)) with
      log := σ.log ++ [nonceEnvelope x.session random x.proposalId commitment] }

/-- From there to the commitment. -/
def publish (σ : State Κ) (id : ℤ) (message hidingRandom bindingRandom : List UInt8) (random : ℕ) : State Κ :=
  x.posted σ id message random (x.commit id hidingRandom bindingRandom)

/-- From there to the last answer of `collectUntil`. -/
def collect (σ : State Κ) (id : ℤ) (message : List UInt8) (nonces : NonceHandle) : State Κ :=
  match collectUntil x.session x.session.maxRounds σ.log
    (x.group.sharing.threshold ≤ (decodeNonces x.session x.proposalId σ.log).length) with
  | .error _ => σ.setRun id none
  | .ok nonceEnvelopes =>
    σ.setRun id (some (.collected message nonces (decodeNonces x.session x.proposalId nonceEnvelopes)))

/-- The share that is computed then. -/
noncomputable def zShare (id : ℤ) (message : List UInt8) (nonces : NonceHandle)
    (nonceEnvelopes : List NonceEnvelopePayload) : Except String ℤ := do
  let commitments ← nonceEnvelopes.mapM toCommitment
  (Frost.signShare x.cs id nonces (x.group.share id) x.gpk message commitments).1

/-- From there to the end. -/
noncomputable def sign (σ : State Κ) (id : ℤ) (message : List UInt8) (nonces : NonceHandle)
    (nonceEnvelopes : List NonceEnvelopePayload) (random : ℕ) : State Κ :=
  match x.zShare id message nonces nonceEnvelopes with
  | .error _ => σ.setRun id none
  | .ok z =>
    { σ.setRun id none with
      log := σ.log ++ [shareEnvelope x.session random x.proposalId id z]
      signedOver := Function.update σ.signedOver id (some nonceEnvelopes) }

/-- One step. -/
noncomputable def step (σ : State Κ) : Act Κ → Option (State Κ)
  | .start id =>
    if id ∈ x.group.members ∧ (σ.runs id).isNone then some (σ.setRun id (some .started)) else none
  | .fetch id =>
    match σ.runs id with
    | some .started => some (x.fetch σ id)
    | _ => none
  | .publish id hidingRandom bindingRandom random =>
    match σ.runs id with
    | some (.fetched message) => some (x.publish σ id message hidingRandom bindingRandom random)
    | _ => none
  | .collect id =>
    match σ.runs id with
    | some (.committed message nonces) => some (x.collect σ id message nonces)
    | _ => none
  | .sign id random =>
    match σ.runs id with
    | some (.collected message nonces nonceEnvelopes) => some (x.sign σ id message nonces nonceEnvelopes random)
    | _ => none
  | .crash id => some (σ.setRun id none)
  | .append e =>
    if nonceOf x.session x.proposalId e = none ∧ shareOf x.session x.proposalId e = none then
      some { σ with log := σ.log ++ [e] }
    else none

/-- The steps of the signers. -/
def Steps (σ : State Κ) (a : Act Κ) (σ' : State Κ) : Prop := x.step σ a = some σ'

/-- A log that has a proposal, and nothing of its signers yet. -/
structure Proposed (log : List (Envelope Κ)) (proposal : ProposalPayload Δ) (message : List UInt8) : Prop where
  fetched : fetchProposal x.session log x.proposalId = .ok proposal
  message_eq : messageOf proposal = .ok message
  no_nonce : ∀ e ∈ log, nonceOf x.session x.proposalId e = none
  no_share : ∀ e ∈ log, shareOf x.session x.proposalId e = none

/-- Where the signers begin. -/
def start (log : List (Envelope Κ)) : State Κ := ⟨log, fun _ => none, fun _ => none⟩

/-! ## What one step does -/

variable {x}

/-- Another run is where it was. -/
theorem setRun_runs (σ : State Κ) {id id' : ℤ} {phase : Option Phase} {phase' : Phase}
    (h : (σ.setRun id phase).runs id' = some phase') :
    (id' = id ∧ phase = some phase') ∨ (id' ≠ id ∧ σ.runs id' = some phase') := by
  simp only [State.setRun] at h
  by_cases hid : id' = id
  · rw [hid, Function.update_self] at h
    exact Or.inl ⟨hid, h⟩
  · rw [Function.update_of_ne hid] at h
    exact Or.inr ⟨hid, h⟩

/-- The steps that change something besides stopping a run: one begins, reads the proposal, publishes,
collects or signs, or the log grows by something else. -/
theorem step_cases {σ σ' : State Κ} {a : Act Κ} (h : x.Steps σ a σ') :
    (∃ id, σ' = σ.setRun id none) ∨
    (∃ id ∈ x.group.members, σ' = σ.setRun id (some .started)) ∨
    (∃ id proposal message, σ.runs id = some .started ∧ fetchProposal x.session σ.log x.proposalId = .ok proposal ∧
      messageOf proposal = .ok message ∧ σ' = σ.setRun id (some (.fetched message))) ∨
    (∃ id message hidingRandom bindingRandom random nonces commitment, σ.runs id = some (.fetched message) ∧
      x.commit id hidingRandom bindingRandom = .ok (nonces, commitment) ∧
      σ' = { σ.setRun id (some (.committed message nonces)) with
        log := σ.log ++ [nonceEnvelope x.session random x.proposalId commitment] }) ∨
    (∃ id message nonces, σ.runs id = some (.committed message nonces) ∧
      x.group.sharing.threshold ≤ (decodeNonces x.session x.proposalId σ.log).length ∧
      σ' = σ.setRun id (some (.collected message nonces (decodeNonces x.session x.proposalId σ.log)))) ∨
    (∃ id message nonces nonceEnvelopes random z, σ.runs id = some (.collected message nonces nonceEnvelopes) ∧
      x.zShare id message nonces nonceEnvelopes = .ok z ∧
      σ' = { σ.setRun id none with
        log := σ.log ++ [shareEnvelope x.session random x.proposalId id z]
        signedOver := Function.update σ.signedOver id (some nonceEnvelopes) }) ∨
    (∃ e, nonceOf x.session x.proposalId e = none ∧ shareOf x.session x.proposalId e = none ∧
      σ' = { σ with log := σ.log ++ [e] }) := by
  rw [Steps] at h
  cases a with
  | start id =>
    simp only [step] at h
    split_ifs at h with hid
    exact Or.inr (Or.inl ⟨id, hid.1, (Option.some.inj h).symm⟩)
  | fetch id =>
    simp only [step] at h
    split at h
    · rename_i hrun
      rw [Option.some.injEq, fetch] at h
      split at h
      · exact Or.inl ⟨id, h.symm⟩
      · rename_i message hmessage
        obtain ⟨proposal, hfetched, hmessage⟩ := bind_eq_ok.1 hmessage
        exact Or.inr (Or.inr (Or.inl ⟨id, proposal, message, hrun, hfetched, hmessage, h.symm⟩))
    · cases h
  | publish id hidingRandom bindingRandom random =>
    simp only [step] at h
    split at h
    · rename_i message hrun
      rw [Option.some.injEq, publish] at h
      cases hcommit : x.commit id hidingRandom bindingRandom with
      | error e =>
        rw [hcommit] at h
        exact Or.inl ⟨id, h.symm⟩
      | ok made =>
        rw [hcommit] at h
        exact Or.inr (Or.inr (Or.inr (Or.inl
          ⟨id, message, hidingRandom, bindingRandom, random, made.1, made.2, hrun, hcommit, h.symm⟩)))
    · cases h
  | collect id =>
    simp only [step] at h
    split at h
    · rename_i message nonces hrun
      rw [Option.some.injEq, collect] at h
      split at h
      · exact Or.inl ⟨id, h.symm⟩
      · rename_i nonceEnvelopes hcollect
        rw [collectUntil] at hcollect
        split_ifs at hcollect with hready
        cases hcollect
        exact Or.inr (Or.inr (Or.inr (Or.inr (Or.inl
          ⟨id, message, nonces, hrun, of_decide_eq_true hready, h.symm⟩))))
    · cases h
  | sign id random =>
    simp only [step] at h
    split at h
    · rename_i message nonces nonceEnvelopes hrun
      rw [Option.some.injEq, sign] at h
      split at h
      · exact Or.inl ⟨id, h.symm⟩
      · rename_i z hz
        exact Or.inr (Or.inr (Or.inr (Or.inr (Or.inr (Or.inl
          ⟨id, message, nonces, nonceEnvelopes, random, z, hrun, hz, h.symm⟩)))))
    · cases h
  | crash id => exact Or.inl ⟨id, (Option.some.inj h).symm⟩
  | append e =>
    simp only [step] at h
    split_ifs at h with hother
    exact Or.inr (Or.inr (Or.inr (Or.inr (Or.inr (Or.inr ⟨e, hother.1, hother.2, (Option.some.inj h).symm⟩)))))

/-! ## What the log says -/

variable (x) in
/-- What a signer of this round publishes. -/
def payload (s : Signer) : NonceEnvelopePayload := noncePayload x.proposalId (s.commitment x.cs)

variable (x) in
/-- A member of the group with nonces that are scalars. -/
structure Member (s : Signer) : Prop where
  mem : s.id ∈ x.group.members
  nonce_range : (0 ≤ s.d ∧ s.d < subOrder) ∧ 0 ≤ s.e ∧ s.e < subOrder

/-- The commitment of a member, as a pair of points of the subgroup. -/
theorem Member.commitment_eq {s : Signer} (hs : x.Member s) :
    s.commitment x.cs = ⟨s.id, Tss.coords ((s.d : ZMod subOrder) • BabyJubJub.base : BabyJubJub.subgroup),
      Tss.coords ((s.e : ZMod subOrder) • BabyJubJub.base : BabyJubJub.subgroup)⟩ := by
  obtain ⟨⟨hd, hdlt⟩, he, helt⟩ := hs.nonce_range
  let quorum : Quorum subOrder := ⟨[s], List.nodup_singleton _, by simpa using x.group.range s.id hs.mem,
    by simpa using ⟨⟨hd, hdlt⟩, he, helt⟩⟩
  have hmem : s ∈ quorum.signers := List.mem_cons_self
  exact Frost.commitment_eq (bjjPrimeOrder x.poseidon x.lawful) hmem

/-- What a member publishes is read as its commitment. -/
theorem Member.toCommitment_payload {s : Signer} (hs : x.Member s) :
    toCommitment (x.payload s) = .ok (s.commitment x.cs) := by
  rw [payload, hs.commitment_eq]
  exact toCommitment_noncePayload x.proposalId s.id _ _

/-- Members that publish the same are the same, with the same nonces. -/
theorem Member.eq_of_payload {s s' : Signer} (hs : x.Member s) (hs' : x.Member s') (h : x.payload s = x.payload s') :
    s = s' := by
  have hread := congrArg toCommitment h
  rw [hs.toCommitment_payload, hs'.toCommitment_payload, Except.ok.injEq, hs.commitment_eq, hs'.commitment_eq,
    Commitment.mk.injEq] at hread
  obtain ⟨hid, hD, hE⟩ := hread
  have hscalar : ∀ {k k' : ZMod subOrder}, Tss.coords (k • BabyJubJub.base : BabyJubJub.subgroup) =
      Tss.coords (k' • BabyJubJub.base : BabyJubJub.subgroup) → k = k' := fun h =>
    BabyJubJub.smul_base_injective (Subtype.ext (Tss.coords_injective h))
  obtain ⟨⟨hd, hdlt⟩, he, helt⟩ := hs.nonce_range
  obtain ⟨⟨hd', hdlt'⟩, he', helt'⟩ := hs'.nonce_range
  obtain ⟨⟨d, e⟩, id⟩ := s
  obtain ⟨⟨d', e'⟩, id'⟩ := s'
  obtain rfl : d = d' := Tss.eq_of_cast_eq hd hdlt hd' hdlt' (hscalar hD)
  obtain rfl : e = e' := Tss.eq_of_cast_eq he helt he' helt' (hscalar hE)
  obtain rfl : id = id' := hid
  rfl

/-- What a member makes in the first round. -/
theorem commit_eq_ok {id : ℤ} (hid : id ∈ x.group.members) {hidingRandom bindingRandom : List UInt8}
    {nonces : NonceHandle} {commitment : Commitment Point}
    (h : x.commit id hidingRandom bindingRandom = .ok (nonces, commitment)) :
    ∃ s, x.Member s ∧ s.id = id ∧ nonces = s.handle ∧ commitment = s.commitment x.cs := by
  rw [commit, Frost.commit] at h
  obtain ⟨d, hd, h⟩ := bind_eq_ok.1 h
  obtain ⟨e, he, h⟩ := bind_eq_ok.1 h
  rw [Except.ok.injEq, Prod.mk.injEq] at h
  exact ⟨⟨⟨d, e⟩, id⟩, ⟨hid, Tss.hashToScalar_range x.poseidon x.lawful hd, Tss.hashToScalar_range x.poseidon x.lawful he⟩,
    rfl, h.1.symm, h.2.symm⟩

variable (x) in
/-- The envelopes are the commitments of a quorum of members. -/
structure Reads (nonceEnvelopes : List NonceEnvelopePayload) (quorum : Quorum subOrder) : Prop where
  payloads : nonceEnvelopes = quorum.signers.map x.payload
  members : ∀ s ∈ quorum.signers, x.Member s

theorem Reads.commitments {nonceEnvelopes : List NonceEnvelopePayload} {quorum : Quorum subOrder}
    (h : x.Reads nonceEnvelopes quorum) : nonceEnvelopes.mapM toCommitment = .ok (quorum.commitments x.cs) := by
  rw [h.payloads, List.mapM_map]
  exact mapM_eq_ok fun s hs => (h.members s hs).toCommitment_payload

/-- The commitments are still those of a quorum when a member publishes. -/
theorem Reads.put {nonceEnvelopes : List NonceEnvelopePayload} {quorum : Quorum subOrder}
    (h : x.Reads nonceEnvelopes quorum) {s : Signer} (hs : x.Member s) :
    ∃ quorum', x.Reads (Keyed.put NonceEnvelopePayload.id nonceEnvelopes (x.payload s)) quorum' := by
  have htexts : ∀ l : List Signer, l.map (fun r => toText 10 r.id) = (l.map Signer.id).map (toText 10) := fun l => by
    rw [List.map_map]
    rfl
  have hnodup : (quorum.signers.map fun r => toText 10 r.id).Nodup := by
    rw [htexts]
    exact quorum.nodup.map toText_injective
  have hmembers : ∀ r ∈ Keyed.put (fun r : Signer => toText 10 r.id) quorum.signers s, x.Member r := by
    intro r hr
    rcases mem_put.1 hr with rfl | ⟨hr, -⟩
    · exact hs
    · exact h.members r hr
  have hnodup' : ((Keyed.put (fun r : Signer => toText 10 r.id) quorum.signers s).map Signer.id).Nodup := by
    have hput := nodup_put hnodup s
    rw [htexts] at hput
    exact hput.of_map _
  refine ⟨⟨_, hnodup', fun r hr => x.group.range r.id (hmembers r hr).mem, fun r hr => (hmembers r hr).nonce_range⟩,
    ?_, hmembers⟩
  rw [h.payloads]
  exact (map_put x.payload (fun _ => rfl) quorum.signers s).symm

/-! ## Whole runs -/

variable (x) in
/-- What is known of a run of a signer. -/
def RunSound (message : List UInt8) (log : List (Envelope Κ)) (id : ℤ) : Phase → Prop
  | .started => id ∈ x.group.members
  | .fetched m => m = message ∧ id ∈ x.group.members
  | .committed m nonces => m = message ∧ ∃ s, x.Member s ∧ s.id = id ∧ nonces = s.handle ∧
      x.payload s ∈ decodeNonces x.session x.proposalId log
  | .collected m nonces nonceEnvelopes => m = message ∧ ∃ s, x.Member s ∧ s.id = id ∧ nonces = s.handle ∧
      x.payload s ∈ nonceEnvelopes

variable (x) in
/-- What is known of a share in the log: its signer computed it from the commitments it is recorded over. -/
def ShareSound (message : List UInt8) (signedOver : ℤ → Option (List NonceEnvelopePayload))
    (p : ShareEnvelopePayload) : Prop :=
  ∃ s nonceEnvelopes z, x.Member s ∧ signedOver s.id = some nonceEnvelopes ∧ x.payload s ∈ nonceEnvelopes ∧
    x.zShare s.id message s.handle nonceEnvelopes = .ok z ∧ p = sharePayload x.proposalId s.id z

variable (x) in
/-- What is known of a state. -/
structure Sound (proposal : ProposalPayload Δ) (message : List UInt8) (σ : State Κ) : Prop where
  fetched : fetchProposal x.session σ.log x.proposalId = .ok proposal
  nonces : ∃ quorum, x.Reads (decodeNonces x.session x.proposalId σ.log) quorum
  runs : ∀ id phase, σ.runs id = some phase → x.RunSound message σ.log id phase
  shares : ∀ p ∈ decodeShares x.session x.proposalId σ.log, x.ShareSound message σ.signedOver p

variable {proposal : ProposalPayload Δ} {message : List UInt8}

/-- The entry of a signer changes when it publishes. -/
theorem decodeNonces_nonceEnvelope (log : List (Envelope Κ)) (random : ℕ) (c : Commitment Point) :
    decodeNonces x.session x.proposalId (log ++ [nonceEnvelope x.session random x.proposalId c]) =
      Keyed.put NonceEnvelopePayload.id (decodeNonces x.session x.proposalId log) (noncePayload x.proposalId c) := by
  rw [decodeNonces, decodeUnique_append, nonceOf_nonceEnvelope]
  rfl

theorem decodeNonces_other {log : List (Envelope Κ)} {e : Envelope Κ} (h : nonceOf x.session x.proposalId e = none) :
    decodeNonces x.session x.proposalId (log ++ [e]) = decodeNonces x.session x.proposalId log := by
  rw [decodeNonces, decodeUnique_append, h]
  rfl

theorem decodeShares_shareEnvelope (log : List (Envelope Κ)) (random : ℕ) (id z : ℤ) :
    decodeShares x.session x.proposalId (log ++ [shareEnvelope x.session random x.proposalId id z]) =
      Keyed.put ShareEnvelopePayload.id (decodeShares x.session x.proposalId log) (sharePayload x.proposalId id z) := by
  rw [decodeShares, decodeUnique_append, shareOf_shareEnvelope]
  rfl

theorem decodeShares_other {log : List (Envelope Κ)} {e : Envelope Κ} (h : shareOf x.session x.proposalId e = none) :
    decodeShares x.session x.proposalId (log ++ [e]) = decodeShares x.session x.proposalId log := by
  rw [decodeShares, decodeUnique_append, h]
  rfl

/-- A run is as sound with a log that has the same entries. -/
theorem RunSound.of_decodeNonces {log log' : List (Envelope Κ)} {id : ℤ} {phase : Phase}
    (h : x.RunSound message log id phase)
    (heq : decodeNonces x.session x.proposalId log' = decodeNonces x.session x.proposalId log) :
    x.RunSound message log' id phase := by
  cases phase with
  | started => exact h
  | fetched m => exact h
  | committed m nonces =>
    rw [RunSound, heq]
    exact h
  | collected m nonces nonceEnvelopes => exact h

/-- A run is as sound after another signer has published. -/
theorem RunSound.of_put {log : List (Envelope Κ)} {id : ℤ} {phase : Phase} (h : x.RunSound message log id phase)
    {s : Signer} (hne : id ≠ s.id) (random : ℕ) :
    x.RunSound message (log ++ [nonceEnvelope x.session random x.proposalId (s.commitment x.cs)]) id phase := by
  cases phase with
  | started => exact h
  | fetched m => exact h
  | committed m nonces =>
    obtain ⟨hm, r, hr, hid, hnonces, hmem⟩ := h
    refine ⟨hm, r, hr, hid, hnonces, ?_⟩
    rw [decodeNonces_nonceEnvelope, mem_put]
    refine Or.inr ⟨hmem, fun htext => hne ?_⟩
    rw [← hid]
    exact toText_injective htext
  | collected m nonces nonceEnvelopes => exact h

/-- The runs are sound after one has moved, if the log says the same to the others. -/
theorem runs_setRun {σ : State Κ} {log : List (Envelope Κ)} {id : ℤ} {phase : Option Phase}
    (hothers : ∀ id' phase', id' ≠ id → σ.runs id' = some phase' → x.RunSound message log id' phase')
    (hself : ∀ phase', phase = some phase' → x.RunSound message log id phase') :
    ∀ id' phase', (σ.setRun id phase).runs id' = some phase' → x.RunSound message log id' phase' := by
  intro id' phase' hrun
  rcases setRun_runs σ hrun with ⟨rfl, hphase⟩ | ⟨hne, hrun⟩
  · exact hself phase' hphase
  · exact hothers id' phase' hne hrun

/-- Every step keeps what is known. -/
theorem sound_step (hmessage : messageOf proposal = .ok message) {σ σ' : State Κ} {a : Act Κ}
    (h : x.Sound proposal message σ) (hstep : x.Steps σ a σ') : x.Sound proposal message σ' := by
  obtain ⟨hfetched, ⟨quorum, hnonces⟩, hruns, hshares⟩ := h
  have hothers : ∀ {id : ℤ} (id' : ℤ) (phase' : Phase), id' ≠ id → σ.runs id' = some phase' →
      x.RunSound message σ.log id' phase' := fun id' phase' _ => hruns id' phase'
  rcases step_cases hstep with ⟨id, rfl⟩ | ⟨id, hid, rfl⟩ | ⟨id, p, m, hrun, hp, hm, rfl⟩ |
    ⟨id, m, hidingRandom, bindingRandom, random, nonces, commitment, hrun, hcommit, rfl⟩ |
    ⟨id, m, nonces, hrun, hready, rfl⟩ | ⟨id, m, nonces, nonceEnvelopes, random, z, hrun, hz, rfl⟩ |
    ⟨e, hnonce, hshare, rfl⟩
  · -- a run stops
    exact ⟨hfetched, ⟨quorum, hnonces⟩, runs_setRun hothers fun _ h => absurd h (by simp), hshares⟩
  · refine ⟨hfetched, ⟨quorum, hnonces⟩, runs_setRun hothers fun _ h => ?_, hshares⟩
    cases h
    exact hid
  · refine ⟨hfetched, ⟨quorum, hnonces⟩, runs_setRun hothers fun _ h => ?_, hshares⟩
    cases h
    rw [hfetched, Except.ok.injEq] at hp
    rw [← hp, hmessage, Except.ok.injEq] at hm
    exact ⟨hm.symm, hruns id _ hrun⟩
  · -- a commitment is published: its signer's entry changes, the other runs keep theirs
    obtain ⟨hm, hid⟩ := hruns id _ hrun
    obtain ⟨s, hs, rfl, rfl, rfl⟩ := commit_eq_ok hid hcommit
    obtain ⟨quorum', hnonces'⟩ := hnonces.put hs
    refine ⟨fetchProposal_append hfetched _, ⟨quorum', ?_⟩, runs_setRun (fun id' phase' hne hrun' => ?_) fun _ h => ?_, ?_⟩
    · rw [decodeNonces_nonceEnvelope]
      exact hnonces'
    · exact (hruns id' phase' hrun').of_put hne random
    · cases h
      refine ⟨hm, s, hs, rfl, rfl, ?_⟩
      rw [decodeNonces_nonceEnvelope]
      exact mem_put.2 (Or.inl rfl)
    · intro p hp
      rw [decodeShares_other (shareOf_nonceEnvelope random x.proposalId _)] at hp
      exact hshares p hp
  · -- the commitments are collected, and the signer's own is still among them
    refine ⟨hfetched, ⟨quorum, hnonces⟩, runs_setRun hothers fun _ h => ?_, hshares⟩
    cases h
    obtain ⟨hm, hown⟩ := hruns id _ hrun
    exact ⟨hm, hown⟩
  · -- a share is posted: it is recorded over what was collected
    obtain ⟨rfl, s, hs, rfl, rfl, hmem⟩ := hruns id _ hrun
    have hsame : decodeNonces x.session x.proposalId (σ.log ++ [shareEnvelope x.session random x.proposalId s.id z]) =
        decodeNonces x.session x.proposalId σ.log := decodeNonces_other (nonceOf_shareEnvelope random x.proposalId s.id z)
    refine ⟨fetchProposal_append hfetched _, ⟨quorum, ?_⟩, runs_setRun (fun id' phase' hne hrun' => ?_) fun _ h => ?_, ?_⟩
    · rw [hsame]
      exact hnonces
    · exact (hruns id' phase' hrun').of_decodeNonces hsame
    · exact absurd h (by simp)
    · intro p hp
      rw [decodeShares_shareEnvelope, mem_put] at hp
      rcases hp with rfl | ⟨hp, hne⟩
      · exact ⟨s, nonceEnvelopes, z, hs, Function.update_self .., hmem, hz, rfl⟩
      · obtain ⟨r, nonceEnvelopes', z', hr, hover, hmem', hz', rfl⟩ := hshares p hp
        have hrs : r.id ≠ s.id := fun heq => hne (congrArg (toText 10) heq)
        exact ⟨r, nonceEnvelopes', z', hr, (Function.update_of_ne hrs ..).trans hover, hmem', hz', rfl⟩
  · refine ⟨fetchProposal_append hfetched _, ⟨quorum, ?_⟩, fun id phase hrun => ?_, fun p hp => ?_⟩
    · rw [decodeNonces_other hnonce]
      exact hnonces
    · exact (hruns id phase hrun).of_decodeNonces (decodeNonces_other hnonce)
    · rw [decodeShares_other hshare] at hp
      exact hshares p hp

/-- Nothing of the signers is in a log without their envelopes. -/
theorem decodeUnique_of_none {T : Type} {entryOf : Envelope Κ → Option T} {id : T → List Char}
    {log : List (Envelope Κ)} (h : ∀ e ∈ log, entryOf e = none) : decodeUnique entryOf id log = [] := by
  induction log using List.reverseRecOn with
  | nil => rfl
  | append_singleton log e ih =>
    rw [decodeUnique_append, h e (by simp)]
    exact ih fun e' he' => h e' (by simp [he'])

/-- What is known of every state that is reached. -/
theorem sound_of_run {log : List (Envelope Κ)} (hstart : x.Proposed log proposal message) {as : List (Act Κ)}
    {σ : State Κ} (h : Run x.Steps (start log) as σ) : x.Sound proposal message σ := by
  refine h.invariant (P := fun _ σ => x.Sound proposal message σ) ?_ fun _ _ _ _ _ hsound hstep =>
    sound_step hstart.message_eq hsound hstep
  refine ⟨hstart.fetched, ⟨⟨[], List.nodup_nil, by simp, by simp⟩, ?_, by simp⟩, ?_, ?_⟩
  · exact decodeUnique_of_none hstart.no_nonce
  · intro id phase hrun
    cases hrun
  · intro p hp
    have hnone : decodeShares x.session x.proposalId (start log).log = [] := decodeUnique_of_none hstart.no_share
    rw [hnone] at hp
    cases hp

/-! ## Aggregation -/

variable (x) in
/-- Every share that is counted was signed over the commitments that are read, and every signer of these
has posted one. -/
def Settled (nonceLog : List (Envelope Κ)) (σ : State Κ) : Prop :=
  (∀ p ∈ decodeShares x.session x.proposalId σ.log, ∃ id, p.id = toText 10 id ∧
    σ.signedOver id = some (decodeNonces x.session x.proposalId nonceLog)) ∧
  ∀ p ∈ decodeNonces x.session x.proposalId nonceLog, p.id ∈
    (decodeShares x.session x.proposalId σ.log).map ShareEnvelopePayload.id

/-- The shares are those of the quorum, in some order, computed over its commitments. -/
theorem exists_shares {σ : State Κ} {nonceLog : List (Envelope Κ)} {quorum : Quorum subOrder} {z : Signer → ℤ}
    (hsound : x.Sound proposal message σ) (hreads : x.Reads (decodeNonces x.session x.proposalId nonceLog) quorum)
    (hsettled : x.Settled nonceLog σ)
    (hz : ∀ s ∈ quorum.signers, Frost.signShareUnchecked x.cs s.id s.toNonces (x.group.share s.id) x.gpk message
      (quorum.commitments x.cs) = .ok (z s)) :
    ∃ signers : List Signer, signers.Perm quorum.signers ∧ decodeShares x.session x.proposalId σ.log =
      signers.map fun s => sharePayload x.proposalId s.id (z s) := by
  obtain ⟨hover, hposted⟩ := hsettled
  have hof : ∀ p ∈ decodeShares x.session x.proposalId σ.log, ∃ s ∈ quorum.signers,
      p = sharePayload x.proposalId s.id (z s) := by
    intro p hp
    obtain ⟨s, nonceEnvelopes, z', hs, hsigned, hmem, hz', rfl⟩ := hsound.shares p hp
    obtain ⟨id, hid, hsigned'⟩ := hover _ hp
    obtain rfl : s.id = id := toText_injective hid
    rw [hsigned, Option.some.injEq] at hsigned'
    rw [hsigned', hreads.payloads, List.mem_map] at hmem
    obtain ⟨r, hr, hpayload⟩ := hmem
    obtain rfl : r = s := (hreads.members r hr).eq_of_payload hs hpayload
    refine ⟨r, hr, ?_⟩
    rw [zShare, hsigned', bind_of_ok hreads.commitments] at hz'
    have hzr : (Except.ok (z r) : Except String ℤ) = .ok z' := (hz r hr).symm.trans hz'
    rw [Except.ok.inj hzr]
  have : Nonempty Signer := ⟨⟨⟨0, 0⟩, 0⟩⟩
  choose! signer hsigner hpayload using hof
  have hnodup : ((decodeShares x.session x.proposalId σ.log).map signer).Nodup := by
    refine List.Nodup.map_on (fun p hp p' hp' heq => ?_) ((nodup_decodeUnique _ _ _).of_map)
    rw [hpayload p hp, hpayload p' hp', heq]
  refine ⟨(decodeShares x.session x.proposalId σ.log).map signer, ?_, ?_⟩
  · rw [List.perm_ext_iff_of_nodup hnodup quorum.nodup.of_map]
    intro s
    rw [List.mem_map]
    constructor
    · rintro ⟨p, hp, rfl⟩
      exact hsigner p hp
    · intro hs
      have hmem : x.payload s ∈ decodeNonces x.session x.proposalId nonceLog := by
        rw [hreads.payloads]
        exact List.mem_map_of_mem hs
      obtain ⟨p, hp, hid⟩ := List.mem_map.1 (hposted _ hmem)
      refine ⟨p, hp, List.inj_on_of_nodup_map quorum.nodup (hsigner p hp) hs (toText_injective ?_)⟩
      have htext := congrArg ShareEnvelopePayload.id (hpayload p hp)
      exact htext.symm.trans hid
  · rw [List.map_map]
    exact (List.map_id _).symm.trans (List.map_congr_left hpayload)

/-- The public share of a member is found under its identifier. -/
theorem publicShares_toText {i : ℤ} (hi : i ∈ x.group.members) :
    x.publicShares (toText 10 i) = some (x.group.sharing.publicShare (bjjPrimeOrder x.poseidon x.lawful) i) := by
  rw [publicShares]
  cases hfind : x.group.members.find? fun j => toText 10 j = toText 10 i with
  | none => exact absurd (decide_eq_true rfl) (List.find?_eq_none.1 hfind i hi)
  | some j =>
    have hdecide := List.find?_some hfind
    rw [toText_injective (of_decide_eq_true hdecide)]
    rfl

/-- `aggregateProposal` on logs that have enough: what is left is to add up the shares. -/
theorem aggregateProposal_eq {proposalLog nonceLog shareLog : List (Envelope Κ)} {quorum : Quorum subOrder}
    {partials : List (Frost.Partial Point)} {rhos : ℤ → Option ℤ} {rho : ℤ → ℤ} {c : ℤ}
    (hfetched : fetchProposal x.session proposalLog x.proposalId = .ok proposal)
    (hmessage : messageOf proposal = .ok message) (hreads : x.Reads (decodeNonces x.session x.proposalId nonceLog) quorum)
    (hnonces : x.group.sharing.threshold ≤ (decodeNonces x.session x.proposalId nonceLog).length)
    (hshares : x.group.sharing.threshold ≤ (decodeShares x.session x.proposalId shareLog).length)
    (hpartials : (decodeShares x.session x.proposalId shareLog).mapM (toPartial x.publicShares) = .ok partials)
    (hashed : Frost.Hashed (bjjPrimeOrder x.poseidon x.lawful) quorum x.gpk message rhos rho c) :
    aggregateProposal x.session x.cs x.proposalId x.gpk x.group.sharing.threshold x.publicShares proposalLog nonceLog
      shareLog = (Frost.coordinatorAggregate x.cs ((bjjPrimeOrder x.poseidon x.lawful).encode
        (quorum.bound rho • BabyJubJub.base)) x.gpk message (quorum.commitments x.cs) partials
          x.group.sharing.threshold >>= fun signature => .ok ⟨signature, message, proposal⟩) := by
  have hcommitments : collectCommitments x.session x.proposalId x.group.sharing.threshold nonceLog =
      .ok (quorum.commitments x.cs) := by
    rw [collectCommitments, collectUntil, decide_eq_true hnonces, if_pos rfl]
    exact hreads.commitments
  have hcollected : collectUntil x.session x.session.maxRounds shareLog
      (decide (x.group.sharing.threshold ≤ (decodeShares x.session x.proposalId shareLog).length)) = .ok shareLog := by
    rw [collectUntil, decide_eq_true hshares, if_pos rfl]
  have hfactors : Frost.bindingFactors x.cs x.gpk message (quorum.commitments x.cs) = .ok rhos := hashed.factors
  have hgroup : Frost.groupCommitment x.cs (quorum.commitments x.cs) rhos =
      .ok ((bjjPrimeOrder x.poseidon x.lawful).encode (quorum.bound rho • BabyJubJub.base)) := hashed.commitment
  rw [aggregateProposal, bind_of_ok hfetched, bind_of_ok hmessage, bind_of_ok hcommitments, bind_of_ok hcollected,
    bind_of_ok hpartials, bind_of_ok hfactors, bind_of_ok hgroup]

/-- The share of a member is taken with its public share. -/
theorem toPartial_sharePayload {i : ℤ} (hi : i ∈ x.group.members) (z : ℤ) :
    toPartial x.publicShares (sharePayload x.proposalId i z) =
      .ok ⟨i, z, x.group.sharing.publicShare (bjjPrimeOrder x.poseidon x.lawful) i⟩ := by
  simp only [toPartial, sharePayload, publicShares_toText hi]
  rw [bind_of_ok (readBigInt_decimal _), bind_of_ok (readBigInt_decimal _)]

/-- The aggregator reads the proposal, then the commitments, then the shares, in logs of one run.  If the shares
were signed over the commitments that it reads, by all of their signers, and there are enough, it returns the
proposal and the signature of a quorum. -/
theorem aggregateProposal_holds {log : List (Envelope Κ)} (hstart : x.Proposed log proposal message)
    {as₀ as₁ as₂ : List (Act Κ)} {σ₀ σ₁ σ₂ : State Κ} (h₀ : Run x.Steps (start log) as₀ σ₀)
    (h₁ : Run x.Steps σ₀ as₁ σ₁) (h₂ : Run x.Steps σ₁ as₂ σ₂)
    (hshares : x.group.sharing.threshold ≤ (decodeShares x.session x.proposalId σ₂.log).length)
    (hsettled : x.Settled σ₁.log σ₂) : ∃ result quorum rhos rho c,
    aggregateProposal x.session x.cs x.proposalId x.gpk x.group.sharing.threshold x.publicShares σ₀.log σ₁.log σ₂.log =
      .ok result ∧ result.proposal = proposal ∧ result.message = message ∧
      Frost.Hashed (bjjPrimeOrder x.poseidon x.lawful) quorum x.gpk message rhos rho c ∧
      result.signature.Holds (bjjPrimeOrder x.poseidon x.lawful) (x.group.sharing.polynomial.eval 0) c
        (quorum.bound rho) := by
  have hsound₀ := sound_of_run hstart h₀
  have hsound₁ := sound_of_run hstart (h₀.append h₁)
  have hsound₂ := sound_of_run hstart ((h₀.append h₁).append h₂)
  obtain ⟨quorum, hreads⟩ := hsound₁.nonces
  obtain ⟨rhos, rho, c, hashed⟩ := Frost.exists_hashed (bjjPrimeOrder x.poseidon x.lawful) quorum
    (x.group.sharing.polynomial.eval 0 • BabyJubJub.base) message
  choose! z hz hrange hvalue using fun (s : Signer) hs =>
    Frost.signShareUnchecked_eq hashed (s := s) hs (x.group.share s.id)
  have hshare : ∀ s ∈ quorum.signers, ((x.group.share s.id : ℤ) : ZMod subOrder) =
      x.group.sharing.polynomial.eval (s.id : ZMod subOrder) := fun s hs =>
    x.group.share_eq s.id (hreads.members s hs).mem
  obtain ⟨signers, hperm, hdecoded⟩ := exists_shares hsound₂ hreads hsettled hz
  have hlength : x.group.sharing.threshold ≤ quorum.signers.length := by
    rw [hdecoded, List.length_map, hperm.length_eq] at hshares
    exact hshares
  have hnonces : x.group.sharing.threshold ≤ (decodeNonces x.session x.proposalId σ₁.log).length := by
    rw [hreads.payloads, List.length_map]
    exact hlength
  let part : Signer → Frost.Partial Point := fun s =>
    ⟨s.id, z s, x.group.sharing.publicShare (bjjPrimeOrder x.poseidon x.lawful) s.id⟩
  have hpartials : (decodeShares x.session x.proposalId σ₂.log).mapM (toPartial x.publicShares) = .ok (signers.map part) := by
    rw [hdecoded, List.mapM_map]
    refine mapM_eq_ok fun s hs => ?_
    exact toPartial_sharePayload (hreads.members s (hperm.mem_iff.1 hs)).mem (z s)
  have hids : ((signers.map part).map Frost.Partial.id).Nodup := by
    rw [List.map_map]
    exact ((hperm.map Signer.id).nodup_iff).2 quorum.nodup
  have hverified : ∀ p ∈ signers.map part, Frost.verifySignatureShare x.cs p.id p.z p.publicShare x.gpk message
      (quorum.commitments x.cs) = .ok true := by
    intro p hp
    obtain ⟨s, hs, rfl⟩ := List.mem_map.1 hp
    have hs' := hperm.mem_iff.1 hs
    refine Frost.verifySignatureShare_of_eq hashed hs' (hrange s hs') ?_
    rw [hvalue s hs', hshare s hs']
  have ht : x.group.sharing.threshold ≤ (signers.map part).length := by
    rw [List.length_map, hperm.length_eq]
    exact hlength
  let R : Point := (bjjPrimeOrder x.poseidon x.lawful).encode (quorum.bound rho • BabyJubJub.base)
  have haggregate := Frost.coordinatorAggregate_eq (R := R) hids ht hverified
  have hsum : Frost.aggregate x.cs R ((signers.map part).map Frost.Partial.z) =
      Frost.aggregate x.cs R (quorum.signers.map z) := by
    rw [List.map_map]
    exact Frost.aggregate_perm (bjjPrimeOrder x.poseidon x.lawful) R (hperm.map z)
  obtain ⟨hzrange, hzvalue⟩ := Frost.aggregate_range (bjjPrimeOrder x.poseidon x.lawful) R (quorum.signers.map z)
  rw [Frost.sum_of_shares hlength (fun s hs => by rw [hvalue s hs, hshare s hs])] at hzvalue
  refine ⟨⟨Frost.aggregate x.cs R (quorum.signers.map z), message, proposal⟩, quorum, rhos, rho, c, ?_, rfl, rfl, hashed,
    rfl, hzrange, hzvalue⟩
  rw [aggregateProposal_eq hsound₀.fetched hstart.message_eq hreads hnonces hshares hpartials hashed,
    bind_of_ok haggregate, hsum]

/-- So the signature is one under the key of the group. -/
theorem aggregateProposal_verifies {log : List (Envelope Κ)} (hstart : x.Proposed log proposal message)
    {as₀ as₁ as₂ : List (Act Κ)} {σ₀ σ₁ σ₂ : State Κ} (h₀ : Run x.Steps (start log) as₀ σ₀)
    (h₁ : Run x.Steps σ₀ as₁ σ₁) (h₂ : Run x.Steps σ₁ as₂ σ₂)
    (hshares : x.group.sharing.threshold ≤ (decodeShares x.session x.proposalId σ₂.log).length)
    (hsettled : x.Settled σ₁.log σ₂) : ∃ result,
    aggregateProposal x.session x.cs x.proposalId x.gpk x.group.sharing.threshold x.publicShares σ₀.log σ₁.log σ₂.log =
      .ok result ∧ result.proposal = proposal ∧ result.message = message ∧
      Frost.verify x.cs x.gpk message result.signature = .ok true := by
  obtain ⟨result, quorum, rhos, rho, c, hresult, hproposal, hmessage, hashed, hholds⟩ :=
    aggregateProposal_holds hstart h₀ h₁ h₂ hshares hsettled
  exact ⟨result, hresult, hproposal, hmessage,
    Frost.verify_of_holds hholds hashed.challenge_eq hashed.challenge_range⟩

/-! ## From the call to the share -/

/-- From the call to the commitment. -/
theorem run_publish {σ : State Κ} {id : ℤ} (hid : id ∈ x.group.members) (hidle : σ.runs id = none)
    (hfetched : fetchProposal x.session σ.log x.proposalId = .ok proposal) (hmessage : messageOf proposal = .ok message)
    {nonces : NonceHandle} {commitment : Commitment Point} {hidingRandom bindingRandom : List UInt8}
    (hcommit : x.commit id hidingRandom bindingRandom = .ok (nonces, commitment)) :
    Run x.Steps σ [.start id, .fetch id, .publish id hidingRandom bindingRandom 0]
      { σ.setRun id (some (.committed message nonces)) with
        log := σ.log ++ [nonceEnvelope x.session 0 x.proposalId commitment] } := by
  have hboth : (fetchProposal x.session σ.log x.proposalId >>= messageOf) = .ok message := by
    rw [bind_of_ok hfetched, hmessage]
  have hbegun : x.Steps σ (.start id) (σ.setRun id (some .started)) := if_pos ⟨hid, by simp [hidle]⟩
  have hread : x.Steps (σ.setRun id (some .started)) (.fetch id) (σ.setRun id (some (.fetched message))) := by
    simp [Steps, step, State.setRun, fetch, hboth]
  have hposted : x.publish (σ.setRun id (some (.fetched message))) id message hidingRandom bindingRandom 0 =
      { σ.setRun id (some (.committed message nonces)) with
        log := σ.log ++ [nonceEnvelope x.session 0 x.proposalId commitment] } := by
    rw [publish, hcommit]
    simp [posted, State.setRun]
  refine ((Run.single hbegun).snoc hread).snoc ?_
  rw [← hposted]
  simp [Steps, step, State.setRun]

/-- What is known of the state then. -/
theorem exists_published {σ : State Κ} {id : ℤ} (hid : id ∈ x.group.members) (hidle : σ.runs id = none)
    (hfetched : fetchProposal x.session σ.log x.proposalId = .ok proposal) (hmessage : messageOf proposal = .ok message)
    {nonces : NonceHandle} {commitment : Commitment Point} {hidingRandom bindingRandom : List UInt8}
    (hcommit : x.commit id hidingRandom bindingRandom = .ok (nonces, commitment)) :
    ∃ σ', Run x.Steps σ [.start id, .fetch id, .publish id hidingRandom bindingRandom 0] σ' ∧
      σ'.log = σ.log ++ [nonceEnvelope x.session 0 x.proposalId commitment] ∧
      σ'.runs = Function.update σ.runs id (some (.committed message nonces)) ∧ σ'.signedOver = σ.signedOver :=
  ⟨_, run_publish hid hidle hfetched hmessage hcommit, rfl, rfl, rfl⟩

/-- From there to the share. -/
theorem run_sign {σ : State Κ} {id : ℤ} {nonces : NonceHandle} (hrun : σ.runs id = some (.committed message nonces))
    (hready : x.group.sharing.threshold ≤ (decodeNonces x.session x.proposalId σ.log).length) {z : ℤ}
    (hz : x.zShare id message nonces (decodeNonces x.session x.proposalId σ.log) = .ok z) :
    Run x.Steps σ [.collect id, .sign id 0]
      { σ.setRun id none with
        log := σ.log ++ [shareEnvelope x.session 0 x.proposalId id z]
        signedOver := Function.update σ.signedOver id (some (decodeNonces x.session x.proposalId σ.log)) } := by
  refine Run.of_foldlM ?_
  simp [step, hrun, State.setRun, collect, collectUntil, hready, sign, hz]

/-- What is known of the state then. -/
theorem exists_signed {σ : State Κ} {id : ℤ} {nonces : NonceHandle} (hrun : σ.runs id = some (.committed message nonces))
    (hready : x.group.sharing.threshold ≤ (decodeNonces x.session x.proposalId σ.log).length) {z : ℤ}
    (hz : x.zShare id message nonces (decodeNonces x.session x.proposalId σ.log) = .ok z) :
    ∃ σ', Run x.Steps σ [.collect id, .sign id 0] σ' ∧
      σ'.log = σ.log ++ [shareEnvelope x.session 0 x.proposalId id z] ∧ σ'.runs = Function.update σ.runs id none ∧
      σ'.signedOver = Function.update σ.signedOver id (some (decodeNonces x.session x.proposalId σ.log)) :=
  ⟨_, run_sign hrun hready hz, rfl, rfl, rfl⟩

/-- On numbers of the field a member does make a commitment. -/
theorem exists_commit {id : ℤ} (hid : id ∈ x.group.members)
    (hshare : 0 ≤ x.group.share id ∧ x.group.share id < bn254ScalarFieldModulus)
    (hidingRandom bindingRandom : List UInt8) : ∃ s, x.Member s ∧ s.id = id ∧
      x.commit id hidingRandom bindingRandom = .ok (s.handle, s.commitment x.cs) := by
  have hnonce : ∀ random, ∃ k, (x.cs).nonceScalar random (x.group.share id) = .ok k := by
    intro random
    refine Tss.hashToScalar_isOk x.poseidon x.lib ?_
    simp only [List.forall_mem_cons]
    exact ⟨by norm_num [Frost.frostNonceDomain, bn254ScalarFieldModulus], Frost.decodeMessage_range random, hshare, by simp⟩
  obtain ⟨d, hd⟩ := hnonce hidingRandom
  obtain ⟨e, he⟩ := hnonce bindingRandom
  have hmade : ∃ made, x.commit id hidingRandom bindingRandom = .ok made := by
    rw [commit, Frost.commit, bind_of_ok hd, bind_of_ok he]
    exact ⟨_, rfl⟩
  obtain ⟨⟨nonces, commitment⟩, hcommit⟩ := hmade
  obtain ⟨s, hs, hsid, rfl, rfl⟩ := commit_eq_ok hid hcommit
  exact ⟨s, hs, hsid, hcommit⟩

/-- A member that reads the commitments of a quorum it is of makes its share. -/
theorem exists_zShare {nonceEnvelopes : List NonceEnvelopePayload} {quorum : Quorum subOrder}
    (hreads : x.Reads nonceEnvelopes quorum) {s : Signer} (hs : s ∈ quorum.signers) (message : List UInt8) :
    ∃ z, x.zShare s.id message s.handle nonceEnvelopes = .ok z := by
  obtain ⟨rhos, rho, c, hashed⟩ := Frost.exists_hashed (bjjPrimeOrder x.poseidon x.lawful) quorum
    (x.group.sharing.polynomial.eval 0 • BabyJubJub.base) message
  obtain ⟨z, hz, -, -⟩ := Frost.signShareUnchecked_eq hashed hs (x.group.share s.id)
  refine ⟨z, ?_⟩
  rw [zShare, bind_of_ok hreads.commitments]
  exact hz

/-- Two members, as a quorum. -/
def pairQuorum {s s' : Signer} (hs : x.Member s) (hs' : x.Member s') (hne : s.id ≠ s'.id) : Quorum subOrder :=
  ⟨[s, s'], by simpa using hne,
    List.forall_mem_cons.2 ⟨x.group.range s.id hs.mem, List.forall_mem_singleton.2 (x.group.range s'.id hs'.mem)⟩,
    List.forall_mem_cons.2 ⟨hs.nonce_range, List.forall_mem_singleton.2 hs'.nonce_range⟩⟩

theorem reads_pairQuorum {s s' : Signer} (hs : x.Member s) (hs' : x.Member s') (hne : s.id ≠ s'.id) :
    x.Reads [x.payload s, x.payload s'] (pairQuorum hs hs' hne) :=
  ⟨rfl, List.forall_mem_cons.2 ⟨hs, List.forall_mem_singleton.2 hs'⟩⟩

/-- One member, as a quorum. -/
def soloQuorum {s : Signer} (hs : x.Member s) : Quorum subOrder :=
  ⟨[s], List.nodup_singleton _, List.forall_mem_singleton.2 (x.group.range s.id hs.mem),
    List.forall_mem_singleton.2 hs.nonce_range⟩

variable (x) in
/-- What holds once a member has signed alone. -/
structure SignedAlone (log : List (Envelope Κ)) (message : List UInt8) (s : Signer) (z : ℤ) (σ : State Κ) : Prop where
  log_eq : σ.log = log ++ [nonceEnvelope x.session 0 x.proposalId (s.commitment x.cs)] ++
    [shareEnvelope x.session 0 x.proposalId s.id z]
  zShare : x.zShare s.id message s.handle [x.payload s] = .ok z
  nonces : decodeNonces x.session x.proposalId (log ++ [nonceEnvelope x.session 0 x.proposalId (s.commitment x.cs)]) =
    [x.payload s]
  nonces' : decodeNonces x.session x.proposalId σ.log = [x.payload s]
  shares : decodeShares x.session x.proposalId σ.log = [sharePayload x.proposalId s.id z]
  signedOver : σ.signedOver s.id = some [x.payload s]
  idle : ∀ id, σ.runs id = none

/-- A member of a group that needs one signer signs alone. -/
theorem exists_signedAlone (ht : x.group.sharing.threshold = 1) {s : Signer} (hs : x.Member s)
    (hcommit : x.commit s.id [] [] = .ok (s.handle, s.commitment x.cs)) {log : List (Envelope Κ)}
    (hstart : x.Proposed log proposal message) : ∃ as σ z rhos rho c, Run x.Steps (start log) as σ ∧
    x.SignedAlone log message s z σ ∧
    Frost.Hashed (bjjPrimeOrder x.poseidon x.lawful) (soloQuorum hs) x.gpk message rhos rho c ∧
    (0 ≤ z ∧ z < subOrder) ∧ (z : ZMod subOrder) = s.bound subOrder rho +
      c * (Interpolation.weight (Tss.residues subOrder [s.id]) (s.id : ZMod subOrder) * x.group.share s.id) := by
  obtain ⟨rhos, rho, c, hashed⟩ := Frost.exists_hashed (bjjPrimeOrder x.poseidon x.lawful) (soloQuorum hs)
    (x.group.sharing.polynomial.eval 0 • BabyJubJub.base) message
  obtain ⟨z, hz, hrange, hvalue⟩ := Frost.signShareUnchecked_eq hashed
    (List.mem_cons_self : s ∈ (soloQuorum hs).signers) (x.group.share s.id)
  have hpublished := run_publish (x := x) (σ := start log) hs.mem rfl hstart.fetched hstart.message_eq hcommit
  have hnonces : decodeNonces x.session x.proposalId
      (log ++ [nonceEnvelope x.session 0 x.proposalId (s.commitment x.cs)]) = [x.payload s] := by
    rw [decodeNonces_nonceEnvelope, decodeNonces, decodeUnique_of_none hstart.no_nonce]
    simp [put, payload]
  have hshares : decodeShares x.session x.proposalId
      (log ++ [nonceEnvelope x.session 0 x.proposalId (s.commitment x.cs)]) = [] := by
    rw [decodeShares_other (shareOf_nonceEnvelope 0 _ _)]
    exact decodeUnique_of_none hstart.no_share
  have hreads : x.Reads [x.payload s] (soloQuorum hs) := ⟨rfl, List.forall_mem_singleton.2 hs⟩
  have hzShare : x.zShare s.id message s.handle [x.payload s] = .ok z := by
    rw [zShare, bind_of_ok hreads.commitments]
    exact hz
  have hrun : ({ (start log).setRun s.id (some (.committed message s.handle)) with
      log := log ++ [nonceEnvelope x.session 0 x.proposalId (s.commitment x.cs)] } : State Κ).runs s.id =
        some (.committed message s.handle) := by
    simp [State.setRun]
  have hsigned := run_sign (x := x) hrun (z := z) (by rw [hnonces, ht]; exact le_rfl) (by rw [hnonces]; exact hzShare)
  refine ⟨_, _, z, rhos, rho, c, hpublished.append hsigned, ⟨rfl, hzShare, hnonces, ?_, ?_, ?_, ?_⟩, hashed, hrange, hvalue⟩
  · rw [decodeNonces_other (nonceOf_shareEnvelope 0 _ s.id z)]
    exact hnonces
  · rw [decodeShares_shareEnvelope, hshares]
    rfl
  · simp [hnonces]
  · intro id
    by_cases hid : id = s.id <;> simp [State.setRun, start, hid]

/-- What is signed alone is settled. -/
theorem SignedAlone.settled {log : List (Envelope Κ)} {s : Signer} {z : ℤ} {σ : State Κ}
    (h : x.SignedAlone log message s z σ) : x.Settled σ.log σ := by
  rw [Settled, h.nonces', h.shares]
  simp only [List.forall_mem_singleton]
  exact ⟨⟨s.id, rfl, h.signedOver⟩, by simp [sharePayload, payload, noncePayload, Signer.commitment]⟩

/-! ## Two members that sign together -/

/-- The first member publishes, crashes once the second has published too, and publishes again: the log has both
commitments, the second one of the first member in the place of its first. -/
theorem exists_publishedAgain {log : List (Envelope Κ)} (hstart : x.Proposed log proposal message)
    (hshare : ∀ id ∈ x.group.members, 0 ≤ x.group.share id ∧ x.group.share id < bn254ScalarFieldModulus) {i j : ℤ}
    (hi : i ∈ x.group.members) (hj : j ∈ x.group.members) (hne : i ≠ j) (random random' other : List UInt8) :
    ∃ σ₀ σ again second, Run x.Steps (start log) [.start i, .fetch i, .publish i random random 0] σ₀ ∧
      Run x.Steps σ₀ [.start j, .fetch j, .publish j other other 0, .crash i,
        .start i, .fetch i, .publish i random' random' 0] σ ∧
      x.Member again ∧ x.Member second ∧ again.id = i ∧ second.id = j ∧
      decodeNonces x.session x.proposalId σ.log = [x.payload again, x.payload second] ∧
      decodeShares x.session x.proposalId σ.log = [] ∧
      σ.runs i = some (.committed message again.handle) ∧ σ.runs j = some (.committed message second.handle) := by
  obtain ⟨first, -, hid₁, hcommit₁⟩ := exists_commit hi (hshare i hi) random random
  obtain ⟨second, hsecond, hid₂, hcommit₂⟩ := exists_commit hj (hshare j hj) other other
  obtain ⟨again, hagain, hid₃, hcommit₃⟩ := exists_commit hi (hshare i hi) random' random'
  obtain ⟨σ₀, hrun₀, hlog₀, hruns₀, -⟩ :=
    exists_published (σ := start log) hi rfl hstart.fetched hstart.message_eq hcommit₁
  have hlog₀ : σ₀.log = log ++ [nonceEnvelope x.session 0 x.proposalId (first.commitment x.cs)] := hlog₀
  obtain ⟨σ₁, hrun₁, hlog₁, hruns₁, -⟩ := exists_published (σ := σ₀) hj (by simp [hruns₀, start, hne.symm])
    (by rw [hlog₀]; exact fetchProposal_append hstart.fetched _) hstart.message_eq hcommit₂
  rw [hlog₀] at hlog₁
  have hcrash : x.Steps σ₁ (.crash i) (σ₁.setRun i none) := rfl
  have hfetched : fetchProposal x.session σ₁.log x.proposalId = .ok proposal := by
    rw [hlog₁]
    exact fetchProposal_append (fetchProposal_append hstart.fetched _) _
  obtain ⟨σ, hrun, hlog, hruns, -⟩ := exists_published (σ := σ₁.setRun i none) hi (by simp [State.setRun]) hfetched
    hstart.message_eq hcommit₃
  have hlog : σ.log = σ₁.log ++ [nonceEnvelope x.session 0 x.proposalId (again.commitment x.cs)] := hlog
  rw [hlog₁] at hlog
  refine ⟨σ₀, σ, again, second, hrun₀, (hrun₁.snoc hcrash).append hrun, hagain, hsecond, hid₃, hid₂, ?_, ?_, ?_, ?_⟩
  · rw [hlog, decodeNonces_nonceEnvelope, decodeNonces_nonceEnvelope, decodeNonces_nonceEnvelope, decodeNonces,
      decodeUnique_of_none hstart.no_nonce]
    simp [put, payload, noncePayload, Signer.commitment, hid₁, hid₂, hid₃, toText_injective.eq_iff, hne, hne.symm]
  · rw [hlog, decodeShares_other (shareOf_nonceEnvelope 0 _ _), decodeShares_other (shareOf_nonceEnvelope 0 _ _),
      decodeShares_other (shareOf_nonceEnvelope 0 _ _)]
    exact decodeUnique_of_none hstart.no_share
  · simp [hruns]
  · simp [hruns, State.setRun, hruns₁, hne.symm]

/-- Then both sign over what they read. -/
theorem exists_signedTogether {log : List (Envelope Κ)} (hstart : x.Proposed log proposal message)
    (ht : x.group.sharing.threshold ≤ 2)
    (hshare : ∀ id ∈ x.group.members, 0 ≤ x.group.share id ∧ x.group.share id < bn254ScalarFieldModulus) {i j : ℤ}
    (hi : i ∈ x.group.members) (hj : j ∈ x.group.members) (hne : i ≠ j) (random random' other : List UInt8) :
    ∃ σ₀ σ₁ σ₂, Run x.Steps (start log) [.start i, .fetch i, .publish i random random 0] σ₀ ∧
      Run x.Steps σ₀ ([.start j, .fetch j, .publish j other other 0, .crash i,
        .start i, .fetch i, .publish i random' random' 0] ++ [.collect j, .sign j 0]) σ₁ ∧
      Run x.Steps σ₁ [.collect i, .sign i 0] σ₂ ∧
      2 ≤ (decodeShares x.session x.proposalId σ₂.log).length ∧ x.Settled σ₁.log σ₂ := by
  obtain ⟨σ₀, σ, again, second, hrun₀, hrun, hagain, hsecond, rfl, rfl, hnonces, hnone, hfirst, hother⟩ :=
    exists_publishedAgain hstart hshare hi hj hne random random' other
  have hreads := reads_pairQuorum hagain hsecond hne
  obtain ⟨z, hz⟩ := exists_zShare hreads (s := again) List.mem_cons_self message
  obtain ⟨z', hz'⟩ := exists_zShare hreads (s := second) (List.mem_cons_of_mem _ List.mem_cons_self) message
  obtain ⟨σ₁, hrun₁, hlog₁, hruns₁, hover₁⟩ := exists_signed hother (by rw [hnonces]; exact ht) (by rw [hnonces]; exact hz')
  have hnonces₁ : decodeNonces x.session x.proposalId σ₁.log = [x.payload again, x.payload second] := by
    rw [hlog₁, decodeNonces_other (nonceOf_shareEnvelope 0 _ _ _), hnonces]
  have hfirst₁ : σ₁.runs again.id = some (.committed message again.handle) := by simp [hruns₁, hne, hfirst]
  obtain ⟨σ₂, hrun₂, hlog₂, -, hover₂⟩ :=
    exists_signed hfirst₁ (by rw [hnonces₁]; exact ht) (by rw [hnonces₁]; exact hz)
  have hshares : decodeShares x.session x.proposalId σ₂.log =
      [sharePayload x.proposalId second.id z', sharePayload x.proposalId again.id z] := by
    rw [hlog₂, decodeShares_shareEnvelope, hlog₁, decodeShares_shareEnvelope, hnone]
    simp [put, sharePayload, toText_injective.eq_iff, hne]
  refine ⟨σ₀, σ₁, σ₂, hrun₀, hrun.append hrun₁, hrun₂, ?_, ?_⟩
  · rw [hshares]
    exact le_rfl
  · rw [Settled, hshares, hnonces₁]
    constructor
    · simp only [List.forall_mem_cons]
      refine ⟨⟨second.id, rfl, ?_⟩, ⟨again.id, rfl, ?_⟩, by simp⟩
      · simp [hover₂, hover₁, hnonces, hne.symm]
      · simp [hover₂, hnonces₁]
    · simp [sharePayload, payload, noncePayload, Signer.commitment]

/-! ## Two groups of two -/

/-- A key one that two members hold, either of which can sign; the hash is one on what a challenge hashes. -/
noncomputable def sample : Signing (Payload Unit) Unit where
  poseidon inputs := if inputs.length = 6 then 1 else 0
  lib := Library.reference
  lawful := Library.reference_lawful
  session := ⟨[], 1, fun _ p => p, some, fun _ _ => rfl⟩
  proposalId := []
  group :=
    { sharing := Frost.soloSharing 1
      members := [1, 2]
      range := by simp [subOrder]
      share := fun _ => 1
      share_eq := by simp [Frost.soloSharing] }

/-- Its proposal. -/
def sampleProposal : ProposalPayload Unit := ⟨.transfer, [], ['1'], ()⟩

/-- Its log. -/
def sampleLog : List (Envelope (Payload Unit)) := [⟨.proposal, .proposal sampleProposal⟩]

theorem messageOf_sampleProposal : messageOf sampleProposal = .ok (Frost.encodeMessage 1) := by
  have hread : readBigInt sampleProposal.messageHex = .ok 1 := by
    have htext : sampleProposal.messageHex = toText 10 1 := by simp [sampleProposal, toText, numeral]
    rw [htext, readBigInt_decimal]
  exact bind_of_ok hread _

/-- The log has the proposal, and nothing of the signers. -/
theorem proposed_sampleLog {x : Signing (Payload Unit) Unit} (hsession : x.session = sample.session)
    (hid : x.proposalId = []) : x.Proposed sampleLog sampleProposal (Frost.encodeMessage 1) where
  fetched := by rw [fetchProposal_eq_ok_iff, hsession, hid]; rfl
  message_eq := messageOf_sampleProposal
  no_nonce := by simp [sampleLog, nonceOf]
  no_share := by simp [sampleLog, shareOf]

theorem sample_proposed : sample.Proposed sampleLog sampleProposal (Frost.encodeMessage 1) := proposed_sampleLog rfl rfl

/-- A hash that returns its sixth input, the message in a challenge, and the sum of what is shorter. -/
def sixthOrSum (inputs : List Fr) : Fr := inputs.getD 5 inputs.sum

/-- A key eleven that two members hold, and need both to sign. -/
noncomputable def pairSample : Signing (Payload Unit) Unit where
  poseidon := sixthOrSum
  lib := Library.reference
  lawful := Library.reference_lawful
  session := ⟨[], 1, fun _ p => p, some, fun _ _ => rfl⟩
  proposalId := []
  group :=
    { sharing := Frost.pairSharing 5 11
      members := [1, 2]
      range := by simp [subOrder]
      share := fun id => 5 * id + 11
      share_eq := by simp [Frost.pairSharing] }

theorem pairSample_proposed : pairSample.Proposed sampleLog sampleProposal (Frost.encodeMessage 1) :=
  proposed_sampleLog rfl rfl

/-- The challenge is the message. -/
theorem pairSample_challenge {R gpk : Point} {c : ℤ}
    (h : (pairSample.cs).challenge R gpk (Frost.encodeMessage 1) = .ok c) : c = 1 := by
  obtain ⟨full, hfull, h⟩ := bind_eq_ok.1 h
  have hrange := Tss.range_of_poseidon2 sixthOrSum hfull
  have hvalue := Except.ok.inj ((Tss.poseidon2_eq sixthOrSum hrange).symm.trans hfull)
  have hmessage : Frost.decodeMessage (Frost.encodeMessage 1) = 1 := by
    have hone := Frost.decodeMessage_encodeMessage 1
    rwa [show (1 : Fr).val = 1 from by decide +kernel] at hone
  have hsixth : sixthOrSum ([Frost.schnorrDomain, R.1, R.2, gpk.1, gpk.2, 1].map fun y : ℤ => (y : Fr)) = 1 := Int.cast_one
  rw [← Except.ok.inj h, ← hvalue, hmessage, hsixth]
  decide +kernel

/-- The first member begins, the second publishes, the first begins again, and both sign.  The aggregator reads
the proposal when the first has published, the commitments when the second has signed, and the shares at the end. -/
theorem aggregateProposal_verifies_sample : ∃ σ₀ σ₁ σ₂ result,
    Run pairSample.Steps (start sampleLog) [.start 1, .fetch 1, .publish 1 [1] [1] 0] σ₀ ∧
    Run pairSample.Steps σ₀ [.start 2, .fetch 2, .publish 2 [2] [2] 0, .crash 1,
      .start 1, .fetch 1, .publish 1 [3] [3] 0, .collect 2, .sign 2 0] σ₁ ∧
    Run pairSample.Steps σ₁ [.collect 1, .sign 1 0] σ₂ ∧
    aggregateProposal pairSample.session pairSample.cs pairSample.proposalId pairSample.gpk 2 pairSample.publicShares
      σ₀.log σ₁.log σ₂.log = .ok result ∧
    (pairSample.cs).challenge result.signature.R pairSample.gpk (Frost.encodeMessage 1) = .ok 1 ∧
    Frost.verify pairSample.cs pairSample.gpk (Frost.encodeMessage 1) result.signature = .ok true := by
  have hshare : ∀ id ∈ pairSample.group.members, 0 ≤ pairSample.group.share id ∧
      pairSample.group.share id < bn254ScalarFieldModulus := by
    simp [pairSample, bn254ScalarFieldModulus]
  obtain ⟨σ₀, σ₁, σ₂, h₀, h₁, h₂, hcount, hsettled⟩ := exists_signedTogether pairSample_proposed le_rfl hshare
    (i := 1) (j := 2) (by simp [pairSample]) (by simp [pairSample]) (by norm_num) [1] [3] [2]
  obtain ⟨result, hresult, -, -, hverified⟩ := aggregateProposal_verifies pairSample_proposed h₀ h₁ h₂ hcount hsettled
  obtain ⟨c, hc, -⟩ := bind_eq_ok.1 hverified
  obtain rfl := pairSample_challenge hc
  exact ⟨σ₀, σ₁, σ₂, result, h₀, h₁, h₂, hresult, hc, hverified⟩

/-- The nonces are zero. -/
theorem sample_nonceScalar : (sample.cs).nonceScalar [] 1 = .ok 0 := by
  have hhash : ∀ last : ℤ, 0 ≤ last ∧ last < bn254ScalarFieldModulus →
      Tss.poseidon2 sample.poseidon [Frost.frostNonceDomain, Frost.decodeMessage [], 1, last] = .ok 0 := by
    intro last hlast
    rw [Tss.poseidon2_eq]
    · simp [sample]
    · simp only [List.forall_mem_cons]
      exact ⟨by norm_num [Frost.frostNonceDomain, bn254ScalarFieldModulus], Frost.decodeMessage_range [],
        by norm_num [bn254ScalarFieldModulus], hlast, by simp⟩
  change Tss.hashToScalar sample.poseidon Library.reference Frost.frostNonceDomain [Frost.decodeMessage [], 1] = .ok 0
  rw [Tss.hashToScalar]
  simp only [List.cons_append, List.nil_append]
  rw [bind_of_ok (hhash 0 (by norm_num [bn254ScalarFieldModulus])), bind_of_ok (hhash 1 (by norm_num [bn254ScalarFieldModulus]))]
  rfl

/-- One of the members, with its nonces. -/
def sampleSigner (id : ℤ) : Signer := ⟨⟨0, 0⟩, id⟩

theorem sample_commit (id : ℤ) :
    sample.commit id [] [] = .ok ((sampleSigner id).handle, (sampleSigner id).commitment sample.cs) := by
  have hnonce : (sample.cs).nonceScalar [] (sample.group.share id) = .ok 0 := sample_nonceScalar
  rw [commit, Frost.commit, bind_of_ok hnonce, bind_of_ok hnonce]
  rfl

theorem sampleSigner_member {id : ℤ} (hid : id ∈ sample.group.members) : sample.Member (sampleSigner id) :=
  ⟨hid, by norm_num [sampleSigner, subOrder]⟩

/-- The challenge of the sample is one. -/
theorem sample_challenge {quorum : Quorum subOrder} {rhos : ℤ → Option ℤ} {rho : ℤ → ℤ} {c : ℤ}
    (h : Frost.Hashed (bjjPrimeOrder sample.poseidon sample.lawful) quorum sample.gpk message rhos rho c) : c = 1 := by
  have hchallenge := h.challenge_eq
  have heq := (Frost.challenge_eq sample.poseidon sample.lib _ _ message).symm.trans hchallenge
  rw [Except.ok.injEq] at heq
  have hone : ∀ a b c d e f : Fr, (sample.poseidon [a, b, c, d, e, f]).val = 1 := fun _ _ _ _ _ _ => rfl
  rw [← heq, hone]
  norm_num

/-- The first member signs alone. -/
theorem sample_signed : ∃ as σ z, Run sample.Steps (start sampleLog) as σ ∧
    decodeNonces sample.session sample.proposalId σ.log = [sample.payload (sampleSigner 1)] ∧
    decodeShares sample.session sample.proposalId σ.log = [sharePayload [] 1 z] ∧
    σ.signedOver 1 = some [sample.payload (sampleSigner 1)] ∧ σ.runs 2 = none ∧
    fetchProposal sample.session σ.log sample.proposalId = .ok sampleProposal ∧
    (0 ≤ z ∧ z < subOrder) ∧ (z : ZMod subOrder) = 1 := by
  have hmember : sample.Member (sampleSigner 1) := sampleSigner_member (by simp [sample])
  obtain ⟨as, σ, z, rhos, rho, c, hrun, hsigned, hashed, hrange, hvalue⟩ :=
    exists_signedAlone rfl hmember (sample_commit 1) sample_proposed
  rw [sample_challenge hashed] at hvalue
  refine ⟨as, σ, z, hrun, hsigned.nonces', hsigned.shares, hsigned.signedOver, hsigned.idle 2, ?_, hrange, ?_⟩
  · rw [hsigned.log_eq]
    exact fetchProposal_append (fetchProposal_append sample_proposed.fetched _) _
  · rw [hvalue]
    simp [sampleSigner, Signer.bound, Interpolation.weight, sample]

/-- The second member begins once the first has signed: its commitment is read as well, and the share of the
first, for which the aggregation was enough, is refused. -/
theorem late_signer_aborts : ∃ as σ e, Run sample.Steps (start sampleLog) as σ ∧
    1 ≤ (decodeShares sample.session sample.proposalId σ.log).length ∧
    aggregateProposal sample.session sample.cs sample.proposalId sample.gpk 1 sample.publicShares σ.log σ.log σ.log =
      .error e := by
  obtain ⟨as, σ, z, hrun, hnonces, hshares, -, hidle, hfetched, hrange, hvalue⟩ := sample_signed
  have hfirst : sample.Member (sampleSigner 1) := sampleSigner_member (by simp [sample])
  have hsecond : sample.Member (sampleSigner 2) := sampleSigner_member (by simp [sample])
  have hdistinct : (sampleSigner 1).id ≠ (sampleSigner 2).id := by norm_num [sampleSigner]
  let quorum : Quorum subOrder := pairQuorum hfirst hsecond hdistinct
  have hreads := reads_pairQuorum hfirst hsecond hdistinct
  obtain ⟨rhos, rho, c, hashed⟩ := Frost.exists_hashed (bjjPrimeOrder sample.poseidon sample.lawful) quorum
    (sample.group.sharing.polynomial.eval 0 • BabyJubJub.base) (Frost.encodeMessage 1)
  have hlate := run_publish (x := sample) hsecond.mem hidle hfetched sample_proposed.message_eq (sample_commit 2)
  have hnonces' : decodeNonces sample.session sample.proposalId (σ.log ++
      [nonceEnvelope sample.session 0 sample.proposalId ((sampleSigner 2).commitment sample.cs)]) =
        [sample.payload (sampleSigner 1), sample.payload (sampleSigner 2)] := by
    rw [decodeNonces_nonceEnvelope, hnonces]
    exact if_neg (by simp [payload, noncePayload, sampleSigner, Signer.commitment, toText_injective.eq_iff])
  have hshares' : decodeShares sample.session sample.proposalId (σ.log ++
      [nonceEnvelope sample.session 0 sample.proposalId ((sampleSigner 2).commitment sample.cs)]) =
        [sharePayload [] 1 z] := by
    rw [decodeShares_other (shareOf_nonceEnvelope 0 _ _), hshares]
  have hpartials : [sharePayload [] 1 z].mapM (toPartial sample.publicShares) = .ok [⟨1, z,
      sample.group.sharing.publicShare (bjjPrimeOrder sample.poseidon sample.lawful) 1⟩] := by
    have hpartial := toPartial_sharePayload hfirst.mem z
    exact bind_of_ok hpartial _
  -- the weight of the first member is two in the presence of the second, and its share was made for one
  obtain ⟨ok, hok, hiff⟩ := Frost.verifySignatureShare_iff hashed (List.mem_cons_self : sampleSigner 1 ∈ quorum.signers)
    hrange (sample.group.sharing.polynomial.eval 1)
  have hrefused : ok = false := by
    rw [Bool.eq_false_iff, ne_eq, hiff, hvalue, sample_challenge hashed]
    intro hequal
    have htwo := BabyJubJub.smul_base_injective hequal
    have hweight : Interpolation.weight (Tss.residues subOrder (quorum.signers.map Signer.id))
        ((sampleSigner 1).id : ZMod subOrder) = 2 := by
      have hne : (2 : ZMod subOrder) ≠ 1 := by decide +kernel
      simp [quorum, pairQuorum, sampleSigner, Interpolation.weight, Tss.residues, hne]
      norm_num
    rw [hweight] at htwo
    revert htwo
    simp [sampleSigner, Signer.bound, sample, Frost.soloSharing]
    decide +kernel
  rw [hrefused] at hok
  obtain ⟨e, he⟩ := Frost.coordinatorAggregate_error (R := (bjjPrimeOrder sample.poseidon sample.lawful).encode
    (quorum.bound rho • BabyJubJub.base)) (s := ⟨1, z,
      sample.group.sharing.publicShare (bjjPrimeOrder sample.poseidon sample.lawful) 1⟩) hok
  refine ⟨_, _, e, hrun.append hlate, ?_, ?_⟩
  · rw [hshares']
    exact le_rfl
  · have ht : sample.group.sharing.threshold = 1 := rfl
    rw [← ht]
    refine (aggregateProposal_eq (fetchProposal_append hfetched _) sample_proposed.message_eq (by rw [hnonces']; exact hreads)
      (by rw [hnonces']; simp [ht]) (by rw [hshares']; exact le_rfl) (by rw [hshares']; exact hpartials) hashed).trans ?_
    exact bind_of_error he _

end Signing

end Kakure.Proposal
