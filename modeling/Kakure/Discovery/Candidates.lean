import Kakure.Discovery.Types
import Kakure.Lib.Doubles
import Kakure.Lib.Fallible
import Kakure.Notes.Keys
import Kakure.Sdk.ComplianceKeys

/-!
# Candidates and authorizations of self mints

`types/ephemeral.ts`, where a derived candidate is marked and claimed once, and the part of
`discovery/preflight.ts` that turns a claimed candidate into a handle and a handle into a mint.  Objects
are numbers, the weak maps functions of them.  The claim and the copy that follows it read the properties of an
object again and again, and an object with accessors answers each read as it likes.

* `allocateOne_cases` — a turn claims an object that was not claimed, or nothing;
* `CandidateObject.Steady.derived` — what is copied is the candidate as it was derived, if the object answers alike;
* `consumeSelfMints_cases` — a consumption spends every handle it was given, or none.
-/

namespace Kakure.Discovery

open Notes Doubles Sdk Tss

/-! ## Provenance -/

/-- A property that should be a bigint. -/
inductive Property where
  | undefined
  | bigint (n : ℤ)
  | other
  deriving DecidableEq

/-- `optionalBigInt`. -/
def Property.optionalBigInt (key : String) : Property → Except String (Option ℤ)
  | undefined => .ok none
  | bigint n => .ok (some n)
  | other => .error ("self-mint candidate " ++ key ++ " must be a bigint")

/-- What an object answers to the reads of one turn of `#allocate`, the reads of a property counted from 0: `none`
where the type is another one.  Of the third number that is read for `index` only the sign matters; `memberId` and `j`
are read once. -/
structure CandidateObject where
  eph : ℕ → Option Fr
  ephPub : ℕ → Option (List (Option ℤ))
  tag : ℕ → Option Fr
  index : ℕ → Double
  indexBelowZero : Bool
  memberId : Property
  j : Property

/-- The copied scalar is the one that was compared, and so is the checked index. -/
def CandidateObject.Steady (c : CandidateObject) : Prop := c.eph 3 = c.eph 1 ∧ c.index 1 = c.index 0

/-- `SelfMintCandidate`. -/
structure SelfMintCandidate where
  eph : Fr
  ephPub : Tss.Point
  tag : Fr
  index : ℕ
  deriving DecidableEq

/-- `DerivedSelfMintProvenance`. -/
structure DerivedSelfMintProvenance where
  ownerCommitment : Fr
  eph : Fr
  ephPub : Tss.Point
  tag : Fr
  index : ℕ
  memberId : Option ℤ
  j : Option ℤ
  claimed : Bool

/-- `markDerivedSelfMintCandidate`, of a candidate as it is derived for an account. -/
def markDerivedSelfMintCandidate (candidate : SelfMintCandidate) (ownerCommitment : Fr) :
    DerivedSelfMintProvenance :=
  ⟨ownerCommitment, candidate.eph, candidate.ephPub, candidate.tag, candidate.index, none, none, false⟩

/-- A candidate as an object of data properties. -/
def SelfMintCandidate.object (candidate : SelfMintCandidate) : CandidateObject where
  eph _ := some candidate.eph
  ephPub _ := some [some candidate.ephPub.1, some candidate.ephPub.2]
  tag _ := some candidate.tag
  index _ := .int candidate.index
  indexBelowZero := false
  memberId := .undefined
  j := .undefined

@[simp] theorem SelfMintCandidate.steady_object (candidate : SelfMintCandidate) : candidate.object.Steady := ⟨rfl, rfl⟩

/-- `DerivedSelfMintClaim`. -/
inductive DerivedSelfMintClaim where
  | claimed
  | unknown
  | ownerMismatch
  | provenanceMismatch
  | alreadyClaimed
  deriving DecidableEq

/-- The values are those the object was derived with; a value of another type has no `toBigInt` and no coordinates. -/
def DerivedSelfMintProvenance.matches (p : DerivedSelfMintProvenance) (c : CandidateObject)
    (memberId j : Option ℤ) : Option Bool :=
  (c.eph 1).bind fun eph =>
    if eph ≠ p.eph then some false
    else (c.ephPub 1).bind fun first =>
      if first[0]? ≠ some (some p.ephPub.1) then some false
      else (c.ephPub 2).bind fun second =>
        if second[1]? ≠ some (some p.ephPub.2) then some false
        else (c.tag 1).map fun tag =>
          tag = p.tag && c.index 0 = .int p.index && memberId = p.memberId && j = p.j

/-- `claimDerivedSelfMintCandidate`, which claims the candidate if it says so, and throws a `TypeError` where it is
`none`.  The types are read first, then the values. -/
def claimDerivedSelfMintCandidate (provenance : Option DerivedSelfMintProvenance) (c : CandidateObject)
    (ownerCommitment : Fr) : Option DerivedSelfMintClaim :=
  match provenance with
  | none => some .unknown
  | some p =>
    if p.ownerCommitment ≠ ownerCommitment then some .ownerMismatch
    else if (c.eph 0).isNone || (c.tag 0).isNone || (c.ephPub 0).isNone then some .provenanceMismatch
    else
      match c.memberId.optionalBigInt "memberId", c.j.optionalBigInt "j" with
      | .ok memberId, .ok j =>
        match p.matches c memberId j with
        | none => none
        | some false => some .provenanceMismatch
        | some true => if p.claimed then some .alreadyClaimed else some .claimed
      | _, _ => some .provenanceMismatch

/-! ## Allocation -/

/-- `SelfMintPreflightFailure`. -/
inductive SelfMintPreflightFailure where
  | invalidCount
  | discoveryUnavailable
  | discoveryProtocol
  | candidateOwnerMismatch
  | candidateProvenanceMismatch
  | candidateAlreadyClaimed
  | candidatesExhausted
  deriving DecidableEq

/-- `SelfMintPreflightError`. -/
structure SelfMintPreflightError where
  reason : SelfMintPreflightFailure
  message : String

/-- The error for a claim that fails. -/
def DerivedSelfMintClaim.check : DerivedSelfMintClaim → Except SelfMintPreflightError Unit
  | claimed => .ok ()
  | unknown => .error ⟨.discoveryProtocol,
      "self-mint allocator returned a candidate without durable derivation provenance"⟩
  | ownerMismatch => .error ⟨.candidateOwnerMismatch,
      "self-mint candidate was derived for a different wallet or multisig owner"⟩
  | provenanceMismatch => .error ⟨.candidateProvenanceMismatch,
      "self-mint candidate fields changed after durable derivation"⟩
  | alreadyClaimed => .error ⟨.candidateAlreadyClaimed,
      "self-mint candidate was already claimed by another preflight"⟩

/-- `AuthorizedSelfMintCandidate`: its index is a number that was read once more. -/
structure AuthorizedSelfMintCandidate where
  eph : Fr
  ephPub : Tss.Point
  tag : Fr
  index : Double
  deriving DecidableEq

/-- A derived candidate as it is authorized. -/
def SelfMintCandidate.authorized (candidate : SelfMintCandidate) : AuthorizedSelfMintCandidate :=
  ⟨candidate.eph, candidate.ephPub, candidate.tag, .int candidate.index⟩

/-- How a turn of `#allocate` fails: `none` for a `TypeError`. -/
abbrev AllocationError := Option SelfMintPreflightError

def malformedFields : SelfMintPreflightError :=
  ⟨.discoveryProtocol, "self-mint allocator returned malformed derived candidate fields"⟩

def inconsistentFields : SelfMintPreflightError :=
  ⟨.discoveryProtocol, "self-mint allocator returned inconsistent scalar, public point, tag, or index fields"⟩

/-- An array of two bigints, as four reads of `ephPub` find it. -/
def CandidateObject.wellFormedPoint (c : CandidateObject) : Option Bool :=
  if (c.ephPub 3).isNone then some false
  else (c.ephPub 4).bind fun counted =>
    if counted.length ≠ 2 then some false
    else (c.ephPub 5).bind fun first =>
      if (first[0]?.join).isNone then some false
      else (c.ephPub 6).map fun second => (second[1]?.join).isSome

/-- The fields go with the point of the scalar. -/
def CandidateObject.consistent (c : CandidateObject) (ephPub : Tss.Point) : Option Bool :=
  (c.ephPub 7).bind fun first =>
    if first[0]? ≠ some (some ephPub.1) then some false
    else (c.ephPub 8).bind fun second =>
      if second[1]? ≠ some (some ephPub.2) then some false
      else (c.tag 3).map fun tag =>
        match c.index 1 with
        | .int index => tag = discoveryTag ephPub && isSafeInteger index && !c.indexBelowZero
        | _ => false

/-- What is copied of a claimed object, if its fields go together. -/
def CandidateObject.copy (lib : Library) (c : CandidateObject) :
    Except AllocationError AuthorizedSelfMintCandidate :=
  if (c.eph 2).isNone || (c.tag 2).isNone then .error (some malformedFields)
  else
    match c.wellFormedPoint with
    | none => .error none
    | some false => .error (some malformedFields)
    | some true =>
      match c.eph 3 with
      | none => .error none
      | some eph =>
        let ephPub := publicKey lib eph
        match c.consistent ephPub with
        | none => .error none
        | some false => .error (some inconsistentFields)
        | some true => .ok ⟨eph, ephPub, discoveryTag ephPub, c.index 3⟩

/-- One turn of the loop of `#allocate`: the candidate that is allocated, and the provenance after the
claim. -/
def allocateOne (lib : Library) (ownerCommitment : Fr) (provenance : Option DerivedSelfMintProvenance)
    (c : CandidateObject) :
    Except AllocationError AuthorizedSelfMintCandidate × Option DerivedSelfMintProvenance :=
  match claimDerivedSelfMintCandidate provenance c ownerCommitment with
  | none => (.error none, provenance)
  | some .claimed => (c.copy lib, provenance.map fun p => { p with claimed := true })
  | some claim => ((claim.check.mapError some).bind fun _ => c.copy lib, provenance)

theorem matches_eq_true {p : DerivedSelfMintProvenance} {c : CandidateObject} {memberId j : Option ℤ}
    (h : p.matches c memberId j = some true) : c.eph 1 = some p.eph ∧ c.index 0 = .int p.index := by
  unfold DerivedSelfMintProvenance.matches at h
  obtain ⟨eph, heph, h⟩ := Option.bind_eq_some_iff.1 h
  split at h
  · cases h
  · rename_i hsame
    obtain ⟨first, -, h⟩ := Option.bind_eq_some_iff.1 h
    split at h
    · cases h
    · obtain ⟨second, -, h⟩ := Option.bind_eq_some_iff.1 h
      split at h
      · cases h
      · obtain ⟨tag, -, h⟩ := Option.map_eq_some_iff.1 h
        simp only [Bool.and_eq_true, decide_eq_true_eq] at h
        exact ⟨by rw [heph, not_not.1 hsame], h.1.1.2⟩

theorem claimDerivedSelfMintCandidate_claimed {provenance : Option DerivedSelfMintProvenance} {c : CandidateObject}
    {ownerCommitment : Fr} (h : claimDerivedSelfMintCandidate provenance c ownerCommitment = some .claimed) :
    ∃ p, provenance = some p ∧ p.ownerCommitment = ownerCommitment ∧ c.eph 1 = some p.eph ∧
      c.index 0 = .int p.index ∧ p.claimed = false := by
  unfold claimDerivedSelfMintCandidate at h
  cases provenance with
  | none => cases h
  | some p =>
    dsimp only at h
    split at h
    · cases h
    · rename_i howner
      split at h
      · cases h
      · split at h
        · split at h
          · cases h
          · cases h
          · rename_i hmatches
            split at h
            · cases h
            · rename_i hclaimed
              obtain ⟨heph, hindex⟩ := matches_eq_true hmatches
              exact ⟨p, rfl, not_not.1 howner, heph, hindex, by simpa using hclaimed⟩
        · cases h

/-- Consistent fields have an index that was safe when it was checked. -/
theorem consistent_eq_true {c : CandidateObject} {ephPub : Tss.Point} (h : c.consistent ephPub = some true) :
    ∃ index, c.index 1 = .int index ∧ isSafeInteger index := by
  unfold CandidateObject.consistent at h
  obtain ⟨first, -, h⟩ := Option.bind_eq_some_iff.1 h
  split at h
  · cases h
  · obtain ⟨second, -, h⟩ := Option.bind_eq_some_iff.1 h
    split at h
    · cases h
    · obtain ⟨tag, -, h⟩ := Option.map_eq_some_iff.1 h
      split at h
      · rename_i index hindex
        simp only [Bool.and_eq_true, decide_eq_true_eq] at h
        exact ⟨index, hindex, h.1.2⟩
      · cases h

/-- What is copied: the scalar of the last read, its point, and an index that was safe when it was checked. -/
theorem copy_ok {lib : Library} {c : CandidateObject} {m : AuthorizedSelfMintCandidate} (h : c.copy lib = .ok m) :
    c.eph 3 = some m.eph ∧ ∃ index, c.index 1 = .int index ∧ isSafeInteger index := by
  unfold CandidateObject.copy at h
  split at h
  · cases h
  · split at h
    · cases h
    · cases h
    · split at h
      · cases h
      · rename_i eph heph
        dsimp only at h
        split at h
        · cases h
        · cases h
        · rename_i hconsistent
          cases h
          exact ⟨heph, consistent_eq_true hconsistent⟩

/-- What a turn does: nothing is claimed, or an object is that was not. -/
theorem allocateOne_cases {lib : Library} {ownerCommitment : Fr} {provenance : Option DerivedSelfMintProvenance}
    {c : CandidateObject} :
    (∃ e, allocateOne lib ownerCommitment provenance c = (.error e, provenance)) ∨
    ∃ p, provenance = some p ∧ p.claimed = false ∧ c.eph 1 = some p.eph ∧ c.index 0 = .int p.index ∧
      allocateOne lib ownerCommitment provenance c = (c.copy lib, some { p with claimed := true }) := by
  unfold allocateOne
  cases hclaim : claimDerivedSelfMintCandidate provenance c ownerCommitment with
  | none => exact Or.inl ⟨none, rfl⟩
  | some claim =>
    cases claim with
    | claimed =>
      obtain ⟨p, rfl, -, heph, hindex, hclaimed⟩ := claimDerivedSelfMintCandidate_claimed hclaim
      exact Or.inr ⟨p, rfl, hclaimed, heph, hindex, rfl⟩
    | unknown => exact Or.inl ⟨_, rfl⟩
    | ownerMismatch => exact Or.inl ⟨_, rfl⟩
    | provenanceMismatch => exact Or.inl ⟨_, rfl⟩
    | alreadyClaimed => exact Or.inl ⟨_, rfl⟩

/-- What is copied of an object that answers alike is the candidate as it was derived. -/
theorem CandidateObject.Steady.derived {lib : Library} {c : CandidateObject} (hc : c.Steady)
    {p : DerivedSelfMintProvenance} (heph : c.eph 1 = some p.eph) (hindex : c.index 0 = .int p.index)
    {m : AuthorizedSelfMintCandidate} (h : c.copy lib = .ok m) : m.eph = p.eph ∧ p.index < 2 ^ 53 := by
  obtain ⟨hcopied, checked, hchecked, hsafe⟩ := copy_ok h
  obtain ⟨hread, hnumber⟩ := hc
  constructor
  · exact Option.some.inj (hcopied.symm.trans (hread.trans heph))
  · have hsame : (checked : ℤ) = p.index := Double.int.inj (hchecked.symm.trans (hnumber.trans hindex))
    have := hsafe.2
    omega

/-! ## Authorizations -/

/-- `SelfMintContext`, as a preflight certifies it. -/
structure SelfMintContext where
  ownerCommitment : Fr
  compliancePk : BigPoint
  complianceVersion : ℤ
  complianceHistory : CompleteComplianceHistory
  chainId : ℤ
  poolAddress : String
  deploymentAnchor : ℤ

/-- A context a caller expects, `none` where a type is another one, or where the history is not one that
`completeComplianceHistory` made. -/
structure ExpectedContext where
  ownerCommitment : Option Fr
  compliancePk : Option BigPoint
  complianceVersion : Double
  complianceHistory : Option CompleteComplianceHistory
  chainId : Option ℤ
  poolAddress : Option String
  deploymentAnchor : Option ℤ

/-- `historyIdentity`, of a history that is complete. -/
def historyIdentity (history : CompleteComplianceHistory) : String :=
  "|".intercalate (history.ring.ordered.map fun epoch =>
    toString epoch.version ++ ":" ++ toString epoch.pk.1 ++ ":" ++ toString epoch.pk.2 ++ ":" ++
      (epoch.fromBlock.map toString).getD "")

/-- `AuthorizationState`; the number of the object it came from is kept for the proofs. -/
structure AuthorizationState where
  candidate : AuthorizedSelfMintCandidate
  context : SelfMintContext
  consumed : Bool
  source : ℕ

/-- Why a consumption fails: `SelfMintAuthorizationFailure`, or the history the caller expects. -/
inductive ConsumeError where
  | unknownAuthorization (message : String)
  | authorizationConsumed (message : String)
  | duplicateAuthorization (message : String)
  | contextMismatch (message : String)
  | compliance (e : ComplianceKeyError)

/-- `sameContext`. -/
def sameContext (certified : SelfMintContext) (expected : ExpectedContext) : Except ComplianceKeyError Bool :=
  match expected.ownerCommitment, expected.compliancePk, expected.chainId, expected.poolAddress,
    expected.deploymentAnchor with
  | some owner, some pk, some chainId, some poolAddress, some anchor =>
    if certified.ownerCommitment = owner ∧ certified.compliancePk = pk ∧
        Double.int certified.complianceVersion = expected.complianceVersion then
      match expected.complianceHistory with
      | none => .error ⟨.incompleteHistory, "compliance history was not created from the trusted genesis, " ++
          "contiguous rotations, and configured current key"⟩
      | some history =>
        .ok (historyIdentity certified.complianceHistory = historyIdentity history ∧
          certified.chainId = chainId ∧ certified.poolAddress = poolAddress.toLower ∧
            certified.deploymentAnchor = anchor : Bool)
    else .ok false
  | _, _, _, _, _ => .ok false

/-- One turn of the first loop of `consumeSelfMints`. -/
def authorizationOf (states : List AuthorizationState) (expected : ExpectedContext) (handle : ℕ) :
    Except ConsumeError AuthorizationState :=
  match states[handle]? with
  | none => .error (.unknownAuthorization "self-mint authorization is unknown or was copied from a real handle")
  | some state =>
    if state.consumed then
      .error (.authorizationConsumed "self-mint authorization was already consumed by an assembly")
    else
      match sameContext state.context expected with
      | .error e => .error (.compliance e)
      | .ok false => .error (.contextMismatch ("self-mint authorization context does not match the owner, " ++
          "compliance history, or pool deployment"))
      | .ok true => .ok state

/-- Two handles are for one candidate. -/
def sameCandidate : List AuthorizationState → Bool
  | [a, b] => a.candidate.eph = b.candidate.eph || a.candidate.tag = b.candidate.tag
  | _ => false

/-- Consumes handles. -/
def consumeAll (states : List AuthorizationState) (handles : List ℕ) : List AuthorizationState :=
  handles.foldl (fun states handle => states.modify handle fun state => { state with consumed := true }) states

/-- `consumeSelfMints`; a handle that was never issued is past the end of the states. -/
def consumeSelfMints (states : List AuthorizationState) (handles : List ℕ) (expected : ExpectedContext) :
    Except ConsumeError (List AuthorizedSelfMintCandidate) × List AuthorizationState :=
  if handles.length ≠ 1 ∧ handles.length ≠ 2 then
    (.error (.unknownAuthorization ("self-mint authorization consumption requires one or two handles, got " ++
      toString handles.length)), states)
  else if ¬ handles.Nodup then
    (.error (.duplicateAuthorization "duplicate self-mint authorization handle in one atomic consumption"), states)
  else
    match handles.mapM (authorizationOf states expected) with
    | .error e => (.error e, states)
    | .ok found =>
      if sameCandidate found then
        (.error (.duplicateAuthorization
          "distinct self-mint authorization handles resolve to the same candidate"), states)
      else (.ok (found.map AuthorizationState.candidate), consumeAll states handles)

theorem authorizationOf_ok {states : List AuthorizationState} {expected : ExpectedContext} {handle : ℕ}
    {state : AuthorizationState} (h : authorizationOf states expected handle = .ok state) :
    states[handle]? = some state ∧ state.consumed = false := by
  unfold authorizationOf at h
  split at h
  · cases h
  · rename_i found hfound
    split at h
    · cases h
    · rename_i hconsumed
      split at h
      · cases h
      · cases h
      · cases h
        exact ⟨hfound, by simpa using hconsumed⟩

/-- A consumption spends handles that are different, known and not spent, or it changes nothing. -/
theorem consumeSelfMints_cases (states : List AuthorizationState) (handles : List ℕ) (expected : ExpectedContext) :
    (∃ e, consumeSelfMints states handles expected = (.error e, states)) ∨
    ∃ found : List AuthorizationState, handles.Nodup ∧
      List.Forall₂ (fun handle state => states[handle]? = some state ∧ state.consumed = false) handles found ∧
      consumeSelfMints states handles expected =
        (.ok (found.map AuthorizationState.candidate), consumeAll states handles) := by
  unfold consumeSelfMints
  split
  · exact Or.inl ⟨_, rfl⟩
  · split
    · exact Or.inl ⟨_, rfl⟩
    · rename_i hnodup
      cases hfound : handles.mapM (authorizationOf states expected) with
      | error e => exact Or.inl ⟨e, rfl⟩
      | ok found =>
        dsimp only
        split
        · exact Or.inl ⟨_, rfl⟩
        · refine Or.inr ⟨found, not_not.1 hnodup, ?_, rfl⟩
          exact (Fallible.forall_of_mapM hfound).imp fun _ _ h => authorizationOf_ok h

end Kakure.Discovery
