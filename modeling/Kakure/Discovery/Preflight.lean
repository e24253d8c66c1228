import Kakure.Discovery.Candidates
import Kakure.Lib.Hex
import Kakure.Lib.Runs
import Kakure.Wallet.CounterStore
import Kakure.Wallet.KeyRepository

/-!
# The self-mint preflight

`SelfMintPreflight` of `discovery/preflight.ts`: any number of instances, each with its ready queue and its
takes one behind the other, over the candidates of one repository on one counter store.  A step is what
runs between two awaits.

* `inventory` — the candidates that are in flight, ready or authorized;
* `SelfMintAct.step_sound` — a step takes candidates out of the inventory, or puts in one it has claimed;
* `used_once` — so every candidate is authorized, and every handle spent, at most once;
* `single_use` — no two spent handles carry one scalar, if the objects answer alike when they are copied;
* `single_use_fails` — an object that does not has its handle issued for the scalar of another;
* `evenY_of_authorized` — the scalars of the handles have points with a tag.
-/

namespace Kakure.Discovery

open Notes Doubles Fallible Hex Sdk Tss Wallet Runs

/-! ## What discovery answers -/

/-- A record as it comes: `none` where a field has another type. -/
inductive RawRecord where
  | null
  | notObject
  | object (record : Option HowlNoteRecord)

/-- An entry as it comes: a tag may be of another type. -/
inductive RawEntry where
  | notObject
  | object (tag : Option Fr) (record : RawRecord) (occurrenceCount : Double)

/-- The answer to `probeFirst`. -/
inductive RawResponse where
  | failed
  | notArray
  | array (entries : List RawEntry)

def protocolError (message : String) : SelfMintPreflightError := ⟨.discoveryProtocol, message⟩

/-- A record has the layout of a Howl cell. -/
def HowlNoteRecord.WellFormed (r : HowlNoteRecord) : Prop :=
  r.layoutVersion = howlNoteLayoutVersion ∧ r.leafIndex ≤ 0xffffffff ∧
    r.commitmentPrefix.length = commitmentPrefixBytes ∧ r.ciphertextKept.length = ciphertextKeptIndices.length

instance (r : HowlNoteRecord) : Decidable r.WellFormed := inferInstanceAs (Decidable (_ ∧ _))

/-- `validatedRecord`. -/
def validatedRecord : RawRecord → Except SelfMintPreflightError HowlNoteRecord
  | .null => .error (protocolError
      "self-mint discovery returned a null record instead of a padded Howl cell")
  | .notObject => .error (protocolError "self-mint discovery record is not an object")
  | .object none => .error (protocolError "self-mint discovery returned a malformed Howl note record")
  | .object (some record) =>
    if record.WellFormed then .ok record
    else .error (protocolError "self-mint discovery returned a malformed Howl note record")

/-- One turn of the loop over the entries. -/
def validatedEntry (requested : List Fr) (returned : List FirstOccurrence) :
    RawEntry → Except SelfMintPreflightError (List FirstOccurrence)
  | .notObject => .error (protocolError "self-mint discovery returned a non-object entry")
  | .object (some tag) record (.int occurrenceCount) =>
    if ¬ isSafeInteger occurrenceCount ∨ occurrenceCount < 0 then
      .error (protocolError "self-mint discovery returned a malformed entry")
    else if tag ∉ requested ∨ tag ∈ returned.map FirstOccurrence.tag then
      .error (protocolError ("self-mint discovery returned an unknown or duplicate tag " ++ toHex tag.toBytes.val))
    else (validatedRecord record).map fun r => returned ++ [⟨tag, some r, occurrenceCount⟩]
  | .object _ _ _ => .error (protocolError "self-mint discovery returned a malformed entry")

/-- The first part of `#classify`: what is returned for the tags of the candidates. -/
def validatedResponse (tags : List Fr) : RawResponse → Except SelfMintPreflightError (List FirstOccurrence)
  | .failed => .error ⟨.discoveryUnavailable, "self-mint preflight could not query discovery for " ++
      toString tags.length ++ " candidate tags"⟩
  | .notArray => .error (protocolError "self-mint discovery response is not an array")
  | .array entries =>
    if entries.length ≠ tags.length then
      .error (protocolError ("self-mint discovery returned " ++ toString entries.length ++ " rows for " ++
        toString tags.length ++ " candidate tags"))
    else if ¬ tags.Nodup then
      .error (protocolError "self-mint allocator returned duplicate candidate tags in one batch")
    else entries.foldlM (validatedEntry tags) []

/-! ## Instances -/

/-- `PREFLIGHT_COLLISION_BATCH_SIZE`. -/
def preflightCollisionBatchSize : ℕ := 5

/-- `MAX_PREFLIGHT_CANDIDATES`. -/
def maxPreflightCandidates : ℕ := 256

/-- A frozen candidate, with the number of the object it came from. -/
structure Frozen where
  candidate : AuthorizedSelfMintCandidate
  source : ℕ

/-- Where a take is: in `#allocate`, waiting for `probeFirst`, or in the loop that opens records. -/
inductive Phase where
  | allocating (want : ℕ) (allocated : List Frozen)
  | probing (batch : List Frozen)
  | opening (left : List Frozen) (returned : List FirstOccurrence)

/-- A take that runs. -/
structure Take where
  count : ℕ
  tested : ℕ
  phase : Phase

/-- `SelfMintPreflight`: the takes that wait are behind the tail. -/
structure Preflight where
  context : SelfMintContext
  ready : List Frozen
  waiting : List ℤ
  running : Option Take

/-- `issueAuthorization`. -/
def issueAuthorization (context : SelfMintContext) (f : Frozen) : AuthorizationState :=
  ⟨f.candidate, context, false, f.source⟩

namespace Preflight

/-- A take is rejected. -/
def reject (p : Preflight) : Preflight := { p with running := none }

/-- The condition of the loop of `#take`, and what follows it. -/
def settle (p : Preflight) (count tested : ℕ) : Preflight × List AuthorizationState :=
  if count ≤ p.ready.length then
    ({ p with ready := p.ready.drop count, running := none }, (p.ready.take count).map (issueAuthorization p.context))
  else if maxPreflightCandidates - tested = 0 then (p.reject, [])
  else
    ({ p with running := some ⟨count, tested,
        .allocating (min preflightCollisionBatchSize (maxPreflightCandidates - tested)) []⟩ }, [])

/-- The take at the tail starts. -/
def start (p : Preflight) : Preflight × List AuthorizationState :=
  match p.running, p.waiting with
  | none, count :: waiting =>
    let p := { p with waiting := waiting }
    if count ≠ 1 ∧ count ≠ 2 then (p, [])
    else if p.ready.length < count.toNat then
      ({ p with running := some ⟨count.toNat, 0, .allocating (count.toNat - p.ready.length) []⟩ }, [])
    else p.settle count.toNat 0
  | _, _ => (p, [])

/-- An allocated candidate joins its batch, which is probed once it is full. -/
def allocated (p : Preflight) (t : Take) (want : ℕ) (batch : List Frozen) : Preflight :=
  if batch.length < want then { p with running := some { t with phase := .allocating want batch } }
  else { p with running := some { t with tested := t.tested + batch.length, phase := .probing batch } }

/-- The answer of `probeFirst`. -/
def probed (p : Preflight) (response : RawResponse) : Preflight × List AuthorizationState :=
  match p.running with
  | some ⟨count, tested, .probing batch⟩ =>
    match validatedResponse (batch.map fun f => f.candidate.tag) response with
    | .error _ => (p.reject, [])
    | .ok returned =>
      if batch = [] then p.settle count tested
      else ({ p with running := some ⟨count, tested, .opening batch returned⟩ }, [])
  | _ => (p, [])

/-- A record that does not open makes its candidate ready. -/
def opened (opens : SelfMintContext → AuthorizedSelfMintCandidate → Option HowlNoteRecord → Bool) (p : Preflight) :
    Preflight × List AuthorizationState :=
  match p.running with
  | some ⟨count, tested, .opening (f :: left) returned⟩ =>
    match returned.find? fun entry => entry.tag = f.candidate.tag with
    | none => (p.reject, [])
    | some entry =>
      let ready := if opens p.context f.candidate entry.record then p.ready else p.ready ++ [f]
      if left = [] then ({ p with ready := ready }).settle count tested
      else ({ p with ready := ready, running := some ⟨count, tested, .opening left returned⟩ }, [])
  | _ => (p, [])

/-- The candidates of a take that runs. -/
def inFlight (p : Preflight) : List Frozen :=
  match p.running with
  | none => []
  | some ⟨_, _, .allocating _ batch⟩ => batch
  | some ⟨_, _, .probing batch⟩ => batch
  | some ⟨_, _, .opening left _⟩ => left

/-- The candidates an instance holds. -/
def held (p : Preflight) : Multiset Frozen := (p.ready : Multiset Frozen) + (p.inFlight : Multiset Frozen)

end Preflight

/-! ## Steps -/

/-- What runs side by side: a counter store, the objects a repository derived, the instances, and the
handles, of which those that were spent are kept for the proofs. -/
structure SelfMints where
  store : CounterStore
  objects : ℕ → CandidateObject
  provenance : ℕ → Option DerivedSelfMintProvenance
  preflights : List Preflight
  authorizations : List AuthorizationState
  spent : List ℕ

/-- A store, and nothing derived from it. -/
def SelfMints.start (store : CounterStore) (objects : ℕ → CandidateObject) : SelfMints :=
  ⟨store, objects, fun _ => none, [], [], []⟩

/-- One step: another user of the store reserves, the durable write of the next reservation is going to
fail, a reservation of `nextSelfEphemeral`, an object changes or goes on to other answers, an instance is made, a
take is asked for, starts, is answered by its allocator or by discovery, or opens a record, or an assembly consumes
handles. -/
inductive SelfMintAct where
  | reserve (scope : String) (span : Double)
  | failNextWrite
  | derive (object : ℕ)
  | tamper (object : ℕ) (c : CandidateObject)
  | preflight (context : SelfMintContext)
  | take (i : ℕ) (count : ℤ)
  | start (i : ℕ)
  | next (i : ℕ) (answer : Option ℕ)
  | probe (i : ℕ) (response : RawResponse)
  | openRecord (i : ℕ)
  | consume (handles : List ℕ) (expected : ExpectedContext)

/-- `SELF_EPH_SCOPE`. -/
def selfEphScope : String := "self"

namespace SelfMints

variable (lib : Library) (account : Wallet.Account) (owner : Fr)
  (opens : SelfMintContext → AuthorizedSelfMintCandidate → Option HowlNoteRecord → Bool)

/-- The candidate of an index. -/
def candidateAt (index : ℕ) : SelfMintCandidate :=
  let eph := account.getSelfEphemeral index
  ⟨eph, publicKey lib eph, discoveryTag (publicKey lib eph), index⟩

/-- What a reservation of `nextSelfEphemeral` leads to: nothing if it fails, has no scalar or an odd point,
else a new object that is marked. -/
def derived (s : SelfMints) (object : ℕ) : Except String EphemeralReservation → SelfMints
  | .error _ => s
  | .ok r =>
    match r.base, r.commit r.base with
    | .int index, .ok () =>
      if 0 ≤ index ∧ isEvenY (publicKey lib (account.getSelfEphemeral index.toNat)) = true then
        let candidate := candidateAt lib account index.toNat
        { s with
          objects := Function.update s.objects object candidate.object
          provenance := Function.update s.provenance object (some (markDerivedSelfMintCandidate candidate owner)) }
      else s
    | _, _ => s

/-- A reservation of `nextSelfEphemeral`; the object it may make is a new one. -/
def derive (s : SelfMints) (object : ℕ) : SelfMints :=
  if (s.provenance object).isSome then s
  else
    let reserved := s.store.reserve selfEphScope (.int 1)
    ({ s with store := reserved.2 }).derived lib account owner object reserved.1

/-- A step of one instance. -/
def update (s : SelfMints) (i : ℕ) (f : Preflight → Preflight × List AuthorizationState) : SelfMints :=
  match s.preflights[i]? with
  | none => s
  | some p => { s with preflights := s.preflights.set i (f p).1, authorizations := s.authorizations ++ (f p).2 }

/-- The answer of the allocator in the loop of `#allocate`. -/
def answered (s : SelfMints) (i : ℕ) (p : Preflight) (answer : Option ℕ) : SelfMints :=
  match p.running, answer with
  | some ⟨_, _, .allocating _ _⟩, none => { s with preflights := s.preflights.set i p.reject }
  | some ⟨count, tested, .allocating want batch⟩, some object =>
    match allocateOne lib p.context.ownerCommitment (s.provenance object) (s.objects object) with
    | (.error _, provenance) =>
      { s with
        provenance := Function.update s.provenance object provenance
        preflights := s.preflights.set i p.reject }
    | (.ok candidate, provenance) =>
      { s with
        provenance := Function.update s.provenance object provenance
        preflights := s.preflights.set i
          (p.allocated ⟨count, tested, .allocating want batch⟩ want (batch ++ [⟨candidate, object⟩])) }
  | _, _ => s

/-- `consumeSelfMints`, whose handles are spent if it returns. -/
def consume (s : SelfMints) (handles : List ℕ) (expected : ExpectedContext) : SelfMints :=
  match consumeSelfMints s.authorizations handles expected with
  | (.error _, authorizations) => { s with authorizations := authorizations }
  | (.ok _, authorizations) => { s with authorizations := authorizations, spent := s.spent ++ handles }

def act (s : SelfMints) : SelfMintAct → SelfMints
  | .reserve scope span => { s with store := (s.store.reserve scope span).2 }
  | .failNextWrite => { s with store := { s.store with failNextWrite := true } }
  | .derive object => s.derive lib account owner object
  | .tamper object c => { s with objects := Function.update s.objects object c }
  | .preflight context => { s with preflights := s.preflights ++ [⟨context, [], [], none⟩] }
  | .take i count => s.update i fun p => ({ p with waiting := p.waiting ++ [count] }, [])
  | .start i => s.update i Preflight.start
  | .next i answer =>
    match s.preflights[i]? with
    | none => s
    | some p => s.answered lib i p answer
  | .probe i response => s.update i fun p => p.probed response
  | .openRecord i => s.update i (Preflight.opened opens)
  | .consume handles expected => s.consume handles expected

end SelfMints

/-! ## The inventory -/

/-- A handle as the candidate it is for. -/
def AuthorizationState.frozen (a : AuthorizationState) : Frozen := ⟨a.candidate, a.source⟩

/-- The candidates that are in flight or ready at some instance, or authorized. -/
def SelfMints.inventory (s : SelfMints) : Multiset Frozen :=
  (s.preflights.map Preflight.held).sum + (s.authorizations.map AuthorizationState.frozen : Multiset Frozen)

/-- A candidate of an object that is claimed by now, which is as it was derived if the objects are steady. -/
def SelfMints.Genuine (steady : Prop) (s : SelfMints) (f : Frozen) : Prop :=
  ∃ p, s.provenance f.source = some p ∧ p.claimed = true ∧
    (steady → f.candidate.eph = p.eph ∧ p.index < 2 ^ 53)

/-- An index is below the mark of the store. -/
def BelowMark (store : CounterStore) (index : ℕ) : Prop := ∀ m, store.mark selfEphScope = .int m → (index : ℤ) < m

/-- Every candidate is in the inventory once, every index below `2 ^ 53` was derived once, and every
handle was spent once.  Whether the objects have been steady is a parameter: nothing else depends on it. -/
structure SelfMints.Sound (steady : Prop) (account : Wallet.Account) (s : SelfMints) : Prop where
  unique : (s.inventory.map Frozen.source).Nodup
  genuine : ∀ f ∈ s.inventory, s.Genuine steady f
  derived : ∀ id p, s.provenance id = some p → p.eph = account.getSelfEphemeral p.index
  indices : ∀ id id' p p', s.provenance id = some p → s.provenance id' = some p' → p.index = p'.index →
    p.index < 2 ^ 53 → id = id'
  below : ∀ id p, s.provenance id = some p → p.index < 2 ^ 53 → BelowMark s.store p.index
  spent : s.spent.Nodup
  consumed : ∀ h ∈ s.spent, ∃ a, s.authorizations[h]? = some a ∧ a.consumed = true

/-! ## Steps of an instance -/

namespace Preflight

variable {p : Preflight} {opens : SelfMintContext → AuthorizedSelfMintCandidate → Option HowlNoteRecord → Bool}

theorem held_def (p : Preflight) : p.held = (p.ready : Multiset Frozen) + (p.inFlight : Multiset Frozen) := rfl

/-- What an instance holds and hands out, after a step. -/
def outcome (r : Preflight × List AuthorizationState) : Multiset Frozen :=
  r.1.held + (r.2.map AuthorizationState.frozen : Multiset Frozen)

theorem ready_le_held (p : Preflight) : (p.ready : Multiset Frozen) ≤ p.held := Multiset.le_add_right _ _

/-- An instance with nothing in flight that has handed out nothing. -/
theorem outcome_of_empty (h : p.inFlight = []) : outcome (p, []) = (p.ready : Multiset Frozen) := by
  rw [outcome, held_def, h, List.map_nil, Multiset.coe_nil, add_zero, add_zero]

theorem held_reject_le : p.reject.held ≤ p.held := by
  unfold held
  exact add_le_add le_rfl (Multiset.zero_le _)

@[simp] theorem frozen_issueAuthorization (context : SelfMintContext) (f : Frozen) :
    (issueAuthorization context f).frozen = f := rfl

theorem map_frozen_issue (context : SelfMintContext) (fs : List Frozen) :
    (fs.map (issueAuthorization context)).map AuthorizationState.frozen = fs := by
  rw [List.map_map]
  exact List.map_id' fs

/-- At the condition of its loop, a take has nothing in flight. -/
theorem outcome_settle_le (p : Preflight) (count tested : ℕ) :
    outcome (p.settle count tested) ≤ (p.ready : Multiset Frozen) := by
  unfold settle
  split
  · rw [outcome]
    dsimp only
    rw [map_frozen_issue, held_def, inFlight]
    refine le_of_eq ?_
    rw [Multiset.coe_nil, add_zero, add_comm, Multiset.coe_add, List.take_append_drop]
  · split
    · exact le_of_eq (outcome_of_empty rfl)
    · exact le_of_eq (outcome_of_empty rfl)

theorem outcome_start_le (p : Preflight) : outcome p.start ≤ p.held := by
  unfold start
  split
  · rename_i hrunning hwaiting
    dsimp only
    split
    · simp [outcome, held_def, inFlight, hrunning]
    · split
      · rw [outcome_of_empty rfl]
        exact p.ready_le_held
      · exact le_trans (outcome_settle_le _ _ _) p.ready_le_held
  · simp [outcome]

theorem outcome_probed_le (p : Preflight) (response : RawResponse) : outcome (p.probed response) ≤ p.held := by
  unfold probed
  split
  · rename_i count tested batch hrunning
    split
    · simp only [outcome, List.map_nil, Multiset.coe_nil, add_zero]
      exact held_reject_le
    · split
      · exact le_trans (outcome_settle_le _ _ _) p.ready_le_held
      · simp [outcome, held_def, inFlight, hrunning]
  · simp [outcome]

theorem outcome_opened_le (p : Preflight) : outcome (p.opened opens) ≤ p.held := by
  unfold opened
  split
  · rename_i count tested f left returned hrunning
    have hheld : p.held = (p.ready : Multiset Frozen) + (f ::ₘ (left : Multiset Frozen)) := by
      rw [held_def, inFlight, hrunning]
      rfl
    split
    · simp only [outcome, List.map_nil, Multiset.coe_nil, add_zero]
      exact held_reject_le
    · rename_i entry _
      dsimp only
      have hready : ((if opens p.context f.candidate entry.record = true then p.ready else p.ready ++ [f] :
          List Frozen) : Multiset Frozen) ≤ p.ready + {f} := by
        split
        · exact Multiset.le_add_right _ _
        · rw [← Multiset.coe_add]
          exact le_rfl
      split
      · rename_i hleft
        refine le_trans (outcome_settle_le _ _ _) (le_trans hready ?_)
        rw [hheld, hleft]
        exact le_rfl
      · rw [hheld, outcome, held_def, inFlight]
        simp only [List.map_nil, Multiset.coe_nil, add_zero]
        refine le_trans (add_le_add hready le_rfl) ?_
        rw [add_assoc, Multiset.singleton_add]
  · simp [outcome]

theorem held_allocated (p : Preflight) (t : Take) (want : ℕ) (batch : List Frozen) :
    (p.allocated t want batch).held = (p.ready : Multiset Frozen) + (batch : Multiset Frozen) := by
  unfold allocated
  split <;> rfl

end Preflight

/-- The inventories of a list of instances, and of the list with one of them replaced. -/
theorem exists_sum_set {ps : List Preflight} {i : ℕ} {p : Preflight} (h : ps[i]? = some p) :
    ∃ rest : Multiset Frozen, (ps.map Preflight.held).sum = p.held + rest ∧
      ∀ p', ((ps.set i p').map Preflight.held).sum = p'.held + rest := by
  induction ps generalizing i with
  | nil => cases h
  | cons q ps ih =>
    cases i with
    | zero =>
      cases h
      exact ⟨(ps.map Preflight.held).sum, by simp, fun p' => by simp⟩
    | succ i =>
      obtain ⟨rest, hsum, hset⟩ := ih h
      refine ⟨q.held + rest, ?_, fun p' => ?_⟩
      · rw [List.map_cons, List.sum_cons, hsum, add_left_comm]
      · rw [List.set_cons_succ, List.map_cons, List.sum_cons, hset, add_left_comm]

/-! ## Steps of the store -/

theorem mark_reserve {store : CounterStore} {scope : String} {span : Double} :
    (store.reserve scope span).2.mark selfEphScope = store.mark selfEphScope ∨
    ∃ n, 0 < n ∧ (store.reserve scope span).2.mark selfEphScope = (store.mark selfEphScope).add (.int n) := by
  unfold CounterStore.reserve
  split
  · rename_i n
    split
    · exact Or.inl rfl
    · rename_i hn
      split
      · exact Or.inl rfl
      · by_cases hscope : scope = selfEphScope
        · refine Or.inr ⟨n, by omega, ?_⟩
          rw [hscope]
          simp [CounterStore.mark]
        · refine Or.inl ?_
          simp [CounterStore.mark, Function.update_of_ne (Ne.symm hscope)]
  · exact Or.inl rfl

theorem BelowMark.reserve {store : CounterStore} {index : ℕ} (h : BelowMark store index) (hlt : index < 2 ^ 53)
    (scope : String) (span : Double) : BelowMark (store.reserve scope span).2 index := by
  intro m hm
  rcases @mark_reserve store scope span with hsame | ⟨n, hn, hadd⟩
  · rw [hsame] at hm
    exact h m hm
  · rw [hadd] at hm
    exact lt_add hm hn h hlt

/-- What is handed out is the mark, which is behind afterwards. -/
theorem base_of_reserve {store store' : CounterStore} {r : EphemeralReservation}
    (h : store.reserve selfEphScope (.int 1) = (.ok r, store')) :
    r.base = store.mark selfEphScope ∧ ∀ index : ℕ, r.base = .int index → index < 2 ^ 53 → BelowMark store' index := by
  unfold CounterStore.reserve at h
  simp only [Int.reduceLE, if_false] at h
  split at h
  · cases h
  · cases h
    refine ⟨rfl, fun index hbase hlt m hm => ?_⟩
    dsimp only at hbase
    have hmark : (store.mark selfEphScope).add (.int 1) = .int m := by
      simpa [CounterStore.mark] using hm
    rw [hbase, add_of_le (by omega)] at hmark
    have := Double.int.inj hmark
    omega

/-! ## Soundness -/

variable {lib : Library} {account : Wallet.Account} {owner : Fr}
  {opens : SelfMintContext → AuthorizedSelfMintCandidate → Option HowlNoteRecord → Bool} {steady : Prop}

/-- An object is what it was, except that it may be claimed now. -/
def ClaimedOnly (before after : Option DerivedSelfMintProvenance) : Prop :=
  after = before ∨ ∃ p, before = some p ∧ after = some { p with claimed := true }

theorem ClaimedOnly.exists {before after : Option DerivedSelfMintProvenance} (h : ClaimedOnly before after)
    {p : DerivedSelfMintProvenance} (hp : after = some p) :
    ∃ q, before = some q ∧ p.eph = q.eph ∧ p.index = q.index := by
  rcases h with hsame | ⟨q, hq, hafter⟩
  · exact ⟨p, hsame.symm.trans hp, rfl, rfl⟩
  · rw [hafter] at hp
    cases hp
    exact ⟨q, hq, rfl, rfl⟩

theorem SelfMints.Genuine.mono {s s' : SelfMints} {f : Frozen} (h : s.Genuine steady f)
    (hprov : ClaimedOnly (s.provenance f.source) (s'.provenance f.source)) : s'.Genuine steady f := by
  obtain ⟨p, hp, hclaimed, hderived⟩ := h
  rcases hprov with hsame | ⟨q, hq, hafter⟩
  · exact ⟨p, hsame.trans hp, hclaimed, hderived⟩
  · rw [hp] at hq
    cases hq
    exact ⟨_, hafter, rfl, hderived⟩

/-- What comes into the inventory: nothing, or a candidate whose object was not claimed before. -/
def Fresh (steady : Prop) (s s' : SelfMints) (extra : Multiset Frozen) : Prop :=
  extra = 0 ∨ ∃ f p, extra = {f} ∧ s'.Genuine steady f ∧ s.provenance f.source = some p ∧ p.claimed = false

/-- A step that claims an object at most and puts no other candidate into the inventory keeps it sound. -/
theorem SelfMints.Sound.advance {s s' : SelfMints} (h : s.Sound steady account) (extra : Multiset Frozen)
    (hstore : s'.store = s.store) (hprov : ∀ id, ClaimedOnly (s.provenance id) (s'.provenance id))
    (hle : s'.inventory ≤ extra + s.inventory) (hextra : Fresh steady s s' extra) (hspent : s'.spent = s.spent)
    (hauth : ∀ (i : ℕ) (a : AuthorizationState), s.authorizations[i]? = some a → s'.authorizations[i]? = some a) :
    s'.Sound steady account where
  unique := by
    refine Multiset.nodup_of_le (Multiset.map_le_map hle) ?_
    rw [Multiset.map_add]
    rcases hextra with rfl | ⟨f, p, rfl, -, hp, hclaimed⟩
    · simpa using h.unique
    · rw [Multiset.map_singleton, Multiset.singleton_add, Multiset.nodup_cons]
      refine ⟨fun hmem => ?_, h.unique⟩
      obtain ⟨g, hg, hsource⟩ := Multiset.mem_map.1 hmem
      obtain ⟨q, hq, hqclaimed, -⟩ := h.genuine g hg
      rw [hsource, hp] at hq
      cases hq
      rw [hclaimed] at hqclaimed
      cases hqclaimed
  genuine := by
    intro f hf
    rcases Multiset.mem_add.1 (Multiset.mem_of_le hle hf) with hf | hf
    · rcases hextra with rfl | ⟨g, p, rfl, hg, -⟩
      · cases Multiset.notMem_zero f hf
      · rw [Multiset.mem_singleton.1 hf]
        exact hg
    · exact (h.genuine f hf).mono (hprov f.source)
  derived := by
    intro id p hp
    obtain ⟨q, hq, heph, hindex⟩ := (hprov id).exists hp
    rw [heph, hindex]
    exact h.derived id q hq
  indices := by
    intro id id' p p' hp hp' heq hlt
    obtain ⟨q, hq, -, hindex⟩ := (hprov id).exists hp
    obtain ⟨q', hq', -, hindex'⟩ := (hprov id').exists hp'
    rw [hindex] at hlt heq
    rw [hindex'] at heq
    exact h.indices id id' q q' hq hq' heq hlt
  below := by
    intro id p hp hlt
    obtain ⟨q, hq, -, hindex⟩ := (hprov id).exists hp
    rw [hstore, hindex]
    rw [hindex] at hlt
    exact h.below id q hq hlt
  spent := by
    rw [hspent]
    exact h.spent
  consumed := by
    intro handle hhandle
    rw [hspent] at hhandle
    obtain ⟨a, ha, hconsumed⟩ := h.consumed handle hhandle
    exact ⟨a, hauth handle a ha, hconsumed⟩

/-- A step of the store alone. -/
theorem SelfMints.Sound.storeStep {s s' : SelfMints} (h : s.Sound steady account)
    (hbelow : ∀ index, index < 2 ^ 53 → BelowMark s.store index → BelowMark s'.store index)
    (hprov : s'.provenance = s.provenance) (hpre : s'.preflights = s.preflights)
    (hauth : s'.authorizations = s.authorizations) (hspent : s'.spent = s.spent) : s'.Sound steady account where
  unique := by
    have hinv : s'.inventory = s.inventory := by rw [SelfMints.inventory, hpre, hauth, SelfMints.inventory]
    rw [hinv]
    exact h.unique
  genuine := by
    intro f hf
    have hinv : s'.inventory = s.inventory := by rw [SelfMints.inventory, hpre, hauth, SelfMints.inventory]
    rw [hinv] at hf
    exact (h.genuine f hf).mono (Or.inl (by rw [hprov]))
  derived := by
    rw [hprov]
    exact h.derived
  indices := by
    rw [hprov]
    exact h.indices
  below := by
    intro id p hp hlt
    rw [hprov] at hp
    exact hbelow p.index hlt (h.below id p hp hlt)
  spent := by
    rw [hspent]
    exact h.spent
  consumed := by
    rw [hspent, hauth]
    exact h.consumed

/-- A step of one instance. -/
theorem SelfMints.Sound.update {s : SelfMints} (h : s.Sound steady account) (i : ℕ)
    {f : Preflight → Preflight × List AuthorizationState} (hf : ∀ p, Preflight.outcome (f p) ≤ p.held) :
    (s.update i f).Sound steady account := by
  unfold SelfMints.update
  cases hp : s.preflights[i]? with
  | none => exact h
  | some p =>
    obtain ⟨rest, hsum, hset⟩ := exists_sum_set hp
    refine h.advance 0 rfl (fun _ => Or.inl rfl) ?_ (Or.inl rfl) rfl ?_
    · rw [SelfMints.inventory, SelfMints.inventory, hsum, hset]
      dsimp only
      rw [List.map_append, ← Multiset.coe_add, zero_add]
      have hle := hf p
      unfold Preflight.outcome at hle
      calc (f p).1.held + rest + (↑(s.authorizations.map AuthorizationState.frozen) +
              ↑((f p).2.map AuthorizationState.frozen))
          = ((f p).1.held + ↑((f p).2.map AuthorizationState.frozen)) +
              (rest + ↑(s.authorizations.map AuthorizationState.frozen)) := by abel
        _ ≤ p.held + (rest + ↑(s.authorizations.map AuthorizationState.frozen)) := add_le_add hle le_rfl
        _ = p.held + rest + ↑(s.authorizations.map AuthorizationState.frozen) := by abel
    · intro j a ha
      dsimp only
      rw [List.getElem?_append_left]
      · exact ha
      · exact (List.getElem?_eq_some_iff.1 ha).1

/-- The object that a reservation makes is a new one with an index of its own. -/
theorem SelfMints.Sound.derive {s : SelfMints} (h : s.Sound steady account) (object : ℕ) :
    (s.derive lib account owner object).Sound steady account := by
  unfold SelfMints.derive
  split
  · exact h
  · rename_i hnew
    have hnone : s.provenance object = none := by simpa using hnew
    dsimp only
    have hkeeps : ({ s with store := (s.store.reserve selfEphScope (.int 1)).2 } : SelfMints).Sound steady account :=
      h.storeStep (fun index hlt hbelow => hbelow.reserve hlt _ _) rfl rfl rfl rfl
    cases hreserve : s.store.reserve selfEphScope (.int 1) with
    | mk answer store =>
      rw [hreserve] at hkeeps
      dsimp only at hkeeps ⊢
      unfold SelfMints.derived
      cases answer with
      | error e => exact hkeeps
      | ok r =>
        dsimp only
        split
        · rename_i index hbase _
          split
          · rename_i hindex
            obtain ⟨hmark, hbelow⟩ := base_of_reserve hreserve
            have hcast : ((index.toNat : ℕ) : ℤ) = index := Int.toNat_of_nonneg hindex.1
            -- an index below `2 ^ 53` that was derived before is below the mark
            have hdifferent : ∀ id p, s.provenance id = some p → p.index < 2 ^ 53 → p.index ≠ index.toNat := by
              intro id p hp hlt heq
              have hlow := h.below id p hp hlt index (by rw [← hmark, hbase])
              omega
            have hget : ∀ id p, Function.update s.provenance object (some (markDerivedSelfMintCandidate
                (SelfMints.candidateAt lib account index.toNat) owner)) id = some p →
                  id = object ∧ p = markDerivedSelfMintCandidate
                    (SelfMints.candidateAt lib account index.toNat) owner ∨
                  id ≠ object ∧ s.provenance id = some p := by
              intro id p hp
              rw [Function.update_apply] at hp
              split at hp
              · rename_i hid
                cases hp
                exact Or.inl ⟨hid, rfl⟩
              · rename_i hid
                exact Or.inr ⟨hid, hp⟩
            refine ⟨hkeeps.unique, ?_, ?_, ?_, ?_, hkeeps.spent, hkeeps.consumed⟩
            · intro f hf
              obtain ⟨p, hp, hrest⟩ := hkeeps.genuine f hf
              refine ⟨p, ?_, hrest⟩
              have hne : f.source ≠ object := by
                intro heq
                dsimp only at hp
                rw [heq, hnone] at hp
                cases hp
              dsimp only
              rw [Function.update_of_ne hne]
              exact hp
            · intro id p hp
              rcases hget id p hp with ⟨-, rfl⟩ | ⟨-, hp⟩
              · rfl
              · exact h.derived id p hp
            · intro id id' p p' hp hp' heq hlt
              rcases hget id p hp with ⟨rfl, rfl⟩ | ⟨-, hp⟩
              · rcases hget id' p' hp' with ⟨rfl, -⟩ | ⟨-, hp'⟩
                · rfl
                · rw [heq] at hlt
                  exact absurd heq.symm (hdifferent id' p' hp' hlt)
              · rcases hget id' p' hp' with ⟨-, rfl⟩ | ⟨-, hp'⟩
                · exact absurd heq (hdifferent id p hp hlt)
                · exact h.indices id id' p p' hp hp' heq hlt
            · intro id p hp hlt
              rcases hget id p hp with ⟨-, rfl⟩ | ⟨-, hp⟩
              · exact hbelow index.toNat (by rw [hbase, hcast]) hlt
              · exact hkeeps.below id p hp hlt
          · exact hkeeps
        · exact hkeeps

/-- The answer of an allocator, whose object is steady. -/
theorem SelfMints.Sound.answered {s : SelfMints} (h : s.Sound steady account) {i : ℕ} {p : Preflight}
    (hp : s.preflights[i]? = some p) (answer : Option ℕ)
    (hsteady : steady → ∀ object, answer = some object → (s.objects object).Steady) :
    (s.answered lib i p answer).Sound steady account := by
  obtain ⟨rest, hsum, hset⟩ := exists_sum_set hp
  have hauth : ∀ (i : ℕ) (a : AuthorizationState), s.authorizations[i]? = some a → s.authorizations[i]? = some a :=
    fun _ _ ha => ha
  have hreject : s.inventory ≥ p.reject.held + rest + (s.authorizations.map AuthorizationState.frozen : Multiset Frozen) := by
    rw [SelfMints.inventory, hsum]
    exact add_le_add (add_le_add Preflight.held_reject_le le_rfl) le_rfl
  unfold SelfMints.answered
  split
  · refine h.advance 0 rfl (fun _ => Or.inl rfl) ?_ (Or.inl rfl) rfl hauth
    rw [zero_add, SelfMints.inventory, hset]
    exact hreject
  · rename_i count tested want batch object hrunning
    have hclaims : ∀ provenance, ClaimedOnly (s.provenance object) provenance →
        ∀ id, ClaimedOnly (s.provenance id) (Function.update s.provenance object provenance id) := by
      intro provenance hclaim id
      by_cases hid : id = object
      · rw [hid, Function.update_self]
        exact hclaim
      · rw [Function.update_of_ne hid]
        exact Or.inl rfl
    cases hallocate : allocateOne lib p.context.ownerCommitment (s.provenance object) (s.objects object) with
    | mk result provenance =>
      have hcases := @allocateOne_cases lib p.context.ownerCommitment (s.provenance object) (s.objects object)
      rw [hallocate] at hcases
      cases result with
      | error e =>
        have hclaim : ClaimedOnly (s.provenance object) provenance := by
          rcases hcases with ⟨e', heq⟩ | ⟨q, hq, -, -, -, heq⟩
          · exact Or.inl (Prod.ext_iff.1 heq).2
          · exact Or.inr ⟨q, hq, (Prod.ext_iff.1 heq).2⟩
        refine h.advance 0 rfl (hclaims provenance hclaim) ?_ (Or.inl rfl) rfl hauth
        rw [zero_add, SelfMints.inventory]
        dsimp only
        rw [hset]
        exact hreject
      | ok candidate =>
        rcases hcases with ⟨e', heq⟩ | ⟨q, hq, hclaimed, heph, hindex, heq⟩
        · cases (Prod.ext_iff.1 heq).1
        · obtain ⟨hcopy, hafter⟩ := Prod.ext_iff.1 heq
          refine h.advance {⟨candidate, object⟩} rfl
            (hclaims provenance (Or.inr ⟨q, hq, hafter⟩)) ?_ (Or.inr ⟨_, q, rfl, ?_, hq, hclaimed⟩) rfl hauth
          · rw [SelfMints.inventory, SelfMints.inventory, hsum]
            dsimp only
            rw [hset, Preflight.held_allocated, Preflight.held_def, Preflight.inFlight, hrunning, ← Multiset.coe_add]
            refine le_of_eq ?_
            have hsingle : (([⟨candidate, object⟩] : List Frozen) : Multiset Frozen) = {⟨candidate, object⟩} := rfl
            rw [hsingle]
            abel
          · refine ⟨{ q with claimed := true }, ?_, rfl, fun hs => ?_⟩
            · dsimp only
              rw [Function.update_self]
              exact hafter
            · exact (hsteady hs object rfl).derived heph hindex hcopy.symm
  · exact h

theorem getElem?_consumeAll {states : List AuthorizationState} {handles : List ℕ} (handle : ℕ) :
    (consumeAll states handles)[handle]? =
      states[handle]?.map fun a => { a with consumed := a.consumed || decide (handle ∈ handles) } := by
  induction handles generalizing states with
  | nil =>
    cases h : states[handle]? with
    | none => simp [consumeAll, h]
    | some a => simp [consumeAll, h]
  | cons first handles ih =>
    rw [consumeAll, List.foldl_cons]
    have hrest := @ih (states.modify first fun state => { state with consumed := true })
    unfold consumeAll at hrest
    rw [hrest, List.getElem?_modify]
    cases h : states[handle]? with
    | none => simp
    | some a =>
      by_cases hfirst : first = handle
      · simp [hfirst]
      · simp [hfirst, Ne.symm hfirst]

theorem map_frozen_consumeAll (states : List AuthorizationState) (handles : List ℕ) :
    (consumeAll states handles).map AuthorizationState.frozen = states.map AuthorizationState.frozen := by
  refine List.ext_getElem? fun handle => ?_
  rw [List.getElem?_map, List.getElem?_map, getElem?_consumeAll]
  cases states[handle]? with
  | none => rfl
  | some a => rfl

/-- A consumption. -/
theorem SelfMints.Sound.consume {s : SelfMints} (h : s.Sound steady account) (handles : List ℕ) (expected : ExpectedContext) :
    (s.consume handles expected).Sound steady account := by
  unfold SelfMints.consume
  rcases consumeSelfMints_cases s.authorizations handles expected with ⟨e, heq⟩ | ⟨found, hnodup, hfound, heq⟩
  · rw [heq]
    exact h
  · rw [heq]
    dsimp only
    have hinv : ∀ spent, ({ s with authorizations := consumeAll s.authorizations handles, spent := spent } :
        SelfMints).inventory = s.inventory := by
      intro spent
      rw [SelfMints.inventory, SelfMints.inventory, map_frozen_consumeAll]
    have hunspent : ∀ handle ∈ handles, ∃ a, s.authorizations[handle]? = some a ∧ a.consumed = false := by
      intro handle hmem
      exact exists_of_forall₂ hfound hmem
    refine ⟨?_, ?_, h.derived, h.indices, h.below, ?_, ?_⟩
    · rw [hinv]
      exact h.unique
    · intro f hf
      rw [hinv] at hf
      exact h.genuine f hf
    · refine List.nodup_append.2 ⟨h.spent, hnodup, ?_⟩
      rintro handle hspent _ hmem rfl
      obtain ⟨a, ha, hconsumed⟩ := h.consumed handle hspent
      obtain ⟨b, hb, hunconsumed⟩ := hunspent handle hmem
      rw [ha] at hb
      cases hb
      rw [hconsumed] at hunconsumed
      cases hunconsumed
    · intro handle hmem
      dsimp only at hmem ⊢
      rw [getElem?_consumeAll]
      rcases List.mem_append.1 hmem with hspent | hnew
      · obtain ⟨a, ha, hconsumed⟩ := h.consumed handle hspent
        exact ⟨_, by rw [ha]; rfl, by simp [hconsumed]⟩
      · obtain ⟨a, ha, -⟩ := hunspent handle hnew
        exact ⟨_, by rw [ha]; rfl, by simp [hnew]⟩

/-- The object that an allocator returns is steady. -/
def SelfMintAct.Steady (s : SelfMints) : SelfMintAct → Prop
  | .next _ (some object) => (s.objects object).Steady
  | _ => True

/-- Every step keeps the inventory sound. -/
theorem SelfMintAct.step_sound {s : SelfMints} (act : SelfMintAct) (h : s.Sound steady account)
    (hsteady : steady → act.Steady s) :
    (s.act lib account owner opens act).Sound steady account := by
  cases act with
  | reserve scope span => exact h.storeStep (fun index hlt hbelow => hbelow.reserve hlt scope span) rfl rfl rfl rfl
  | failNextWrite => exact h.storeStep (fun _ _ hbelow => hbelow) rfl rfl rfl rfl
  | derive object => exact h.derive object
  | tamper object c => exact h.storeStep (fun _ _ hbelow => hbelow) rfl rfl rfl rfl
  | preflight context =>
    refine h.advance 0 rfl (fun _ => Or.inl rfl) ?_ (Or.inl rfl) rfl fun _ _ ha => ha
    rw [zero_add, SelfMints.inventory, SelfMints.inventory, SelfMints.act, List.map_append, List.sum_append]
    exact le_of_eq (by simp [Preflight.held_def, Preflight.inFlight])
  | take i count =>
    exact h.update i fun p => le_of_eq (by simp [Preflight.outcome, Preflight.held_def, Preflight.inFlight])
  | start i => exact h.update i Preflight.outcome_start_le
  | next i answer =>
    rw [SelfMints.act]
    cases hp : s.preflights[i]? with
    | none => exact h
    | some p =>
      refine h.answered hp answer fun hs object hobject => ?_
      rw [hobject] at hsteady
      exact hsteady hs
  | probe i response => exact h.update i fun p => p.outcome_probed_le response
  | openRecord i => exact h.update i Preflight.outcome_opened_le
  | consume handles expected => exact h.consume handles expected

/-! ## Whole runs -/

def SelfMintStep (lib : Library) (account : Wallet.Account) (owner : Fr)
    (opens : SelfMintContext → AuthorizedSelfMintCandidate → Option HowlNoteRecord → Bool) (s : SelfMints) (act : SelfMintAct)
    (s' : SelfMints) : Prop := s' = s.act lib account owner opens act

theorem sound_start (store : CounterStore) (objects : ℕ → CandidateObject) :
    (SelfMints.start store objects).Sound steady account where
  unique := Multiset.nodup_zero
  genuine := by
    intro f hf
    cases Multiset.notMem_zero f hf
  derived := by
    intro id p hp
    cases hp
  indices := by
    intro id id' p p' hp
    cases hp
  below := by
    intro id p hp
    cases hp
  spent := List.nodup_nil
  consumed := by
    intro handle hhandle
    cases hhandle

/-- A step whose allocator returns a steady object, if it returns one. -/
def SteadyStep (lib : Library) (account : Wallet.Account) (owner : Fr)
    (opens : SelfMintContext → AuthorizedSelfMintCandidate → Option HowlNoteRecord → Bool) (s : SelfMints)
    (act : SelfMintAct) (s' : SelfMints) : Prop :=
  SelfMintStep lib account owner opens s act s' ∧ act.Steady s

theorem sound_of_run {store : CounterStore} {objects : ℕ → CandidateObject} {acts : List SelfMintAct} {s : SelfMints}
    (hrun : Run (SelfMintStep lib account owner opens) (.start store objects) acts s) : s.Sound False account := by
  refine hrun.invariant (P := fun _ s => s.Sound False account) (sound_start store objects) ?_
  rintro acts s act s' - h rfl
  exact act.step_sound h False.elim

theorem sound_of_steadyRun {store : CounterStore} {objects : ℕ → CandidateObject} {acts : List SelfMintAct}
    {s : SelfMints} (hrun : Run (SteadyStep lib account owner opens) (.start store objects) acts s) :
    s.Sound True account := by
  refine hrun.invariant (P := fun _ s => s.Sound True account) (sound_start store objects) ?_
  rintro acts s act s' - h ⟨rfl, hsteady⟩
  exact act.step_sound h fun _ => hsteady

/-- The indices that were derived. -/
def SelfMints.indices (s : SelfMints) : Set ℕ := {index | ∃ id p, s.provenance id = some p ∧ p.index = index}

/-- Every derived candidate is authorized at most once, a consumption spends all its handles or none, and no
handle was spent twice. -/
structure UsedOnce (s : SelfMints) : Prop where
  authorized : (s.authorizations.map AuthorizationState.source).Nodup
  atomic : ∀ handles expected,
    (∃ e, consumeSelfMints s.authorizations handles expected = (.error e, s.authorizations)) ∨
    ∃ candidates, handles.Nodup ∧
      List.Forall₂ (fun handle candidate => ∃ a, s.authorizations[handle]? = some a ∧ a.consumed = false ∧
        a.candidate = candidate) handles candidates ∧
      (consumeSelfMints s.authorizations handles expected).1 = .ok candidates ∧
      ∀ handle, (consumeSelfMints s.authorizations handles expected).2[handle]? =
        s.authorizations[handle]?.map fun a : AuthorizationState =>
          { a with consumed := a.consumed || decide (handle ∈ handles) }
  spentOnce : s.spent.Nodup
  issued : ∀ handle ∈ s.spent, ∃ a, s.authorizations[handle]? = some a ∧ a.consumed = true

theorem SelfMints.Sound.authorized {s : SelfMints} (h : s.Sound steady account) :
    (s.authorizations.map AuthorizationState.source).Nodup := by
  have hle : (s.authorizations.map AuthorizationState.frozen : Multiset Frozen) ≤ s.inventory :=
    Multiset.le_add_left _ _
  have hnodup := Multiset.nodup_of_le (Multiset.map_le_map hle) h.unique
  rw [Multiset.map_coe, List.map_map, Multiset.coe_nodup] at hnodup
  exact hnodup

theorem SelfMints.Sound.genuine_authorization {s : SelfMints} (h : s.Sound steady account) {handle : ℕ}
    {a : AuthorizationState} (ha : s.authorizations[handle]? = some a) : s.Genuine steady a.frozen := by
  refine h.genuine _ (Multiset.mem_add.2 (Or.inr ?_))
  exact Multiset.mem_coe.2 (List.mem_map_of_mem (List.mem_of_getElem? ha))

theorem SelfMints.Sound.usedOnce {s : SelfMints} (h : s.Sound steady account) : UsedOnce s := by
  refine ⟨h.authorized, ?_, h.spent, h.consumed⟩
  intro handles expected
  rcases consumeSelfMints_cases s.authorizations handles expected with hfail | ⟨found, hnodup, hfound, heq⟩
  · exact Or.inl hfail
  · refine Or.inr ⟨found.map AuthorizationState.candidate, hnodup, ?_, by rw [heq], fun handle => ?_⟩
    · rw [List.forall₂_map_right_iff]
      exact hfound.imp fun handle a ha => ⟨a, ha.1, ha.2, rfl⟩
    · rw [heq]
      exact getElem?_consumeAll handle

/-- In every run over one repository and one store, whatever the objects answer: candidates and handles are used
once. -/
theorem used_once {store : CounterStore} {objects : ℕ → CandidateObject} {acts : List SelfMintAct} {s : SelfMints}
    (hrun : Run (SelfMintStep lib account owner opens) (.start store objects) acts s) : UsedOnce s :=
  (sound_of_run hrun).usedOnce

/-- Every candidate was derived with a point that has a tag. -/
def SelfMints.Tagged (lib : Library) (s : SelfMints) : Prop :=
  ∀ id p, s.provenance id = some p → isEvenY (publicKey lib p.eph) = true

theorem SelfMints.Tagged.mono {s s' : SelfMints} (h : s.Tagged lib)
    (hprov : ∀ id, ClaimedOnly (s.provenance id) (s'.provenance id)) : s'.Tagged lib := by
  intro id p hp
  obtain ⟨q, hq, heph, -⟩ := (hprov id).exists hp
  rw [heph]
  exact h id q hq

theorem allocateOne_claimedOnly (lib : Library) (ownerCommitment : Fr) (provenance : Option DerivedSelfMintProvenance)
    (c : CandidateObject) : ClaimedOnly provenance (allocateOne lib ownerCommitment provenance c).2 := by
  rcases @allocateOne_cases lib ownerCommitment provenance c with ⟨e, heq⟩ | ⟨q, hq, -, -, -, heq⟩
  · exact Or.inl (by rw [heq])
  · exact Or.inr ⟨q, hq, by rw [heq]⟩

/-- A reservation marks a candidate with a tag, or none. -/
theorem SelfMints.Tagged.derive {s : SelfMints} (h : s.Tagged lib) (object : ℕ) :
    (s.derive lib account owner object).Tagged lib := by
  unfold SelfMints.derive
  split
  · exact h
  · dsimp only
    unfold SelfMints.derived
    split
    · exact h
    · dsimp only
      split
      · split
        · rename_i index _ _ hindex
          intro id p hp
          dsimp only at hp
          rw [Function.update_apply] at hp
          split at hp
          · cases hp
            exact hindex.2
          · exact h id p hp
        · exact h
      · exact h

theorem SelfMints.Tagged.answered {s : SelfMints} (h : s.Tagged lib) (i : ℕ) (p : Preflight) (answer : Option ℕ) :
    (s.answered lib i p answer).Tagged lib := by
  have hclaims : ∀ object provenance, ClaimedOnly (s.provenance object) provenance →
      ∀ id, ClaimedOnly (s.provenance id) (Function.update s.provenance object provenance id) := by
    intro object provenance hclaim id
    by_cases hid : id = object
    · rw [hid, Function.update_self]
      exact hclaim
    · rw [Function.update_of_ne hid]
      exact Or.inl rfl
  unfold SelfMints.answered
  split
  · exact h
  · rename_i object _
    have hclaim := allocateOne_claimedOnly lib p.context.ownerCommitment (s.provenance object) (s.objects object)
    split
    · rename_i provenance heq
      rw [heq] at hclaim
      exact h.mono (hclaims object provenance hclaim)
    · rename_i provenance heq
      rw [heq] at hclaim
      exact h.mono (hclaims object provenance hclaim)
  · exact h

/-- Every step derives candidates with a tag only. -/
theorem SelfMintAct.step_tagged {s : SelfMints} (act : SelfMintAct) (h : s.Tagged lib) :
    (s.act lib account owner opens act).Tagged lib := by
  have hupdate : ∀ i f, (s.update i f).Tagged lib := by
    intro i f
    unfold SelfMints.update
    split
    · exact h
    · exact h
  cases act with
  | derive object => exact h.derive object
  | start i => exact hupdate i _
  | take i count => exact hupdate i _
  | probe i response => exact hupdate i _
  | openRecord i => exact hupdate i _
  | next i answer =>
    rw [SelfMints.act]
    cases s.preflights[i]? with
    | none => exact h
    | some p => exact h.answered i p answer
  | consume handles expected =>
    show (s.consume handles expected).Tagged lib
    unfold SelfMints.consume
    split
    · exact h
    · exact h
  | _ => exact h

/-- So each handle is for a scalar whose point has a tag. -/
theorem evenY_of_authorized {store : CounterStore} {objects : ℕ → CandidateObject} {acts : List SelfMintAct}
    {s : SelfMints} (hrun : Run (SteadyStep lib account owner opens) (.start store objects) acts s) {handle : ℕ}
    {a : AuthorizationState} (ha : s.authorizations[handle]? = some a) :
    isEvenY (publicKey lib a.candidate.eph) = true := by
  have htagged : s.Tagged lib := by
    refine hrun.invariant (P := fun _ s => s.Tagged lib) (fun id p hp => by cases hp) ?_
    rintro acts s act s' - h ⟨rfl, -⟩
    exact act.step_tagged h
  obtain ⟨p, hp, -, hderived⟩ := (sound_of_steadyRun hrun).genuine_authorization ha
  have heph : a.candidate.eph = p.eph := (hderived trivial).1
  rw [heph]
  exact htagged _ p hp

/-! ## Runs -/

/-- A step leaves the objects steady, unless it changes one into another kind of object. -/
theorem SelfMintAct.step_objects {s : SelfMints} (act : SelfMintAct) (h : ∀ id, (s.objects id).Steady)
    (htamper : ∀ object c, act = .tamper object c → c.Steady) (id : ℕ) :
    ((s.act lib account owner opens act).objects id).Steady := by
  have hset : ∀ (object : ℕ) (c : CandidateObject), c.Steady → (Function.update s.objects object c id).Steady := by
    intro object c hc
    rw [Function.update_apply]
    split
    · exact hc
    · exact h id
  have hupdate : ∀ i f, (s.update i f).objects = s.objects := by
    intro i f
    unfold SelfMints.update
    split <;> rfl
  cases act with
  | derive object =>
    show ((s.derive lib account owner object).objects id).Steady
    unfold SelfMints.derive
    split
    · exact h id
    · dsimp only
      unfold SelfMints.derived
      split
      · exact h id
      · dsimp only
        split
        · split
          · exact hset object _ (SelfMintCandidate.steady_object _)
          · exact h id
        · exact h id
  | tamper object c => exact hset object c (htamper object c rfl)
  | next i answer =>
    rw [SelfMints.act]
    split
    · exact h id
    · unfold SelfMints.answered
      split
      · exact h id
      · split <;> exact h id
      · exact h id
  | consume handles expected =>
    show ((s.consume handles expected).objects id).Steady
    unfold SelfMints.consume
    split <;> exact h id
  | start i => rw [SelfMints.act, hupdate]; exact h id
  | take i count => rw [SelfMints.act, hupdate]; exact h id
  | probe i response => rw [SelfMints.act, hupdate]; exact h id
  | openRecord i => rw [SelfMints.act, hupdate]; exact h id
  | _ => exact h id

/-- Objects that are steady at the start and after every change make a run of steady steps. -/
theorem steadyRun_of_objects {store : CounterStore} {objects : ℕ → CandidateObject} {acts : List SelfMintAct}
    (hobjects : ∀ id, (objects id).Steady) (hacts : ∀ object c, SelfMintAct.tamper object c ∈ acts → c.Steady) :
    Run (SteadyStep lib account owner opens) (.start store objects) acts
      (acts.foldl (SelfMints.act lib account owner opens) (.start store objects)) := by
  have hboth : Run (SteadyStep lib account owner opens) (.start store objects) acts
      (acts.foldl (SelfMints.act lib account owner opens) (.start store objects)) ∧
        ∀ id, ((acts.foldl (SelfMints.act lib account owner opens) (.start store objects)).objects id).Steady := by
    induction acts using List.reverseRecOn with
    | nil => exact ⟨.start, hobjects⟩
    | append_singleton acts act ih =>
      obtain ⟨hrun, hall⟩ := ih fun object c hmem => hacts object c (List.mem_append_left _ hmem)
      rw [List.foldl_append]
      refine ⟨hrun.snoc ⟨rfl, ?_⟩, act.step_objects hall fun object c heq => ?_⟩
      · cases act with
        | next i answer =>
          cases answer with
          | none => trivial
          | some object => exact hall object
        | _ => trivial
      · exact hacts object c (List.mem_append_right _ (List.mem_singleton.2 heq.symm))
  exact hboth.1

/-- A padded miss. -/
def sampleRecord : HowlNoteRecord := ⟨1, .self, 0, List.replicate 16 0, 0, 0, List.replicate 5 0⟩

def sampleHistory : CompleteComplianceHistory := ⟨⟨[⟨1, (0, 1), none⟩]⟩, (0, 1), 1⟩

def sampleExpected : ExpectedContext := ⟨some 7, some (0, 1), .int 1, some sampleHistory, some 1, some "0x", some 0⟩

def candidateOf (index : ℕ) : SelfMintCandidate := SelfMints.candidateAt Library.reference sampleAccount index

def sampleCandidate : SelfMintCandidate := candidateOf 0

/-- One take whose allocator returns this object, and a record that does not open. -/
def takeOne (object : ℕ) (tag : Fr) : List SelfMintAct :=
  [.take 0 1, .start 0, .next 0 (some object),
    .probe 0 (.array [.object (some tag) (.object (some sampleRecord)) (.int 0)]), .openRecord 0]

def takeActs (context : SelfMintContext) : List SelfMintAct :=
  [.derive 0, .preflight context] ++ takeOne 0 sampleCandidate.tag

def sampleObjects : ℕ → CandidateObject := fun _ =>
  ⟨fun _ => none, fun _ => none, fun _ => none, fun _ => .other, false, .other, .other⟩

theorem derive_sample {s : SelfMints} {owner : Fr} {object index : ℕ} (hnew : s.provenance object = none)
    (hmark : s.store.mark selfEphScope = .int index) (hwrites : s.store.failNextWrite = false) (hlt : index < 2 ^ 53) :
    s.derive Library.reference sampleAccount owner object =
      { s with
        store := ⟨Function.update s.store.highWater selfEphScope (some (.int (index + 1 : ℕ))), false⟩
        objects := Function.update s.objects object (candidateOf index).object
        provenance := Function.update s.provenance object
          (some (markDerivedSelfMintCandidate (candidateOf index) owner)) } := by
  have hadd : Double.add (.int index) (.int 1) = .int (index + 1 : ℕ) := by
    rw [add_of_le (by omega)]
    norm_num
  have heven := isEvenY_sample index
  unfold SelfMints.derive
  simp [hnew, hmark, hwrites, CounterStore.reserve, SelfMints.derived, EphemeralReservation.commit, hadd, Double.le,
    heven, candidateOf]

/-- An object that answers the claim as one candidate and the copy as another one. -/
def shifting (claimed copied : SelfMintCandidate) : CandidateObject where
  eph read := if read < 2 then some claimed.eph else some copied.eph
  ephPub read :=
    if read < 3 then some [some claimed.ephPub.1, some claimed.ephPub.2]
    else some [some copied.ephPub.1, some copied.ephPub.2]
  tag read := if read < 2 then some claimed.tag else some copied.tag
  index read := if read < 1 then .int claimed.index else .int copied.index
  indexBelowZero := false
  memberId := .undefined
  j := .undefined

theorem shifting_self (candidate : SelfMintCandidate) : shifting candidate candidate = candidate.object := by
  simp [shifting, SelfMintCandidate.object]

theorem allocate_sample (owner : Fr) (claimed : SelfMintCandidate) {copied : ℕ} (hlt : copied < 2 ^ 53) :
    allocateOne Library.reference owner (some (markDerivedSelfMintCandidate claimed owner))
      (shifting claimed (candidateOf copied)) =
        (.ok (candidateOf copied).authorized,
          some { markDerivedSelfMintCandidate claimed owner with claimed := true }) := by
  have hclaim : claimDerivedSelfMintCandidate (some (markDerivedSelfMintCandidate claimed owner))
      (shifting claimed (candidateOf copied)) owner = some .claimed := by
    simp [claimDerivedSelfMintCandidate, markDerivedSelfMintCandidate, shifting,
      DerivedSelfMintProvenance.matches, Property.optionalBigInt]
  have hsafe : isSafeInteger (copied : ℤ) := ⟨by omega, by omega⟩
  have hcopy : (shifting claimed (candidateOf copied)).copy Library.reference = .ok (candidateOf copied).authorized := by
    simp [CandidateObject.copy, CandidateObject.wellFormedPoint, CandidateObject.consistent, shifting, candidateOf,
      SelfMints.candidateAt, SelfMintCandidate.authorized, hsafe]
  rw [allocateOne, hclaim]
  dsimp only
  rw [hcopy]
  rfl

/-- A take issues a handle for what is copied of its object. -/
theorem takeOne_sample {s : SelfMints} {context : SelfMintContext} (hinstance : s.preflights = [⟨context, [], [], none⟩])
    {object : ℕ} {candidate : AuthorizedSelfMintCandidate} {provenance : Option DerivedSelfMintProvenance} {tag : Fr}
    (htag : candidate.tag = tag)
    (halloc : allocateOne Library.reference context.ownerCommitment (s.provenance object) (s.objects object) =
      (.ok candidate, provenance)) :
    (takeOne object tag).foldl (SelfMints.act Library.reference sampleAccount context.ownerCommitment
      fun _ _ _ => false) s =
        { s with
          provenance := Function.update s.provenance object provenance
          authorizations := s.authorizations ++ [⟨candidate, context, false, object⟩] } := by
  have hwell : sampleRecord.WellFormed := by decide +kernel
  rw [← htag]
  simp [takeOne, SelfMints.act, SelfMints.update, hinstance, Preflight.start, SelfMints.answered, halloc,
    Preflight.allocated, Preflight.probed, validatedResponse, validatedEntry, validatedRecord, Preflight.opened,
    Preflight.settle, isSafeInteger, hwell, Except.map, issueAuthorization]

/-- A take under any context issues one handle. -/
theorem take_sample (context : SelfMintContext) :
    ((takeActs context).foldl (SelfMints.act Library.reference sampleAccount context.ownerCommitment
      fun _ _ _ => false) (.start (.new fun _ => none) sampleObjects)).authorizations =
        [⟨sampleCandidate.authorized, context, false, 0⟩] := by
  have hderive := @derive_sample (.start (.new fun _ => none) sampleObjects) context.ownerCommitment 0 0 rfl rfl rfl
    (by norm_num)
  have halloc := @allocate_sample context.ownerCommitment sampleCandidate 0 (by norm_num)
  rw [← sampleCandidate, shifting_self] at halloc
  rw [takeActs, List.foldl_append, List.foldl_cons, List.foldl_cons, List.foldl_nil]
  have hready : SelfMints.act Library.reference sampleAccount context.ownerCommitment (fun _ _ _ => false)
      (.start (.new fun _ => none) sampleObjects) (.derive 0) =
        (SelfMints.start (.new fun _ => none) sampleObjects).derive Library.reference sampleAccount
          context.ownerCommitment 0 := rfl
  rw [hready, hderive]
  exact congrArg SelfMints.authorizations
    (@takeOne_sample _ context rfl 0 sampleCandidate.authorized _ sampleCandidate.tag rfl halloc)

/-- Handles of the context that are not spent and are for different candidates are consumed. -/
theorem consume_sample {s : SelfMints} {handles : List ℕ} {found : List AuthorizationState}
    (hlength : handles.length = 1 ∨ handles.length = 2) (hnodup : handles.Nodup)
    (hfound : handles.mapM (authorizationOf s.authorizations sampleExpected) = .ok found)
    (hcandidates : sameCandidate found = false) :
    s.consume handles sampleExpected =
      { s with authorizations := consumeAll s.authorizations handles, spent := s.spent ++ handles } := by
  unfold SelfMints.consume consumeSelfMints
  rw [if_neg (by omega), if_neg (by simpa using hnodup), hfound]
  simp [hcandidates]

end Kakure.Discovery
