import Kakure.Pool.Rotations

/-!
# The client's history of compliance keys

`complianceKeys.ts`, which rebuilds from the log of a pool which key was in force under
which version, against the keys the program had in force.

* `fromRotationsLoop_eq_ok_iff` — the rotations the client accepts are numbered from the
  version it starts with, which is 1;
* `history_disagrees` — the program numbers them from 0, so no pool's history is rebuilt.
-/

namespace Kakure.Sdk

open Slices Runs

/-- `COMPLIANCE_INITIAL_VERSION`. -/
def complianceInitialVersion : ℤ := 1

/-- A `Point<bigint>`. -/
abbrev BigPoint := ℤ × ℤ

structure ComplianceKeyEpoch where
  version : ℤ
  pk : BigPoint
  fromBlock : Option ℤ
  deriving DecidableEq

structure ComplianceKeyRotation where
  oldVersion : ℤ
  newVersion : ℤ
  newX : ℤ
  newY : ℤ
  blockNumber : Option ℤ

inductive ComplianceKeyReason where
  | emptyRing
  | duplicateVersion
  | invalidVersionSequence
  | currentKeyMismatch
  | incompleteHistory
  deriving DecidableEq

structure ComplianceKeyError where
  reason : ComplianceKeyReason
  message : String

/-- `ComplianceKeyRing`. -/
structure ComplianceKeyRing where
  ordered : List ComplianceKeyEpoch

/-- The first version that was seen before. -/
def firstDuplicate : List ℤ → List ComplianceKeyEpoch → Option ℤ
  | _, [] => none
  | seen, e :: epochs =>
    if e.version ∈ seen then some e.version else firstDuplicate (e.version :: seen) epochs

/-- The constructor of `ComplianceKeyRing`. -/
def ComplianceKeyRing.new (epochs : List ComplianceKeyEpoch) :
    Except ComplianceKeyError ComplianceKeyRing :=
  if epochs = [] then
    .error ⟨.emptyRing,
      "a compliance key ring needs at least one key; a scanner with no key can open nothing"⟩
  else
    match firstDuplicate [] epochs with
    | some version => .error ⟨.duplicateVersion, "compliance key version " ++ toString version ++
        " appears twice; versions are unique on chain, so the caller merged two histories"⟩
    | none => .ok ⟨epochs.mergeSort fun a b => a.version ≤ b.version⟩

/-- `candidatesFor`: the epoch that covers a block first, then the others, the newest first. -/
def ComplianceKeyRing.candidatesFor (ring : ComplianceKeyRing) (blockNumber : Option ℤ) : List ComplianceKeyEpoch :=
  let newestFirst := ring.ordered.reverse
  match blockNumber with
  | none => newestFirst
  | some block =>
    match newestFirst.find? (fun e => e.fromBlock.any (· ≤ block)) with
    | none => newestFirst
    | some covering => covering :: newestFirst.filter (· ≠ covering)

/-- Every epoch is a candidate, and no other. -/
theorem ComplianceKeyRing.mem_candidatesFor {ring : ComplianceKeyRing} {blockNumber : Option ℤ}
    {e : ComplianceKeyEpoch} : e ∈ ring.candidatesFor blockNumber ↔ e ∈ ring.ordered := by
  unfold candidatesFor
  cases blockNumber with
  | none => exact List.mem_reverse
  | some block =>
    dsimp only
    split
    · exact List.mem_reverse
    · rename_i covering hfind
      have hcovering := List.mem_reverse.1 (List.mem_of_find?_eq_some hfind)
      rw [List.mem_cons, List.mem_filter, List.mem_reverse, decide_eq_true_eq]
      constructor
      · rintro (rfl | ⟨he, -⟩)
        · exact hcovering
        · exact he
      · intro he
        by_cases h : e = covering
        · exact Or.inl h
        · exact Or.inr ⟨he, h⟩

/-- The error for a rotation that does not step on from a version. -/
def sequenceError (expectedOld : ℤ) (r : ComplianceKeyRotation) : ComplianceKeyError :=
  ⟨.invalidVersionSequence, "compliance version sequence expected " ++ toString expectedOld ++ "->" ++
    toString (expectedOld + 1) ++ ", got " ++ toString r.oldVersion ++ "->" ++ toString r.newVersion⟩

/-- The epoch a rotation starts. -/
def ComplianceKeyRotation.epoch (r : ComplianceKeyRotation) : ComplianceKeyEpoch :=
  ⟨r.newVersion, (r.newX, r.newY), r.blockNumber⟩

/-- The loop of `fromRotations`. -/
def fromRotationsLoop : ℤ → List ComplianceKeyEpoch → List ComplianceKeyRotation →
    Except ComplianceKeyError (List ComplianceKeyEpoch)
  | _, epochs, [] => .ok epochs
  | expectedOld, epochs, r :: rotations =>
    if r.oldVersion ≠ expectedOld ∨ r.newVersion ≠ expectedOld + 1 then
      .error (sequenceError expectedOld r)
    else fromRotationsLoop r.newVersion (epochs ++ [r.epoch]) rotations

/-- `ComplianceKeyRing.fromRotations`. -/
def fromRotations (genesis : BigPoint) (rotations : List ComplianceKeyRotation)
    (genesisBlock : Option ℤ) : Except ComplianceKeyError ComplianceKeyRing :=
  (fromRotationsLoop complianceInitialVersion [⟨complianceInitialVersion, genesis, genesisBlock⟩]
    rotations).bind ComplianceKeyRing.new

/-- `Number.isSafeInteger`, of an integer. -/
def isSafeInteger (n : ℤ) : Prop := -(2 ^ 53 - 1) ≤ n ∧ n ≤ 2 ^ 53 - 1

instance (n : ℤ) : Decidable (isSafeInteger n) := inferInstanceAs (Decidable (_ ∧ _))

/-- `assertVersion`. -/
def assertVersion (value : ℤ) (label : String) : Except ComplianceKeyError Unit :=
  if ¬ isSafeInteger value ∨ value < complianceInitialVersion then
    .error ⟨.invalidVersionSequence, label ++ " must be an integer at or above " ++
      toString complianceInitialVersion ++ ", got " ++ toString value⟩
  else .ok ()

/-- The block of a rotation, which is no earlier than the last one known. -/
def nextBlock (previousBlock : ℤ) (blockNumber : Option ℤ) : Except ComplianceKeyError ℤ :=
  match blockNumber with
  | none => .ok previousBlock
  | some block =>
    if ¬ isSafeInteger block ∨ block < 0 ∨ block < previousBlock then
      .error ⟨.invalidVersionSequence, "compliance rotation block " ++ toString block ++
        " is out of order after " ++ toString previousBlock⟩
    else .ok block

/-- The loop of `completeComplianceHistory`, with the version it ends at. -/
def historyLoop : ℤ → ℤ → List ComplianceKeyEpoch → List ComplianceKeyRotation →
    Except ComplianceKeyError (ℤ × List ComplianceKeyEpoch)
  | expectedOld, _, epochs, [] => .ok (expectedOld, epochs)
  | expectedOld, previousBlock, epochs, rotation :: rotations => do
    assertVersion rotation.oldVersion "rotation oldVersion"
    assertVersion rotation.newVersion "rotation newVersion"
    if rotation.oldVersion ≠ expectedOld ∨ rotation.newVersion ≠ expectedOld + 1 then
      .error (sequenceError expectedOld rotation)
    else
      let block ← nextBlock previousBlock rotation.blockNumber
      historyLoop rotation.newVersion block (epochs ++ [rotation.epoch]) rotations

structure CompleteComplianceHistory where
  ring : ComplianceKeyRing
  currentPk : BigPoint
  currentVersion : ℤ

/-- `completeComplianceHistory`. -/
def completeComplianceHistory (genesisPk : BigPoint) (rotations : List ComplianceKeyRotation)
    (currentPk : BigPoint) (currentVersion : ℤ) :
    Except ComplianceKeyError CompleteComplianceHistory := do
  assertVersion currentVersion "current compliance version"
  let (expectedOld, epochs) ← historyLoop complianceInitialVersion (-1)
    [⟨complianceInitialVersion, genesisPk, none⟩] rotations
  if expectedOld ≠ currentVersion then
    .error ⟨.incompleteHistory, "compliance history ends at version " ++ toString expectedOld ++
      ", current chain version is " ++ toString currentVersion⟩
  else if (epochs.getLast?.map ComplianceKeyEpoch.pk) ≠ some currentPk then
    .error ⟨.currentKeyMismatch, "compliance history current key does not match chain version " ++
      toString currentVersion⟩
  else
    let ring ← ComplianceKeyRing.new epochs
    .ok ⟨ring, currentPk, currentVersion⟩

/-! ## What the client accepts -/

/-- The loop accepts the rotations that are numbered on from its version, and adds their epochs. -/
theorem fromRotationsLoop_eq_ok_iff {v : ℤ} {epochs es : List ComplianceKeyEpoch}
    {rotations : List ComplianceKeyRotation} : fromRotationsLoop v epochs rotations = .ok es ↔
      (∀ (k : ℕ) r, rotations[k]? = some r → r.oldVersion = v + k ∧ r.newVersion = v + k + 1) ∧
        es = epochs ++ rotations.map ComplianceKeyRotation.epoch := by
  induction rotations generalizing v epochs with
  | nil => simp [fromRotationsLoop, eq_comm]
  | cons r rotations ih =>
    rw [fromRotationsLoop]
    by_cases hr : r.oldVersion = v ∧ r.newVersion = v + 1
    · rw [if_neg (by rw [hr.1, hr.2]; simp), ih, List.map_cons, ← List.append_cons, hr.2]
      refine and_congr_left fun _ => Iff.intro ?_ ?_
      · intro h k s hs
        cases k with
        | zero =>
          cases hs
          simpa using hr
        | succ k =>
          have := h k s hs
          push_cast
          constructor <;> omega
      · intro h k s hs
        have := h (k + 1) s hs
        push_cast at this
        constructor <;> omega
    · rw [if_pos (by rw [ne_eq, ne_eq, ← not_and_or]; exact hr)]
      constructor
      · intro h
        cases h
      · rintro ⟨h, -⟩
        exact absurd (by simpa using h 0 r rfl) hr

theorem assertVersion_of_lt {value : ℤ} (h : value < complianceInitialVersion) (label : String) :
    ∃ e, assertVersion value label = .error e ∧ e.reason = .invalidVersionSequence := by
  unfold assertVersion
  rw [if_pos (Or.inr h)]
  exact ⟨_, rfl, rfl⟩

/-- A history that ends below the initial version, or starts with a rotation from below it, is
rejected. -/
theorem completeComplianceHistory_of_lt {genesisPk currentPk : BigPoint}
    {rotations : List ComplianceKeyRotation} {currentVersion : ℤ}
    (h : currentVersion < complianceInitialVersion ∨
      ∃ r ∈ rotations.head?, r.oldVersion < complianceInitialVersion) :
    ∃ e, completeComplianceHistory genesisPk rotations currentPk currentVersion = .error e ∧
      e.reason = .invalidVersionSequence := by
  unfold completeComplianceHistory
  by_cases hcurrent : ¬ isSafeInteger currentVersion ∨ currentVersion < complianceInitialVersion
  · unfold assertVersion
    rw [if_pos hcurrent]
    exact ⟨_, rfl, rfl⟩
  · have hok : assertVersion currentVersion "current compliance version" = .ok () := if_neg hcurrent
    rw [not_or] at hcurrent
    obtain ⟨r, hr, hlt⟩ := h.resolve_left hcurrent.2
    cases rotations with
    | nil => cases hr
    | cons r' rotations =>
      cases hr
      obtain ⟨e, he, hreason⟩ := assertVersion_of_lt hlt "rotation oldVersion"
      rw [hok, historyLoop, he]
      exact ⟨e, rfl, hreason⟩

/-! ## Against the program -/

/-- A key of the program as the client has it. -/
def bigPoint (key : Bytes 32 × Bytes 32) : BigPoint := ((beNat key.1.val : ℤ), (beNat key.2.val : ℤ))

/-- A rotation as the client has it, with or without its block. -/
def ComplianceKeyRotation.IsOf (r : ComplianceKeyRotation) (e : ℕ × ℕ × Bytes 32 × Bytes 32) : Prop :=
  r.oldVersion = e.1 ∧ r.newVersion = e.2.1 ∧ (r.newX, r.newY) = bigPoint e.2.2

/-- The keys a program had in force, each under its version. -/
def chainEpochs (genesis : Bytes 32 × Bytes 32) (log : List Event) : List (ℤ × BigPoint) :=
  (0, bigPoint genesis) :: (rotationEvents log).map fun e => ((e.2.1 : ℤ), bigPoint e.2.2)

/-- The keys of a ring, each under its version. -/
def ComplianceKeyRing.keys (ring : ComplianceKeyRing) : List (ℤ × BigPoint) :=
  ring.ordered.map fun e => (e.version, e.pk)

variable {env : Env} {call : Call}

/-- A client that numbers from 1 and a program that numbers from 0. -/
theorem fromRotations_ne_chainEpochs {genesis : Bytes 32 × Bytes 32} {log : List Event} {pool : Pool}
    (h : KeyHistory genesis log pool) {rotations : List ComplianceKeyRotation}
    (hrotations : List.Forall₂ ComplianceKeyRotation.IsOf rotations (rotationEvents log))
    {genesisBlock : Option ℤ} {ring : ComplianceKeyRing}
    (hring : fromRotations (bigPoint genesis) rotations genesisBlock = .ok ring) :
    ring.keys ≠ chainEpochs genesis log := by
  unfold fromRotations at hring
  cases hloop : fromRotationsLoop complianceInitialVersion
      [⟨complianceInitialVersion, bigPoint genesis, genesisBlock⟩] rotations with
  | error e =>
    rw [hloop] at hring
    cases hring
  | ok epochs =>
    rw [hloop] at hring
    obtain ⟨hnumbered, rfl⟩ := fromRotationsLoop_eq_ok_iff.1 hloop
    have hversions := h.versions
    unfold chainEpochs
    generalize rotationEvents log = events at hrotations hversions
    cases hrotations with
    | nil =>
      -- the only epoch has version 1
      cases hring
      intro hkeys
      have hfirst := congrArg (fun l => l.head?.map Prod.fst) hkeys
      simp [ComplianceKeyRing.keys, complianceInitialVersion] at hfirst
    | @cons r e rotations events hr hrest =>
      have hzero := (hversions 0 e rfl).1
      have hone := (hnumbered 0 r rfl).1
      rw [hr.1, hzero] at hone
      simp [complianceInitialVersion] at hone

/-- In every state after an `initialize`, with any number of rotations: the complete history of the
pool's keys is rejected as an invalid version sequence, and a ring built from the rotations
does not have the keys under the pool's versions. -/
theorem history_disagrees {m₀ m₁ m₂ m : Machine} {ls ks : List Label} {x y : Bytes 32}
    {verifiers : Fin 7 → Pubkey} {genesisLeaf : Bytes 32} (hfresh : Fresh env m₀)
    (hbefore : Run (Step env) m₀ ls m₁)
    (hinit : Step env m₁ (.success call (.initializePool x y verifiers genesisLeaf)) m₂)
    (hafter : Run (Step env) m₂ ks m) {rotations : List ComplianceKeyRotation}
    (hrotations : List.Forall₂ ComplianceKeyRotation.IsOf rotations (rotationEvents m.log)) :
    ∃ pool, PoolAt env m pool ∧ KeyHistory (x, y) m.log pool ∧
      (∃ e, completeComplianceHistory (bigPoint (x, y)) rotations
        (bigPoint (pool.compliancePkX, pool.compliancePkY)) pool.complianceVersion = .error e ∧
          e.reason = .invalidVersionSequence) ∧
      ∀ genesisBlock ring, fromRotations (bigPoint (x, y)) rotations genesisBlock = .ok ring →
        ring.keys ≠ chainEpochs (x, y) m.log := by
  obtain ⟨pool, hpool, hhistory⟩ := keyHistory_of_run hfresh hbefore hinit hafter
  refine ⟨pool, hpool, hhistory, completeComplianceHistory_of_lt ?_, fun genesisBlock ring hring =>
    fromRotations_ne_chainEpochs hhistory hrotations hring⟩
  cases hevents : rotationEvents m.log with
  | nil =>
    left
    rw [hhistory.version, hevents]
    exact zero_lt_one
  | cons e events =>
    right
    rw [hevents] at hrotations
    cases hrotations with
    | @cons r _ rotations _ hr _ =>
      refine ⟨r, rfl, ?_⟩
      rw [hr.1, (hhistory.versions 0 e (by rw [hevents]; rfl)).1]
      exact zero_lt_one

/-- The sample deployment right after `initialize`: the client, given the key that is in force, asks
for a version from 1 on. -/
theorem history_rejected : ∃ (m : Machine) (pool : Pool), Run (Step Sample.env) Sample.machine
      ([Sample.initializePool (beBytes 32 9)].map fun c => .success c.1 c.2) m ∧
    PoolAt Sample.env m pool ∧ rotationEvents m.log = [] ∧
    ¬ ∃ history, completeComplianceHistory (bigPoint (beBytes 32 1, beBytes 32 2)) []
      (bigPoint (pool.compliancePkX, pool.compliancePkY)) pool.complianceVersion = .ok history := by
  have hexec : (execAll Sample.env [Sample.initializePool (beBytes 32 9)]
      Sample.machine).map (fun m => (rotationEvents m.log).length) = some 0 := by decide +kernel
  obtain ⟨m, hm, hlen⟩ := Option.map_eq_some_iff.1 hexec
  have hrun := run_of_execAll (by simp [Sample.initializePool, Sample.admissible]) hm
  have hnone : rotationEvents m.log = [] := List.length_eq_zero_iff.1 hlen
  obtain ⟨m₁, hinit, hafter⟩ := hrun.exists_of_cons
  obtain ⟨pool, hpool, hhistory⟩ := keyHistory_of_run Sample.fresh Run.start hinit hafter
  refine ⟨m, pool, hrun, hpool, hnone, ?_⟩
  rintro ⟨history, hok⟩
  have hversion : (pool.complianceVersion : ℤ) < complianceInitialVersion := by
    rw [hhistory.version, hnone]
    exact zero_lt_one
  obtain ⟨e, he, -⟩ := completeComplianceHistory_of_lt (.inl hversion)
  rw [hok] at he
  cases he

/-- The sample deployment after `initialize` and one rotation. -/
theorem history_disagrees_sample : ∃ (m : Machine) (pool : Pool) (rotations : List ComplianceKeyRotation),
    Run (Step Sample.env) Sample.machine ([Sample.initializePool (beBytes 32 9),
      (Sample.call [Sample.user, Sample.poolKey], .rotateComplianceKey (beBytes 32 3) (beBytes 32 4))].map
        fun c => .success c.1 c.2) m ∧
    PoolAt Sample.env m pool ∧ rotations.length = 1 ∧
    ∃ e, completeComplianceHistory (bigPoint (beBytes 32 1, beBytes 32 2)) rotations
      (bigPoint (pool.compliancePkX, pool.compliancePkY)) pool.complianceVersion = .error e := by
  have hexec : (execAll Sample.env [Sample.initializePool (beBytes 32 9),
      (Sample.call [Sample.user, Sample.poolKey], .rotateComplianceKey (beBytes 32 3) (beBytes 32 4))]
      Sample.machine).map (fun m => (rotationEvents m.log).length) = some 1 := by decide +kernel
  obtain ⟨m, hm, hlen⟩ := Option.map_eq_some_iff.1 hexec
  have hrun := run_of_execAll (by simp [Sample.initializePool, Sample.admissible]) hm
  obtain ⟨m₁, hinit, hafter⟩ := hrun.exists_of_cons
  have hrotations : List.Forall₂ ComplianceKeyRotation.IsOf
      ((rotationEvents m.log).map fun e =>
        ⟨e.1, e.2.1, (bigPoint e.2.2).1, (bigPoint e.2.2).2, none⟩) (rotationEvents m.log) := by
    rw [List.forall₂_map_left_iff, List.forall₂_same]
    exact fun e _ => ⟨rfl, rfl, rfl⟩
  obtain ⟨pool, hpool, -, ⟨e, he, -⟩, -⟩ :=
    history_disagrees Sample.fresh Run.start hinit hafter hrotations
  exact ⟨m, pool, _, hrun, hpool, by rw [List.length_map, hlen], e, he⟩

end Kakure.Sdk
