import Kakure.Lib.Lookahead
import Kakure.Lib.Runs
import Kakure.Notes.Keys

/-!
# The key repository

`packages/sdk/src/state/KeyRepository.ts`: the two families of one-time keys of a wallet, the
tags that are registered for a scan, and the calls that move them on.  The counter store is
what it answers: any base or a rejection for a `reserve`, any number for `highWater`.

* `RepoCall.step_registering` — every call keeps every lower index registered, if the store hands
  `nextSelfEphemeral` no index past one that has a tag and is not registered;
* `registration_invariant` — so does every run of such calls;
* `registration_lost` — a store that is ahead leaves indices out.
-/

namespace Kakure.Wallet

open Notes Tss Lookahead Runs

/-- `DEFAULT_LOOKAHEAD_WINDOW`. -/
def defaultLookaheadWindow : ℤ := 20

/-- `MAX_INDEX_ROLL`. -/
def maxIndexRoll : ℕ := 256

/-- `MAX_KEY_INDEX`. -/
def maxKeyIndex : ℤ := 1000000

/-- `clampIndex`, of a number that is not finite or has a value. -/
def clampIndex (value : Option ℚ) (floor : ℤ) : ℤ :=
  match value with
  | none => floor
  | some v => min (max ⌊v⌋ floor) maxKeyIndex

/-- `IDarkAccount`, as far as the repository asks it. -/
structure Account where
  getSelfEphemeral : ℕ → Fr
  getIncomingKey : ℕ → Fr

/-- The tag of an index of a family, if its point has one, and its key. -/
def tagged (lib : Library) (key : ℕ → Fr) (index : ℕ) : Option (Fr × Fr) :=
  if isEvenY (publicKey lib (key index)) then
    some (discoveryTag (publicKey lib (key index)), key index)
  else none

/-- `KeyRepoState`, the numbers of which are not checked. -/
structure KeyRepoState where
  selfMintCounter : Option ℚ
  selfScanIndex : Option ℚ
  incomingIssueCounter : Option ℚ
  incomingScanIndex : Option ℚ
  highestMatchedSelf : Option ℚ
  highestMatchedIncoming : Option ℚ

/-- `SelfEphemeral`. -/
structure SelfEphemeral where
  eph : Fr
  ephPub : Tss.Point
  tag : Fr
  index : ℕ

/-- `IncomingAddress`. -/
structure IncomingAddress where
  inKey : Fr
  inPub : Tss.Point
  index : ℕ

/-- `KeyRepository`: scan index, highest match and tag map of a family are one window. -/
structure KeyRepository where
  selfMintCounter : ℕ
  self : Window Fr Fr
  incomingIssueCounter : ℕ
  incoming : Window Fr Fr

namespace KeyRepository

def selfScanIndex (r : KeyRepository) : ℕ := r.self.next

def incomingScanIndex (r : KeyRepository) : ℕ := r.incoming.next

/-- A new repository. -/
def new : KeyRepository := ⟨0, Window.empty, 0, Window.empty⟩

variable (lib : Library) (account : Account)

/-- The roll of `nextSelfEphemeral`: an odd index the store reserves is burned, an index with a tag ends
it. -/
def rollSelf (answers : ℕ → Except String ℕ) : ℕ → ℕ → Except String ℕ
  | _, 0 => .error ("no even-y self ephemeral within " ++ toString maxIndexRoll ++ " reservations")
  | attempt, left + 1 =>
    match answers attempt with
    | .error e => .error e
    | .ok index =>
      if isEvenY (publicKey lib (account.getSelfEphemeral index)) then .ok index
      else rollSelf answers (attempt + 1) left

/-- `nextSelfEphemeral`, which the store answers with the bases of its reservations and at last with
whether it takes the commit. -/
def nextSelfEphemeral (answers : ℕ → Except String ℕ) (commit : Except String Unit) (r : KeyRepository) :
    Except String SelfEphemeral × KeyRepository :=
  match rollSelf lib account answers 0 maxIndexRoll, commit with
  | .error e, _ => (.error e, r)
  | .ok _, .error e => (.error e, r)
  | .ok index, .ok () =>
    let eph := account.getSelfEphemeral index
    let ephPub := publicKey lib eph
    (.ok ⟨eph, ephPub, discoveryTag ephPub, index⟩,
      { r with
        selfMintCounter := max r.selfMintCounter (index + 1)
        self := { r.self.set (discoveryTag ephPub) (index, eph) with
          next := max r.self.next (index + 1) } })

/-- The roll of `nextIncomingAddress`. -/
def rollIncoming (start : ℕ) : ℕ → ℕ → Except String ℕ
  | _, 0 => .error ("no even-y incoming address within " ++ toString maxIndexRoll ++ " indices from " ++
      toString start)
  | index, left + 1 =>
    if isEvenY (publicKey lib (account.getIncomingKey index)) then .ok index
    else rollIncoming start (index + 1) left

/-- `nextIncomingAddress`. -/
def nextIncomingAddress (r : KeyRepository) : Except String IncomingAddress × KeyRepository :=
  match rollIncoming lib account r.incomingIssueCounter r.incomingIssueCounter maxIndexRoll with
  | .error e => (.error e, r)
  | .ok index =>
    let inKey := account.getIncomingKey index
    let inPub := publicKey lib inKey
    (.ok ⟨inKey, inPub, index⟩,
      { r with
        incomingIssueCounter := index + 1
        incoming := { r.incoming.set (discoveryTag inPub) (index, inKey) with
          next := max r.incoming.next (index + 1) } })

/-- `ensureSelfLookahead`, with whether it advanced. -/
def ensureSelfLookahead (window : ℤ) (r : KeyRepository) : Bool × KeyRepository :=
  let self := r.self.ensure (tagged lib account.getSelfEphemeral) window
  (r.self.next < self.next, { r with self := self })

/-- `ensureIncomingLookahead`, with whether it advanced. -/
def ensureIncomingLookahead (window : ℤ) (r : KeyRepository) : Bool × KeyRepository :=
  let incoming := r.incoming.ensure (tagged lib account.getIncomingKey) window
  (r.incoming.next < incoming.next, { r with incoming := incoming })

/-- `matchSelfTag`, of a number that is no field element a throw. -/
def matchSelfTag (tag : ℤ) (r : KeyRepository) : Option (ℕ × Fr) × KeyRepository :=
  if 0 ≤ tag ∧ tag < bn254ScalarFieldModulus then
    let found := r.self.lookup (tag : Fr)
    (found.1, { r with self := found.2 })
  else (none, r)

/-- `matchIncomingTag`. -/
def matchIncomingTag (tag : ℤ) (r : KeyRepository) : Option (ℕ × Fr) × KeyRepository :=
  if 0 ≤ tag ∧ tag < bn254ScalarFieldModulus then
    let found := r.incoming.lookup (tag : Fr)
    (found.1, { r with incoming := found.2 })
  else (none, r)

/-- `recordIncomingMatch`. -/
def recordIncomingMatch (index : ℕ) (r : KeyRepository) : KeyRepository :=
  { r with incoming := r.incoming.meet index }

/-- The mint counter `restore` goes on with. -/
def restoredMintCounter (highWater : Option ℚ) (state : KeyRepoState) (r : KeyRepository) : ℕ :=
  max (max r.selfMintCounter (clampIndex state.selfMintCounter 0).toNat) (clampIndex highWater 0).toNat

/-- The part of `restore` after the counter store is level with the mint counter. -/
def restoreFamilies (minted : ℕ) (state : KeyRepoState) (r : KeyRepository) : KeyRepository :=
  let issued := max r.incomingIssueCounter (clampIndex state.incomingIssueCounter 0).toNat
  let selfFamily := { r.self with matched := max r.self.matched (clampIndex state.highestMatchedSelf (-1)) }
  let incomingFamily :=
    { r.incoming with matched := max r.incoming.matched (clampIndex state.highestMatchedIncoming (-1)) }
  let selfTarget := max (clampIndex state.selfScanIndex 0)
    (clampIndex (some ((minted : ℚ) + defaultLookaheadWindow)) 0)
  let incomingTarget := max (clampIndex state.incomingScanIndex 0) issued
  { selfMintCounter := minted
    self := (selfFamily.extend (tagged lib account.getSelfEphemeral) selfTarget).ensure
      (tagged lib account.getSelfEphemeral) defaultLookaheadWindow
    incomingIssueCounter := issued
    incoming := (incomingFamily.extend (tagged lib account.getIncomingKey) incomingTarget).ensure
      (tagged lib account.getIncomingKey) defaultLookaheadWindow }

/-- `restore`, which the store answers with its mark and, where that is behind, with whether it takes the
reservation. -/
def restore (highWater : Option ℚ) (reserve : Except String Unit) (state : KeyRepoState)
    (r : KeyRepository) : Except String Unit × KeyRepository :=
  let minted := restoredMintCounter highWater state r
  match (if (clampIndex highWater 0).toNat < minted then reserve else .ok ()) with
  | .error e => (.error e, { r with selfMintCounter := minted })
  | .ok () => (.ok (), restoreFamilies lib account minted state r)

end KeyRepository

/-! ## Calls -/

/-- A completed call, with what the store answered during it. -/
inductive RepoCall where
  | nextSelfEphemeral (answers : ℕ → Except String ℕ) (commit : Except String Unit)
  | nextIncomingAddress
  | ensureSelfLookahead (window : ℤ)
  | ensureIncomingLookahead (window : ℤ)
  | restore (highWater : Option ℚ) (reserve : Except String Unit) (state : KeyRepoState)
  | matchSelfTag (tag : ℤ)
  | matchIncomingTag (tag : ℤ)
  | recordIncomingMatch (index : ℕ)

/-- The repository after a call. -/
def RepoCall.apply (lib : Library) (account : Account) (r : KeyRepository) : RepoCall → KeyRepository
  | nextSelfEphemeral answers commit => (r.nextSelfEphemeral lib account answers commit).2
  | nextIncomingAddress => (r.nextIncomingAddress lib account).2
  | ensureSelfLookahead window => (r.ensureSelfLookahead lib account window).2
  | ensureIncomingLookahead window => (r.ensureIncomingLookahead lib account window).2
  | restore highWater reserve state => (r.restore lib account highWater reserve state).2
  | matchSelfTag tag => (r.matchSelfTag tag).2
  | matchIncomingTag tag => (r.matchIncomingTag tag).2
  | recordIncomingMatch index => r.recordIncomingMatch index

/-- An index of a family is registered: if its point has a tag, the map has under it a key with this
point. -/
def Registered (lib : Library) (key : ℕ → Fr) (w : Window Fr Fr) (index : ℕ) : Prop :=
  isEvenY (publicKey lib (key index)) = true →
    ∃ index' key', w.entries (discoveryTag (publicKey lib (key index))) = some (index', key') ∧
      publicKey lib key' = publicKey lib (key index)

/-- Every index below the scan index of its family is registered. -/
structure Registers (lib : Library) (account : Account) (r : KeyRepository) : Prop where
  self : ∀ index < r.selfScanIndex, Registered lib account.getSelfEphemeral r.self index
  incoming : ∀ index < r.incomingScanIndex, Registered lib account.getIncomingKey r.incoming index

/-- The store is not ahead by an index with a tag: each one from the scan index up to an index it hands
out is handed out before it in the same call. -/
def RepoCall.InStep (lib : Library) (account : Account) (r : KeyRepository) : RepoCall → Prop
  | nextSelfEphemeral answers _ => ∀ attempt base, answers attempt = .ok base → ∀ index,
      r.selfScanIndex ≤ index → index < base → isEvenY (publicKey lib (account.getSelfEphemeral index)) = true →
        ∃ earlier < attempt, answers earlier = .ok index
  | _ => True

/-- A call that meets the condition. -/
def CallStep (lib : Library) (account : Account) (r : KeyRepository) (call : RepoCall) (r' : KeyRepository) :
    Prop :=
  call.InStep lib account r ∧ r' = call.apply lib account r

/-! ## What the calls keep -/

/-- Both maps cover the indices below their marks, and no address was issued beyond the mark. -/
structure Registering (lib : Library) (account : Account) (r : KeyRepository) : Prop where
  self : r.self.Covers (tagged lib account.getSelfEphemeral)
  incoming : r.incoming.Covers (tagged lib account.getIncomingKey)
  issued : r.incomingIssueCounter ≤ r.incoming.next

section Calls

variable {lib : Library} {account : Account} {r : KeyRepository}

theorem tagged_of_evenY {key : ℕ → Fr} {index : ℕ} (h : isEvenY (publicKey lib (key index)) = true) :
    tagged lib key index = some (discoveryTag (publicKey lib (key index)), key index) := if_pos h

theorem evenY_of_tagged {key : ℕ → Fr} {index : ℕ} {tag k : Fr} (h : tagged lib key index = some (tag, k)) :
    isEvenY (publicKey lib (key index)) = true ∧ k = key index ∧
      tag = discoveryTag (publicKey lib (key index)) := by
  unfold tagged at h
  split at h
  · rename_i heven
    cases h
    exact ⟨heven, rfl, rfl⟩
  · cases h

/-- A map that covers its indices has them registered, since a tag belongs to one point. -/
theorem registered_of_covers (hlib : lib.Lawful) {key : ℕ → Fr} {w : Window Fr Fr}
    (h : w.Covers (tagged lib key)) {index : ℕ} (hlt : index < w.next) : Registered lib key w index := by
  intro heven
  obtain ⟨⟨index', key'⟩, hentry⟩ := Option.isSome_iff_exists.1
    (h.complete index _ _ hlt (tagged_of_evenY heven))
  obtain ⟨heven', rfl, htag⟩ := evenY_of_tagged (h.sound _ _ _ hentry)
  refine ⟨index', key index', hentry, ?_⟩
  rw [publicKey_eq hlib (key index)] at heven htag ⊢
  rw [publicKey_eq hlib (key index')] at heven' htag ⊢
  rw [discoveryTag_coords, discoveryTag_coords] at htag
  rw [eq_of_evenY heven' heven htag.symm]

theorem Registering.registers (hlib : lib.Lawful) (h : Registering lib account r) :
    Registers lib account r where
  self := fun _ hlt => registered_of_covers hlib h.self hlt
  incoming := fun _ hlt => registered_of_covers hlib h.incoming hlt

/-- The answer that ends a roll: an index with a tag, after indices without one. -/
theorem rollSelf_eq_ok {answers : ℕ → Except String ℕ} {attempt left index : ℕ}
    (h : KeyRepository.rollSelf lib account answers attempt left = .ok index) :
    isEvenY (publicKey lib (account.getSelfEphemeral index)) = true ∧
      ∃ last, answers last = .ok index ∧ ∀ j, attempt ≤ j → j < last →
        ∃ i, answers j = .ok i ∧ isEvenY (publicKey lib (account.getSelfEphemeral i)) = false := by
  induction left generalizing attempt with
  | zero => cases h
  | succ left ih =>
    rw [KeyRepository.rollSelf] at h
    cases hanswer : answers attempt with
    | error e =>
      rw [hanswer] at h
      cases h
    | ok base =>
      simp only [hanswer] at h
      cases heven : isEvenY (publicKey lib (account.getSelfEphemeral base)) with
      | true =>
        rw [if_pos heven] at h
        cases h
        refine ⟨heven, attempt, hanswer, ?_⟩
        intro j hle hlt
        omega
      | false =>
        rw [heven, if_neg Bool.false_ne_true] at h
        obtain ⟨hindex, last, hlast, hburned⟩ := ih h
        refine ⟨hindex, last, hlast, ?_⟩
        intro j hle hlt
        rcases Nat.eq_or_lt_of_le hle with rfl | hle
        · exact ⟨base, hanswer, heven⟩
        · exact hburned j hle hlt

/-- The first address with a tag. -/
theorem rollIncoming_eq_ok {start first left index : ℕ}
    (h : KeyRepository.rollIncoming lib account start first left = .ok index) :
    isEvenY (publicKey lib (account.getIncomingKey index)) = true ∧
      ∀ j, first ≤ j → j < index → isEvenY (publicKey lib (account.getIncomingKey j)) = false := by
  induction left generalizing first with
  | zero => cases h
  | succ left ih =>
    rw [KeyRepository.rollIncoming] at h
    cases heven : isEvenY (publicKey lib (account.getIncomingKey first)) with
    | true =>
      rw [if_pos heven] at h
      cases h
      refine ⟨heven, ?_⟩
      intro j hle hlt
      omega
    | false =>
      rw [heven, if_neg Bool.false_ne_true] at h
      obtain ⟨hindex, hskipped⟩ := ih h
      refine ⟨hindex, ?_⟩
      intro j hle hlt
      rcases Nat.eq_or_lt_of_le hle with rfl | hle
      · exact heven
      · exact hskipped j hle hlt

/-- An index with a tag joins the map and takes the mark along, if no index with a tag is skipped. -/
theorem covers_issue {key : ℕ → Fr} {w : Window Fr Fr} (h : w.Covers (tagged lib key)) {index : ℕ}
    (heven : isEvenY (publicKey lib (key index)) = true)
    (hskipped : ∀ j, w.next ≤ j → j < index → isEvenY (publicKey lib (key j)) = false) :
    Window.Covers (tagged lib key) { w.set (discoveryTag (publicKey lib (key index))) (index, key index) with
      next := max w.next (index + 1) } := by
  have hset := h.set (tagged_of_evenY heven)
  refine hset.advance ?_
  intro j tag k hle hlt hj
  obtain ⟨hjeven, -, rfl⟩ := evenY_of_tagged hj
  change w.next ≤ j at hle
  rcases Nat.lt_trichotomy j index with hjlt | rfl | hjgt
  · rw [hskipped j hle hjlt] at hjeven
    cases hjeven
  · rw [Window.entries_set, if_pos rfl]
    rfl
  · omega

theorem registering_new : Registering lib account .new := ⟨Window.covers_empty, Window.covers_empty, le_rfl⟩

theorem Registering.nextSelfEphemeral (h : Registering lib account r) {answers : ℕ → Except String ℕ}
    {commit : Except String Unit}
    (hstep : RepoCall.InStep lib account r (.nextSelfEphemeral answers commit)) :
    Registering lib account (r.nextSelfEphemeral lib account answers commit).2 := by
  unfold KeyRepository.nextSelfEphemeral
  cases hroll : KeyRepository.rollSelf lib account answers 0 maxIndexRoll with
  | error e => exact h
  | ok index =>
    cases commit with
    | error e => exact h
    | ok =>
      refine ⟨?_, h.incoming, h.issued⟩
      obtain ⟨heven, last, hlast, hburned⟩ := rollSelf_eq_ok hroll
      refine covers_issue h.self heven ?_
      intro j hle hlt
      by_contra hne
      -- the store would have handed the index out before, and the roll ended there
      rw [Bool.not_eq_false] at hne
      obtain ⟨earlier, hlast', hanswer⟩ := hstep last index hlast j hle hlt hne
      obtain ⟨i, hi, hodd⟩ := hburned earlier (Nat.zero_le _) hlast'
      rw [hanswer] at hi
      cases hi
      rw [hne] at hodd
      cases hodd

theorem Registering.nextIncomingAddress (h : Registering lib account r) :
    Registering lib account (r.nextIncomingAddress lib account).2 := by
  unfold KeyRepository.nextIncomingAddress
  cases hroll : KeyRepository.rollIncoming lib account r.incomingIssueCounter r.incomingIssueCounter
      maxIndexRoll with
  | error e => exact h
  | ok index =>
    obtain ⟨heven, hskipped⟩ := rollIncoming_eq_ok hroll
    refine ⟨h.self, ?_, le_max_right _ _⟩
    refine covers_issue h.incoming heven ?_
    intro j hle hlt
    exact hskipped j (le_trans h.issued hle) hlt

/-- The mark is no lower after `extend`. -/
theorem le_next_extend {τ κ : Type} [DecidableEq τ] (derive : ℕ → Option (τ × κ)) (w : Window τ κ) (target : ℤ) :
    w.next ≤ (w.extend derive target).next ∧ target ≤ (w.extend derive target).next := by
  have h := @Window.next_extend _ _ derive w _ target
  omega

theorem Registering.restoreFamilies (h : Registering lib account r) (minted : ℕ) (state : KeyRepoState) :
    Registering lib account (r.restoreFamilies lib account minted state) := by
  have hself : ∀ matched, Window.Covers (tagged lib account.getSelfEphemeral)
      { r.self with matched := matched } := fun _ => ⟨h.self.sound, h.self.complete⟩
  have hincoming : ∀ matched, Window.Covers (tagged lib account.getIncomingKey)
      { r.incoming with matched := matched } := fun _ => ⟨h.incoming.sound, h.incoming.complete⟩
  refine ⟨((hself _).extend _).ensure _, ((hincoming _).extend _).ensure _, ?_⟩
  -- the target of the incoming family is no lower than the issue counter
  have hfirst := (le_next_extend (tagged lib account.getIncomingKey) { r.incoming with
    matched := max r.incoming.matched (clampIndex state.highestMatchedIncoming (-1)) }
      (max (clampIndex state.incomingScanIndex 0) (max r.incomingIssueCounter
        (clampIndex state.incomingIssueCounter 0).toNat : ℕ))).2
  refine le_trans ?_ (le_next_extend _ _ _).1
  show max r.incomingIssueCounter (clampIndex state.incomingIssueCounter 0).toNat ≤ _
  omega

theorem Registering.restore (h : Registering lib account r) (highWater : Option ℚ)
    (reserve : Except String Unit) (state : KeyRepoState) :
    Registering lib account (r.restore lib account highWater reserve state).2 := by
  unfold KeyRepository.restore
  dsimp only
  split
  · exact ⟨h.self, h.incoming, h.issued⟩
  · exact h.restoreFamilies _ state

/-- Every call keeps both maps covering, if the store is not ahead of it. -/
theorem RepoCall.step_registering (call : RepoCall) (h : Registering lib account r)
    (hstep : call.InStep lib account r) : Registering lib account (call.apply lib account r) := by
  cases call with
  | nextSelfEphemeral answers commit => exact h.nextSelfEphemeral hstep
  | nextIncomingAddress => exact h.nextIncomingAddress
  | ensureSelfLookahead window => exact ⟨h.self.ensure window, h.incoming, h.issued⟩
  | ensureIncomingLookahead window =>
    exact ⟨h.self, h.incoming.ensure window, le_trans h.issued (le_next_extend _ _ _).1⟩
  | restore highWater reserve state => exact h.restore highWater reserve state
  | matchSelfTag tag =>
    show Registering lib account (r.matchSelfTag tag).2
    unfold KeyRepository.matchSelfTag
    split
    · exact ⟨h.self.lookup _, h.incoming, h.issued⟩
    · exact h
  | matchIncomingTag tag =>
    show Registering lib account (r.matchIncomingTag tag).2
    unfold KeyRepository.matchIncomingTag
    split
    · refine ⟨h.self, h.incoming.lookup _, ?_⟩
      rw [Window.next_lookup]
      exact h.issued
    · exact h
  | recordIncomingMatch index => exact ⟨h.self, h.incoming.meet index, h.issued⟩

end Calls

/-- In every state of every run of completed calls on a new repository that the store is not ahead of: each
index below the scan index of its family is registered, if its point has a tag. -/
theorem registration_invariant {lib : Library} (hlib : lib.Lawful) {account : Account}
    {calls : List RepoCall} {r : KeyRepository} (hrun : Run (CallStep lib account) .new calls r) :
    Registers lib account r := by
  refine Registering.registers hlib ?_
  refine hrun.invariant (P := fun _ r => Registering lib account r) registering_new ?_
  rintro calls r call r' - h ⟨hstep, rfl⟩
  exact call.step_registering h hstep

/-! ## What is registered is derived -/

/-- Both maps have tags of their families only. -/
structure Derived (lib : Library) (account : Account) (r : KeyRepository) : Prop where
  self : r.self.Sound (tagged lib account.getSelfEphemeral)
  incoming : r.incoming.Sound (tagged lib account.getIncomingKey)

section Derived

variable {lib : Library} {account : Account} {r : KeyRepository}

theorem derived_new : Derived lib account .new := ⟨Window.sound_empty, Window.sound_empty⟩

/-- Every call registers tags of the families only, whatever the store answers. -/
theorem RepoCall.step_derived (h : Derived lib account r) (call : RepoCall) :
    Derived lib account (call.apply lib account r) := by
  cases call with
  | nextSelfEphemeral answers commit =>
    show Derived lib account (r.nextSelfEphemeral lib account answers commit).2
    unfold KeyRepository.nextSelfEphemeral
    cases hroll : KeyRepository.rollSelf lib account answers 0 maxIndexRoll with
    | error e => exact h
    | ok index =>
      cases commit with
      | error e => exact h
      | ok => exact ⟨h.self.set (tagged_of_evenY (rollSelf_eq_ok hroll).1), h.incoming⟩
  | nextIncomingAddress =>
    show Derived lib account (r.nextIncomingAddress lib account).2
    unfold KeyRepository.nextIncomingAddress
    cases hroll : KeyRepository.rollIncoming lib account r.incomingIssueCounter r.incomingIssueCounter
        maxIndexRoll with
    | error e => exact h
    | ok index => exact ⟨h.self, h.incoming.set (tagged_of_evenY (rollIncoming_eq_ok hroll).1)⟩
  | ensureSelfLookahead window => exact ⟨h.self.ensure window, h.incoming⟩
  | ensureIncomingLookahead window => exact ⟨h.self, h.incoming.ensure window⟩
  | restore highWater reserve state =>
    show Derived lib account (r.restore lib account highWater reserve state).2
    unfold KeyRepository.restore
    dsimp only
    split
    · exact ⟨h.self, h.incoming⟩
    · have hself : ∀ matched, Window.Sound (tagged lib account.getSelfEphemeral)
          { r.self with matched := matched } := fun _ => h.self
      have hincoming : ∀ matched, Window.Sound (tagged lib account.getIncomingKey)
          { r.incoming with matched := matched } := fun _ => h.incoming
      exact ⟨((hself _).extend _).ensure _, ((hincoming _).extend _).ensure _⟩
  | matchSelfTag tag =>
    show Derived lib account (r.matchSelfTag tag).2
    unfold KeyRepository.matchSelfTag
    split
    · exact ⟨h.self.lookup _, h.incoming⟩
    · exact h
  | matchIncomingTag tag =>
    show Derived lib account (r.matchIncomingTag tag).2
    unfold KeyRepository.matchIncomingTag
    split
    · exact ⟨h.self, h.incoming.lookup _⟩
    · exact h
  | recordIncomingMatch index => exact ⟨h.self, h.incoming⟩

/-- So do any calls. -/
theorem calls_derived (h : Derived lib account r) (calls : List RepoCall) :
    Derived lib account (calls.foldl (RepoCall.apply lib account) r) := by
  induction calls generalizing r with
  | nil => exact h
  | cons call calls ih => exact ih (RepoCall.step_derived h call)

end Derived

/-! ## A store that is ahead -/

/-- An account whose first two self keys have different tags. -/
def sampleAccount : Account where
  getSelfEphemeral index := if index = 0 then 4 else 5
  getIncomingKey _ := 4

theorem isEvenY_sample (index : ℕ) :
    isEvenY (publicKey Library.reference (sampleAccount.getSelfEphemeral index)) = true := by
  unfold sampleAccount
  dsimp only
  split
  · rw [publicKey_four]
    decide
  · rw [publicKey_five]
    decide

/-- The first roll of a store at some base ends there. -/
theorem nextSelfEphemeral_sample (base : ℕ) :
    (KeyRepository.new.nextSelfEphemeral Library.reference sampleAccount (fun attempt => .ok (base + attempt))
      (.ok ())).2.self =
      { Window.empty.set (discoveryTag (publicKey Library.reference (sampleAccount.getSelfEphemeral base)))
          (base, sampleAccount.getSelfEphemeral base) with next := base + 1 } := by
  have hroll : KeyRepository.rollSelf Library.reference sampleAccount (fun attempt => .ok (base + attempt)) 0
      maxIndexRoll = .ok base := by
    rw [maxIndexRoll, KeyRepository.rollSelf]
    simp [isEvenY_sample]
  unfold KeyRepository.nextSelfEphemeral
  rw [hroll]
  simp [KeyRepository.new, Window.empty, Window.set]

/-- A store in step: the mint is registered. -/
theorem registration_invariant_sample : ∃ (calls : List RepoCall) (r : KeyRepository),
    Run (CallStep Library.reference sampleAccount) .new calls r ∧ r.selfScanIndex = 1 ∧
      Registers Library.reference sampleAccount r := by
  have hstep : CallStep Library.reference sampleAccount .new
      (.nextSelfEphemeral (fun attempt => .ok (0 + attempt)) (.ok ()))
      (KeyRepository.new.nextSelfEphemeral Library.reference sampleAccount (fun attempt => .ok (0 + attempt))
        (.ok ())).2 := by
    refine ⟨?_, rfl⟩
    intro attempt base hanswer index _ hlt _
    cases hanswer
    exact ⟨index, by omega, by simp⟩
  refine ⟨_, _, Run.single hstep, ?_, registration_invariant Library.reference_lawful (Run.single hstep)⟩
  show (KeyRepository.nextSelfEphemeral _ _ _ _ _).2.self.next = 1
  rw [nextSelfEphemeral_sample]

/-- A store one index ahead, as after a restart: the call leaves index 0 below the scan index and out of
the map. -/
theorem registration_lost : ∃ calls : List RepoCall,
    ¬ Registers Library.reference sampleAccount
      (calls.foldl (RepoCall.apply Library.reference sampleAccount) .new) := by
  refine ⟨[.nextSelfEphemeral (fun attempt => .ok (1 + attempt)) (.ok ())], fun h => ?_⟩
  have hself := h.self 0
  have hrepo := nextSelfEphemeral_sample 1
  simp only [List.foldl_cons, List.foldl_nil, RepoCall.apply, KeyRepository.selfScanIndex, hrepo] at hself
  obtain ⟨index, key, hentry, -⟩ := hself (by norm_num) (isEvenY_sample 0)
  have hzero : sampleAccount.getSelfEphemeral 0 = 4 := rfl
  have hone : sampleAccount.getSelfEphemeral 1 = 5 := rfl
  have hne : discoveryTag (publicKey Library.reference 4) ≠ discoveryTag (publicKey Library.reference 5) := by
    rw [publicKey_four, publicKey_five]
    unfold discoveryTag
    decide +kernel
  have hempty : (Window.empty.set (discoveryTag (publicKey Library.reference 5)) (1, 5)).entries
      (discoveryTag (publicKey Library.reference 4)) = (none : Option (ℕ × Fr)) := by
    rw [Window.entries_set, if_neg hne]
    rfl
  rw [hzero, hone] at hentry
  dsimp only at hentry
  rw [hempty] at hentry
  cases hentry

end Kakure.Wallet
