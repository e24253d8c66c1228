import Kakure.Lib.Doubles
import Kakure.Sync.NoteProcessor

/-!
# The scanner of a group

`frost/multisigScan.ts`: the tags of the members and of the receiving addresses a group registers, and the notes
it reads from events.

* `create_serves`, `calls_serve` — every registered tag is that of the derived scalar it is registered with.
-/

namespace Kakure.Frost

open Notes Sync Sdk Trials Fallible Doubles

/-- `MultisigNoteView`. -/
structure MultisigNoteView where
  note : Notes.Note
  commitment : Fr
  leafIndex : ℕ
  nullifier : Fr
  isIncoming : Bool
  memberId : Option ℕ
  derivationJ : Option ℕ
  deriving DecidableEq

structure SelfSource where
  memberId : ℕ
  j : ℕ
  eph : Fr

structure IncomingSource where
  index : ℕ
  viewKey : Fr

/-- `MIN_LOOKAHEAD_WINDOW`. -/
def minLookaheadWindow : ℤ := 16

/-- `assertWindow`. -/
def assertWindow (window : ℤ) (label : String) : Except String ℤ :=
  if window < minLookaheadWindow then
    .error ("multisig " ++ label ++ " lookahead must be an integer of at least " ++ toString minLookaheadWindow ++
      ", got " ++ toString window)
  else .ok window

/-- `MAX_SELF_ROLL`. -/
def maxSelfRoll : ℤ := 1000

/-- `DEFAULT_SELF_WINDOW`. -/
def defaultSelfWindow : ℤ := 100

/-- `DEFAULT_INCOMING_WINDOW`. -/
def defaultIncomingWindow : ℤ := 20

/-- `MultisigScanConfig`. -/
structure MultisigScanConfig where
  v : Fr
  gpk : Tss.Point
  compliancePk : ComplianceKeyRing
  memberIds : List ℕ
  selfWindow : Option ℤ
  incomingWindow : Option ℤ

/-- `MultisigScanner`. -/
structure MultisigScanner where
  v : Fr
  complianceKeys : ComplianceKeyRing
  unopenable : ℕ
  expectedOwner : Fr
  incomingTags : Fr → Option IncomingSource
  selfTags : Fr → Option SelfSource
  memberIds : List ℕ
  selfScanJ : ℕ → ℕ
  highestMatchedSelf : ℕ → ℤ
  incomingScanIndex : ℕ
  highestMatchedIncoming : ℤ

section Scanner

variable (lib : Tss.Library) (hash : List Fr → Fr)

/-- The roll of `rollToEvenY`. -/
def rollFrom (derive : ℕ → Fr) (startIndex : ℕ) : ℕ → ℕ → Except String ℕ
  | _, 0 => .error ("even-y discovery tag not found within " ++ toString Wallet.maxIndexRoll ++ " indices from " ++
      toString startIndex)
  | index, left + 1 =>
    if isEvenY (publicKey lib (derive index)) then .ok index else rollFrom derive startIndex (index + 1) left

variable {lib} in
/-- A roll passes indices without a tag only. -/
theorem rollFrom_spec {derive : ℕ → Fr} {startIndex first left index : ℕ}
    (hroll : rollFrom lib derive startIndex first left = .ok index) :
    first ≤ index ∧ isEvenY (publicKey lib (derive index)) = true ∧
      ∀ i, first ≤ i → i < index → isEvenY (publicKey lib (derive i)) = false := by
  induction left generalizing first with
  | zero => cases hroll
  | succ left ih =>
    rw [rollFrom] at hroll
    by_cases heven : isEvenY (publicKey lib (derive first)) = true
    · rw [if_pos heven] at hroll
      cases hroll
      exact ⟨le_rfl, heven, fun i hle hlt => absurd hlt (not_lt.2 hle)⟩
    · rw [if_neg heven] at hroll
      obtain ⟨hle, hindex, hodd⟩ := ih hroll
      refine ⟨by omega, hindex, fun i hi hlt => ?_⟩
      by_cases hfirst : i = first
      · rw [hfirst]
        simpa using heven
      · exact hodd i (by omega) hlt

/-- `multisigIncomingKeyAt`, whose view key and public key follow from the index. -/
def multisigIncomingKeyAt (v : Fr) (startIndex : ℕ) : Except String ℕ :=
  rollFrom lib (deriveMultisigIncomingKey hash v) startIndex startIndex Wallet.maxIndexRoll

namespace MultisigScanner

/-- Registers the scalar of a member at an index, if its point has a tag; with whether the tag is new. -/
def registerSelf (memberId j : ℕ) (s : MultisigScanner) : Bool × MultisigScanner :=
  let eph := deriveSelfEph hash s.v memberId j
  if isEvenY (publicKey lib eph) then
    let key := discoveryTag (publicKey lib eph)
    ((s.selfTags key).isNone, { s with selfTags := Function.update s.selfTags key (some ⟨memberId, j, eph⟩) })
  else (false, s)

/-- The indices of a member from one on, as many as are left. -/
def registerSelfFrom (memberId : ℕ) : ℕ → ℕ → MultisigScanner → Bool × MultisigScanner
  | _, 0, s => (false, s)
  | next, left + 1, s =>
    let registered := s.registerSelf lib hash memberId next
    let rest := registerSelfFrom memberId (next + 1) left registered.2
    (registered.1 || rest.1, rest.2)

/-- A member's part of `ensureSelfLookahead`. -/
def ensureMember (window : ℤ) (memberId : ℕ) (s : MultisigScanner) : Bool × MultisigScanner :=
  let target := s.highestMatchedSelf memberId + 1 + window
  let next := s.selfScanJ memberId
  let registered := registerSelfFrom lib hash memberId next (target - next).toNat s
  (registered.1,
    { registered.2 with
      selfScanJ := Function.update registered.2.selfScanJ memberId (next + (target - next).toNat) })

/-- The loop of `ensureSelfLookahead` over the members. -/
def ensureMembers (window : ℤ) : List ℕ → MultisigScanner → Bool × MultisigScanner
  | [], s => (false, s)
  | memberId :: members, s =>
    let first := s.ensureMember lib hash window memberId
    let rest := ensureMembers window members first.2
    (first.1 || rest.1, rest.2)

/-- `ensureSelfLookahead`, with whether it advanced. -/
def ensureSelfLookahead (window : ℤ) (s : MultisigScanner) : Except String Bool × MultisigScanner :=
  match assertWindow window "self" with
  | .error e => (.error e, s)
  | .ok window =>
    let ensured := s.ensureMembers lib hash window s.memberIds
    (.ok ensured.1, ensured.2)

/-- Registers the address at an index. -/
def registerIncoming (index : ℕ) (s : MultisigScanner) : Bool × MultisigScanner :=
  let viewKey := deriveMultisigIncomingKey hash s.v index
  let key := discoveryTag (publicKey lib viewKey)
  ((s.incomingTags key).isNone,
    { s with
      incomingTags := Function.update s.incomingTags key (some ⟨index, viewKey⟩)
      incomingScanIndex := index + 1 })

/-- The loop of `ensureIncomingLookahead`, which every turn takes on by one index at least. -/
def registerIncomingTo (target : ℤ) : ℕ → MultisigScanner → Except String Bool × MultisigScanner
  | 0, s => (.ok false, s)
  | left + 1, s =>
    if s.incomingScanIndex < target then
      match multisigIncomingKeyAt lib hash s.v s.incomingScanIndex with
      | .error e => (.error e, s)
      | .ok index =>
        let registered := s.registerIncoming lib hash index
        let rest := registerIncomingTo target left registered.2
        (rest.1.map (registered.1 || ·), rest.2)
    else (.ok false, s)

/-- `ensureIncomingLookahead`, with whether it advanced. -/
def ensureIncomingLookahead (window : ℤ) (s : MultisigScanner) : Except String Bool × MultisigScanner :=
  match assertWindow window "incoming" with
  | .error e => (.error e, s)
  | .ok window =>
    let target := s.highestMatchedIncoming + 1 + window
    s.registerIncomingTo lib hash target (target - s.incomingScanIndex).toNat

/-- The loop of `create` over the members. -/
def createSelf (limit : ℕ) (members : List ℕ) (s : MultisigScanner) : MultisigScanner :=
  members.foldl (fun s memberId =>
    let registered := (registerSelfFrom lib hash memberId 0 limit s).2
    { registered with selfScanJ := Function.update registered.selfScanJ memberId limit }) s

/-- The loop of `create` over the receiving addresses. -/
def createIncoming (limit : ℕ) : ℕ → ℕ → MultisigScanner → Except String MultisigScanner
  | _, 0, s => .ok s
  | next, left + 1, s =>
    if next < limit then do
      let index ← multisigIncomingKeyAt lib hash s.v next
      if limit ≤ index then .ok s
      else createIncoming limit (index + 1) left (s.registerIncoming lib hash index).2
    else .ok s

/-- `create`. -/
def create (cfg : MultisigScanConfig) : Except String MultisigScanner := do
  let _ ← multisigIncomingKeyAt lib hash cfg.v 0
  let window ← assertWindow (cfg.selfWindow.getD defaultSelfWindow) "self"
  let incomingWindow ← assertWindow (cfg.incomingWindow.getD defaultIncomingWindow) "incoming"
  let start : MultisigScanner :=
    ⟨cfg.v, cfg.compliancePk, 0, pubkeyOwner hash cfg.gpk, fun _ => none, fun _ => none, cfg.memberIds, fun _ => 0,
      fun _ => -1, 0, -1⟩
  let incomingLimit := (min incomingWindow maxSelfRoll).toNat
  let s := createSelf lib hash (min window maxSelfRoll).toNat cfg.memberIds start
  let s ← createIncoming lib hash incomingLimit 0 incomingLimit s
  return { s with incomingScanIndex := incomingLimit }

/-- `#recover`. -/
def recover (s : MultisigScanner) (event : UnprocessedEvent) (cek : Fr) (isIncoming : Bool)
    (memberId derivationJ : Option ℕ) : Except String (Option MultisigNoteView) := do
  let note ← openNote hash cek event.args.packedCiphertext
  let commitment ← toFr event.args.commitment
  let rebuilt ← leaf hash note
  if rebuilt ≠ commitment then return none
  else if note.noteType ≠ noteTypeMultisig then return none
  else if note.owner ≠ s.expectedOwner then return none
  else if assetModulus ≤ note.assetId.val then return none
  else
    return some {
      note := note
      commitment := commitment
      leafIndex := event.args.leafIndex
      nullifier := computeNullifier hash note.psi event.args.leafIndex
      isIncoming := isIncoming
      memberId := memberId
      derivationJ := derivationJ }

/-- The end of `#readIncoming`. -/
def openIncoming (s : MultisigScanner) (event : UnprocessedEvent) (cekWrap : ℤ) (source : IncomingSource) :
    Except String (Option MultisigNoteView) := do
  let ephPub ← recoverEvenY event.args.ephemeralX
  let wrapped ← newFr cekWrap
  let cek ← unwrapCek lib hash wrapped source.viewKey ephPub
  s.recover hash event cek true none (some source.index)

/-- The source a tag has in a map, none for a number that is no field element. -/
def sourceOf {σ : Type} (tags : Fr → Option σ) (tag : ℤ) : Option σ :=
  if 0 ≤ tag ∧ tag < bn254ScalarFieldModulus then tags (tag : Fr) else none

/-- The number of a field element stands for it. -/
theorem sourceOf_val {σ : Type} {tags : Fr → Option σ} {tag : Fr} : sourceOf tags tag.val = tags tag := by
  unfold sourceOf
  rw [if_pos ⟨Int.natCast_nonneg _, Int.ofNat_lt.2 (ZMod.val_lt tag)⟩, Int.cast_natCast, ZMod.natCast_zmod_val]

/-- `#readIncoming`, whose error is caught by `readNote`. -/
def readIncoming (s : MultisigScanner) (event : UnprocessedEvent) : Option MultisigNoteView × MultisigScanner :=
  match event.args.tag, event.args.cekWrap with
  | some tag, some cekWrap =>
    match sourceOf s.incomingTags tag with
    | none => (none, s)
    | some source =>
      let s := { s with highestMatchedIncoming := max s.highestMatchedIncoming source.index }
      match s.openIncoming lib hash event cekWrap source with
      | .error _ => (none, s)
      | .ok view => (view, s)
  | _, _ => (none, s)

/-- A turn of the loop of `#readSelf`: the shared key is derived outside of the `try`. -/
def tryEpoch (s : MultisigScanner) (event : UnprocessedEvent) (source : SelfSource) (epoch : ComplianceKeyEpoch) :
    Attempt String MultisigNoteView :=
  match deriveCek lib source.eph epoch.pk with
  | .error e => .thrown e
  | .ok cek =>
    match s.recover hash event cek false (some source.memberId) (some source.j) with
    | .error _ => .next
    | .ok none => .next
    | .ok (some view) => .answer view

/-- `#readSelf`, whose error is caught by `readNote`. -/
def readSelf (s : MultisigScanner) (event : UnprocessedEvent) : Option MultisigNoteView × MultisigScanner :=
  match sourceOf s.selfTags event.args.ephemeralX with
  | none => (none, s)
  | some source =>
    let s := { s with
      highestMatchedSelf :=
        Function.update s.highestMatchedSelf source.memberId (max (s.highestMatchedSelf source.memberId) source.j) }
    match trial (s.tryEpoch lib hash event source) (s.complianceKeys.candidatesFor (some event.blockNumber)) with
    | .error _ => (none, s)
    | .ok none => (none, { s with unopenable := s.unopenable + 1 })
    | .ok (some view) => (some view, s)

/-- `readNote`. -/
def readNote (s : MultisigScanner) (event : UnprocessedEvent) : Option MultisigNoteView × MultisigScanner :=
  match event.type with
  | .newMemo => s.readIncoming lib hash event
  | .newNote => s.readSelf lib hash event

end MultisigScanner

/-! ## Calls -/

/-- A call of a scanner, with any number as the window. -/
inductive ScanCall where
  | readNote (event : UnprocessedEvent)
  | ensureSelfLookahead (window : Double)
  | ensureIncomingLookahead (window : Double)

/-- The scanner after a call: `assertWindow` throws at a window that is no integer. -/
def ScanCall.apply (s : MultisigScanner) : ScanCall → MultisigScanner
  | readNote event => (s.readNote lib hash event).2
  | ensureSelfLookahead (.int window) => (s.ensureSelfLookahead lib hash window).2
  | ensureIncomingLookahead (.int window) => (s.ensureIncomingLookahead lib hash window).2
  | ensureSelfLookahead _ => s
  | ensureIncomingLookahead _ => s

/-- What the calls keep that a reading and both extensions keep. -/
theorem ScanCall.apply_keeps {P : MultisigScanner → MultisigScanner → Prop} (hrefl : ∀ s, P s s)
    (hread : ∀ s event, P s (s.readNote lib hash event).2)
    (hself : ∀ s window, P s (s.ensureSelfLookahead lib hash window).2)
    (hincoming : ∀ s window, P s (s.ensureIncomingLookahead lib hash window).2) (call : ScanCall) (s : MultisigScanner) :
    P s (call.apply lib hash s) := by
  cases call with
  | readNote event => exact hread s event
  | ensureSelfLookahead window =>
    cases window with
    | int window => exact hself s window
    | infinity => exact hrefl s
    | other => exact hrefl s
  | ensureIncomingLookahead window =>
    cases window with
    | int window => exact hincoming s window
    | infinity => exact hrefl s
    | other => exact hrefl s

/-- The scanner after calls. -/
def scanned (s : MultisigScanner) (calls : List ScanCall) : MultisigScanner :=
  calls.foldl (ScanCall.apply lib hash) s

end Scanner

/-! ## What the calls keep -/

variable {lib : Tss.Library} {hash : List Fr → Fr}

/-- A scalar and its tag. -/
structure TagOf (lib : Tss.Library) (tag scalar : Fr) : Prop where
  even : isEvenY (publicKey lib scalar) = true
  tag : tag = discoveryTag (publicKey lib scalar)

/-- A scanner of a group: what is registered is derived. -/
structure Serves (lib : Tss.Library) (hash : List Fr → Fr) (cfg : MultisigScanConfig) (s : MultisigScanner) : Prop where
  v : s.v = cfg.v
  keys : s.complianceKeys = cfg.compliancePk
  owner : s.expectedOwner = pubkeyOwner hash cfg.gpk
  self : ∀ tag source, s.selfTags tag = some source →
    TagOf lib tag source.eph ∧ source.eph = deriveSelfEph hash cfg.v source.memberId source.j
  incoming : ∀ tag source, s.incomingTags tag = some source →
    TagOf lib tag source.viewKey ∧ source.viewKey = deriveMultisigIncomingKey hash cfg.v source.index

namespace Serves

variable {cfg : MultisigScanConfig} {s s' : MultisigScanner}

/-- The counts of a scanner do not matter. -/
theorem congr (h : Serves lib hash cfg s) (hv : s'.v = s.v) (hkeys : s'.complianceKeys = s.complianceKeys)
    (howner : s'.expectedOwner = s.expectedOwner) (hself : s'.selfTags = s.selfTags)
    (hincoming : s'.incomingTags = s.incomingTags) : Serves lib hash cfg s' where
  v := hv.trans h.v
  keys := hkeys.trans h.keys
  owner := howner.trans h.owner
  self := by
    rw [hself]
    exact h.self
  incoming := by
    rw [hincoming]
    exact h.incoming

theorem registerSelf (h : Serves lib hash cfg s) (memberId j : ℕ) :
    Serves lib hash cfg (s.registerSelf lib hash memberId j).2 := by
  unfold MultisigScanner.registerSelf
  dsimp only
  split
  · rename_i heven
    refine ⟨h.v, h.keys, h.owner, ?_, h.incoming⟩
    intro tag source hsource
    simp only [Function.update_apply] at hsource
    split at hsource
    · rename_i htag
      cases hsource
      exact ⟨⟨heven, htag⟩, by rw [h.v]⟩
    · exact h.self tag source hsource
  · exact h

theorem registerSelfFrom (h : Serves lib hash cfg s) (memberId next left : ℕ) :
    Serves lib hash cfg (MultisigScanner.registerSelfFrom lib hash memberId next left s).2 := by
  induction left generalizing next s with
  | zero => exact h
  | succ left ih => exact ih (h.registerSelf memberId next) (next + 1)

theorem ensureMember (h : Serves lib hash cfg s) (window : ℤ) (memberId : ℕ) :
    Serves lib hash cfg (s.ensureMember lib hash window memberId).2 :=
  (h.registerSelfFrom memberId (s.selfScanJ memberId) _).congr rfl rfl rfl rfl rfl

theorem ensureMembers (h : Serves lib hash cfg s) (window : ℤ) (members : List ℕ) :
    Serves lib hash cfg (MultisigScanner.ensureMembers lib hash window members s).2 := by
  induction members generalizing s with
  | nil => exact h
  | cons memberId members ih => exact ih (h.ensureMember window memberId)

theorem ensureSelfLookahead (h : Serves lib hash cfg s) (window : ℤ) :
    Serves lib hash cfg (s.ensureSelfLookahead lib hash window).2 := by
  unfold MultisigScanner.ensureSelfLookahead
  split
  · exact h
  · exact h.ensureMembers _ _

theorem registerIncoming (h : Serves lib hash cfg s) {start index : ℕ}
    (hroll : multisigIncomingKeyAt lib hash s.v start = .ok index) :
    Serves lib hash cfg (s.registerIncoming lib hash index).2 := by
  refine ⟨h.v, h.keys, h.owner, h.self, ?_⟩
  intro tag source hsource
  simp only [MultisigScanner.registerIncoming, Function.update_apply] at hsource
  split at hsource
  · rename_i htag
    cases hsource
    exact ⟨⟨(rollFrom_spec hroll).2.1, htag⟩, by rw [h.v]⟩
  · exact h.incoming tag source hsource

theorem registerIncomingTo (h : Serves lib hash cfg s) (target : ℤ) (left : ℕ) :
    Serves lib hash cfg (MultisigScanner.registerIncomingTo lib hash target left s).2 := by
  induction left generalizing s with
  | zero => exact h
  | succ left ih =>
    rw [MultisigScanner.registerIncomingTo]
    split
    · split
      · exact h
      · rename_i index hroll
        exact ih (h.registerIncoming hroll)
    · exact h

theorem ensureIncomingLookahead (h : Serves lib hash cfg s) (window : ℤ) :
    Serves lib hash cfg (s.ensureIncomingLookahead lib hash window).2 := by
  unfold MultisigScanner.ensureIncomingLookahead
  split
  · exact h
  · exact h.registerIncomingTo _ _

theorem readNote (h : Serves lib hash cfg s) (event : UnprocessedEvent) :
    Serves lib hash cfg (s.readNote lib hash event).2 := by
  unfold MultisigScanner.readNote
  split
  · unfold MultisigScanner.readIncoming
    split
    · split
      · exact h
      · dsimp only
        split <;> exact h.congr rfl rfl rfl rfl rfl
    · exact h
  · unfold MultisigScanner.readSelf
    split
    · exact h
    · dsimp only
      split <;> exact h.congr rfl rfl rfl rfl rfl

/-- Every call registers derived scalars only. -/
theorem apply (h : Serves lib hash cfg s) (call : ScanCall) : Serves lib hash cfg (call.apply lib hash s) :=
  ScanCall.apply_keeps lib hash (P := fun s s' => Serves lib hash cfg s → Serves lib hash cfg s') (fun _ h => h)
    (fun _ event h => h.readNote event) (fun _ window h => h.ensureSelfLookahead window)
    (fun _ window h => h.ensureIncomingLookahead window) call s h

theorem createSelf (h : Serves lib hash cfg s) (limit : ℕ) (members : List ℕ) :
    Serves lib hash cfg (MultisigScanner.createSelf lib hash limit members s) := by
  unfold MultisigScanner.createSelf
  induction members generalizing s with
  | nil => exact h
  | cons memberId members ih => exact ih ((h.registerSelfFrom memberId 0 limit).congr rfl rfl rfl rfl rfl)

theorem createIncoming (h : Serves lib hash cfg s) {limit next left : ℕ}
    (hok : MultisigScanner.createIncoming lib hash limit next left s = .ok s') : Serves lib hash cfg s' := by
  induction left generalizing next s with
  | zero =>
    cases hok
    exact h
  | succ left ih =>
    rw [MultisigScanner.createIncoming] at hok
    split at hok
    · obtain ⟨index, hroll, hok⟩ := bind_eq_ok.1 hok
      split at hok
      · cases hok
        exact h
      · exact ih (h.registerIncoming hroll) hok
    · cases hok
      exact h

end Serves

/-- A new scanner has derived scalars only. -/
theorem create_serves {cfg : MultisigScanConfig} {s : MultisigScanner}
    (h : MultisigScanner.create lib hash cfg = .ok s) : Serves lib hash cfg s := by
  unfold MultisigScanner.create at h
  obtain ⟨_, -, h⟩ := bind_eq_ok.1 h
  obtain ⟨window, -, h⟩ := bind_eq_ok.1 h
  obtain ⟨incomingWindow, -, h⟩ := bind_eq_ok.1 h
  obtain ⟨created, hcreated, h⟩ := bind_eq_ok.1 h
  cases h
  refine Serves.congr (s := created) (Serves.createIncoming (Serves.createSelf ?_ _ _) hcreated) rfl rfl rfl rfl rfl
  refine ⟨rfl, rfl, rfl, ?_, ?_⟩
  · intro tag source hsource
    cases hsource
  · intro tag source hsource
    cases hsource

/-- So has a scanner after any calls. -/
theorem calls_serve {cfg : MultisigScanConfig} {s : MultisigScanner} (h : Serves lib hash cfg s) (calls : List ScanCall) :
    Serves lib hash cfg (scanned lib hash s calls) := by
  induction calls generalizing s with
  | nil => exact h
  | cons call calls ih => exact ih (h.apply call)

end Kakure.Frost
