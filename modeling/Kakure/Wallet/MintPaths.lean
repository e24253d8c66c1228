import Kakure.Lib.Runs
import Kakure.Notes.Derivation
import Kakure.Notes.Kem
import Kakure.Wallet.KeyRepository

/-!
# The mint paths of the applications

Where the web application and the command line reserve the ephemeral index of a self note, and
from which counter store: `depositToTreasury` and `payOneRecipient` of `treasuryFlows.ts` as
`TreasuryPage.tsx` calls them, `runDeposit` of the command line, and the withdrawal of
`ClaimPage.tsx` with its change note.

* `AppAct.step_unique` — an index is not used again, if the store an action reserves from is past
  the indices that are in use;
* `ephemerals_unique` — so in every run of such actions no two notes have one scalar;
* `ephemeral_repeated` — two deposits from fresh stores have.
-/

namespace Kakure.Wallet

open Notes Tss Runs

/-- The source of a family of scalars: an account, or a member of a group. -/
inductive Family where
  | account (skView : Fr)
  | group (v : Fr) (memberId : ℕ)
  deriving DecidableEq

/-- The scalar at an index of a family. -/
def Family.derive (hash : List Fr → Fr) : Family → ℕ → Fr
  | account skView, index => deriveSelfEphemeral hash skView index
  | group v memberId, index => deriveSelfEph hash v memberId index

/-- The scope a path reserves in: `SELF_EPH_SCOPE`, `DEPOSIT_SELF_SCOPE`, or `depositScope`. -/
inductive Scope where
  | self
  | deposit
  | msSelf (viewCommitment : Fr) (memberId : ℕ)
  deriving DecidableEq

/-- The marks of a counter store. -/
abbrev Marks := Scope → ℕ

/-- One index after the other is reserved until one has a point with a tag. -/
def rollReserve (even : ℕ → Bool) : ℕ → ℕ → Option ℕ × ℕ
  | 0, mark => (none, mark)
  | left + 1, mark => if even mark then (some mark, mark + 1) else rollReserve even left (mark + 1)

/-- The point of an index of a family has a tag. -/
def Family.even (lib : Library) (hash : List Fr → Fr) (f : Family) (index : ℕ) : Bool :=
  isEvenY (publicKey lib (f.derive hash index))

/-- `multisigDepositEph`, and `nextSelfEphemeral` of a repository on the store. -/
def reserveEphemeral (lib : Library) (hash : List Fr → Fr) (f : Family) (scope : Scope) (marks : Marks) :
    Option ℕ × Marks :=
  let rolled := rollReserve (f.even lib hash) maxIndexRoll (marks scope)
  (rolled.1, Function.update marks scope rolled.2)

/-- A store: one that an action has to itself, the one of a payroll batch, or the storage of a browser
for a wallet. -/
inductive StoreId where
  | fresh
  | batch (id : ℕ)
  | browser (profile : ℕ) (wallet : String)
  deriving DecidableEq

/-- A path to a self note, with the store its application passes. -/
inductive Path where
  | depositToTreasury (v : Fr) (memberId : ℕ)
  | payOneRecipient (batch : ℕ) (v : Fr) (memberId : ℕ)
  | runDeposit (skView : Fr)
  | withdraw (profile : ℕ) (wallet : String) (skView : Fr)

namespace Path

def family : Path → Family
  | depositToTreasury v memberId => .group v memberId
  | payOneRecipient _ v memberId => .group v memberId
  | runDeposit skView => .account skView
  | withdraw _ _ skView => .account skView

def scope (hash : List Fr → Fr) : Path → Scope
  | depositToTreasury v memberId => .msSelf (hash [v]) memberId
  | payOneRecipient _ v memberId => .msSelf (hash [v]) memberId
  | runDeposit _ => .deposit
  | withdraw _ _ _ => .self

def store : Path → StoreId
  | depositToTreasury _ _ => .fresh
  | payOneRecipient batch _ _ => .batch batch
  | runDeposit _ => .fresh
  | withdraw profile wallet _ => .browser profile wallet

end Path

/-- The ephemeral of a self note, reserved or on chain. -/
structure Mint where
  family : Family
  index : ℕ
  eph : Fr

/-- The applications of all users: the storage of the browsers, the batches that run, the notes that are
reserved for or submitted, and those on chain. -/
structure Apps where
  storage : ℕ → String → Marks
  batches : ℕ → Option Marks
  pending : ℕ → Option Mint
  minted : List Mint

/-- Nothing has run. -/
def Apps.start : Apps := ⟨fun _ _ _ => 0, fun _ => none, fun _ => none, []⟩

namespace Apps

/-- The marks of the store a path reserves from. -/
def marks (a : Apps) (path : Path) : Marks :=
  match path.store with
  | .fresh => fun _ => 0
  | .batch id => (a.batches id).getD fun _ => 0
  | .browser profile wallet => a.storage profile wallet

/-- Writes the marks of a store back; a store nobody keeps is gone. -/
def writeMarks (a : Apps) (store : StoreId) (marks : Marks) : Apps :=
  match store with
  | .fresh => a
  | .batch id => { a with batches := Function.update a.batches id (some marks) }
  | .browser profile wallet =>
    { a with storage := Function.update a.storage profile (Function.update (a.storage profile) wallet marks) }

/-- The process that has a store still runs. -/
def isOpen (a : Apps) : StoreId → Bool
  | .fresh => true
  | .batch id => (a.batches id).isSome
  | .browser _ _ => true

/-- What a path reserves: `runDeposit` takes the first index, the others roll. -/
def reserveFor (lib : Library) (hash : List Fr → Fr) (a : Apps) (path : Path) : Option ℕ × Marks :=
  match path with
  | .runDeposit _ => (some (a.marks path (path.scope hash)),
      Function.update (a.marks path) (path.scope hash) (a.marks path (path.scope hash) + 1))
  | _ => reserveEphemeral lib hash path.family (path.scope hash) (a.marks path)

end Apps

/-- One step: an application reserves, a reserved note gets on chain or is given up, a batch starts, or
the processes restart, which only the storage of the browsers and what was submitted outlive. -/
inductive AppAct where
  | reserve (id : ℕ) (path : Path)
  | land (id : ℕ)
  | drop (id : ℕ)
  | openBatch (id : ℕ)
  | restart

namespace Apps

variable (lib : Library) (hash : List Fr → Fr)

/-- A path reserves, if its process runs and no other note goes under its number. -/
def reserve (a : Apps) (id : ℕ) (path : Path) : Apps :=
  if (a.pending id).isSome || !a.isOpen path.store then a
  else
    let reserved := a.reserveFor lib hash path
    { a.writeMarks path.store reserved.2 with
      pending := Function.update a.pending id
        (reserved.1.map fun index => ⟨path.family, index, path.family.derive hash index⟩) }

/-- A note gets on chain: the circuits accept only a point with a tag. -/
def land (a : Apps) (id : ℕ) : Apps :=
  match a.pending id with
  | none => a
  | some m =>
    { a with
      pending := Function.update a.pending id none
      minted := if isEvenY (publicKey lib m.eph) then a.minted ++ [m] else a.minted }

def act (a : Apps) : AppAct → Apps
  | .reserve id path => a.reserve lib hash id path
  | .land id => a.land lib id
  | .drop id => { a with pending := Function.update a.pending id none }
  | .openBatch id =>
    if (a.batches id).isSome then a else { a with batches := Function.update a.batches id (some fun _ => 0) }
  | .restart => { a with batches := fun _ => none }

/-- A note that is on chain, or that may get there. -/
def Used (a : Apps) (m : Mint) : Prop := m ∈ a.minted ∨ ∃ id, a.pending id = some m

end Apps

/-- The store an action reserves from is past the indices of its family that are in use. -/
def PastUsed (hash : List Fr → Fr) (a : Apps) : AppAct → Prop
  | .reserve _ path => ∀ m, a.Used m → m.family = path.family → m.index < a.marks path (path.scope hash)
  | _ => True

def AppStep (lib : Library) (hash : List Fr → Fr) (a : Apps) (act : AppAct) (a' : Apps) : Prop :=
  PastUsed hash a act ∧ a' = a.act lib hash act

/-! ## One step -/

/-- No index of a family is used twice. -/
structure Apps.Unique (lib : Library) (hash : List Fr → Fr) (a : Apps) : Prop where
  derived : ∀ m, a.Used m → m.eph = m.family.derive hash m.index
  tagged : ∀ m ∈ a.minted, isEvenY (publicKey lib m.eph) = true
  minted : a.minted.Pairwise fun m m' => (m.family, m.index) ≠ (m'.family, m'.index)
  landing : ∀ id m, a.pending id = some m → ∀ m' ∈ a.minted, (m.family, m.index) ≠ (m'.family, m'.index)
  pending : ∀ id id' m m', a.pending id = some m → a.pending id' = some m' → id ≠ id' →
    (m.family, m.index) ≠ (m'.family, m'.index)

variable {lib : Library} {hash : List Fr → Fr}

theorem rollReserve_ge {even : ℕ → Bool} {left mark index : ℕ} (h : (rollReserve even left mark).1 = some index) :
    mark ≤ index := by
  induction left generalizing mark with
  | zero => cases h
  | succ left ih =>
    rw [rollReserve] at h
    split at h
    · cases h
      exact le_rfl
    · have := ih h
      omega

/-- A path gets an index at or past the mark of its store. -/
theorem Apps.reserveFor_ge {a : Apps} {path : Path} {index : ℕ}
    (h : (a.reserveFor lib hash path).1 = some index) : a.marks path (path.scope hash) ≤ index := by
  cases path with
  | depositToTreasury v memberId => exact rollReserve_ge h
  | payOneRecipient batch v memberId => exact rollReserve_ge h
  | runDeposit skView =>
    cases h
    exact le_rfl
  | withdraw profile wallet skView => exact rollReserve_ge h

@[simp] theorem Apps.minted_writeMarks (a : Apps) (store : StoreId) (marks : Marks) :
    (a.writeMarks store marks).minted = a.minted := by
  cases store <;> rfl

/-- What a reservation does: nothing, or one note is pending at an index past the mark, or none was found. -/
theorem Apps.reserve_cases (lib : Library) (hash : List Fr → Fr) (a : Apps) (id : ℕ) (path : Path) :
    a.reserve lib hash id path = a ∨
    (a.reserve lib hash id path).minted = a.minted ∧
      ∃ found : Option ℕ, (∀ index, found = some index → a.marks path (path.scope hash) ≤ index) ∧
        (a.reserve lib hash id path).pending = Function.update a.pending id
          (found.map fun index => ⟨path.family, index, path.family.derive hash index⟩) := by
  unfold Apps.reserve
  split
  · exact Or.inl rfl
  · refine Or.inr ⟨?_, (a.reserveFor lib hash path).1, fun index h => Apps.reserveFor_ge h, rfl⟩
    exact a.minted_writeMarks _ _

/-- One note more is pending, at an index nobody uses. -/
theorem Apps.Unique.reserve {a a' : Apps} (h : a.Unique lib hash) {id : ℕ} {m : Mint}
    (hminted : a'.minted = a.minted) (hpending : a'.pending = Function.update a.pending id (some m))
    (hderived : m.eph = m.family.derive hash m.index)
    (hnew : ∀ m', a.Used m' → (m.family, m.index) ≠ (m'.family, m'.index)) : a'.Unique lib hash := by
  have hget : ∀ id' m', a'.pending id' = some m' → id' = id ∧ m' = m ∨ id' ≠ id ∧ a.pending id' = some m' := by
    intro id' m' hm
    rw [hpending, Function.update_apply] at hm
    split at hm
    · rename_i hid
      cases hm
      exact Or.inl ⟨hid, rfl⟩
    · rename_i hid
      exact Or.inr ⟨hid, hm⟩
  refine ⟨?_, by rw [hminted]; exact h.tagged, by rw [hminted]; exact h.minted, ?_, ?_⟩
  · rintro m' (hm | ⟨id', hm⟩)
    · rw [hminted] at hm
      exact h.derived m' (Or.inl hm)
    · rcases hget id' m' hm with ⟨-, rfl⟩ | ⟨-, hm⟩
      · exact hderived
      · exact h.derived m' (Or.inr ⟨id', hm⟩)
  · intro id' m' hm m'' hm''
    rw [hminted] at hm''
    rcases hget id' m' hm with ⟨-, rfl⟩ | ⟨-, hm⟩
    · exact hnew m'' (Or.inl hm'')
    · exact h.landing id' m' hm m'' hm''
  · intro id₁ id₂ m₁ m₂ h₁ h₂ hne
    rcases hget id₁ m₁ h₁ with ⟨hid₁, rfl⟩ | ⟨-, h₁⟩
    · rcases hget id₂ m₂ h₂ with ⟨hid₂, -⟩ | ⟨-, h₂⟩
      · exact absurd (hid₁.trans hid₂.symm) hne
      · exact hnew m₂ (Or.inr ⟨id₂, h₂⟩)
    · rcases hget id₂ m₂ h₂ with ⟨-, rfl⟩ | ⟨-, h₂⟩
      · exact (hnew m₁ (Or.inr ⟨id₁, h₁⟩)).symm
      · exact h.pending id₁ id₂ m₁ m₂ h₁ h₂ hne

/-- Notes that are given up change nothing for the others. -/
theorem Apps.Unique.forget {a a' : Apps} (h : a.Unique lib hash) (hminted : a'.minted = a.minted)
    (hpending : ∀ id m, a'.pending id = some m → a.pending id = some m) : a'.Unique lib hash := by
  refine ⟨?_, by rw [hminted]; exact h.tagged, by rw [hminted]; exact h.minted, ?_, ?_⟩
  · rintro m (hm | ⟨id, hm⟩)
    · rw [hminted] at hm
      exact h.derived m (Or.inl hm)
    · exact h.derived m (Or.inr ⟨id, hpending id m hm⟩)
  · intro id m hm
    rw [hminted]
    exact h.landing id m (hpending id m hm)
  · intro id id' m m' hm hm'
    exact h.pending id id' m m' (hpending id m hm) (hpending id' m' hm')

theorem pending_of_update {pending : ℕ → Option Mint} {id id' : ℕ} {m : Mint}
    (h : Function.update pending id none id' = some m) : id' ≠ id ∧ pending id' = some m := by
  rw [Function.update_apply] at h
  split at h
  · cases h
  · rename_i hid
    exact ⟨hid, h⟩

/-- A pending note gets on chain. -/
theorem Apps.Unique.land {a : Apps} (h : a.Unique lib hash) (id : ℕ) : (a.land lib id).Unique lib hash := by
  unfold Apps.land
  cases hm : a.pending id with
  | none => exact h
  | some m =>
    dsimp only
    split
    · rename_i heven
      refine ⟨?_, ?_, ?_, ?_, ?_⟩
      · rintro m' (hm' | ⟨id', hm'⟩)
        · rcases List.mem_append.1 hm' with hm' | hm'
          · exact h.derived m' (Or.inl hm')
          · rw [List.mem_singleton.1 hm']
            exact h.derived m (Or.inr ⟨id, hm⟩)
        · exact h.derived m' (Or.inr ⟨id', (pending_of_update hm').2⟩)
      · intro m' hm'
        rcases List.mem_append.1 hm' with hm' | hm'
        · exact h.tagged m' hm'
        · rw [List.mem_singleton.1 hm']
          exact heven
      · refine List.pairwise_append.2 ⟨h.minted, List.pairwise_singleton _ _, ?_⟩
        intro m' hm' m'' hm''
        rw [List.mem_singleton.1 hm'']
        exact (h.landing id m hm m' hm').symm
      · intro id' m' hm' m'' hm''
        obtain ⟨hne, hm'⟩ := pending_of_update hm'
        rcases List.mem_append.1 hm'' with hm'' | hm''
        · exact h.landing id' m' hm' m'' hm''
        · rw [List.mem_singleton.1 hm'']
          exact h.pending id' id m' m hm' hm hne
      · intro id₁ id₂ m₁ m₂ h₁ h₂
        exact h.pending id₁ id₂ m₁ m₂ (pending_of_update h₁).2 (pending_of_update h₂).2
    · exact h.forget rfl fun id' m' hm' => (pending_of_update hm').2

/-- A step whose store is past the indices in use uses none of them again. -/
theorem AppAct.step_unique {a : Apps} (act : AppAct) (h : a.Unique lib hash) (hpast : PastUsed hash a act) :
    (a.act lib hash act).Unique lib hash := by
  cases act with
  | reserve id path =>
    rw [Apps.act]
    rcases a.reserve_cases lib hash id path with hsame | ⟨hminted, found, hge, hpending⟩
    · rw [hsame]
      exact h
    · cases found with
      | none =>
        refine h.forget hminted fun id' m hm => ?_
        rw [hpending] at hm
        exact (pending_of_update hm).2
      | some index =>
        refine h.reserve hminted hpending rfl ?_
        intro m' hused heq
        obtain ⟨hfamily, hindex⟩ := Prod.ext_iff.1 heq
        have hlt := hpast m' hused hfamily.symm
        have hle := hge index rfl
        dsimp only at hindex
        omega
  | land id => exact h.land id
  | drop id => exact h.forget rfl fun id' m hm => (pending_of_update hm).2
  | openBatch id =>
    rw [Apps.act]
    split
    · exact h
    · exact h.forget rfl fun _ _ hm => hm
  | restart => exact h.forget rfl fun _ _ hm => hm

/-! ## Whole runs -/

theorem unique_start : Apps.start.Unique lib hash where
  derived := by
    rintro m (hm | ⟨id, hm⟩)
    · cases hm
    · cases hm
  tagged := by
    intro m hm
    cases hm
  minted := List.Pairwise.nil
  landing := by
    intro id m hm
    cases hm
  pending := by
    intro id id' m m' hm
    cases hm

theorem unique_of_run {acts : List AppAct} {a : Apps} (hrun : Run (AppStep lib hash) .start acts a) :
    a.Unique lib hash := by
  refine hrun.invariant (P := fun _ a => a.Unique lib hash) unique_start ?_
  rintro acts a act a' - h ⟨hpast, rfl⟩
  exact act.step_unique h hpast

theorem Family.derive_lt (hash : List Fr → Fr) (f : Family) (index : ℕ) : (f.derive hash index).val < subOrder := by
  cases f with
  | account skView => exact toBjjScalar_lt _
  | group v memberId => exact toBjjScalar_lt _

/-- Two notes share no scalar, no tag, and no content key under any compliance key. -/
structure Mint.Apart (lib : Library) (m m' : Mint) : Prop where
  eph : m.eph ≠ m'.eph
  tag : discoveryTag (publicKey lib m.eph) ≠ discoveryTag (publicKey lib m'.eph)
  cek : ∀ pk cek, Reduced pk → deriveCek lib m.eph pk = .ok cek → deriveCek lib m'.eph pk ≠ .ok cek

theorem Mint.apart (hlib : lib.Lawful) {m m' : Mint} (hlt : m.eph.val < subOrder) (hlt' : m'.eph.val < subOrder)
    (hne : m.eph ≠ m'.eph) : m.Apart lib m' where
  eph := hne
  tag := fun htag => hne (eq_of_discoveryTag_eq hlib hlt hlt' htag)
  cek := fun _ _ hreduced hcek hcek' => hne (deriveCek_injective hlib hreduced hcek hcek')

/-- The derivation has no collision among some notes. -/
def NoCollision (hash : List Fr → Fr) (minted : List Mint) : Prop :=
  Set.InjOn (fun key : Family × ℕ => key.1.derive hash key.2) {key | ∃ m ∈ minted, key = (m.family, m.index)}

/-- In every run whose stores are past the indices in use, no two notes have one scalar. -/
theorem ephemerals_unique (hlib : lib.Lawful) {acts : List AppAct} {a : Apps}
    (hrun : Run (AppStep lib hash) .start acts a) (hhash : NoCollision hash a.minted) :
    a.minted.Pairwise (Mint.Apart lib) := by
  have h := unique_of_run hrun
  refine h.minted.imp_of_mem ?_
  intro m m' hm hm' hne
  have hderived := h.derived m (Or.inl hm)
  have hderived' := h.derived m' (Or.inl hm')
  refine Mint.apart hlib ?_ ?_ fun heph => hne ?_
  · rw [hderived]
    exact m.family.derive_lt hash m.index
  · rw [hderived']
    exact m'.family.derive_lt hash m'.index
  · refine hhash ⟨m, hm, rfl⟩ ⟨m', hm', rfl⟩ ?_
    exact hderived.symm.trans (heph.trans hderived')

/-! ## Fresh stores -/

/-- A hash under which the indices 0 and 1 of a member have scalars with tags. -/
def sampleHash : List Fr → Fr
  | [_] => 4
  | [_, j] => j
  | [_, _, n] => if n = 1 then 5 else 4
  | _ => 0

theorem derive_sample (index : ℕ) : (Family.group 7 1).derive sampleHash index = if (index : Fr) = 1 then 5 else 4 := by
  have hfour : ((4 : Fr)).val < subOrder := by
    rw [show ((4 : Fr)) = ((4 : ℕ) : Fr) from rfl, val_natCast_of_lt] <;> norm_num [subOrder, bn254ScalarFieldModulus]
  have hfive : ((5 : Fr)).val < subOrder := by
    rw [show ((5 : Fr)) = ((5 : ℕ) : Fr) from rfl, val_natCast_of_lt] <;> norm_num [subOrder, bn254ScalarFieldModulus]
  unfold Family.derive deriveSelfEph kdfDerive
  simp only [stringToFr, sampleHash]
  by_cases hone : (index : Fr) = 1
  · simp [hone, toBjjScalar_of_lt hfive]
  · simp [hone, toBjjScalar_of_lt hfour]

theorem even_sample (index : ℕ) : (Family.group 7 1).even Library.reference sampleHash index = true := by
  unfold Family.even
  rw [derive_sample]
  split
  · rw [publicKey_five]
    decide
  · rw [publicKey_four]
    decide

/-- The applications after the sample member has minted at the mark of a store. -/
def sampleMint (a : Apps) (path : Path) : Apps :=
  let index := a.marks path (path.scope sampleHash)
  { a.writeMarks path.store (Function.update (a.marks path) (path.scope sampleHash) (index + 1)) with
    pending := a.pending
    minted := a.minted ++ [⟨.group 7 1, index, (Family.group 7 1).derive sampleHash index⟩] }

@[simp] theorem minted_sampleMint (a : Apps) (path : Path) : (sampleMint a path).minted = a.minted ++
    [⟨.group 7 1, a.marks path (path.scope sampleHash),
      (Family.group 7 1).derive sampleHash (a.marks path (path.scope sampleHash))⟩] := rfl

theorem act_sample {a : Apps} {id : ℕ} {path : Path} (hpath : ∀ skView, path ≠ .runDeposit skView)
    (hfamily : path.family = .group 7 1) (hid : a.pending id = none) (hopen : a.isOpen path.store = true) :
    (a.act Library.reference sampleHash (.reserve id path)).act Library.reference sampleHash (.land id) =
      sampleMint a path := by
  have hreserve : a.reserveFor Library.reference sampleHash path = (some (a.marks path (path.scope sampleHash)),
      Function.update (a.marks path) (path.scope sampleHash) (a.marks path (path.scope sampleHash) + 1)) := by
    have hroll : a.reserveFor Library.reference sampleHash path =
        reserveEphemeral Library.reference sampleHash path.family (path.scope sampleHash) (a.marks path) := by
      cases path with
      | runDeposit skView => exact absurd rfl (hpath skView)
      | _ => rfl
    rw [hroll, hfamily, reserveEphemeral, maxIndexRoll, rollReserve, even_sample, if_pos rfl]
  have heven := even_sample (a.marks path (path.scope sampleHash))
  unfold Family.even at heven
  unfold sampleMint
  rw [Apps.act, Apps.reserve, hid, hopen, hreserve, Apps.act, Apps.land, hfamily]
  simp only [Option.isSome_none, Bool.not_true, Bool.or_self, Bool.false_eq_true, if_false, Function.update_self,
    Option.map_some, Function.update_idem, heven, if_true, Apps.minted_writeMarks]
  rw [← hid, Function.update_eq_self]

/-- As steps, if the store is past the indices in use. -/
theorem run_sample {a : Apps} {id : ℕ} {path : Path} (hpath : ∀ skView, path ≠ .runDeposit skView)
    (hfamily : path.family = .group 7 1) (hid : a.pending id = none) (hopen : a.isOpen path.store = true)
    (hpast : PastUsed sampleHash a (.reserve id path)) :
    Run (AppStep Library.reference sampleHash) a [.reserve id path, .land id] (sampleMint a path) := by
  rw [← act_sample hpath hfamily hid hopen]
  have hreserve : AppStep Library.reference sampleHash a (.reserve id path) _ := ⟨hpast, rfl⟩
  exact (Run.single hreserve).snoc ⟨trivial, rfl⟩

theorem payOneRecipient_ne (batch : ℕ) (v : Fr) (memberId : ℕ) (skView : Fr) :
    Path.payOneRecipient batch v memberId ≠ .runDeposit skView := by
  intro h
  cases h

theorem depositToTreasury_ne (v : Fr) (memberId : ℕ) (skView : Fr) :
    Path.depositToTreasury v memberId ≠ .runDeposit skView := by
  intro h
  cases h

/-- Two rows of one batch: the second has an index of its own. -/
theorem ephemerals_unique_sample : ∃ (acts : List AppAct) (a : Apps),
    Run (AppStep Library.reference sampleHash) .start acts a ∧ a.minted.length = 2 ∧
      a.minted.Pairwise (Mint.Apart Library.reference) := by
  have hbatch : AppStep Library.reference sampleHash .start (.openBatch 0)
      (Apps.start.act Library.reference sampleHash (.openBatch 0)) := ⟨trivial, rfl⟩
  have hfirst := @run_sample (Apps.start.act Library.reference sampleHash (.openBatch 0)) 0 _
    (payOneRecipient_ne 0 7 1) rfl rfl rfl (by
      rintro m (hm | ⟨id, hm⟩)
      · cases hm
      · cases hm)
  have hsecond := @run_sample (sampleMint (Apps.start.act Library.reference sampleHash (.openBatch 0))
      (.payOneRecipient 0 7 1)) 1 _ (payOneRecipient_ne 0 7 1) rfl rfl rfl (by
      rintro m (hm | ⟨id, hm⟩) -
      · rw [List.mem_singleton.1 hm]
        decide +kernel
      · cases hm)
  have hrun := ((Run.single hbatch).append hfirst).append hsecond
  refine ⟨_, _, hrun, rfl, ephemerals_unique Library.reference_lawful hrun ?_⟩
  have hfour : (Family.group 7 1).derive sampleHash 0 = 4 := by
    rw [derive_sample]
    decide +kernel
  have hfive : (Family.group 7 1).derive sampleHash 1 = 5 := by
    rw [derive_sample]
    decide +kernel
  have hne : (4 : Fr) ≠ 5 := by decide +kernel
  rintro key ⟨m, hm, rfl⟩ key' ⟨m', hm', rfl⟩ heq
  rw [minted_sampleMint, minted_sampleMint] at hm hm'
  have hmark : ∀ a : Apps, a.batches 0 = some (fun _ => 0) →
      (sampleMint a (.payOneRecipient 0 7 1)).marks (.payOneRecipient 0 7 1)
        ((Path.payOneRecipient 0 7 1).scope sampleHash) = 1 := by
    intro a ha
    simp [sampleMint, Apps.marks, Path.store, Apps.writeMarks, ha]
  rw [hmark _ rfl] at hm hm'
  have hnil : (Apps.start.act Library.reference sampleHash (.openBatch 0)).minted = [] := rfl
  have hzero : (Apps.start.act Library.reference sampleHash (.openBatch 0)).marks (.payOneRecipient 0 7 1)
      ((Path.payOneRecipient 0 7 1).scope sampleHash) = 0 := rfl
  rw [hnil, hzero] at hm hm'
  simp only [List.nil_append, List.singleton_append, List.mem_cons, List.not_mem_nil, or_false] at hm hm'
  rcases hm with rfl | rfl <;> rcases hm' with rfl | rfl
  · rfl
  · exact absurd (hfour.symm.trans (heq.trans hfive)) hne
  · exact absurd (hfour.symm.trans (heq.symm.trans hfive)) hne
  · rfl

/-- Two deposits of one member, each from a store of its own: both have the scalar of index 0, though the
derivation has no collision. -/
theorem ephemeral_repeated : ∃ acts : List AppAct,
    NoCollision sampleHash (acts.foldl (Apps.act Library.reference sampleHash) .start).minted ∧
    ¬ (acts.foldl (Apps.act Library.reference sampleHash) .start).minted.Pairwise (Mint.Apart Library.reference) := by
  refine ⟨[.reserve 0 (.depositToTreasury 7 1), .land 0, .reserve 1 (.depositToTreasury 7 1), .land 1], ?_⟩
  simp only [List.foldl_cons, List.foldl_nil]
  have hfirst : (Apps.start.act Library.reference sampleHash (.reserve 0 (.depositToTreasury 7 1))).act
      Library.reference sampleHash (.land 0) = sampleMint .start (.depositToTreasury 7 1) :=
    act_sample (depositToTreasury_ne 7 1) rfl rfl rfl
  have hsecond : ((sampleMint .start (.depositToTreasury 7 1)).act Library.reference sampleHash
      (.reserve 1 (.depositToTreasury 7 1))).act Library.reference sampleHash (.land 1) =
        sampleMint (sampleMint .start (.depositToTreasury 7 1)) (.depositToTreasury 7 1) :=
    act_sample (depositToTreasury_ne 7 1) rfl rfl rfl
  rw [hfirst, hsecond]
  have hfresh : ∀ a : Apps, a.marks (.depositToTreasury 7 1) = fun _ => 0 := fun _ => rfl
  rw [minted_sampleMint, minted_sampleMint, hfresh, hfresh]
  have hnil : Apps.start.minted = [] := rfl
  rw [hnil, List.nil_append, List.singleton_append]
  constructor
  · rintro key ⟨m, hm, rfl⟩ key' ⟨m', hm', rfl⟩ -
    simp only [List.mem_cons, List.not_mem_nil, or_false, or_self] at hm hm'
    rw [hm, hm']
  · intro h
    have hapart := (List.pairwise_cons.1 h).1 _ (List.mem_singleton_self _)
    generalize (⟨.group 7 1, 0, (Family.group 7 1).derive sampleHash 0⟩ : Mint) = m at hapart
    exact hapart.eph rfl

end Kakure.Wallet
