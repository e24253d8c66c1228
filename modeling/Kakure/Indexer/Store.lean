import Kakure.Lib.Hex
import Kakure.Lib.Table
import Kakure.Pool.Ring

/-!
# The indexer's store

`IndexerStore` of `packages/indexer/src/db/store.ts` over the tables of `schema.ts`.  The
tables with an integer primary key are `Table`s; `nullifiers`, whose key is a text, is
the list of its rows in the order they were written.

* `calledRows_callAll` — what the `roots` table holds after any number of `pushRoot` calls:
  once it has wrapped, every further root goes to slot 0;
* `roots_describe_iff` — the ring read back from it is the pool's exactly up to there.
-/

namespace Kakure.Indexer

open Slices Hex

/-! ## Rows and tables -/

structure NoteRow where
  leafIndex : ℕ
  leaf : String
  ephPubX : String
  tag : Option String
  cekWrap : Option String
  ciphertext : List String
  root : String
  slot : ℕ
  deriving DecidableEq

structure NullifierRow where
  nullifier : String
  slot : ℕ
  deriving DecidableEq

structure RootRow where
  cursor : ℕ
  root : String
  nextLeafIndex : ℕ
  slot : ℕ
  deriving DecidableEq

structure ComplianceKeyRow where
  version : ℕ
  x : String
  y : String
  fromSlot : ℕ
  deriving DecidableEq

structure CursorState where
  lastSignature : Option String
  lastSlot : ℕ
  deriving DecidableEq

/-- `ROOT_RING_SIZE`. -/
def rootRingSize : ℕ := 256

/-- The database. -/
structure IndexerStore where
  notes : Table NoteRow NoteRow.leafIndex
  nullifiers : List NullifierRow
  roots : Table RootRow RootRow.cursor
  complianceKeys : Table ComplianceKeyRow ComplianceKeyRow.version
  /-- The row of the `cursor` table, if there is one. -/
  cursor : Option CursorState

namespace IndexerStore

/-- `SCHEMA_SQL` on a fresh database. -/
def empty : IndexerStore := ⟨Table.empty, [], Table.empty, Table.empty, none⟩

def insertNote (s : IndexerStore) (note : NoteRow) : IndexerStore :=
  { s with notes := s.notes.insertOrReplace note }

def getNotesFrom (s : IndexerStore) (fromLeafIndex : ℕ) : List NoteRow :=
  s.notes.rows.filter fun note => fromLeafIndex ≤ note.leafIndex

def insertNullifier (s : IndexerStore) (nullifier : String) (slot : ℕ) : IndexerStore :=
  { s with
    nullifiers := s.nullifiers.filter (fun row => row.nullifier ≠ nullifier) ++ [⟨nullifier, slot⟩] }

def isNullifierSpent (s : IndexerStore) (nullifier : String) : Bool :=
  s.nullifiers.any fun row => row.nullifier = nullifier

/-- The slot `pushRoot` writes to, from the table's row count and greatest cursor. -/
def nextCursor (s : IndexerStore) : ℕ :=
  if s.roots.count = 0 then 0
  else ((s.roots.maxKey.map fun m => m + 1).getD 0) % rootRingSize

def pushRoot (s : IndexerStore) (root : String) (nextLeafIndex slot : ℕ) : IndexerStore :=
  { s with roots := s.roots.insertOrReplace ⟨s.nextCursor, root, nextLeafIndex, slot⟩ }

/-- The row of the highest slot, among those the one of the highest `rowid`, which in a table with
an integer primary key is the `cursor`. -/
def getLatestRoot (s : IndexerStore) : Option RootRow := s.roots.top RootRow.slot

def listRoots (s : IndexerStore) : List RootRow := s.roots.rows

def insertComplianceKey (s : IndexerStore) (row : ComplianceKeyRow) : IndexerStore :=
  { s with complianceKeys := s.complianceKeys.insertOrReplace row }

def listComplianceKeys (s : IndexerStore) : List ComplianceKeyRow := s.complianceKeys.rows

def getCursor (s : IndexerStore) : CursorState := s.cursor.getD ⟨none, 0⟩

def setCursor (s : IndexerStore) (state : CursorState) : IndexerStore :=
  { s with cursor := some state }

end IndexerStore

/-! ## The ring after any number of pushes -/

/-- The arguments of a `pushRoot` call. -/
structure RootCall where
  root : String
  nextLeafIndex : ℕ
  slot : ℕ
  deriving DecidableEq

/-- The row a call writes at a cursor. -/
def RootCall.row (c : RootCall) (cursor : ℕ) : RootRow :=
  ⟨cursor, c.root, c.nextLeafIndex, c.slot⟩

/-- One `pushRoot` after the other. -/
def callAll (s : IndexerStore) (calls : List RootCall) : IndexerStore :=
  calls.foldl (fun s c => s.pushRoot c.root c.nextLeafIndex c.slot) s

/-- What the table holds after these calls: its keys, and at each the call it shows. -/
structure CalledRows (t : Table RootRow RootRow.cursor) (calls : List RootCall) : Prop where
  keys : t.rows.map RootRow.cursor = List.range (min calls.length rootRingSize)
  find : ∀ j, t.find j =
    if j = 0 ∧ rootRingSize < calls.length then calls.getLast?.map fun c => c.row 0
    else if j < rootRingSize then calls[j]?.map fun c => c.row j
    else none

/-- The next slot counts up until the table is full and stays at 0 from there on. -/
theorem nextCursor_of_calledRows {s : IndexerStore} {calls : List RootCall}
    (h : CalledRows s.roots calls) :
    s.nextCursor = if calls.length < rootRingSize then calls.length else 0 := by
  have hcount : s.roots.count = min calls.length rootRingSize := by
    unfold Table.count
    rw [← List.length_map (f := RootRow.cursor), h.keys, List.length_range]
  have hmax : s.roots.maxKey = (List.range (min calls.length rootRingSize)).getLast? := by
    unfold Table.maxKey
    rw [← h.keys, List.getLast?_map]
  unfold IndexerStore.nextCursor
  rw [hcount, hmax]
  have hring : rootRingSize = 256 := rfl
  rcases Nat.eq_zero_or_pos calls.length with hzero | hpos
  · simp [hzero, hring]
  · have hne : min calls.length rootRingSize ≠ 0 := by rw [hring]; omega
    rw [if_neg hne, List.getLast?_range, if_neg hne]
    simp only [Option.map_some, Option.getD_some]
    split
    · rename_i hlt
      rw [Nat.min_eq_left hlt.le, Nat.sub_add_cancel hpos, Nat.mod_eq_of_lt hlt]
    · rename_i hge
      rw [Nat.min_eq_right (not_lt.1 hge), hring]

/-- One call below the wrap appends a row; one above it overwrites slot 0. -/
theorem calledRows_pushRoot {s : IndexerStore} {calls : List RootCall}
    (h : CalledRows s.roots calls) (c : RootCall) :
    CalledRows (s.pushRoot c.root c.nextLeafIndex c.slot).roots (calls ++ [c]) := by
  have hring : rootRingSize = 256 := rfl
  have hcursor := nextCursor_of_calledRows h
  have hlen : (calls ++ [c]).length = calls.length + 1 := by simp
  have hroots : (s.pushRoot c.root c.nextLeafIndex c.slot).roots =
      s.roots.insertOrReplace (c.row s.nextCursor) := rfl
  have hkey : ∀ k, (c.row k).cursor = k := fun _ => rfl
  rw [hroots]
  by_cases hlt : calls.length < rootRingSize
  · rw [if_pos hlt] at hcursor
    rw [hcursor]
    constructor
    · have hbelow : ∀ r ∈ s.roots, r.cursor < (c.row calls.length).cursor := by
        intro r hr
        have hmem : r.cursor ∈ s.roots.rows.map RootRow.cursor := List.mem_map_of_mem hr
        rw [h.keys, List.mem_range, Nat.min_eq_left hlt.le] at hmem
        exact hmem
      rw [Table.insertOrReplace_of_lt hbelow, List.map_append, h.keys, hlen,
        Nat.min_eq_left hlt.le, Nat.min_eq_left hlt, List.range_succ]
      rfl
    · intro j
      have hold : ¬ (j = 0 ∧ rootRingSize < calls.length) := by omega
      have hnew : ¬ (j = 0 ∧ rootRingSize < calls.length + 1) := by omega
      rw [Table.find_insertOrReplace, hkey, h.find, hlen, if_neg hold, if_neg hnew]
      rcases Nat.lt_trichotomy j calls.length with hj | rfl | hj
      · rw [if_neg hj.ne, if_pos (by omega), if_pos (by omega), List.getElem?_append_left hj]
      · rw [if_pos rfl, if_pos hlt, List.getElem?_append_right le_rfl, Nat.sub_self]
        rfl
      · rw [if_neg hj.ne', List.getElem?_eq_none hj.le, List.getElem?_eq_none (by omega)]
  · have hge : rootRingSize ≤ calls.length := not_lt.1 hlt
    rw [if_neg hlt] at hcursor
    rw [hcursor]
    constructor
    · have hzero : ∃ r ∈ s.roots, r.cursor = (c.row 0).cursor := by
        have hmem : 0 ∈ s.roots.rows.map RootRow.cursor := by
          rw [h.keys, List.mem_range, Nat.min_eq_right hge]
          decide
        obtain ⟨r, hr, hr0⟩ := List.mem_map.1 hmem
        exact ⟨r, hr, hr0⟩
      rw [Table.keys_insertOrReplace_of_mem hzero, h.keys, hlen, Nat.min_eq_right hge,
        Nat.min_eq_right (by omega)]
    · intro j
      rw [Table.find_insertOrReplace, hkey, h.find, hlen]
      by_cases hj : j = 0
      · have hnew : j = 0 ∧ rootRingSize < calls.length + 1 := ⟨hj, by omega⟩
        rw [if_pos hj, if_pos hnew, List.getLast?_append]
        rfl
      · have hold : ¬ (j = 0 ∧ rootRingSize < calls.length) := fun hc => hj hc.1
        have hnew : ¬ (j = 0 ∧ rootRingSize < calls.length + 1) := fun hc => hj hc.1
        rw [if_neg hj, if_neg hold, if_neg hnew]
        split
        · rw [List.getElem?_append_left (by omega)]
        · rfl

/-- The `roots` table after any number of calls: slot 0 gets every one from the 257th on. -/
theorem calledRows_callAll (calls : List RootCall) :
    CalledRows (callAll IndexerStore.empty calls).roots calls := by
  induction calls using List.reverseRecOn with
  | nil =>
    refine ⟨rfl, fun j => ?_⟩
    have hempty : (Table.empty : Table RootRow RootRow.cursor).find j = none :=
      Table.find_eq_none_iff.2 (by simp)
    show (Table.empty : Table RootRow RootRow.cursor).find j = _
    rw [hempty, if_neg (by simp)]
    simp
  | append_singleton calls c ih =>
    have happend : callAll IndexerStore.empty (calls ++ [c]) =
        (callAll IndexerStore.empty calls).pushRoot c.root c.nextLeafIndex c.slot := by
      unfold callAll
      rw [List.foldl_append]
      rfl
    rw [happend]
    exact calledRows_pushRoot ih c

/-! ## The ring of the pool's roots -/

/-- The arguments of a `pushRoot` call, the root as bytes. -/
structure RootPush where
  root : Bytes 32
  nextLeafIndex : ℕ
  slot : ℕ

/-- The row a push writes at a cursor. -/
def RootPush.row (p : RootPush) (cursor : ℕ) : RootRow :=
  ⟨cursor, toHex p.root.val, p.nextLeafIndex, p.slot⟩

/-- The call that pushes this root, in hex. -/
def RootPush.call (p : RootPush) : RootCall := ⟨toHex p.root.val, p.nextLeafIndex, p.slot⟩

/-- One `pushRoot` after the other, with the cursor of the last one. -/
def pushAll (s : IndexerStore) (pushes : List RootPush) : IndexerStore × Option ℕ :=
  pushes.foldl (fun r p => (r.1.pushRoot (toHex p.root.val) p.nextLeafIndex p.slot, some r.1.nextCursor))
    (s, none)

theorem pushAll_append_singleton (s : IndexerStore) (pushes : List RootPush) (p : RootPush) :
    pushAll s (pushes ++ [p]) =
      ((pushAll s pushes).1.pushRoot (toHex p.root.val) p.nextLeafIndex p.slot,
        some (pushAll s pushes).1.nextCursor) := by
  unfold pushAll
  rw [List.foldl_append]
  rfl

/-- The store does not depend on the cursors kept beside it. -/
theorem pushAll_fst (s : IndexerStore) (pushes : List RootPush) :
    (pushAll s pushes).1 = callAll s (pushes.map RootPush.call) := by
  induction pushes using List.reverseRecOn with
  | nil => rfl
  | append_singleton pushes p ih =>
    rw [pushAll_append_singleton, ih, List.map_append]
    unfold callAll
    rw [List.foldl_append]
    rfl

/-- What the table holds after these pushes: its keys, and at each the push it shows. -/
structure PushedRows (t : Table RootRow RootRow.cursor) (pushes : List RootPush) : Prop where
  keys : t.rows.map RootRow.cursor = List.range (min pushes.length rootRingSize)
  find : ∀ j, t.find j =
    if j = 0 ∧ rootRingSize < pushes.length then pushes.getLast?.map fun p => p.row 0
    else if j < rootRingSize then pushes[j]?.map fun p => p.row j
    else none

theorem pushedRows_of_calledRows {t : Table RootRow RootRow.cursor} {pushes : List RootPush}
    (h : CalledRows t (pushes.map RootPush.call)) : PushedRows t pushes := by
  refine ⟨by rw [h.keys, List.length_map], fun j => ?_⟩
  rw [h.find, List.length_map, List.getLast?_map, List.getElem?_map, Option.map_map,
    Option.map_map]
  rfl

/-- The `roots` table after any number of pushes: slot 0 gets every one from the 257th on. -/
theorem pushAll_spec (pushes : List RootPush) :
    PushedRows (pushAll IndexerStore.empty pushes).1.roots pushes ∧
      (pushAll IndexerStore.empty pushes).2 =
        if pushes = [] then none
        else if pushes.length ≤ rootRingSize then some (pushes.length - 1)
        else some 0 := by
  constructor
  · rw [pushAll_fst]
    exact pushedRows_of_calledRows (calledRows_callAll _)
  · rcases pushes.eq_nil_or_concat with rfl | ⟨init, p, rfl⟩
    · rfl
    · have hcursor := nextCursor_of_calledRows (calledRows_callAll (init.map RootPush.call))
      rw [List.length_map] at hcursor
      have hne : init ++ [p] ≠ [] := by simp
      rw [List.concat_eq_append, pushAll_append_singleton, pushAll_fst, hcursor, if_neg hne,
        List.length_append, List.length_singleton]
      by_cases hlt : init.length < rootRingSize
      · rw [if_pos hlt, if_pos (show init.length + 1 ≤ rootRingSize from hlt), Nat.add_sub_cancel]
      · rw [if_neg hlt, if_neg (show ¬ init.length + 1 ≤ rootRingSize from hlt)]

/-! ## Agreement with the pool's ring -/

/-- The ring a client reads from the indexer is the pool's: every slot, blank where there is no
row, and the next slot, one past the last pushed one. -/
structure DescribesRing (rows : List RootRow) (last : Option ℕ) (pool : Pool) : Prop where
  slot : ∀ j : UInt8, ((rows.find? fun r => r.cursor = j.toNat).map RootRow.root).getD
    (toHex (Bytes.zero 32).val) = toHex (pool.rootAt j).val
  next : (last.map fun c => (c + 1) % rootRingSize).getD 0 = pool.rootCursor.toNat

/-- The pool after the same pushes. -/
def pushPool (pushes : List RootPush) : Pool :=
  pushes.foldl (fun pool p => pool.pushRoot p.root) Pool.empty

theorem shows_pushPool (pushes : List RootPush) :
    (pushPool pushes).Shows (pushes.map RootPush.root) := by
  induction pushes using List.reverseRecOn with
  | nil => exact shows_empty
  | append_singleton pushes p ih =>
    unfold pushPool at ih ⊢
    rw [List.foldl_append, List.map_append]
    exact shows_pushRoot ih p.root

/-- The root a slot of the indexer's ring shows. -/
theorem slot_pushAll (pushes : List RootPush) (j : UInt8) :
    (((pushAll IndexerStore.empty pushes).1.listRoots.find? fun r => r.cursor = j.toNat).map
        RootRow.root).getD (toHex (Bytes.zero 32).val) =
      toHex ((if j = 0 ∧ rootRingSize < pushes.length then pushes.getLast?.map RootPush.root
        else pushes[j.toNat]?.map RootPush.root).getD (Bytes.zero 32)).val := by
  have hfind := (pushAll_spec pushes).1.find j.toNat
  have hzero : j.toNat = 0 ↔ j = 0 := UInt8.toNat_inj (b := 0)
  simp only [if_pos (show j.toNat < rootRingSize from j.toNat_lt), hzero] at hfind
  unfold Table.find at hfind
  show (((pushAll IndexerStore.empty pushes).1.roots.rows.find? _).map RootRow.root).getD _ = _
  rw [hfind]
  split
  · cases pushes.getLast? <;> rfl
  · cases pushes[j.toNat]? <;> rfl

/-- The cursor a client reads from the indexer. -/
theorem next_pushAll (pushes : List RootPush) :
    ((pushAll IndexerStore.empty pushes).2.map fun c => (c + 1) % rootRingSize).getD 0 =
      if pushes.length ≤ rootRingSize then pushes.length % rootRingSize else 1 := by
  rw [(pushAll_spec pushes).2]
  rcases pushes.eq_nil_or_concat with rfl | ⟨init, p, rfl⟩
  · rfl
  · rw [if_neg (by simp)]
    split
    · simp
    · rfl

/-- The root the pool's ring shows where push `k` is one of the last 256. -/
theorem rootAt_pushPool {pushes : List RootPush} {j : UInt8} {k : ℕ} (hk : k < pushes.length)
    (hmod : k % 256 = j.toNat) (hle : pushes.length ≤ k + 256) :
    (pushPool pushes).rootAt j = pushes[k].root := by
  have hget : (pushes.map RootPush.root)[k]? = some pushes[k].root := by
    rw [List.getElem?_map, List.getElem?_eq_getElem hk]
    rfl
  have h := rootAt_of_shows (shows_pushPool pushes) hget (by rwa [List.length_map])
  have hj : UInt8.ofNat k = j := by
    rw [← UInt8.toNat_inj, UInt8.toNat_ofNat', ← hmod]
  rwa [hj] at h

/-- The cursor the pool's ring shows. -/
theorem rootCursor_pushPool (pushes : List RootPush) :
    (pushPool pushes).rootCursor.toNat = pushes.length % rootRing := by
  have h := (shows_pushPool pushes).cursor
  rwa [List.length_map] at h

/-- Up to 257 pushes the indexer's ring is the pool's. -/
theorem describesRing_of_le {pushes : List RootPush} (h : pushes.length ≤ 257) :
    DescribesRing (pushAll IndexerStore.empty pushes).1.listRoots
      (pushAll IndexerStore.empty pushes).2 (pushPool pushes) := by
  have hring : rootRing = 256 := rfl
  have hsize : rootRingSize = 256 := rfl
  constructor
  · intro j
    have hj : j.toNat < 256 := j.toNat_lt
    have hzero : j.toNat = 0 ↔ j = 0 := UInt8.toNat_inj (b := 0)
    rw [slot_pushAll]
    split
    · rename_i hwrap
      -- the one push beyond the table went to slot 0
      have hlast : pushes.length - 1 < pushes.length := by omega
      have hmod : (pushes.length - 1) % 256 = j.toNat := by
        have := hzero.2 hwrap.1
        omega
      rw [rootAt_pushPool hlast hmod (by omega), List.getLast?_eq_getElem?,
        List.getElem?_eq_getElem hlast]
      rfl
    · rename_i hwrap
      by_cases hlt : j.toNat < pushes.length
      · have hle : pushes.length ≤ j.toNat + 256 := by
          by_contra hgt
          exact hwrap ⟨hzero.1 (by omega), by omega⟩
        rw [rootAt_pushPool hlt (Nat.mod_eq_of_lt hj) hle, List.getElem?_eq_getElem hlt]
        rfl
      · rw [rootAt_of_length_le (shows_pushPool pushes) (by rw [List.length_map]; omega),
          List.getElem?_eq_none (by omega)]
        rfl
  · rw [next_pushAll, rootCursor_pushPool, hring, hsize]
    split
    · rfl
    · have : pushes.length = 257 := by omega
      rw [this]

/-- Beyond 257 pushes it is the pool's only where the cursors meet again and every slot but the
first would show the root it showed one round before the last. -/
theorem describesRing_iff_of_gt {pushes : List RootPush} (h : 257 < pushes.length) :
    DescribesRing (pushAll IndexerStore.empty pushes).1.listRoots
        (pushAll IndexerStore.empty pushes).2 (pushPool pushes) ↔
      pushes.length % 256 = 1 ∧ ∀ j, 0 < j → j < 256 →
        (pushes[j]?).map RootPush.root = (pushes[pushes.length - 257 + j]?).map RootPush.root := by
  have hring : rootRing = 256 := rfl
  have hsize : rootRingSize = 256 := rfl
  have hnext := next_pushAll pushes
  rw [if_neg (by omega)] at hnext
  -- where the cursors meet, slot `j` shows the push of the last round
  have hshown : pushes.length % 256 = 1 → ∀ j : UInt8, 0 < j.toNat →
      ∃ hk : pushes.length - 257 + j.toNat < pushes.length,
        (pushPool pushes).rootAt j = pushes[pushes.length - 257 + j.toNat].root := by
    intro hmod j hpos
    have hj : j.toNat < 256 := j.toNat_lt
    exact ⟨by omega, rootAt_pushPool (by omega) (by omega) (by omega)⟩
  have hslot : ∀ j : UInt8, 0 < j.toNat → ∃ hj : j.toNat < pushes.length,
      (((pushAll IndexerStore.empty pushes).1.listRoots.find? fun r => r.cursor = j.toNat).map
        RootRow.root).getD (toHex (Bytes.zero 32).val) = toHex pushes[j.toNat].root.val := by
    intro j hpos
    have hj : j.toNat < 256 := j.toNat_lt
    have hne : ¬ (j = 0 ∧ rootRingSize < pushes.length) := by
      rintro ⟨rfl, -⟩
      exact absurd hpos (lt_irrefl _)
    refine ⟨by omega, ?_⟩
    rw [slot_pushAll, if_neg hne, List.getElem?_eq_getElem (by omega)]
    rfl
  constructor
  · intro hdesc
    have hmod : pushes.length % 256 = 1 := by
      rw [← hring, ← rootCursor_pushPool, ← hdesc.next, hnext]
    refine ⟨hmod, fun j hpos hlt => ?_⟩
    have hj : (UInt8.ofNat j).toNat = j := toNat_ofNat_of_lt hlt
    have hpos' : 0 < (UInt8.ofNat j).toNat := by rwa [hj]
    obtain ⟨hk, hroot⟩ := hshown hmod (UInt8.ofNat j) hpos'
    obtain ⟨hjlt, hrow⟩ := hslot (UInt8.ofNat j) hpos'
    have heq := hdesc.slot (UInt8.ofNat j)
    rw [hrow, hroot] at heq
    simp only [hj] at heq hk hjlt
    rw [List.getElem?_eq_getElem hjlt, List.getElem?_eq_getElem hk]
    exact congrArg some (toHex_injective heq)
  · rintro ⟨hmod, hsame⟩
    refine ⟨fun j => ?_, ?_⟩
    · rcases Nat.eq_zero_or_pos j.toNat with hzero | hpos
      · have hj : j = 0 := UInt8.toNat_inj.1 hzero
        have hlast : pushes.length - 1 < pushes.length := by omega
        rw [slot_pushAll, if_pos ⟨hj, by omega⟩,
          rootAt_pushPool hlast (by omega : _ = j.toNat) (by omega), List.getLast?_eq_getElem?,
          List.getElem?_eq_getElem hlast]
        rfl
      · obtain ⟨hk, hroot⟩ := hshown hmod j hpos
        obtain ⟨hjlt, hrow⟩ := hslot j hpos
        have heq := hsame j.toNat hpos j.toNat_lt
        rw [List.getElem?_eq_getElem hjlt, List.getElem?_eq_getElem hk] at heq
        rw [hrow, hroot]
        exact congrArg (fun b : Bytes 32 => toHex b.val) (Option.some_inj.1 heq)
    · rw [hnext, rootCursor_pushPool, hring, hmod]

/-- After `n` pushes the rows and the last cursor of the indexer describe the pool's ring exactly
when `n` is at most 257, or the cursors meet (`n` is 1 modulo 256) and the last round repeats the
roots of the first: from the 257th push on the indexer writes slot 0 only. -/
theorem roots_describe_iff (pushes : List RootPush) :
    DescribesRing (pushAll IndexerStore.empty pushes).1.listRoots
        (pushAll IndexerStore.empty pushes).2 (pushPool pushes) ↔
      pushes.length ≤ 257 ∨ (pushes.length % 256 = 1 ∧ ∀ j, 0 < j → j < 256 →
        (pushes[j]?).map RootPush.root = (pushes[pushes.length - 257 + j]?).map RootPush.root) := by
  rcases Nat.lt_or_ge 257 pushes.length with hgt | hle
  · rw [describesRing_iff_of_gt hgt]
    constructor
    · exact Or.inr
    · rintro (hle | h)
      · omega
      · exact h
  · exact ⟨fun _ => Or.inl hle, fun _ => describesRing_of_le hle⟩

/-- 258 pushes: the indexer says slot 1 is next, the pool's cursor is at 2. -/
theorem roots_diverge :
    ¬ DescribesRing (pushAll IndexerStore.empty (List.replicate 258 ⟨beBytes 32 1, 1, 1⟩)).1.listRoots
        (pushAll IndexerStore.empty (List.replicate 258 ⟨beBytes 32 1, 1, 1⟩)).2
        (pushPool (List.replicate 258 ⟨beBytes 32 1, 1, 1⟩)) := by
  intro h
  have hnext := h.next
  rw [next_pushAll, rootCursor_pushPool, List.length_replicate] at hnext
  exact absurd hnext (by decide)

end Kakure.Indexer
