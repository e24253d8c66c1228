import Kakure.Indexer.LogScope
import Kakure.Pool.Reachable
import Kakure.Tree.Agreement

/-!
# Chain histories and their mirror

The transactions of the pool as the RPC shows them, and the store an indexer should have
after some of them, written down from their events alone.

* `Numbered` — what the inserts of a pool's log look like to a mirror;
* `processSignature_of_mirrors` — a mirror of some transactions that processes the next one
  is the mirror of one more.
-/

namespace Kakure.Indexer

open Slices Hex Runs LeanTree

/-! ## Logs of the pool's transactions -/

namespace Trace

/-- A program's own frames log no text. -/
def Silent (programId : List Char) : Option (List Char) → Trace → Prop
  | _, nil => True
  | running, log _ rest => running ≠ some programId ∧ rest.Silent programId running
  | running, data _ rest => rest.Silent programId running
  | running, consumed _ _ rest => rest.Silent programId running
  | running, returned _ _ rest => rest.Silent programId running
  | running, plain _ rest => rest.Silent programId running
  | running, frame id body _ rest => body.Silent programId (some id) ∧ rest.Silent programId running

end Trace

/-- The data of an event's line ends no frame: it begins with the code of a tag. -/
theorem not_endsFrame_of_logLine {ev : Event} {fields : List (List UInt8)}
    (h : solLogData fields = ev.logLine) : ¬ EndsFrame (dataText fields) := by
  obtain ⟨more, hmore⟩ : ∃ more, Base64.encode (Text.asciiBytes ev.tag.toList) = 'a' :: more := by
    have hall : ∀ tag ∈ [noteInsertedTag, nullifierSpentTag, complianceKeyRotatedTag],
        (Base64.encode (Text.asciiBytes tag.toList)).head? = some 'a' := by decide +kernel
    exact List.head?_eq_some_iff.1 (hall _ (tag_mem ev))
  have htext : dataText fields = 'a' :: (more ++ ' ' :: Base64.encode ev.body) := by
    have hline : solLogData [Text.asciiBytes ev.tag.toList, ev.body] = ev.logLine := rfl
    have hbracket := bracketLine_solLogData fields
    rw [h, ← hline, bracketLine_solLogData, Option.some_inj, Prod.mk.injEq, List.cons.injEq] at hbracket
    rw [← hbracket.2.2, dataText, List.map_cons, List.map_cons, List.map_nil, intercalate_two, hmore,
      List.cons_append]
  rw [htext]
  rintro (⟨rest, hrest⟩ | ⟨rest, hrest⟩)
  · cases hrest
  · cases hrest

/-- A program that logs events and no text is quiet. -/
theorem Trace.quiet_of_silent {programId : List Char} {t : Trace} {running : Option (List Char)}
    (hsilent : t.Silent programId running)
    (hdata : ∀ line ∈ t.dataOf programId running, ∃ ev : Event, line = ev.logLine) :
    t.Quiet programId running := by
  induction t generalizing running with
  | nil => trivial
  | log text rest ih => exact ⟨fun hrunning => absurd hrunning hsilent.1, ih hsilent.2 hdata⟩
  | data fields rest ih =>
    rw [dataOf] at hdata
    by_cases hrunning : running = some programId
    · rw [if_pos hrunning] at hdata
      obtain ⟨ev, hev⟩ := hdata _ List.mem_cons_self
      exact ⟨fun _ => not_endsFrame_of_logLine hev,
        ih hsilent fun line hline => hdata line (List.mem_cons_of_mem _ hline)⟩
    · rw [if_neg hrunning] at hdata
      exact ⟨fun hself => absurd hself hrunning, ih hsilent hdata⟩
  | consumed id text rest ih => exact ih hsilent hdata
  | returned id bytes rest ih => exact ih hsilent hdata
  | plain line rest ih => exact ih hsilent hdata
  | frame id body failed rest ihBody ihRest =>
    rw [dataOf] at hdata
    exact ⟨ihBody hsilent.1 fun line hline => hdata line (List.mem_append_left _ hline),
      ihRest hsilent.2 fun line hline => hdata line (List.mem_append_right _ hline)⟩

/-! ## Chains -/

/-- A transaction that calls the pool, with what its programs logged and the events the pool emitted. -/
structure PoolTx where
  signature : String
  slot : ℕ
  err : Bool
  /-- The log as the RPC shows it. -/
  logMessages : List (List Char)
  trace : Trace
  events : List Event

def PoolTx.info (tx : PoolTx) : SignatureInfo := ⟨tx.signature, tx.slot, tx.err⟩

def PoolTx.raw (tx : PoolTx) : RawTransaction := ⟨tx.err, tx.logMessages⟩

/-- A transaction that failed emitted nothing.  In any other the pool's own frames log no text and,
in order, the data of its events; what the other programs log is arbitrary.  The log is that of the
trace, unless the runtime cut it. -/
structure PoolTx.Sound (programId : List Char) (tx : PoolTx) : Prop where
  failed : tx.err = true → tx.events = []
  named : tx.err = false → tx.trace.Named
  silent : tx.err = false → tx.trace.Silent programId none
  emitted : tx.err = false → tx.trace.dataOf programId none = tx.events.map Event.logLine
  logged : tx.err = false → logsWereTruncated tx.logMessages = false → tx.logMessages = tx.trace.lines 1
  fits : ∀ ev ∈ tx.events, ev.Fits

/-- The runtime did not cut the log, and no frame closes a bracket that the texts of a frame around it
have opened. -/
def PoolTx.Legible (tx : PoolTx) : Prop :=
  logsWereTruncated tx.logMessages = false ∧ tx.trace.Contained false 0

/-- The data lines found in a legible log are those of the events. -/
theorem PoolTx.Sound.lines {programId : List Char} {tx : PoolTx} (h : tx.Sound programId)
    (hprogram : ProgramText programId) (herr : tx.err = false) (hlegible : tx.Legible) :
    programDataLinesFor tx.logMessages programId = tx.events.map Event.logLine := by
  have hquiet : tx.trace.Quiet programId none := by
    refine Trace.quiet_of_silent (h.silent herr) fun line hline => ?_
    rw [h.emitted herr] at hline
    obtain ⟨ev, -, hev⟩ := List.mem_map.1 hline
    exact ⟨ev, hev.symm⟩
  rw [h.logged herr hlegible.1,
    attributed_of_contained tx.trace programId hprogram (h.named herr) hquiet hlegible.2, h.emitted herr]

/-- A history of the pool, oldest first: the events of its transactions are the first ones a run of
the program from its deployment on logs. -/
structure Chain (env : Env) (programId : List Char) where
  program : ProgramText programId
  txs : List PoolTx
  nodup : (txs.map PoolTx.signature).Nodup
  sound : ∀ tx ∈ txs, tx.Sound programId
  run : ∃ (m₀ m : Machine) (ls : List Label), Fresh env m₀ ∧ Run (Step env) m₀ ls m ∧
    (∃ l ∈ ls, l.isInitialize = true) ∧ txs.flatMap PoolTx.events <+: m.log

variable {env : Env} {programId : List Char}

/-- The events of the chain. -/
def Chain.log (chain : Chain env programId) : List Event := chain.txs.flatMap PoolTx.events

/-- The leaves the inserts report, as numbers. -/
def leafNumbers (log : List Event) : List ℕ := (noteEvents log).map fun ev => beNat ev.leaf.val

theorem noteEvents_append (log log' : List Event) :
    noteEvents (log ++ log') = noteEvents log ++ noteEvents log' := List.filterMap_append

theorem leafNumbers_append (log log' : List Event) :
    leafNumbers (log ++ log') = leafNumbers log ++ leafNumbers log' := by
  unfold leafNumbers
  rw [noteEvents_append, List.map_append]

/-! ## The inserts of a log -/

/-- The inserts of a log, as a mirror sees them: the leaves in order, each event numbered and with
the root of the leaves up to it. -/
structure Numbered (poseidon : Fr → Fr → Fr → Fr) (evs : List NoteInserted) (xs : List Fr) : Prop where
  leaves : evs.map NoteInserted.leaf = xs.map Fr.toBytes
  capacity : xs.length ≤ 2 ^ 32
  nonzero : ∀ x ∈ xs, x ≠ 0
  index : ∀ (k : ℕ) (ev : NoteInserted), evs[k]? = some ev → ev.leafIndex = k
  root : ∀ (k : ℕ) (ev : NoteInserted), evs[k]? = some ev →
    ev.root = (LeanTree.root (nodeHash poseidon) 0 (xs.take (k + 1))).toBytes

variable {poseidon : Fr → Fr → Fr → Fr} {evs : List NoteInserted} {xs : List Fr}

theorem Numbered.length (h : Numbered poseidon evs xs) : xs.length = evs.length := by
  have := congrArg List.length h.leaves
  simpa using this.symm

theorem getElem?_of_take {α : Type} {l : List α} {n k : ℕ} {a : α} (h : (l.take n)[k]? = some a) :
    k < n ∧ l[k]? = some a := by
  rw [List.getElem?_take] at h
  split at h
  · exact ⟨‹_›, h⟩
  · cases h

/-- The first inserts of a numbered log are numbered. -/
theorem Numbered.take (h : Numbered poseidon evs xs) (n : ℕ) :
    Numbered poseidon (evs.take n) (xs.take n) where
  leaves := by rw [List.map_take, h.leaves, List.map_take]
  capacity := le_trans (List.length_take_le' n xs) h.capacity
  nonzero := fun x hx => h.nonzero x (List.mem_of_mem_take hx)
  index := fun k ev hk => h.index k ev (getElem?_of_take hk).2
  root := by
    intro k ev hk
    obtain ⟨hkn, hk⟩ := getElem?_of_take hk
    rw [h.root k ev hk, List.take_take, Nat.min_eq_left hkn]

/-- The inserts of a pool with a canonical genesis leaf are numbered. -/
theorem numbered_of_history {pool : Pool} (h : History poseidon pool evs)
    (hgenesis : ∀ ev ∈ evs, ev.leafIndex = 0 → Canonical ev.leaf) : ∃ xs, Numbered poseidon evs xs := by
  rcases h.cases with ⟨xs, hxs, hcap, hne, -⟩ | ⟨ev, rfl, hnot, -⟩
  · exact ⟨xs, hxs, hcap, hne, fun k ev hk => h.leafIndex hk, fun k ev hk => h.root_eq hxs hk⟩
  · refine absurd (hgenesis ev (List.mem_singleton_self ev) ?_) hnot
    exact h.leafIndex (List.getElem?_cons_zero)

/-- The genesis leaf is a field element: an input of `initialize` the pool does not check. -/
def Chain.GenesisCanonical (chain : Chain env programId) : Prop :=
  ∀ ev ∈ noteEvents chain.log, ev.leafIndex = 0 → Canonical ev.leaf

/-- No node of the tree over the chain's leaves is zero. -/
def Chain.NodesNonzero (chain : Chain env programId) : Prop :=
  GrowsNonzero (hash3 env.poseidon) 0 (leafNumbers chain.log)

/-- The inserts of a chain are the first ones of a pool's history. -/
theorem Chain.exists_history (chain : Chain env programId) : ∃ (pool : Pool) (more : List NoteInserted),
    History env.poseidon pool (noteEvents chain.log ++ more) := by
  obtain ⟨m₀, m, ls, hfresh, hrun, hinit, rest, hrest⟩ := chain.run
  obtain ⟨pool, hhistory⟩ := exists_history_of_run hfresh hrun hinit
  rw [← hrest, noteEvents_append] at hhistory
  exact ⟨pool, noteEvents rest, hhistory⟩

/-- The pool account after the first transactions of a chain. -/
theorem Chain.history_take (chain : Chain env programId) (n : ℕ) :
    ∃ pool, History env.poseidon pool (noteEvents ((chain.txs.take n).flatMap PoolTx.events)) := by
  obtain ⟨pool, more, h⟩ := chain.exists_history
  have hlog : chain.log =
      (chain.txs.take n).flatMap PoolTx.events ++ (chain.txs.drop n).flatMap PoolTx.events := by
    unfold Chain.log
    rw [← List.flatMap_append, List.take_append_drop]
  rw [hlog, noteEvents_append, List.append_assoc] at h
  obtain ⟨q, hq⟩ := h.take (noteEvents ((chain.txs.take n).flatMap PoolTx.events)).length
  rw [List.take_left] at hq
  exact ⟨q, hq⟩

theorem Chain.numbered (chain : Chain env programId) (hgenesis : chain.GenesisCanonical) :
    ∃ xs, Numbered env.poseidon (noteEvents chain.log) xs := by
  obtain ⟨pool, more, hhistory⟩ := chain.exists_history
  rcases hempty : noteEvents chain.log with _ | ⟨ev, evs⟩
  · exact ⟨[], rfl, by norm_num, by simp, by simp, by simp⟩
  · -- the first insert of the chain is the first one of the pool
    have hfirst : (noteEvents chain.log ++ more)[0]? = some ev := by rw [hempty]; rfl
    obtain ⟨xs, hxs⟩ := numbered_of_history hhistory (by
      intro ev' hev' hzero
      obtain ⟨k, hk⟩ := List.mem_iff_getElem?.1 hev'
      obtain rfl : k = 0 := by rw [← hhistory.leafIndex hk, hzero]
      rw [hfirst, Option.some_inj] at hk
      rw [← hk]
      exact hgenesis ev (by rw [hempty]; exact List.mem_cons_self) (hhistory.leafIndex hfirst))
    have htake := hxs.take (noteEvents chain.log).length
    rw [List.take_left, hempty] at htake
    exact ⟨_, htake⟩

/-- The transactions that did not fail. -/
def successes (txs : List PoolTx) : List PoolTx := txs.filter fun tx => !tx.err

/-- Failed transactions emit nothing. -/
theorem flatMap_successes {txs : List PoolTx} (h : ∀ tx ∈ txs, tx.Sound programId) {α : Type}
    {f : PoolTx → List α} (hf : ∀ tx : PoolTx, tx.events = [] → f tx = []) :
    (successes txs).flatMap f = txs.flatMap f := by
  induction txs with
  | nil => rfl
  | cons tx txs ih =>
    have hrest := ih fun tx' htx' => h tx' (List.mem_cons_of_mem _ htx')
    unfold successes at hrest ⊢
    cases herr : tx.err with
    | false => simp [herr, hrest]
    | true => simp [herr, hrest, hf tx ((h tx List.mem_cons_self).failed herr)]

theorem Chain.flatMap_successes_events (chain : Chain env programId) :
    (successes chain.txs).flatMap PoolTx.events = chain.log :=
  flatMap_successes chain.sound fun _ h => h

/-- The leaves of any first successful transactions of a chain are its first ones. -/
theorem Chain.leafNumbers_of_isPrefix (chain : Chain env programId) {txs : List PoolTx}
    (h : txs <+: successes chain.txs) :
    leafNumbers (txs.flatMap PoolTx.events) <+: leafNumbers chain.log := by
  obtain ⟨rest, hrest⟩ := h
  rw [← chain.flatMap_successes_events, ← hrest, List.flatMap_append, leafNumbers_append]
  exact List.prefix_append _ _

/-- Any first successful transactions of a chain with a canonical genesis leaf have numbered inserts. -/
theorem Chain.numbered_of_isPrefix (chain : Chain env programId) (hgenesis : chain.GenesisCanonical)
    {txs : List PoolTx} (h : txs <+: successes chain.txs) :
    ∃ xs, Numbered env.poseidon (noteEvents (txs.flatMap PoolTx.events)) xs := by
  obtain ⟨xs, hnum⟩ := chain.numbered hgenesis
  obtain ⟨rest, hrest⟩ := h
  rw [← chain.flatMap_successes_events, ← hrest, List.flatMap_append, noteEvents_append] at hnum
  have htake := hnum.take (noteEvents (txs.flatMap PoolTx.events)).length
  rw [List.take_left] at htake
  exact ⟨_, htake⟩

/-! ## The mirror of some transactions -/

/-- The row of an insert. -/
def noteRow (slot : ℕ) (ev : NoteInserted) : NoteRow where
  leafIndex := ev.leafIndex
  leaf := toHex ev.leaf.val
  ephPubX := toHex ev.ephPubX.val
  tag := ev.tag.map fun b => toHex b.val
  cekWrap := ev.cekWrap.map fun b => toHex b.val
  ciphertext := ev.ciphertext.map fun b => toHex b.val
  root := toHex ev.root.val
  slot := slot

/-- What a mirror stores for an event. -/
def eventStatements (slot : ℕ) : Event → List Statement
  | .noteInserted ev =>
    [.insertNote (noteRow slot ev), .pushRoot (toHex ev.root.val) (ev.leafIndex + 1) slot]
  | .nullifierSpent nullifier => [.insertNullifier (toHex nullifier.val) slot]
  | .complianceKeyRotated _ newVersion x y =>
    [.insertComplianceKey ⟨newVersion, toHex x.val, toHex y.val, slot⟩]

/-- What a mirror stores for a transaction. -/
def PoolTx.statements (tx : PoolTx) : List Statement := tx.events.flatMap (eventStatements tx.slot)

/-- The store of a mirror of these transactions, from their events alone. -/
def mirrorStore (txs : List PoolTx) : IndexerStore :=
  IndexerStore.empty.execAll (txs.flatMap PoolTx.statements)

/-- The two stores differ in the cursor at most. -/
structure SameData (s s' : IndexerStore) : Prop where
  notes : s.notes = s'.notes
  nullifiers : s.nullifiers = s'.nullifiers
  roots : s.roots = s'.roots
  complianceKeys : s.complianceKeys = s'.complianceKeys

theorem SameData.refl (s : IndexerStore) : SameData s s := ⟨rfl, rfl, rfl, rfl⟩

/-- A statement on the cursor changes no data, and any other does not look at it. -/
theorem SameData.exec {s s' : IndexerStore} (h : SameData s s') (st : Statement) :
    SameData (s.exec st) (s'.exec st) := by
  obtain ⟨notes, nullifiers, roots, keys, cursor⟩ := s
  obtain ⟨notes', nullifiers', roots', keys', cursor'⟩ := s'
  obtain ⟨rfl, rfl, rfl, rfl⟩ := h
  cases st <;> exact ⟨rfl, rfl, rfl, rfl⟩

theorem SameData.execAll {s s' : IndexerStore} (h : SameData s s') (sts : List Statement) :
    SameData (s.execAll sts) (s'.execAll sts) := by
  induction sts generalizing s s' with
  | nil => exact h
  | cons st sts ih => exact ih (h.exec st)

theorem SameData.setCursor {s s' : IndexerStore} (h : SameData s s') (state : CursorState) :
    SameData (s.exec (.setCursor state)) s' := ⟨h.notes, h.nullifiers, h.roots, h.complianceKeys⟩

/-- A store and a tree that mirror these transactions. -/
structure Mirrors (poseidon : Fr → Fr → Fr → Fr) (txs : List PoolTx) (store : IndexerStore)
    (tree : LeanIMT) : Prop where
  data : SameData store (mirrorStore txs)
  holds : tree.Holds poseidon (leafNumbers (txs.flatMap PoolTx.events))
  depth : tree.depth = 32

theorem mirrors_new {tree : LeanIMT} (h : LeanIMT.new 32 = .ok tree) :
    Mirrors poseidon [] IndexerStore.empty tree := by
  obtain ⟨hholds, hdepth⟩ := holds_new poseidon 32 h
  exact ⟨SameData.refl _, hholds, hdepth⟩

/-! ## What the mirror's store holds -/

/-- The inserts of some transactions, with their slots. -/
def slottedNotes (txs : List PoolTx) : List (ℕ × NoteInserted) :=
  txs.flatMap fun tx => (noteEvents tx.events).map (Prod.mk tx.slot)

/-- The call of `pushRoot` for an insert. -/
def rootPush (p : ℕ × NoteInserted) : RootPush := ⟨p.2.root, p.2.leafIndex + 1, p.1⟩

theorem slottedNotes_append (txs txs' : List PoolTx) :
    slottedNotes (txs ++ txs') = slottedNotes txs ++ slottedNotes txs' := List.flatMap_append

theorem slottedNotes_snd (txs : List PoolTx) :
    (slottedNotes txs).map Prod.snd = noteEvents (txs.flatMap PoolTx.events) := by
  induction txs with
  | nil => rfl
  | cons tx txs ih =>
    have hhead : ((noteEvents tx.events).map (Prod.mk tx.slot)).map Prod.snd = noteEvents tx.events := by
      simp
    have hcons : slottedNotes (tx :: txs) =
        (noteEvents tx.events).map (Prod.mk tx.slot) ++ slottedNotes txs := rfl
    rw [hcons, List.map_append, hhead, ih, List.flatMap_cons, noteEvents_append]

/-- The notes and roots of a store are those of these inserts. -/
structure HoldsNotes (s : IndexerStore) (notes : List (ℕ × NoteInserted)) : Prop where
  rows : s.notes.rows = notes.map fun p => noteRow p.1 p.2
  roots : s.roots = (pushAll IndexerStore.empty (notes.map rootPush)).1.roots

/-- An insert with the next index appends its row and its root. -/
theorem HoldsNotes.append {s : IndexerStore} {notes : List (ℕ × NoteInserted)} (h : HoldsNotes s notes)
    {slot : ℕ} {ev : NoteInserted} (hbelow : ∀ p ∈ notes, p.2.leafIndex < ev.leafIndex) :
    HoldsNotes (s.execAll (eventStatements slot (.noteInserted ev))) (notes ++ [(slot, ev)]) where
  rows := by
    show (s.notes.insertOrReplace (noteRow slot ev)).rows = _
    rw [Table.insertOrReplace_of_lt, h.rows, List.map_append]
    · rfl
    · intro row hrow
      rw [Table.mem_iff, h.rows] at hrow
      obtain ⟨p, hp, rfl⟩ := List.mem_map.1 hrow
      exact hbelow p hp
  roots := by
    have hpush : ∀ t : IndexerStore, s.roots = t.roots → ∀ root next k,
        (s.pushRoot root next k).roots = (t.pushRoot root next k).roots := by
      intro t ht root next k
      unfold IndexerStore.pushRoot IndexerStore.nextCursor
      rw [ht]
    rw [List.map_append, List.map_singleton, pushAll_append_singleton]
    exact hpush _ h.roots _ _ _

/-- The events of one transaction append its inserts. -/
theorem HoldsNotes.execAll {s : IndexerStore} {notes : List (ℕ × NoteInserted)} (h : HoldsNotes s notes)
    {slot : ℕ} {events : List Event}
    (hindex : ∀ (k : ℕ) (p : ℕ × NoteInserted),
      (notes ++ (noteEvents events).map (Prod.mk slot))[k]? = some p → p.2.leafIndex = k) :
    HoldsNotes (s.execAll (events.flatMap (eventStatements slot)))
      (notes ++ (noteEvents events).map (Prod.mk slot)) := by
  induction events generalizing s notes with
  | nil => simpa [noteEvents] using h
  | cons ev events ih =>
    rw [List.flatMap_cons, IndexerStore.execAll_append]
    cases ev with
    | noteInserted ev =>
      have hcons : notes ++ (noteEvents (.noteInserted ev :: events)).map (Prod.mk slot) =
          (notes ++ [(slot, ev)]) ++ (noteEvents events).map (Prod.mk slot) := by
        rw [List.append_assoc]
        rfl
      rw [hcons] at hindex ⊢
      refine ih (h.append fun p hp => ?_) hindex
      -- the rows there are numbered below the new one
      obtain ⟨k, hk⟩ := List.mem_iff_getElem?.1 hp
      have hklt : k < notes.length := (List.getElem?_eq_some_iff.1 hk).1
      have hold := hindex k p (by
        rw [List.append_assoc, List.getElem?_append_left hklt]
        exact hk)
      have hnew := hindex notes.length (slot, ev) (by simp)
      rw [hold, hnew]
      exact hklt
    | nullifierSpent nullifier => exact ih ⟨h.rows, h.roots⟩ hindex
    | complianceKeyRotated old new x y => exact ih ⟨h.rows, h.roots⟩ hindex

/-- The store of a mirror has the rows and the roots of the inserts, in order. -/
theorem holdsNotes_mirrorStore {txs : List PoolTx} {poseidon : Fr → Fr → Fr → Fr} {xs : List Fr}
    (hnum : Numbered poseidon (noteEvents (txs.flatMap PoolTx.events)) xs) :
    HoldsNotes (mirrorStore txs) (slottedNotes txs) := by
  induction txs using List.reverseRecOn generalizing xs with
  | nil => exact ⟨rfl, rfl⟩
  | append_singleton txs tx ih =>
    have hnotes : slottedNotes (txs ++ [tx]) =
        slottedNotes txs ++ (noteEvents tx.events).map (Prod.mk tx.slot) := by
      rw [slottedNotes_append]
      simp [slottedNotes]
    have hstore : mirrorStore (txs ++ [tx]) = (mirrorStore txs).execAll tx.statements := by
      unfold mirrorStore
      rw [← IndexerStore.execAll_append]
      simp
    have hfirst := hnum.take (noteEvents (txs.flatMap PoolTx.events)).length
    rw [List.flatMap_append, noteEvents_append, List.take_left] at hfirst
    rw [hstore, hnotes]
    refine (ih hfirst).execAll fun k p hk => ?_
    rw [← hnotes] at hk
    refine hnum.index k p.2 ?_
    rw [← slottedNotes_snd, List.getElem?_map, hk]
    rfl

/-! ## One transaction -/

/-- A mirror that has room accepts an insert of a nonzero canonical leaf, and stores it with its own
root and count. -/
theorem applyEvent_insert {ev : NoteInserted} {x : Fr} (hleaf : ev.leaf = x.toBytes)
    (hpos : HashesNonzero (hash3 poseidon) 0 ((xs ++ [x]).map ZMod.val)) (hne : ∀ y ∈ xs ++ [x], y ≠ 0)
    (hroom : xs.length < 2 ^ 32)
    {tree : LeanIMT} (htree : tree.Holds poseidon (xs.map ZMod.val)) (hdepth : tree.depth = 32)
    (slot : ℕ) : ∃ tree', applyEvent poseidon tree (domainOf (.noteInserted ev)) slot =
        ⟨tree', [
          .insertNote { noteRow slot ev with
            root := toHex (LeanTree.root (nodeHash poseidon) 0 (xs ++ [x])).toBytes.val },
          .pushRoot (toHex (LeanTree.root (nodeHash poseidon) 0 (xs ++ [x])).toBytes.val)
            (xs.length + 1) slot], none⟩ ∧
      tree'.Holds poseidon ((xs ++ [x]).map ZMod.val) ∧ tree'.depth = 32 := by
  have hvals : xs.map ZMod.val ++ [x.val] = (xs ++ [x]).map ZMod.val := by simp
  obtain ⟨tree', hinsert, hholds, hdepth'⟩ := insert_of_holds poseidon (hvals ▸ hpos) htree
    (by rw [hvals]; exact val_ne_zero_of_mem hne) (by rw [hdepth, List.length_map]; exact hroom)
  rw [hvals, indexer_root] at hinsert
  rw [hvals] at hholds
  have hnext : tree'.nextIndex = xs.length + 1 := by
    rw [hholds.nextIndex]
    simp
  refine ⟨tree', ?_, hholds, hdepth'.trans hdepth⟩
  have hcanonical : Canonical ev.leaf := by
    rw [hleaf]
    exact canonical_toBytes x
  have hfield : fieldFromHex (toHex ev.leaf.val) = .ok x.val := by
    rw [fieldFromHex_of_canonical hcanonical, hleaf, beNat_toBytes]
  unfold applyEvent domainOf
  simp only [hfield, hinsert, fieldToHex_val, hnext, noteRow]

/-- The next insert of a numbered log is accepted, with the root the event reports. -/
theorem applyEvent_noteInserted {done : List Event} {ev : NoteInserted}
    (hpos : HashesNonzero (hash3 poseidon) 0 (leafNumbers (done ++ [.noteInserted ev])))
    (hnum : Numbered poseidon (noteEvents done ++ [ev]) xs) {tree : LeanIMT}
    (htree : tree.Holds poseidon (leafNumbers done)) (hdepth : tree.depth = 32) (slot : ℕ) :
    ∃ tree', applyEvent poseidon tree (domainOf (.noteInserted ev)) slot =
        ⟨tree', eventStatements slot (.noteInserted ev), none⟩ ∧
      tree'.Holds poseidon (leafNumbers (done ++ [.noteInserted ev])) ∧ tree'.depth = 32 := by
  have hlast : (noteEvents done ++ [ev])[(noteEvents done).length]? = some ev := by simp
  have hlen : xs.length = (noteEvents done).length + 1 := by simpa using hnum.length
  obtain ⟨ys, x, rfl⟩ : ∃ ys x, xs = ys ++ [x] := by
    rcases xs.eq_nil_or_concat with rfl | ⟨ys, x, rfl⟩
    · cases hlen
    · exact ⟨ys, x, by simp⟩
  have hleaves := hnum.leaves
  rw [List.map_append, List.map_append] at hleaves
  obtain ⟨hold, hnew⟩ := List.append_inj' hleaves rfl
  have hleaf : ev.leaf = x.toBytes := List.singleton_inj.1 hnew
  have hvals : leafNumbers done = ys.map ZMod.val := by
    have := congrArg (List.map fun b : Bytes 32 => beNat b.val) hold
    simpa [leafNumbers, Function.comp_def] using this
  have hys : ys.length = (noteEvents done).length := by simpa using hlen
  have hcap := hnum.capacity
  rw [List.length_append, List.length_singleton] at hcap
  have hgrown : leafNumbers (done ++ [.noteInserted ev]) = (ys ++ [x]).map ZMod.val := by
    rw [leafNumbers_append, hvals]
    show _ ++ [beNat ev.leaf.val] = _
    rw [hleaf, beNat_toBytes]
    simp
  obtain ⟨tree', hrun, hholds, hdepth'⟩ := applyEvent_insert hleaf (hgrown ▸ hpos) hnum.nonzero
    (by omega) (hvals ▸ htree) hdepth slot
  -- the event reports the root and the index the mirror comes to
  have hroot := hnum.root _ ev hlast
  rw [List.take_of_length_le (by omega)] at hroot
  have hindex := hnum.index _ ev hlast
  refine ⟨tree', ?_, ?_, hdepth'⟩
  · rw [hrun, ← hroot, hys, ← hindex]
    rfl
  · rwa [hgrown]

/-- The events of a numbered log are applied one after the other. -/
theorem applyEvents_of_numbered {done events : List Event}
    (hpos : GrowsNonzero (hash3 poseidon) 0 (leafNumbers (done ++ events)))
    (hnum : Numbered poseidon (noteEvents (done ++ events)) xs) {tree : LeanIMT}
    (htree : tree.Holds poseidon (leafNumbers done)) (hdepth : tree.depth = 32) (slot : ℕ) :
    ∃ tree', applyEvents poseidon slot (events.map domainOf) tree =
        ⟨tree', events.flatMap (eventStatements slot), none⟩ ∧
      tree'.Holds poseidon (leafNumbers (done ++ events)) ∧ tree'.depth = 32 := by
  induction events generalizing done tree with
  | nil =>
    rw [List.append_nil]
    exact ⟨tree, rfl, htree, hdepth⟩
  | cons ev events ih =>
    obtain ⟨tree₁, hfirst, htree₁, hdepth₁⟩ : ∃ tree₁,
        applyEvent poseidon tree (domainOf ev) slot = ⟨tree₁, eventStatements slot ev, none⟩ ∧
        tree₁.Holds poseidon (leafNumbers (done ++ [ev])) ∧ tree₁.depth = 32 := by
      cases ev with
      | noteInserted ev =>
        have htake := hnum.take (noteEvents done ++ [ev]).length
        have hsplit : noteEvents (done ++ .noteInserted ev :: events) =
            (noteEvents done ++ [ev]) ++ noteEvents events := by
          rw [noteEvents_append, List.append_assoc]
          rfl
        rw [hsplit, List.take_left] at htake
        rw [List.append_cons, leafNumbers_append] at hpos
        exact applyEvent_noteInserted (hpos _ (List.prefix_append _ _)) htake htree hdepth slot
      | nullifierSpent nullifier =>
        refine ⟨tree, rfl, ?_, hdepth⟩
        rwa [leafNumbers_append, show leafNumbers [.nullifierSpent nullifier] = [] from rfl,
          List.append_nil]
      | complianceKeyRotated old new x y =>
        refine ⟨tree, rfl, ?_, hdepth⟩
        rwa [leafNumbers_append, show leafNumbers [.complianceKeyRotated old new x y] = [] from rfl,
          List.append_nil]
    rw [List.append_cons] at hnum hpos
    obtain ⟨tree₂, hrest, htree₂, hdepth₂⟩ := ih hpos hnum htree₁ hdepth₁
    rw [← List.append_cons] at htree₂
    refine ⟨tree₂, ?_, htree₂, hdepth₂⟩
    rw [List.map_cons, applyEvents, hfirst, Outcome.andThen_of_none rfl, hrest]
    rfl

/-- What `processSignature` does with a transaction that succeeded and whose log is legible. -/
theorem processSignature_of_sound (hprogram : ProgramText programId) {tx : PoolTx}
    (hsound : tx.Sound programId) (herr : tx.err = false) (hlegible : tx.Legible) (tree : LeanIMT) :
    processSignature poseidon programId tx.signature tx.slot (some tx.raw) tree =
      (applyEvents poseidon tx.slot (tx.events.map domainOf) tree).andThen fun tree =>
        ⟨tree, [.setCursor ⟨some tx.signature, tx.slot⟩], none⟩ := by
  unfold processSignature PoolTx.raw
  simp only [herr, hlegible.1, hsound.lines hprogram herr hlegible,
    applyLines_logLines poseidon hsound.fits]
  rfl

/-- A mirror of some transactions that processes the next one is the mirror of one more, and the
cursor is at it. -/
theorem processSignature_of_mirrors (hprogram : ProgramText programId) {done : List PoolTx}
    {tx : PoolTx} (hsound : tx.Sound programId) (herr : tx.err = false) (hlegible : tx.Legible)
    (hpos : GrowsNonzero (hash3 poseidon) 0 (leafNumbers ((done ++ [tx]).flatMap PoolTx.events)))
    (hnum : Numbered poseidon (noteEvents ((done ++ [tx]).flatMap PoolTx.events)) xs)
    {store : IndexerStore} {tree : LeanIMT} (h : Mirrors poseidon done store tree) :
    ∃ tree', processSignature poseidon programId tx.signature tx.slot (some tx.raw) tree =
        ⟨tree', tx.statements ++ [.setCursor ⟨some tx.signature, tx.slot⟩], none⟩ ∧
      Mirrors poseidon (done ++ [tx])
        (store.execAll (tx.statements ++ [.setCursor ⟨some tx.signature, tx.slot⟩])) tree' := by
  have hevents : (done ++ [tx]).flatMap PoolTx.events = done.flatMap PoolTx.events ++ tx.events := by
    simp
  rw [hevents] at hnum hpos
  obtain ⟨tree', hrun, htree, hdepth⟩ := applyEvents_of_numbered hpos hnum h.holds h.depth tx.slot
  refine ⟨tree', ?_, ?_, ?_, hdepth⟩
  · rw [processSignature_of_sound hprogram hsound herr hlegible, hrun, Outcome.andThen_of_none rfl]
    rfl
  · rw [IndexerStore.execAll_append]
    refine SameData.setCursor ?_ _
    have hstore : mirrorStore (done ++ [tx]) = (mirrorStore done).execAll tx.statements := by
      unfold mirrorStore
      rw [← IndexerStore.execAll_append]
      simp
    rw [hstore]
    exact h.data.execAll _
  · rwa [hevents]

/-- A mirror of any leaves takes the leaf of a transaction with one insert, whatever the index and the
root the event carries. -/
theorem processSignature_insert {poseidon : Fr → Fr → Fr → Fr} (hprogram : ProgramText programId)
    {tx : PoolTx} (hsound : tx.Sound programId) (herr : tx.err = false) (hlegible : tx.Legible)
    {ev : NoteInserted} (hevents : tx.events = [.noteInserted ev]) {xs : List Fr} {x : Fr}
    (hleaf : ev.leaf = x.toBytes)
    (hpos : HashesNonzero (hash3 poseidon) 0 ((xs ++ [x]).map ZMod.val)) (hne : ∀ y ∈ xs ++ [x], y ≠ 0)
    (hroom : xs.length < 2 ^ 32) {tree : LeanIMT}
    (htree : tree.Holds poseidon (xs.map ZMod.val)) (hdepth : tree.depth = 32) :
    (processSignature poseidon programId tx.signature tx.slot (some tx.raw) tree).tree.Holds poseidon
        ((xs ++ [x]).map ZMod.val) ∧
      (processSignature poseidon programId tx.signature tx.slot (some tx.raw) tree).tree.depth = 32 ∧
      ∀ store : IndexerStore, (store.execAll (processSignature poseidon programId tx.signature tx.slot
        (some tx.raw) tree).statements).getCursor.lastSignature = some tx.signature := by
  obtain ⟨tree', hrun, hholds, hdepth'⟩ := applyEvent_insert hleaf hpos hne hroom htree hdepth tx.slot
  rw [processSignature_of_sound hprogram hsound herr hlegible, hevents, List.map_singleton, applyEvents, hrun,
    Outcome.andThen_of_none rfl, Outcome.andThen_of_none rfl]
  refine ⟨hholds, hdepth', fun store => ?_⟩
  rw [IndexerStore.execAll_append]
  rfl

/-! ## A sample chain -/

namespace Sample

/-- The log of the sample deployment after `initialize` and a deposit. -/
@[irreducible] def log : List Event :=
  ((execAll Kakure.Sample.env [Kakure.Sample.initializePool (beBytes 32 9), Kakure.Sample.deposit]
    Kakure.Sample.machine).map Machine.log).getD []

/-- What the samples are told apart by: the leaf, its index and the length of the ciphertext. -/
def leafFacts : Event → ℕ × ℕ × ℕ
  | .noteInserted ev => (beNat ev.leaf.val, ev.leafIndex, ev.ciphertext.length)
  | _ => (0, 0, 0)

/-- What the two inserts of the log carry. -/
theorem log_eq : ∃ ev₀ ev₁ : NoteInserted, log = [.noteInserted ev₀, .noteInserted ev₁] ∧
    ev₀.leaf = Fr.toBytes 9 ∧ ev₁.leaf = Fr.toBytes 11 ∧ ev₀.leafIndex = 0 ∧ ev₁.leafIndex = 1 ∧
    (Event.noteInserted ev₀).Fits ∧ (Event.noteInserted ev₁).Fits := by
  have hfacts : log.map leafFacts = [(9, 0, 7), (11, 1, 7)] := by decide +kernel
  obtain ⟨e₀, e₁, hlog⟩ : ∃ e₀ e₁, log = [e₀, e₁] := by
    have hlen := congrArg List.length hfacts
    rw [List.length_map] at hlen
    exact List.length_eq_two.1 hlen
  rw [hlog] at hfacts
  simp only [List.map_cons, List.map_nil, List.cons.injEq, and_true] at hfacts
  obtain ⟨h₀, h₁⟩ := hfacts
  cases e₀ with
  | noteInserted ev₀ =>
    cases e₁ with
    | noteInserted ev₁ =>
      simp only [leafFacts, Prod.mk.injEq] at h₀ h₁
      have hnine : beNat (Fr.toBytes 9).val = 9 := by decide +kernel
      have heleven : beNat (Fr.toBytes 11).val = 11 := by decide +kernel
      refine ⟨ev₀, ev₁, hlog, beNat_injective (h₀.1.trans hnine.symm),
        beNat_injective (h₁.1.trans heleven.symm), h₀.2.1, h₁.2.1, ?_, ?_⟩
      · exact ⟨by rw [h₀.2.1]; norm_num, h₀.2.2⟩
      · exact ⟨by rw [h₁.2.1]; norm_num, h₁.2.2⟩
    | nullifierSpent nullifier => simp [leafFacts] at h₁
    | complianceKeyRotated old new x y => simp [leafFacts] at h₁
  | nullifierSpent nullifier => simp [leafFacts] at h₀
  | complianceKeyRotated old new x y => simp [leafFacts] at h₀

def programText : List Char := "Poo1".toList

/-- The caller of the pool. -/
def callerText : List Char := "Out1".toList

theorem programText_ids : ProgramText programText ∧ ProgramText callerText :=
  ⟨programText_of_all (by decide) (by decide), programText_of_all (by decide) (by decide)⟩

/-- What the pool logs of some events. -/
def eventTrace (evs : List Event) : Trace :=
  evs.foldr (fun ev rest => .data [Text.asciiBytes ev.tag.toList, ev.body] rest) .nil

/-- A program opens a bracket in its texts, closes it and calls the pool. -/
def trace (evs : List Event) : Trace :=
  .frame callerText
    (.log "invoke [7]".toList
      (.log "success".toList
        (.frame programText (eventTrace evs) none (.consumed programText "9 of 10".toList .nil))))
    none .nil

/-- A transaction of that program. -/
def tx (signature : String) (slot : ℕ) (evs : List Event) (logs : List (List Char)) : PoolTx :=
  ⟨signature, slot, false, logs, trace evs, evs⟩

/-- The whole log of some events. -/
def wholeLog (evs : List Event) : List (List Char) := (trace evs).lines 1

/-- A log that was cut. -/
def cutLog : List (List Char) := ["Program Out1 invoke [1]".toList, "Log truncated".toList]

theorem eventTrace_spec (evs : List Event) (running : Option (List Char)) (around : Bool) (own : ℕ) :
    (eventTrace evs).Named ∧ (eventTrace evs).Silent programText running ∧
      (eventTrace evs).Contained around own ∧
      (eventTrace evs).dataOf programText (some programText) = evs.map Event.logLine := by
  induction evs with
  | nil => exact ⟨trivial, trivial, trivial, rfl⟩
  | cons ev evs ih =>
    refine ⟨ih.1, ih.2.1, ih.2.2.1, ?_⟩
    show (if some programText = some programText then _ else _) = _
    rw [if_pos rfl, List.map_cons]
    exact congrArg _ ih.2.2.2

theorem sound_tx {signature : String} {slot : ℕ} {evs : List Event} {logs : List (List Char)}
    (hevs : ∀ ev ∈ evs, ev ∈ log) (hlogs : logs = wholeLog evs ∨ logs = cutLog) :
    (tx signature slot evs logs).Sound programText := by
  have hfits : ∀ ev ∈ log, ev.Fits := by
    obtain ⟨ev₀, ev₁, hlog, -, -, -, -, hfits₀, hfits₁⟩ := log_eq
    simp [hlog, hfits₀, hfits₁]
  obtain ⟨hnamed, hsilent, -, hdata⟩ := eventTrace_spec evs (some programText) false 0
  have hne : some callerText ≠ some programText := by decide
  refine ⟨fun h => Bool.noConfusion h, fun _ => ?_, fun _ => ?_, fun _ => ?_, fun _ hwhole => ?_,
    fun ev hev => hfits ev (hevs ev hev)⟩
  · exact ⟨programText_ids.2, ⟨programText_ids.1, hnamed, programText_ids.1, trivial⟩, trivial⟩
  · exact ⟨⟨hne, hne, hsilent, trivial⟩, trivial⟩
  · show ((eventTrace evs).dataOf programText (some programText) ++ []) ++ [] = _
    rw [List.append_nil, List.append_nil, hdata]
    rfl
  · rcases hlogs with rfl | rfl
    · rfl
    · have hcut : logsWereTruncated cutLog = true := by decide
      exact absurd (hcut.symm.trans hwhole) (by decide)

theorem truncated_lines_eventTrace (evs : List Event) (depth : ℕ) :
    logsWereTruncated ((eventTrace evs).lines depth) = false := by
  induction evs with
  | nil => rfl
  | cons ev evs ih => exact ih

theorem legible_tx (signature : String) (slot : ℕ) (evs : List Event) :
    (tx signature slot evs (wholeLog evs)).Legible := by
  have hopens : OpensFrame "invoke [7]".toList ∧ ¬ OpensFrame "success".toList := by decide
  have hends : EndsFrame "success".toList := by decide
  constructor
  · have hpool := truncated_lines_eventTrace evs 3
    show logsWereTruncated (wholeLog evs) = false
    unfold logsWereTruncated wholeLog trace at *
    simp only [Trace.lines, List.any_cons, List.any_append, hpool, List.any_nil]
    decide
  · obtain ⟨-, -, hcontained, -⟩ := eventTrace_spec evs none false 0
    show (trace evs).Contained false 0
    simp only [trace, Trace.Contained, if_pos hopens.1, if_neg hopens.2, if_pos hends]
    simpa using hcontained

/-- A chain of transactions with the events of the log. -/
def chainOf (txs : List PoolTx) (hnodup : (txs.map PoolTx.signature).Nodup)
    (hsound : ∀ tx ∈ txs, tx.Sound programText) (hevents : txs.flatMap PoolTx.events = log) :
    Chain Kakure.Sample.env programText where
  program := programText_ids.1
  txs := txs
  nodup := hnodup
  sound := hsound
  run := by
    have hsome : (execAll Kakure.Sample.env [Kakure.Sample.initializePool (beBytes 32 9),
        Kakure.Sample.deposit] Kakure.Sample.machine).isSome := by decide +kernel
    obtain ⟨m, hm⟩ := Option.isSome_iff_exists.1 hsome
    have hrun := run_of_execAll (by
      simp [Kakure.Sample.initializePool, Kakure.Sample.deposit, Kakure.Sample.admissible]) hm
    refine ⟨_, m, _, Kakure.Sample.fresh, hrun, ⟨_, List.mem_map_of_mem List.mem_cons_self, rfl⟩, ?_⟩
    have hlog : log = m.log := by
      unfold log
      rw [hm]
      rfl
    rw [← hlog, hevents]

/-- The chain of the transaction of `initialize` and the one of the deposit, with logs that are whole or cut. -/
def chain (logs₀ logs₁ : List (List Char)) (h₀ : logs₀ = wholeLog (log.take 1) ∨ logs₀ = cutLog)
    (h₁ : logs₁ = wholeLog (log.drop 1) ∨ logs₁ = cutLog) : Chain Kakure.Sample.env programText :=
  chainOf [tx "s0" 10 (log.take 1) logs₀, tx "s1" 11 (log.drop 1) logs₁]
    (by
      show ["s0", "s1"].Nodup
      decide)
    (by
      intro tx htx
      rcases List.mem_cons.1 htx with rfl | htx
      · exact sound_tx (fun ev => List.mem_of_mem_take) h₀
      · rw [List.mem_singleton.1 htx]
        exact sound_tx (fun ev => List.mem_of_mem_drop) h₁)
    (by
      show log.take 1 ++ (log.drop 1 ++ []) = log
      rw [List.append_nil, List.take_append_drop])

/-- The chain with both logs whole. -/
def wholeChain : Chain Kakure.Sample.env programText :=
  chain (wholeLog (log.take 1)) (wholeLog (log.drop 1)) (.inl rfl) (.inl rfl)

/-- The chain in which the log of `initialize` is cut. -/
def cutChain : Chain Kakure.Sample.env programText :=
  chain cutLog (wholeLog (log.drop 1)) (.inr rfl) (.inl rfl)

theorem log_wholeChain : wholeChain.log = log := by
  show log.take 1 ++ (log.drop 1 ++ []) = log
  rw [List.append_nil, List.take_append_drop]

theorem nodesNonzero : wholeChain.NodesNonzero := growsNonzero_hash3 _ sample_poseidon_ne_zero _

theorem genesisCanonical : wholeChain.GenesisCanonical := by
  obtain ⟨ev₀, ev₁, hlog, h₀, h₁, -⟩ := log_eq
  unfold Chain.GenesisCanonical
  rw [log_wholeChain, hlog]
  intro ev hev _
  have hcases : ev = ev₀ ∨ ev = ev₁ := by simpa [noteEvents] using hev
  rcases hcases with rfl | rfl
  · rw [h₀]
    exact canonical_toBytes 9
  · rw [h₁]
    exact canonical_toBytes 11

end Sample

end Kakure.Indexer
