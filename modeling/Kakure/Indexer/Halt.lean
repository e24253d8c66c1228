import Kakure.Indexer.Backlog

/-!
# The halt on a truncated log

A call that meets a truncated log changes nothing.  What the calls in flight at that moment
and those started later do is another matter: none of them looks at `_halted`.

* `truncation_halt` — where only calls of older transactions complete before, and afterwards
  none that has an event to apply, the data stays as it is and the cursor before the truncated
  transaction; so it does by itself where all calls in flight wait for truncated logs or list
  behind the last transaction before it;
* `halt_ignored` — a call that was suspended applies its transaction and moves the cursor
  past the truncated one.
-/

namespace Kakure.Indexer

open Slices Hex Runs LeanTree

variable {env : Env} {programId : List Char} {chain : Chain env programId}

/-- A transaction that succeeded and whose log was cut. -/
def PoolTx.truncated (tx : PoolTx) : Bool := !tx.err && logsWereTruncated tx.logMessages

/-- The cursor stands before the `j`-th transaction of the chain. -/
def CursorBefore (chain : Chain env programId) (store : IndexerStore) (j : ℕ) : Prop :=
  ∃ p ≤ j, chain.CursorAt store.getCursor.lastSignature p

/-! ## The order of completions -/

/-- The signature of a transaction before the `j`-th one. -/
def Chain.Older (chain : Chain env programId) (j : ℕ) (signature : String) : Prop :=
  ∃ i < j, ∃ tx, chain.txs[i]? = some tx ∧ tx.signature = signature

/-- The only calls that complete are of older transactions, or meet a truncated log. -/
def Chain.StepsBack (chain : Chain env programId) (j : ℕ) : Act → Prop
  | .answered tx => tx.truncated = true ∨ chain.Older j tx.signature
  | .null sig => chain.Older j sig.signature
  | _ => True

/-- The only calls that complete are of older transactions without a data line of the pool, or meet a
truncated log. -/
def Chain.Harmless (chain : Chain env programId) (j : ℕ) : Act → Prop
  | .answered tx => tx.truncated = true ∨
    chain.Older j tx.signature ∧ programDataLinesFor tx.logMessages programId = []
  | .null sig => chain.Older j sig.signature
  | _ => True

theorem Chain.Harmless.stepsBack {j : ℕ} {a : Act} (h : chain.Harmless j a) : chain.StepsBack j a := by
  cases a with
  | answered tx => exact h.imp_right And.left
  | null sig => exact h
  | _ => trivial

/-! ## What is in flight -/

/-- A call that lists behind a store's cursor, or waits for a transaction whose log was cut. -/
def Chain.Waits (chain : Chain env programId) (store : IndexerStore) (t : Task) : Prop :=
  t = .listing (backfillUntil store) ∨ ∃ tx ∈ chain.txs, tx.truncated = true ∧ t.sig? = some tx.info

/-- A listing reaches back to the cursor, no call is answered `null`, and what is delivered failed or
was cut. -/
def Relisted (chain : Chain env programId) (w : World) : Act → Prop
  | .listed _ => ∀ p, chain.CursorAt w.store.getCursor.lastSignature p → w.confirmed ≤ p + 1000
  | .deliver tx => tx.err = true ∨ tx.truncated = true
  | .null _ => False
  | _ => True

/-! ## Stretches -/

/-- A truncated log: the stretch does nothing but throw. -/
theorem processSignature_truncated {poseidon : Fr → Fr → Fr → Fr} {tx : PoolTx}
    (h : tx.truncated = true) (tree : LeanIMT) :
    processSignature poseidon programId tx.signature tx.slot (some tx.raw) tree =
      ⟨tree, [], some (.logTruncation tx.signature tx.slot)⟩ := by
  obtain ⟨herr, hcut⟩ : tx.err = false ∧ logsWereTruncated tx.logMessages = true := by
    simpa [PoolTx.truncated] using h
  unfold processSignature PoolTx.raw
  simp [herr, hcut]

/-- A log without a data line of the pool: the stretch sets the cursor. -/
theorem processSignature_of_nil {poseidon : Fr → Fr → Fr → Fr} {tx : PoolTx} (hcut : tx.truncated = false)
    (hnil : programDataLinesFor tx.logMessages programId = []) (tree : LeanIMT) :
    processSignature poseidon programId tx.signature tx.slot (some tx.raw) tree =
      ⟨tree, [.setCursor ⟨some tx.signature, tx.slot⟩], none⟩ := by
  unfold processSignature PoolTx.raw
  cases herr : tx.err with
  | true => rfl
  | false =>
    have hwhole : logsWereTruncated tx.logMessages = false := by simpa [PoolTx.truncated, herr] using hcut
    simp only [hwhole, hnil]
    rfl

/-- The statements of events leave the cursor. -/
theorem getCursor_applyEvent (poseidon : Fr → Fr → Fr → Fr) (tree : LeanIMT) (event : KakurePoolEvent)
    (slot : ℕ) (store : IndexerStore) :
    (store.execAll (applyEvent poseidon tree event slot).statements).getCursor = store.getCursor := by
  unfold applyEvent
  split
  · split
    · rfl
    · split
      · rfl
      · split <;> rfl
  · rfl
  · rfl

theorem getCursor_applyLines (poseidon : Fr → Fr → Fr → Fr) (slot : ℕ) (lines : List (List Char))
    (tree : LeanIMT) (store : IndexerStore) :
    (store.execAll (applyLines poseidon slot lines tree).statements).getCursor = store.getCursor := by
  induction lines generalizing tree store with
  | nil => rfl
  | cons line lines ih =>
    rw [applyLines]
    split
    · exact ih tree store
    · exact ih tree store
    · split
      · rfl
      · rename_i event _
        have hevent := getCursor_applyEvent poseidon tree event slot
        unfold Outcome.andThen
        split
        · exact hevent store
        · rw [IndexerStore.execAll_append, ih, hevent]

/-- A stretch leaves the cursor or sets it to its own signature. -/
theorem getCursor_processSignature (poseidon : Fr → Fr → Fr → Fr) (programId : List Char) (signature : String)
    (slot : ℕ) (answer : Option RawTransaction) (tree : LeanIMT) (store : IndexerStore) :
    (store.execAll (processSignature poseidon programId signature slot answer tree).statements).getCursor =
        store.getCursor ∨
      (store.execAll (processSignature poseidon programId signature slot answer tree).statements).getCursor =
        ⟨some signature, slot⟩ := by
  unfold processSignature
  split
  · exact Or.inr rfl
  · split
    · exact Or.inr rfl
    · split
      · exact Or.inl rfl
      · rename_i tx _ _
        have hlines := getCursor_applyLines poseidon slot (programDataLinesFor tx.logMessages programId) tree store
        unfold Outcome.andThen
        split
        · exact Or.inl hlines
        · right
          rw [IndexerStore.execAll_append]
          rfl

/-! ## Steps -/

/-- A call of an older transaction leaves the cursor before the `j`-th one. -/
theorem CursorBefore.processSignature {store : IndexerStore} {j : ℕ} (h : CursorBefore chain store j)
    {signature : String} (hold : chain.Older j signature) (slot : ℕ) (answer : Option RawTransaction)
    (tree : LeanIMT) : CursorBefore chain (store.execAll
      (processSignature env.poseidon programId signature slot answer tree).statements) j := by
  rcases getCursor_processSignature env.poseidon programId signature slot answer tree store with hsame | hset
  · obtain ⟨p, hp, hcursor⟩ := h
    exact ⟨p, hp, by rwa [hsame]⟩
  · obtain ⟨i, hi, tx, htx, hsig⟩ := hold
    refine ⟨i + 1, hi, ?_⟩
    rw [hset]
    exact ⟨i, tx, rfl, htx, hsig⟩

/-- One step of a run in which only older transactions' calls complete. -/
theorem cursorBefore_step {w w' : World} {a : Act} {j : ℕ} (h : CursorBefore chain w.store j)
    (hstep : Step chain w a w') (hback : chain.StepsBack j a) : CursorBefore chain w'.store j := by
  cases hstep with
  | confirm _ => exact h
  | backfill => exact h
  | listed _ _ _ => exact h
  | deliver _ _ _ _ => exact h
  | @answered before after t tx htasks hsig htx =>
    rcases hback with hcut | hold
    · rw [processSignature_truncated hcut]
      exact h
    · exact h.processSignature hold _ _ _
  | null _ _ => exact h.processSignature hback _ _ _
  | failed _ => exact h

/-- The data of a process are those of an earlier state, and it has halted. -/
structure Frozen (w₁ w : World) : Prop where
  tree : w.tree = w₁.tree
  data : SameData w.store w₁.store
  halted : w.halted ≠ none

/-- The step that meets a truncated log. -/
theorem frozen_of_truncated {w w' : World} {tx : PoolTx} (hcut : tx.truncated = true)
    (hstep : Step chain w (.answered tx) w') : Frozen w w' ∧ w'.store = w.store := by
  cases hstep with
  | answered htasks hsig htx =>
    rw [processSignature_truncated hcut]
    exact ⟨⟨rfl, SameData.refl _, Option.some_ne_none _⟩, rfl⟩

/-- A halted process keeps its data while the calls that complete are harmless. -/
theorem frozen_step {w₁ w w' : World} {a : Act} {j : ℕ} (h : Frozen w₁ w) (hstep : Step chain w a w')
    (hharmless : chain.Harmless j a) : Frozen w₁ w' := by
  cases hstep with
  | confirm _ => exact ⟨h.tree, h.data, h.halted⟩
  | backfill => exact ⟨h.tree, h.data, h.halted⟩
  | listed _ _ _ => exact ⟨h.tree, h.data, h.halted⟩
  | deliver _ _ _ _ => exact ⟨h.tree, h.data, h.halted⟩
  | @answered before after t tx htasks hsig htx =>
    cases hcut : tx.truncated with
    | true =>
      rw [processSignature_truncated hcut]
      exact ⟨h.tree, h.data, Option.some_ne_none _⟩
    | false =>
      have hnil : programDataLinesFor tx.logMessages programId = [] :=
        (hharmless.resolve_left (by rw [hcut]; exact Bool.false_ne_true)).2
      rw [processSignature_of_nil hcut hnil]
      exact ⟨h.tree, h.data.setCursor _, h.halted⟩
  | null _ _ => exact ⟨h.tree, h.data.setCursor _, h.halted⟩
  | failed _ => exact ⟨h.tree, h.data, h.halted⟩

/-- A listing from a cursor behind which the `j`-th transaction is the first that succeeded begins a
backfill with it. -/
theorem waits_resume {store : IndexerStore} {j : ℕ} {tx : PoolTx} (htx : chain.txs[j]? = some tx)
    (hcut : tx.truncated = true) {p view : ℕ} (hpj : p ≤ j)
    (hnext : successes ((chain.txs.take j).drop p) = []) :
    ∀ t ∈ resume ((successes ((chain.txs.take view).drop p)).map PoolTx.info), chain.Waits store t := by
  have herr : tx.err = false := by
    cases h : tx.err with
    | false => rfl
    | true => simp [PoolTx.truncated, h] at hcut
  rcases Nat.lt_or_ge j view with hjv | hvj
  · -- the view shows the transaction, after failed ones only
    obtain ⟨hjlt, hget⟩ := List.getElem?_eq_some_iff.1 htx
    have hsplit : (chain.txs.take view).drop p =
        (chain.txs.take j).drop p ++ tx :: (chain.txs.take view).drop (j + 1) := by
      have hcons := List.cons_getElem_drop_succ (l := chain.txs.take view) (n := j)
        (h := by rw [List.length_take]; omega)
      rw [List.getElem_take, hget] at hcons
      have hdrop : (chain.txs.take j).drop p = ((chain.txs.take view).drop p).take (j - p) := by
        rw [List.take_drop, List.take_take, Nat.add_sub_cancel' hpj, Nat.min_eq_left hjv.le]
      rw [hcons, hdrop, show j = p + (j - p) from by omega, ← List.drop_drop,
        show p + (j - p) - p = j - p from by omega, List.take_append_drop]
    have hhead : successes ((chain.txs.take view).drop p) =
        tx :: successes ((chain.txs.take view).drop (j + 1)) := by
      rw [hsplit, successes_append, hnext, List.nil_append, successes, List.filter_cons_of_pos (by simp [herr])]
      rfl
    rw [hhead]
    intro t ht
    rw [List.map_cons, resume, List.mem_singleton] at ht
    subst ht
    exact Or.inr ⟨tx, List.mem_of_getElem? htx, hcut, rfl⟩
  · have hnone : successes ((chain.txs.take view).drop p) = [] := by
      have hsub : ((chain.txs.take view).drop p).Sublist ((chain.txs.take j).drop p) :=
        ((List.take_prefix_take_left hvj).sublist).drop p
      have := hsub.filter fun tx => !tx.err
      unfold successes at hnext ⊢
      rw [hnext] at this
      exact List.sublist_nil.1 this
    rw [hnone]
    intro t ht
    cases ht

/-- Where all calls in flight wait for truncated logs or list behind the cursor, so do those after a step
that is relisted; the call that completes, if one does, is harmless. -/
theorem waits_step {store : IndexerStore} {j : ℕ} {tx : PoolTx} (htx : chain.txs[j]? = some tx)
    (hcut : tx.truncated = true) {p : ℕ} (hpj : p ≤ j)
    (hcursor : chain.CursorAt store.getCursor.lastSignature p)
    (hnext : successes ((chain.txs.take j).drop p) = []) {w w' : World} {a : Act}
    (hstore : w.store = store) (hwaits : ∀ t ∈ w.tasks, chain.Waits store t)
    (hstep : guarded chain (Relisted chain) w a w') :
    chain.Harmless j a ∧ w'.store = store ∧ ∀ t ∈ w'.tasks, chain.Waits store t := by
  obtain ⟨hstep, hcond⟩ := hstep
  cases hstep with
  | confirm _ => exact ⟨trivial, hstore, hwaits⟩
  | backfill =>
    refine ⟨trivial, hstore, fun t ht => ?_⟩
    rcases List.mem_append.1 ht with ht | ht
    · exact hwaits t ht
    · rw [List.mem_singleton.1 ht, hstore]
      exact Or.inl rfl
  | @listed before after stop view htasks hview hstop =>
    have hlisting : stop = backfillUntil store := by
      rcases hwaits (.listing stop) (by rw [htasks]; simp) with heq | ⟨_, _, _, hsig⟩
      · exact Task.listing.inj heq
      · cases hsig
    subst hlisting
    have hpv : p ≤ view := le_of_cursorAt hcursor hstop
    have hlen : ((chain.txs.take view).drop p).length ≤ 1000 := by
      have := hcond p (by rwa [hstore])
      rw [List.length_drop, List.length_take]
      omega
    refine ⟨trivial, hstore, fun t ht => ?_⟩
    rw [backfillUntil, chain.backfillQueue_of_cursorAt hcursor hpv hlen] at ht
    rcases List.mem_append.1 ht with ht | ht
    · rcases List.mem_append.1 ht with ht | ht
      · exact hwaits t (by rw [htasks]; exact List.mem_append_left _ ht)
      · exact waits_resume htx hcut hpj hnext t ht
    · exact hwaits t (by rw [htasks]; exact List.mem_append_right _ (List.mem_cons_of_mem _ ht))
  | @deliver i dtx hsub hi hdtx hnew =>
    refine ⟨trivial, hstore, fun t ht => ?_⟩
    rcases List.mem_append.1 ht with ht | ht
    · exact hwaits t ht
    · cases herr : dtx.err with
      | true => simp [herr] at ht
      | false =>
        rw [herr, if_neg Bool.false_ne_true, List.mem_singleton] at ht
        subst ht
        have hdcut : dtx.truncated = true := hcond.resolve_left (by rw [herr]; exact Bool.false_ne_true)
        exact Or.inr ⟨dtx, List.mem_of_getElem? hdtx, hdcut, rfl⟩
  | @answered before after t atx htasks hsig hatx =>
    have hacut : atx.truncated = true := by
      rcases hwaits t (by rw [htasks]; simp) with rfl | ⟨tx', htx', hcut', hsig'⟩
      · cases hsig
      · rw [hsig, Option.some_inj] at hsig'
        have heq : atx = tx' := List.inj_on_of_nodup_map chain.nodup (List.mem_of_mem_take hatx) htx'
          (congrArg SignatureInfo.signature hsig')
        rwa [heq]
    rw [processSignature_truncated hacut]
    refine ⟨Or.inl hacut, hstore, fun t' ht' => hwaits t' ?_⟩
    have hleft : t' ∈ before ++ [] ++ after := ht'
    rw [List.append_nil] at hleft
    rw [htasks]
    rcases List.mem_append.1 hleft with hleft | hleft
    · exact List.mem_append_left _ hleft
    · exact List.mem_append_right _ (List.mem_cons_of_mem _ hleft)
  | null _ _ => exact hcond.elim
  | @failed before after t htasks =>
    refine ⟨trivial, hstore, fun t' ht' => hwaits t' ?_⟩
    rw [htasks]
    rcases List.mem_append.1 ht' with ht' | ht'
    · exact List.mem_append_left _ ht'
    · exact List.mem_append_right _ (List.mem_cons_of_mem _ ht')

/-! ## Runs -/

/-- The process keeps the data of an earlier state, its cursor is before the `j`-th transaction, and
every listing that reaches back to it shows that transaction again. -/
structure Halted (chain : Chain env programId) (j : ℕ) (tx : PoolTx) (w₁ w : World) : Prop where
  frozen : Frozen w₁ w
  cursor : CursorBefore chain w.store j
  listed : ∀ view, j < view →
    (∀ p, chain.CursorAt w.store.getCursor.lastSignature p → ((chain.txs.take view).drop p).length ≤ 1000) →
    tx.info ∈ chain.getSignaturesForAddress view (backfillUntil w.store)

/-- A listing that reaches back to a cursor before a transaction shows it. -/
theorem CursorBefore.mem_listed {store : IndexerStore} {j : ℕ} {tx : PoolTx} (h : CursorBefore chain store j)
    (htx : chain.txs[j]? = some tx) {view : ℕ} (hview : j < view)
    (hle : ∀ p, chain.CursorAt store.getCursor.lastSignature p → ((chain.txs.take view).drop p).length ≤ 1000) :
    tx.info ∈ chain.getSignaturesForAddress view (backfillUntil store) := by
  obtain ⟨p, hpj, hcursor⟩ := h
  unfold backfillUntil
  rw [chain.getSignaturesForAddress_of_cursorAt hcursor (by omega),
    List.take_of_length_le (by simpa using hle p hcursor)]
  refine List.mem_map_of_mem (List.mem_reverse.2 ?_)
  apply List.mem_of_getElem? (i := j - p)
  rw [List.getElem?_drop, Nat.add_sub_cancel' hpj, List.getElem?_take_of_lt hview, htx]

/-- From any state with the cursor before a transaction, in every run in which only calls of older
transactions complete until the truncated log of this one is met: after it, while the calls that
complete are of older transactions without data lines of the pool (or answered `null`) or meet a truncated
log, tree, notes, roots and nullifiers stay as they are, and the cursor before the transaction, so
that the next listing that reaches back to it shows it again.  It is so by itself, whatever backfills
are started, where the transaction is the next one behind the cursor that succeeded, all calls in flight
wait for truncated logs or list behind the cursor, every further listing reaches back to it, no answer is
`null`, and what is delivered is cut. -/
theorem truncation_halt {j : ℕ} {tx : PoolTx} (htx : chain.txs[j]? = some tx) (hcut : tx.truncated = true)
    {w₀ w₁ w₂ : World} (hstart : CursorBefore chain w₀.store j) {acts : List Act}
    (hrun : Run (Step chain) w₀ acts w₁) (hback : ∀ a ∈ acts, chain.StepsBack j a)
    (hmet : Step chain w₁ (.answered tx) w₂) :
    (∀ acts' w, Run (Step chain) w₂ acts' w → (∀ a ∈ acts', chain.Harmless j a) → Halted chain j tx w₁ w) ∧
    ((∀ t ∈ w₁.tasks, chain.Waits w₁.store t) →
      (∀ p, chain.CursorAt w₁.store.getCursor.lastSignature p → successes ((chain.txs.take j).drop p) = []) →
      ∀ acts' w, Run (guarded chain (Relisted chain)) w₂ acts' w → Halted chain j tx w₁ w) := by
  have hbefore : CursorBefore chain w₁.store j := by
    revert hback
    refine hrun.invariant (P := fun acts w => (∀ a ∈ acts, chain.StepsBack j a) → CursorBefore chain w.store j)
      (fun _ => hstart) ?_
    intro acts w a w' _ ih hstep hback
    exact cursorBefore_step (ih fun b hb => hback b (List.mem_append_left _ hb)) hstep (hback a (by simp))
  obtain ⟨hfrozen, hstore⟩ := frozen_of_truncated hcut hmet
  have hharmless : ∀ acts' w, Run (Step chain) w₂ acts' w → (∀ a ∈ acts', chain.Harmless j a) →
      Halted chain j tx w₁ w := by
    intro acts' w hafter hall
    have hkept : Frozen w₁ w ∧ CursorBefore chain w.store j := by
      revert hall
      refine hafter.invariant (P := fun acts w => (∀ a ∈ acts, chain.Harmless j a) →
        Frozen w₁ w ∧ CursorBefore chain w.store j) (fun _ => ⟨hfrozen, hstore ▸ hbefore⟩) ?_
      intro acts w a w' _ ih hstep hall
      obtain ⟨hfrozen', hbefore'⟩ := ih fun b hb => hall b (List.mem_append_left _ hb)
      have ha := hall a (by simp)
      exact ⟨frozen_step hfrozen' hstep ha, cursorBefore_step hbefore' hstep ha.stepsBack⟩
    exact ⟨hkept.1, hkept.2, fun view hview hle => hkept.2.mem_listed htx hview hle⟩
  refine ⟨hharmless, fun hwaits hnext acts' w hafter => ?_⟩
  obtain ⟨p, hpj, hcursor⟩ := hbefore
  -- the step that meets the truncated log leaves the other calls
  have hwaits₂ : ∀ t ∈ w₂.tasks, chain.Waits w₁.store t := by
    have hsame : w₂.tasks ⊆ w₁.tasks := by
      cases hmet with
      | @answered before after t _ htasks hsig htx =>
        rw [processSignature_truncated hcut, htasks]
        intro t' ht'
        have hleft : t' ∈ before ++ [] ++ after := ht'
        rw [List.append_nil] at hleft
        rcases List.mem_append.1 hleft with hleft | hleft
        · exact List.mem_append_left _ hleft
        · exact List.mem_append_right _ (List.mem_cons_of_mem _ hleft)
    exact fun t ht => hwaits t (hsame ht)
  have hinv : Run (Step chain) w₂ acts' w ∧ (∀ a ∈ acts', chain.Harmless j a) ∧ w.store = w₁.store ∧
      ∀ t ∈ w.tasks, chain.Waits w₁.store t := by
    refine hafter.invariant (P := fun acts w => Run (Step chain) w₂ acts w ∧
      (∀ a ∈ acts, chain.Harmless j a) ∧ w.store = w₁.store ∧ ∀ t ∈ w.tasks, chain.Waits w₁.store t)
      ⟨.start, by simp, hstore, hwaits₂⟩ ?_
    rintro acts w a w' _ ⟨hrun', hall, hstore', hwaits'⟩ hstep
    obtain ⟨ha, hstore'', hwaits''⟩ := waits_step htx hcut hpj hcursor (hnext p hcursor) hstore' hwaits' hstep
    refine ⟨hrun'.snoc hstep.1, fun b hb => ?_, hstore'', hwaits''⟩
    rcases List.mem_append.1 hb with hb | hb
    · exact hall b hb
    · rwa [List.mem_singleton.1 hb]
  exact hharmless acts' w hinv.1 hinv.2.1

/-- `initialize`, a transaction without events, and a deposit whose log is cut. -/
def Sample.haltChain : Chain Kakure.Sample.env Sample.programText :=
  Sample.chainOf [Sample.tx "s0" 10 (Sample.log.take 1) (Sample.wholeLog (Sample.log.take 1)),
      Sample.tx "s1" 11 [] (Sample.wholeLog []), Sample.tx "s2" 12 (Sample.log.drop 1) Sample.cutLog]
    (by
      show ["s0", "s1", "s2"].Nodup
      decide)
    (by
      intro tx htx
      simp only [List.mem_cons, List.not_mem_nil, or_false] at htx
      rcases htx with rfl | rfl | rfl
      · exact Sample.sound_tx (fun ev => List.mem_of_mem_take) (.inl rfl)
      · exact Sample.sound_tx (fun ev hev => absurd hev List.not_mem_nil) (.inl rfl)
      · exact Sample.sound_tx (fun ev => List.mem_of_mem_drop) (.inr rfl))
    (by
      show Sample.log.take 1 ++ ([] ++ (Sample.log.drop 1 ++ [])) = Sample.log
      rw [List.append_nil, List.nil_append, List.take_append_drop])

/-- All three transactions of the chain are delivered; the calls of the first and of the cut one complete,
and then the one of the transaction between them: the cursor moves to it.  In a second run the first two
complete before the cut one, and a backfill after the halt meets it again. -/
theorem truncation_halt_sample : ∃ (tree : LeanIMT) (tx₀ tx₁ tx₂ : PoolTx),
    LeanIMT.new 32 = .ok tree ∧ Sample.haltChain.txs = [tx₀, tx₁, tx₂] ∧
    (∃ (w₁ w₂ w : World), Run (Step Sample.haltChain) (World.start IndexerStore.empty tree)
        [.confirm, .confirm, .confirm, .deliver tx₀, .deliver tx₁, .deliver tx₂, .answered tx₀] w₁ ∧
      Step Sample.haltChain w₁ (.answered tx₂) w₂ ∧ Run (Step Sample.haltChain) w₂ [.answered tx₁] w ∧
      Halted Sample.haltChain 2 tx₂ w₁ w ∧ w.store.getCursor.lastSignature = some tx₁.signature) ∧
    ∃ (w₁ w₂ w : World), Run (Step Sample.haltChain) (World.start IndexerStore.empty tree)
        [.confirm, .confirm, .confirm, .deliver tx₀, .deliver tx₁, .deliver tx₂, .answered tx₀,
          .answered tx₁] w₁ ∧
      Step Sample.haltChain w₁ (.answered tx₂) w₂ ∧
      Run (guarded Sample.haltChain (Relisted Sample.haltChain)) w₂
        [.backfill, .listed [tx₂.info], .answered tx₂] w ∧ Halted Sample.haltChain 2 tx₂ w₁ w := by
  obtain ⟨tree, htree⟩ : ∃ tree, LeanIMT.new 32 = .ok tree := ⟨_, rfl⟩
  have hcutLog : logsWereTruncated Sample.cutLog = true := by decide
  obtain ⟨tx₀, tx₁, tx₂, htxs, herr₀, ⟨herr₁, hlegible₁, hevents₁⟩, herr₂, hcut₂⟩ :
      ∃ tx₀ tx₁ tx₂, Sample.haltChain.txs = [tx₀, tx₁, tx₂] ∧ tx₀.err = false ∧
        (tx₁.err = false ∧ tx₁.Legible ∧ tx₁.events = []) ∧
        tx₂.err = false ∧ logsWereTruncated tx₂.logMessages = true :=
    ⟨_, _, _, rfl, rfl, ⟨rfl, Sample.legible_tx _ _ _, rfl⟩, rfl, hcutLog⟩
  have htruncated : tx₂.truncated = true := by simp [PoolTx.truncated, herr₂, hcut₂]
  have hwhole : tx₁.truncated = false := by simp [PoolTx.truncated, hlegible₁.1]
  have hnil : programDataLinesFor tx₁.logMessages Sample.programText = [] := by
    rw [(Sample.haltChain.sound tx₁ (by rw [htxs]; simp)).lines Sample.haltChain.program herr₁ hlegible₁,
      hevents₁, List.map_nil]
  have hget₂ : Sample.haltChain.txs[2]? = some tx₂ := by rw [htxs]; rfl
  have hold₀ : Sample.haltChain.Older 2 tx₀.signature := ⟨0, by norm_num, tx₀, by rw [htxs]; rfl, rfl⟩
  have hold₁ : Sample.haltChain.Older 2 tx₁.signature := ⟨1, by norm_num, tx₁, by rw [htxs]; rfl, rfl⟩
  have hstart : CursorBefore Sample.haltChain (World.start IndexerStore.empty tree).store 2 :=
    ⟨0, by norm_num, rfl⟩
  have hmem : ∀ {w : World}, w.confirmed = 3 → ∀ tx ∈ [tx₀, tx₁, tx₂],
      tx ∈ Sample.haltChain.txs.take w.confirmed := by
    intro w hw tx htx
    rwa [hw, htxs]
  obtain ⟨w₃, hrun₃, hconfirmed₃, htasks₃⟩ := run_threeDelivered htxs herr₀ herr₁ herr₂
    IndexerStore.empty tree
  obtain ⟨v₁, hstep₁, hv₁, hconfirmed₁, -⟩ := exists_answered_live [] htasks₃
    (hmem hconfirmed₃ tx₀ (by simp))
  refine ⟨tree, tx₀, tx₁, tx₂, htree, htxs, ?_, ?_⟩
  · -- the cut log is met while the call of the transaction before it is in flight
    obtain ⟨w₂, hmet, hw₂, hconfirmed₂, -⟩ := exists_answered_live [.live tx₁.info] hv₁
      (hmem (hconfirmed₁.trans hconfirmed₃) tx₂ (by simp))
    obtain ⟨w, hlast, -, -, hstore⟩ := exists_answered_live [] hw₂
      (hmem (hconfirmed₂.trans (hconfirmed₁.trans hconfirmed₃)) tx₁ (by simp))
    have hback : ∀ a ∈ [Act.confirm, .confirm, .confirm, .deliver tx₀, .deliver tx₁, .deliver tx₂,
        .answered tx₀], Sample.haltChain.StepsBack 2 a := by
      simp [Chain.StepsBack, hold₀]
    have hharmless : ∀ a ∈ [Act.answered tx₁], Sample.haltChain.Harmless 2 a := by
      simp [Chain.Harmless, hold₁, hnil]
    refine ⟨v₁, w₂, w, hrun₃.snoc hstep₁, hmet, Run.single hlast, ?_, ?_⟩
    · exact (truncation_halt hget₂ htruncated hstart (hrun₃.snoc hstep₁) hback hmet).1 _ _
        (Run.single hlast) hharmless
    · rw [hstore, processSignature_of_nil hwhole hnil]
      rfl
  · -- the transaction before the cut one is behind the cursor, and a backfill starts after the halt
    obtain ⟨v₂, hstep₂, hv₂, hconfirmed₂, hstore₂⟩ := exists_answered_live [] hv₁
      (hmem (hconfirmed₁.trans hconfirmed₃) tx₁ (by simp))
    have hconfirmed : v₂.confirmed = 3 := hconfirmed₂.trans (hconfirmed₁.trans hconfirmed₃)
    obtain ⟨w₂, hmet, hw₂, hconfirmed', hstore'⟩ := exists_answered_live [] hv₂
      (hmem hconfirmed tx₂ (by simp))
    rw [processSignature_truncated htruncated, IndexerStore.execAll_nil] at hstore'
    have hcursor : v₂.store.getCursor.lastSignature = some tx₁.signature := by
      rw [hstore₂, processSignature_of_nil hwhole hnil]
      rfl
    have hat : Sample.haltChain.CursorAt v₂.store.getCursor.lastSignature 2 := by
      rw [hcursor]
      exact ⟨1, tx₁, rfl, by rw [htxs]; rfl, rfl⟩
    have hback : ∀ a ∈ [Act.confirm, .confirm, .confirm, .deliver tx₀, .deliver tx₁, .deliver tx₂,
        .answered tx₀, .answered tx₁], Sample.haltChain.StepsBack 2 a := by
      simp [Chain.StepsBack, hold₀, hold₁]
    have hwaits : ∀ t ∈ v₂.tasks, Sample.haltChain.Waits v₂.store t := by
      intro t ht
      rw [hv₂, List.nil_append, List.mem_singleton] at ht
      rw [ht]
      exact Or.inr ⟨tx₂, List.mem_of_getElem? hget₂, htruncated, rfl⟩
    have hnext : ∀ p, Sample.haltChain.CursorAt v₂.store.getCursor.lastSignature p →
        successes ((Sample.haltChain.txs.take 2).drop p) = [] := by
      intro p hp
      rw [← Sample.haltChain.cursorAt_unique hat hp, List.drop_of_length_le (List.length_take_le _ _)]
      rfl
    -- the backfill after the halt
    have hlisting : guarded Sample.haltChain (Relisted Sample.haltChain) w₂ .backfill
        { w₂ with tasks := [.listing (some tx₁.signature)] } := by
      have htask : w₂.tasks ++ [.listing (backfillUntil w₂.store)] = [.listing (some tx₁.signature)] := by
        rw [hw₂, backfillUntil, hstore', hcursor]
        rfl
      have h := @Step.backfill _ _ Sample.haltChain w₂
      rw [htask] at h
      exact ⟨h, trivial⟩
    have hlist : Sample.haltChain.getSignaturesForAddress 3 (some tx₁.signature) = [tx₂.info] := by
      rw [Sample.haltChain.getSignaturesForAddress_of_cursorAt (hcursor ▸ hat) (by norm_num), htxs]
      rfl
    have hlisted : guarded Sample.haltChain (Relisted Sample.haltChain)
        { w₂ with tasks := [.listing (some tx₁.signature)] } (.listed [tx₂.info])
        { w₂ with tasks := [.fetching tx₂.info []] } := by
      have h := @Step.listed _ _ Sample.haltChain { w₂ with tasks := [.listing (some tx₁.signature)] } [] []
        (some tx₁.signature) 3 rfl (hconfirmed'.trans hconfirmed).ge (by
          intro s hs
          rw [htxs, ← Option.some_inj.1 hs]
          simp)
      have hqueue : backfillQueue [tx₂.info] = [tx₂.info] := by simp [backfillQueue, PoolTx.info, herr₂]
      rw [hlist, hqueue] at h
      refine ⟨h, fun p _ => ?_⟩
      show w₂.confirmed ≤ p + 1000
      omega
    have hqueue₂ : [Task.fetching tx₂.info []] = [] ++ .fetching tx₂.info [] :: [] := rfl
    have hagain : guarded Sample.haltChain (Relisted Sample.haltChain)
        { w₂ with tasks := [.fetching tx₂.info []] } (.answered tx₂) _ :=
      ⟨Step.answered hqueue₂ rfl (hmem (hconfirmed'.trans hconfirmed) tx₂ (by simp)), trivial⟩
    have hrest := ((Run.single hlisting).snoc hlisted).snoc hagain
    exact ⟨v₂, w₂, _, (hrun₃.snoc hstep₁).snoc hstep₂, hmet, hrest,
      (truncation_halt hget₂ htruncated hstart ((hrun₃.snoc hstep₁).snoc hstep₂) hback hmet).2 hwaits hnext
        _ _ hrest⟩

/-- The sample chain with the log of `initialize` cut and the deposit's call suspended: the tree
changes after the halt, and the cursor is past the truncated transaction. -/
theorem halt_ignored : ∃ (tree : LeanIMT) (tx₀ tx₁ : PoolTx) (acts : List Act) (w₁ w₂ w : World),
    LeanIMT.new 32 = .ok tree ∧ tx₀.truncated = true ∧
    Run (Step Sample.cutChain) (World.start IndexerStore.empty tree) acts w₁ ∧
    Step Sample.cutChain w₁ (.answered tx₀) w₂ ∧ Run (Step Sample.cutChain) w₂ [.answered tx₁] w ∧
    w₂.halted = some (tx₀.signature, tx₀.slot) ∧ w.tree.nextIndex ≠ w₂.tree.nextIndex ∧
    Sample.cutChain.txs[0]? = some tx₀ ∧ ¬ CursorBefore Sample.cutChain w.store 0 := by
  obtain ⟨tree, htree⟩ : ∃ tree, LeanIMT.new 32 = .ok tree := ⟨_, rfl⟩
  obtain ⟨ev₀, ev₁, hlog, -, hleaf₁, -⟩ := Sample.log_eq
  have hne₁ : (11 : Fr) ≠ 0 := by decide +kernel
  generalize (11 : Fr) = x₁ at *
  have hcutLog : logsWereTruncated Sample.cutLog = true := by decide
  obtain ⟨tx₀, tx₁, htxs, ⟨herr₀, hcut⟩, herr₁, hlegible₁, hevents₁⟩ :
      ∃ tx₀ tx₁, Sample.cutChain.txs = [tx₀, tx₁] ∧
        (tx₀.err = false ∧ logsWereTruncated tx₀.logMessages = true) ∧
        (tx₁.err = false ∧ tx₁.Legible ∧ tx₁.events = Sample.log.drop 1) :=
    ⟨_, _, rfl, ⟨rfl, hcutLog⟩, ⟨rfl, Sample.legible_tx _ _ _, rfl⟩⟩
  rw [hlog] at hevents₁
  have htruncated : tx₀.truncated = true := by simp [PoolTx.truncated, herr₀, hcut]
  have hsound : tx₁.Sound Sample.programText := Sample.cutChain.sound tx₁ (by rw [htxs]; simp)
  have hrun := run_twoDelivered (by rw [htxs]; rfl) (i := 0) (j := 1) (by rw [htxs]; rfl)
    (by rw [htxs]; rfl) (by decide) herr₀ herr₁ IndexerStore.empty tree
  obtain ⟨hfirst, hsecond⟩ := steps_answered (i := 0) (j := 1)
    (by rw [htxs]; simp : tx₀ ∈ Sample.cutChain.txs.take 2) (by rw [htxs]; simp : tx₁ ∈ _)
    IndexerStore.empty tree
  have hafter : (firstAnswered Sample.env Sample.programText IndexerStore.empty tree 0 1 tx₀ tx₁).tree = tree ∧
      (firstAnswered Sample.env Sample.programText IndexerStore.empty tree 0 1 tx₀ tx₁).halted =
        some (tx₀.signature, tx₀.slot) := by
    unfold firstAnswered
    rw [processSignature_truncated htruncated]
    exact ⟨rfl, rfl⟩
  obtain ⟨hnew, hdepth⟩ := holds_new Sample.env.poseidon 32 htree
  obtain ⟨hone, -, hcursor₁⟩ := processSignature_insert Sample.cutChain.program hsound herr₁ hlegible₁
    hevents₁ hleaf₁ (growsNonzero_hash3 _ sample_poseidon_ne_zero _).hashes
    (by simpa using hne₁ : ∀ y ∈ ([] : List Fr) ++ [x₁], y ≠ 0) (by norm_num) hnew hdepth
  refine ⟨tree, tx₀, tx₁, _, _, _, _, htree, htruncated, hrun, hfirst, Run.single hsecond, hafter.2,
    ?_, by rw [htxs]; rfl, ?_⟩
  · -- the deposit's leaf was appended
    have hcount : (bothAnswered Sample.env Sample.programText IndexerStore.empty tree 0 1 tx₀ tx₁).tree.nextIndex = 1 := by
      unfold bothAnswered
      rw [hafter.1]
      exact hone.nextIndex
    rw [hcount, hafter.1, hnew.nextIndex]
    exact Nat.one_ne_zero
  · rintro ⟨p, hp, hcursor⟩
    have hlast : (bothAnswered Sample.env Sample.programText IndexerStore.empty tree 0 1 tx₀
        tx₁).store.getCursor.lastSignature = some tx₁.signature := by
      unfold bothAnswered
      rw [hafter.1]
      exact hcursor₁ _
    rw [hlast] at hcursor
    obtain ⟨i, tx, hpi, -⟩ := hcursor
    omega

end Kakure.Indexer
