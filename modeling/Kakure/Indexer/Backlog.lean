import Kakure.Indexer.Interleaving

/-!
# Repeated backfills

Backfills that run one after the other, with the cursor between them.

* `backfill_complete` — from any store that mirrors the transactions up to its cursor:
  while the backlog fits into one answer and no fetched transaction is answered `null`,
  everything behind the cursor was applied, and a further backfill applies the rest;
* `appliedUpTo_restart` — the tree hydrated from such a store is its mirror again;
* `null_skipped` — a transaction that is answered `null` is behind the cursor and not
  applied.
-/

namespace Kakure.Indexer

open Slices Hex Runs LeanTree

variable {env : Env} {programId : List Char} {chain : Chain env programId}

/-- Backfills only, each after the end of the one before. -/
def Sequential (w : World) : Act → Prop
  | .backfill => w.tasks = []
  | .deliver _ => False
  | _ => True

/-- At most 1000 signatures are newer than the cursor when they are listed, and every transaction
fetched is answered, with a legible log. -/
def Served (chain : Chain env programId) (w : World) : Act → Prop
  | .listed _ => ∀ p, chain.CursorAt w.store.getCursor.lastSignature p → w.confirmed ≤ p + 1000
  | .answered tx => tx.Legible
  | .null _ => False
  | _ => True

/-- The steps of repeated backfills that are served. -/
def BackfillStep (chain : Chain env programId) : World → Act → World → Prop :=
  guarded chain fun w a => Sequential w a ∧ Served chain w a

/-- What is left to do for a backfill: nothing, the listing, or the successful transactions of some
view behind the first `p`. -/
inductive Remaining (chain : Chain env programId) (w : World) (p : ℕ) : Prop
  | done (h : w.tasks = [])
  | listing (h : w.tasks = [.listing (backfillUntil w.store)])
  | fetching {view : ℕ} {tx : PoolTx} {rest : List PoolTx} (hp : p ≤ view) (hview : view ≤ w.confirmed)
      (htasks : w.tasks = [.fetching tx.info (rest.map PoolTx.info)])
      (hrest : successes ((chain.txs.take view).drop p) = tx :: rest)

/-- The cursor stands behind the first `p` transactions, and store and tree are the mirror of the
successful ones among them. -/
structure AppliedUpTo (chain : Chain env programId) (w : World) (p : ℕ) : Prop where
  le : p ≤ w.confirmed
  cursor : chain.CursorAt w.store.getCursor.lastSignature p
  mirrors : Mirrors env.poseidon (successes (chain.txs.take p)) w.store w.tree

theorem successes_append (txs txs' : List PoolTx) :
    successes (txs ++ txs') = successes txs ++ successes txs' := List.filter_append _ _

/-- The next successful transaction of a view behind the first `p`. -/
theorem next_of_successes {view p : ℕ} {tx : PoolTx} {rest : List PoolTx}
    (h : successes ((chain.txs.take view).drop p) = tx :: rest) :
    ∃ i, p ≤ i ∧ i < view ∧ chain.txs[i]? = some tx ∧ tx.err = false ∧
      successes (chain.txs.take (i + 1)) = successes (chain.txs.take p) ++ [tx] ∧
      successes ((chain.txs.take view).drop (i + 1)) = rest := by
  obtain ⟨failed, more, hsplit, hfailed, herr, hmore⟩ := List.filter_eq_cons_iff.1 h
  have hget : ((chain.txs.take view).drop p)[failed.length]? = some tx := by
    rw [hsplit, List.getElem?_append_right le_rfl, Nat.sub_self, List.getElem?_cons_zero]
  rw [List.getElem?_drop] at hget
  obtain ⟨hlt, hget⟩ := getElem?_of_take hget
  refine ⟨p + failed.length, Nat.le_add_right _ _, hlt, hget, by simpa using herr, ?_, ?_⟩
  · have htake : chain.txs.take (p + failed.length + 1) = chain.txs.take p ++ (failed ++ [tx]) := by
      have hview : chain.txs.take (p + failed.length + 1) =
          (chain.txs.take view).take (p + (failed.length + 1)) := by
        rw [List.take_take, Nat.min_eq_left (by omega), Nat.add_assoc]
      have hp : (chain.txs.take view).take p = chain.txs.take p := by
        rw [List.take_take, Nat.min_eq_left (by omega)]
      rw [hview, List.take_add, hp, hsplit, List.append_cons]
      congr 1
      rw [List.take_left' (by simp)]
    have hnone : successes failed = [] := List.filter_eq_nil_iff.2 hfailed
    rw [htake, successes_append, successes_append, hnone, List.nil_append]
    congr 1
    exact List.filter_cons_of_pos herr
  · rw [Nat.add_assoc, ← List.drop_drop, hsplit, List.append_cons, List.drop_left' (by simp)]
    exact hmore

/-- The queue of a backfill as its next task. -/
theorem remaining_resume {w : World} {p view : ℕ} (hp : p ≤ view) (hview : view ≤ w.confirmed)
    (htasks : w.tasks = resume ((successes ((chain.txs.take view).drop p)).map PoolTx.info)) :
    Remaining chain w p := by
  cases hqueue : successes ((chain.txs.take view).drop p) with
  | nil =>
    rw [hqueue] at htasks
    exact .done htasks
  | cons tx rest =>
    rw [hqueue] at htasks
    exact .fetching hp hview htasks hqueue

/-- The transaction fetched is processed: one more is applied, and the backfill goes on. -/
theorem answered_fetching (hnodes : chain.NodesNonzero) (hgenesis : chain.GenesisCanonical)
    {w : World} {p view : ℕ} {tx : PoolTx} {rest : List PoolTx} (h : AppliedUpTo chain w p)
    (hview : view ≤ w.confirmed)
    (hrest : successes ((chain.txs.take view).drop p) = tx :: rest) (hlegible : tx.Legible) :
    ∃ q, p ≤ q ∧ q ≤ view ∧ successes ((chain.txs.take view).drop q) = rest ∧
      AppliedUpTo chain (w.finish [] [] (.fetching tx.info (rest.map PoolTx.info))
        (processSignature env.poseidon programId tx.signature tx.slot (some tx.raw) w.tree)) q ∧
      (w.finish [] [] (.fetching tx.info (rest.map PoolTx.info))
        (processSignature env.poseidon programId tx.signature tx.slot (some tx.raw) w.tree)).tasks =
          resume (rest.map PoolTx.info) := by
  obtain ⟨i, hpi, hiv, hget, herr, happlied, hleft⟩ := next_of_successes hrest
  have horder : successes (chain.txs.take p) ++ [tx] <+: successes chain.txs := by
    rw [← happlied]
    exact (List.take_prefix _ _).filter _
  obtain ⟨xs, hnum⟩ := chain.numbered_of_isPrefix hgenesis horder
  obtain ⟨tree', hrun, hmirrors⟩ := processSignature_of_mirrors chain.program
    (chain.sound tx (List.mem_of_getElem? hget)) herr hlegible
    (hnodes.of_prefix (chain.leafNumbers_of_isPrefix horder)) hnum h.mirrors
  rw [hrun]
  refine ⟨i + 1, by omega, hiv, hleft, ⟨?_, ?_, ?_⟩, ?_⟩
  · exact le_trans hiv hview
  · show chain.CursorAt (w.store.execAll (tx.statements ++ _)).getCursor.lastSignature (i + 1)
    rw [IndexerStore.execAll_append]
    exact ⟨i, tx, rfl, hget, rfl⟩
  · rw [happlied]
    exact hmirrors
  · show [] ++ resume (rest.map PoolTx.info) ++ [] = _
    rw [List.nil_append, List.append_nil]

/-- A view that knows the cursor's transaction reaches up to it. -/
theorem le_of_cursorAt {stop : Option String} {p view : ℕ} (h : chain.CursorAt stop p)
    (hstop : ∀ s, stop = some s → s ∈ (chain.txs.take view).map PoolTx.signature) : p ≤ view := by
  cases stop with
  | none =>
    obtain rfl : p = 0 := h
    exact Nat.zero_le _
  | some signature =>
    obtain ⟨tx, htx, hsig⟩ := List.mem_map.1 (hstop _ rfl)
    obtain ⟨k, hk⟩ := List.mem_iff_getElem?.1 htx
    obtain ⟨hkv, hk⟩ := getElem?_of_take hk
    rw [chain.cursorAt_unique h ⟨k, tx, rfl, hk, hsig⟩]
    exact hkv

/-- The only suspended call. -/
theorem eq_of_singleton_eq {before after : List Task} {t t' : Task} (h : [t] = before ++ t' :: after) :
    before = [] ∧ t = t' ∧ after = [] := by
  cases before with
  | nil => simpa using h
  | cons b before => simp at h

/-- One step of repeated backfills. -/
theorem appliedUpTo_step (hnodes : chain.NodesNonzero) (hgenesis : chain.GenesisCanonical)
    {w w' : World} {a : Act} {p : ℕ} (h : AppliedUpTo chain w p) (hleft : Remaining chain w p)
    (hstep : BackfillStep chain w a w') :
    ∃ q, p ≤ q ∧ AppliedUpTo chain w' q ∧ Remaining chain w' q := by
  obtain ⟨hstep, hseq, hserved⟩ := hstep
  cases hstep with
  | confirm hlt =>
    refine ⟨p, le_rfl, ⟨Nat.le_succ_of_le h.le, h.cursor, h.mirrors⟩, ?_⟩
    cases hleft with
    | done htasks => exact .done htasks
    | listing htasks => exact .listing htasks
    | fetching hp hview htasks hrest => exact .fetching hp (Nat.le_succ_of_le hview) htasks hrest
  | backfill =>
    refine ⟨p, le_rfl, ⟨h.le, h.cursor, h.mirrors⟩, .listing ?_⟩
    have hnil : w.tasks = [] := hseq
    simp [hnil]
  | @listed before after stop view htasks hview hstop =>
    refine ⟨p, le_rfl, ⟨h.le, h.cursor, h.mirrors⟩, ?_⟩
    cases hleft with
    | done hnil => simp [hnil] at htasks
    | listing hone =>
      rw [hone] at htasks
      obtain ⟨rfl, hstopeq, rfl⟩ := eq_of_singleton_eq htasks
      cases hstopeq
      have hpv : p ≤ view := le_of_cursorAt h.cursor hstop
      have hlen : ((chain.txs.take view).drop p).length ≤ 1000 := by
        have := hserved p h.cursor
        rw [List.length_drop, List.length_take]
        omega
      refine remaining_resume hpv hview ?_
      show [] ++ resume (backfillQueue (chain.getSignaturesForAddress view (backfillUntil w.store))) ++
        [] = _
      unfold backfillUntil
      rw [chain.backfillQueue_of_cursorAt h.cursor hpv hlen, List.nil_append, List.append_nil]
    | fetching hp hview' hone hrest =>
      rw [hone] at htasks
      obtain ⟨-, hfalse, -⟩ := eq_of_singleton_eq htasks
      cases hfalse
  | deliver _ _ _ _ => exact absurd hseq id
  | @answered before after t tx htasks hsig htx =>
    cases hleft with
    | done hnil => simp [hnil] at htasks
    | listing hone =>
      rw [hone] at htasks
      obtain ⟨-, rfl, -⟩ := eq_of_singleton_eq htasks
      cases hsig
    | @fetching view tx' rest hp hview hone hrest =>
      rw [hone] at htasks
      obtain ⟨rfl, rfl, rfl⟩ := eq_of_singleton_eq htasks
      obtain ⟨i, -, -, hget, -⟩ := next_of_successes hrest
      have heq : tx' = tx := by
        refine List.inj_on_of_nodup_map chain.nodup (List.mem_of_getElem? hget)
          (List.mem_of_mem_take htx) ?_
        exact congrArg SignatureInfo.signature (Option.some_inj.1 hsig)
      subst heq
      obtain ⟨q, hpq, hqv, hleft', happlied, htasks'⟩ :=
        answered_fetching hnodes hgenesis h hview hrest hserved
      refine ⟨q, hpq, happlied, remaining_resume hqv hview ?_⟩
      rw [htasks', hleft']
  | null _ _ => exact absurd hserved id
  | @failed before after t htasks =>
    refine ⟨p, le_rfl, ⟨h.le, h.cursor, h.mirrors⟩, .done ?_⟩
    cases hleft with
    | done hnil => simp [hnil] at htasks
    | listing hone =>
      rw [hone] at htasks
      obtain ⟨rfl, -, rfl⟩ := eq_of_singleton_eq htasks
      rfl
    | fetching _ _ hone _ =>
      rw [hone] at htasks
      obtain ⟨rfl, -, rfl⟩ := eq_of_singleton_eq htasks
      rfl

/-- A backfill whose transactions are all answered ends with the mirror of its view. -/
theorem exists_run_of_queue (hnodes : chain.NodesNonzero) (hgenesis : chain.GenesisCanonical)
    {view : ℕ} {rest : List PoolTx} (hlegible : ∀ tx ∈ rest, tx.Legible) {w : World} {p : ℕ}
    (h : AppliedUpTo chain w p) (hpv : p ≤ view) (hview : view ≤ w.confirmed)
    (hrest : successes ((chain.txs.take view).drop p) = rest)
    (htasks : w.tasks = resume (rest.map PoolTx.info)) :
    ∃ acts w', Run (BackfillStep chain) w acts w' ∧ w'.tasks = [] ∧ w'.confirmed = w.confirmed ∧
      Mirrors env.poseidon (successes (chain.txs.take view)) w'.store w'.tree := by
  induction rest generalizing w p with
  | nil =>
    refine ⟨[], w, Run.start, htasks, rfl, ?_⟩
    have hsame : successes (chain.txs.take view) = successes (chain.txs.take p) := by
      have hsplit : chain.txs.take view = chain.txs.take p ++ (chain.txs.take view).drop p := by
        have hp : chain.txs.take p = (chain.txs.take view).take p := by
          rw [List.take_take, Nat.min_eq_left hpv]
        rw [hp, List.take_append_drop]
      rw [hsplit, successes_append, hrest, List.append_nil]
    rw [hsame]
    exact h.mirrors
  | cons tx rest ih =>
    obtain ⟨i, -, hiv, hget, -⟩ := next_of_successes hrest
    have hmem : tx ∈ chain.txs.take w.confirmed := by
      apply List.mem_of_getElem? (i := i)
      rw [List.getElem?_take_of_lt (by omega), hget]
    have hstep : BackfillStep chain w (.answered tx)
        (w.finish [] [] (.fetching tx.info (rest.map PoolTx.info))
          (processSignature env.poseidon programId tx.signature tx.slot (some tx.raw) w.tree)) :=
      ⟨Step.answered htasks rfl hmem, trivial, hlegible tx List.mem_cons_self⟩
    obtain ⟨q, -, hqv, hleft, happlied, htasks'⟩ :=
      answered_fetching hnodes hgenesis h hview hrest (hlegible tx List.mem_cons_self)
    obtain ⟨acts, w', hrun, hdone, hconfirmed, hmirrors⟩ :=
      ih (fun tx' htx' => hlegible tx' (List.mem_cons_of_mem _ htx')) happlied hqv hview hleft htasks'
    exact ⟨_, w', (Run.single hstep).append hrun, hdone, hconfirmed, hmirrors⟩

/-- A fresh database mirrors the transactions up to its cursor, which are none. -/
theorem appliedUpTo_start {tree : LeanIMT} (htree : LeanIMT.new 32 = .ok tree) :
    AppliedUpTo chain (World.start IndexerStore.empty tree) 0 :=
  ⟨le_rfl, rfl, mirrors_new htree⟩

/-- The rows of numbered inserts are hydrated into the tree over their leaves. -/
theorem hydrateTree_eq {poseidon : Fr → Fr → Fr → Fr} {txs : List PoolTx} {xs : List Fr}
    {store : IndexerStore} (hdata : SameData store (mirrorStore txs))
    (hnum : Numbered poseidon (noteEvents (txs.flatMap PoolTx.events)) xs) (tree : LeanIMT) :
    hydrateTree poseidon store tree = tree.insertAll poseidon (leafNumbers (txs.flatMap PoolTx.events)) := by
  have hrows : store.getNotesFrom 0 = (slottedNotes txs).map fun p => noteRow p.1 p.2 := by
    rw [IndexerStore.getNotesFrom, hdata.notes, (holdsNotes_mirrorStore hnum).rows,
      List.filter_eq_self.2 fun _ _ => by simp]
  have hcanonical : ∀ p ∈ slottedNotes txs, Canonical p.2.leaf := by
    intro p hp
    have hmem : p.2.leaf ∈ (noteEvents (txs.flatMap PoolTx.events)).map NoteInserted.leaf := by
      rw [← slottedNotes_snd]
      exact List.mem_map_of_mem (List.mem_map_of_mem hp)
    rw [hnum.leaves] at hmem
    obtain ⟨x, -, hx⟩ := List.mem_map.1 hmem
    exact hx ▸ canonical_toBytes x
  rw [hydrateTree, hrows, leafNumbers, ← slottedNotes_snd]
  generalize slottedNotes txs = notes at hcanonical
  induction notes generalizing tree with
  | nil => rfl
  | cons p notes ih =>
    rw [List.map_cons, List.map_cons, List.map_cons, List.foldlM_cons, insertAll_cons]
    show ((fieldFromHex (toHex p.2.leaf.val)).bind _) >>= _ = _
    rw [fieldFromHex_of_canonical (hcanonical p List.mem_cons_self)]
    show Except.bind _ _ = _
    congr 1
    funext tree'
    exact ih tree' fun q hq => hcanonical q (List.mem_cons_of_mem _ hq)

/-- A process that starts again on the database of one that applied everything up to its cursor has
applied it, too. -/
theorem appliedUpTo_restart (hnodes : chain.NodesNonzero) (hgenesis : chain.GenesisCanonical) {w : World}
    {p : ℕ} (h : AppliedUpTo chain w p) {tree : LeanIMT} (htree : LeanIMT.new 32 = .ok tree) :
    ∃ tree', hydrateTree env.poseidon w.store tree = .ok tree' ∧
      AppliedUpTo chain { World.start w.store tree' with confirmed := w.confirmed } p := by
  have hprefix : successes (chain.txs.take p) <+: successes chain.txs := (List.take_prefix _ _).filter _
  obtain ⟨xs, hnum⟩ := chain.numbered_of_isPrefix hgenesis hprefix
  have hleaves : leafNumbers ((successes (chain.txs.take p)).flatMap PoolTx.events) = xs.map ZMod.val := by
    have := congrArg (List.map fun b : Bytes 32 => beNat b.val) hnum.leaves
    simpa [leafNumbers, Function.comp_def] using this
  obtain ⟨hnew, hdepth⟩ := holds_new env.poseidon 32 htree
  obtain ⟨tree', hrun, hholds, hdepth'⟩ := insertAll_of_holds env.poseidon hnew
    (leafNumbers ((successes (chain.txs.take p)).flatMap PoolTx.events))
    (hnodes.of_prefix (chain.leafNumbers_of_isPrefix hprefix))
    (by rw [hleaves]; exact val_ne_zero_of_mem hnum.nonzero)
    (by rw [hdepth, List.nil_append, hleaves, List.length_map]; exact hnum.capacity)
  refine ⟨tree', by rw [hydrateTree_eq h.mirrors.data hnum, hrun], h.le, h.cursor, h.mirrors.data, hholds, ?_⟩
  exact hdepth'.trans hdepth

/-- In every state that repeated, served backfills reach from a store and a tree that mirror the
successful transactions up to the cursor, they mirror exactly those up to the cursor again; and from
every such state between two backfills in which the backlog fits into one answer and every log is
legible, a further backfill ends with the mirror of all successful confirmed transactions. -/
theorem backfill_complete (hnodes : chain.NodesNonzero) (hgenesis : chain.GenesisCanonical)
    {w₀ : World} {p₀ : ℕ} (hstart : AppliedUpTo chain w₀ p₀) (hidle : w₀.tasks = [])
    {acts : List Act} {w : World} (hrun : Run (BackfillStep chain) w₀ acts w) :
    (∃ p, p ≤ w.confirmed ∧ chain.CursorAt w.store.getCursor.lastSignature p ∧
      Mirrors env.poseidon (successes (chain.txs.take p)) w.store w.tree) ∧
    (w.tasks = [] →
      (∀ p, chain.CursorAt w.store.getCursor.lastSignature p → w.confirmed ≤ p + 1000) →
      (∀ tx ∈ successes (chain.txs.take w.confirmed), tx.Legible) →
      ∃ acts' w', Run (BackfillStep chain) w acts' w' ∧ w'.tasks = [] ∧ w'.confirmed = w.confirmed ∧
        Mirrors env.poseidon (successes (chain.txs.take w.confirmed)) w'.store w'.tree) := by
  obtain ⟨p, h, -⟩ : ∃ p, AppliedUpTo chain w p ∧ Remaining chain w p := by
    refine hrun.invariant (P := fun _ w => ∃ p, AppliedUpTo chain w p ∧ Remaining chain w p) ?_ ?_
    · exact ⟨p₀, hstart, .done hidle⟩
    · rintro _ w a w' _ ⟨p, h, hleft⟩ hstep
      obtain ⟨q, -, happlied, hleft'⟩ := appliedUpTo_step hnodes hgenesis h hleft hstep
      exact ⟨q, happlied, hleft'⟩
  refine ⟨⟨p, h.le, h.cursor, h.mirrors⟩, fun hnil hbacklog hlegible => ?_⟩
  -- a backfill, its listing, and the answers
  have hstop : ∀ s, backfillUntil w.store = some s →
      s ∈ (chain.txs.take w.confirmed).map PoolTx.signature := by
    intro s hs
    have hcursor := h.cursor
    unfold backfillUntil at hs
    rw [hs] at hcursor
    obtain ⟨i, tx, rfl, hi, rfl⟩ := hcursor
    refine List.mem_map_of_mem (List.mem_of_getElem? (i := i) ?_)
    rw [List.getElem?_take_of_lt h.le, hi]
  have hlist : BackfillStep chain w .backfill
      { w with tasks := w.tasks ++ [.listing (backfillUntil w.store)] } := ⟨.backfill, hnil, trivial⟩
  have hlisted : BackfillStep chain { w with tasks := w.tasks ++ [.listing (backfillUntil w.store)] }
      (.listed (chain.getSignaturesForAddress w.confirmed (backfillUntil w.store)))
      { w with tasks := ([] ++ resume (backfillQueue
        (chain.getSignaturesForAddress w.confirmed (backfillUntil w.store))) ++ []) } := by
    have htask : w.tasks ++ [.listing (backfillUntil w.store)] =
        [] ++ .listing (backfillUntil w.store) :: [] := by rw [hnil]
    refine ⟨Step.listed htask le_rfl hstop, trivial, ?_⟩
    intro q hq
    exact hbacklog q hq
  have hlen : ((chain.txs.take w.confirmed).drop p).length ≤ 1000 := by
    have := hbacklog p h.cursor
    rw [List.length_drop, List.length_take]
    omega
  unfold backfillUntil at hlist hlisted
  rw [chain.backfillQueue_of_cursorAt h.cursor h.le hlen, List.nil_append, List.append_nil] at hlisted
  obtain ⟨acts', w', hrest, hdone, hconfirmed, hmirrors⟩ := exists_run_of_queue hnodes hgenesis
    (w := { w with tasks :=
      (resume ((successes ((chain.txs.take w.confirmed).drop p)).map PoolTx.info)) })
    (fun tx htx => hlegible tx (((List.drop_sublist _ _).filter _).subset htx))
    ⟨h.le, h.cursor, h.mirrors⟩ h.le le_rfl rfl rfl
  exact ⟨_, w', ((Run.single hlist).append (Run.single hlisted)).append hrest, hdone, hconfirmed, hmirrors⟩

/-- The sample chain, both transactions confirmed before the first backfill. -/
theorem backfill_complete_sample : ∃ (tree : LeanIMT) (w : World) (acts' : List Act) (w' : World),
    LeanIMT.new 32 = .ok tree ∧
    Run (BackfillStep Sample.wholeChain) (World.start IndexerStore.empty tree) [.confirm, .confirm] w ∧
    Run (BackfillStep Sample.wholeChain) w acts' w' ∧ w'.tasks = [] ∧ w'.confirmed = 2 ∧
    Mirrors Sample.env.poseidon (successes (Sample.wholeChain.txs.take 2)) w'.store w'.tree := by
  obtain ⟨tree, htree⟩ : ∃ tree, LeanIMT.new 32 = .ok tree := ⟨_, rfl⟩
  obtain ⟨tx₀, tx₁, htxs, hlegible₀, hlegible₁⟩ : ∃ tx₀ tx₁, Sample.wholeChain.txs = [tx₀, tx₁] ∧
      tx₀.Legible ∧ tx₁.Legible := ⟨_, _, rfl, Sample.legible_tx _ _ _, Sample.legible_tx _ _ _⟩
  have hlen : Sample.wholeChain.txs.length = 2 := by rw [htxs]; rfl
  have hconfirm : ∀ w : World, w.confirmed < 2 →
      BackfillStep Sample.wholeChain w .confirm { w with confirmed := w.confirmed + 1 } := by
    intro w hw
    exact ⟨Step.confirm (by rw [hlen]; exact hw), trivial, trivial⟩
  have hrun := (Run.single (hconfirm (World.start IndexerStore.empty tree) Nat.zero_lt_two)).snoc
    (hconfirm _ (show 0 + 1 < 2 from Nat.one_lt_two))
  obtain ⟨-, hnext⟩ := backfill_complete Sample.nodesNonzero Sample.genesisCanonical
    (appliedUpTo_start htree) rfl hrun
  obtain ⟨acts', w', hrest, hdone, hconfirmed, hmirrors⟩ := hnext rfl
    (fun p _ => show 2 ≤ p + 1000 by omega)
    (fun tx htx => by
      have hmem : tx ∈ Sample.wholeChain.txs := List.mem_of_mem_take (List.mem_filter.1 htx).1
      rw [htxs] at hmem
      rcases List.mem_cons.1 hmem with rfl | hmem
      · exact hlegible₀
      · rw [List.mem_singleton.1 hmem]
        exact hlegible₁)
  exact ⟨tree, _, acts', w', htree, hrun, hrest, hdone, hconfirmed, hmirrors⟩

/-- The sample chain, with `initialize` listed and then answered `null`: its insert was not applied,
the cursor is past it, and no later listing shows it. -/
theorem null_skipped : ∃ (tree : LeanIMT) (tx₀ : PoolTx) (acts : List Act) (w : World),
    LeanIMT.new 32 = .ok tree ∧
    Run (Step Sample.wholeChain) (World.start IndexerStore.empty tree) acts w ∧ w.tasks = [] ∧
    tx₀ ∈ successes (Sample.wholeChain.txs.take w.confirmed) ∧ (noteEvents tx₀.events).length = 1 ∧
    w.store.notes.rows = [] ∧ w.store.getCursor.lastSignature = some tx₀.signature ∧
    ∀ view, tx₀.info ∉ Sample.wholeChain.getSignaturesForAddress view (backfillUntil w.store) := by
  obtain ⟨tree, htree⟩ : ∃ tree, LeanIMT.new 32 = .ok tree := ⟨_, rfl⟩
  obtain ⟨ev₀, ev₁, hlog, -⟩ := Sample.log_eq
  obtain ⟨tx₀, tx₁, htxs, herr₀, hevents₀⟩ : ∃ tx₀ tx₁, Sample.wholeChain.txs = [tx₀, tx₁] ∧
      tx₀.err = false ∧ tx₀.events = Sample.log.take 1 := ⟨_, _, rfl, rfl, rfl⟩
  rw [hlog] at hevents₀
  have hone : successes (Sample.wholeChain.txs.take 1) = [tx₀] := by
    rw [htxs]
    simp [successes, herr₀]
  have hconfirm : Step Sample.wholeChain (World.start IndexerStore.empty tree) .confirm
      { World.start IndexerStore.empty tree with confirmed := 1 } :=
    Step.confirm (by rw [htxs]; exact Nat.zero_lt_two)
  have hbackfill : Step Sample.wholeChain { World.start IndexerStore.empty tree with confirmed := 1 }
      .backfill { World.start IndexerStore.empty tree with confirmed := 1, tasks := [.listing none] } :=
    Step.backfill
  have hlisted : Step Sample.wholeChain
      { World.start IndexerStore.empty tree with confirmed := 1, tasks := [.listing none] }
      (.listed (Sample.wholeChain.getSignaturesForAddress 1 none))
      { World.start IndexerStore.empty tree with confirmed := 1, tasks := ([] ++ resume
          (backfillQueue (Sample.wholeChain.getSignaturesForAddress 1 none)) ++ []) } :=
    Step.listed rfl le_rfl (fun s hs => by cases hs)
  have hqueue : backfillQueue (Sample.wholeChain.getSignaturesForAddress 1 none) = [tx₀.info] := by
    have hnone : Sample.wholeChain.CursorAt none 0 := rfl
    rw [Sample.wholeChain.backfillQueue_of_cursorAt hnone (Nat.zero_le 1), List.drop_zero, hone]
    · rfl
    · rw [htxs]
      simp
  rw [hqueue] at hlisted
  have hnull : Step Sample.wholeChain
      { World.start IndexerStore.empty tree with confirmed := 1, tasks := [.fetching tx₀.info []] } (.null tx₀.info)
      _ :=
    @Step.null _ _ Sample.wholeChain _ [] [] _ _ rfl rfl
  refine ⟨tree, tx₀, _, _, htree, (((Run.single hconfirm).snoc hbackfill).snoc hlisted).snoc hnull,
    rfl, ?_, ?_, rfl, rfl, fun view hmem => ?_⟩
  · rw [show World.confirmed _ = 1 from rfl, hone]
    exact List.mem_singleton_self tx₀
  · rw [hevents₀]
    rfl
  · -- the cursor is at the only transaction with this signature
    have hcursor : Sample.wholeChain.CursorAt (some tx₀.signature) 1 := ⟨0, tx₀, rfl, by rw [htxs]; rfl, rfl⟩
    change tx₀.info ∈ Sample.wholeChain.getSignaturesForAddress view (some tx₀.signature) at hmem
    rcases Nat.eq_zero_or_pos view with rfl | hpos
    · simp [Chain.getSignaturesForAddress] at hmem
    · rw [Sample.wholeChain.getSignaturesForAddress_of_cursorAt hcursor hpos] at hmem
      obtain ⟨tx, htx, hinfo⟩ := List.mem_map.1 (List.mem_of_mem_take hmem)
      have hlate : tx ∈ Sample.wholeChain.txs.drop 1 := by
        have hdrop := (List.take_sublist view Sample.wholeChain.txs).drop 1
        exact hdrop.subset (List.mem_reverse.1 htx)
      have hnodup := Sample.wholeChain.nodup
      rw [htxs] at hlate hnodup
      obtain rfl : tx = tx₁ := by simpa using hlate
      have hsame : tx.signature = tx₀.signature := congrArg SignatureInfo.signature hinfo
      simp [hsame] at hnodup

end Kakure.Indexer
