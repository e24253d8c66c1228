import Kakure.Indexer.Chain
import Kakure.Lib.Runs

/-!
# One process of the indexer

A running indexer between its awaits: the store, the mirror, and the calls suspended at an
RPC.  Backfills may start at any time (at start-up and through `/sync`), logs are delivered
in any order, and any suspended call may be the next to continue.

* `Step`, `guarded` — what one step does, and steps that meet a condition;
* `caught_of_run` — where the calls complete once each and in chain order, store and tree
  mirror the transactions completed.
-/

namespace Kakure.Indexer

open Slices Hex Runs LeanTree

variable {env : Env} {programId : List Char}

/-! ## The RPC -/

/-- `getSignaturesForAddress`, with the first `view` transactions confirmed: newest first, down to
`stop`, and at most 1000. -/
def Chain.getSignaturesForAddress (chain : Chain env programId) (view : ℕ) (stop : Option String) :
    List SignatureInfo :=
  (((chain.txs.take view).reverse.map PoolTx.info).takeWhile
    fun sig => some sig.signature ≠ stop).take 1000

/-- A cursor stands behind the first `p` transactions. -/
def Chain.CursorAt (chain : Chain env programId) : Option String → ℕ → Prop
  | none, p => p = 0
  | some signature, p => ∃ i tx, p = i + 1 ∧ chain.txs[i]? = some tx ∧ tx.signature = signature

/-- A cursor stands at one place. -/
theorem Chain.cursorAt_unique (chain : Chain env programId) {stop : Option String} {p q : ℕ}
    (hp : chain.CursorAt stop p) (hq : chain.CursorAt stop q) : p = q := by
  cases stop with
  | none => exact Eq.trans hp (Eq.symm hq)
  | some signature =>
    obtain ⟨i, tx, rfl, hi, hsig⟩ := hp
    obtain ⟨k, tx', rfl, hk, hsig'⟩ := hq
    obtain rfl : tx = tx' := List.inj_on_of_nodup_map chain.nodup (List.mem_of_getElem? hi)
      (List.mem_of_getElem? hk) (hsig.trans hsig'.symm)
    -- a chain has a transaction once
    have hnodup : chain.txs.Nodup := chain.nodup.of_map _
    obtain ⟨hilt, higet⟩ := List.getElem?_eq_some_iff.1 hi
    obtain ⟨hklt, hkget⟩ := List.getElem?_eq_some_iff.1 hk
    have hik : i = k := hnodup.getElem_inj_iff.1 (higet.trans hkget.symm)
    rw [hik]

/-- The answer is cut at 1000 from the transactions behind the cursor. -/
theorem Chain.getSignaturesForAddress_of_cursorAt (chain : Chain env programId) {stop : Option String}
    {p view : ℕ} (h : chain.CursorAt stop p) (hview : p ≤ view) :
    chain.getSignaturesForAddress view stop =
      (((chain.txs.take view).drop p).reverse.map PoolTx.info).take 1000 := by
  unfold Chain.getSignaturesForAddress
  congr 1
  cases stop with
  | none =>
    obtain rfl : p = 0 := h
    rw [List.drop_zero, List.takeWhile_eq_self_iff]
    simp
  | some signature =>
    obtain ⟨i, tx, rfl, htx, rfl⟩ := h
    have hsplit : chain.txs.take view =
        chain.txs.take i ++ tx :: (chain.txs.take view).drop (i + 1) := by
      obtain ⟨hlt, hget⟩ := List.getElem?_eq_some_iff.1 htx
      have hcons := List.cons_getElem_drop_succ (l := chain.txs.take view) (n := i)
        (h := by rw [List.length_take]; omega)
      rw [List.getElem_take, hget] at hcons
      rw [hcons]
      have htake : chain.txs.take i = (chain.txs.take view).take i := by
        rw [List.take_take, Nat.min_eq_left (by omega)]
      rw [htake, List.take_append_drop]
    -- no other transaction has the signature
    have hnew : ∀ sig ∈ (((chain.txs.take view).drop (i + 1)).reverse.map PoolTx.info),
        some sig.signature ≠ some tx.signature := by
      intro sig hsig heq
      obtain ⟨tx', htx', rfl⟩ := List.mem_map.1 hsig
      have hnodup := (chain.nodup.sublist ((List.take_sublist view chain.txs).map _))
      rw [hsplit, List.map_append, List.map_cons] at hnodup
      have hcons := (List.nodup_append.1 hnodup).2.1
      rw [List.nodup_cons] at hcons
      apply hcons.1
      rw [← Option.some_inj.1 heq]
      exact List.mem_map_of_mem (List.mem_reverse.1 htx')
    have hreverse : (chain.txs.take view).reverse.map PoolTx.info =
        ((chain.txs.take view).drop (i + 1)).reverse.map PoolTx.info ++
          tx.info :: (chain.txs.take i).reverse.map PoolTx.info := by
      conv_lhs => rw [hsplit]
      simp
    rw [hreverse, List.takeWhile_append_of_pos (by simpa using hnew), List.takeWhile_cons_of_neg]
    · rw [List.append_nil]
    · simp [PoolTx.info]

/-- With at most 1000 transactions behind the cursor, a backfill processes all that succeeded. -/
theorem Chain.backfillQueue_of_cursorAt (chain : Chain env programId) {stop : Option String}
    {p view : ℕ} (h : chain.CursorAt stop p) (hview : p ≤ view)
    (hle : ((chain.txs.take view).drop p).length ≤ 1000) :
    backfillQueue (chain.getSignaturesForAddress view stop) =
      (successes ((chain.txs.take view).drop p)).map PoolTx.info := by
  rw [chain.getSignaturesForAddress_of_cursorAt h hview, List.take_of_length_le (by simpa using hle)]
  unfold backfillQueue successes
  rw [List.map_reverse, List.reverse_reverse, List.filter_map]
  rfl

/-! ## Processes -/

/-- A suspended call. -/
inductive Task where
  /-- `backfill`, at `getSignaturesForAddress`. -/
  | listing (stop : Option String)
  /-- `backfill`, at the `getTransaction` of a signature, with the signatures left. -/
  | fetching (sig : SignatureInfo) (rest : List SignatureInfo)
  /-- A live `processSignature`, at its `getTransaction`. -/
  | live (sig : SignatureInfo)

/-- The signature a call waits for. -/
def Task.sig? : Task → Option SignatureInfo
  | .listing _ => none
  | .fetching sig _ => some sig
  | .live sig => some sig

def Task.isLive : Task → Bool
  | .live _ => true
  | _ => false

/-- The loop of `backfill`, up to the next `getTransaction`. -/
def resume : List SignatureInfo → List Task
  | [] => []
  | sig :: rest => [.fetching sig rest]

/-- What is left of a call that did not throw. -/
def Task.next : Task → List Task
  | .fetching _ rest => resume rest
  | _ => []

structure World where
  /-- The number of confirmed transactions. -/
  confirmed : ℕ
  store : IndexerStore
  tree : LeanIMT
  /-- The signature and slot of `_halted`. -/
  halted : Option (String × ℕ)
  subscribed : Bool
  /-- The transactions `onLogs` has delivered. -/
  delivered : List ℕ
  tasks : List Task

/-- A process on a database, before its first await; the subscription is attached. -/
def World.start (store : IndexerStore) (tree : LeanIMT) : World where
  confirmed := 0
  store := store
  tree := tree
  halted := none
  subscribed := true
  delivered := []
  tasks := []

/-- `_halted` after a stretch. -/
def haltedAfter (halted : Option (String × ℕ)) : Option IngestError → Option (String × ℕ)
  | some (.logTruncation signature slot) => some (signature, slot)
  | _ => halted

/-- Whether a stretch ended with `LogTruncationError`. -/
def isTruncation : Option IngestError → Bool
  | some (.logTruncation _ _) => true
  | _ => false

/-- The process after a call ran to its next await; a live call that meets a truncated log takes the
subscription down. -/
def World.finish (w : World) (before after : List Task) (t : Task) (o : Outcome) : World :=
  { w with
    store := w.store.execAll o.statements
    tree := o.tree
    halted := haltedAfter w.halted o.error
    subscribed := w.subscribed && !(t.isLive && isTruncation o.error)
    tasks := before ++ (if o.error.isSome then [] else t.next) ++ after }

inductive Act where
  | confirm
  | backfill
  | listed (sigs : List SignatureInfo)
  | deliver (tx : PoolTx)
  | answered (tx : PoolTx)
  | null (sig : SignatureInfo)
  | failed

/-- One step of the process or of the chain. -/
inductive Step (chain : Chain env programId) : World → Act → World → Prop
  | confirm {w : World} (h : w.confirmed < chain.txs.length) :
    Step chain w .confirm { w with confirmed := w.confirmed + 1 }
  | backfill {w : World} :
    Step chain w .backfill { w with tasks := w.tasks ++ [.listing (backfillUntil w.store)] }
  | listed {w : World} {before after : List Task} {stop : Option String} {view : ℕ}
      (htasks : w.tasks = before ++ .listing stop :: after) (hview : view ≤ w.confirmed)
      (hstop : ∀ s, stop = some s → s ∈ (chain.txs.take view).map PoolTx.signature) :
    Step chain w (.listed (chain.getSignaturesForAddress view stop))
      { w with tasks :=
          before ++ resume (backfillQueue (chain.getSignaturesForAddress view stop)) ++ after }
  | deliver {w : World} {i : ℕ} {tx : PoolTx} (hsub : w.subscribed = true) (hi : i < w.confirmed)
      (htx : chain.txs[i]? = some tx) (hnew : i ∉ w.delivered) :
    Step chain w (.deliver tx)
      { w with
        delivered := i :: w.delivered
        tasks := w.tasks ++ if tx.err then [] else [.live tx.info] }
  | answered {w : World} {before after : List Task} {t : Task} {tx : PoolTx}
      (htasks : w.tasks = before ++ t :: after) (hsig : t.sig? = some tx.info)
      (htx : tx ∈ chain.txs.take w.confirmed) :
    Step chain w (.answered tx) (w.finish before after t
      (processSignature env.poseidon programId tx.signature tx.slot (some tx.raw) w.tree))
  | null {w : World} {before after : List Task} {t : Task} {sig : SignatureInfo}
      (htasks : w.tasks = before ++ t :: after) (hsig : t.sig? = some sig) :
    Step chain w (.null sig) (w.finish before after t
      (processSignature env.poseidon programId sig.signature sig.slot none w.tree))
  | failed {w : World} {before after : List Task} {t : Task} (htasks : w.tasks = before ++ t :: after) :
    Step chain w .failed { w with tasks := before ++ after }

/-- The steps that meet a condition on the state before them. -/
def guarded (chain : Chain env programId) (cond : World → Act → Prop) (w : World) (a : Act)
    (w' : World) : Prop := Step chain w a w' ∧ cond w a

/-! ## What a run did -/

/-- The transactions whose calls completed, in the order of completion. -/
def completed (acts : List Act) : List PoolTx :=
  acts.filterMap fun
    | .answered tx => some tx
    | _ => none

/-- The signatures that were handed to a call. -/
def handed (acts : List Act) : List String :=
  acts.flatMap fun
    | .deliver tx => if tx.err then [] else [tx.signature]
    | .listed sigs => (backfillQueue sigs).map SignatureInfo.signature
    | _ => []

/-- The signatures the suspended calls still have to process. -/
def pending (tasks : List Task) : List String :=
  tasks.flatMap fun
    | .listing _ => []
    | .fetching sig rest => sig.signature :: rest.map SignatureInfo.signature
    | .live sig => [sig.signature]

theorem completed_append (acts : List Act) (a : Act) :
    completed (acts ++ [a]) = completed acts ++ completed [a] := List.filterMap_append

theorem handed_append (acts : List Act) (a : Act) :
    handed (acts ++ [a]) = handed acts ++ handed [a] := List.flatMap_append

theorem pending_append (tasks tasks' : List Task) :
    pending (tasks ++ tasks') = pending tasks ++ pending tasks' := List.flatMap_append

theorem pending_resume (queue : List SignatureInfo) :
    pending (resume queue) = queue.map SignatureInfo.signature := by
  cases queue with
  | nil => rfl
  | cons sig rest => simp [resume, pending]

/-- A call that completes leaves the rest of its signatures. -/
theorem mem_pending_next {t : Task} {sig : SignatureInfo} (h : t.sig? = some sig) {s : String}
    (hs : s ∈ pending [t]) : s = sig.signature ∨ s ∈ pending t.next := by
  cases t with
  | listing stop => cases h
  | fetching sig' rest =>
    cases h
    rw [Task.next, pending_resume]
    simpa [pending] using hs
  | live sig' =>
    cases h
    left
    simpa [pending] using hs

/-! ## Completions in chain order -/

/-- The calls of the successful transactions complete once each and in chain order: every answer is
the transaction, its log is legible, and no call is lost. -/
structure InOrder (chain : Chain env programId) (acts : List Act) : Prop where
  order : completed acts <+: successes chain.txs
  legible : ∀ tx ∈ completed acts, tx.Legible
  answered : ∀ a ∈ acts, a ≠ .failed ∧ ∀ sig, a ≠ .null sig

theorem InOrder.of_append {chain : Chain env programId} {acts : List Act} {a : Act}
    (h : InOrder chain (acts ++ [a])) : InOrder chain acts := by
  have hsplit := completed_append acts a
  refine ⟨?_, fun tx htx => ?_, fun b hb => ?_⟩
  · exact List.IsPrefix.trans (by rw [hsplit]; exact List.prefix_append _ _) h.order
  · apply h.legible
    rw [hsplit]
    exact List.mem_append_left _ htx
  · apply h.answered
    exact List.mem_append_left _ hb

/-- What holds while the calls complete in order: store and tree are the mirror of the transactions
whose calls completed, and every other signature handed to a call is waited for. -/
structure Caught (chain : Chain env programId) (acts : List Act) (w : World) : Prop where
  mirrors : Mirrors env.poseidon (completed acts) w.store w.tree
  confirmed : ∀ tx ∈ completed acts, tx ∈ chain.txs.take w.confirmed
  covered : ∀ s ∈ handed acts, s ∈ (completed acts).map PoolTx.signature ∨ s ∈ pending w.tasks

/-- A step that completes no call keeps the mirror, if it loses no task. -/
theorem Caught.of_completed_nil {chain : Chain env programId} {acts : List Act} {a : Act}
    {w w' : World} (h : Caught chain acts w) (hnil : completed [a] = []) (hstore : w'.store = w.store)
    (htree : w'.tree = w.tree) (hconfirmed : w.confirmed ≤ w'.confirmed)
    (hpending : ∀ s, s ∈ pending w.tasks → s ∈ pending w'.tasks)
    (hnew : ∀ s ∈ handed [a], s ∈ pending w'.tasks) : Caught chain (acts ++ [a]) w' := by
  have hcompleted : completed (acts ++ [a]) = completed acts := by
    rw [completed_append, hnil, List.append_nil]
  constructor
  · rw [hcompleted, hstore, htree]
    exact h.mirrors
  · intro tx htx
    rw [hcompleted] at htx
    exact (List.take_prefix_take_left hconfirmed).subset (h.confirmed tx htx)
  · intro s hs
    rw [hcompleted]
    rw [handed_append, List.mem_append] at hs
    rcases hs with hs | hs
    · exact (h.covered s hs).imp_right (hpending s)
    · exact Or.inr (hnew s hs)

/-- One step of a run whose calls complete in order. -/
theorem caught_step {chain : Chain env programId} (hnodes : chain.NodesNonzero)
    (hgenesis : chain.GenesisCanonical) {acts : List Act} {a : Act} {w w' : World}
    (h : Caught chain acts w) (hstep : Step chain w a w') (hin : InOrder chain (acts ++ [a])) :
    Caught chain (acts ++ [a]) w' := by
  have hlast := hin.answered a (by simp)
  cases hstep with
  | confirm hlt => exact h.of_completed_nil rfl rfl rfl (Nat.le_succ _) (fun s hs => hs) (by simp [handed])
  | backfill =>
    refine h.of_completed_nil rfl rfl rfl le_rfl (fun s hs => ?_) (by simp [handed])
    rw [pending_append]
    exact List.mem_append_left _ hs
  | @listed before after stop view htasks hview hstop =>
    refine h.of_completed_nil rfl rfl rfl le_rfl (fun s hs => ?_) (fun s hs => ?_)
    · rw [htasks, List.append_cons, pending_append, pending_append] at hs
      simp only [pending_append, List.mem_append] at hs ⊢
      rcases hs with (hs | hs) | hs
      · exact Or.inl (Or.inl hs)
      · simp [pending] at hs
      · exact Or.inr hs
    · simp only [pending_append, List.mem_append, pending_resume]
      have hhanded : handed [.listed (chain.getSignaturesForAddress view stop)] =
          (backfillQueue (chain.getSignaturesForAddress view stop)).map SignatureInfo.signature := by
        simp [handed]
      rw [hhanded] at hs
      exact Or.inl (Or.inr hs)
  | @deliver i tx hsub hi htx hnew =>
    refine h.of_completed_nil rfl rfl rfl le_rfl (fun s hs => ?_) (fun s hs => ?_)
    · rw [pending_append]
      exact List.mem_append_left _ hs
    · rw [pending_append, List.mem_append]
      right
      cases herr : tx.err with
      | true => simp [handed, herr] at hs
      | false => simpa [handed, pending, herr, PoolTx.info] using hs
  | @answered before after t tx htasks hsig htx =>
    have hcompleted : completed (acts ++ [.answered tx]) = completed acts ++ [tx] :=
      completed_append acts _
    have horder := hin.order
    have hlegible := hin.legible tx (by rw [hcompleted]; simp)
    rw [hcompleted] at horder
    obtain ⟨hmem, herr⟩ : tx ∈ chain.txs ∧ tx.err = false := by
      have := horder.subset (List.mem_append_right _ (List.mem_singleton_self tx))
      simpa [successes] using this
    obtain ⟨xs, hnum⟩ := chain.numbered_of_isPrefix hgenesis horder
    obtain ⟨tree', hrun, hmirrors⟩ := processSignature_of_mirrors chain.program (chain.sound tx hmem)
      herr hlegible (hnodes.of_prefix (chain.leafNumbers_of_isPrefix horder)) hnum h.mirrors
    rw [hrun]
    refine ⟨?_, ?_, ?_⟩
    · rw [hcompleted]
      exact hmirrors
    · intro tx' htx'
      rw [hcompleted, List.mem_append, List.mem_singleton] at htx'
      rcases htx' with htx' | rfl
      · exact h.confirmed tx' htx'
      · exact htx
    · -- the call leaves its own signature and goes on with the rest
      intro s hs
      have hold : s ∈ handed acts := by
        rw [handed_append, List.mem_append] at hs
        simpa [handed] using hs
      rw [hcompleted, List.map_append, List.mem_append]
      show _ ∨ s ∈ pending (before ++ t.next ++ after)
      rcases h.covered s hold with hdone | hwait
      · exact Or.inl (Or.inl hdone)
      · rw [htasks, List.append_cons, pending_append, pending_append] at hwait
        simp only [pending_append, List.mem_append] at hwait ⊢
        rcases hwait with (hwait | hwait) | hwait
        · exact Or.inr (Or.inl (Or.inl hwait))
        · rcases mem_pending_next hsig hwait with rfl | hnext
          · exact Or.inl (Or.inr (by simp [PoolTx.info]))
          · exact Or.inr (Or.inl (Or.inr hnext))
        · exact Or.inr (Or.inr hwait)
  | null htasks hsig => exact absurd rfl (hlast.2 _)
  | failed htasks => exact absurd rfl hlast.1

/-- A run whose calls complete in order. -/
theorem caught_of_run {chain : Chain env programId} (hnodes : chain.NodesNonzero)
    (hgenesis : chain.GenesisCanonical) {tree : LeanIMT} (htree : LeanIMT.new 32 = .ok tree)
    {acts : List Act} {w : World}
    (hrun : Run (Step chain) (World.start IndexerStore.empty tree) acts w)
    (hin : InOrder chain acts) : Caught chain acts w := by
  revert hin
  refine hrun.invariant (P := fun acts w => InOrder chain acts → Caught chain acts w) ?_ ?_
  · intro _
    exact ⟨mirrors_new htree, by simp [completed], by simp [handed]⟩
  · intro acts w a w' _ ih hstep hin
    exact caught_step hnodes hgenesis (ih hin.of_append) hstep hin

/-! ## Two live calls -/

/-- A process after two transactions were confirmed and delivered. -/
def twoDelivered (store : IndexerStore) (tree : LeanIMT) (i j : ℕ) (first second : PoolTx) : World where
  confirmed := 2
  store := store
  tree := tree
  halted := none
  subscribed := true
  delivered := [j, i]
  tasks := [.live first.info, .live second.info]

/-- Two transactions are delivered in either order. -/
theorem run_twoDelivered {chain : Chain env programId} (hlen : chain.txs.length = 2) {i j : ℕ}
    {first second : PoolTx} (hi : chain.txs[i]? = some first) (hj : chain.txs[j]? = some second)
    (hij : i ≠ j) (hfirst : first.err = false) (hsecond : second.err = false) (store : IndexerStore)
    (tree : LeanIMT) : Run (Step chain) (World.start store tree)
      [.confirm, .confirm, .deliver first, .deliver second] (twoDelivered store tree i j first second) := by
  have hilt : i < 2 := hlen ▸ (List.getElem?_eq_some_iff.1 hi).1
  have hjlt : j < 2 := hlen ▸ (List.getElem?_eq_some_iff.1 hj).1
  have h₁ : Step chain (World.start store tree) .confirm
      { World.start store tree with confirmed := 1 } := by
    apply Step.confirm
    rw [hlen]
    exact Nat.zero_lt_two
  have h₂ : Step chain { World.start store tree with confirmed := 1 } .confirm
      { World.start store tree with confirmed := 2 } := by
    apply Step.confirm
    rw [hlen]
    exact Nat.one_lt_two
  have h₃ : Step chain { World.start store tree with confirmed := 2 } (.deliver first)
      { World.start store tree with
        confirmed := 2, delivered := [i], tasks := [] ++ if first.err then [] else [.live first.info] } :=
    Step.deliver rfl hilt hi (by simp [World.start])
  rw [if_neg (by simp [hfirst]), List.nil_append] at h₃
  have h₄ : Step chain
      { World.start store tree with confirmed := 2, delivered := [i], tasks := [.live first.info] }
      (.deliver second)
      { World.start store tree with
        confirmed := 2, delivered := [j, i],
        tasks := [.live first.info] ++ if second.err then [] else [.live second.info] } :=
    Step.deliver rfl hjlt hj (by simpa using hij.symm)
  rw [if_neg (by simp [hsecond])] at h₄
  exact (((Run.start.snoc h₁).snoc h₂).snoc h₃).snoc h₄

/-- A live call leaves nothing behind. -/
theorem tasks_finish_live (w : World) (before after : List Task) (sig : SignatureInfo) (o : Outcome) :
    (w.finish before after (.live sig) o).tasks = before ++ after := by
  unfold World.finish Task.next
  simp

/-- A live call in flight may complete. -/
theorem exists_answered_live {chain : Chain env programId} {w : World} (before : List Task)
    {after : List Task} {tx : PoolTx} (htasks : w.tasks = before ++ .live tx.info :: after)
    (htx : tx ∈ chain.txs.take w.confirmed) :
    ∃ w', Step chain w (.answered tx) w' ∧ w'.tasks = before ++ after ∧ w'.confirmed = w.confirmed ∧
      w'.store = w.store.execAll
        (processSignature env.poseidon programId tx.signature tx.slot (some tx.raw) w.tree).statements :=
  ⟨_, Step.answered htasks rfl htx, tasks_finish_live _ _ _ _ _, rfl, rfl⟩

/-- Three transactions are confirmed and delivered in order. -/
theorem run_threeDelivered {chain : Chain env programId} {tx₀ tx₁ tx₂ : PoolTx}
    (htxs : chain.txs = [tx₀, tx₁, tx₂]) (herr₀ : tx₀.err = false) (herr₁ : tx₁.err = false)
    (herr₂ : tx₂.err = false) (store : IndexerStore) (tree : LeanIMT) :
    ∃ w, Run (Step chain) (World.start store tree)
        [.confirm, .confirm, .confirm, .deliver tx₀, .deliver tx₁, .deliver tx₂] w ∧
      w.confirmed = 3 ∧ w.tasks = [.live tx₀.info, .live tx₁.info, .live tx₂.info] := by
  have hlen : chain.txs.length = 3 := by rw [htxs]; rfl
  have hconfirm : ∀ w : World, w.confirmed < 3 →
      Step chain w .confirm { w with confirmed := w.confirmed + 1 } :=
    fun w hw => Step.confirm (by rwa [hlen])
  have hdeliver : ∀ (w : World) (i : ℕ) (tx : PoolTx), w.subscribed = true → i < w.confirmed →
      chain.txs[i]? = some tx → i ∉ w.delivered → tx.err = false → Step chain w (.deliver tx)
        { w with delivered := i :: w.delivered, tasks := w.tasks ++ [.live tx.info] } := by
    intro w i tx hsub hi htx hnew herr
    have h := Step.deliver hsub hi htx hnew
    rwa [if_neg (by simp [herr])] at h
  have hrun := ((Run.single (hconfirm (World.start store tree) (by norm_num [World.start]))).snoc
    (hconfirm _ (by norm_num [World.start]))).snoc (hconfirm _ (by norm_num [World.start]))
  have hrun' := ((hrun.snoc (hdeliver _ 0 tx₀ rfl (by norm_num [World.start]) (by rw [htxs]; rfl)
    (by simp [World.start]) herr₀)).snoc (hdeliver _ 1 tx₁ rfl (by norm_num [World.start])
    (by rw [htxs]; rfl) (by simp [World.start]) herr₁)).snoc (hdeliver _ 2 tx₂ rfl
    (by norm_num [World.start]) (by rw [htxs]; rfl) (by simp [World.start]) herr₂)
  exact ⟨_, hrun', rfl, rfl⟩

/-- The process after the first call of two completed. -/
def firstAnswered (env : Env) (programId : List Char) (store : IndexerStore) (tree : LeanIMT) (i j : ℕ)
    (first second : PoolTx) : World :=
  (twoDelivered store tree i j first second).finish [] [.live second.info] (.live first.info)
    (processSignature env.poseidon programId first.signature first.slot (some first.raw) tree)

/-- The process after both calls completed. -/
def bothAnswered (env : Env) (programId : List Char) (store : IndexerStore) (tree : LeanIMT) (i j : ℕ)
    (first second : PoolTx) : World :=
  (firstAnswered env programId store tree i j first second).finish [] [] (.live second.info)
    (processSignature env.poseidon programId second.signature second.slot (some second.raw)
      (firstAnswered env programId store tree i j first second).tree)

/-- The two calls complete in the order of their delivery. -/
theorem steps_answered {chain : Chain env programId} {i j : ℕ} {first second : PoolTx}
    (hfirst : first ∈ chain.txs.take 2) (hsecond : second ∈ chain.txs.take 2) (store : IndexerStore)
    (tree : LeanIMT) :
    Step chain (twoDelivered store tree i j first second) (.answered first)
        (firstAnswered env programId store tree i j first second) ∧
      Step chain (firstAnswered env programId store tree i j first second) (.answered second)
        (bothAnswered env programId store tree i j first second) := by
  constructor
  · exact Step.answered rfl rfl hfirst
  · refine Step.answered ?_ rfl hsecond
    exact tasks_finish_live _ _ _ _ _

end Kakure.Indexer
