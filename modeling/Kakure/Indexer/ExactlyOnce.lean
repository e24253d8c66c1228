import Kakure.Indexer.Interleaving

/-!
# The mirror against the pool

Store, roots and tree of an indexer whose calls have all completed, against the pool
account after the confirmed transactions.

* `exactly_once` — they agree in every run whose calls complete once each and in chain
  order, up to 257 inserts;
* `mirror_swapped` — two live calls that complete in the other order swap the leaves.
-/

namespace Kakure.Indexer

open Slices Hex Runs LeanTree

variable {env : Env} {programId : List Char}

/-- A store and a tree agree with the pool account after these transactions: every leaf is in the tree
once, at its event's index; the note rows are those of the inserts; the ring of roots is the pool's. -/
structure Agrees (store : IndexerStore) (tree : LeanIMT) (txs : List PoolTx) (pool : Pool) : Prop where
  count : tree.nextIndex = pool.nextLeafIndex
  leaves : ∀ ev ∈ noteEvents (txs.flatMap PoolTx.events),
    tree.levels 0 ev.leafIndex = some (beNat ev.leaf.val)
  root : ∀ ev, (noteEvents (txs.flatMap PoolTx.events)).getLast? = some ev →
    tree.root = beNat ev.root.val
  notes : store.notes.rows = (slottedNotes txs).map fun p => noteRow p.1 p.2
  ring : ∀ j : UInt8, ((store.listRoots.find? fun r => r.cursor = j.toNat).map RootRow.root).getD
    (toHex (Bytes.zero 32).val) = toHex (pool.rootAt j).val

/-- Every call has completed, and every successful confirmed transaction was handed to one. -/
structure Settled (chain : Chain env programId) (acts : List Act) (w : World) : Prop where
  tasks : w.tasks = []
  handed : ∀ tx ∈ successes (chain.txs.take w.confirmed), tx.signature ∈ handed acts

/-- A mirror of transactions with numbered inserts agrees with the pool, up to 257 inserts. -/
theorem Mirrors.agrees {poseidon : Fr → Fr → Fr → Fr} {txs : List PoolTx} {xs : List Fr}
    {store : IndexerStore} {tree : LeanIMT} (h : Mirrors poseidon txs store tree)
    (hnum : Numbered poseidon (noteEvents (txs.flatMap PoolTx.events)) xs) {pool : Pool}
    (hpool : History poseidon pool (noteEvents (txs.flatMap PoolTx.events)))
    (hcount : (noteEvents (txs.flatMap PoolTx.events)).length ≤ 257) : Agrees store tree txs pool := by
  have hvals : leafNumbers (txs.flatMap PoolTx.events) = xs.map ZMod.val := by
    have := congrArg (List.map fun b : Bytes 32 => beNat b.val) hnum.leaves
    simpa [leafNumbers, Function.comp_def] using this
  have hnotes := holdsNotes_mirrorStore hnum
  constructor
  · rw [h.holds.nextIndex, hpool.nextLeafIndex, leafNumbers, List.length_map]
  · intro ev hev
    obtain ⟨k, hk⟩ := List.mem_iff_getElem?.1 hev
    rw [h.holds.levels 0 (Nat.zero_le _), levelList_zero, hnum.index k ev hk, leafNumbers,
      List.getElem?_map, hk]
    rfl
  · intro ev hlast
    rw [List.getLast?_eq_getElem?] at hlast
    have hroot := hnum.root _ ev hlast
    rw [List.take_of_length_le (by rw [hnum.length]; omega)] at hroot
    rw [h.holds.root, hvals, indexer_root, hroot, beNat_toBytes]
  · rw [h.data.notes, hnotes.rows]
  · intro j
    have hpushes : ((slottedNotes txs).map rootPush).map RootPush.root =
        (noteEvents (txs.flatMap PoolTx.events)).map NoteInserted.root := by
      rw [← slottedNotes_snd, List.map_map, List.map_map]
      rfl
    have hlen : ((slottedNotes txs).map rootPush).length ≤ 257 := by
      have := congrArg List.length (slottedNotes_snd txs)
      rw [List.length_map] at this
      rw [List.length_map, this]
      exact hcount
    have hring := (describesRing_of_le hlen).slot j
    have hshows := shows_pushPool ((slottedNotes txs).map rootPush)
    rw [hpushes] at hshows
    rw [rootAt_eq_of_shows hshows hpool.shows j] at hring
    unfold IndexerStore.listRoots at hring ⊢
    rw [h.data.roots, hnotes.roots]
    exact hring

/-- Two prefixes of a list without repetitions that have the same members are the same. -/
theorem eq_of_isPrefix_of_mem_iff {α : Type} {l p q : List α} (hl : l.Nodup) (hp : p <+: l) (hq : q <+: l)
    (h : ∀ a, a ∈ p ↔ a ∈ q) : p = q := by
  have hple := (List.subperm_of_subset (hl.sublist hp.sublist) fun a ha => (h a).1 ha).length_le
  have hqle := (List.subperm_of_subset (hl.sublist hq.sublist) fun a ha => (h a).2 ha).length_le
  exact (List.prefix_of_prefix_length_le hp hq hple).eq_of_length (le_antisymm hple hqle)

/-- Where all calls have completed in chain order, they were those of the confirmed transactions. -/
theorem Caught.completed_eq {chain : Chain env programId} {acts : List Act} {w : World}
    (h : Caught chain acts w) (hin : InOrder chain acts) (hsettled : Settled chain acts w) :
    completed acts = successes (chain.txs.take w.confirmed) := by
  have hnodup : chain.txs.Nodup := chain.nodup.of_map _
  refine eq_of_isPrefix_of_mem_iff (hnodup.filter _) hin.order ?_ fun tx => ?_
  · exact (List.take_prefix _ _).filter _
  constructor
  · intro htx
    refine List.mem_filter.2 ⟨h.confirmed tx htx, ?_⟩
    exact (List.mem_filter.1 (hin.order.subset htx)).2
  · intro htx
    have hmem : tx ∈ chain.txs := List.mem_of_mem_take (List.mem_filter.1 htx).1
    rcases h.covered _ (hsettled.handed tx htx) with hdone | hwait
    · obtain ⟨tx', htx', hsig⟩ := List.mem_map.1 hdone
      have hmem' : tx' ∈ chain.txs := List.mem_of_mem_take (h.confirmed tx' htx')
      rwa [← List.inj_on_of_nodup_map chain.nodup hmem' hmem hsig]
    · rw [hsettled.tasks] at hwait
      simp [pending] at hwait

/-- In every run of a process on a fresh database whose calls complete once each and in chain order:
once all calls have completed, store and tree agree with the pool after the confirmed
transactions, if the genesis leaf is a field element, no node of the tree is zero and there are at
most 257 inserts. -/
theorem exactly_once {chain : Chain env programId} (hnodes : chain.NodesNonzero)
    (hgenesis : chain.GenesisCanonical) {tree : LeanIMT} (htree : LeanIMT.new 32 = .ok tree)
    {acts : List Act} {w : World}
    (hrun : Run (Step chain) (World.start IndexerStore.empty tree) acts w) (hin : InOrder chain acts)
    (hcount : (noteEvents ((chain.txs.take w.confirmed).flatMap PoolTx.events)).length ≤ 257)
    (hsettled : Settled chain acts w) {pool : Pool}
    (hpool : History env.poseidon pool
      (noteEvents ((chain.txs.take w.confirmed).flatMap PoolTx.events))) :
    Agrees w.store w.tree (chain.txs.take w.confirmed) pool := by
  have hcaught := caught_of_run hnodes hgenesis htree hrun hin
  have hdone := hcaught.completed_eq hin hsettled
  have hsound : ∀ tx ∈ chain.txs.take w.confirmed, tx.Sound programId :=
    fun tx htx => chain.sound tx (List.mem_of_mem_take htx)
  have hevents : (successes (chain.txs.take w.confirmed)).flatMap PoolTx.events =
      (chain.txs.take w.confirmed).flatMap PoolTx.events := flatMap_successes hsound fun _ h => h
  have hslotted : slottedNotes (successes (chain.txs.take w.confirmed)) =
      slottedNotes (chain.txs.take w.confirmed) := by
    refine flatMap_successes hsound fun tx h => ?_
    rw [h]
    rfl
  obtain ⟨xs, hnum⟩ := chain.numbered_of_isPrefix hgenesis hin.order
  have hmirrors := hcaught.mirrors
  rw [hdone] at hnum hmirrors
  rw [← hevents] at hpool hcount
  have hagrees := hmirrors.agrees hnum hpool hcount
  refine ⟨hagrees.count, ?_, ?_, ?_, hagrees.ring⟩
  · rw [← hevents]
    exact hagrees.leaves
  · rw [← hevents]
    exact hagrees.root
  · rw [hagrees.notes, hslotted]

/-- The sample chain, both transactions delivered live and answered in order. -/
theorem exactly_once_sample : ∃ (tree : LeanIMT) (acts : List Act) (w : World) (pool : Pool),
    Run (Step Sample.wholeChain) (World.start IndexerStore.empty tree) acts w ∧
    Settled Sample.wholeChain acts w ∧ w.confirmed = 2 ∧
    Agrees w.store w.tree (Sample.wholeChain.txs.take w.confirmed) pool := by
  obtain ⟨tree, htree⟩ : ∃ tree, LeanIMT.new 32 = .ok tree := ⟨_, rfl⟩
  obtain ⟨pool, hpool⟩ := Sample.wholeChain.history_take 2
  obtain ⟨tx₀, tx₁, htxs, h₀, h₁⟩ : ∃ tx₀ tx₁, Sample.wholeChain.txs = [tx₀, tx₁] ∧
      (tx₀.err = false ∧ tx₀.Legible) ∧ (tx₁.err = false ∧ tx₁.Legible) :=
    ⟨_, _, rfl, ⟨rfl, Sample.legible_tx _ _ _⟩, ⟨rfl, Sample.legible_tx _ _ _⟩⟩
  have hrun := run_twoDelivered (by rw [htxs]; rfl) (i := 0) (j := 1) (by rw [htxs]; rfl)
    (by rw [htxs]; rfl) (by decide) h₀.1 h₁.1 IndexerStore.empty tree
  obtain ⟨hfirst, hsecond⟩ := steps_answered (i := 0) (j := 1)
    (by rw [htxs]; simp : tx₀ ∈ Sample.wholeChain.txs.take 2) (by rw [htxs]; simp : tx₁ ∈ _)
    IndexerStore.empty tree
  have hsuccesses : successes Sample.wholeChain.txs = [tx₀, tx₁] := by
    rw [htxs]
    simp [successes, h₀.1, h₁.1]
  have hin : InOrder Sample.wholeChain
      ([.confirm, .confirm, .deliver tx₀, .deliver tx₁] ++ [.answered tx₀] ++ [.answered tx₁]) := by
    refine ⟨?_, ?_, ?_⟩
    · rw [hsuccesses]
      exact List.prefix_refl _
    · simp [completed, h₀.2, h₁.2]
    · simp
  have hsettled : Settled Sample.wholeChain
      ([.confirm, .confirm, .deliver tx₀, .deliver tx₁] ++ [.answered tx₀] ++ [.answered tx₁])
      (bothAnswered Sample.env Sample.programText IndexerStore.empty tree 0 1 tx₀ tx₁) := by
    refine ⟨tasks_finish_live _ _ _ _ _, ?_⟩
    show ∀ tx ∈ successes (Sample.wholeChain.txs.take 2), _
    rw [List.take_of_length_le (by rw [htxs]; rfl), hsuccesses]
    simp [handed, h₀.1, h₁.1]
  have hcount : (noteEvents ((Sample.wholeChain.txs.take 2).flatMap PoolTx.events)).length ≤ 257 := by
    obtain ⟨ev₀, ev₁, hlog, -⟩ := Sample.log_eq
    rw [List.take_of_length_le (by rw [htxs]; rfl)]
    show (noteEvents Sample.wholeChain.log).length ≤ 257
    rw [Sample.log_wholeChain, hlog]
    simp [noteEvents]
  have hwhole := (hrun.snoc hfirst).snoc hsecond
  exact ⟨tree, _, _, pool, hwhole, hsettled, rfl,
    exactly_once Sample.nodesNonzero Sample.genesisCanonical htree hwhole hin hcount hsettled hpool⟩

/-- The calls of two live transactions complete in the other order: the tree has the second leaf at
index 0. -/
theorem mirror_swapped : ∃ (tree : LeanIMT) (acts : List Act) (w : World) (pool : Pool),
    LeanIMT.new 32 = .ok tree ∧
    Run (Step Sample.wholeChain) (World.start IndexerStore.empty tree) acts w ∧
    Settled Sample.wholeChain acts w ∧
    History Sample.env.poseidon pool
      (noteEvents ((Sample.wholeChain.txs.take w.confirmed).flatMap PoolTx.events)) ∧
    ¬ Agrees w.store w.tree (Sample.wholeChain.txs.take w.confirmed) pool := by
  obtain ⟨tree, htree⟩ : ∃ tree, LeanIMT.new 32 = .ok tree := ⟨_, rfl⟩
  obtain ⟨pool, hpool⟩ := Sample.wholeChain.history_take 2
  obtain ⟨ev₀, ev₁, hlog, hleaf₀, hleaf₁, hindex₀, -⟩ := Sample.log_eq
  obtain ⟨hne₀, hne₁, hne⟩ : (9 : Fr) ≠ 0 ∧ (11 : Fr) ≠ 0 ∧ (11 : Fr).val ≠ (9 : Fr).val := by
    decide +kernel
  generalize (9 : Fr) = x₀ at *
  generalize (11 : Fr) = x₁ at *
  obtain ⟨tx₀, tx₁, htxs, ⟨herr₀, hlegible₀, hevents₀⟩, herr₁, hlegible₁, hevents₁⟩ :
      ∃ tx₀ tx₁, Sample.wholeChain.txs = [tx₀, tx₁] ∧
        (tx₀.err = false ∧ tx₀.Legible ∧ tx₀.events = Sample.log.take 1) ∧
        (tx₁.err = false ∧ tx₁.Legible ∧ tx₁.events = Sample.log.drop 1) :=
    ⟨_, _, rfl, ⟨rfl, Sample.legible_tx _ _ _, rfl⟩, ⟨rfl, Sample.legible_tx _ _ _, rfl⟩⟩
  rw [hlog] at hevents₀ hevents₁
  have hsound : ∀ tx ∈ [tx₀, tx₁], tx.Sound Sample.programText := by
    rw [← htxs]
    exact Sample.wholeChain.sound
  have hrun := run_twoDelivered (by rw [htxs]; rfl) (i := 1) (j := 0) (by rw [htxs]; rfl)
    (by rw [htxs]; rfl) (by decide) herr₁ herr₀ IndexerStore.empty tree
  obtain ⟨hfirst, hsecond⟩ := steps_answered (i := 1) (j := 0)
    (by rw [htxs]; simp : tx₁ ∈ Sample.wholeChain.txs.take 2) (by rw [htxs]; simp : tx₀ ∈ _)
    IndexerStore.empty tree
  refine ⟨tree, _, _, pool, htree, (hrun.snoc hfirst).snoc hsecond, ?_, hpool, ?_⟩
  · refine ⟨tasks_finish_live _ _ _ _ _, ?_⟩
    show ∀ tx ∈ successes (Sample.wholeChain.txs.take 2), _
    rw [List.take_of_length_le (by rw [htxs]; rfl), htxs]
    simp [successes, handed, herr₀, herr₁]
  · intro hagrees
    obtain ⟨hnew, hdepth⟩ := holds_new Sample.env.poseidon 32 htree
    have hpos : ∀ leaves, LeanTree.HashesNonzero (hash3 Sample.env.poseidon) 0 leaves :=
      fun leaves => (growsNonzero_hash3 _ sample_poseidon_ne_zero leaves).hashes
    obtain ⟨hone, hdepth₁, -⟩ := processSignature_insert Sample.wholeChain.program (hsound tx₁ (by simp))
      herr₁ hlegible₁ hevents₁ hleaf₁ (hpos _)
      (by simpa using hne₁ : ∀ y ∈ ([] : List Fr) ++ [x₁], y ≠ 0) (by norm_num) hnew hdepth
    obtain ⟨htwo, -⟩ := processSignature_insert Sample.wholeChain.program (hsound tx₀ (by simp)) herr₀
      hlegible₀ hevents₀ hleaf₀ (hpos _) (by simp [hne₀, hne₁]) (by norm_num) hone hdepth₁
    have hat := hagrees.leaves ev₀ (by
      show ev₀ ∈ noteEvents ((Sample.wholeChain.txs.take 2).flatMap PoolTx.events)
      rw [List.take_of_length_le (by rw [htxs]; rfl), htxs]
      simp [noteEvents, hevents₀])
    rw [hindex₀, hleaf₀, beNat_toBytes] at hat
    have hzero := htwo.levels 0 (Nat.zero_le _) 0
    rw [levelList_zero] at hzero
    have hhead : (bothAnswered Sample.env Sample.programText IndexerStore.empty tree 1 0 tx₁ tx₀).tree.levels 0 0 =
        some x₁.val := hzero
    rw [hhead] at hat
    exact hne (Option.some_inj.1 hat)

end Kakure.Indexer
