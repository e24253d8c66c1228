import Kakure.Pool.Admin

/-!
# The tree and the ring in every reachable state

What the invariant of the runs says about the tree fields of the pool account.

* `root_ring` — the cursor, the slots, what `resolve_root` returns or refuses, and what
  the client's search finds;
* `insert_live_iff` — an insert with room for it succeeds exactly where the genesis leaf
  was canonical;
* `insert_stuck` — a pool that a successful `initialize` has left unusable.
-/

namespace Kakure

open Slices Guarded Runs

variable {env : Env} {call : Call}

/-- The pool account of a reachable state has the log's inserts as its history. -/
theorem history_of_run {m₀ m : Machine} {ls : List Label} {pool : Pool} (hfresh : Fresh env m₀)
    (hrun : Run (Step env) m₀ ls m) (hpool : PoolAt env m pool) :
    History env.poseidon pool (noteEvents m.log) := by
  obtain ⟨key, hkey, hown, hdata⟩ := hpool
  have hkept : Kept env Set.univ (SeenOwner env m₀ ls) m :=
    run_kept hfresh hrun fun _ _ => Set.subset_univ _
  exact hkept.history hkey hown hdata.symm

/-- A run that has initialized the pool leaves its history in the log. -/
theorem exists_history_of_run {m₀ m : Machine} {ls : List Label} (hfresh : Fresh env m₀)
    (hrun : Run (Step env) m₀ ls m) (hinit : ∃ l ∈ ls, l.isInitialize = true) :
    ∃ pool, History env.poseidon pool (noteEvents m.log) := by
  obtain ⟨l, hl, hinit⟩ := hinit
  rcases run_initialize hrun with ⟨pool, hpool⟩ | hnone
  · exact ⟨pool, history_of_run hfresh hrun hpool⟩
  · rw [hnone l hl] at hinit
    cases hinit

/-! ## The root ring -/

theorem resolveRoot_of_ne {pool : Pool} {i : UInt8} {root : Bytes 32} (hroot : pool.rootAt i = root)
    (hne : root ≠ Bytes.zero 32) (m : Machine) : resolveRoot pool i m = .ok (root, m) :=
  resolveRoot_eq_ok.2 ⟨hroot, hne, rfl⟩

theorem resolveRoot_of_eq_zero {pool : Pool} {i : UInt8} (hroot : pool.rootAt i = Bytes.zero 32)
    (m : Machine) : resolveRoot pool i m = .error PoolError.staleRoot.into := by
  unfold resolveRoot
  exact bind_of_error (require_of_not (not_not.2 hroot) _ _)

/-- In every reachable state, `n` inserts after the start: the cursor is `n` modulo 256; the slot of
an insert shows its root until 256 more inserts are made, and `resolve_root` returns it there, unless
it is the zero word, which the program reads as an empty slot; a slot not reached yet is zero and
refused; and the client's search in the decoded account returns the slot of the latest insert with a
root, if the ring still shows it, and nothing otherwise. -/
theorem root_ring {m₀ m : Machine} {ls : List Label} {pool : Pool} (hfresh : Fresh env m₀)
    (hrun : Run (Step env) m₀ ls m) (hpool : PoolAt env m pool) :
    let inserts := noteEvents m.log
    pool.rootCursor.toNat = inserts.length % 256 ∧
    (∀ k ev, inserts[k]? = some ev → Ring.IsLatest 256 inserts.length k →
      pool.rootAt (UInt8.ofNat k) = ev.root ∧
      (ev.root ≠ Bytes.zero 32 → ∀ s, resolveRoot pool (UInt8.ofNat k) s = .ok (ev.root, s))) ∧
    (∀ j : UInt8, inserts.length ≤ j.toNat → pool.rootAt j = Bytes.zero 32 ∧
      ∀ s, resolveRoot pool j s = .error PoolError.staleRoot.into) ∧
    ∃ a, Sdk.decodePool pool.data = .ok a ∧ ∀ root : Bytes 32, root ≠ Bytes.zero 32 →
      (∀ idx, Sdk.rootIndexFor a root.val = .ok (some idx) ↔
        ∃ k, inserts[k]?.map NoteInserted.root = some root ∧
          (∀ k', k < k' → inserts[k']?.map NoteInserted.root ≠ some root) ∧
          inserts.length ≤ k + 256 ∧ idx = k % 256) ∧
      (Sdk.rootIndexFor a root.val = .ok none ↔ ∀ idx, pool.rootAt idx ≠ root) := by
  intro inserts
  have hhistory : History env.poseidon pool inserts := history_of_run hfresh hrun hpool
  have hshows := hhistory.shows
  have hlen : (inserts.map NoteInserted.root).length = inserts.length := List.length_map _
  refine ⟨?_, fun k ev hk hlatest => ?_, fun j hj => ?_, ?_⟩
  · rw [hshows.cursor, hlen]
    rfl
  · have hroot : pool.rootAt (UInt8.ofNat k) = ev.root := by
      apply rootAt_of_shows hshows
      · rw [List.getElem?_map, hk]
        rfl
      · rw [hlen]
        exact ((Ring.isLatest_iff (by decide)).1 hlatest).2
    exact ⟨hroot, resolveRoot_of_ne hroot⟩
  · have hzero : pool.rootAt j = Bytes.zero 32 := rootAt_of_length_le hshows (by rwa [hlen])
    exact ⟨hzero, resolveRoot_of_eq_zero hzero⟩
  · obtain ⟨a, ha, -, -, -, -, -, -, -, -, -, -, hcursor, -, hroots⟩ := Sdk.decodePool_data pool
    refine ⟨a, ha, fun root hroot => ⟨fun idx => ?_, ?_⟩⟩
    · rw [Sdk.rootIndexFor_eq_some_iff hshows hcursor hroots hroot, hlen]
      simp only [List.getElem?_map]
    · exact Sdk.rootIndexFor_eq_none_iff hshows hcursor hroots hroot

theorem sample_poseidon_ne_zero (l r k : Fr) : Sample.env.poseidon l r k ≠ 0 := by
  unfold Sample.env
  dsimp only
  split
  · exact one_ne_zero
  · assumption

/-- A sample run that starts with `initialize` ends with a pool account. -/
theorem poolAt_sample {genesisLeaf : Bytes 32} {calls : List (Call × PoolInstruction)} {m : Machine}
    (hrun : Run (Step Sample.env) Sample.machine
      ((Sample.initializePool genesisLeaf :: calls).map fun c => .success c.1 c.2) m) :
    ∃ pool, PoolAt Sample.env m pool := by
  rcases run_initialize hrun with hpool | hnone
  · exact hpool
  · exact absurd (hnone _ (List.mem_map_of_mem List.mem_cons_self)) (by simp [Sample.initializePool,
      Label.isInitialize])

/-- The sample deployment after `initialize` and a deposit: the second root is in slot 1. -/
theorem root_ring_sample : ∃ m pool, Run (Step Sample.env) Sample.machine
      ([Sample.initializePool (beBytes 32 9), Sample.deposit].map fun c => .success c.1 c.2) m ∧
    PoolAt Sample.env m pool ∧ pool.rootCursor.toNat = 2 ∧
    ∀ s, resolveRoot pool 1 s = .ok (beBytes 32 31, s) := by
  have hexec : (execAll Sample.env [Sample.initializePool (beBytes 32 9), Sample.deposit]
      Sample.machine).map (fun m => (noteEvents m.log).map NoteInserted.root) =
      some [beBytes 32 9, beBytes 32 31] := by decide +kernel
  obtain ⟨m, hm, hroots⟩ := Option.map_eq_some_iff.1 hexec
  have hrun := run_of_execAll (by simp [Sample.initializePool, Sample.deposit, Sample.admissible]) hm
  obtain ⟨pool, hpool⟩ := poolAt_sample hrun
  obtain ⟨hcursor, hslot, -⟩ := root_ring Sample.fresh hrun hpool
  have hlen : (noteEvents m.log).length = 2 := by simpa using congrArg List.length hroots
  have hsecond : ∃ ev, (noteEvents m.log)[1]? = some ev ∧ ev.root = beBytes 32 31 := by
    rw [← Option.map_eq_some_iff, ← List.getElem?_map, hroots]
    rfl
  obtain ⟨ev, hev, hroot⟩ := hsecond
  refine ⟨m, pool, hrun, hpool, by rw [hcursor, hlen], fun s => ?_⟩
  have hlatest : Ring.IsLatest 256 (noteEvents m.log).length 1 :=
    (Ring.isLatest_iff (by decide)).2 (by rw [hlen]; decide)
  have hne : ev.root ≠ Bytes.zero 32 := by
    rw [hroot]
    decide
  rw [← hroot]
  exact (hslot 1 ev hev hlatest).2 hne s

/-! ## Liveness of the insert -/

/-- Every step appends to the inserts of the log. -/
theorem Effect.notes {ix : PoolInstruction} {m m' : Machine} (h : Effect env call ix m m') :
    noteEvents m.log <+: noteEvents m'.log := by
  cases h with
  | initialized h =>
    obtain ⟨root, hlog, -⟩ := h.history
    rw [hlog, noteEvents_append]
    exact List.prefix_append _ _
  | administered _ _ hlog =>
    rw [hlog, noteEvents_append]
    exact List.prefix_append _ _
  | deposited _ _ _ _ _ _ _ _ hexecuted hregistered _ hlog _ =>
    obtain ⟨evs, -, -, hnotes⟩ := hexecuted.inserted
    rw [hlog, hregistered.log, hnotes]
    exact List.prefix_append _ _
  | spent _ _ _ _ hexecuted _ hlog _ =>
    obtain ⟨evs, -, -, hnotes⟩ := hexecuted.inserted
    rw [hlog, hnotes]
    exact List.prefix_append _ _

theorem run_notes {ks : List Label} {m m' : Machine} (hrun : Run (Step env) m ks m') :
    noteEvents m.log <+: noteEvents m'.log := by
  refine hrun.invariant (P := fun _ m' => noteEvents m.log <+: noteEvents m'.log)
    (List.prefix_refl _) ?_
  intro ks m₁ l m₂ _ ih hstep
  cases hstep with
  | success _ h => exact ih.trans (effect_of_process h).notes
  | failure _ _ => exact ih
  | outside _ => exact ih

/-- The first leaf of a pool is the genesis leaf of its `initialize`. -/
theorem genesis_of_run {m₀ m₁ m₂ m : Machine} {ls ks : List Label} {x y : Bytes 32}
    {verifiers : Fin 7 → Pubkey} {genesisLeaf : Bytes 32} (hfresh : Fresh env m₀)
    (hbefore : Run (Step env) m₀ ls m₁)
    (hinit : Step env m₁ (.success call (.initializePool x y verifiers genesisLeaf)) m₂)
    (hafter : Run (Step env) m₂ ks m) :
    ∃ root evs, noteEvents m.log = genesisEvent genesisLeaf root :: evs := by
  have hkept : Kept env Set.univ (SeenOwner env m₀ ls) m₁ :=
    run_kept hfresh hbefore fun _ _ => Set.subset_univ _
  cases hinit with
  | success _ hprocess =>
    cases effect_of_process hprocess with
    | administered _ hchange _ => exact hchange.elim
    | spent hs => cases hs
    | initialized h =>
      obtain ⟨root, hlog, -⟩ := h.history
      have hquiet : noteEvents m₁.log = [] :=
        hkept.quiet fun key hkey => hkey.eq h.pda ▸ h.owner_before
      obtain ⟨evs, hevs⟩ := run_notes hafter
      rw [hlog, noteEvents_append, hquiet] at hevs
      exact ⟨root, evs, hevs.symm⟩

/-- In every state after a successful `initialize` with room in the tree: the insert of a nonzero
canonical leaf succeeds if the genesis leaf is canonical, and no insert at all does if it is not. -/
theorem insert_live_iff {m₀ m₁ m₂ m : Machine} {ls ks : List Label} {x y : Bytes 32}
    {verifiers : Fin 7 → Pubkey} {genesisLeaf leaf : Bytes 32} {pool : Pool} (hfresh : Fresh env m₀)
    (hbefore : Run (Step env) m₀ ls m₁)
    (hinit : Step env m₁ (.success call (.initializePool x y verifiers genesisLeaf)) m₂)
    (hafter : Run (Step env) m₂ ks m) (hpool : PoolAt env m pool)
    (hroom : pool.nextLeafIndex < 2 ^ 32) (hleaf : Canonical leaf) (hne : leaf ≠ Bytes.zero 32) :
    ((∃ out, insert env.poseidon pool leaf = .ok out) ↔ Canonical genesisLeaf) ∧
      (¬ Canonical genesisLeaf → ∀ leaf' out, insert env.poseidon pool leaf' ≠ .ok out) := by
  have hhistory := history_of_run hfresh ((hbefore.snoc hinit).append hafter) hpool
  obtain ⟨root, evs, hevs⟩ := genesis_of_run hfresh hbefore hinit hafter
  rcases hhistory.cases with ⟨xs, hxs, -, -, hstate⟩ | ⟨ev, hone, hnot, hstuck, -⟩
  · -- all leaves are canonical, the genesis leaf is the first
    have hgenesis : Canonical genesisLeaf := by
      have hmem : genesisLeaf ∈ xs.map Fr.toBytes := by
        rw [← hxs, hevs]
        simp [genesisEvent]
      obtain ⟨x, -, rfl⟩ := List.mem_map.1 hmem
      exact canonical_toBytes x
    obtain ⟨x, rfl⟩ := hleaf.exists_toBytes
    rw [hstate.nextLeafIndex] at hroom
    obtain ⟨p, hp, -⟩ := insert_of_treeState env.poseidon hstate
      (fun h0 => hne ((toBytes_eq_zero_iff x).2 h0)) hroom
    exact ⟨⟨fun _ => hgenesis, fun _ => ⟨_, hp⟩⟩, fun hnot => absurd hgenesis hnot⟩
  · have hev : ev.leaf = genesisLeaf := by
      rw [hevs, List.cons.injEq] at hone
      rw [← hone.1]
      rfl
    refine ⟨⟨?_, ?_⟩, fun _ => hstuck.insert_ne_ok env.poseidon⟩
    · rintro ⟨out, hout⟩
      exact absurd hout (hstuck.insert_ne_ok env.poseidon leaf out)
    · intro hgenesis
      exact absurd (hev ▸ hgenesis) hnot

/-- The sample deployment with a canonical genesis leaf takes the leaf 11. -/
theorem insert_live_sample : ∃ m pool out, Run (Step Sample.env) Sample.machine
      ([Sample.initializePool (beBytes 32 9)].map fun c => .success c.1 c.2) m ∧
    PoolAt Sample.env m pool ∧ insert Sample.env.poseidon pool (beBytes 32 11) = .ok out := by
  have hexec : (execAll Sample.env [Sample.initializePool (beBytes 32 9)] Sample.machine).map
      (fun m => (noteEvents m.log).length) = some 1 := by decide +kernel
  obtain ⟨m, hm, hlen⟩ := Option.map_eq_some_iff.1 hexec
  have hrun := run_of_execAll (by simp [Sample.initializePool, Sample.admissible]) hm
  obtain ⟨pool, hpool⟩ := poolAt_sample hrun
  obtain ⟨m₁, hinit, hafter⟩ := hrun.exists_of_cons
  have hroom : pool.nextLeafIndex < 2 ^ 32 := by
    rw [(history_of_run Sample.fresh hrun hpool).nextLeafIndex, hlen]
    norm_num
  have hleaf : Canonical (beBytes 32 11) := by decide +kernel
  have hgenesis : Canonical (beBytes 32 9) := by decide +kernel
  obtain ⟨out, hout⟩ := (insert_live_iff Sample.fresh .start hinit hafter hpool hroom hleaf
    (by decide)).1.2 hgenesis
  exact ⟨m, pool, out, hrun, hpool, hout⟩

/-- An `initialize` with the genesis leaf `ff…ff` succeeds, and then no leaf is ever accepted. -/
theorem insert_stuck : ∃ m pool, Run (Step Sample.env) Sample.machine
      ([Sample.initializePool ⟨List.replicate 32 255, rfl⟩].map fun c => .success c.1 c.2) m ∧
    PoolAt Sample.env m pool ∧ pool.nextLeafIndex < 2 ^ 32 ∧
    Canonical (beBytes 32 11) ∧ beBytes 32 11 ≠ Bytes.zero 32 ∧
    ¬ ∃ out, insert Sample.env.poseidon pool (beBytes 32 11) = .ok out := by
  have hexec : (execAll Sample.env [Sample.initializePool ⟨List.replicate 32 255, rfl⟩]
      Sample.machine).map (fun m => (noteEvents m.log).map NoteInserted.leaf) =
      some [⟨List.replicate 32 255, rfl⟩] := by decide +kernel
  obtain ⟨m, hm, hleaves⟩ := Option.map_eq_some_iff.1 hexec
  have hrun := run_of_execAll (by simp [Sample.initializePool, Sample.admissible]) hm
  obtain ⟨pool, hpool⟩ := poolAt_sample hrun
  have hhistory := history_of_run Sample.fresh hrun hpool
  have hlen : (noteEvents m.log).length = 1 := by simpa using congrArg List.length hleaves
  refine ⟨m, pool, hrun, hpool, ?_, by decide +kernel, by decide, ?_⟩
  · rw [hhistory.nextLeafIndex, hlen]
    norm_num
  · rintro ⟨out, hout⟩
    have hnot : ¬ Canonical (⟨List.replicate 32 255, rfl⟩ : Bytes 32) := by decide +kernel
    rcases hhistory.cases with ⟨xs, hxs, -⟩ | ⟨ev, -, -, hstuck, -⟩
    · rw [hleaves] at hxs
      obtain ⟨x, -, hx⟩ := List.mem_map.1 (hxs ▸ List.mem_singleton_self _)
      exact hnot (hx ▸ canonical_toBytes x)
    · exact hstuck.insert_ne_ok Sample.env.poseidon _ out hout

end Kakure
