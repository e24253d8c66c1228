import Kakure.Pool.Balance
import Kakure.Pool.Reachable

/-!
# No inflation

What the notes of the pool are worth, over whole runs: every run of the pool is a run of the ledger of notes, whose
balance is what was deposited less what was withdrawn.

* `SoundStep` — the steps of the pool whose proofs have a witness, where they have a proof;
* `run_registered`, `run_sound` — a verifier in the pool was registered by its authority or by `initialize`, and so a run
  with sound verifiers has such steps only;
* `Aligned` — transactions that follow a run step by step;
* `Explained.step`, `run_explained` — a step of the pool is a transaction of the ledger or none;
* `no_inflation` — what was deposited is what was withdrawn and the notes that are left, asset by asset.
-/

namespace Kakure

open Slices Guarded Runs LeanTree Circuit

section Inflation

variable {env : Env} {call : Call} {poseidon2 : List Fr → Fr} {H : Hashed}

/-! ## Registered verifiers -/

/-- The verifiers an instruction registers. -/
def PoolInstruction.Registers : PoolInstruction → UInt8 → Pubkey → Prop
  | .initializePool _ _ verifiers _, id, key => ∃ h : id.toNat < 7, key = verifiers ⟨id.toNat, h⟩
  | .setVerifier circuitId program, id, key => id = circuitId ∧ key = program
  | _, _, _ => False

/-- The verifiers a step registers. -/
def Label.Registers : Label → UInt8 → Pubkey → Prop
  | .success _ ix => ix.Registers
  | _ => fun _ _ => False

/-- The genesis leaf of an instruction. -/
def PoolInstruction.genesisLeaf : PoolInstruction → Option (Bytes 32)
  | .initializePool _ _ _ genesisLeaf => some genesisLeaf
  | _ => none

/-- The genesis leaf of a step. -/
def Label.genesisLeaf : Label → Option (Bytes 32)
  | .success _ ix => ix.genesisLeaf
  | _ => none

theorem PoolAt.unique {m : Machine} {pool pool' : Pool} (h : PoolAt env m pool) (h' : PoolAt env m pool') :
    pool' = pool := by
  obtain ⟨key, hkey, -, hdata⟩ := h
  obtain ⟨key', hkey', -, hdata'⟩ := h'
  cases hkey.eq hkey'
  cases pool
  cases pool'
  cases hdata.symm.trans hdata'
  rfl

/-- The writes of `initialize` leave the verifiers in their fields. -/
theorem verifier_genesisPool (authority : Pubkey) (x y : Bytes 32) (verifiers : Fin 7 → Pubkey) (i : Fin 7) :
    (genesisPool authority x y verifiers).get (.verifier i) = verifiers i := by
  have hverifiers : ∀ (ids : List (Fin 7)) (p : Pool),
      (ids.foldl (fun p i => p.set (.verifier i) (verifiers i)) p).get (.verifier i) =
        if i ∈ ids then verifiers i else p.get (.verifier i) := by
    intro ids
    induction ids with
    | nil => exact fun p => (if_neg List.not_mem_nil).symm
    | cons k ids ih =>
      intro p
      rw [List.foldl_cons, ih]
      by_cases hk : i = k
      · subst hk
        rw [Pool.get_set_same, ite_self, if_pos List.mem_cons_self]
      · rw [Pool.get_set_of_ne _ _ (by simpa using hk)]
        simp only [List.mem_cons, hk, false_or]
  unfold genesisPool Pool.setNextLeafIndex Pool.setAllVerifiers
  rw [Pool.get_set_of_ne _ _ (by simp), hverifiers, if_pos (List.mem_finRange i)]

/-- The verifiers of a pool that was just set up. -/
theorem Initialized.registers {x y : Bytes 32} {verifiers : Fin 7 → Pubkey} {genesisLeaf : Bytes 32}
    {authority poolKey key : Pubkey} {pool : Pool} {m m' : Machine} {id : UInt8}
    (h : Initialized env call x y verifiers genesisLeaf authority poolKey pool m m')
    (hkey : pool.verifier id = .ok key) :
    (PoolInstruction.initializePool x y verifiers genesisLeaf).Registers id key := by
  obtain ⟨index, root, hinsert, -⟩ := h.inserted
  unfold Pool.verifier at hkey
  split at hkey
  · cases hkey
  · rename_i hlt
    rw [get_insert_of_not_tree env.poseidon hinsert rfl, verifier_genesisPool, Except.ok.injEq] at hkey
    exact ⟨not_le.1 hlt, hkey.symm⟩

/-- A pool account is there before a step, or the step is its `initialize`. -/
theorem Kept.poolAt_cases {S : Set Seeds} {seen : Pubkey → Pubkey → Prop} {l : Label} {pool' : Pool} {m m' : Machine}
    (h : Kept env S seen m) (hstep : Step env m l m') (hpool : PoolAt env m' pool') :
    (∃ pool, PoolAt env m pool) ∨ ∃ call x y verifiers leaf authority poolKey,
      l = .success call (.initializePool x y verifiers leaf) ∧
        Initialized env call x y verifiers leaf authority poolKey pool' m m' := by
  cases hstep with
  | failure _ _ => exact Or.inl ⟨pool', hpool⟩
  | outside hout =>
    obtain ⟨key, ⟨bump, hkey⟩, hown, hdata⟩ := hpool
    by_cases howner : (m.ledger key).owner = env.programId
    · exact Or.inl ⟨pool', key, ⟨bump, hkey⟩, howner, (hout.owned key howner).2.symm.trans hdata⟩
    · exact absurd (isPda_of_pda env hkey) (hout.created key howner hown).1
  | success hcall hprocess =>
    cases effect_of_process hprocess with
    | @initialized x y verifiers leaf authority poolKey pool _ _ h =>
      cases h.poolAt.1.unique hpool
      exact Or.inr ⟨_, x, y, verifiers, leaf, authority, poolKey, rfl, h⟩
    | administered h _ _ => exact Or.inl ⟨_, _, h.pda, h.owner_before, h.pool_before.symm⟩
    | deposited _ _ _ _ _ _ _ hverified hexecuted _ _ _ _ =>
      exact Or.inl ⟨_, _, (h.isPool hverified hexecuted).1, hexecuted.owner_before, hexecuted.pool_before.symm⟩
    | spent _ _ _ hverified hexecuted _ _ _ =>
      exact Or.inl ⟨_, _, (h.isPool hverified hexecuted).1, hexecuted.owner_before, hexecuted.pool_before.symm⟩

/-- A verifier that a step did not register was there before. -/
theorem Label.Frames.verifier {l : Label} {pool pool' : Pool} {id : UInt8} {key : Pubkey} (h : l.Frames pool pool')
    (hkey : pool'.verifier id = .ok key) : l.Registers id key ∨ pool.verifier id = .ok key := by
  have hsame : ∀ fields, OnlyChanged fields pool pool' → (∀ i, PoolField.verifier i ∉ fields) →
      pool.verifier id = .ok key := by
    intro fields hframe hfields
    unfold Pool.verifier at hkey ⊢
    split at hkey
    · cases hkey
    · rename_i hlt
      rw [dif_neg hlt, ← hframe _ (hfields _)]
      exact hkey
  cases l with
  | success call ix =>
    cases ix with
    | initializePool => exact h.elim
    | setVerifier circuitId program =>
      obtain ⟨-, hlt, hframe, hprogram⟩ := h
      by_cases hid : id = circuitId
      · subst hid
        rw [hprogram, Except.ok.injEq] at hkey
        exact Or.inl ⟨rfl, hkey.symm⟩
      · right
        unfold Pool.verifier at hkey ⊢
        split at hkey
        · cases hkey
        · rename_i hlt'
          rw [dif_neg hlt', ← hframe]
          · exact hkey
          · intro hmem
            rw [Set.mem_singleton_iff, PoolField.verifier.injEq, Fin.mk.injEq, UInt8.toNat_inj] at hmem
            exact hid hmem
    | rotateComplianceKey x y => exact Or.inr (hsame _ h.2.1 (by simp))
    | setPaused paused => exact Or.inr (hsame _ h.2.1 (by simp))
    | _ => exact Or.inr (hsame _ h (by simp [PoolField.isTree]))
  | _ =>
    rw [show pool' = pool from h] at hkey
    exact Or.inr hkey

/-- The proof of a step, if it has one, has a witness where it is accepted. -/
def Label.Sound (env : Env) (poseidon2 : List Fr → Fr) (H : Hashed) (m : Machine) : Label → Prop
  | .success _ ix => ∀ s ∈ ix.statement, SoundAt env poseidon2 H m s
  | _ => True

/-- The steps of the pool, with proofs that have a witness. -/
def SoundStep (env : Env) (poseidon2 : List Fr → Fr) (H : Hashed) (m : Machine) (l : Label) (m' : Machine) : Prop :=
  Step env m l m' ∧ l.Sound env poseidon2 H m

theorem run_of_soundStep {m₀ m : Machine} {ls : List Label} (h : Run (SoundStep env poseidon2 H) m₀ ls m) :
    Run (Step env) m₀ ls m := h.mono fun _ _ _ hstep => hstep.1

/-- The verifiers in a reachable pool account were registered. -/
theorem run_registered {m₀ m : Machine} {ls : List Label} (hfresh : Fresh env m₀) (hrun : Run (Step env) m₀ ls m)
    {pool : Pool} (hpool : PoolAt env m pool) {id : UInt8} {key : Pubkey} (hkey : pool.verifier id = .ok key) :
    ∃ l ∈ ls, l.Registers id key := by
  revert pool
  refine hrun.invariant (P := fun ls m => ∀ {pool}, PoolAt env m pool → pool.verifier id = .ok key →
    ∃ l ∈ ls, l.Registers id key) ?_ ?_
  · rintro pool ⟨k, ⟨bump, hpda⟩, hown, -⟩ -
    exact absurd (hown.symm.trans (hfresh.derived k (isPda_of_pda env hpda)).1) env.programId_ne_system
  · intro ls m l m' hrun ih hstep pool' hpool' hkey
    have hkept : Kept env Set.univ (SeenOwner env m₀ ls) m := run_kept hfresh hrun fun _ _ => Set.subset_univ _
    rcases hkept.poolAt_cases hstep hpool' with ⟨pool, hpool⟩ | ⟨call, x, y, verifiers, leaf, authority, poolKey, rfl, h⟩
    · obtain ⟨pool₁, hpool₁, hframe⟩ := step_frames hstep hpool
      cases hpool₁.unique hpool'
      rcases hframe.verifier hkey with hnew | hold
      · exact ⟨l, List.mem_append_right _ (List.mem_singleton_self l), hnew⟩
      · obtain ⟨l', hl', hregisters⟩ := ih hpool hold
        exact ⟨l', List.mem_append_left _ hl', hregisters⟩
    · exact ⟨_, List.mem_append_right _ (List.mem_singleton_self _), h.registers hkey⟩

/-- If the verifiers that a run registers accept for its statements only what has a witness, so do its steps. -/
theorem run_sound {m₀ m : Machine} {ls : List Label} (hfresh : Fresh env m₀) (hrun : Run (Step env) m₀ ls m)
    (h : ∀ l ∈ ls, ∀ id key, l.Registers id key → ∀ call ix, .success call ix ∈ ls → ∀ s ∈ ix.statement,
      s.circuitId = id → ∀ pool proof, env.accepts key (proof ++ publicWitness (s.inputs pool)) →
        Witnessed env poseidon2 H id (proof ++ publicWitness (s.inputs pool))) :
    Run (SoundStep env poseidon2 H) m₀ ls m := by
  refine hrun.of_forall fun before l after m' heq hbefore => ?_
  cases l with
  | success call ix =>
    intro s hs pool hpool key proof hkey haccepts
    obtain ⟨l', hl', hregisters⟩ := run_registered hfresh hbefore hpool hkey
    refine h l' (heq ▸ List.mem_append_left _ hl') s.circuitId key hregisters call ix ?_ s hs rfl pool proof haccepts
    rw [heq]
    exact List.mem_append_right _ List.mem_cons_self
  | _ => trivial

/-! ## Leaves and nullifiers of a run -/

/-- The leaves an instruction inserts. -/
def PoolInstruction.leaves (ix : PoolInstruction) : List (Bytes 32) :=
  ix.statement.elim ix.genesisLeaf.toList fun s => s.outputs.map NoteOutput.leaf

/-- The leaves a step inserts. -/
def Label.leaves : Label → List (Bytes 32)
  | .success _ ix => ix.leaves
  | _ => []

theorem PoolInstruction.leaves_of_statement {ix : PoolInstruction} {s : Statement} (h : ix.statement = some s) :
    ix.leaves = s.outputs.map NoteOutput.leaf := by
  rw [PoolInstruction.leaves, h, Option.elim_some]

/-- Transactions that follow a run: a step inserts the leaves and consumes the nullifiers of its transaction, or none. -/
inductive Aligned (poseidon2 : List Fr → Fr) (coins : List Coin) : List Label → List (Coins.Tx Coin (Fr → ℕ)) → Prop
  | start : Aligned poseidon2 coins [] []
  | still {ls : List Label} {l : Label} {txs : List (Coins.Tx Coin (Fr → ℕ))} (h : Aligned poseidon2 coins ls txs)
      (hleaves : l.leaves = []) (hconsumed : l.consumed = []) : Aligned poseidon2 coins (ls ++ [l]) txs
  | moves {ls : List Label} {l : Label} {txs : List (Coins.Tx Coin (Fr → ℕ))} {tx : Coins.Tx Coin (Fr → ℕ)}
      (h : Aligned poseidon2 coins ls txs) (hleaves : l.leaves.length = tx.outputs.length)
      (hconsumed : l.consumed.map some = tx.inputs.map fun i => (coins[i]?).bind (Coin.nullifier poseidon2 i)) :
      Aligned poseidon2 coins (ls ++ [l]) (txs ++ [tx])

theorem Aligned.append {coins : List Coin} {ls : List Label} {txs : List (Coins.Tx Coin (Fr → ℕ))}
    (h : Aligned poseidon2 coins ls txs) (coins' : List Coin) : Aligned poseidon2 (coins ++ coins') ls txs := by
  induction h with
  | start => exact .start
  | still _ hleaves hconsumed ih => exact ih.still hleaves hconsumed
  | @moves _ l _ tx _ hleaves hconsumed ih =>
    refine ih.moves hleaves (hconsumed.trans (getElem?_bind_append fun i hi => ?_).symm)
    -- a nullifier is that of a coin that is there
    have hmem := hconsumed ▸ List.mem_map_of_mem (f := fun i => (coins[i]?).bind (Coin.nullifier poseidon2 i)) hi
    obtain ⟨b, -, hb⟩ := List.mem_map.1 hmem
    obtain ⟨c, hc, -⟩ := Option.bind_eq_some_iff.1 hb.symm
    exact (List.getElem?_eq_some_iff.1 hc).1

/-! ## Runs of the ledger -/

/-- What a step pays in. -/
def Label.paidIn (env : Env) : Label → Fr → ℕ
  | .success call ix => ix.paidIn env call
  | _ => 0

/-- What a step pays out. -/
def Label.paidOut (env : Env) : Label → Fr → ℕ
  | .success call ix => ix.paidOut env call
  | _ => 0

/-- What the deposits of a run have asked for, asset by asset. -/
def deposited (env : Env) (ls : List Label) : Fr → ℕ := (ls.map (Label.paidIn env)).sum

/-- What the withdrawals of a run have asked for, asset by asset. -/
def withdrawn (env : Env) (ls : List Label) : Fr → ℕ := (ls.map (Label.paidOut env)).sum

/-- What is assumed of the hashes of a run: its genesis leaf is no hash, and nothing that is hashed for its notes and in
its tree collides. -/
structure Assumes (env : Env) (poseidon2 : List Fr → Fr) (H : Hashed) (ls : List Label) (m : Machine) : Prop where
  free : H.Free env.poseidon poseidon2
  genesis : ∀ l ∈ ls, ∀ leaf ∈ l.genesisLeaf, H.Genesis env.poseidon poseidon2 leaf
  tree : H.CoversTree env.poseidon ((noteEvents m.log).map NoteInserted.leaf)

/-- The run of the ledger of notes behind a run of the pool. -/
structure Explained (env : Env) (poseidon2 : List Fr → Fr) (H : Hashed) (ls : List Label) (m : Machine)
    (txs : List (Coins.Tx Coin (Fr → ℕ))) (L : Coins.Ledger Coin) : Prop where
  run : Run (Coins.Step Coin.value) Coins.Ledger.empty txs L
  mirrors : Mirrors env poseidon2 H m L
  stands : ∀ tx ∈ txs, Stands tx
  aligned : Aligned poseidon2 L.coins ls txs
  paidIn : (txs.map Coins.Tx.paidIn).sum = deposited env ls
  paidOut : (txs.map Coins.Tx.paidOut).sum = withdrawn env ls

theorem deposited_snoc (ls : List Label) (l : Label) : deposited env (ls ++ [l]) = deposited env ls + l.paidIn env := by
  rw [deposited, List.map_append, List.sum_append, List.map_singleton, List.sum_singleton, deposited]

theorem withdrawn_snoc (ls : List Label) (l : Label) :
    withdrawn env (ls ++ [l]) = withdrawn env ls + l.paidOut env := by
  rw [withdrawn, List.map_append, List.sum_append, List.map_singleton, List.sum_singleton, withdrawn]

theorem History.length_le {poseidon : Fr → Fr → Fr → Fr} {pool : Pool} {evs : List NoteInserted}
    (h : History poseidon pool evs) : evs.length ≤ 2 ^ 32 := by
  rcases h.cases with ⟨xs, hxs, hlen, -⟩ | ⟨ev, rfl, -⟩
  · have hsame := congrArg List.length hxs
    rw [List.length_map, List.length_map] at hsame
    rwa [hsame]
  · norm_num

section Steps

variable {S : Set Seeds} {seen : Pubkey → Pubkey → Prop} {ls : List Label} {l : Label} {m m' : Machine}
  {txs : List (Coins.Tx Coin (Fr → ℕ))} {L : Coins.Ledger Coin}

/-- A step that moves no note is no transaction. -/
theorem Explained.still (h : Explained env poseidon2 H ls m txs L)
    (hnotes : noteEvents m'.log = noteEvents m.log) (hspent : spentEvents m'.log = spentEvents m.log)
    (hopened : ∀ key, env.IsPool key → (m'.ledger key).owner = env.programId → L.coins ≠ [])
    (hquiet : l.leaves = [] ∧ l.consumed = []) (hpaid : l.paidIn env = 0 ∧ l.paidOut env = 0) :
    Explained env poseidon2 H (ls ++ [l]) m' txs L where
  run := h.run
  mirrors := ⟨by rw [hnotes, h.mirrors.leaves], by rw [hspent, h.mirrors.spent], h.mirrors.shape, hopened,
    h.mirrors.size⟩
  stands := h.stands
  aligned := h.aligned.still hquiet.1 hquiet.2
  paidIn := by rw [deposited_snoc, h.paidIn, hpaid.1, add_zero]
  paidOut := by rw [withdrawn_snoc, h.paidOut, hpaid.2, add_zero]

/-- A step that is a transaction. -/
theorem Explained.snoc {tx : Coins.Tx Coin (Fr → ℕ)} (h : Explained env poseidon2 H ls m txs L)
    (hvalid : Coins.Valid Coin.value L tx) (hmirrors : Mirrors env poseidon2 H m' (L.apply tx)) (hstands : Stands tx)
    (hleaves : l.leaves.length = tx.outputs.length)
    (hconsumed : l.consumed.map some = tx.inputs.map fun i => (L.coins[i]?).bind (Coin.nullifier poseidon2 i))
    (hin : l.paidIn env = tx.paidIn) (hout : l.paidOut env = tx.paidOut) :
    Explained env poseidon2 H (ls ++ [l]) m' (txs ++ [tx]) (L.apply tx) where
  run := h.run.snoc ⟨hvalid⟩
  mirrors := hmirrors
  stands tx' htx' := by
    rcases List.mem_append.1 htx' with hold | hnew
    · exact h.stands tx' hold
    · rw [List.mem_singleton.1 hnew]
      exact hstands
  aligned := (h.aligned.append tx.outputs).moves hleaves
    (hconsumed.trans (getElem?_bind_append hvalid.made).symm)
  paidIn := by
    rw [deposited_snoc, List.map_append, List.sum_append, h.paidIn, List.map_singleton, List.sum_singleton, hin]
  paidOut := by
    rw [withdrawn_snoc, List.map_append, List.sum_append, h.paidOut, List.map_singleton, List.sum_singleton, hout]

/-- The genesis leaf is the first coin. -/
theorem Explained.genesis {x y : Bytes 32} {verifiers : Fin 7 → Pubkey} {genesisLeaf : Bytes 32}
    {authority poolKey : Pubkey} {pool : Pool} (h : Explained env poseidon2 H ls m txs L) (hkept : Kept env S seen m)
    (hinit : Initialized env call x y verifiers genesisLeaf authority poolKey pool m m')
    (hgenesis : H.Genesis env.poseidon poseidon2 genesisLeaf) :
    Explained env poseidon2 H (ls ++ [.success call (.initializePool x y verifiers genesisLeaf)]) m'
      (txs ++ [genesisTx genesisLeaf]) (L.apply (genesisTx genesisLeaf)) := by
  obtain ⟨root, hlog, -⟩ := hinit.history
  have hquiet : noteEvents m.log = [] := hkept.quiet fun key hpool => hpool.eq hinit.pda ▸ hinit.owner_before
  have hnil : L.coins = [] := by
    have hleaves := h.mirrors.leaves
    rw [hquiet] at hleaves
    exact List.map_eq_nil_iff.1 hleaves.symm
  have hkeptL := Coins.run_kept h.run
  have hspent : L.spent = [] := by
    refine List.eq_nil_iff_forall_not_mem.2 fun i hi => ?_
    have hlt := hkeptL.made i hi
    rw [hnil] at hlt
    exact absurd hlt (Nat.not_lt_zero i)
  refine h.snoc ⟨List.nodup_nil, fun i hi => absurd hi List.not_mem_nil, fun i hi => absurd hi List.not_mem_nil, rfl⟩
    ⟨?_, ?_, ?_, ?_, ?_⟩ (.genesis genesisLeaf) rfl rfl rfl rfl
  · rw [hlog, noteEvents_append, hquiet, Coins.Ledger.coins_apply, hnil]
    rfl
  · have hbefore := h.mirrors.spent
    rw [hspent] at hbefore
    rw [hlog, spentEvents_append, List.map_append, hbefore, Coins.Ledger.spent_apply, hspent]
    rfl
  · rw [Coins.Ledger.coins_apply, hnil]
    exact Or.inr ⟨genesisLeaf, [], rfl, hgenesis, fun n hn => absurd hn List.not_mem_nil⟩
  · intro _ _ _ hempty
    exact absurd (List.append_eq_nil_iff.1 hempty).2 (List.cons_ne_nil _ _)
  · rw [Coins.Ledger.coins_apply, hnil]
    exact Nat.one_le_two_pow

/-- An instruction with a proof is the transaction of the notes behind it. -/
theorem Explained.backed {ix : PoolInstruction} {s : Statement} {w : Witness}
    (h : Explained env poseidon2 H ls m txs L) (hkept : Kept env S seen m) (hfree : H.Free env.poseidon poseidon2)
    (htree : H.CoversTree env.poseidon ((noteEvents m.log).map NoteInserted.leaf))
    (hs : ix.statement = some s) (hnodup : (spentEvents m'.log).Nodup)
    (hbacked : Backed env poseidon2 H call ix s m m' w) :
    Explained env poseidon2 H (ls ++ [.success call ix]) m' (txs ++ [w.tx]) (L.apply w.tx) := by
  obtain ⟨poolKey, pool, pool', m₁, hverified, hexecuted, hlog, hproves⟩ := hbacked.executed
  obtain ⟨hpool, hhistory⟩ := hkept.isPool hverified hexecuted
  obtain ⟨evs, hgrows, hevs, hnotes⟩ := hexecuted.inserted
  obtain ⟨flat, haccepted⟩ := hbacked.accepted
  have hcoins : ∀ o ∈ w.opened, L.coins[o.index.val]? = some (.note o.note) := by
    intro o ho
    cases hindex : s.rootIndex with
    | none =>
      -- a statement without a root opens nothing
      have hnone := hproves.nullifiers
      rw [hbacked.root hindex] at hnone
      rw [List.map_eq_nil_iff.1 hnone.symm] at ho
      cases ho
    | some i =>
      obtain ⟨root, hroot, hbelow⟩ := hproves.below o ho i hindex
      exact note_at h.mirrors hfree htree hhistory (hverified.root i hindex) hroot hbelow
        (hbacked.covers.opened o ho) (hbacked.covers.paths o ho)
  have hne := h.mirrors.opened poolKey hpool hexecuted.owner_before
  obtain ⟨hvalid, hmirrors⟩ := h.mirrors.executed (Coins.run_kept h.run) hne hcoins hproves.nullifiers hproves.leaves
    haccepted hbacked.covers.minted hevs (by rw [hlog, hnotes]) (by rw [hlog, hexecuted.spent]) hnodup
    (by rw [hlog, hnotes]; exact (hhistory.grow hgrows).length_le)
  refine h.snoc hvalid hmirrors (.witness w haccepted.lineage) ?_ ?_ hbacked.paidIn hbacked.paidOut
  · show ix.leaves.length = (w.minted.map Coin.note).length
    rw [ix.leaves_of_statement hs, hproves.leaves, List.length_map, List.length_map]
  · show (ix.statement.elim [] Statement.nullifiers).map some = _
    rw [hs, Option.elim_some, inputs_nullifiers hcoins hproves.nullifiers]

/-- A step of the pool is a transaction of the ledger or none. -/
theorem Explained.step (h : Explained env poseidon2 H ls m txs L) (hkept : Kept env S seen m)
    (hsound : l.Sound env poseidon2 H m) (hfree : H.Free env.poseidon poseidon2)
    (hgenesis : ∀ leaf ∈ l.genesisLeaf, H.Genesis env.poseidon poseidon2 leaf)
    (htree : H.CoversTree env.poseidon ((noteEvents m.log).map NoteInserted.leaf)) (hstep : Step env m l m')
    (hnodup : (spentEvents m'.log).Nodup) :
    ∃ txs' L', Explained env poseidon2 H (ls ++ [l]) m' txs' L' := by
  cases hstep with
  | failure _ _ => exact ⟨txs, L, h.still rfl rfl h.mirrors.opened ⟨rfl, rfl⟩ ⟨rfl, rfl⟩⟩
  | outside hout =>
    refine ⟨txs, L, h.still rfl rfl (fun key hkey hown => ?_) ⟨rfl, rfl⟩ ⟨rfl, rfl⟩⟩
    obtain ⟨bump, hpda⟩ := hkey
    by_cases howner : (m.ledger key).owner = env.programId
    · exact h.mirrors.opened key ⟨bump, hpda⟩ howner
    · exact absurd (isPda_of_pda env hpda) (hout.created key howner hown).1
  | @success call ix _ _ hcall hprocess =>
    cases hs : ix.statement with
    | some s =>
      obtain ⟨w, hbacked⟩ := exists_backed hkept (hsound s hs) hs hprocess
      exact ⟨_, _, h.backed hkept hfree htree hs hnodup hbacked⟩
    | none =>
      cases effect_of_process hprocess with
      | initialized hinit => exact ⟨_, _, h.genesis hkept hinit (hgenesis _ rfl)⟩
      | @administered _ poolKey _ _ evs _ _ hadmin hchange hlog =>
        obtain ⟨hnotes, hspent⟩ := hchange.noteEvents
        refine ⟨txs, L, h.still ?_ ?_ (fun key _ _ => h.mirrors.opened poolKey hadmin.pda hadmin.owner_before) ?_ ?_⟩
        · rw [hlog, noteEvents_append, hnotes, List.append_nil]
        · rw [hlog, spentEvents_append, hspent, List.append_nil]
        · cases ix with
          | setVerifier => exact ⟨rfl, rfl⟩
          | rotateComplianceKey => exact ⟨rfl, rfl⟩
          | setPaused => exact ⟨rfl, rfl⟩
          | _ => exact hchange.elim
        · cases ix with
          | setVerifier => exact ⟨rfl, rfl⟩
          | rotateComplianceKey => exact ⟨rfl, rfl⟩
          | setPaused => exact ⟨rfl, rfl⟩
          | _ => exact hchange.elim
      | deposited => cases hs
      | spent hs' =>
        rw [hs] at hs'
        cases hs'

end Steps

/-- Every run of the pool is a run of the ledger of notes. -/
theorem run_explained {m₀ m : Machine} {ls : List Label} (hfresh : Fresh env m₀)
    (hrun : Run (SoundStep env poseidon2 H) m₀ ls m) (h : Assumes env poseidon2 H ls m) :
    ∃ txs L, Explained env poseidon2 H ls m txs L := by
  refine hrun.invariant (P := fun ls m => Assumes env poseidon2 H ls m → ∃ txs L, Explained env poseidon2 H ls m txs L)
    ?_ ?_ h
  · intro _
    exact ⟨[], _, .start, .empty hfresh, fun tx htx => absurd htx List.not_mem_nil, .start, rfl, rfl⟩
  · rintro ls m l m' hsound ih ⟨hstep, hproof⟩ h
    have hrun := run_of_soundStep hsound
    have hearlier : (noteEvents m.log).map NoteInserted.leaf <+: (noteEvents m'.log).map NoteInserted.leaf :=
      (run_notes (Run.single hstep)).map _
    have htree := h.tree.earlier hearlier
    obtain ⟨txs, L, hexplained⟩ := ih ⟨h.free, fun l' hl' => h.genesis l' (List.mem_append_left _ hl'), htree⟩
    have hkept : Kept env Set.univ (SeenOwner env m₀ ls) m := run_kept hfresh hrun fun _ _ => Set.subset_univ _
    obtain ⟨hspent, hnodup, -⟩ := run_consumed hfresh (hrun.snoc hstep)
    exact hexplained.step hkept hproof h.free (h.genesis l (List.mem_append_right _ (List.mem_singleton_self l))) htree
      hstep (hspent ▸ hnodup)

/-! ## What is left -/

/-- The value of an asset in the notes that are not spent, by their nullifiers; the first one is behind the genesis
leaf. -/
def unspentValue (poseidon2 : List Fr → Fr) (ns : List Circuit.Note) (spent : List (Bytes 32)) (asset : Fr) : ℕ :=
  ∑ i : Fin ns.length, if spent.contains (Notes.computeNullifier poseidon2 ns[i].1.psi ((i.val + 1 : ℕ) : Fr)).toBytes
    then 0 else if ns[i].1.assetId = asset then ns[i].1.value else 0

/-- A nullifier is that of one index. -/
theorem Mirrors.eq_of_nullifier {m : Machine} {L : Coins.Ledger Coin} {i j : ℕ} {n n' : Circuit.Note}
    (h : Mirrors env poseidon2 H m L) (hfree : H.Free env.poseidon poseidon2) (hi : L.coins[i]? = some (.note n))
    (hj : L.coins[j]? = some (.note n'))
    (heq : Notes.computeNullifier poseidon2 n'.1.psi (j : Fr) = Notes.computeNullifier poseidon2 n.1.psi (i : Fr)) :
    j = i := by
  have hbound : ∀ {k c}, L.coins[k]? = some c → k < 2 ^ 32 := fun hk =>
    lt_of_lt_of_le (List.getElem?_eq_some_iff.1 hk).1 h.size
  have hn := h.note_mem (List.mem_of_getElem? hi)
  have hn' := h.note_mem (List.mem_of_getElem? hj)
  -- the hash of the nullifier has one preimage, so the index is the same
  have hlists := hfree.lists ⟨n', hn', Or.inr ⟨j, hbound hj, rfl⟩⟩ ⟨n, hn, Or.inr ⟨i, hbound hi, rfl⟩⟩ heq
  rw [List.cons.injEq, List.cons.injEq] at hlists
  have hval := congrArg ZMod.val hlists.2.1
  have hlt : ∀ k, k < 2 ^ 32 → k < bn254ScalarFieldModulus := fun k hk =>
    lt_trans (lt_trans hk (by norm_num)) two_pow_128_lt_modulus
  rwa [val_natCast_of_lt (hlt j (hbound hj)), val_natCast_of_lt (hlt i (hbound hi))] at hval

/-- A note was taken exactly if its nullifier was spent. -/
theorem Mirrors.mem_spent_iff {m : Machine} {L : Coins.Ledger Coin} {i : ℕ} {n : Circuit.Note}
    (h : Mirrors env poseidon2 H m L) (hkept : L.Kept) (hfree : H.Free env.poseidon poseidon2)
    (hi : L.coins[i]? = some (.note n)) :
    i ∈ L.spent ↔ (Notes.computeNullifier poseidon2 n.1.psi (i : Fr)).toBytes ∈ spentEvents m.log := by
  have hself : (L.coins[i]?).bind (Coin.nullifier poseidon2 i) =
      some (Notes.computeNullifier poseidon2 n.1.psi (i : Fr)).toBytes := by rw [hi]; rfl
  constructor
  · intro hmem
    have hnull := h.spent ▸ List.mem_map_of_mem (f := fun i => (L.coins[i]?).bind (Coin.nullifier poseidon2 i)) hmem
    rw [hself] at hnull
    obtain ⟨b, hb, heq⟩ := List.mem_map.1 hnull
    rwa [← Option.some_inj.1 heq]
  · intro hmem
    obtain ⟨j, hj, heq⟩ := List.mem_map.1 (h.spent ▸ List.mem_map_of_mem (f := some) hmem)
    cases hcoin : L.coins[j]? with
    | none => exact absurd (List.getElem?_eq_none_iff.1 hcoin) (not_le.2 (hkept.made j hj))
    | some c =>
      rw [hcoin, Option.bind_some] at heq
      cases c with
      | genesis leaf => cases heq
      | note n' => rwa [← h.eq_of_nullifier hfree hi hcoin (toBytes_injective (Option.some_inj.1 heq))]

/-- The coins that are left are worth what the notes are that are not spent. -/
theorem Mirrors.unspentValue_eq {m : Machine} {L : Coins.Ledger Coin} {leaf : Bytes 32} {ns : List Circuit.Note}
    (h : Mirrors env poseidon2 H m L) (hkept : L.Kept) (hfree : H.Free env.poseidon poseidon2)
    (hcoins : L.coins = .genesis leaf :: ns.map .note) (asset : Fr) :
    L.unspentValue Coin.value asset = unspentValue poseidon2 ns (spentEvents m.log) asset := by
  have hgenesis : L.valueAt Coin.value 0 asset = 0 := by
    rw [Coins.Ledger.valueAt, hcoins]
    rfl
  have hnote : ∀ i : Fin ns.length, L.coins[(i : ℕ) + 1]? = some (.note ns[i]) := by
    intro i
    rw [hcoins, List.getElem?_cons_succ, List.getElem?_map, List.getElem?_eq_getElem i.2]
    rfl
  rw [Coins.Ledger.unspentValue, Finset.sum_filter, Finset.sum_apply, hcoins, List.length_cons, List.length_map,
    Finset.sum_range_succ', unspentValue]
  have hfirst : (if 0 ∉ L.spent then L.valueAt Coin.value 0 else 0) asset = 0 := by
    split
    · exact hgenesis
    · rfl
  rw [hfirst, add_zero, Finset.sum_range]
  refine Finset.sum_congr rfl fun i _ => ?_
  have hspent := (h.mem_spent_iff hkept hfree (hnote i)).trans List.contains_iff_mem.symm
  by_cases hmem : (i : ℕ) + 1 ∈ L.spent
  · rw [if_neg (not_not.2 hmem), if_pos (hspent.1 hmem)]
    rfl
  · rw [if_pos hmem, valueAt_of_coin (hnote i), Pi.single_apply, if_neg (mt hspent.2 hmem)]
    exact if_congr eq_comm rfl rfl

/-- In every run of the pool, if the proofs it accepts have a witness and nothing that is hashed for them and in its tree
collides: there are notes behind all leaves but the genesis leaf, and for every asset, what was deposited is what was
withdrawn and the value of the notes whose nullifiers are not spent. -/
theorem no_inflation {m₀ m : Machine} {ls : List Label} (hfresh : Fresh env m₀)
    (hrun : Run (SoundStep env poseidon2 H) m₀ ls m) (h : Assumes env poseidon2 H ls m) :
    ∃ ns : List Circuit.Note, (∀ n ∈ ns, n ∈ H.notes) ∧
      ((noteEvents m.log).map NoteInserted.leaf).tail = ns.map (fun n => (n.leaf poseidon2).toBytes) ∧
      ∀ asset, deposited env ls asset = withdrawn env ls asset + unspentValue poseidon2 ns (consumed ls) asset := by
  obtain ⟨txs, L, hexplained⟩ := run_explained hfresh hrun h
  have hbalance := Coins.run_balance hexplained.run
  rw [hexplained.paidIn, hexplained.paidOut] at hbalance
  have hkept := Coins.run_kept hexplained.run
  have hspent := (run_consumed hfresh (run_of_soundStep hrun)).1
  rcases hexplained.mirrors.shape with hnil | ⟨leaf, ns, hcoins, -, hnotes⟩
  · refine ⟨[], fun n hn => absurd hn List.not_mem_nil, ?_, fun asset => ?_⟩
    · rw [hexplained.mirrors.leaves, hnil]
      rfl
    · rw [hbalance, Pi.add_apply, Coins.Ledger.unspentValue, hnil]
      rfl
  · refine ⟨ns, hnotes, ?_, fun asset => ?_⟩
    · rw [hexplained.mirrors.leaves, hcoins, List.map_cons, List.tail_cons, List.map_map]
      rfl
    · rw [hbalance, Pi.add_apply, hexplained.mirrors.unspentValue_eq hkept h.free hcoins, hspent]

end Inflation

/-! ## A deposit and a transfer -/

namespace Sample

open BabyJubJub (base)

/-- A hash on the lists of the notes below: the leaf of a note is its value, of two words the second one counts. -/
def noteHash (l : List Fr) : Fr :=
  if l.length = 8 then l.getD 4 0 else if l.length = 2 then l.getD 1 0 + ((1000 : ℕ) : Fr) else 0

/-- A note of the sample token for a key. -/
def noteOf (value : U128) (owner : BabyJubJub.subgroup) (parents : Fr) : Circuit.Note :=
  ⟨⟨1, assetOf env mint, 0, 0, value.1, pubkeyOwner noteHash (ofPoint owner), psi noteHash 0, parents⟩, value.2⟩

/-- The key of the recipient. -/
def recipient : BabyJubJub.subgroup := scaled 4 base

/-- A note of 100 tokens, for the scalar 1. -/
def note : Circuit.Note := noteOf ⟨100, by norm_num⟩ base 0

/-- The memo of 40 tokens that it is spent for. -/
def memo : Circuit.Note := noteOf ⟨40, by norm_num⟩ recipient parentsHidden

/-- The change of 60 tokens. -/
def change : Circuit.Note := noteOf ⟨60, by norm_num⟩ base (packParents 1 0)

/-- What the proof of the deposit makes public, under the base point as compliance key. -/
def flat : List Fr :=
  [(base : BabyJubJub.Point).x, (base : BabyJubJub.Point).y, ((100 : ℕ) : Fr), sampleCek, ((100 : ℕ) : Fr),
    assetOf env mint] ++ Notes.encrypted noteHash sampleCek note.1.transmitted

/-- The content key of the change. -/
def changeCek : Fr := (scaled 5 base : BabyJubJub.Point).x

/-- What the proof of the transfer makes public. -/
def flatTransferred : List Fr :=
  flatTransfer (base : BabyJubJub.Point).x (base : BabyJubJub.Point).y (((1001 : ℕ) : Fr), ((209 : ℕ) : Fr),
    ((40 : ℕ) : Fr), sampleCek, sampleCek, sampleCek + noteHash [(scaled 4 recipient : BabyJubJub.Point).x],
    Notes.encrypted noteHash sampleCek memo.1.transmitted,
    ((60 : ℕ) : Fr), changeCek, Notes.encrypted noteHash changeCek change.1.transmitted)

/-- The note of the deposit as the transfer opens it, beside the genesis leaf. -/
def opening : Opening := ⟨note, 1, fun i => if i.val = 0 then ((9 : ℕ) : Fr) else 0⟩

def transferVerifier : Pubkey := beBytes 32 49

def otherVerifier : Pubkey := beBytes 32 48

/-- The sample deployment, with verifiers that accept the proofs of these two and one that accepts nothing. -/
def soundEnv : Env :=
  { env with
    accepts := fun key data =>
      key == verifier && data.drop (data.length - 428) == publicWitness (flat.map Fr.toBytes) ||
        key == transferVerifier && data.drop (data.length - 780) == publicWitness (flatTransferred.map Fr.toBytes) }

def initializeSound : Call × PoolInstruction :=
  (call [user, poolKey, programData, systemProgramId],
    .initializePool (base : BabyJubJub.Point).x.toBytes (base : BabyJubJub.Point).y.toBytes
      (fun i => if i = 0 then verifier else if i = 1 then transferVerifier else otherVerifier) (beBytes 32 9))

def depositSound : Call × PoolInstruction :=
  (call [user, poolKey, assetKey, mint, vault, userToken, splTokenId, associatedTokenProgramId, systemProgramId, verifier],
    .deposit (Bytes.zero 192) ((flat.map Fr.toBytes).drop 2) 100)

/-- The nullifier of the note at its index. -/
def nullifierSound : Bytes 32 := beBytes 32 1001

def transferSound : Call × PoolInstruction :=
  (call [user, poolKey, nullifierKey nullifierSound, systemProgramId, transferVerifier],
    .transfer (Bytes.zero 192) (nullifierSound :: (flatTransferred.map Fr.toBytes).drop 4) 1)

/-- The steps that set the pool up, deposit a note and transfer a part of it. -/
def steps : List (Call × PoolInstruction) := [initializeSound, depositSound, transferSound]

def labels : List Label := steps.map fun c => .success c.1 c.2

/-- The genesis leaf and the leaves of the notes. -/
def leaves : List Fr := [((9 : ℕ) : Fr), ((100 : ℕ) : Fr), ((40 : ℕ) : Fr), ((60 : ℕ) : Fr)]

/-! ### The witnesses -/

theorem coe_scaled_base (x : Fr) : (scaled x base : BabyJubJub.Point) = x.val • BabyJubJub.base8 := by
  rw [scaled, BabyJubJub.coe_natCast_smul]
  rfl

/-- The shared keys of the mints are even, and the recipient has an owner. -/
theorem computed_keys : isEvenY (ofPoint (scaled 4 base)) ∧ isEvenY (ofPoint (scaled 5 base)) ∧
    pubkeyOwner noteHash (ofPoint recipient) ≠ 0 := by
  have hval : (4 : Fr).val = 4 ∧ (5 : Fr).val = 5 := by decide
  rw [recipient, isEvenY_iff, isEvenY_iff, coe_scaled_base, coe_scaled_base, hval.1, hval.2]
  decide +kernel

theorem validScalar_four : Notes.ValidScalar 4 := ⟨by decide, by decide⟩

theorem validScalar_five : Notes.ValidScalar 5 := ⟨by decide, by decide⟩

theorem mintable {value : U128} {owner : BabyJubJub.subgroup} {parents eph : Fr} (hscalar : Notes.ValidScalar eph)
    (howner : pubkeyOwner noteHash (ofPoint owner) ≠ 0) (heven : isEvenY (ofPoint (scaled eph base))) :
    Mintable noteHash (noteOf value owner parents) eph base where
  scalar := hscalar
  owner := howner
  noteVersion := rfl
  noteType := Or.inl rfl
  conditionsHash := rfl
  assetId := by
    exact lt_of_lt_of_eq (assetOf_lt env mint) (by norm_num)
  psi := rfl
  even := heven

theorem owner_base : pubkeyOwner noteHash (ofPoint base) ≠ 0 := by decide

theorem leaf_noteOf (value : U128) (owner : BabyJubJub.subgroup) (parents : Fr) :
    (noteOf value owner parents).leaf noteHash = (value.1 : Fr) := rfl

/-- The circuit accepts the deposit. -/
theorem flat_deposit : (Witness.deposit ⟨note, 4⟩).flat soundEnv.poseidon noteHash (base : BabyJubJub.Point).x
    (base : BabyJubJub.Point).y = some flat := by
  have hkey : assertValidCompliancePk (ofPoint base) = some () :=
    assertValidCompliancePk_ofPoint BabyJubJub.base_ne_zero
  have hmint := (mintable validScalar_four owner_base computed_keys.1 : Mintable noteHash note 4 base).selfMint
  have hmain : depositMain noteHash (base : BabyJubJub.Point).x (base : BabyJubJub.Point).y note 4 =
      some (((100 : ℕ) : Fr), sampleCek, ((100 : ℕ) : Fr), assetOf env mint,
        Notes.encrypted noteHash sampleCek note.1.transmitted) := by
    unfold depositMain
    refine (bind_of_some hkey _).trans ?_
    refine (bind_guard rfl _).trans ?_
    exact bind_of_some hmint _
  unfold Witness.flat
  dsimp only
  rw [hmain]
  rfl

/-- The note is spent by its owner, below the root of the two leaves. -/
theorem verifySpend_note : verifySpend soundEnv.poseidon noteHash opening.note 1 opening.index opening.path =
    some (((1001 : ℕ) : Fr), ((209 : ℕ) : Fr)) := by
  have hone : (1 : Fr).val = 1 := by decide
  have hscalar : assertSubgroupScalar 1 = some () := assertSubgroupScalar_eq_some.2 ⟨by decide, by decide⟩
  have hpublic : derivePublicKey 1 = some (ofPoint base) := by
    rw [derivePublicKey_eq (by rw [hone]; norm_num), hone, one_nsmul]
    rfl
  have hasset : assertAssetId note.1.assetId = some () := guard_eq_some.2 (assetOf_lt env mint)
  have hroot : leanImtInclusionProof soundEnv.poseidon (note.leaf noteHash) opening.index opening.path =
      some ((209 : ℕ) : Fr) := by
    show leanImtInclusionProof soundEnv.poseidon ((100 : ℕ) : Fr) opening.index opening.path = _
    decide
  have howner : note.1.owner = pubkeyOwner noteHash (ofPoint base) := rfl
  unfold verifySpend spendMembershipNullifier
  refine (bind_of_some hscalar _).trans ((bind_of_some hpublic _).trans ((bind_guard howner _).trans ?_))
  refine (bind_guard rfl _).trans ((bind_guard rfl _).trans ((bind_of_some hasset _).trans ?_))
  refine (bind_of_some hroot _).trans ?_
  have hnf : nullifier noteHash opening.note.1.psi opening.index = ((1001 : ℕ) : Fr) := by decide
  rw [hnf]

/-- The circuit accepts the transfer. -/
theorem flat_transfer : (Witness.transfer opening 1 (ofPoint recipient) (ofPoint recipient) ⟨memo, 4⟩ ⟨change, 5⟩).flat
    soundEnv.poseidon noteHash (base : BabyJubJub.Point).x (base : BabyJubJub.Point).y = some flatTransferred := by
  have hne : recipient ≠ 0 := smul_ne_zero (by decide) BabyJubJub.base_ne_zero
  have hchange : ChangeOf note change 1 memo.1.value := ⟨rfl, rfl, by decide, rfl⟩
  have hscalars : (4 : Fr) ≠ 5 := by decide
  have hmemo : Mintable noteHash memo 4 base := mintable validScalar_four computed_keys.2.2 computed_keys.1
  have hself : Mintable noteHash change 5 base := mintable validScalar_five owner_base computed_keys.2.1
  have hmain := @transferMain_eq soundEnv.poseidon noteHash base opening.note change 1 opening.index 5 opening.path
    BabyJubJub.base_ne_zero recipient hne computed_keys.1 memo 4 rfl rfl rfl rfl hchange _ _ verifySpend_note hscalars hmemo
    hself
  unfold Witness.flat
  dsimp only
  refine (congrArg (Option.map _) hmain).trans ?_
  have hleaf : (mintedOf noteHash memo 4 base).leaf = ((40 : ℕ) : Fr) := leaf_noteOf _ _ _
  have hleaf' : (mintedOf noteHash change 5 base).leaf = ((60 : ℕ) : Fr) := leaf_noteOf _ _ _
  rw [hleaf, hleaf']
  rfl

/-! ### What is hashed -/

/-- What is hashed: the notes, and the nodes of the trees over the first leaves. -/
def nodes : List (Fr × Fr × ℕ) :=
  [(((9 : ℕ) : Fr), ((100 : ℕ) : Fr), 0), (((40 : ℕ) : Fr), ((60 : ℕ) : Fr), 0),
    (((209 : ℕ) : Fr), ((40 : ℕ) : Fr), 1), (((209 : ℕ) : Fr), ((160 : ℕ) : Fr), 1)]

def hashed : Hashed := ⟨{n | n ∈ [note, memo, change]}, {q | q ∈ nodes}⟩

theorem covers_deposit : hashed.Covers soundEnv.poseidon noteHash (.deposit ⟨note, 4⟩) where
  opened o ho := absurd ho List.not_mem_nil
  paths o ho := absurd ho List.not_mem_nil
  minted n hn := by
    rw [List.mem_singleton.1 (show n ∈ [note] from hn)]
    exact List.mem_cons_self

theorem covers_transfer : hashed.Covers soundEnv.poseidon noteHash
    (.transfer opening 1 (ofPoint recipient) (ofPoint recipient) ⟨memo, 4⟩ ⟨change, 5⟩) where
  opened o ho := by
    rw [List.mem_singleton.1 (show o ∈ [opening] from ho)]
    exact List.mem_cons_self
  paths o ho := by
    rw [List.mem_singleton.1 (show o ∈ [opening] from ho)]
    rintro q ⟨level, hlevel, hsibling, c, hc, rfl⟩
    -- the only sibling is the genesis leaf
    have hzero : level = 0 := by
      by_contra hne
      refine hsibling ?_
      have hlt : level < Circuit.treeDepth := hlevel
      rw [siblingAt, dif_pos hlt]
      exact if_neg hne
    subst hzero
    cases hc
    exact List.mem_cons_self
  minted n hn := List.mem_cons_of_mem _ hn

/-- What a verifier of the sample accepts has a witness. -/
theorem witnessed_of_accepts {key : Pubkey} {data : List UInt8} (h : soundEnv.accepts key data) :
    key = verifier ∧ Witnessed soundEnv noteHash hashed 0 data ∨
      key = transferVerifier ∧ Witnessed soundEnv noteHash hashed 1 data := by
  have hor : (key == verifier && data.drop (data.length - 428) == publicWitness (flat.map Fr.toBytes) ||
      key == transferVerifier && data.drop (data.length - 780) == publicWitness (flatTransferred.map Fr.toBytes)) =
        true := h
  rw [Bool.or_eq_true, Bool.and_eq_true, Bool.and_eq_true] at hor
  rcases hor with ⟨hkey, hdata⟩ | ⟨hkey, hdata⟩
  · refine Or.inl ⟨eq_of_beq hkey, data.take (data.length - 428), _, _, flat, _, ?_, flat_deposit, rfl, covers_deposit⟩
    rw [← eq_of_beq hdata, List.take_append_drop]
  · refine Or.inr ⟨eq_of_beq hkey, data.take (data.length - 780), _, _, flatTransferred, _, ?_, flat_transfer, rfl,
      covers_transfer⟩
    rw [← eq_of_beq hdata, List.take_append_drop]

theorem noteHash_nullifier (psi i : Fr) : noteHash [psi, i] = i + ((1000 : ℕ) : Fr) := by
  have hlength : [psi, i].length = 2 := rfl
  rw [noteHash, if_neg (by simp), if_pos hlength]
  rfl

/-- The notes are known by their values. -/
theorem mem_notes {n : Circuit.Note} (h : n ∈ hashed.notes) :
    n = note ∧ n.leaf noteHash = ((100 : ℕ) : Fr) ∨ n = memo ∧ n.leaf noteHash = ((40 : ℕ) : Fr) ∨
      n = change ∧ n.leaf noteHash = ((60 : ℕ) : Fr) := by
  have hlist : n ∈ [note, memo, change] := h
  simp only [List.mem_cons, List.not_mem_nil, or_false] at hlist
  rcases hlist with rfl | rfl | rfl
  · exact Or.inl ⟨rfl, leaf_noteOf _ _ _⟩
  · exact Or.inr (Or.inl ⟨rfl, leaf_noteOf _ _ _⟩)
  · exact Or.inr (Or.inr ⟨rfl, leaf_noteOf _ _ _⟩)

theorem eq_of_leaf {n n' : Circuit.Note} (h : n ∈ hashed.notes) (h' : n' ∈ hashed.notes)
    (heq : n.leaf noteHash = n'.leaf noteHash) : n = n' := by
  have hne : ((100 : ℕ) : Fr) ≠ ((40 : ℕ) : Fr) ∧ ((100 : ℕ) : Fr) ≠ ((60 : ℕ) : Fr) ∧
      ((40 : ℕ) : Fr) ≠ ((60 : ℕ) : Fr) := by decide
  rcases mem_notes h with ⟨rfl, hl⟩ | ⟨rfl, hl⟩ | ⟨rfl, hl⟩ <;>
    rcases mem_notes h' with ⟨rfl, hl'⟩ | ⟨rfl, hl'⟩ | ⟨rfl, hl'⟩ <;> have heq' := hl.symm.trans (heq.trans hl')
  · rfl
  · exact absurd heq' hne.1
  · exact absurd heq' hne.2.1
  · exact absurd heq'.symm hne.1
  · rfl
  · exact absurd heq' hne.2.2
  · exact absurd heq'.symm hne.2.1
  · exact absurd heq'.symm hne.2.2
  · rfl

/-- A leaf is no nullifier. -/
theorem leaf_ne_nullifier {n : Circuit.Note} (h : n ∈ hashed.notes) {i : ℕ} (hi : i < 2 ^ 32) :
    n.leaf noteHash ≠ ((i : ℕ) : Fr) + ((1000 : ℕ) : Fr) := by
  have hlt : i + 1000 < bn254ScalarFieldModulus := lt_trans (by omega : i + 1000 < 2 ^ 128) two_pow_128_lt_modulus
  have hval : (((i : ℕ) : Fr) + ((1000 : ℕ) : Fr)).val = i + 1000 := by
    rw [← Nat.cast_add, val_natCast_of_lt hlt]
  have hsmall : (n.leaf noteHash).val < 1000 := by
    rcases mem_notes h with ⟨-, hl⟩ | ⟨-, hl⟩ | ⟨-, hl⟩ <;> rw [hl] <;> decide
  intro heq
  rw [heq, hval] at hsmall
  omega

/-- Nothing that is hashed in the sample run collides. -/
theorem free_hashed : hashed.Free soundEnv.poseidon noteHash where
  lists := by
    rintro l ⟨n, hn, hl⟩ l' ⟨n', hn', hl'⟩ heq
    rcases hl with rfl | ⟨i, hi, rfl⟩ <;> rcases hl' with rfl | ⟨j, hj, rfl⟩
    · rw [eq_of_leaf hn hn' heq]
    · rw [noteHash_nullifier] at heq
      exact absurd heq (leaf_ne_nullifier hn hj)
    · rw [noteHash_nullifier] at heq
      exact absurd heq.symm (leaf_ne_nullifier hn' hi)
    · rw [noteHash_nullifier, noteHash_nullifier] at heq
      have hpsi : ∀ n ∈ hashed.notes, n.1.psi = psi noteHash 0 := by
        intro n hn
        rcases mem_notes hn with ⟨rfl, -⟩ | ⟨rfl, -⟩ | ⟨rfl, -⟩ <;> rfl
      rw [add_right_cancel heq, hpsi n hn, hpsi n' hn']
  nodes := by
    have hnodup : (nodes.map (nodeOf soundEnv.poseidon)).Nodup := by decide
    exact fun q hq q' hq' heq => List.inj_on_of_nodup_map hnodup hq hq' heq
  leaves n hn q hq := by
    have hall : ∀ v ∈ [100, 40, 60], ((v : ℕ) : Fr) ∉ nodes.map (nodeOf soundEnv.poseidon) := by decide
    intro heq
    have hmem : n.leaf noteHash ∈ nodes.map (nodeOf soundEnv.poseidon) := heq ▸ List.mem_map_of_mem hq
    rcases mem_notes hn with ⟨-, hl⟩ | ⟨-, hl⟩ | ⟨-, hl⟩ <;> rw [hl] at hmem
    · exact hall 100 (by simp) hmem
    · exact hall 40 (by simp) hmem
    · exact hall 60 (by simp) hmem

/-- The nodes of the trees over the first leaves. -/
theorem treeQueries_leaves (k : ℕ) : treeQueries (nodeHash soundEnv.poseidon) 0 (leaves.take k) ⊆ hashed.nodes := by
  rintro q ⟨level, j, hlt, rfl⟩
  have hlength : (leaves.take k).length = min k 4 := List.length_take
  have hpow : 1 ≤ 2 ^ level := Nat.one_le_two_pow
  have hbound : (2 * j + 1) * 2 ^ level < 4 := by omega
  have hlevel : level < 2 := by
    by_contra hge
    have hfour : 2 ^ 2 ≤ 2 ^ level := Nat.pow_le_pow_right (by norm_num) (not_lt.1 hge)
    nlinarith
  have hj : j < 2 := by
    by_contra hge
    nlinarith
  have htake : leaves.take k = leaves.take (min k 4) := by
    rw [List.take_eq_take_min]
    rfl
  have hk : min k 4 ≤ 4 := min_le_right _ _
  rw [hlength] at hlt
  rw [htake]
  generalize min k 4 = k' at hlt hk
  show _ ∈ nodes
  interval_cases level <;> interval_cases j <;> interval_cases k' <;> first | omega | decide

/-- Nothing that is hashed in the run collides. -/
theorem assumes {m : Machine} (hleaves : (noteEvents m.log).map NoteInserted.leaf = leaves.map Fr.toBytes) :
    Assumes soundEnv noteHash hashed labels m where
  free := free_hashed
  genesis := by
    intro l hl leaf hleaf
    simp only [labels, steps, List.map_cons, List.map_nil, List.mem_cons, List.not_mem_nil, or_false] at hl
    rcases hl with rfl | rfl | rfl
    · cases hleaf
      refine ⟨fun n hn => ?_, fun q hq => ?_⟩
      · rcases mem_notes hn with ⟨-, hl⟩ | ⟨-, hl⟩ | ⟨-, hl⟩ <;> rw [hl] <;> decide
      · have hall : beBytes 32 9 ∉ nodes.map fun q => (nodeOf soundEnv.poseidon q).toBytes := by decide
        exact fun heq => hall (heq ▸ List.mem_map_of_mem hq)
    · cases hleaf
    · cases hleaf
  tree k := by
    rw [hleaves, ← List.map_take, filterMap_ofBytes?_toBytes]
    exact treeQueries_leaves k

/-! ### The run -/

theorem mem_note : note ∈ hashed.notes ∧ memo ∈ hashed.notes ∧ change ∈ hashed.notes :=
  ⟨List.mem_cons_self, List.mem_cons_of_mem _ List.mem_cons_self,
    List.mem_cons_of_mem _ (List.mem_cons_of_mem _ List.mem_cons_self)⟩

/-- The notes behind the leaves of the run are the three of them. -/
theorem eq_notes {m : Machine} {ns : List Circuit.Note}
    (hleaves : (noteEvents m.log).map NoteInserted.leaf = leaves.map Fr.toBytes)
    (hnotes : ∀ n ∈ ns, n ∈ hashed.notes)
    (htail : ((noteEvents m.log).map NoteInserted.leaf).tail = ns.map fun n => (n.leaf noteHash).toBytes) :
    ns = [note, memo, change] := by
  have hleaf : note.leaf noteHash = ((100 : ℕ) : Fr) ∧ memo.leaf noteHash = ((40 : ℕ) : Fr) ∧
      change.leaf noteHash = ((60 : ℕ) : Fr) := ⟨leaf_noteOf _ _ _, leaf_noteOf _ _ _, leaf_noteOf _ _ _⟩
  have heach : ∀ n n' : Circuit.Note, n ∈ ns → n' ∈ hashed.notes →
      (n'.leaf noteHash).toBytes = (n.leaf noteHash).toBytes → n = n' := fun n n' hn hn' heq =>
    eq_of_leaf (hnotes n hn) hn' (toBytes_injective heq.symm)
  rw [hleaves, leaves, List.map_cons, List.tail_cons, List.map_cons, List.map_cons, List.map_cons, List.map_nil,
    ← hleaf.1, ← hleaf.2.1, ← hleaf.2.2] at htail
  rcases ns with _ | ⟨a, _ | ⟨b, _ | ⟨c, _ | ⟨d, ns⟩⟩⟩⟩
  · exact absurd (congrArg List.length htail) (by simp)
  · exact absurd (congrArg List.length htail) (by simp)
  · exact absurd (congrArg List.length htail) (by simp)
  · obtain ⟨ha, htail⟩ := List.cons.inj htail
    obtain ⟨hb, htail⟩ := List.cons.inj htail
    obtain ⟨hc, -⟩ := List.cons.inj htail
    have hfirst := heach a note List.mem_cons_self mem_note.1 ha
    have hsecond := heach b memo (by simp) mem_note.2.1 hb
    have hthird := heach c change (by simp) mem_note.2.2 hc
    rw [hfirst, hsecond, hthird]
  · exact absurd (congrArg List.length htail) (by simp)

/-- The run sets the pool up, deposits the note and transfers a part of it. -/
theorem exists_run : ∃ m, Fresh soundEnv machine ∧
    Run (SoundStep soundEnv noteHash hashed) machine labels m ∧
    (noteEvents m.log).map NoteInserted.leaf = leaves.map Fr.toBytes := by
  have hexec : (execAll soundEnv steps machine).map (fun m => (noteEvents m.log).map NoteInserted.leaf) =
      some (leaves.map Fr.toBytes) := by
    decide +kernel
  obtain ⟨m, hm, hleaves⟩ := Option.map_eq_some_iff.1 hexec
  have hadmissible : ∀ c ∈ steps, c.1.Admissible soundEnv := by
    intro c hc
    simp only [steps, List.mem_cons, List.not_mem_nil, or_false] at hc
    rcases hc with rfl | rfl | rfl
    · exact admissible _
    · exact admissible _
    · exact admissible _
  have hfresh : Fresh soundEnv machine := ⟨fresh.derived, fresh.zero, rfl⟩
  refine ⟨m, hfresh, run_sound hfresh (run_of_execAll hadmissible hm) ?_, hleaves⟩
  intro l hl id key hregisters call ix _ s _ _ pool proof haccepts
  simp only [labels, steps, List.map_cons, List.map_nil, List.mem_cons, List.not_mem_nil, or_false] at hl
  rcases hl with rfl | rfl | rfl
  · obtain ⟨hlt, rfl⟩ := hregisters
    have hother : otherVerifier ≠ verifier ∧ otherVerifier ≠ transferVerifier := by decide
    have hne : verifier ≠ transferVerifier := by decide
    have hid : id.toNat = 0 → id = 0 := fun h => UInt8.toNat_inj.1 h
    have hid' : id.toNat = 1 → id = 1 := fun h => UInt8.toNat_inj.1 h
    dsimp only at haccepts
    split at haccepts
    · rename_i hzero
      rw [hid (Fin.mk.injEq .. ▸ hzero)]
      exact ((witnessed_of_accepts haccepts).resolve_right fun h => hne h.1).2
    · split at haccepts
      · rename_i hone
        rw [hid' (Fin.mk.injEq .. ▸ hone)]
        exact ((witnessed_of_accepts haccepts).resolve_left fun h => hne h.1.symm).2
      · exact ((witnessed_of_accepts haccepts).elim (fun h => hother.1 h.1) fun h => hother.2 h.1).elim
  · exact hregisters.elim
  · exact hregisters.elim

theorem consumed_labels : consumed labels = [nullifierSound] := rfl

/-- A deposit of 100 tokens, of which 40 are transferred: with the nullifier of the note spent, the memo and the change
are worth what was deposited. -/
theorem no_inflation_sample : ∃ m, Run (SoundStep soundEnv noteHash hashed) machine labels m ∧
    consumed labels = [nullifierSound] ∧ deposited soundEnv labels (assetOf env mint) = 100 ∧
    unspentValue noteHash [note, memo, change] [nullifierSound] (assetOf env mint) = 100 := by
  obtain ⟨m, hfresh, hrun, hleaves⟩ := exists_run
  obtain ⟨ns, hnotes, htail, hbalance⟩ := no_inflation hfresh hrun (assumes hleaves)
  have hin : deposited soundEnv labels (assetOf env mint) = 100 := by decide +kernel
  have hout : withdrawn soundEnv labels (assetOf env mint) = 0 := rfl
  have hvalue := hbalance (assetOf env mint)
  rw [hin, hout, Nat.zero_add, eq_notes hleaves hnotes htail, consumed_labels] at hvalue
  exact ⟨m, hrun, consumed_labels, hin, hvalue.symm⟩

end Sample
end Kakure
