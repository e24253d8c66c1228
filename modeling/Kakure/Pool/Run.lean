import Kakure.Lib.Runs
import Kakure.Pool.Effects

/-!
# Runs of the deployed program

A run interleaves calls of the program, with any accounts and any data, with whatever
other transactions do to the ledger.  The runtime's rules are those of Solana: no one
signs for a derived address, only the program writes the data of its accounts, and a
failing instruction leaves no trace.

* `Step` — the step relation, and `Fresh`, the states before the first call;
* `run_keeps_owner`, `run_keeps_data` — what the program owns it owns for good, and except
  for the pool its data never changes;
* `Kept` and `run_kept` — every account of the program is the pool, a registry entry, a
  spent nullifier or somebody's zero-filled account;
* `run_of_execAll` and `Sample` — instructions that all succeed are a run, and a
  deployment on which they can be evaluated.
-/

namespace Kakure

open Slices Guarded Runs

/-! ## Steps -/

/-- No one signs for an address of the program. -/
def Call.Admissible (env : Env) (call : Call) : Prop :=
  ∀ key, env.IsPda key → call.isSigner key = false

/-- What other transactions can do to the ledger: anyone can create a zero-filled account of the
program at an address that is not derived, and lamports can be sent anywhere. -/
structure Outside (env : Env) (L L' : Ledger) : Prop where
  owned : ∀ k, (L k).owner = env.programId → (L' k).owner = env.programId ∧ (L' k).data = (L k).data
  created : ∀ k, (L k).owner ≠ env.programId → (L' k).owner = env.programId →
    ¬ env.IsPda k ∧ ∃ size, (L' k).data = List.replicate size 0
  derived : ∀ k, env.IsPda k → (L k).owner = systemProgramId → (L k).data = [] →
    (L' k).owner = systemProgramId ∧ (L' k).data = []

/-- The steps of a run: a call of the program that succeeds or fails, or something else. -/
inductive Label where
  | success (call : Call) (ix : PoolInstruction)
  | failure (call : Call) (ix : PoolInstruction)
  | outside

inductive Step (env : Env) : Machine → Label → Machine → Prop
  | success {call : Call} {ix : PoolInstruction} {m m' : Machine} (hcall : call.Admissible env)
      (h : process env call ix m = .ok ((), m')) : Step env m (.success call ix) m'
  | failure {call : Call} {ix : PoolInstruction} {e : ProgramError} {m : Machine}
      (hcall : call.Admissible env) (h : process env call ix m = .error e) :
      Step env m (.failure call ix) m
  | outside {m : Machine} {L : Ledger} (h : Outside env m.ledger L) :
      Step env m .outside { m with ledger := L }

/-- Nothing has been called yet: the derived addresses hold no account, and what the program owns
somebody has created zero-filled. -/
structure Fresh (env : Env) (m : Machine) : Prop where
  derived : ∀ k, env.IsPda k → (m.ledger k).owner = systemProgramId ∧ (m.ledger k).data = []
  zero : ∀ k, (m.ledger k).owner = env.programId → ∃ size, (m.ledger k).data = List.replicate size 0
  log : m.log = []

section Invariants

variable {env : Env} {call : Call}

/-! ## What the program owns -/

/-- The real pool account's address. -/
def Env.IsPool (env : Env) (key : Pubkey) : Prop := ∃ bump, env.pda .pool = some (key, bump)

theorem Env.IsPool.eq {key key' : Pubkey} (h : env.IsPool key) (h' : env.IsPool key') :
    key = key' := by
  obtain ⟨bump, h⟩ := h
  obtain ⟨bump', h'⟩ := h'
  rw [h] at h'
  cases h'
  rfl

/-- An account of the program other than the pool it is given keeps its data in a call. -/
theorem Executed.keeps {poolKey key : Pubkey} {s : Statement} {pool pool' : Pool} {m m' : Machine}
    (h : Executed env poolKey s pool pool' m m') (hown : (m.ledger key).owner = env.programId) :
    (m'.ledger key).owner = env.programId ∧
      (key ≠ poolKey → (m'.ledger key).data = (m.ledger key).data) := by
  by_cases hpool : key = poolKey
  · subst hpool
    exact ⟨h.owner_after, fun hne => absurd rfl hne⟩
  · have hkey : key ∉ ({poolKey} ∪ nullifierKeys env s.nullifiers : Set Pubkey) := by
      rintro (hk | ⟨n, hn, bump, hkey⟩)
      · exact hpool hk
      · -- a nullifier's account was not the program's
        obtain ⟨key', bump', hkey', hfresh, -⟩ := h.fresh n hn
        rw [hkey] at hkey'
        cases hkey'
        exact hfresh hown
    obtain ⟨howner, hdata⟩ := h.same key hkey
    exact ⟨howner.trans hown, fun _ => hdata⟩

theorem Registered.keeps {assetKey mint vault key : Pubkey} {asset : Asset} {m m' : Machine}
    (h : Registered env assetKey mint vault asset m m') (hown : (m.ledger key).owner = env.programId) :
    (m'.ledger key).owner = env.programId ∧ (m'.ledger key).data = (m.ledger key).data := by
  rcases h.kept_or_created with rfl | ⟨hfresh, -⟩
  · exact ⟨hown, rfl⟩
  · have hne : key ≠ assetKey := by
      rintro rfl
      exact hfresh hown
    obtain ⟨howner, hdata⟩ := h.same key hne
    exact ⟨howner.trans hown, hdata⟩

theorem SameOwned.keeps {key : Pubkey} {L L' : Ledger} (h : SameOwned env ∅ L L')
    (hown : (L key).owner = env.programId) :
    (L' key).owner = env.programId ∧ (L' key).data = (L key).data := by
  obtain ⟨howner, hdata⟩ := h key (Set.notMem_empty key) (Or.inl hown)
  exact ⟨howner.trans hown, hdata⟩

/-- What the program owns it owns after every successful instruction, and no data changed but that
of one pool account, the real one or one with a proof against the verifiers it names. -/
theorem Effect.keeps {ix : PoolInstruction} {m m' : Machine} (h : Effect env call ix m m') :
    ∃ poolKey, (env.IsPool poolKey ∨ ∃ s pool pool' m₁, Verified env s pool ∧
        Executed env poolKey s pool pool' m m₁) ∧
      ∀ key, (m.ledger key).owner = env.programId → (m'.ledger key).owner = env.programId ∧
        (key ≠ poolKey → (m'.ledger key).data = (m.ledger key).data) := by
  cases h with
  | @initialized _ _ _ _ _ poolKey _ _ _ h =>
    refine ⟨poolKey, Or.inl h.pda, fun key hown => ?_⟩
    have hne : key ≠ poolKey := by
      rintro rfl
      exact h.owner_before hown
    obtain ⟨howner, hdata⟩ := h.same key hne
    exact ⟨howner.trans hown, fun _ => hdata⟩
  | @administered _ poolKey _ _ _ _ _ h _ _ =>
    refine ⟨poolKey, Or.inl h.pda, fun key hown => ?_⟩
    by_cases hkey : key = poolKey
    · subst hkey
      exact ⟨h.owner_after, fun hne => absurd rfl hne⟩
    · obtain ⟨howner, hdata⟩ := h.same key hkey
      exact ⟨howner.trans hown, fun _ => hdata⟩
  | @deposited _ _ _ poolKey _ _ _ _ _ _ _ _ _ _ _ _ _ _ _ _ _ _ _ hverified hexecuted hregistered
      htail _ _ =>
    refine ⟨poolKey, Or.inr ⟨_, _, _, _, hverified, hexecuted⟩, fun key hown => ?_⟩
    obtain ⟨howner₁, hdata₁⟩ := hexecuted.keeps hown
    obtain ⟨howner₂, hdata₂⟩ := hregistered.keeps howner₁
    obtain ⟨howner₃, hdata₃⟩ := htail.keeps howner₂
    exact ⟨howner₃, fun hne => hdata₃.trans (hdata₂.trans (hdata₁ hne))⟩
  | @spent _ _ poolKey _ _ _ _ _ _ _ hpda _ hexecuted htail _ _ =>
    refine ⟨poolKey, Or.inl hpda, fun key hown => ?_⟩
    obtain ⟨howner₁, hdata₁⟩ := hexecuted.keeps hown
    obtain ⟨howner₂, hdata₂⟩ := htail.keeps howner₁
    exact ⟨howner₂, fun hne => hdata₂.trans (hdata₁ hne)⟩

/-- What the program owns it owns after every step. -/
theorem Step.keeps_owner {m m' : Machine} {l : Label} (h : Step env m l m') {key : Pubkey}
    (hown : (m.ledger key).owner = env.programId) : (m'.ledger key).owner = env.programId := by
  cases h with
  | success _ h =>
    obtain ⟨_, -, hkeeps⟩ := (effect_of_process h).keeps
    exact (hkeeps key hown).1
  | failure _ _ => exact hown
  | outside h => exact (h.owned key hown).1

theorem run_keeps_owner {m m' : Machine} {ls : List Label} (h : Run (Step env) m ls m')
    {key : Pubkey} (hown : (m.ledger key).owner = env.programId) :
    (m'.ledger key).owner = env.programId :=
  h.invariant (P := fun _ m => (m.ledger key).owner = env.programId) hown
    fun _ _ _ _ _ ih hstep => hstep.keeps_owner ih

/-! ## What the program's accounts are -/

/-- A registry entry in good order: its mint hashes to the asset id of its address, and its vault is
the associated token account of the pool for this mint under a token program that owned it. -/
structure GoodEntry (env : Env) (seen : Pubkey → Pubkey → Prop) (id : Bytes 20) (asset : Asset) :
    Prop where
  mint : assetIdBytes env asset.mint = id
  assetId : asset.assetId = id
  vault : ∃ poolKey tokenProgram, env.IsPool poolKey ∧ tokenProgramSupported tokenProgram ∧
    seen asset.mint tokenProgram ∧
    env.getAssociatedTokenAddress poolKey asset.mint tokenProgram = some asset.vault

/-- What an account of the program is. -/
inductive Role (env : Env) (S : Set Seeds) (seen : Pubkey → Pubkey → Prop) (m : Machine)
    (key : Pubkey) : Prop
  | pool (pool : Pool) (hpda : env.IsPool key) (hdata : (m.ledger key).data = pool.data)
      (hhistory : History env.poseidon pool (noteEvents m.log))
  | asset (id : Bytes 20) (bump : UInt8) (asset : Asset) (hmem : .asset id ∈ S)
      (hpda : env.pda (.asset id) = some (key, bump)) (hdata : (m.ledger key).data = asset.data)
      (hentry : GoodEntry env seen id asset)
  | nullifier (n : Bytes 32) (bump : UInt8) (hmem : .nullifier n ∈ S)
      (hpda : env.pda (.nullifier n) = some (key, bump)) (hdata : (m.ledger key).data = [bump])
      (hspent : n ∈ spentEvents m.log)
  | foreign (size : ℕ) (hnot : ¬ env.IsPda key) (hdata : (m.ledger key).data = List.replicate size 0)

/-- The invariant of the runs. -/
structure Kept (env : Env) (S : Set Seeds) (seen : Pubkey → Pubkey → Prop) (m : Machine) : Prop where
  role : ∀ key, (m.ledger key).owner = env.programId → Role env S seen m key
  quiet : (∀ key, env.IsPool key → (m.ledger key).owner ≠ env.programId) → noteEvents m.log = []

variable {S : Set Seeds} {seen : Pubkey → Pubkey → Prop}

theorem Role.mono {S' : Set Seeds} {seen' : Pubkey → Pubkey → Prop} {m : Machine} {key : Pubkey}
    (h : Role env S seen m key) (hS : S ⊆ S') (hseen : ∀ mint program, seen mint program →
      seen' mint program) : Role env S' seen' m key := by
  cases h with
  | pool pool hpda hdata hhistory => exact .pool pool hpda hdata hhistory
  | asset id bump asset hmem hpda hdata hentry =>
    obtain ⟨poolKey, tokenProgram, hpool, hsupported, howned, hata⟩ := hentry.vault
    exact .asset id bump asset (hS hmem) hpda hdata ⟨hentry.mint, hentry.assetId,
      ⟨poolKey, tokenProgram, hpool, hsupported, hseen _ _ howned, hata⟩⟩
  | nullifier n bump hmem hpda hdata hspent => exact .nullifier n bump (hS hmem) hpda hdata hspent
  | foreign size hnot hdata => exact .foreign size hnot hdata

theorem Kept.mono {S' : Set Seeds} {seen' : Pubkey → Pubkey → Prop} {m : Machine}
    (h : Kept env S seen m) (hS : S ⊆ S') (hseen : ∀ mint program, seen mint program →
      seen' mint program) : Kept env S' seen' m :=
  ⟨fun key hown => (h.role key hown).mono hS hseen, h.quiet⟩

/-- An account that a step leaves alone keeps its role, unless it is the pool and notes were
inserted. -/
theorem Role.transfer {m m' : Machine} {key : Pubkey} (h : Role env S seen m key)
    (hdata : (m'.ledger key).data = (m.ledger key).data)
    (hspent : ∀ n ∈ spentEvents m.log, n ∈ spentEvents m'.log)
    (hnotes : env.IsPool key → noteEvents m'.log = noteEvents m.log) : Role env S seen m' key := by
  cases h with
  | pool pool hpda hdata' hhistory =>
    exact .pool pool hpda (hdata.trans hdata') (by rwa [hnotes hpda])
  | asset id bump asset hmem hpda hdata' hentry =>
    exact .asset id bump asset hmem hpda (hdata.trans hdata') hentry
  | nullifier n bump hmem hpda hdata' hn =>
    exact .nullifier n bump hmem hpda (hdata.trans hdata') (hspent n hn)
  | foreign size hnot hdata' => exact .foreign size hnot (hdata.trans hdata')

theorem fresh_kept {m : Machine} (h : Fresh env m) : Kept env S seen m where
  role key hown := by
    have hnot : ¬ env.IsPda key := fun hpda =>
      env.programId_ne_system (hown.symm.trans (h.derived key hpda).1)
    obtain ⟨size, hsize⟩ := h.zero key hown
    exact .foreign size hnot hsize
  quiet _ := by rw [h.log]; rfl

/-- An account of the pool's length is the real pool or somebody's zero-filled account: the others
are shorter. -/
theorem Role.pool_or_empty {m : Machine} {key : Pubkey} {pool : Pool} (h : Role env S seen m key)
    (hdata : pool.data = (m.ledger key).data) :
    (env.IsPool key ∧ History env.poseidon pool (noteEvents m.log)) ∨
      (¬ env.IsPda key ∧ pool = Pool.empty) := by
  have hlen : (m.ledger key).data.length = poolLen := by rw [← hdata, pool.length_data]
  have heq : ∀ pool' : Pool, (m.ledger key).data = pool'.data → pool' = pool := by
    intro pool' hdata'
    cases pool
    cases pool'
    cases hdata.trans hdata'
    rfl
  cases h with
  | pool pool' hpda hdata' hhistory => exact Or.inl ⟨hpda, heq pool' hdata' ▸ hhistory⟩
  | asset id bump asset _ _ hdata' _ =>
    rw [hdata', asset.length_data] at hlen
    exact absurd hlen (by decide)
  | nullifier n bump _ _ hdata' _ =>
    rw [hdata', List.length_singleton] at hlen
    exact absurd hlen (by decide)
  | foreign size hnot hdata' =>
    rw [hdata', List.length_replicate] at hlen
    subst hlen
    exact Or.inr ⟨hnot, (heq Pool.empty hdata').symm⟩

/-- A fresh account names no verifier. -/
theorem not_verified_empty {s : Statement} : ¬ Verified env s Pool.empty := by
  intro h
  obtain ⟨key, proof, hverifier, hset, -⟩ := h.accepted
  unfold Pool.verifier at hverifier
  split at hverifier
  · cases hverifier
  · rw [Pool.get_empty, Except.ok.injEq] at hverifier
    exact hset hverifier.symm

/-- A pool account whose verifiers accept a proof is the real one. -/
theorem Kept.isPool {s : Statement} {poolKey : Pubkey} {pool pool' : Pool} {m m₁ : Machine}
    (h : Kept env S seen m) (hverified : Verified env s pool)
    (hexecuted : Executed env poolKey s pool pool' m m₁) :
    env.IsPool poolKey ∧ History env.poseidon pool (noteEvents m.log) := by
  rcases (h.role poolKey hexecuted.owner_before).pool_or_empty hexecuted.pool_before with
    hreal | ⟨-, rfl⟩
  · exact hreal
  · exact absurd hverified not_verified_empty

/-- The real pool account has the log's inserts as its history. -/
theorem Kept.history {poolKey : Pubkey} {pool : Pool} {m : Machine} (h : Kept env S seen m)
    (hpool : env.IsPool poolKey) (hown : (m.ledger poolKey).owner = env.programId)
    (hdata : pool.data = (m.ledger poolKey).data) :
    History env.poseidon pool (noteEvents m.log) := by
  rcases (h.role poolKey hown).pool_or_empty hdata with ⟨-, hhistory⟩ | ⟨hnot, -⟩
  · exact hhistory
  · obtain ⟨bump, hpda⟩ := hpool
    exact absurd (isPda_of_pda env hpda) hnot

/-! ## The invariant is kept -/

/-- The addresses an instruction derives. -/
def PoolInstruction.seeds (env : Env) (call : Call) : PoolInstruction → Set Seeds
  | .deposit _ _ _ => {s | ∃ mint, call.accounts[3]? = some mint ∧ s = .asset (assetIdBytes env mint)}
  | ix => {s | ∃ st, ix.statement = some st ∧ ∃ n ∈ st.nullifiers, s = .nullifier n}

/-- The addresses a successful step derives besides the pool's. -/
def Label.seeds (env : Env) : Label → Set Seeds
  | .success call ix => ix.seeds env call
  | _ => ∅

/-- The roles after the execution of a proven statement on the real pool. -/
theorem Kept.executed {s : Statement} {poolKey : Pubkey} {pool pool' : Pool} {m m' : Machine}
    (h : Kept env S seen m) (hpool : env.IsPool poolKey)
    (hhistory : History env.poseidon pool (noteEvents m.log))
    (hexecuted : Executed env poolKey s pool pool' m m') (hS : ∀ n ∈ s.nullifiers, .nullifier n ∈ S) :
    Kept env S seen m' := by
  obtain ⟨evs, hgrows, -, hnotes⟩ := hexecuted.inserted
  refine ⟨fun key hown => ?_, fun hnone => absurd hexecuted.owner_after (hnone poolKey hpool)⟩
  by_cases hkey : key = poolKey
  · subst hkey
    exact .pool pool' hpool hexecuted.pool_after (hnotes ▸ hhistory.grow hgrows)
  by_cases hnull : key ∈ nullifierKeys env s.nullifiers
  · obtain ⟨n, hn, bump, hpda⟩ := hnull
    obtain ⟨key', bump', hpda', -, -, -, hdata⟩ := hexecuted.fresh n hn
    rw [hpda] at hpda'
    cases hpda'
    refine .nullifier n bump (hS n hn) hpda hdata ?_
    rw [hexecuted.spent]
    exact List.mem_append_right _ hn
  · have hother : key ∉ ({poolKey} ∪ nullifierKeys env s.nullifiers : Set Pubkey) := by
      rintro (hk | hk)
      · exact hkey hk
      · exact hnull hk
    obtain ⟨howner, hdata⟩ := hexecuted.same key hother
    refine (h.role key (howner.symm.trans hown)).transfer hdata (fun n hn => ?_)
      fun hpool' => absurd (hpool'.eq hpool) hkey
    rw [hexecuted.spent]
    exact List.mem_append_left _ hn

/-- A change of accounts the program does not own, without a log entry, keeps the invariant. -/
theorem Kept.tail {m m' : Machine} (h : Kept env S seen m)
    (hsame : SameOwned env ∅ m.ledger m'.ledger) (hlog : m'.log = m.log) : Kept env S seen m' := by
  refine ⟨fun key hown => ?_, fun hnone => ?_⟩
  · obtain ⟨howner, hdata⟩ := hsame key (Set.notMem_empty key) (Or.inr hown)
    exact (h.role key (howner.symm.trans hown)).transfer hdata (fun n hn => by rwa [hlog])
      fun _ => by rw [hlog]
  · rw [hlog]
    exact h.quiet fun key hpool hown => hnone key hpool (hsame.keeps hown).1

/-- The registry keeps its entries and adds good ones. -/
theorem Kept.registered {poolKey assetKey mint vault tokenProgram : Pubkey} {assetBump : UInt8}
    {asset : Asset} {m m' : Machine} (h : Kept env S seen m) (hpool : env.IsPool poolKey)
    (hsupported : tokenProgramSupported tokenProgram) (hseen : seen mint tokenProgram)
    (hpda : env.pda (.asset (assetIdBytes env mint)) = some (assetKey, assetBump))
    (hata : env.getAssociatedTokenAddress poolKey mint tokenProgram = some vault)
    (hregistered : Registered env assetKey mint vault asset m m')
    (hS : .asset (assetIdBytes env mint) ∈ S) : Kept env S seen m' := by
  obtain ⟨hentry, rfl, rfl, hlog, hsame, hcases⟩ := hregistered
  rcases hcases with rfl | ⟨hfresh, -, -, hid⟩
  · exact h
  refine ⟨fun key hown => ?_, fun hnone => ?_⟩
  · by_cases hkey : key = assetKey
    · subst hkey
      exact .asset _ assetBump asset hS hpda hentry
        ⟨rfl, hid, poolKey, tokenProgram, hpool, hsupported, hseen, hata⟩
    · obtain ⟨howner, hdata⟩ := hsame key hkey
      exact (h.role key (howner.symm.trans hown)).transfer hdata (fun n hn => by rwa [hlog])
        fun _ => by rw [hlog]
  · rw [hlog]
    refine h.quiet fun key hpool' hown => hnone key hpool' ?_
    have hne : key ≠ assetKey := by
      rintro rfl
      exact hfresh hown
    exact (hsame key hne).1.trans hown

/-- Every step keeps the invariant. -/
theorem Kept.step {m m' : Machine} {l : Label} (h : Kept env S seen m) (hstep : Step env m l m')
    (hS : l.seeds env ⊆ S) (hseen : ∀ mint, seen mint (m.ledger mint).owner) :
    Kept env S seen m' := by
  cases hstep with
  | failure _ _ => exact h
  | @outside _ L hout =>
    refine ⟨fun key hown => ?_, fun hnone => ?_⟩
    · by_cases howner : (m.ledger key).owner = env.programId
      · exact (h.role key howner).transfer (hout.owned key howner).2 (fun _ hn => hn) fun _ => rfl
      · obtain ⟨hnot, size, hdata⟩ := hout.created key howner hown
        exact .foreign size hnot hdata
    · exact h.quiet fun key hpool hown => hnone key hpool (hout.owned key hown).1
  | @success call ix _ _ hcall hprocess =>
    cases effect_of_process hprocess with
    | @initialized _ _ _ _ _ poolKey pool _ _ hinit =>
      have hquiet : noteEvents m.log = [] := h.quiet fun key hpool =>
        hpool.eq hinit.pda ▸ hinit.owner_before
      obtain ⟨root, hlog, hhistory⟩ := hinit.history
      refine ⟨fun key hown => ?_, fun hnone => absurd hinit.owner_after (hnone _ hinit.pda)⟩
      by_cases hkey : key = poolKey
      · subst hkey
        refine .pool pool hinit.pda hinit.pool_after ?_
        rw [hlog, noteEvents_append, hquiet]
        exact hhistory
      · obtain ⟨howner, hdata⟩ := hinit.same key hkey
        refine (h.role key (howner.symm.trans hown)).transfer hdata (fun n hn => ?_)
          fun hpool => absurd (hpool.eq hinit.pda) hkey
        rw [hlog, spentEvents_append]
        exact List.mem_append_left _ hn
    | @administered _ poolKey pool pool' evs _ _ hadmin hchange hlog =>
      obtain ⟨hnotes, hspent⟩ := hchange.noteEvents
      have hnotes' : noteEvents m'.log = noteEvents m.log := by
        rw [hlog, noteEvents_append, hnotes, List.append_nil]
      refine ⟨fun key hown => ?_, fun hnone => absurd hadmin.owner_after (hnone _ hadmin.pda)⟩
      by_cases hkey : key = poolKey
      · subst hkey
        have hhistory := h.history hadmin.pda hadmin.owner_before hadmin.pool_before
        exact .pool pool' hadmin.pda hadmin.pool_after (hnotes' ▸ hhistory.congr hchange.sameTree)
      · obtain ⟨howner, hdata⟩ := hadmin.same key hkey
        refine (h.role key (howner.symm.trans hown)).transfer hdata (fun n hn => ?_) fun _ => hnotes'
        rw [hlog, spentEvents_append, hspent, List.append_nil]
        exact hn
    | @deposited proof publicInputs amount poolKey assetKey mint vault tokenProgram assetBump pool
        pool' asset _ m₁ m₂ _ hpoolKey hmint _ hsupported hmintOwner hpda hata hverified hexecuted
        hregistered htail hlog _ =>
      obtain ⟨hpool, hhistory⟩ := h.isPool hverified hexecuted
      have hkept₁ : Kept env S seen m₁ :=
        h.executed hpool hhistory hexecuted fun n hn => absurd hn List.not_mem_nil
      have hkept₂ : Kept env S seen m₂ := hkept₁.registered hpool hsupported (hmintOwner ▸ hseen mint)
        hpda hata hregistered (hS ⟨mint, hmint, rfl⟩)
      exact hkept₂.tail htail hlog
    | @spent _ s poolKey pool pool' _ m₁ _ hs hspend hpda hverified hexecuted htail hlog _ =>
      obtain ⟨hpool, hhistory⟩ := h.isPool hverified hexecuted
      refine (h.executed hpool hhistory hexecuted fun n hn => ?_).tail htail hlog
      refine hS ?_
      cases ix with
      | deposit proof publicInputs amount =>
        cases hs
        cases hspend
      | _ => exact ⟨s, hs, n, hn, rfl⟩

/-- The programs that owned an account in a state of a run. -/
def SeenOwner (env : Env) (m₀ : Machine) (ls : List Label) (key program : Pubkey) : Prop :=
  ∃ ls₁ ls₂ m₁, ls = ls₁ ++ ls₂ ∧ Run (Step env) m₀ ls₁ m₁ ∧ (m₁.ledger key).owner = program

/-- The invariant holds in every reachable state. -/
theorem run_kept {m₀ m : Machine} {ls : List Label} (hfresh : Fresh env m₀)
    (hrun : Run (Step env) m₀ ls m) (hS : ∀ l ∈ ls, l.seeds env ⊆ S) :
    Kept env S (SeenOwner env m₀ ls) m := by
  refine hrun.invariant (P := fun ls m => (∀ l ∈ ls, l.seeds env ⊆ S) →
    Kept env S (SeenOwner env m₀ ls) m) (fun _ => fresh_kept hfresh) ?_ hS
  intro ls m l m' hrun ih hstep hS
  have hkept := ih fun l' hl' => hS l' (List.mem_append_left _ hl')
  refine (hkept.mono subset_rfl ?_).step hstep (hS l (by simp)) ?_
  · rintro mint program ⟨ls₁, ls₂, m₁, rfl, hrun₁, howner⟩
    exact ⟨ls₁, ls₂ ++ [l], m₁, List.append_assoc _ _ _, hrun₁, howner⟩
  · intro mint
    exact ⟨ls, [l], m, rfl, hrun, rfl⟩

/-- An account of the program that is not the pool never changes. -/
theorem Kept.keeps_data {m m' : Machine} {l : Label} (h : Kept env S seen m)
    (hstep : Step env m l m') {key : Pubkey} (hown : (m.ledger key).owner = env.programId)
    (hne : ¬ env.IsPool key) : (m'.ledger key).data = (m.ledger key).data := by
  cases hstep with
  | failure _ _ => rfl
  | outside hout => exact (hout.owned key hown).2
  | success _ hprocess =>
    obtain ⟨poolKey, hpool, hkeeps⟩ := (effect_of_process hprocess).keeps
    refine (hkeeps key hown).2 ?_
    rintro rfl
    rcases hpool with hpool | ⟨s, pool, pool', m₁, hverified, hexecuted⟩
    · exact hne hpool
    · exact hne (h.isPool hverified hexecuted).1

/-- Nor does it in a whole run. -/
theorem run_keeps_data {m₀ m m' : Machine} {ls ks : List Label} (hfresh : Fresh env m₀)
    (hrun : Run (Step env) m₀ ls m) (hrun' : Run (Step env) m ks m') {key : Pubkey}
    (hown : (m.ledger key).owner = env.programId) (hne : ¬ env.IsPool key) :
    (m'.ledger key).data = (m.ledger key).data := by
  refine hrun'.invariant (P := fun _ m' => (m'.ledger key).data = (m.ledger key).data) rfl ?_
  intro ks₁ m₁ l m₂ hrun₁ ih hstep
  have hkept : Kept env Set.univ (SeenOwner env m₀ (ls ++ ks₁)) m₁ :=
    run_kept hfresh (hrun.append hrun₁) fun _ _ => Set.subset_univ _
  exact (hkept.keeps_data hstep (run_keeps_owner hrun₁ hown) hne).trans ih

/-! ## Runs of instructions -/

/-- Execute instructions one after the other, as long as they succeed. -/
def execAll (env : Env) : List (Call × PoolInstruction) → Machine → Option Machine
  | [], m => some m
  | (call, ix) :: calls, m =>
    match process env call ix m with
    | .ok (_, m') => execAll env calls m'
    | .error _ => none

/-- Instructions that all succeed are a run. -/
theorem run_of_execAll {calls : List (Call × PoolInstruction)} {m m' : Machine}
    (hcalls : ∀ c ∈ calls, c.1.Admissible env) (h : execAll env calls m = some m') :
    Run (Step env) m (calls.map fun c => .success c.1 c.2) m' := by
  induction calls generalizing m with
  | nil =>
    cases h
    exact Run.start
  | cons c calls ih =>
    unfold execAll at h
    split at h
    · rename_i u m₁ hprocess
      have hstep : Step env m (.success c.1 c.2) m₁ := .success (hcalls c (by simp)) hprocess
      exact (Run.single hstep).append (ih (fun c' hc' => hcalls c' (by simp [hc'])) h)
    · cases h

end Invariants

/-! ## A sample deployment -/

namespace Sample

/-- A hash for evaluating runs: its values are above all addresses named below, and those of the
program are the odd ones. -/
def hash (tag : ℕ) (d : List UInt8) : Bytes 32 :=
  beBytes 32 (2 ^ 255 + 2 * (d.foldl (fun h b => (h * 257 + b.toNat + 1) % 2 ^ 254) 1) + tag)

def programId : Pubkey := beBytes 32 7

/-- A deployment whose hashes are computable and whose verifiers accept everything. -/
def env : Env where
  programId := programId
  programId_ne_system := by decide
  programId_ne_splToken := by decide
  programId_ne_token2022 := by decide
  createProgramAddress seeds program :=
    some (hash (if program = programId then 1 else 0) (seeds.flatten ++ program.val))
  sha256 := hash 0
  poseidon l r k := if l + 2 * r + k = 0 then 1 else l + 2 * r + k
  g1Decompress b := some ⟨b.val ++ b.val, by simp⟩
  g2Decompress b := some ⟨b.val ++ b.val, by simp⟩
  accepts _ _ := true
  minimumBalance _ := 0
  transferFee _ _ _ := 0
  permanentDelegate _ := none
  tokenAccepts _ _ _ _ _ := true
  tokenAccountLen _ := 165
  newTokenAccount mint _ wallet _ := mint.val ++ wallet.val ++ List.replicate 101 0

/-- The address `find_program_address` tries first. -/
def firstAddress (seeds : List (List UInt8)) (program : Pubkey) : Pubkey :=
  hash (if program = programId then 1 else 0) ((seeds ++ [[255]]).flatten ++ program.val)

def user : Pubkey := beBytes 32 42
def mint : Pubkey := beBytes 32 43
def userToken : Pubkey := beBytes 32 44
def verifier : Pubkey := beBytes 32 45
def poolKey : Pubkey := firstAddress Seeds.pool.toList programId
def assetKey : Pubkey := firstAddress (Seeds.asset (assetIdBytes env mint)).toList programId
def programData : Pubkey := firstAddress [programId.val] bpfLoaderUpgradeableProgramId
def vault : Pubkey :=
  firstAddress [poolKey.val, splTokenId.val, mint.val] associatedTokenProgramId

/-- A second token account of the pool, which anyone can open. -/
def stray : Pubkey := beBytes 32 46

/-- An account of some other program that looks like a registry entry for the stray vault. -/
def fakeAsset : Pubkey := beBytes 32 47

/-- One user, who is the upgrade authority and has tokens of one mint. -/
def machine : Machine where
  ledger k :=
    if k = programData then
      ⟨1, bpfLoaderUpgradeableProgramId, [3, 0, 0, 0] ++ List.replicate 8 0 ++ [1] ++ user.val⟩
    else if k = mint then ⟨1, splTokenId, List.replicate 45 0 ++ [1] ++ List.replicate 36 0⟩
    else if k = userToken then
      ⟨1, splTokenId, mint.val ++ user.val ++ [200] ++ List.replicate 100 0⟩
    else if k = stray then
      ⟨1, splTokenId, mint.val ++ poolKey.val ++ [50] ++ List.replicate 100 0⟩
    else if k = fakeAsset then
      ⟨1, associatedTokenProgramId, mint.val ++ stray.val ++ List.replicate 21 0⟩
    else ⟨0, systemProgramId, []⟩
  log := []

def call (accounts : List Pubkey) : Call where
  accounts := accounts
  isSigner k := k == user
  isWritable _ := true
  epoch := 0

def initializePool (genesisLeaf : Bytes 32) : Call × PoolInstruction :=
  (call [user, poolKey, programData, systemProgramId],
    .initializePool (beBytes 32 1) (beBytes 32 2) (fun _ => verifier) genesisLeaf)

def setPaused (paused : Bool) : Call × PoolInstruction :=
  (call [user, poolKey], .setPaused paused)

def deposit : Call × PoolInstruction :=
  (call [user, poolKey, assetKey, mint, vault, userToken, splTokenId, associatedTokenProgramId,
      systemProgramId, verifier],
    .deposit (Bytes.zero 192) ([beBytes 32 11, beBytes 32 5, amountField 100, assetIdField env mint] ++
      List.replicate 7 (Bytes.zero 32)) 100)

def nullifierKey (n : Bytes 32) : Pubkey := firstAddress (Seeds.nullifier n).toList programId

/-- A spend of the nullifier 77 against the genesis root. -/
def transfer : Call × PoolInstruction :=
  (call [user, poolKey, nullifierKey (beBytes 32 77), systemProgramId, verifier],
    .transfer (Bytes.zero 192) ([beBytes 32 77] ++ List.replicate 20 (beBytes 32 5)) 0)

def withdrawInputs : List (Bytes 32) :=
  [amountField 30, recipientField env userToken, Bytes.zero 32, beBytes 32 77, assetIdField env mint,
    beBytes 32 5, beBytes 32 5] ++ List.replicate 7 (Bytes.zero 32)

/-- A withdraw of 30 tokens to the user. -/
def withdraw (asset vault : Pubkey) : Call × PoolInstruction :=
  (call [user, poolKey, nullifierKey (beBytes 32 77), asset, mint, vault, userToken, splTokenId,
      systemProgramId, verifier],
    .withdraw (Bytes.zero 192) withdrawInputs 30 0)

theorem isPda_cases {key : Pubkey} (h : env.IsPda key) : ∃ n < 2 ^ 254,
    beNat key.val = 2 ^ 255 + 2 * n + 1 := by
  obtain ⟨seeds, h⟩ := h
  have hfold : ∀ (d : List UInt8) (h₀ : ℕ), h₀ < 2 ^ 254 →
      d.foldl (fun h b => (h * 257 + b.toNat + 1) % 2 ^ 254) h₀ < 2 ^ 254 := by
    intro d
    induction d with
    | nil => exact fun _ h₀ => h₀
    | cons b d ih => exact fun _ _ => ih _ (Nat.mod_lt _ (by norm_num))
  have hkey : hash 1 (seeds.flatten ++ programId.val) = key := Option.some_inj.1 h
  have hn := hfold (seeds.flatten ++ programId.val) 1 (by norm_num)
  refine ⟨_, hn, ?_⟩
  rw [← hkey]
  refine beNat_beBytes ?_
  generalize List.foldl _ _ _ = n at hn
  norm_num at hn ⊢
  omega

theorem admissible (accounts : List Pubkey) : (call accounts).Admissible env := by
  intro key hkey
  obtain ⟨n, -, hn⟩ := isPda_cases hkey
  show (key == user) = false
  rw [beq_eq_false_iff_ne]
  rintro rfl
  have huser : beNat user.val = 42 := by decide +kernel
  omega

/-- No one has called the program in the sample state. -/
theorem fresh : Fresh env machine where
  derived k hk := by
    obtain ⟨n, -, hn⟩ := isPda_cases hk
    have hdata : beNat programData.val % 2 = 0 := by decide +kernel
    have hmint : beNat mint.val = 43 := by decide +kernel
    have htoken : beNat userToken.val = 44 := by decide +kernel
    have hstray : beNat stray.val = 46 := by decide +kernel
    have hfake : beNat fakeAsset.val = 47 := by decide +kernel
    have h₁ : k ≠ programData := by rintro rfl; omega
    have h₂ : k ≠ mint := by rintro rfl; omega
    have h₃ : k ≠ userToken := by rintro rfl; omega
    have h₄ : k ≠ stray := by rintro rfl; omega
    have h₅ : k ≠ fakeAsset := by rintro rfl; omega
    simp [machine, h₁, h₂, h₃, h₄, h₅]
  zero k hk := by
    have hnot : (machine.ledger k).owner ∈ [bpfLoaderUpgradeableProgramId, splTokenId,
        associatedTokenProgramId, systemProgramId] := by
      unfold machine
      dsimp only
      repeat' split
      all_goals simp
    rw [hk] at hnot
    exact absurd hnot (by decide)
  log := rfl

end Sample

end Kakure
