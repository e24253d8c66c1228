import Kakure.Pool.History

/-!
# The effect of an instruction on the program's own accounts

The handlers' descriptions brought to one form, the one the invariants over whole runs
are proved from.

* `SameOwned` — the frame condition on what the program owns, which token transfers and
  vault creations keep everywhere (`sameOwned_of_transferred`, `sameOwned_of_vaultOpened`);
* `Effect` and `effect_of_process` — what every successful instruction does: set up the
  pool, change it by its authority, or execute a proven statement.
-/

namespace Kakure

open Slices Guarded

variable {env : Env} {call : Call}

/-! ## Frames of the program's accounts -/

/-- Outside these accounts nothing changed of what the program owns: neither an account it had nor
one it got. -/
def SameOwned (env : Env) (keys : Set Pubkey) (L L' : Ledger) : Prop :=
  ∀ k, k ∉ keys → (L k).owner = env.programId ∨ (L' k).owner = env.programId →
    (L' k).owner = (L k).owner ∧ (L' k).data = (L k).data

theorem SameOwned.refl (keys : Set Pubkey) (L : Ledger) : SameOwned env keys L L :=
  fun _ _ _ => ⟨rfl, rfl⟩

theorem SameOwned.trans {keys : Set Pubkey} {L L' L'' : Ledger} (h : SameOwned env keys L L')
    (h' : SameOwned env keys L' L'') : SameOwned env keys L L'' := by
  intro k hk hown
  rcases hown with hown | hown
  · obtain ⟨howner, hdata⟩ := h k hk (Or.inl hown)
    obtain ⟨howner', hdata'⟩ := h' k hk (Or.inl (howner.trans hown))
    exact ⟨howner'.trans howner, hdata'.trans hdata⟩
  · obtain ⟨howner', hdata'⟩ := h' k hk (Or.inr hown)
    obtain ⟨howner, hdata⟩ := h k hk (Or.inr (howner'.symm.trans hown))
    exact ⟨howner'.trans howner, hdata'.trans hdata⟩

theorem SameOwned.mono {keys keys' : Set Pubkey} {L L' : Ledger} (h : SameOwned env keys L L')
    (hsub : keys ⊆ keys') : SameOwned env keys' L L' :=
  fun k hk hown => h k (fun hmem => hk (hsub hmem)) hown

theorem splTokenId_ne_system : splTokenId ≠ systemProgramId := by decide

theorem token2022ProgramId_ne_system : token2022ProgramId ≠ systemProgramId := by decide

/-- A supported token program is not the pool's. -/
theorem tokenProgram_ne_programId {program : Pubkey} (h : tokenProgramSupported program) :
    program ≠ env.programId := by
  rcases h with rfl | rfl
  · exact env.programId_ne_splToken.symm
  · exact env.programId_ne_token2022.symm

theorem tokenProgram_ne_system {program : Pubkey} (h : tokenProgramSupported program) :
    program ≠ systemProgramId := by
  rcases h with rfl | rfl
  · exact splTokenId_ne_system
  · exact token2022ProgramId_ne_system

/-- A token transfer touches token accounts only. -/
theorem sameOwned_of_transferred {tokenProgram source mint destination authority : Pubkey}
    {amount : ℕ} {m m' : Machine} (hsupported : tokenProgramSupported tokenProgram)
    (h : Transferred env call tokenProgram source mint destination authority amount m m') :
    SameOwned env ∅ m.ledger m'.ledger := by
  intro k _ hown
  have howner : (m.ledger k).owner = env.programId := by
    rcases hown with hown | hown
    · exact hown
    · rwa [h.owners k] at hown
  have hne : tokenProgram ≠ env.programId := tokenProgram_ne_programId hsupported
  refine h.same k ?_
  rintro (rfl | rfl)
  · exact hne (h.source_owner.symm.trans howner)
  · exact hne (h.destination_owner.symm.trans howner)

/-- Opening a vault turns an account of the system program into one of the token program. -/
theorem sameOwned_of_vaultOpened {wallet mint tokenProgram vault : Pubkey} {m m' : Machine}
    (hsupported : tokenProgramSupported tokenProgram)
    (h : VaultOpened env wallet mint tokenProgram vault m m') :
    SameOwned env ∅ m.ledger m'.ledger := by
  intro k _ hown
  by_cases hk : k = vault
  · subst hk
    rcases h.kept_or_created with ⟨rfl, -⟩ | ⟨howner, -, lamports, hnew⟩
    · exact ⟨rfl, rfl⟩
    · rcases hown with hown | hown
      · exact absurd (hown.symm.trans howner) env.programId_ne_system
      · rw [hnew] at hown
        exact absurd hown (tokenProgram_ne_programId hsupported)
  · exact h.same k hk

/-- Outside these addresses, what no one has taken stays untaken. -/
def Idle (keys : Set Pubkey) (L L' : Ledger) : Prop :=
  ∀ k, k ∉ keys → (L k).owner = systemProgramId → (L k).data = [] →
    (L' k).owner = systemProgramId ∧ (L' k).data = []

theorem SameOutside.idle {keys : Set Pubkey} {L L' : Ledger} (h : SameOutside keys L L') :
    Idle keys L L' := by
  intro k hk howner hdata
  obtain ⟨howner', hdata'⟩ := h k hk
  exact ⟨howner'.trans howner, hdata'.trans hdata⟩

theorem Idle.refl (keys : Set Pubkey) (L : Ledger) : Idle keys L L :=
  (SameOutside.refl keys L).idle

theorem Idle.trans {keys : Set Pubkey} {L L' L'' : Ledger} (h : Idle keys L L')
    (h' : Idle keys L' L'') : Idle keys L L'' := by
  intro k hk howner hdata
  obtain ⟨howner', hdata'⟩ := h k hk howner hdata
  exact h' k hk howner' hdata'

theorem Idle.mono {keys keys' : Set Pubkey} {L L' : Ledger} (h : Idle keys L L')
    (hsub : keys ⊆ keys') : Idle keys' L L' := fun k hk => h k fun hmem => hk (hsub hmem)

/-- A token transfer leaves untaken addresses alone. -/
theorem idle_of_transferred {tokenProgram source mint destination authority : Pubkey} {amount : ℕ}
    {m m' : Machine} (hsupported : tokenProgramSupported tokenProgram)
    (h : Transferred env call tokenProgram source mint destination authority amount m m') :
    Idle ∅ m.ledger m'.ledger := by
  intro k _ howner hdata
  have hk : k ∉ ({source, destination} : Set Pubkey) := by
    rintro (rfl | rfl)
    · exact tokenProgram_ne_system hsupported (h.source_owner.symm.trans howner)
    · exact tokenProgram_ne_system hsupported (h.destination_owner.symm.trans howner)
  exact h.same.idle k hk howner hdata

/-! ## Instructions -/

/-- The statement a proof-carrying instruction executes. -/
def PoolInstruction.statement : PoolInstruction → Option Statement
  | .deposit _ publicInputs _ => some (depositStatement publicInputs)
  | .transfer _ publicInputs rootIndex => some (transferStatement publicInputs rootIndex 1)
  | .transferMultisig _ publicInputs rootIndex => some (transferStatement publicInputs rootIndex 3)
  | .splitMultisig _ publicInputs rootIndex => some (splitStatement publicInputs rootIndex)
  | .joinMultisig _ publicInputs rootIndex => some (joinStatement publicInputs rootIndex)
  | .withdraw _ publicInputs _ rootIndex => some (withdrawStatement publicInputs rootIndex 2)
  | .withdrawMultisig _ publicInputs _ rootIndex => some (withdrawStatement publicInputs rootIndex 6)
  | _ => none

/-- What an administration instruction makes of the pool account, and what it logs. -/
def AdminChange : PoolInstruction → Pool → Pool → List Event → Prop
  | .setVerifier circuitId program, pool, pool', evs =>
    pool.setVerifier circuitId program = .ok pool' ∧ evs = []
  | .rotateComplianceKey x y, pool, pool', evs => pool.complianceVersion + 1 < 2 ^ 32 ∧
    pool' = (pool.setCompliancePk x y).setComplianceVersion (pool.complianceVersion + 1) ∧
    evs = [.complianceKeyRotated pool.complianceVersion (pool.complianceVersion + 1) x y]
  | .setPaused paused, pool, pool', evs => pool' = pool.setPaused paused ∧ evs = []
  | _, _, _, _ => False

/-- What a successful instruction does to the program's accounts and its log. -/
inductive Effect (env : Env) (call : Call) : PoolInstruction → Machine → Machine → Prop
  | initialized {x y : Bytes 32} {verifiers : Fin 7 → Pubkey} {genesisLeaf : Bytes 32}
      {authority poolKey : Pubkey} {pool : Pool} {m m' : Machine}
      (h : Initialized env call x y verifiers genesisLeaf authority poolKey pool m m') :
      Effect env call (.initializePool x y verifiers genesisLeaf) m m'
  | administered {ix : PoolInstruction} {poolKey : Pubkey} {pool pool' : Pool} {evs : List Event}
      {m m' : Machine} (h : Administered env call poolKey pool pool' m m')
      (hchange : AdminChange ix pool pool' evs) (hlog : m'.log = m.log ++ evs) :
      Effect env call ix m m'
  | deposited {proof : Bytes 192} {publicInputs : List (Bytes 32)} {amount : UInt64}
      {poolKey assetKey mint vault tokenProgram : Pubkey} {assetBump : UInt8} {pool pool' : Pool}
      {asset : Asset} {m m₁ m₂ m' : Machine} (hpoolKey : call.accounts[1]? = some poolKey)
      (hmint : call.accounts[3]? = some mint) (hvault : call.accounts[4]? = some vault)
      (hsupported : tokenProgramSupported tokenProgram)
      (hmintOwner : (m.ledger mint).owner = tokenProgram)
      (hpda : env.pda (.asset (assetIdBytes env mint)) = some (assetKey, assetBump))
      (hata : env.getAssociatedTokenAddress poolKey mint tokenProgram = some vault)
      (hverified : Verified env (depositStatement publicInputs) pool)
      (hexecuted : Executed env poolKey (depositStatement publicInputs) pool pool' m m₁)
      (hregistered : Registered env assetKey mint vault asset m₁ m₂)
      (htail : SameOwned env ∅ m₂.ledger m'.ledger) (hlog : m'.log = m₂.log)
      (hidle : Idle {vault} m₂.ledger m'.ledger) :
      Effect env call (.deposit proof publicInputs amount) m m'
  | spent {ix : PoolInstruction} {s : Statement} {poolKey : Pubkey} {pool pool' : Pool}
      {m m₁ m' : Machine} (hs : ix.statement = some s) (hspend : s.rootIndex.isSome)
      (hpda : ∃ bump, env.pda .pool = some (poolKey, bump)) (hverified : Verified env s pool)
      (hexecuted : Executed env poolKey s pool pool' m m₁)
      (htail : SameOwned env ∅ m₁.ledger m'.ledger) (hlog : m'.log = m₁.log)
      (hidle : Idle ∅ m₁.ledger m'.ledger) :
      Effect env call ix m m'

/-- The handler of a withdraw. -/
theorem effect_of_withdrawLike {ix : PoolInstruction} {proof : Bytes 192}
    {publicInputs : List (Bytes 32)} {amount : UInt64} {rootIndex circuitId : UInt8} {u : Unit}
    {m m' : Machine} (hix : ix.statement = some (withdrawStatement publicInputs rootIndex circuitId))
    (h : withdrawLike env call proof publicInputs amount rootIndex circuitId m = .ok (u, m')) :
    Effect env call ix m m' := by
  obtain ⟨-, poolKey, bump, assetKey, mint, vault, destination, tokenProgram, -, -, -, -, -, -, hpda,
    hsupported, -, -, -, -, -, pool, pool', m₁, hverified, hexecuted, htransfer⟩ := withdrawLike_ok h
  exact .spent hix rfl ⟨bump, hpda⟩ hverified hexecuted
    (sameOwned_of_transferred hsupported htransfer) htransfer.log
    (idle_of_transferred hsupported htransfer)

/-- The handler of a transfer. -/
theorem effect_of_transferLike {ix : PoolInstruction} {proof : Bytes 192}
    {publicInputs : List (Bytes 32)} {rootIndex circuitId : UInt8} {expectedCount : ℕ} {u : Unit}
    {m m' : Machine} (hix : ix.statement = some (transferStatement publicInputs rootIndex circuitId))
    (h : transferLike env call proof publicInputs rootIndex circuitId expectedCount m = .ok (u, m')) :
    Effect env call ix m m' := by
  obtain ⟨-, poolKey, bump, pool, pool', hpda, hverified, hexecuted⟩ := transferLike_ok h
  exact .spent hix rfl ⟨bump, hpda⟩ hverified hexecuted (SameOwned.refl _ _) rfl
    (Idle.refl _ _)

/-- What every successful instruction does. -/
theorem effect_of_process {ix : PoolInstruction} {u : Unit} {m m' : Machine}
    (h : process env call ix m = .ok (u, m')) : Effect env call ix m m' := by
  cases ix with
  | initializePool x y verifiers genesisLeaf =>
    obtain ⟨authority, poolKey, pool, hinit⟩ := initializePool_ok h
    exact .initialized hinit
  | setVerifier circuitId program =>
    obtain ⟨poolKey, pool, pool', hadmin, hset, hlog⟩ := setVerifier_ok h
    exact .administered hadmin ⟨hset, rfl⟩ (by rw [hlog, List.append_nil])
  | rotateComplianceKey x y =>
    obtain ⟨poolKey, pool, hroom, hadmin, hlog⟩ := rotateComplianceKey_ok h
    exact .administered hadmin ⟨hroom, rfl, rfl⟩ hlog
  | setPaused paused =>
    obtain ⟨poolKey, pool, hadmin, hlog⟩ := setPaused_ok h
    exact .administered hadmin ⟨rfl, rfl⟩ (by rw [hlog, List.append_nil])
  | deposit proof publicInputs amount =>
    obtain ⟨-, depositor, poolKey, assetKey, mint, vault, depositorToken, tokenProgram, assetBump, -,
      hpoolKey, -, hmint, hvault, -, -, -, hsupported, hmintOwner, -, -, hpda, hata, pool, pool', asset,
      m₁, m₂, m₃, hverified, hexecuted, hregistered, hopened, htransfer⟩ := deposit_ok h
    refine .deposited hpoolKey hmint hvault hsupported hmintOwner hpda hata hverified hexecuted
      hregistered ?_ (htransfer.log.trans hopened.log) ?_
    · exact (sameOwned_of_vaultOpened hsupported hopened).trans
        (sameOwned_of_transferred hsupported htransfer)
    · exact hopened.same.idle.trans ((idle_of_transferred hsupported htransfer).mono (by simp))
  | transfer proof publicInputs rootIndex => exact effect_of_transferLike rfl h
  | transferMultisig proof publicInputs rootIndex => exact effect_of_transferLike rfl h
  | splitMultisig proof publicInputs rootIndex =>
    obtain ⟨-, poolKey, bump, pool, pool', hpda, hverified, hexecuted⟩ := splitMultisig_ok h
    exact .spent rfl rfl ⟨bump, hpda⟩ hverified hexecuted (SameOwned.refl _ _) rfl (Idle.refl _ _)
  | joinMultisig proof publicInputs rootIndex =>
    obtain ⟨-, poolKey, bump, pool, pool', hpda, hverified, hexecuted⟩ := joinMultisig_ok h
    exact .spent rfl rfl ⟨bump, hpda⟩ hverified hexecuted (SameOwned.refl _ _) rfl (Idle.refl _ _)
  | withdraw proof publicInputs amount rootIndex => exact effect_of_withdrawLike rfl h
  | withdrawMultisig proof publicInputs amount rootIndex => exact effect_of_withdrawLike rfl h
  | verifyOnly circuitId proof publicInputs =>
    have h' : (fail .invalidInstructionData : Exec Unit) m = .ok ((), m') := h
    exact absurd h' not_fail_eq_ok

/-- An administration instruction leaves the tree alone. -/
theorem AdminChange.sameTree {ix : PoolInstruction} {pool pool' : Pool} {evs : List Event}
    (h : AdminChange ix pool pool' evs) : SameTree pool pool' := by
  cases ix with
  | setVerifier circuitId program =>
    obtain ⟨hset, -⟩ := h
    unfold Pool.setVerifier at hset
    split at hset
    · cases hset
    · cases hset
      exact sameTree_set _ _ rfl
  | rotateComplianceKey x y =>
    obtain ⟨-, rfl, -⟩ := h
    exact ((sameTree_set _ _ rfl).trans (sameTree_set _ _ rfl)).trans (sameTree_set _ _ rfl)
  | setPaused paused =>
    obtain ⟨rfl, -⟩ := h
    exact sameTree_set _ _ rfl
  | _ => exact h.elim

theorem AdminChange.noteEvents {ix : PoolInstruction} {pool pool' : Pool} {evs : List Event}
    (h : AdminChange ix pool pool' evs) : noteEvents evs = [] ∧ spentEvents evs = [] := by
  cases ix with
  | setVerifier circuitId program => rw [h.2]; exact ⟨rfl, rfl⟩
  | rotateComplianceKey x y => rw [h.2.2]; exact ⟨rfl, rfl⟩
  | setPaused paused => rw [h.2]; exact ⟨rfl, rfl⟩
  | _ => exact h.elim

/-- An account with only the fields outside the tree written stands for no leaves. -/
theorem sameTree_genesisPool (authority : Pubkey) (x y : Bytes 32) (verifiers : Fin 7 → Pubkey) :
    SameTree Pool.empty (genesisPool authority x y verifiers) := by
  have hverifiers : ∀ (ids : List (Fin 7)) (p : Pool),
      SameTree p (ids.foldl (fun p i => p.set (.verifier i) (verifiers i)) p) := by
    intro ids
    induction ids with
    | nil => exact fun p => SameTree.refl p
    | cons i ids ih => exact fun p => (sameTree_set p _ rfl).trans (ih _)
  have hbefore : SameTree Pool.empty ((((((Pool.empty.setAuthority authority).setPaused
      false).setComplianceVersion 0).setCompliancePk x y).setAllVerifiers verifiers)) :=
    ((((sameTree_set _ _ rfl).trans (sameTree_set _ _ rfl)).trans (sameTree_set _ _ rfl)).trans
      ((sameTree_set _ _ rfl).trans (sameTree_set _ _ rfl))).trans (hverifiers _ _)
  intro f hf
  by_cases hnext : f = .nextLeafIndex
  · subst hnext
    rw [genesisPool, Pool.setNextLeafIndex, Pool.get_set_same, Pool.get_empty]
    rfl
  · rw [genesisPool, Pool.setNextLeafIndex, Pool.get_set_of_ne _ _ hnext]
    exact hbefore f hf

/-- A pool just set up has the genesis leaf as its history. -/
theorem Initialized.history {x y : Bytes 32} {verifiers : Fin 7 → Pubkey} {genesisLeaf : Bytes 32}
    {authority poolKey : Pubkey} {pool : Pool} {m m' : Machine}
    (h : Initialized env call x y verifiers genesisLeaf authority poolKey pool m m') :
    ∃ root, m'.log = m.log ++ [.noteInserted (genesisEvent genesisLeaf root)] ∧
      History env.poseidon pool [genesisEvent genesisLeaf root] := by
  obtain ⟨index, root, hins, hlog⟩ := h.inserted
  obtain ⟨p, hp, hsame⟩ := insert_congr env.poseidon
    (sameTree_genesisPool authority x y verifiers).symm hins
  obtain ⟨-, -, rfl, -⟩ := insert_eq_ok env.poseidon hp
  have hindex : Pool.empty.nextLeafIndex = 0 := (treeState_empty env.poseidon).nextLeafIndex
  rw [hindex] at hp hlog
  exact ⟨root, hlog, p, ⟨p, hp, rfl⟩, hsame.symm⟩

end Kakure
