import Kakure.Pool.Run

/-!
# What a withdraw pays from

`withdraw_like` compares the vault with the one an asset account names, but never asks
whose account that is: neither its address nor its owner is checked, as `deposit` does.
Any account of the right length will do, and the pool then pays from the vault named
there.

* `PaysRegistered` — only the vault of the program's own registry entry is debited;
* `withdraw_pays_registered_iff` — that is so exactly where the passed vault is the
  registered one, or nothing is paid;
* `withdraw_pays_stray` — a withdraw from another token account of the pool.
-/

namespace Kakure

open Slices Guarded Runs

variable {env : Env} {call : Call}

/-- The asset id of the note a withdraw spends, from the public inputs. -/
def provenAssetId (publicInputs : List (Bytes 32)) : Bytes 20 :=
  ⟨(input publicInputs 4).val.drop 12, by simp⟩

/-- The program's own registry entry of an asset. -/
def RegistryEntry (env : Env) (m : Machine) (id : Bytes 20) (asset : Asset) : Prop :=
  ∃ key bump, env.pda (.asset id) = some (key, bump) ∧ (m.ledger key).owner = env.programId ∧
    asset.data = (m.ledger key).data

/-- The registered vault is debited with the amount, unless it is the destination, and no other
token account is debited. -/
def PaysRegistered (env : Env) (call : Call) (publicInputs : List (Bytes 32)) (amount : UInt64)
    (m m' : Machine) : Prop :=
  ∃ asset, RegistryEntry env m (provenAssetId publicInputs) asset ∧
    (0 < amount.toNat → call.accounts[6]? ≠ some asset.vault →
      tokenProgramSupported (m.ledger asset.vault).owner ∧
      tokenAmount (m'.ledger asset.vault).data + amount.toNat =
        tokenAmount (m.ledger asset.vault).data) ∧
    ∀ k, tokenProgramSupported (m.ledger k).owner → k ≠ asset.vault →
      tokenAmount (m.ledger k).data ≤ tokenAmount (m'.ledger k).data

theorem provenAssetId_of_eq {publicInputs : List (Bytes 32)} {mint : Pubkey}
    (h : input publicInputs 4 = assetIdField env mint) :
    provenAssetId publicInputs = assetIdBytes env mint := by
  apply Subtype.ext
  simp [provenAssetId, h, assetIdField]

theorem tokenAmount_nil : tokenAmount [] = 0 := by decide

/-- The program's own part of an instruction does not touch what is not its own after it. -/
theorem Executed.same_of_unowned {poolKey k : Pubkey} {s : Statement} {pool pool' : Pool}
    {m m₁ : Machine} (h : Executed env poolKey s pool pool' m m₁)
    (hne : (m₁.ledger k).owner ≠ env.programId) :
    (m₁.ledger k).owner = (m.ledger k).owner ∧ (m₁.ledger k).data = (m.ledger k).data := by
  apply h.same
  rintro (hpool | ⟨n, hn, bump, hpda⟩)
  · rw [Set.mem_singleton_iff.1 hpool] at hne
    exact hne h.owner_after
  · obtain ⟨key, bump', hpda', -, -, hafter, -⟩ := h.fresh n hn
    rw [hpda] at hpda'
    cases hpda'
    exact hne hafter

theorem Executed.token_same {poolKey k : Pubkey} {s : Statement} {pool pool' : Pool}
    {m m₁ : Machine} (h : Executed env poolKey s pool pool' m m₁)
    (hk : tokenProgramSupported (m₁.ledger k).owner) :
    (m₁.ledger k).owner = (m.ledger k).owner ∧ (m₁.ledger k).data = (m.ledger k).data :=
  h.same_of_unowned (tokenProgram_ne_programId hk)

/-- Nor does it debit what was a token account before it. -/
theorem Executed.token_le {poolKey k : Pubkey} {s : Statement} {pool pool' : Pool}
    {m m₁ : Machine} (h : Executed env poolKey s pool pool' m m₁)
    (hk : tokenProgramSupported (m.ledger k).owner) :
    tokenAmount (m.ledger k).data ≤ tokenAmount (m₁.ledger k).data := by
  by_cases hmem : k ∈ ({poolKey} ∪ nullifierKeys env s.nullifiers : Set Pubkey)
  · rcases hmem with hpool | ⟨n, hn, bump, hpda⟩
    · rw [Set.mem_singleton_iff.1 hpool, h.owner_before] at hk
      exact absurd rfl (tokenProgram_ne_programId hk)
    · obtain ⟨key, bump', hpda', -, hempty, -⟩ := h.fresh n hn
      rw [hpda] at hpda'
      cases hpda'
      rw [hempty, tokenAmount_nil]
      exact Nat.zero_le _
  · rw [(h.same k hmem).2]

/-- A token transfer debits its source only, and nothing if the amount is zero. -/
theorem Transferred.token_le {tokenProgram source mint destination authority k : Pubkey} {amount : ℕ}
    {m m' : Machine} (h : Transferred env call tokenProgram source mint destination authority amount m m')
    (hk : k ≠ source ∨ amount = 0) :
    tokenAmount (m.ledger k).data ≤ tokenAmount (m'.ledger k).data := by
  by_cases hself : source = destination
  · rw [h.of_self hself]
  by_cases hsource : k = source
  · subst hsource
    rw [h.debited hself, hk.resolve_left (not_not.2 rfl), Nat.sub_zero]
  by_cases hdest : k = destination
  · subst hdest
    rw [h.credited hself, tokenAmount_setTokenAmount h.length_destination (h.room hself)]
    exact Nat.le_add_right _ _
  · have hmem : k ∉ ({source, destination} : Set Pubkey) := by
      simp [hsource, hdest]
    rw [(h.same k hmem).2]

/-- A withdraw pays from the registered vault, and from it only, exactly where the program owns a
registry entry for the asset id of the proven note and the vault passed to the instruction is the
one this entry names, or the amount is zero. -/
theorem withdraw_pays_registered_iff {ix : PoolInstruction} {proof : Bytes 192}
    {publicInputs : List (Bytes 32)} {amount : UInt64} {rootIndex : UInt8} {m m' : Machine}
    (hix : ix = .withdraw proof publicInputs amount rootIndex ∨
      ix = .withdrawMultisig proof publicInputs amount rootIndex)
    (h : process env call ix m = .ok ((), m')) :
    PaysRegistered env call publicInputs amount m m' ↔
      ∃ asset, RegistryEntry env m (provenAssetId publicInputs) asset ∧
        (call.accounts[5]? = some asset.vault ∨ amount.toNat = 0) := by
  obtain ⟨circuitId, hwithdraw⟩ : ∃ circuitId,
      withdrawLike env call proof publicInputs amount rootIndex circuitId m = .ok ((), m') := by
    rcases hix with rfl | rfl
    · exact ⟨2, h⟩
    · exact ⟨6, h⟩
  obtain ⟨-, poolKey, bump, assetKey, mint, vault, destination, tokenProgram, -, -, -, hvault, hdest, -,
    -, hsupported, -, -, -, -, -, pool, pool', m₁, -, hexecuted, htransfer⟩ := withdrawLike_ok hwithdraw
  -- the source of the transfer is as it was before the instruction
  have hsource : tokenProgramSupported (m₁.ledger vault).owner := by
    rw [htransfer.source_owner]
    exact hsupported
  obtain ⟨hownerEq, hdataEq⟩ := hexecuted.token_same hsource
  have hcovered := htransfer.covered
  constructor
  · rintro ⟨asset, hentry, hpaid, hothers⟩
    refine ⟨asset, hentry, ?_⟩
    by_contra hcontra
    rw [not_or, hvault, Option.some_inj] at hcontra
    obtain ⟨hne, hamount⟩ := hcontra
    have hpos : 0 < amount.toNat := Nat.pos_of_ne_zero hamount
    by_cases hself : vault = destination
    · -- nothing moved, so the registered vault was not debited
      obtain ⟨hvaultOwner, hdebit⟩ := hpaid hpos (by rw [hdest, ← hself, ne_eq, Option.some_inj]; exact hne)
      rw [htransfer.of_self hself] at hdebit
      have := hexecuted.token_le hvaultOwner
      omega
    · have hle := hothers vault (hownerEq ▸ hsource) hne
      rw [htransfer.debited hself, hdataEq] at hle
      rw [hdataEq] at hcovered
      omega
  · rintro ⟨asset, hentry, hcond⟩
    refine ⟨asset, hentry, fun hpos hdest' => ?_, fun k hk hne => ?_⟩
    · have heq : vault = asset.vault := by
        rw [hvault, Option.some_inj] at hcond
        exact hcond.resolve_right (Nat.pos_iff_ne_zero.1 hpos)
      subst heq
      have hself : asset.vault ≠ destination := by
        rintro heq
        exact hdest' (by rw [hdest, heq])
      refine ⟨hownerEq ▸ hsource, ?_⟩
      rw [htransfer.debited hself, hdataEq]
      rw [hdataEq] at hcovered
      omega
    · refine (hexecuted.token_le hk).trans (htransfer.token_le ?_)
      rcases hcond with hcond | hzero
      · rw [hvault, Option.some_inj] at hcond
        exact Or.inl (hcond ▸ hne)
      · exact Or.inr hzero

/-- A withdraw through the registry entry pays from the registered vault. -/
theorem withdraw_pays_registered_sample : ∃ m m', Run (Step Sample.env) Sample.machine
      ([Sample.initializePool (beBytes 32 9), Sample.deposit].map fun c => .success c.1 c.2) m ∧
    PaysRegistered Sample.env (Sample.withdraw Sample.assetKey Sample.vault).1
      Sample.withdrawInputs 30 m m' := by
  let withdraw := Sample.withdraw Sample.assetKey Sample.vault
  have hexec : (execAll Sample.env [Sample.initializePool (beBytes 32 9), Sample.deposit]
      Sample.machine).map (fun m => ((m.ledger Sample.assetKey).owner,
        (m.ledger Sample.assetKey).data.length, readAt 32 (m.ledger Sample.assetKey).data 32,
        (process Sample.env withdraw.1 withdraw.2 m).toOption.isSome)) =
      some (Sample.programId, assetLen, Sample.vault, true) := by decide +kernel
  obtain ⟨m, hm, hfacts⟩ := Option.map_eq_some_iff.1 hexec
  simp only [Prod.mk.injEq] at hfacts
  obtain ⟨hown, hlen, hvault, hok⟩ := hfacts
  have hrun := run_of_execAll (by simp [Sample.initializePool, Sample.deposit, Sample.admissible]) hm
  obtain ⟨m', hm'⟩ : ∃ m', process Sample.env withdraw.1 withdraw.2 m = .ok ((), m') := by
    cases hp : process Sample.env withdraw.1 withdraw.2 m with
    | error e =>
      rw [hp] at hok
      cases hok
    | ok r => exact ⟨r.2, rfl⟩
  refine ⟨m, m', hrun, (withdraw_pays_registered_iff (Or.inl rfl) hm').2 ?_⟩
  have hid : provenAssetId Sample.withdrawInputs = assetIdBytes Sample.env Sample.mint :=
    provenAssetId_of_eq rfl
  have hpda : Sample.env.pda (.asset (assetIdBytes Sample.env Sample.mint)) =
      some (Sample.assetKey, 255) := by decide +kernel
  refine ⟨⟨_, hlen⟩, ⟨Sample.assetKey, 255, hid ▸ hpda, hown, rfl⟩, Or.inl ?_⟩
  exact congrArg some hvault.symm

/-- After a deposit of 100 tokens a withdraw of 30 with an account of another program in the asset
slot is paid from the stray vault. -/
theorem withdraw_pays_stray : ∃ m m', Run (Step Sample.env) Sample.machine
      ([Sample.initializePool (beBytes 32 9), Sample.deposit].map fun c => .success c.1 c.2) m ∧
    process Sample.env (Sample.withdraw Sample.fakeAsset Sample.stray).1
      (Sample.withdraw Sample.fakeAsset Sample.stray).2 m = .ok ((), m') ∧
    ¬ PaysRegistered Sample.env (Sample.withdraw Sample.fakeAsset Sample.stray).1
      Sample.withdrawInputs 30 m m' := by
  let withdraw := Sample.withdraw Sample.fakeAsset Sample.stray
  have hexec : (execAll Sample.env [Sample.initializePool (beBytes 32 9), Sample.deposit]
      Sample.machine).map (fun m => ((m.ledger Sample.assetKey).data.length,
        readAt 32 (m.ledger Sample.assetKey).data 32, (m.ledger Sample.stray).owner,
        tokenAmount (m.ledger Sample.stray).data,
        (process Sample.env withdraw.1 withdraw.2 m).toOption.map fun r =>
          tokenAmount (r.2.ledger Sample.stray).data)) =
      some (assetLen, Sample.vault, splTokenId, 50, some 20) := by decide +kernel
  obtain ⟨m, hm, hfacts⟩ := Option.map_eq_some_iff.1 hexec
  simp only [Prod.mk.injEq] at hfacts
  obtain ⟨hlen, hvault, howner, hbefore, hafter⟩ := hfacts
  have hrun := run_of_execAll (by simp [Sample.initializePool, Sample.deposit, Sample.admissible]) hm
  obtain ⟨m', hm', hamount⟩ : ∃ m', process Sample.env withdraw.1 withdraw.2 m = .ok ((), m') ∧
      tokenAmount (m'.ledger Sample.stray).data = 20 := by
    cases hp : process Sample.env withdraw.1 withdraw.2 m with
    | error e =>
      rw [hp] at hafter
      cases hafter
    | ok r =>
      rw [hp] at hafter
      exact ⟨r.2, rfl, Option.some_inj.1 hafter⟩
  refine ⟨m, m', hrun, hm', ?_⟩
  rintro ⟨asset, ⟨key, bump, hpda, -, hdata⟩, -, hothers⟩
  -- the only registry entry of the asset names the registered vault
  have hid : provenAssetId Sample.withdrawInputs = assetIdBytes Sample.env Sample.mint :=
    provenAssetId_of_eq rfl
  have hkey : Sample.env.pda (.asset (assetIdBytes Sample.env Sample.mint)) =
      some (Sample.assetKey, 255) := by decide +kernel
  rw [hid, hkey, Option.some_inj, Prod.mk.injEq] at hpda
  rw [← hpda.1] at hdata
  have hasset : asset.vault = Sample.vault := by
    rw [Asset.vault, hdata]
    exact hvault
  have hne : Sample.stray ≠ asset.vault := by
    rw [hasset]
    decide +kernel
  have hle := hothers Sample.stray (howner ▸ Or.inl rfl) hne
  rw [hbefore, hamount] at hle
  exact absurd hle (by decide)

end Kakure
