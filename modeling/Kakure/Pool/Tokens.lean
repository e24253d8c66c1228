import Kakure.Pool.Balance
import Kakure.Pool.Withdraw

/-!
# What an instruction does to token accounts

Token accounts that only their wallet debits, but for a permanent delegate of their mint, and what the transfers of the
pool do to them.

* `Vaulted` — a token account of a wallet, without a delegate;
* `Vaulted.authority_eq`, `Vaulted.transferred` — who may debit it in a transfer, and that it stays so;
* `TokensKept` — the frame condition on token accounts, which the program's own part of an instruction keeps;
* `Pays`, `pays_of_process` — a successful instruction leaves token accounts alone but for the transfer it ends with.
-/

namespace Kakure

open Slices Guarded Runs

section Tokens

variable {env : Env} {call : Call}

/-! ## Token accounts of a wallet -/

/-- A token account of a wallet, without a delegate. -/
structure Vaulted (wallet : Pubkey) (a : Account) : Prop where
  owner : tokenProgramSupported a.owner
  length : tokenAccountBaseLen ≤ a.data.length
  authority : tokenOwner a.data = wallet
  delegate : tokenDelegate a.data = none

/-- A field of a token account besides its amount. -/
theorem readAt_setTokenAmount {n off amount : ℕ} {data : List UInt8} (hlen : tokenAccountBaseLen ≤ data.length)
    (hoff : off + n ≤ 64 ∨ 72 ≤ off ∧ off + n ≤ tokenAccountBaseLen) :
    readAt n (setTokenAmount data amount) off = readAt n data off := by
  have hamount : (leBytes 8 amount).val.length = 8 := (leBytes 8 amount).2
  unfold tokenAccountBaseLen at hlen hoff
  exact readAt_writeAt_disjoint (by omega) (by omega) (by omega)

theorem tokenMint_setTokenAmount {data : List UInt8} (hlen : tokenAccountBaseLen ≤ data.length) (amount : ℕ) :
    tokenMint (setTokenAmount data amount) = tokenMint data :=
  readAt_setTokenAmount hlen (Or.inl (by norm_num))

namespace Vaulted

variable {wallet k : Pubkey} {a a' : Account}

theorem congr (h : Vaulted wallet a) (howner : a'.owner = a.owner) (hdata : a'.data = a.data) : Vaulted wallet a' := by
  refine ⟨?_, ?_, ?_, ?_⟩
  · rw [howner]
    exact h.owner
  all_goals rw [hdata]
  · exact h.length
  · exact h.authority
  · exact h.delegate

theorem setTokenAmount (h : Vaulted wallet a) (howner : a'.owner = a.owner) {amount : ℕ}
    (hdata : a'.data = setTokenAmount a.data amount) : Vaulted wallet a' where
  owner := howner ▸ h.owner
  length := by
    rw [hdata, Kakure.setTokenAmount, length_writeAt]
    exact h.length
  authority := by
    rw [hdata, tokenOwner, readAt_setTokenAmount h.length (Or.inl (by norm_num))]
    exact h.authority
  delegate := by
    rw [hdata, tokenDelegate, readAt_setTokenAmount h.length (Or.inr (by norm_num [tokenAccountBaseLen])),
      readAt_setTokenAmount h.length (Or.inr (by norm_num [tokenAccountBaseLen]))]
    exact h.delegate

theorem data_ne_nil (h : Vaulted wallet a) : a.data ≠ [] := by
  intro hnil
  have hlen := h.length
  rw [hnil] at hlen
  exact absurd hlen (by decide)

end Vaulted

/-- Where no one else may spend, no allowance is used. -/
theorem authorize_of_delegate_eq_none {permanent : Option Pubkey} {data data' : List UInt8} {authority : Pubkey}
    {amount : ℕ} (hdelegate : tokenDelegate data = none)
    (h : authorize permanent data authority amount = some data') : data' = data := by
  unfold authorize at h
  rw [hdelegate, if_neg (by simp : ¬ none = some authority)] at h
  split at h
  · exact (Option.some_inj.1 h).symm
  · split at h
    · exact (Option.some_inj.1 h).symm
    · cases h

/-- The mints of the token accounts of a transfer, and what it leaves in the source. -/
theorem transferChecked_data {signer : Pubkey → Bool} {tokenProgram source mint destination authority : Pubkey}
    {amount : ℕ} {decimals : UInt8} {u : Unit} {m m' : Machine}
    (h : transferChecked env call signer tokenProgram source mint destination authority amount decimals m =
      .ok (u, m')) :
    tokenMint (m.ledger source).data = mint ∧ tokenMint (m.ledger destination).data = mint ∧
      ∃ data, authorize (env.permanentDelegateOf tokenProgram (m.ledger mint).data) (m.ledger source).data authority
          amount = some data ∧
        (source ≠ destination →
          (m'.ledger source).data = setTokenAmount data (tokenAmount (m.ledger source).data - amount)) := by
  simp only [transferChecked, bind_eq_ok, checkCall_eq_ok, account_eq_ok, require_eq_ok, ofOption_eq_ok] at h
  obtain ⟨-, _, ⟨-, rfl⟩, s, _, ⟨rfl, rfl⟩, t, _, ⟨rfl, rfl⟩, d, _, ⟨rfl, rfl⟩, -, _, ⟨-, rfl⟩, -, _,
    ⟨⟨-, -, hsource, hdest⟩, rfl⟩, -, _, ⟨-, rfl⟩, data, _, ⟨hauth, rfl⟩, h⟩ := h
  refine ⟨hsource, hdest, data, hauth, fun hne => ?_⟩
  rw [if_neg hne] at h
  simp only [bind_eq_ok, require_eq_ok, setAccount_eq_ok] at h
  obtain ⟨-, _, ⟨-, rfl⟩, -, _, rfl, rfl⟩ := h
  dsimp only
  rw [Function.update_of_ne hne, Function.update_self]

section Transfer

variable {signer : Pubkey → Bool} {tokenProgram source mint destination authority wallet k : Pubkey} {amount : ℕ}
  {decimals : UInt8} {u : Unit} {m m' : Machine}

/-- Only its wallet moves what is in it, and the permanent delegate of the mint. -/
theorem Vaulted.authority_eq (hk : Vaulted wallet (m.ledger source))
    (h : Transferred env call tokenProgram source mint destination authority amount m m')
    (hpermanent : env.permanentDelegateOf tokenProgram (m.ledger mint).data ≠ some authority) : authority = wallet := by
  rcases h.authorized with howner | hdelegate | hdelegate
  · exact howner.symm.trans hk.authority
  · rw [hk.delegate] at hdelegate
    cases hdelegate
  · exact absurd hdelegate hpermanent

/-- A transfer changes the amounts of its token accounts. -/
theorem Vaulted.transferred (hk : Vaulted wallet (m.ledger k))
    (h : transferChecked env call signer tokenProgram source mint destination authority amount decimals m =
      .ok (u, m')) :
    Vaulted wallet (m'.ledger k) ∧ tokenMint (m'.ledger k).data = tokenMint (m.ledger k).data := by
  obtain ⟨htransfer, -⟩ := transferChecked_ok h
  obtain ⟨-, -, data, hauth, hdebited⟩ := transferChecked_data h
  by_cases hself : source = destination
  · rw [htransfer.of_self hself]
    exact ⟨hk, rfl⟩
  by_cases hsource : k = source
  · subst hsource
    have hafter := hdebited hself
    rw [authorize_of_delegate_eq_none hk.delegate hauth] at hafter
    refine ⟨hk.setTokenAmount (htransfer.owners k) hafter, ?_⟩
    rw [hafter, tokenMint_setTokenAmount hk.length]
  by_cases hdest : k = destination
  · subst hdest
    refine ⟨hk.setTokenAmount (htransfer.owners k) (htransfer.credited hself), ?_⟩
    rw [htransfer.credited hself, tokenMint_setTokenAmount hk.length]
  · obtain ⟨howner, hdata⟩ := htransfer.same k (by simp [hsource, hdest])
    exact ⟨hk.congr howner hdata, by rw [hdata]⟩

/-- A transfer debits its source with its amount at most. -/
theorem Transferred.token_le_add
    (h : Transferred env call tokenProgram source mint destination authority amount m m') (k : Pubkey) :
    tokenAmount (m.ledger k).data ≤ tokenAmount (m'.ledger k).data + amount := by
  by_cases hk : k = source
  · subst hk
    by_cases hself : k = destination
    · rw [h.of_self hself]
      exact Nat.le_add_right _ _
    · have hcovered := h.covered
      rw [h.debited hself]
      omega
  · exact (h.token_le (Or.inl hk)).trans (Nat.le_add_right _ _)

/-- What arrives is the amount but for the fee. -/
theorem Transferred.arrived (h : Transferred env call tokenProgram source mint destination authority amount m m')
    (hne : source ≠ destination) :
    tokenAmount (m.ledger destination).data + amount ≤ tokenAmount (m'.ledger destination).data +
      env.feeOf tokenProgram (m.ledger mint).data call.epoch amount := by
  rw [h.credited hne, tokenAmount_setTokenAmount h.length_destination (h.room hne)]
  omega

end Transfer

/-! ## What an instruction does to token accounts -/

/-- The token accounts with data are left alone, and none is made but at these addresses. -/
structure TokensKept (made : Set Pubkey) (L L' : Ledger) : Prop where
  kept : ∀ k, tokenProgramSupported (L k).owner → (L k).data ≠ [] →
    (L' k).owner = (L k).owner ∧ (L' k).data = (L k).data
  met : ∀ k, k ∉ made → tokenProgramSupported (L' k).owner → (L' k).owner = (L k).owner ∧ (L' k).data = (L k).data

namespace TokensKept

variable {made : Set Pubkey} {L L' L'' : Ledger}

theorem trans (h : TokensKept made L L') (h' : TokensKept made L' L'') : TokensKept made L L'' where
  kept k hsupported hdata := by
    obtain ⟨howner₁, hdata₁⟩ := h.kept k hsupported hdata
    obtain ⟨howner₂, hdata₂⟩ := h'.kept k (by rwa [howner₁]) (by rwa [hdata₁])
    exact ⟨howner₂.trans howner₁, hdata₂.trans hdata₁⟩
  met k hk hsupported := by
    obtain ⟨howner₂, hdata₂⟩ := h'.met k hk hsupported
    obtain ⟨howner₁, hdata₁⟩ := h.met k hk (howner₂ ▸ hsupported)
    exact ⟨howner₂.trans howner₁, hdata₂.trans hdata₁⟩

theorem mono {made' : Set Pubkey} (h : TokensKept made L L') (hsub : made ⊆ made') : TokensKept made' L L' :=
  ⟨h.kept, fun k hk => h.met k fun hmem => hk (hsub hmem)⟩

theorem vaulted {wallet k : Pubkey} (h : TokensKept made L L') (hk : Vaulted wallet (L k)) :
    Vaulted wallet (L' k) ∧ (L' k).data = (L k).data := by
  obtain ⟨howner, hdata⟩ := h.kept k hk.owner hk.data_ne_nil
  exact ⟨hk.congr howner hdata, hdata⟩

/-- A change of accounts that hold no tokens, before or after. -/
theorem of_same {keys : Set Pubkey} (hsame : SameOutside keys L L')
    (hbefore : ∀ k ∈ keys, tokenProgramSupported (L k).owner → (L k).data = [])
    (hafter : ∀ k ∈ keys, ¬ tokenProgramSupported (L' k).owner) : TokensKept ∅ L L' where
  kept k hsupported hdata := hsame k fun hk => hdata (hbefore k hk hsupported)
  met k _ hsupported := hsame k fun hk => hafter k hk hsupported

end TokensKept

theorem not_supported_of_program {program : Pubkey} (h : program = env.programId) : ¬ tokenProgramSupported program :=
  fun hsupported => tokenProgram_ne_programId hsupported h

theorem Executed.tokensKept {poolKey : Pubkey} {s : Statement} {pool pool' : Pool} {m m' : Machine}
    (h : Executed env poolKey s pool pool' m m') : TokensKept ∅ m.ledger m'.ledger where
  kept k hsupported hdata := by
    refine h.same k ?_
    rintro (hpool | ⟨n, hn, bump, hpda⟩)
    · rw [Set.mem_singleton_iff.1 hpool] at hsupported
      exact not_supported_of_program h.owner_before hsupported
    · obtain ⟨key, bump', hpda', -, hempty, -⟩ := h.fresh n hn
      rw [hpda] at hpda'
      cases hpda'
      exact hdata hempty
  met k _ hsupported := h.token_same hsupported

theorem Registered.same_of_unowned {assetKey mint vault k : Pubkey} {asset : Asset} {m m' : Machine}
    (h : Registered env assetKey mint vault asset m m') (hne : (m'.ledger k).owner ≠ env.programId) :
    (m'.ledger k).owner = (m.ledger k).owner ∧ (m'.ledger k).data = (m.ledger k).data := by
  rcases h.kept_or_created with rfl | ⟨-, -, hafter, -⟩
  · exact ⟨rfl, rfl⟩
  · refine h.same k fun hk => hne ?_
    rw [Set.mem_singleton_iff.1 hk]
    exact hafter

theorem Registered.tokensKept {assetKey mint vault : Pubkey} {asset : Asset} {m m' : Machine}
    (h : Registered env assetKey mint vault asset m m') : TokensKept ∅ m.ledger m'.ledger where
  kept k _ hdata := by
    rcases h.kept_or_created with rfl | ⟨-, hempty, -⟩
    · exact ⟨rfl, rfl⟩
    · refine h.same k fun hk => hdata ?_
      rw [Set.mem_singleton_iff.1 hk]
      exact hempty
  met k _ hsupported := h.same_of_unowned (tokenProgram_ne_programId hsupported)

theorem VaultOpened.tokensKept {wallet mint tokenProgram vault : Pubkey} {m m' : Machine}
    (h : VaultOpened env wallet mint tokenProgram vault m m') : TokensKept {vault} m.ledger m'.ledger where
  kept k _ hdata := by
    rcases h.kept_or_created with ⟨rfl, -⟩ | ⟨-, hempty, -⟩
    · exact ⟨rfl, rfl⟩
    · refine h.same k ?_
      rintro rfl
      exact hdata hempty
  met k hk _ := h.same k hk

/-- The accounts of a successful deposit and the states it goes through. -/
structure DepositPath (env : Env) (call : Call) (publicInputs : List (Bytes 32)) (amount : ℕ) (m m' : Machine) where
  depositor : Pubkey
  poolKey : Pubkey
  assetKey : Pubkey
  mint : Pubkey
  vault : Pubkey
  depositorToken : Pubkey
  tokenProgram : Pubkey
  assetBump : UInt8
  decimals : UInt8
  pool : Pool
  pool' : Pool
  asset : Asset
  executed : Machine
  registered : Machine
  opened : Machine
  depositorAccount : call.accounts[0]? = some depositor
  mintAccount : call.accounts[3]? = some mint
  vaultAccount : call.accounts[4]? = some vault
  sourceAccount : call.accounts[5]? = some depositorToken
  tokenAccount : call.accounts[6]? = some tokenProgram
  signer : call.isSigner depositor
  supported : tokenProgramSupported tokenProgram
  mintOwner : (m.ledger mint).owner = tokenProgram
  pda : env.pda (.asset (assetIdBytes env mint)) = some (assetKey, assetBump)
  ata : env.getAssociatedTokenAddress poolKey mint tokenProgram = some vault
  verified : Verified env (depositStatement publicInputs) pool
  executes : Executed env poolKey (depositStatement publicInputs) pool pool' m executed
  registers : Registered env assetKey mint vault asset executed registered
  opens : VaultOpened env poolKey mint tokenProgram vault registered opened
  transfers : transferChecked env call (fun _ => false) tokenProgram depositorToken mint vault depositor amount
    decimals opened = .ok ((), m')

/-- What an instruction does to token accounts: nothing, or what the transfer does that it ends with. -/
inductive Pays (env : Env) (call : Call) : PoolInstruction → Machine → Machine → Prop
  | nothing {ix : PoolInstruction} {m m' : Machine} (hkept : TokensKept ∅ m.ledger m'.ledger)
      (hin : ix.paidIn env call = 0) (hout : ix.paidOut env call = 0) : Pays env call ix m m'
  | deposit {proof : Bytes 192} {publicInputs : List (Bytes 32)} {amount : UInt64} {m m' : Machine}
      (d : DepositPath env call publicInputs amount.toNat m m') :
      Pays env call (.deposit proof publicInputs amount) m m'
  | withdraw {ix : PoolInstruction} {signer : Pubkey → Bool} {poolKey mint vault destination tokenProgram : Pubkey}
      {amount : ℕ} {decimals : UInt8} {m m₁ m' : Machine} (hin : ix.paidIn env call = 0)
      (hout : ix.paidOut env call = Pi.single (assetOf env mint) amount) (hkept : TokensKept ∅ m.ledger m₁.ledger)
      (htransfer : transferChecked env call signer tokenProgram vault mint destination poolKey amount decimals m₁ =
        .ok ((), m')) : Pays env call ix m m'

theorem pays_of_withdrawLike {ix : PoolInstruction} {proof : Bytes 192} {publicInputs : List (Bytes 32)}
    {amount : UInt64} {rootIndex circuitId : UInt8} {m m' : Machine} (hin : ix.paidIn env call = 0)
    (hout : ∀ mint, call.accounts[4]? = some mint →
      ix.paidOut env call = Pi.single (assetOf env mint) amount.toNat)
    (h : withdrawLike env call proof publicInputs amount rootIndex circuitId m = .ok ((), m')) :
    Pays env call ix m m' := by
  obtain ⟨-, poolKey, bump, assetKey, mint, vault, destination, tokenProgram, decimals, -, -, hmint, -, -, -, -, -, -,
    -, -, -, -, pool, pool', m₁, -, hexecuted, htransfer⟩ := withdrawLike_calls h
  unfold invokeTransferChecked at htransfer
  simp only [bind_eq_ok, require_eq_ok] at htransfer
  obtain ⟨-, _, ⟨-, rfl⟩, htransfer⟩ := htransfer
  exact .withdraw hin (hout mint hmint) hexecuted.tokensKept htransfer

theorem exists_depositPath {proof : Bytes 192} {publicInputs : List (Bytes 32)} {amount : UInt64} {m m' : Machine}
    (h : deposit env call proof publicInputs amount m = .ok ((), m')) :
    Nonempty (DepositPath env call publicInputs amount.toNat m m') := by
  obtain ⟨-, depositor, poolKey, assetKey, mint, vault, depositorToken, tokenProgram, assetBump, decimals, hdepositor, -,
    -, hmint, hvault, hsource, htoken, hsigner, hsupported, hmintOwner, -, -, hpda, hata, pool, pool', asset, m₁, m₂, m₃,
    hverified, hexecuted, hregistered, hopened, htransfer⟩ := deposit_calls h
  unfold invokeTransferChecked at htransfer
  simp only [bind_eq_ok, require_eq_ok] at htransfer
  obtain ⟨-, _, ⟨-, rfl⟩, htransfer⟩ := htransfer
  exact ⟨⟨depositor, poolKey, assetKey, mint, vault, depositorToken, tokenProgram, assetBump, decimals, pool, pool',
    asset, m₁, m₂, m₃, hdepositor, hmint, hvault, hsource, htoken, hsigner, hsupported, hmintOwner, hpda, hata, hverified, hexecuted,
    hregistered, hopened, htransfer⟩⟩

/-- The account of the pool holds no tokens. -/
theorem tokensKept_of_pool {poolKey : Pubkey} {L L' : Ledger} (hsame : SameOutside {poolKey} L L')
    (hbefore : (L poolKey).owner = env.programId ∨ (L poolKey).data = [])
    (hafter : (L' poolKey).owner = env.programId) : TokensKept ∅ L L' := by
  refine .of_same hsame (fun k hk hsupported => ?_) fun k hk => ?_
  · rw [Set.mem_singleton_iff.1 hk] at hsupported ⊢
    exact hbefore.resolve_left fun howner => not_supported_of_program howner hsupported
  · rw [Set.mem_singleton_iff.1 hk]
    exact not_supported_of_program hafter

theorem Administered.tokensKept {poolKey : Pubkey} {pool pool' : Pool} {m m' : Machine}
    (h : Administered env call poolKey pool pool' m m') : TokensKept ∅ m.ledger m'.ledger :=
  tokensKept_of_pool h.same (Or.inl h.owner_before) h.owner_after

/-- What every successful instruction does to token accounts. -/
theorem pays_of_process {ix : PoolInstruction} {m m' : Machine} (h : process env call ix m = .ok ((), m')) :
    Pays env call ix m m' := by
  cases ix with
  | initializePool x y verifiers genesisLeaf =>
    obtain ⟨authority, poolKey, pool, hinit⟩ := initializePool_ok h
    exact .nothing (tokensKept_of_pool hinit.same (Or.inr hinit.data_before) hinit.owner_after) rfl rfl
  | setVerifier circuitId program =>
    obtain ⟨poolKey, pool, pool', hadmin, -⟩ := setVerifier_ok h
    exact .nothing hadmin.tokensKept rfl rfl
  | rotateComplianceKey x y =>
    obtain ⟨poolKey, pool, -, hadmin, -⟩ := rotateComplianceKey_ok h
    exact .nothing hadmin.tokensKept rfl rfl
  | setPaused paused =>
    obtain ⟨poolKey, pool, hadmin, -⟩ := setPaused_ok h
    exact .nothing hadmin.tokensKept rfl rfl
  | deposit proof publicInputs amount =>
    obtain ⟨d⟩ := exists_depositPath h
    exact .deposit d
  | transfer proof publicInputs rootIndex =>
    obtain ⟨-, poolKey, bump, pool, pool', -, -, hexecuted⟩ := transferLike_ok h
    exact .nothing hexecuted.tokensKept rfl rfl
  | transferMultisig proof publicInputs rootIndex =>
    obtain ⟨-, poolKey, bump, pool, pool', -, -, hexecuted⟩ := transferLike_ok h
    exact .nothing hexecuted.tokensKept rfl rfl
  | splitMultisig proof publicInputs rootIndex =>
    obtain ⟨-, poolKey, bump, pool, pool', -, -, hexecuted⟩ := splitMultisig_ok h
    exact .nothing hexecuted.tokensKept rfl rfl
  | joinMultisig proof publicInputs rootIndex =>
    obtain ⟨-, poolKey, bump, pool, pool', -, -, hexecuted⟩ := joinMultisig_ok h
    exact .nothing hexecuted.tokensKept rfl rfl
  | withdraw proof publicInputs amount rootIndex =>
    refine pays_of_withdrawLike rfl (fun mint hmint => ?_) h
    simp only [PoolInstruction.paidOut, hmint, Option.elim_some]
  | withdrawMultisig proof publicInputs amount rootIndex =>
    refine pays_of_withdrawLike rfl (fun mint hmint => ?_) h
    simp only [PoolInstruction.paidOut, hmint, Option.elim_some]
  | verifyOnly circuitId proof publicInputs =>
    have h' : (fail .invalidInstructionData : Exec Unit) m = .ok ((), m') := h
    exact absurd h' not_fail_eq_ok

end Tokens

end Kakure
