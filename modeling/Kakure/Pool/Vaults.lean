import Kakure.Pool.Inflation
import Kakure.Pool.Nullifiers
import Kakure.Pool.Tokens

/-!
# What backs the notes

The tokens behind the notes of an asset are in the vault that its registry entry names.  Only a withdraw debits a token
account of the pool, so what is short there is what the mint has kept back of the deposits.  A permanent delegate of the
mint could debit the vaults, and deposit what is in them already; that is left out by assumption.

* `Slots`, `Spares` — the pool's addresses for tokens, and what is assumed not to happen there;
* `Backs.step` — a registry entry and its vault stay what they are;
* `Charged` — the steps of the pool with the fees that were kept back of its deposits;
* `solvent` — what is left of an asset in notes is in its vault, but for these fees.
-/

namespace Kakure

open Slices Guarded Runs

section Vaults

variable {env : Env} {call : Call}

/-! ## The pool's own token accounts -/

/-- An address for tokens of the pool: the associated one of a mint. -/
def Env.IsVault (env : Env) (poolKey vault : Pubkey) : Prop :=
  env.IsPool poolKey ∧ ∃ mint tokenProgram, env.getAssociatedTokenAddress poolKey mint tokenProgram = some vault

/-- The token accounts at these addresses are the pool's. -/
def Slots (env : Env) (L : Ledger) : Prop :=
  ∀ poolKey vault, env.IsVault poolKey vault → tokenProgramSupported (L vault).owner → Vaulted poolKey (L vault)

/-- What other transactions can do there: anyone opens an account for the pool or sends tokens to it, and no one debits
it, as that takes the pool's signature where the mint has no permanent delegate. -/
structure Untouched (env : Env) (L L' : Ledger) : Prop where
  opened : ∀ poolKey vault, env.IsVault poolKey vault → ¬ tokenProgramSupported (L vault).owner →
    tokenProgramSupported (L' vault).owner → Vaulted poolKey (L' vault)
  kept : ∀ poolKey vault, env.IsVault poolKey vault → Vaulted poolKey (L vault) → Vaulted poolKey (L' vault) ∧
    tokenMint (L' vault).data = tokenMint (L vault).data ∧ tokenAmount (L vault).data ≤ tokenAmount (L' vault).data

/-- A deposit that the permanent delegate of the mint pays from a token account of the pool. -/
def Call.Forced (env : Env) (call : Call) (L : Ledger) : Prop :=
  ∃ depositor mint source tokenProgram poolKey, call.accounts[0]? = some depositor ∧ call.accounts[3]? = some mint ∧
    call.accounts[5]? = some source ∧ call.accounts[6]? = some tokenProgram ∧
    env.permanentDelegateOf tokenProgram (L mint).data = some depositor ∧ env.IsVault poolKey source

/-- A step that is such a deposit. -/
def Label.Forced (env : Env) (L : Ledger) : Label → Prop
  | .success call (.deposit _ _ _) => call.Forced env L
  | _ => False

theorem Label.not_forced (hnone : ∀ mintData, env.permanentDelegate mintData = none) (L : Ledger) (l : Label) :
    ¬ l.Forced env L := by
  intro h
  cases l with
  | success call ix =>
    cases ix with
    | deposit proof publicInputs amount =>
      obtain ⟨_, _, _, tokenProgram, _, -, -, -, -, hdelegate, -⟩ := h
      rw [Env.permanentDelegateOf, hnone, ite_self] at hdelegate
      cases hdelegate
    | _ => exact h
  | _ => exact h

/-- A step that spares the pool's token accounts. -/
structure Spares (env : Env) (L : Ledger) (l : Label) (L' : Ledger) : Prop where
  outside : l = .outside → Untouched env L L'
  deposit : ¬ l.Forced env L

/-- The associated token program opens an account that is the wallet's alone. -/
def Env.OpensVaults (env : Env) : Prop :=
  ∀ mint mintData wallet lamports, tokenAccountBaseLen ≤ (env.newTokenAccount mint mintData wallet lamports).length ∧
    tokenOwner (env.newTokenAccount mint mintData wallet lamports) = wallet ∧
    tokenDelegate (env.newTokenAccount mint mintData wallet lamports) = none

/-- An account that is a token account after the vault was opened was one before, or is the new vault. -/
theorem VaultOpened.slot {wallet mint tokenProgram vault k : Pubkey} {m m' : Machine} (hnew : env.OpensVaults)
    (h : VaultOpened env wallet mint tokenProgram vault m m') (hsupported : tokenProgramSupported (m'.ledger k).owner) :
    ((m'.ledger k).owner = (m.ledger k).owner ∧ (m'.ledger k).data = (m.ledger k).data) ∨
      k = vault ∧ Vaulted wallet (m'.ledger k) := by
  by_cases hk : k = vault
  · subst hk
    rcases h.kept_or_created with ⟨rfl, -⟩ | ⟨-, -, lamports, hcreated⟩
    · exact Or.inl ⟨rfl, rfl⟩
    · refine Or.inr ⟨rfl, ?_⟩
      obtain ⟨hlen, howner, hdelegate⟩ := hnew mint (m.ledger mint).data wallet lamports
      rw [hcreated] at hsupported ⊢
      exact ⟨hsupported, hlen, howner, hdelegate⟩
  · exact Or.inl (h.same k hk)

namespace DepositPath

variable {S : Set Seeds} {seen : Pubkey → Pubkey → Prop} {publicInputs : List (Bytes 32)} {amount : ℕ} {m m' : Machine}
  {poolKey k : Pubkey} (d : DepositPath env call publicInputs amount m m')

include d

theorem transferred :
    Transferred env call d.tokenProgram d.depositorToken d.mint d.vault d.depositor amount d.opened m' :=
  (transferChecked_ok d.transfers).1

theorem tokensKept_registered : TokensKept ∅ m.ledger d.registered.ledger :=
  d.executes.tokensKept.trans d.registers.tokensKept

theorem tokensKept : TokensKept {d.vault} m.ledger d.opened.ledger :=
  (d.tokensKept_registered.mono (Set.empty_subset _)).trans d.opens.tokensKept

theorem same_of_unowned (hne : (d.registered.ledger k).owner ≠ env.programId) :
    (d.registered.ledger k).owner = (m.ledger k).owner ∧ (d.registered.ledger k).data = (m.ledger k).data := by
  obtain ⟨howner₂, hdata₂⟩ := d.registers.same_of_unowned hne
  obtain ⟨howner₁, hdata₁⟩ := d.executes.same_of_unowned (howner₂ ▸ hne)
  exact ⟨howner₂.trans howner₁, hdata₂.trans hdata₁⟩

theorem isPool (hkept : Kept env S seen m) : env.IsPool d.poolKey := (hkept.isPool d.verified d.executes).1

/-- What is a token account when the vault is open was one before, or is the vault. -/
theorem slot (hnew : env.OpensVaults) (hsupported : tokenProgramSupported (d.opened.ledger k).owner) :
    ((d.opened.ledger k).owner = (m.ledger k).owner ∧ (d.opened.ledger k).data = (m.ledger k).data) ∨
      k = d.vault ∧ Vaulted d.poolKey (d.opened.ledger k) := by
  rcases d.opens.slot hnew hsupported with ⟨howner, hdata⟩ | hvault
  · obtain ⟨howner', hdata'⟩ := d.same_of_unowned (howner ▸ tokenProgram_ne_programId hsupported)
    exact Or.inl ⟨howner.trans howner', hdata.trans hdata'⟩
  · exact Or.inr hvault

/-- The vault is the pool's when the tokens arrive. -/
theorem vaulted (hnew : env.OpensVaults) (hkept : Kept env S seen m) (hslots : Slots env m.ledger) :
    Vaulted d.poolKey (d.opened.ledger d.vault) := by
  have hsupported : tokenProgramSupported (d.opened.ledger d.vault).owner := by
    rw [d.transferred.destination_owner]
    exact d.supported
  rcases d.slot hnew hsupported with ⟨howner, hdata⟩ | ⟨-, hvaulted⟩
  · have hvault := hslots d.poolKey d.vault ⟨d.isPool hkept, d.mint, d.tokenProgram, d.ata⟩ (howner ▸ hsupported)
    exact hvault.congr howner hdata
  · exact hvaulted

/-- A mint is no account of the system program, so the vault that is opened is another account. -/
theorem mint_ne_system : (d.registered.ledger d.mint).owner ≠ systemProgramId := by
  intro hsystem
  have hunowned : (d.registered.ledger d.mint).owner ≠ env.programId := by
    rw [hsystem]
    exact env.programId_ne_system.symm
  have howner := (d.same_of_unowned hunowned).1.trans d.mintOwner
  exact tokenProgram_ne_system d.supported (howner.symm.trans hsystem)

/-- The mint is as it was. -/
theorem mint_kept : (d.opened.ledger d.mint).data = (m.ledger d.mint).data := by
  have hafter : tokenProgramSupported (d.opened.ledger d.mint).owner := by
    rw [d.transferred.mint_owner]
    exact d.supported
  by_cases hvault : d.mint = d.vault
  · rcases d.opens.kept_or_created with ⟨hsame, -⟩ | ⟨hsystem, -, -⟩
    · rw [hsame] at hafter ⊢
      exact (d.same_of_unowned (tokenProgram_ne_programId hafter)).2
    · rw [← hvault] at hsystem
      exact absurd hsystem d.mint_ne_system
  · exact (d.tokensKept.met d.mint hvault hafter).2

/-- No one signs for the pool, so the deposit is not paid from one of its accounts. -/
theorem source_ne (hcall : call.Admissible env) (hvault : env.IsVault poolKey k) (hforced : ¬ call.Forced env m.ledger)
    (hk : Vaulted poolKey (d.opened.ledger k)) : d.depositorToken ≠ k := by
  rintro rfl
  have hpermanent : env.permanentDelegateOf d.tokenProgram (d.opened.ledger d.mint).data ≠ some d.depositor := by
    rw [d.mint_kept]
    intro hdelegate
    exact hforced ⟨d.depositor, d.mint, d.depositorToken, d.tokenProgram, poolKey, d.depositorAccount, d.mintAccount,
      d.sourceAccount, d.tokenAccount, hdelegate, hvault⟩
  have hauthority := hk.authority_eq d.transferred hpermanent
  obtain ⟨⟨bump, hpda⟩, -⟩ := hvault
  have hsigner := d.signer
  rw [hauthority, hcall poolKey (isPda_of_pda env hpda)] at hsigner
  cases hsigner

/-- The amount arrives in the vault, but for the fee. -/
theorem arrives (hne : d.depositorToken ≠ d.vault) :
    tokenAmount (d.opened.ledger d.vault).data + amount ≤ tokenAmount (m'.ledger d.vault).data +
      env.feeOf d.tokenProgram (m.ledger d.mint).data call.epoch amount := by
  have harrived := d.transferred.arrived hne
  rwa [d.mint_kept] at harrived

end DepositPath

section Steps

variable {S : Set Seeds} {seen : Pubkey → Pubkey → Prop} {ix : PoolInstruction} {m m' : Machine}
  {poolKey vault : Pubkey}

/-- The pool's token accounts stay its own, and a withdraw of their mint debits them at most. -/
theorem Pays.vaulted (h : Pays env call ix m m') (hcall : call.Admissible env) (haddress : env.IsVault poolKey vault)
    (hforced : ¬ (Label.success call ix).Forced env m.ledger) (hvault : Vaulted poolKey (m.ledger vault)) :
    Vaulted poolKey (m'.ledger vault) ∧ tokenMint (m'.ledger vault).data = tokenMint (m.ledger vault).data ∧
      tokenAmount (m.ledger vault).data ≤ tokenAmount (m'.ledger vault).data +
        ix.paidOut env call (assetOf env (tokenMint (m.ledger vault).data)) := by
  cases h with
  | nothing hkept _ _ =>
    obtain ⟨hafter, hdata⟩ := hkept.vaulted hvault
    rw [hdata]
    exact ⟨hafter, rfl, Nat.le_add_right _ _⟩
  | deposit d =>
    obtain ⟨hopened, hdata⟩ := d.tokensKept.vaulted hvault
    obtain ⟨hafter, hmint⟩ := hopened.transferred d.transfers
    have hle := d.transferred.token_le (Or.inl (d.source_ne hcall haddress hforced hopened).symm)
    rw [hdata] at hmint hle
    exact ⟨hafter, hmint, hle.trans (Nat.le_add_right _ _)⟩
  | @withdraw _ _ _ mint source _ _ amount _ _ m₁ _ hin hout hkept htransfer =>
    obtain ⟨hbefore, hdata⟩ := hkept.vaulted hvault
    obtain ⟨hafter, hmint⟩ := hbefore.transferred htransfer
    obtain ⟨htransferred, -⟩ := transferChecked_ok htransfer
    rw [hdata] at hmint
    refine ⟨hafter, hmint, ?_⟩
    by_cases hsource : vault = source
    · -- the mint of the vault is the one that is withdrawn
      have hsame := (transferChecked_data htransfer).1
      rw [← hsource, hdata] at hsame
      have hle := htransferred.token_le_add vault
      rw [hdata] at hle
      rw [hout, hsame, Pi.single_eq_same]
      exact hle
    · have hle := htransferred.token_le (Or.inl hsource)
      rw [hdata] at hle
      exact hle.trans (Nat.le_add_right _ _)

/-- What becomes a token account at an address of the pool is the pool's. -/
theorem Pays.slots (h : Pays env call ix m m') (hnew : env.OpensVaults) (hkept : Kept env S seen m)
    (hslots : Slots env m.ledger) : Slots env m'.ledger := by
  intro poolKey vault hvault hsupported
  have hpast : ∀ {L : Ledger}, (L vault).owner = (m.ledger vault).owner → (L vault).data = (m.ledger vault).data →
      tokenProgramSupported (L vault).owner → Vaulted poolKey (L vault) := fun howner hdata hL =>
    (hslots poolKey vault hvault (howner ▸ hL)).congr howner hdata
  cases h with
  | nothing hsame _ _ =>
    obtain ⟨howner, hdata⟩ := hsame.met vault (Set.notMem_empty _) hsupported
    exact hpast howner hdata hsupported
  | deposit d =>
    rw [d.transferred.owners] at hsupported
    refine (Vaulted.transferred ?_ d.transfers).1
    rcases d.slot hnew hsupported with ⟨howner, hdata⟩ | ⟨-, hopened⟩
    · exact hpast howner hdata hsupported
    · rwa [hvault.1.eq (d.isPool hkept)]
  | withdraw _ _ hsame htransfer =>
    rw [(transferChecked_ok htransfer).1.owners] at hsupported
    obtain ⟨howner, hdata⟩ := hsame.met vault (Set.notMem_empty _) hsupported
    exact (Vaulted.transferred (hpast howner hdata hsupported) htransfer).1

end Steps

/-! ## Registry entries -/

/-- A registry entry whose vault holds its mint for the pool. -/
structure Backs (env : Env) (m : Machine) (entry : Asset) : Prop where
  registered : RegistryEntry env m (assetIdBytes env entry.mint) entry
  vaulted : ∃ poolKey, env.IsVault poolKey entry.vault ∧ Vaulted poolKey (m.ledger entry.vault)
  mint : tokenMint (m.ledger entry.vault).data = entry.mint

/-- Mints of one asset have one asset id. -/
theorem assetIdBytes_of_assetOf {mint mint' : Pubkey} (h : assetOf env mint = assetOf env mint') :
    assetIdBytes env mint = assetIdBytes env mint' := by
  have hfield : assetIdField env mint = assetIdField env mint' := by rw [assetIdField_eq, assetIdField_eq, h]
  exact Subtype.ext (List.append_cancel_left (congrArg Subtype.val hfield))

theorem Asset.eq_of_data {a b : Asset} (h : a.data = b.data) : a = b := by
  cases a
  cases b
  cases h
  rfl

/-- An account of a derived address: the program's, no one's, or the pool's vault. -/
def Taken (env : Env) (L : Ledger) (key : Pubkey) : Prop :=
  OwnedOrIdle env L key ∨ ∃ poolKey, env.IsVault poolKey key ∧ Vaulted poolKey (L key)

section Entries

variable {publicInputs : List (Bytes 32)} {amount : ℕ} {m m' : Machine} {entry : Asset}

/-- An account of the length of an entry is not the pool. -/
theorem ne_of_length {key poolKey : Pubkey} {pool : Pool} (hlen : (m.ledger key).data.length = assetLen)
    (hpool : pool.data = (m.ledger poolKey).data) : key ≠ poolKey := by
  rintro rfl
  have hboth := pool.length_data
  rw [hpool, hlen] at hboth
  exact absurd hboth (by decide)

/-- A deposit of a registered asset is a deposit into the vault of its entry. -/
theorem DepositPath.entry_eq (d : DepositPath env call publicInputs amount m m')
    (hentry : RegistryEntry env m (assetIdBytes env d.mint) entry) : entry = d.asset := by
  obtain ⟨key, bump, hpda, hown, hdata⟩ := hentry
  have hkey : key = d.assetKey := by
    have hsame := hpda.symm.trans d.pda
    cases hsame
    rfl
  rw [hkey] at hown hdata
  obtain ⟨hown', hdata'⟩ := d.executes.keeps hown
  have hne : d.assetKey ≠ d.poolKey :=
    ne_of_length (by rw [← hdata, entry.length_data]) d.executes.pool_before
  rcases d.registers.kept_or_created with hsame | ⟨hfresh, -⟩
  · have hafter := d.registers.entry
    rw [hsame, hdata' hne, ← hdata] at hafter
    exact Asset.eq_of_data hafter
  · exact absurd hown' hfresh

/-- After a deposit the registry has the entry of its mint. -/
theorem DepositPath.registryEntry (d : DepositPath env call publicInputs amount m m')
    (htaken : Taken env m.ledger d.assetKey) : RegistryEntry env m' (assetIdBytes env d.mint) d.asset := by
  have hlen : (d.registered.ledger d.assetKey).data.length = assetLen := by rw [d.registers.entry, d.asset.length_data]
  have hown : (d.registered.ledger d.assetKey).owner = env.programId := by
    rcases htaken with hidle | ⟨poolKey, -, hvaulted⟩
    · rcases d.registers.ownedOrIdle (d.executes.ownedOrIdle hidle) with hown | ⟨-, hnil⟩
      · exact hown
      · rw [hnil] at hlen
        exact absurd hlen (by decide)
    · -- a token account is longer than an entry
      have hlong := (d.tokensKept_registered.vaulted hvaulted).1.length
      rw [hlen] at hlong
      exact absurd hlong (by decide)
  have htail := (sameOwned_of_vaultOpened d.supported d.opens).trans
    (sameOwned_of_transferred d.supported d.transferred)
  obtain ⟨hown', hdata'⟩ := htail.keeps hown
  exact ⟨d.assetKey, d.assetBump, d.pda, hown', d.registers.entry.symm.trans hdata'.symm⟩

/-- After a deposit the entry of its mint names a vault that holds it. -/
theorem DepositPath.backs (d : DepositPath env call publicInputs amount m m')
    (hopened : Vaulted d.poolKey (d.opened.ledger d.vault)) (hpool : env.IsPool d.poolKey)
    (htaken : Taken env m.ledger d.assetKey) : Backs env m' d.asset := by
  obtain ⟨hvaulted, hmint⟩ := hopened.transferred d.transfers
  have hmintOf : tokenMint (d.opened.ledger d.vault).data = d.mint := (transferChecked_data d.transfers).2.1
  refine ⟨?_, ?_, ?_⟩
  · rw [d.registers.asset_mint]
    exact d.registryEntry htaken
  · rw [d.registers.asset_vault]
    exact ⟨d.poolKey, ⟨hpool, d.mint, d.tokenProgram, d.ata⟩, hvaulted⟩
  · rw [d.registers.asset_vault, d.registers.asset_mint, hmint, hmintOf]

end Entries

/-! ## Steps -/

section Steps

variable {S : Set Seeds} {seen : Pubkey → Pubkey → Prop} {l : Label} {m m' : Machine} {key poolKey vault : Pubkey}
  {entry : Asset}

/-- A registry entry is never written again. -/
theorem Step.keeps_entry (hstep : Step env m l m') (hown : (m.ledger key).owner = env.programId)
    (hlen : (m.ledger key).data.length = assetLen) :
    (m'.ledger key).owner = env.programId ∧ (m'.ledger key).data = (m.ledger key).data := by
  refine ⟨hstep.keeps_owner hown, ?_⟩
  cases hstep with
  | failure _ _ => rfl
  | outside hout => exact (hout.owned key hown).2
  | success _ hprocess =>
    cases effect_of_process hprocess with
    | initialized hinit =>
      refine (hinit.same key ?_).2
      rintro rfl
      exact hinit.owner_before hown
    | administered hadmin _ _ => exact (hadmin.same key (ne_of_length hlen hadmin.pool_before)).2
    | deposited _ _ _ _ _ _ _ _ hexecuted hregistered htail _ _ =>
      obtain ⟨hown₁, hdata₁⟩ := hexecuted.keeps hown
      obtain ⟨hown₂, hdata₂⟩ := hregistered.keeps hown₁
      exact ((htail.keeps hown₂).2.trans hdata₂).trans (hdata₁ (ne_of_length hlen hexecuted.pool_before))
    | spent _ _ _ _ hexecuted htail _ _ =>
      obtain ⟨hown₁, hdata₁⟩ := hexecuted.keeps hown
      exact (htail.keeps hown₁).2.trans (hdata₁ (ne_of_length hlen hexecuted.pool_before))

/-- A step debits the pool's vaults with what it pays out of their mint. -/
theorem Step.vaulted (hstep : Step env m l m') (hspares : Spares env m.ledger l m'.ledger)
    (hvault : env.IsVault poolKey vault) (h : Vaulted poolKey (m.ledger vault)) :
    Vaulted poolKey (m'.ledger vault) ∧ tokenMint (m'.ledger vault).data = tokenMint (m.ledger vault).data ∧
      tokenAmount (m.ledger vault).data ≤ tokenAmount (m'.ledger vault).data +
        l.paidOut env (assetOf env (tokenMint (m.ledger vault).data)) := by
  cases hstep with
  | failure _ _ => exact ⟨h, rfl, Nat.le_add_right _ _⟩
  | outside _ =>
    obtain ⟨hafter, hmint, hle⟩ := (hspares.outside rfl).kept poolKey vault hvault h
    exact ⟨hafter, hmint, hle.trans (Nat.le_add_right _ _)⟩
  | success hcall hprocess => exact (pays_of_process hprocess).vaulted hcall hvault hspares.deposit h

theorem Step.slots (hstep : Step env m l m') (hspares : Spares env m.ledger l m'.ledger)
    (hnew : env.OpensVaults) (hkept : Kept env S seen m) (hslots : Slots env m.ledger) : Slots env m'.ledger := by
  cases hstep with
  | failure _ _ => exact hslots
  | outside _ =>
    intro poolKey vault hvault hsupported
    by_cases hbefore : tokenProgramSupported (m.ledger vault).owner
    · exact ((hspares.outside rfl).kept poolKey vault hvault (hslots poolKey vault hvault hbefore)).1
    · exact (hspares.outside rfl).opened poolKey vault hvault hbefore hsupported
  | success _ hprocess => exact (pays_of_process hprocess).slots hnew hkept hslots

theorem Step.taken (hstep : Step env m l m') (hspares : Spares env m.ledger l m'.ledger)
    (hnew : env.OpensVaults) (hkept : Kept env S seen m) (hslots : Slots env m.ledger) (hpda : env.IsPda key)
    (h : Taken env m.ledger key) : Taken env m'.ledger key := by
  rcases h with hidle | ⟨poolKey, hvault, hvaulted⟩
  · by_cases hmem : key ∈ l.vaults
    · cases hstep with
      | failure _ _ => exact Or.inl hidle
      | outside _ => exact absurd hmem (Set.notMem_empty _)
      | @success call ix _ _ _ hprocess =>
        cases ix with
        | deposit proof publicInputs amount =>
          obtain ⟨d⟩ := exists_depositPath hprocess
          have hkey : key = d.vault := Option.some_inj.1 (Eq.trans (Eq.symm hmem) d.vaultAccount)
          rw [hkey]
          exact Or.inr ⟨d.poolKey, ⟨d.isPool hkept, d.mint, d.tokenProgram, d.ata⟩,
            ((d.vaulted hnew hkept hslots).transferred d.transfers).1⟩
        | _ => exact absurd hmem (Set.notMem_empty _)
    · exact Or.inl (hstep.ownedOrIdle hpda hmem hidle)
  · exact Or.inr ⟨poolKey, hvault, (hstep.vaulted hspares hvault hvaulted).1⟩

theorem Backs.step (h : Backs env m entry) (hstep : Step env m l m')
    (hspares : Spares env m.ledger l m'.ledger) :
    Backs env m' entry ∧ tokenAmount (m.ledger entry.vault).data ≤ tokenAmount (m'.ledger entry.vault).data +
      l.paidOut env (assetOf env entry.mint) := by
  obtain ⟨key, bump, hpda, hown, hdata⟩ := h.registered
  obtain ⟨poolKey, hvault, hvaulted⟩ := h.vaulted
  obtain ⟨hown', hdata'⟩ := hstep.keeps_entry hown (by rw [← hdata, entry.length_data])
  obtain ⟨hvaulted', hmint, hle⟩ := hstep.vaulted hspares hvault hvaulted
  rw [h.mint] at hmint hle
  exact ⟨⟨⟨key, bump, hpda, hown', hdata.trans hdata'.symm⟩, ⟨poolKey, hvault, hvaulted'⟩, hmint⟩, hle⟩

end Steps

/-! ## Fees -/

/-- What the mint keeps back of the tokens of a deposit, asset by asset. -/
def PoolInstruction.keptBack (env : Env) (call : Call) (L : Ledger) : PoolInstruction → Fr → ℕ
  | .deposit _ _ amount => (call.accounts[3]?).elim 0 fun mint => (call.accounts[6]?).elim 0 fun tokenProgram =>
    Pi.single (assetOf env mint) (env.feeOf tokenProgram (L mint).data call.epoch amount.toNat)
  | _ => 0

def Label.keptBack (env : Env) (L : Ledger) : Label → Fr → ℕ
  | .success call ix => ix.keptBack env call L
  | _ => 0

section Deposits

variable (proof : Bytes 192) {publicInputs : List (Bytes 32)} {amount : UInt64} {m m' : Machine}

theorem DepositPath.paidIn_eq (d : DepositPath env call publicInputs amount.toNat m m') :
    (PoolInstruction.deposit proof publicInputs amount).paidIn env call =
      Pi.single (assetOf env d.mint) amount.toNat := by
  rw [PoolInstruction.paidIn, d.mintAccount, Option.elim_some]

theorem DepositPath.keptBack_eq (d : DepositPath env call publicInputs amount.toNat m m') :
    (PoolInstruction.deposit proof publicInputs amount).keptBack env call m.ledger =
      Pi.single (assetOf env d.mint)
        (env.feeOf d.tokenProgram (m.ledger d.mint).data call.epoch amount.toNat) := by
  rw [PoolInstruction.keptBack, d.mintAccount, Option.elim_some, d.tokenAccount, Option.elim_some]

end Deposits

/-- A deposit of the asset under Token-2022, whose mints can ask for fees. -/
def Label.PaysFee (env : Env) (asset : Fr) : Label → Prop
  | .success call (.deposit _ _ _) => (∃ mint, call.accounts[3]? = some mint ∧ assetOf env mint = asset) ∧
    call.accounts[6]? = some token2022ProgramId
  | _ => False

theorem Label.keptBack_eq_zero {l : Label} {asset : Fr} (h : ¬ l.PaysFee env asset) (L : Ledger) :
    l.keptBack env L asset = 0 := by
  cases l with
  | success call ix =>
    cases ix with
    | deposit proof publicInputs amount =>
      simp only [Label.keptBack, PoolInstruction.keptBack]
      cases hmint : call.accounts[3]? with
      | none => rfl
      | some mint =>
        cases htoken : call.accounts[6]? with
        | none => rfl
        | some tokenProgram =>
          rw [Option.elim_some, Option.elim_some, Pi.single_apply]
          split
          · rename_i hasset
            have hne : tokenProgram ≠ token2022ProgramId := by
              rintro rfl
              exact h ⟨⟨mint, hmint, hasset.symm⟩, htoken⟩
            rw [Env.feeOf, if_neg hne]
          · rfl
    | _ => rfl
  | _ => rfl

/-- The steps of the pool, with what was kept back of the deposits so far; other transactions leave its vaults to it. -/
inductive Charged (env : Env) : Machine × (Fr → ℕ) → Label → Machine × (Fr → ℕ) → Prop
  | step {m m' : Machine} {fees : Fr → ℕ} {l : Label} (h : Step env m l m')
      (hspares : Spares env m.ledger l m'.ledger) :
      Charged env (m, fees) l (m', fees + l.keptBack env m.ledger)

section Runs

variable {s₀ s s' : Machine × (Fr → ℕ)} {ls : List Label} {l : Label}

theorem Charged.toStep (h : Charged env s l s') : Step env s.1 l s'.1 := by
  cases h with
  | step h _ => exact h

theorem run_of_charged (h : Run (Charged env) s₀ ls s) : Run (Step env) s₀.1 ls s.1 :=
  h.invariant (P := fun ls s => Run (Step env) s₀.1 ls s.1) Run.start fun _ _ _ _ _ ih hstep => ih.snoc hstep.toStep

/-- Nothing is kept back of an asset that is never deposited under Token-2022. -/
theorem fees_eq_zero {m₀ m : Machine} {fees : Fr → ℕ} {asset : Fr} (h : Run (Charged env) (m₀, 0) ls (m, fees))
    (hnone : ∀ l ∈ ls, ¬ l.PaysFee env asset) : fees asset = 0 := by
  refine h.invariant (P := fun ls s => (∀ l ∈ ls, ¬ l.PaysFee env asset) → s.2 asset = 0) (fun _ => rfl) ?_ hnone
  intro ls s l s' _ ih hstep hnone
  cases hstep with
  | step _ _ =>
    have hbefore := ih fun l' hl' => hnone l' (List.mem_append_left _ hl')
    have hlast := Label.keptBack_eq_zero (hnone l (by simp))
    dsimp only at hbefore ⊢
    rw [Pi.add_apply, hbefore, hlast]

/-! ## What is owed -/

/-- The invariant of the runs: what was deposited of an asset is in the vault of its entry, but for what was withdrawn
and what was kept back. -/
structure Solvent (env : Env) (ls : List Label) (m : Machine) (fees : Fr → ℕ) : Prop where
  slots : Slots env m.ledger
  taken : ∀ key, env.IsPda key → Taken env m.ledger key
  backed : ∀ asset, deposited env ls asset = 0 ∨ ∃ entry, Backs env m entry ∧ assetOf env entry.mint = asset ∧
    deposited env ls asset ≤ tokenAmount (m.ledger entry.vault).data + withdrawn env ls asset + fees asset

theorem solvent_of_fresh {m : Machine} (hfresh : Fresh env m) (hslots : Slots env m.ledger) : Solvent env [] m 0 where
  slots := hslots
  taken key hpda := Or.inl (Or.inr (hfresh.derived key hpda))
  backed _ := Or.inl rfl

variable {S : Set Seeds} {seen : Pubkey → Pubkey → Prop} {m m' : Machine} {fees : Fr → ℕ}

/-- A deposit puts into the vault what it is credited with, but for the fee. -/
theorem Solvent.deposited {proof : Bytes 192} {publicInputs : List (Bytes 32)} {amount : UInt64}
    (h : Solvent env ls m fees) (hnew : env.OpensVaults) (hkept : Kept env S seen m) (hcall : call.Admissible env)
    (hforced : ¬ call.Forced env m.ledger) (d : DepositPath env call publicInputs amount.toNat m m') :
    ∃ entry, Backs env m' entry ∧ assetOf env entry.mint = assetOf env d.mint ∧
      Kakure.deposited env (ls ++ [.success call (.deposit proof publicInputs amount)]) (assetOf env d.mint) ≤
        tokenAmount (m'.ledger entry.vault).data +
          withdrawn env (ls ++ [.success call (.deposit proof publicInputs amount)]) (assetOf env d.mint) +
          (fees + (Label.success call (.deposit proof publicInputs amount)).keptBack env m.ledger)
            (assetOf env d.mint) := by
  have hopened := d.vaulted hnew hkept h.slots
  refine ⟨d.asset, d.backs hopened (d.isPool hkept) (h.taken d.assetKey (isPda_of_pda env d.pda)), ?_, ?_⟩
  · rw [d.registers.asset_mint]
  have hin : (Label.success call (.deposit proof publicInputs amount)).paidIn env (assetOf env d.mint) =
      amount.toNat := (congrFun (d.paidIn_eq proof) _).trans (Pi.single_eq_same _ _)
  have hfee : (Label.success call (.deposit proof publicInputs amount)).keptBack env m.ledger (assetOf env d.mint) =
      env.feeOf d.tokenProgram (m.ledger d.mint).data call.epoch amount.toNat :=
    (congrFun (d.keptBack_eq proof) _).trans (Pi.single_eq_same _ _)
  have harrives := d.arrives (d.source_ne hcall ⟨d.isPool hkept, d.mint, d.tokenProgram, d.ata⟩ hforced hopened)
  rw [deposited_snoc, withdrawn_snoc, Pi.add_apply, Pi.add_apply, Pi.add_apply, hin, hfee, d.registers.asset_vault]
  rcases h.backed (assetOf env d.mint) with hzero | ⟨entry, hbacks, hasset, hle⟩
  · omega
  · -- the entry is the one the deposit goes by, and its vault is as it was when the tokens arrive
    have hid := assetIdBytes_of_assetOf hasset
    have heq := d.entry_eq (hid ▸ hbacks.registered)
    obtain ⟨poolKey, -, hbefore⟩ := hbacks.vaulted
    rw [heq, d.registers.asset_vault] at hbefore hle
    rw [(d.tokensKept.vaulted hbefore).2] at harrives
    omega

theorem Solvent.step (h : Solvent env ls m fees) (hnew : env.OpensVaults) (hkept : Kept env S seen m)
    (hstep : Step env m l m') (hspares : Spares env m.ledger l m'.ledger) :
    Solvent env (ls ++ [l]) m' (fees + l.keptBack env m.ledger) where
  slots := hstep.slots hspares hnew hkept h.slots
  taken key hpda := hstep.taken hspares hnew hkept h.slots hpda (h.taken key hpda)
  backed asset := by
    by_cases hin : l.paidIn env asset = 0
    · rcases h.backed asset with hzero | ⟨entry, hbacks, hasset, hle⟩
      · left
        rw [deposited_snoc, Pi.add_apply, hzero, hin]
      · obtain ⟨hbacks', hdebit⟩ := hbacks.step hstep hspares
        rw [hasset] at hdebit
        refine Or.inr ⟨entry, hbacks', hasset, ?_⟩
        rw [deposited_snoc, withdrawn_snoc, Pi.add_apply, Pi.add_apply, Pi.add_apply, hin]
        omega
    · -- only a deposit pays in
      right
      cases hstep with
      | failure _ _ => exact absurd rfl hin
      | outside _ => exact absurd rfl hin
      | @success call ix _ _ hcall hprocess =>
        cases ix with
        | deposit proof publicInputs amount =>
          obtain ⟨d⟩ := exists_depositPath hprocess
          have hasset : asset = assetOf env d.mint := by
            by_contra hne
            exact hin ((congrFun (d.paidIn_eq proof) asset).trans (Pi.single_eq_of_ne hne _))
          rw [hasset]
          exact h.deposited hnew hkept hcall hspares.deposit d
        | _ => exact absurd rfl hin

theorem run_solvent {m₀ : Machine} (hfresh : Fresh env m₀) (hslots : Slots env m₀.ledger) (hnew : env.OpensVaults)
    (hrun : Run (Charged env) (m₀, 0) ls (m, fees)) : Solvent env ls m fees := by
  refine hrun.invariant (P := fun ls s => Solvent env ls s.1 s.2) (solvent_of_fresh hfresh hslots) ?_
  intro ls s l s' hrun ih hstep
  have hkept := run_kept (S := Set.univ) hfresh (run_of_charged hrun) fun _ _ => Set.subset_univ _
  cases hstep with
  | step hstep hspares => exact ih.step hnew hkept hstep hspares

/-- Such steps, with proofs that have a witness. -/
def SoundCharged (env : Env) (poseidon2 : List Fr → Fr) (H : Hashed) (s : Machine × (Fr → ℕ)) (l : Label)
    (s' : Machine × (Fr → ℕ)) : Prop := Charged env s l s' ∧ l.Sound env poseidon2 H s.1

variable {poseidon2 : List Fr → Fr} {H : Hashed}

theorem soundRun_of_charged (h : Run (SoundCharged env poseidon2 H) s₀ ls s) :
    Run (SoundStep env poseidon2 H) s₀.1 ls s.1 :=
  h.invariant (P := fun ls s => Run (SoundStep env poseidon2 H) s₀.1 ls s.1) Run.start
    fun _ _ _ _ _ ih hstep => ih.snoc ⟨hstep.1.toStep, hstep.2⟩

/-- A run without other transactions, where no mint has a permanent delegate. -/
theorem charged_of_run {m₀ : Machine} (hnone : ∀ mintData, env.permanentDelegate mintData = none)
    (h : Run (SoundStep env poseidon2 H) m₀ ls m) (hinside : ∀ l ∈ ls, l ≠ .outside) :
    ∃ fees, Run (SoundCharged env poseidon2 H) (m₀, 0) ls (m, fees) := by
  refine h.invariant (P := fun ls m => (∀ l ∈ ls, l ≠ .outside) →
    ∃ fees, Run (SoundCharged env poseidon2 H) (m₀, 0) ls (m, fees)) (fun _ => ⟨0, Run.start⟩) ?_ hinside
  rintro ls m l m' _ ih ⟨hstep, hsound⟩ hinside
  obtain ⟨fees, hrun⟩ := ih fun l' hl' => hinside l' (List.mem_append_left _ hl')
  exact ⟨_, hrun.snoc ⟨.step hstep ⟨fun hout => absurd hout (hinside l (by simp)), l.not_forced hnone _⟩, hsound⟩⟩

/-- In every run of the pool, if no one but the token programs moves its tokens, no permanent delegate deposits them, the
proofs it accepts have a witness and nothing that is hashed for them and in its tree collides: what an asset is worth in
unspent notes is in the vault of its registry entry, a token account of that mint that only the pool debits, but for the
fees that were kept back of its deposits; and nothing is kept back where the asset is never deposited under
Token-2022. -/
theorem solvent {m₀ m : Machine} (hfresh : Fresh env m₀) (hslots : Slots env m₀.ledger) (hnew : env.OpensVaults)
    (hrun : Run (SoundCharged env poseidon2 H) (m₀, 0) ls (m, fees)) (h : Assumes env poseidon2 H ls m) :
    ∃ ns : List Circuit.Note, (∀ n ∈ ns, n ∈ H.notes) ∧
      ((noteEvents m.log).map NoteInserted.leaf).tail = ns.map (fun n => (n.leaf poseidon2).toBytes) ∧
      ∀ asset, (unspentValue poseidon2 ns (consumed ls) asset = 0 ∨ ∃ entry, Backs env m entry ∧
          assetOf env entry.mint = asset ∧ unspentValue poseidon2 ns (consumed ls) asset ≤
            tokenAmount (m.ledger entry.vault).data + fees asset) ∧
        ((∀ l ∈ ls, ¬ l.PaysFee env asset) → fees asset = 0) := by
  have hcharged : Run (Charged env) (m₀, 0) ls (m, fees) := hrun.mono fun _ _ _ hstep => hstep.1
  obtain ⟨ns, hnotes, hleaves, hbalance⟩ := no_inflation hfresh (soundRun_of_charged hrun) h
  refine ⟨ns, hnotes, hleaves, fun asset => ⟨?_, fees_eq_zero hcharged⟩⟩
  have hvalue := hbalance asset
  rcases (run_solvent hfresh hslots hnew hcharged).backed asset with hzero | ⟨entry, hbacks, hasset, hle⟩
  · left
    omega
  · refine Or.inr ⟨entry, hbacks, hasset, ?_⟩
    omega

end Runs

end Vaults

/-! ## A vault after a deposit -/

namespace Sample

theorem foldl_lt (d : List UInt8) : ∀ h₀ < 2 ^ 254,
    d.foldl (fun h b => (h * 257 + b.toNat + 1) % 2 ^ 254) h₀ < 2 ^ 254 := by
  induction d with
  | nil => exact fun _ h₀ => h₀
  | cons b d ih => exact fun _ _ => ih _ (Nat.mod_lt _ (by norm_num))

theorem le_hash (d : List UInt8) : 2 ^ 255 ≤ beNat (hash 0 d).val := by
  have hn := foldl_lt d 1 (by norm_num)
  rw [hash, beNat_beBytes]
  · omega
  · generalize List.foldl _ _ _ = n at hn
    norm_num at hn ⊢
    omega

/-- The token accounts of the sample state are at no address of the pool. -/
theorem slots : Slots soundEnv machine.ledger := by
  rintro poolKey k ⟨-, mint', tokenProgram, hata⟩ hsupported
  exfalso
  obtain ⟨⟨key, bump⟩, hfind, hkey⟩ := Option.map_eq_some_iff.1 hata
  have hcreate := Env.createProgramAddress_of_find soundEnv hfind
  have hhash : hash 0 (([poolKey.val, tokenProgram.val, mint'.val] ++ [[bump]]).flatten ++
      associatedTokenProgramId.val) = k := (Option.some_inj.1 hcreate).trans hkey
  -- what is hashed is above the addresses that are written out
  have hne : ∀ k' : Pubkey, beNat k'.val < 2 ^ 255 → k ≠ k' := by
    rintro k' hlt rfl
    exact absurd (hhash ▸ le_hash _) (Nat.not_le.2 hlt)
  unfold machine at hsupported
  simp only [hne mint (by decide +kernel), hne userToken (by decide +kernel), hne stray (by decide +kernel),
    if_false] at hsupported
  split at hsupported
  · exact absurd hsupported (by decide)
  · split at hsupported
    · exact absurd hsupported (by decide)
    · exact absurd hsupported (by decide)

theorem opensVaults : soundEnv.OpensVaults := by
  intro mint' mintData wallet lamports
  have hnew : soundEnv.newTokenAccount mint' mintData wallet lamports =
      mint'.val ++ (wallet.val ++ List.replicate 101 0) := List.append_assoc _ _ _
  have hmint : mint'.val.length = 32 := mint'.2
  have hwallet : wallet.val.length = 32 := wallet.2
  rw [hnew]
  refine ⟨?_, readAt_append hmint, ?_⟩
  · simp [hmint, hwallet, tokenAccountBaseLen]
  · have htag : (readAt 4 (mint'.val ++ (wallet.val ++ List.replicate 101 0)) 72).val = [0, 0, 0, 0] := by
      rw [readAt_of_le (by simp [hmint, hwallet]), ← List.append_assoc, List.drop_append,
        List.drop_of_length_le (by simp [hmint, hwallet]), List.length_append, hmint, hwallet]
      rfl
    rw [tokenDelegate, if_neg (by rw [htag]; decide)]

/-- After the deposit of 100 tokens and the transfer of 40 the vault holds what the memo and the change are worth. -/
theorem solvent_sample : ∃ m fees entry,
    Run (SoundCharged soundEnv noteHash hashed) (machine, 0) labels (m, fees) ∧
      unspentValue noteHash [note, memo, change] [nullifierSound] (assetOf env mint) = 100 ∧ Backs soundEnv m entry ∧
      fees (assetOf env mint) = 0 ∧ 100 ≤ tokenAmount (m.ledger entry.vault).data := by
  obtain ⟨m, hfresh, hrun, hleaves⟩ := exists_run
  obtain ⟨fees, hcharged⟩ := charged_of_run (fun _ => rfl) hrun (by simp [labels, steps])
  obtain ⟨ns, hnotes, htail, hbacked⟩ := solvent hfresh slots opensVaults hcharged (assumes hleaves)
  have hvalue : unspentValue noteHash [note, memo, change] [nullifierSound] (assetOf env mint) = 100 := by
    decide +kernel
  obtain ⟨hvault, hfees⟩ := hbacked (assetOf env mint)
  have hzero : fees (assetOf env mint) = 0 := by
    refine hfees fun l hl hpays => ?_
    simp only [labels, steps, List.map_cons, List.map_nil, List.mem_cons, List.not_mem_nil, or_false] at hl
    rcases hl with rfl | rfl | rfl
    · exact hpays
    · exact absurd hpays.2 (by decide)
    · exact hpays
  rw [eq_notes hleaves hnotes htail, consumed_labels, hvalue, hzero] at hvault
  rcases hvault with hnone | ⟨entry, hbacks, -, hle⟩
  · cases hnone
  · exact ⟨m, fees, entry, hcharged, hvalue, hbacks, hzero, hle⟩

end Sample

end Kakure
