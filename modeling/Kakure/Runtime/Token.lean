import Kakure.Runtime.Ledger

/-!
# Token accounts

The part of SPL Token and Token-2022 that the program calls: `TransferChecked` on the
base account layout the two programs share, and the associated token program's
`Create`.  A Token-2022 transfer keeps back the fee of the mint's extension, and the permanent
delegate of its mint may make it whosever the source is.

* `transferChecked_ok` — a successful transfer was authorised by the source, changed
  its two token accounts only, and moved the amount less the fee;
* `createAssociatedTokenAccount_ok` — a successful creation turned a fresh account
  into a token account of the wallet.
-/

namespace Kakure

open Slices Guarded

/-! ## The base layout -/

/-- `Account::LEN`. -/
def tokenAccountBaseLen : ℕ := 165

def tokenMint (data : List UInt8) : Pubkey := readAt 32 data 0
def tokenOwner (data : List UInt8) : Pubkey := readAt 32 data 32
def tokenAmount (data : List UInt8) : ℕ := leNat (readAt 8 data 64).val
def setTokenAmount (data : List UInt8) (amount : ℕ) : List UInt8 :=
  writeAt data 64 (leBytes 8 amount).val

/-- The delegate, where its option tag is set. -/
def tokenDelegate (data : List UInt8) : Option Pubkey :=
  if (readAt 4 data 72).val = [1, 0, 0, 0] then some (readAt 32 data 76) else none

def delegatedAmount (data : List UInt8) : ℕ := leNat (readAt 8 data 121).val

/-- What is left of the allowance after a transfer; a used-up one is revoked. -/
def spendDelegated (data : List UInt8) (amount : ℕ) : List UInt8 :=
  let left := delegatedAmount data - amount
  let data' := writeAt data 121 (leBytes 8 left).val
  if left = 0 then writeAt data' 72 [0, 0, 0, 0] else data'

/-- The source's data after the authority is checked: the permanent delegate of the mint needs
nothing, the delegate spends its allowance, anyone else has to be the owner. -/
def authorize (permanent : Option Pubkey) (data : List UInt8) (authority : Pubkey) (amount : ℕ) :
    Option (List UInt8) :=
  if permanent = some authority then some data
  else if tokenDelegate data = some authority then
    if amount ≤ delegatedAmount data then some (spendDelegated data amount) else none
  else if tokenOwner data = authority then some data
  else none

/-- The decimals of a mint. -/
def decimalsOf (mintData : List UInt8) : UInt8 := mintData.getD 44 0

variable (env : Env) (call : Call)

/-- The fee a token program keeps back. -/
def Env.feeOf (tokenProgram : Pubkey) (mintData : List UInt8) (epoch amount : ℕ) : ℕ :=
  if tokenProgram = token2022ProgramId then env.transferFee mintData epoch amount else 0

/-- The permanent delegate of a mint: only mints of Token-2022 have extensions. -/
def Env.permanentDelegateOf (tokenProgram : Pubkey) (mintData : List UInt8) : Option Pubkey :=
  if tokenProgram = token2022ProgramId then env.permanentDelegate mintData else none

/-! ## The called instructions -/

/-- `TransferChecked`. -/
def transferChecked (signer : Pubkey → Bool) (tokenProgram source mint destination authority : Pubkey)
    (amount : ℕ) (decimals : UInt8) : Exec Unit := do
  checkCall call signer tokenProgram
    [⟨source, false, true⟩, ⟨mint, false, false⟩, ⟨destination, false, true⟩, ⟨authority, true, false⟩]
  let s ← account source
  let t ← account mint
  let d ← account destination
  require (s.owner = tokenProgram ∧ t.owner = tokenProgram ∧ d.owner = tokenProgram) .callee
  require (tokenAccountBaseLen ≤ s.data.length ∧ tokenAccountBaseLen ≤ d.data.length ∧
    tokenMint s.data = mint ∧ tokenMint d.data = mint) .callee
  require (amount ≤ tokenAmount s.data ∧ decimalsOf t.data = decimals ∧
    env.tokenAccepts t.data s.data d.data authority amount) .callee
  let data ← ofOption (authorize (env.permanentDelegateOf tokenProgram t.data) s.data authority amount) .callee
  if source = destination then pure ()
  else do
    let received := amount - env.feeOf tokenProgram t.data call.epoch amount
    require (tokenAmount d.data + received < 2 ^ 64) .callee
    setAccount source { s with data := setTokenAmount data (tokenAmount s.data - amount) }
    setAccount destination { d with data := setTokenAmount d.data (tokenAmount d.data + received) }

/-- `get_associated_token_address`. -/
def Env.getAssociatedTokenAddress (wallet mint tokenProgram : Pubkey) : Option Pubkey :=
  (env.findProgramAddress [wallet.val, tokenProgram.val, mint.val] associatedTokenProgramId).map
    Prod.fst

/-- The associated token program's `Create`. -/
def createAssociatedTokenAccount (payer wallet mint tokenProgram : Pubkey) : Exec Unit := do
  let ata ← ofOption (env.getAssociatedTokenAddress wallet mint tokenProgram) .panic
  checkCall call (fun _ => false) associatedTokenProgramId
    [⟨payer, true, true⟩, ⟨ata, false, true⟩, ⟨wallet, false, false⟩, ⟨mint, false, false⟩,
      ⟨systemProgramId, false, false⟩, ⟨tokenProgram, false, false⟩]
  let t ← account mint
  require (t.owner = tokenProgram) .callee
  let p ← account payer
  let a ← account ata
  let topUp := env.minimumBalance (env.tokenAccountLen t.data) - a.lamports
  require (a.owner = systemProgramId ∧ a.data = []) .callee
  require (p.data = [] ∧ p.owner = systemProgramId ∧ topUp ≤ p.lamports) .callee
  setAccount payer { p with lamports := p.lamports - topUp }
  setAccount ata
    ⟨a.lamports + topUp, tokenProgram, env.newTokenAccount mint t.data wallet (a.lamports + topUp)⟩

/-! ## What a successful call has done -/

variable {env call}

theorem tokenAmount_setTokenAmount {data : List UInt8} {amount : ℕ}
    (hlen : tokenAccountBaseLen ≤ data.length) (hlt : amount < 2 ^ 64) :
    tokenAmount (setTokenAmount data amount) = amount := by
  unfold tokenAmount setTokenAmount
  rw [readAt_writeAt_same (leBytes 8 amount) (by rw [tokenAccountBaseLen] at hlen; omega)]
  exact leNat_leBytes 8 amount (by omega)

theorem tokenAmount_lt (data : List UInt8) : tokenAmount data < 2 ^ 64 := by
  have h := leNat_lt (readAt 8 data 64).val
  rw [(readAt 8 data 64).2] at h
  unfold tokenAmount
  omega

theorem authorize_eq_some {permanent : Option Pubkey} {data data' : List UInt8} {authority : Pubkey} {amount : ℕ}
    (h : authorize permanent data authority amount = some data') :
    data'.length = data.length ∧
      (tokenOwner data = authority ∨ tokenDelegate data = some authority ∨ permanent = some authority) := by
  unfold authorize at h
  split at h
  · rename_i hpermanent
    cases h
    exact ⟨rfl, Or.inr (Or.inr hpermanent)⟩
  · split at h
    · rename_i hdelegate
      split at h
      · cases h
        refine ⟨?_, Or.inr (Or.inl hdelegate)⟩
        unfold spendDelegated
        dsimp only
        split <;> simp
      · cases h
    · split at h
      · rename_i howner
        cases h
        exact ⟨rfl, Or.inl howner⟩
      · cases h

/-- What a transfer of `amount` from one token account to another does to their data. -/
structure Transferred (env : Env) (call : Call) (tokenProgram source mint destination authority : Pubkey)
    (amount : ℕ) (m m' : Machine) : Prop where
  source_owner : (m.ledger source).owner = tokenProgram
  mint_owner : (m.ledger mint).owner = tokenProgram
  destination_owner : (m.ledger destination).owner = tokenProgram
  same : SameOutside {source, destination} m.ledger m'.ledger
  owners : ∀ k, (m'.ledger k).owner = (m.ledger k).owner
  log : m'.log = m.log
  authorized : tokenOwner (m.ledger source).data = authority ∨
    tokenDelegate (m.ledger source).data = some authority ∨
    env.permanentDelegateOf tokenProgram (m.ledger mint).data = some authority
  length_destination : tokenAccountBaseLen ≤ (m.ledger destination).data.length
  covered : amount ≤ tokenAmount (m.ledger source).data
  of_self : source = destination → m' = m
  debited : source ≠ destination →
    tokenAmount (m'.ledger source).data = tokenAmount (m.ledger source).data - amount
  credited : source ≠ destination → (m'.ledger destination).data =
    setTokenAmount (m.ledger destination).data (tokenAmount (m.ledger destination).data +
      (amount - env.feeOf tokenProgram (m.ledger mint).data call.epoch amount))
  room : source ≠ destination → tokenAmount (m.ledger destination).data +
    (amount - env.feeOf tokenProgram (m.ledger mint).data call.epoch amount) < 2 ^ 64

theorem transferChecked_ok {signer : Pubkey → Bool}
    {tokenProgram source mint destination authority : Pubkey} {amount : ℕ} {decimals : UInt8} {u : Unit}
    {m m' : Machine}
    (h : transferChecked env call signer tokenProgram source mint destination authority amount decimals
      m = .ok (u, m')) :
    Transferred env call tokenProgram source mint destination authority amount m m' ∧
      (call.isSigner authority ∨ signer authority) := by
  simp only [transferChecked, bind_eq_ok, checkCall_eq_ok, account_eq_ok, require_eq_ok,
    ofOption_eq_ok] at h
  obtain ⟨-, _, ⟨⟨-, hmetas⟩, rfl⟩, s, _, ⟨rfl, rfl⟩, t, _, ⟨rfl, rfl⟩, d, _, ⟨rfl, rfl⟩, -, _,
    ⟨⟨hs, ht, hd⟩, rfl⟩, -, _, ⟨⟨hslen, hdlen, -, -⟩, rfl⟩, -, _, ⟨⟨hcover, -, -⟩, rfl⟩, data, _,
    ⟨hauth, rfl⟩, h⟩ := h
  obtain ⟨hlen, howner⟩ := authorize_eq_some hauth
  have hsigner : call.isSigner authority ∨ signer authority :=
    (hmetas ⟨authority, true, false⟩ (by simp)).2.1 rfl
  refine ⟨?_, hsigner⟩
  split at h
  · rename_i hself
    rw [pure_eq_ok] at h
    obtain ⟨-, rfl⟩ := h
    exact ⟨hs, ht, hd, SameOutside.refl _ _, fun _ => rfl, rfl, howner, hdlen, hcover, fun _ => rfl,
      fun hne => absurd hself hne, fun hne => absurd hself hne, fun hne => absurd hself hne⟩
  · rename_i hne
    simp only [bind_eq_ok, require_eq_ok, setAccount_eq_ok] at h
    obtain ⟨-, _, ⟨hroom, rfl⟩, -, _, rfl, rfl⟩ := h
    refine ⟨hs, ht, hd, ?_, fun k => ?_, rfl, howner, hdlen, hcover, fun heq => absurd heq hne,
      fun _ => ?_, fun _ => ?_, fun _ => hroom⟩
    · exact ((sameOutside_update _ _ _).mono (by simp)).trans ((sameOutside_update _ _ _).mono (by simp))
    · by_cases hkd : k = destination
      · subst hkd
        simp
      · by_cases hks : k = source
        · subst hks
          simp [Function.update_of_ne hkd]
        · simp [Function.update_of_ne hkd, Function.update_of_ne hks]
    · have hsource := tokenAmount_lt (m.ledger source).data
      dsimp only
      rw [Function.update_of_ne hne, Function.update_self]
      refine tokenAmount_setTokenAmount ?_ (by omega)
      rw [hlen]
      exact hslen
    · dsimp only
      rw [Function.update_self]

/-- A creation gives the wallet a token account at its associated address. -/
theorem createAssociatedTokenAccount_ok {payer wallet mint tokenProgram : Pubkey} {u : Unit}
    {m m' : Machine}
    (h : createAssociatedTokenAccount env call payer wallet mint tokenProgram m = .ok (u, m')) :
    ∃ ata, env.getAssociatedTokenAddress wallet mint tokenProgram = some ata ∧
      (m.ledger ata).owner = systemProgramId ∧ (m.ledger ata).data = [] ∧
      (m.ledger mint).owner = tokenProgram ∧
      (∃ lamports, m'.ledger ata =
        ⟨lamports, tokenProgram, env.newTokenAccount mint (m.ledger mint).data wallet lamports⟩) ∧
      SameOutside {ata} m.ledger m'.ledger ∧ m'.log = m.log := by
  simp only [createAssociatedTokenAccount, bind_eq_ok, checkCall_eq_ok, account_eq_ok, require_eq_ok,
    ofOption_eq_ok, setAccount_eq_ok] at h
  obtain ⟨ata, _, ⟨hata, rfl⟩, -, _, ⟨-, rfl⟩, t, _, ⟨rfl, rfl⟩, -, _, ⟨ht, rfl⟩, p, _, ⟨rfl, rfl⟩, a, _,
    ⟨rfl, rfl⟩, -, _, ⟨⟨howner, hdata⟩, rfl⟩, -, _, ⟨-, rfl⟩, -, _, rfl, rfl⟩ := h
  refine ⟨ata, hata, howner, hdata, ht, ⟨_, Function.update_self _ _ _⟩, ?_, rfl⟩
  exact ((sameOutside_update_lamports _ _ _).mono (by simp)).trans (sameOutside_update _ _ _)

end Kakure
