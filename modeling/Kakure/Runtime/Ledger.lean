import Kakure.Lib.Guarded
import Kakure.Pool.Instruction

/-!
# The Solana runtime under the program

Accounts, the ledger and what the runtime grants a program: reading accounts,
writing the data of those it owns, deriving addresses and calling the system
program.  The hashes, the address derivation, the proof decompression, the verifier
programs and the token programs' own rules are code outside the repository and
enter through `Env`.

* `SameOutside` — the frame condition: outside some accounts no owner and no data
  changed;
* `writeData_ok`, `systemTransfer_ok`, `systemAllocate_ok`, `systemAssign_ok` — what a
  successful runtime call has checked and changed.
-/

namespace Kakure

open Slices Guarded

/-! ## Accounts -/

/-- An account; one that does not exist has no lamports, no data and the system program as
its owner. -/
structure Account where
  lamports : ℕ
  owner : Pubkey
  data : List UInt8

abbrev Ledger := Pubkey → Account

/-- The state an instruction runs on: the ledger and the log. -/
structure Machine where
  ledger : Ledger
  log : List Event

/-- The system program's address, which is `Pubkey::default()`. -/
def systemProgramId : Pubkey := Pubkey.default

/-- `spl_token::ID`. -/
def splTokenId : Pubkey :=
  beBytes 32 0x06ddf6e1d765a193d9cbe146ceeb79ac1cb485ed5f5b37913a8cf5857eff00a9

/-- `TOKEN_2022_PROGRAM_ID`. -/
def token2022ProgramId : Pubkey :=
  beBytes 32 0x06ddf6e1ee758fde18425dbce46ccddab61afc4d83b90d27febdf928d8a18bfc

/-- `ASSOCIATED_TOKEN_PROGRAM_ID`. -/
def associatedTokenProgramId : Pubkey :=
  beBytes 32 0x8c97258f4e2489f1bb3d1029148e0d830b5a1399daff1084048e7bd8dbe9f859

/-- `BPF_LOADER_UPGRADEABLE_PROGRAM_ID`. -/
def bpfLoaderUpgradeableProgramId : Pubkey :=
  beBytes 32 0x02a8f6914e88a1b0e210153ef763ae2b00c2b93d16c124d2c0537a1004800000

/-- The code outside the repository that the program calls. -/
structure Env where
  /-- The address the program is deployed at. -/
  programId : Pubkey
  programId_ne_system : programId ≠ systemProgramId
  programId_ne_splToken : programId ≠ splTokenId
  programId_ne_token2022 : programId ≠ token2022ProgramId
  /-- `Pubkey::create_program_address`, `none` where the hash is a point of the curve. -/
  createProgramAddress : List (List UInt8) → Pubkey → Option Pubkey
  /-- The `sol_sha256` syscall. -/
  sha256 : List UInt8 → Bytes 32
  /-- Poseidon v1 on three field elements, behind the `sol_poseidon` syscall. -/
  poseidon : Fr → Fr → Fr → Fr
  /-- `alt_bn128_g1_decompress`. -/
  g1Decompress : Bytes 32 → Option (Bytes 64)
  /-- `alt_bn128_g2_decompress`. -/
  g2Decompress : Bytes 64 → Option (Bytes 128)
  /-- Whether the program at an address accepts instruction data, called without accounts. -/
  accepts : Pubkey → List UInt8 → Bool
  /-- `Rent::minimum_balance`. -/
  minimumBalance : ℕ → ℕ
  /-- The transfer fee a mint's extension asks for in an epoch: mint data, epoch, amount. -/
  transferFee : List UInt8 → ℕ → ℕ → ℕ
  /-- The permanent delegate a mint's extension names, from the mint's data. -/
  permanentDelegate : List UInt8 → Option Pubkey
  /-- The checks of a token transfer beyond the base layout (frozen accounts, extensions): mint,
  source and destination data, authority, amount. -/
  tokenAccepts : List UInt8 → List UInt8 → List UInt8 → Pubkey → ℕ → Bool
  /-- The length of a token account of a mint, from the mint's data. -/
  tokenAccountLen : List UInt8 → ℕ
  /-- The data of a token account the associated token program creates: mint, its data, wallet,
  lamports. -/
  newTokenAccount : Pubkey → List UInt8 → Pubkey → ℕ → List UInt8

/-- The accounts of an instruction, with the privileges the transaction grants them. -/
structure Call where
  accounts : List Pubkey
  isSigner : Pubkey → Bool
  isWritable : Pubkey → Bool
  epoch : ℕ

/-- A computation of the program. -/
abbrev Exec (α : Type) := Prog Machine ProgramError α

variable (env : Env) (call : Call)

/-! ## Derived addresses -/

/-- `Pubkey::find_program_address`: the first bump seed from 255 down that leaves the curve. -/
def Env.findProgramAddress (seeds : List (List UInt8)) (program : Pubkey) : Option (Pubkey × UInt8) :=
  ((List.range 255).map fun i => UInt8.ofNat (255 - i)).findSome? fun bump =>
    (env.createProgramAddress (seeds ++ [[bump]]) program).map fun key => (key, bump)

theorem Env.createProgramAddress_of_find {seeds : List (List UInt8)} {program key : Pubkey}
    {bump : UInt8} (h : env.findProgramAddress seeds program = some (key, bump)) :
    env.createProgramAddress (seeds ++ [[bump]]) program = some key := by
  obtain ⟨b, -, hb⟩ := List.exists_of_findSome?_eq_some h
  obtain ⟨k, hk, heq⟩ := Option.map_eq_some_iff.1 hb
  cases heq
  exact hk

/-- An address the program can sign for. -/
def Env.IsPda (key : Pubkey) : Prop := ∃ seeds, env.createProgramAddress seeds env.programId = some key

/-! ## The program's own accesses -/

/-- The account at an address. -/
def account (key : Pubkey) : Exec Account := fun m => .ok (m.ledger key, m)

/-- Change one account of the ledger. -/
def setAccount (key : Pubkey) (a : Account) : Exec Unit := fun m =>
  .ok ((), { m with ledger := Function.update m.ledger key a })

/-- `sol_log_data`. -/
def emit (e : Event) : Exec Unit := fun m => .ok ((), { m with log := m.log ++ [e] })

/-- Leave these bytes in an account.  The runtime refuses a change to the data of an account that
the program does not own or that is not writable. -/
def writeData (key : Pubkey) (data : List UInt8) : Exec Unit := do
  let a ← account key
  if a.data = data then pure ()
  else do
    require (a.owner = env.programId ∧ call.isWritable key) .runtime
    setAccount key { a with data }

/-! ## Calls of other programs -/

/-- An account of a called instruction with the privileges it asks for. -/
structure AccountMeta where
  key : Pubkey
  isSigner : Bool
  isWritable : Bool

/-- The addresses `invoke_signed` signs for. -/
def signedBy (seeds : List (List UInt8)) (key : Pubkey) : Bool :=
  env.createProgramAddress seeds env.programId == some key

/-- The runtime's check of a call: the called program and its accounts are among the
instruction's, and no privilege is asked for that the caller does not have. -/
def checkCall (signer : Pubkey → Bool) (program : Pubkey) (metas : List AccountMeta) : Exec Unit :=
  require (program ∈ call.accounts ∧ ∀ a ∈ metas, a.key ∈ call.accounts ∧
    (a.isSigner → call.isSigner a.key ∨ signer a.key) ∧ (a.isWritable → call.isWritable a.key))
    .runtime

/-- `system_instruction::transfer`. -/
def systemTransfer (source target : Pubkey) (lamports : ℕ) : Exec Unit := do
  checkCall call (fun _ => false) systemProgramId [⟨source, true, true⟩, ⟨target, false, true⟩]
  let a ← account source
  require (a.data = [] ∧ a.owner = systemProgramId ∧ lamports ≤ a.lamports) .callee
  setAccount source { a with lamports := a.lamports - lamports }
  let b ← account target
  setAccount target { b with lamports := b.lamports + lamports }

/-- `system_instruction::allocate`, signed for with `seeds`. -/
def systemAllocate (seeds : List (List UInt8)) (target : Pubkey) (space : ℕ) : Exec Unit := do
  checkCall call (signedBy env seeds) systemProgramId [⟨target, true, true⟩]
  let a ← account target
  require (a.data = [] ∧ a.owner = systemProgramId) .callee
  setAccount target { a with data := List.replicate space 0 }

/-- `system_instruction::assign` to the program, signed for with `seeds`. -/
def systemAssign (seeds : List (List UInt8)) (target : Pubkey) : Exec Unit := do
  checkCall call (signedBy env seeds) systemProgramId [⟨target, true, true⟩]
  let a ← account target
  require (a.owner = systemProgramId) .callee
  setAccount target { a with owner := env.programId }

/-! ## Frames -/

/-- Outside these accounts no owner and no data changed. -/
def SameOutside (keys : Set Pubkey) (L L' : Ledger) : Prop :=
  ∀ k, k ∉ keys → (L' k).owner = (L k).owner ∧ (L' k).data = (L k).data

theorem SameOutside.refl (keys : Set Pubkey) (L : Ledger) : SameOutside keys L L :=
  fun _ _ => ⟨rfl, rfl⟩

theorem SameOutside.trans {keys : Set Pubkey} {L L' L'' : Ledger} (h : SameOutside keys L L')
    (h' : SameOutside keys L' L'') : SameOutside keys L L'' :=
  fun k hk => ⟨(h' k hk).1.trans (h k hk).1, (h' k hk).2.trans (h k hk).2⟩

theorem SameOutside.mono {keys keys' : Set Pubkey} {L L' : Ledger} (h : SameOutside keys L L')
    (hsub : keys ⊆ keys') : SameOutside keys' L L' :=
  fun k hk => h k fun hk' => hk (hsub hk')

theorem sameOutside_update (L : Ledger) (key : Pubkey) (a : Account) :
    SameOutside {key} L (Function.update L key a) := by
  intro k hk
  rw [Function.update_of_ne hk]
  exact ⟨rfl, rfl⟩

/-- Changing only lamports changes no owner and no data. -/
theorem sameOutside_update_lamports (L : Ledger) (key : Pubkey) (lamports : ℕ) :
    SameOutside ∅ L (Function.update L key { L key with lamports }) := by
  intro k _
  by_cases hk : k = key
  · subst hk
    rw [Function.update_self]
    exact ⟨rfl, rfl⟩
  · rw [Function.update_of_ne hk]
    exact ⟨rfl, rfl⟩

/-! ## What a successful call has done -/

variable {env call}

theorem account_eq_ok {key : Pubkey} {a : Account} {m m' : Machine} :
    account key m = .ok (a, m') ↔ m.ledger key = a ∧ m = m' := by
  simp [account]

theorem setAccount_eq_ok {key : Pubkey} {a : Account} {u : Unit} {m m' : Machine} :
    setAccount key a m = .ok (u, m') ↔ { m with ledger := Function.update m.ledger key a } = m' := by
  simp [setAccount]

theorem emit_eq_ok {e : Event} {u : Unit} {m m' : Machine} :
    emit e m = .ok (u, m') ↔ { m with log := m.log ++ [e] } = m' := by
  simp [emit]

theorem checkCall_eq_ok {signer : Pubkey → Bool} {program : Pubkey} {metas : List AccountMeta}
    {u : Unit} {m m' : Machine} :
    checkCall call signer program metas m = .ok (u, m') ↔
      (program ∈ call.accounts ∧ ∀ a ∈ metas, a.key ∈ call.accounts ∧
        (a.isSigner → call.isSigner a.key ∨ signer a.key) ∧
        (a.isWritable → call.isWritable a.key)) ∧ m = m' :=
  require_eq_ok

theorem signedBy_iff {seeds : List (List UInt8)} {key : Pubkey} :
    signedBy env seeds key = true ↔ env.createProgramAddress seeds env.programId = some key := by
  simp [signedBy]

/-- A write leaves the bytes behind, changes no other account, and changes something only in a
writable account of the program's own. -/
theorem writeData_ok {key : Pubkey} {data : List UInt8} {u : Unit} {m m' : Machine}
    (h : writeData env call key data m = .ok (u, m')) :
    (m'.ledger key).data = data ∧ (m'.ledger key).owner = (m.ledger key).owner ∧
      ((m.ledger key).data ≠ data → (m.ledger key).owner = env.programId ∧ call.isWritable key) ∧
      SameOutside {key} m.ledger m'.ledger ∧ m'.log = m.log ∧
      ∀ k, (m'.ledger k).lamports = (m.ledger k).lamports := by
  simp only [writeData, bind_eq_ok, account_eq_ok] at h
  obtain ⟨a, m₁, ⟨rfl, rfl⟩, h⟩ := h
  split at h
  · rename_i hsame
    rw [pure_eq_ok] at h
    obtain ⟨-, rfl⟩ := h
    exact ⟨hsame, rfl, fun hne => absurd hsame hne, SameOutside.refl _ _, rfl, fun _ => rfl⟩
  · simp only [bind_eq_ok, require_eq_ok, setAccount_eq_ok] at h
    obtain ⟨-, m₂, ⟨hown, rfl⟩, rfl⟩ := h
    refine ⟨?_, ?_, fun _ => hown, sameOutside_update _ _ _, rfl, fun k => ?_⟩
    · simp
    · simp
    · by_cases hk : k = key
      · subst hk
        simp
      · simp [Function.update_of_ne hk]

/-- A transfer of lamports changes no owner and no data. -/
theorem systemTransfer_ok {source target : Pubkey} {lamports : ℕ} {u : Unit} {m m' : Machine}
    (h : systemTransfer call source target lamports m = .ok (u, m')) :
    SameOutside ∅ m.ledger m'.ledger ∧ m'.log = m.log := by
  simp only [systemTransfer, bind_eq_ok, checkCall_eq_ok, account_eq_ok, require_eq_ok,
    setAccount_eq_ok] at h
  obtain ⟨-, _, ⟨-, rfl⟩, a, _, ⟨rfl, rfl⟩, -, _, ⟨-, rfl⟩, -, m₁, rfl, b, _, ⟨rfl, rfl⟩, rfl⟩ := h
  exact ⟨(sameOutside_update_lamports _ _ _).trans (sameOutside_update_lamports _ _ _), rfl⟩

/-- An allocation gives a fresh account of the system program's zeroed data. -/
theorem systemAllocate_ok {seeds : List (List UInt8)} {target : Pubkey} {space : ℕ} {u : Unit}
    {m m' : Machine} (h : systemAllocate env call seeds target space m = .ok (u, m')) :
    (m.ledger target).data = [] ∧ (m.ledger target).owner = systemProgramId ∧
      (m'.ledger target).data = List.replicate space 0 ∧
      SameOutside {target} m.ledger m'.ledger ∧ m'.log = m.log := by
  simp only [systemAllocate, bind_eq_ok, checkCall_eq_ok, account_eq_ok, require_eq_ok,
    setAccount_eq_ok] at h
  obtain ⟨-, _, ⟨-, rfl⟩, a, _, ⟨rfl, rfl⟩, -, _, ⟨⟨hdata, howner⟩, rfl⟩, rfl⟩ := h
  exact ⟨hdata, howner, by simp, sameOutside_update _ _ _, rfl⟩

/-- An assignment makes the program the owner and keeps the data. -/
theorem systemAssign_ok {seeds : List (List UInt8)} {target : Pubkey} {u : Unit} {m m' : Machine}
    (h : systemAssign env call seeds target m = .ok (u, m')) :
    (m'.ledger target).owner = env.programId ∧ (m'.ledger target).data = (m.ledger target).data ∧
      SameOutside {target} m.ledger m'.ledger ∧ m'.log = m.log := by
  simp only [systemAssign, bind_eq_ok, checkCall_eq_ok, account_eq_ok, require_eq_ok,
    setAccount_eq_ok] at h
  obtain ⟨-, _, ⟨-, rfl⟩, a, _, ⟨rfl, rfl⟩, -, _, ⟨-, rfl⟩, rfl⟩ := h
  exact ⟨by simp, by simp, sameOutside_update _ _ _, rfl⟩

end Kakure
