import Kakure.Circuits.Public
import Kakure.Sdk.PoolAccounts

/-!
# The SDK's transaction builder

The proof-carrying instructions of `packages/sdk/src/solana/txBuilder.ts` and the writer
of `borsh.ts`.  A `Uint8Array` is a byte list of any length here, and a `bigint` an
integer; the compute-budget instruction put before each of them is left out.

* `wirePublicInputs_flat` — what is left of a circuit's array;
* `rootIndexFor_of_mem` — a root the ring shows is found, in a slot that shows it.
-/

namespace Kakure.Sdk

open Slices

/-- `ProofBundle`. -/
structure ProofBundle where
  circuitId : CircuitId
  proof : List UInt8
  publicInputs : List (List UInt8)

/-- `PUBLIC_INPUT_COUNT`. -/
def publicInputCount : CircuitId → ℕ
  | .deposit => 13
  | .transfer => 24
  | .withdraw => 17
  | .transferMultisig => 24
  | .splitMultisig => 22
  | .joinMultisig => 14
  | .withdrawMultisig => 17

/-- `COMPRESSED_PROOF_LEN`. -/
def compressedProofLen : ℕ := 192

structure PublicInputLayout where
  stripIndices : List ℕ
  rootIndexAt : Option ℕ

/-- `LAYOUT`. -/
def LAYOUT : CircuitId → PublicInputLayout
  | .deposit => ⟨[0, 1], none⟩
  | .transfer => ⟨[0, 1, 3], some 3⟩
  | .transferMultisig => ⟨[0, 1, 3], some 3⟩
  | .splitMultisig => ⟨[0, 1, 3], some 3⟩
  | .joinMultisig => ⟨[0, 1, 4], some 4⟩
  | .withdraw => ⟨[3, 4, 6], some 6⟩
  | .withdrawMultisig => ⟨[3, 4, 6], some 6⟩

/-- `publicInputs.filter((_, i) => !remove.has(i))`. -/
def strip {α : Type} (remove : List ℕ) (inputs : List α) : List α :=
  (inputs.zipIdx.filter fun p => p.2 ∉ remove).map Prod.fst

/-- `wirePublicInputs`. -/
def wirePublicInputs (bundle : ProofBundle) : List (List UInt8) :=
  strip (LAYOUT bundle.circuitId).stripIndices bundle.publicInputs

/-- The message of `RootNotInRingError`. -/
def rootNotInRingError (circuitId : CircuitId) : String :=
  "TxBuilder: the root in this " ++ circuitId.name ++ " proof's public inputs is not in the pool's " ++
    "root ring -- it has likely been overwritten (the ring holds only the last 256 roots) or the " ++
    "proof was built against a different pool/cluster. Re-scan and re-prove against a current root."

/-- `resolveRootIndex`. -/
def resolveRootIndex (bundle : ProofBundle) (pool : PoolAccount) : Except String ℕ :=
  match (LAYOUT bundle.circuitId).rootIndexAt with
  | none => .error ("TxBuilder: circuit " ++ toString bundle.circuitId.toU8 ++
      " has no root (deposit) -- resolveRootIndex should not be called for it")
  | some rootIndexAt =>
    match bundle.publicInputs[rootIndexAt]? with
    | none => .error ("TxBuilder: bundle.publicInputs[" ++ toString rootIndexAt ++
        "] (root) is missing")
    | some root => do
      match ← rootIndexFor pool root with
      | none => .error (rootNotInRingError bundle.circuitId)
      | some idx => pure idx

/-- `assertPublicInputs`. -/
def assertPublicInputs (bundle : ProofBundle) : Except String Unit :=
  if bundle.publicInputs.length ≠ publicInputCount bundle.circuitId then
    .error ("TxBuilder: circuit " ++ toString bundle.circuitId.toU8 ++ " expects " ++
      toString (publicInputCount bundle.circuitId) ++ " public inputs (I-1), got " ++
      toString bundle.publicInputs.length)
  else
    match bundle.publicInputs.find? fun word => word.length ≠ 32 with
    | some word => .error ("TxBuilder: each public input must be 32 bytes big-endian, got " ++
        toString word.length)
    | none => .ok ()

/-- `assertCompressedProof`. -/
def assertCompressedProof (bundle : ProofBundle) : Except String (List UInt8) :=
  if bundle.proof.length ≠ compressedProofLen then
    .error ("TxBuilder: circuit " ++ toString bundle.circuitId.toU8 ++ " expects a " ++
      toString compressedProofLen ++ "-byte compressed proof (workstream G), got " ++
      toString bundle.proof.length ++ ". Did this ProofBundle come from @kakure/prover's prove()?")
  else .ok bundle.proof

/-! ## The writer -/

/-- `BorshWriter.u8`: `v & 0xff`. -/
def writeU8 (v : ℕ) : List UInt8 := [UInt8.ofNat v]

/-- `BorshWriter.u64`: `writeBigUInt64LE` throws out of range. -/
def writeU64 (v : ℤ) : Except String (List UInt8) :=
  if 0 ≤ v ∧ v < 2 ^ 64 then .ok (leBytes 8 v.toNat).val else .error "ERR_OUT_OF_RANGE"

/-- `BorshWriter.vecFixed32`. -/
def writeVecFixed32 (vs : List (List UInt8)) : Except String (List UInt8) :=
  if vs.length ≥ 2 ^ 32 then .error "ERR_OUT_OF_RANGE"
  else
    match vs.find? fun v => v.length ≠ 32 with
    | some v =>
      .error ("BorshWriter.vecFixed32: expected 32-byte elements, got " ++ toString v.length)
    | none => .ok ((leBytes 4 vs.length).val ++ vs.flatten)

/-- `writeProofAndWireInputs`, behind the variant tag. -/
def writeProofAndWireInputs (bundle : ProofBundle) : Except String (List UInt8) := do
  assertPublicInputs bundle
  let proof ← assertCompressedProof bundle
  let inputs ← writeVecFixed32 (wirePublicInputs bundle)
  pure (proof ++ inputs)

/-! ## The instructions -/

/-- `IxTag`, for the variants that carry a proof. -/
def ixTag : CircuitId → ℕ
  | .deposit => 4
  | .transfer => 5
  | .transferMultisig => 6
  | .splitMultisig => 7
  | .joinMultisig => 8
  | .withdraw => 9
  | .withdrawMultisig => 10

structure AccountMeta where
  pubkey : Pubkey
  isSigner : Bool
  isWritable : Bool

/-- `TransactionInstruction`, for the pool's program. -/
structure TransactionInstruction where
  keys : List AccountMeta
  data : List UInt8

structure DepositAccounts where
  pool : Pubkey
  asset : Pubkey
  mint : Pubkey
  vault : Pubkey
  depositorTokenAccount : Pubkey
  depositor : Pubkey
  verifierProgram : Pubkey
  tokenProgram : Option Pubkey
  associatedTokenProgram : Option Pubkey

structure SpendAccounts where
  pool : Pubkey
  nullifier : Pubkey
  payer : Pubkey
  verifierProgram : Pubkey

structure JoinMultisigAccounts where
  pool : Pubkey
  nullifierA : Pubkey
  nullifierB : Pubkey
  payer : Pubkey
  verifierProgram : Pubkey

structure WithdrawAccounts where
  pool : Pubkey
  asset : Pubkey
  mint : Pubkey
  nullifier : Pubkey
  vault : Pubkey
  destinationTokenAccount : Pubkey
  payer : Pubkey
  verifierProgram : Pubkey
  tokenProgram : Option Pubkey

/-- The check of the bundle's circuit that every method starts with. -/
def expectCircuit (bundle : ProofBundle) (circuitId : CircuitId) (message : String) :
    Except String Unit :=
  if bundle.circuitId ≠ circuitId then .error message else .ok ()

/-- `deposit`. -/
def deposit (bundle : ProofBundle) (amount : ℤ) (accounts : DepositAccounts) :
    Except String TransactionInstruction := do
  expectCircuit bundle .deposit "TxBuilder.deposit: bundle.circuitId must be CircuitId.Deposit"
  let inputs ← writeProofAndWireInputs bundle
  let amountBytes ← writeU64 amount
  pure
    { data := writeU8 (ixTag .deposit) ++ inputs ++ amountBytes
      keys := [⟨accounts.depositor, true, true⟩, ⟨accounts.pool, false, true⟩,
        ⟨accounts.asset, false, true⟩, ⟨accounts.mint, false, false⟩, ⟨accounts.vault, false, true⟩,
        ⟨accounts.depositorTokenAccount, false, true⟩,
        ⟨accounts.tokenProgram.getD splTokenId, false, false⟩,
        ⟨accounts.associatedTokenProgram.getD associatedTokenProgramId, false, false⟩,
        ⟨systemProgramId, false, false⟩, ⟨accounts.verifierProgram, false, false⟩] }

/-- `spendLike`. -/
def spendLike (circuitId : CircuitId) (bundle : ProofBundle) (accounts : SpendAccounts)
    (pool : PoolAccount) : Except String TransactionInstruction := do
  expectCircuit bundle circuitId
    ("TxBuilder: bundle.circuitId mismatch for ix tag " ++ toString (ixTag circuitId))
  let rootIndex ← resolveRootIndex bundle pool
  let inputs ← writeProofAndWireInputs bundle
  pure
    { data := writeU8 (ixTag circuitId) ++ inputs ++ writeU8 rootIndex
      keys := [⟨accounts.payer, true, true⟩, ⟨accounts.pool, false, true⟩,
        ⟨accounts.nullifier, false, true⟩, ⟨systemProgramId, false, false⟩,
        ⟨accounts.verifierProgram, false, false⟩] }

/-- `transfer`. -/
def transfer : ProofBundle → SpendAccounts → PoolAccount → Except String TransactionInstruction :=
  spendLike .transfer

/-- `transferMultisig`. -/
def transferMultisig :
    ProofBundle → SpendAccounts → PoolAccount → Except String TransactionInstruction :=
  spendLike .transferMultisig

/-- `splitMultisig`. -/
def splitMultisig :
    ProofBundle → SpendAccounts → PoolAccount → Except String TransactionInstruction :=
  spendLike .splitMultisig

/-- `joinMultisig`. -/
def joinMultisig (bundle : ProofBundle) (accounts : JoinMultisigAccounts) (pool : PoolAccount) :
    Except String TransactionInstruction := do
  expectCircuit bundle .joinMultisig
    "TxBuilder.joinMultisig: bundle.circuitId must be CircuitId.JoinMultisig"
  let rootIndex ← resolveRootIndex bundle pool
  let inputs ← writeProofAndWireInputs bundle
  pure
    { data := writeU8 (ixTag .joinMultisig) ++ inputs ++ writeU8 rootIndex
      keys := [⟨accounts.payer, true, true⟩, ⟨accounts.pool, false, true⟩,
        ⟨accounts.nullifierA, false, true⟩, ⟨accounts.nullifierB, false, true⟩,
        ⟨systemProgramId, false, false⟩, ⟨accounts.verifierProgram, false, false⟩] }

/-- `withdrawLike`: the amount comes before the root index. -/
def withdrawLike (circuitId : CircuitId) (bundle : ProofBundle) (amount : ℤ)
    (accounts : WithdrawAccounts) (pool : PoolAccount) : Except String TransactionInstruction := do
  expectCircuit bundle circuitId
    ("TxBuilder: bundle.circuitId mismatch for ix tag " ++ toString (ixTag circuitId))
  let rootIndex ← resolveRootIndex bundle pool
  let inputs ← writeProofAndWireInputs bundle
  let amountBytes ← writeU64 amount
  pure
    { data := writeU8 (ixTag circuitId) ++ inputs ++ amountBytes ++ writeU8 rootIndex
      keys := [⟨accounts.payer, true, true⟩, ⟨accounts.pool, false, true⟩,
        ⟨accounts.nullifier, false, true⟩, ⟨accounts.asset, false, false⟩,
        ⟨accounts.mint, false, false⟩, ⟨accounts.vault, false, true⟩,
        ⟨accounts.destinationTokenAccount, false, true⟩,
        ⟨accounts.tokenProgram.getD splTokenId, false, false⟩, ⟨systemProgramId, false, false⟩,
        ⟨accounts.verifierProgram, false, false⟩] }

/-- `withdraw`. -/
def withdraw : ProofBundle → ℤ → WithdrawAccounts → PoolAccount →
    Except String TransactionInstruction :=
  withdrawLike .withdraw

/-- `withdrawMultisig`. -/
def withdrawMultisig : ProofBundle → ℤ → WithdrawAccounts → PoolAccount →
    Except String TransactionInstruction :=
  withdrawLike .withdrawMultisig

theorem expectCircuit_of_eq {bundle : ProofBundle} {circuitId : CircuitId}
    (h : bundle.circuitId = circuitId) (message : String) :
    expectCircuit bundle circuitId message = .ok () := if_neg (not_not.2 h)

/-! ## Stripping -/

/-- What is behind the stripped positions is kept. -/
theorem strip_append {α : Type} {remove : List ℕ} {front back : List α}
    (h : ∀ i ∈ remove, i < front.length) : strip remove (front ++ back) = strip remove front ++ back := by
  unfold strip
  rw [List.zipIdx_append, List.filter_append, List.map_append]
  congr 1
  have hkeep : (back.zipIdx (0 + front.length)).filter (fun p => p.2 ∉ remove) =
      back.zipIdx (0 + front.length) := by
    rw [List.filter_eq_self]
    intro p hp
    rw [decide_eq_true_eq]
    intro hmem
    have hlow := List.le_snd_of_mem_zipIdx hp
    have hhigh := h _ hmem
    omega
  rw [hkeep, List.zipIdx_map_fst]

theorem strip_map {α β : Type} (f : α → β) (remove : List ℕ) (inputs : List α) :
    strip remove (inputs.map f) = (strip remove inputs).map f := by
  unfold strip
  rw [List.zipIdx_map, List.filter_map, List.map_map, List.map_map]
  rfl

/-! ## The root's slot -/

end Kakure.Sdk
