import Kakure.Pool.Helpers

/-!
# The instruction processor

`processor.rs` of the release build: one handler an instruction, the checks in the
source's order.  A handler reads the pool account once, changes its copy, and leaves
the changed copy in the account before it calls another program.
-/

namespace Kakure

open Slices Guarded

variable (env : Env) (call : Call)

/-! ## Token programs -/

/-- `token_program_supported`. -/
def tokenProgramSupported (program : Pubkey) : Prop :=
  program = splTokenId ∨ program = token2022ProgramId

instance (program : Pubkey) : Decidable (tokenProgramSupported program) :=
  inferInstanceAs (Decidable (_ ∨ _))

/-- `mint_decimals`. -/
def mintDecimals (mint tokenProgram : Pubkey) : Exec UInt8 := do
  let a ← account mint
  require (a.owner = tokenProgram ∧ tokenProgramSupported tokenProgram)
    PoolError.unsupportedMint.into
  require (82 ≤ a.data.length ∧ a.data.getD 45 0 ≠ 0) .invalidAccountData
  pure (decimalsOf a.data)

/-- `transfer_checked_ix` and the call of the instruction it builds. -/
def invokeTransferChecked (signer : Pubkey → Bool)
    (tokenProgram source mint destination authority : Pubkey) (amount : UInt64) (decimals : UInt8) :
    Exec Unit := do
  require (tokenProgramSupported tokenProgram) .incorrectProgramId
  transferChecked env call signer tokenProgram source mint destination authority amount.toNat decimals

/-! ## Shared checks -/

/-- `next_account_info`, at a position of the account list. -/
def nextAccount (i : ℕ) : Exec Pubkey := ofOption call.accounts[i]? .notEnoughAccountKeys

/-- `Pool::new` on an account's data. -/
def loadPool (key : Pubkey) : Exec Pool := do
  let a ← account key
  ofResult (Pool.new a.data)

/-- `expect_pool_pda`. -/
def expectPoolPda (poolKey : Pubkey) : Exec UInt8 := do
  let (expected, bump) ← findPda env .pool
  let a ← account poolKey
  require (poolKey = expected ∧ a.owner = env.programId) .invalidSeeds
  pure bump

/-- `load_pool_authority`. -/
def loadPoolAuthority : Exec (Pubkey × Pubkey) := do
  let authority ← nextAccount call 0
  let poolKey ← nextAccount call 1
  require (call.isSigner authority) .missingRequiredSignature
  let _ ← expectPoolPda env poolKey
  pure (authority, poolKey)

/-- The upgrade authority a `ProgramData` account records. -/
def upgradeAuthority (data : List UInt8) : Except ProgramError (Option Pubkey) :=
  if data.length < 13 then .error .invalidAccountData
  else if leNat (readAt 4 data 0).val ≠ 3 then .error .invalidAccountData
  else
    match data.getD 12 0 with
    | 0 => .ok none
    | 1 => if data.length < 45 then .error .invalidAccountData else .ok (some (readAt 32 data 13))
    | _ => .error .invalidAccountData

/-- `require_upgrade_authority`. -/
def requireUpgradeAuthority (authority programData : Pubkey) : Exec Unit := do
  let (expected, _) ← ofOption
    (env.findProgramAddress [env.programId.val] bpfLoaderUpgradeableProgramId) .panic
  require (programData = expected) .invalidSeeds
  let a ← account programData
  require (a.owner = bpfLoaderUpgradeableProgramId) .invalidAccountData
  let upgrade ← ofResult (upgradeAuthority a.data)
  require (upgrade = some authority) .invalidAccountData

/-- `create_pda_if_needed`. -/
def createPdaIfNeeded (payer target : Pubkey) (space : ℕ) (seeds : List (List UInt8)) : Exec Unit := do
  let a ← account target
  require (a.owner ≠ env.programId ∧ a.data = []) .accountAlreadyInitialized
  let required := env.minimumBalance space
  whenever (a.lamports < required) (systemTransfer call payer target (required - a.lamports))
  systemAllocate env call seeds target space
  systemAssign env call seeds target

/-- `resolve_root`. -/
def resolveRoot (pool : Pool) (rootIndex : UInt8) : Exec (Bytes 32) := do
  let root := pool.rootAt rootIndex
  require (root ≠ Bytes.zero 32) PoolError.staleRoot.into
  pure root

/-- `check_count`. -/
def checkCount (publicInputs : List (Bytes 32)) (expected : ℕ) : Exec Unit :=
  require (publicInputs.length = expected) PoolError.invalidPublicInputCount.into

/-- `create_nullifier`. -/
def createNullifier (payer nullifierKey : Pubkey) (nullifier : Bytes 32) : Exec Unit := do
  let (expected, bump) ← findPda env (.nullifier nullifier)
  require (nullifierKey = expected) .invalidSeeds
  let a ← account nullifierKey
  require (a.owner ≠ env.programId) PoolError.nullifierSpent.into
  createPdaIfNeeded env call payer nullifierKey nullifierLen [nullifierSeed, nullifier.val, [bump]]
  let b ← account nullifierKey
  writeData env call nullifierKey (writeAt b.data 0 [bump])
  emit (.nullifierSpent nullifier)

/-- `insert_and_emit`. -/
def insertAndEmit (pool : Pool) (leaf ephPubX : Bytes 32) (tag cekWrap : Option (Bytes 32))
    (ciphertext : List (Bytes 32)) : Exec Pool := do
  let (pool', leafIndex, root) ← ofResult (insert env.poseidon pool leaf)
  emit (.noteInserted { leafIndex, leaf, ephPubX, tag, cekWrap, ciphertext, root })
  pure pool'

/-- `public_inputs[i]`. -/
def input (publicInputs : List (Bytes 32)) (i : ℕ) : Bytes 32 := publicInputs.getD i (Bytes.zero 32)

/-- `ct7`. -/
def ct7 (inputs : List (Bytes 32)) (start : ℕ) : List (Bytes 32) := (inputs.drop start).take 7

/-! ## Administration -/

/-- `initialize`. -/
def initializePool (compliancePkX compliancePkY : Bytes 32) (verifiers : Fin 7 → Pubkey)
    (genesisLeaf : Bytes 32) : Exec Unit := do
  let authority ← nextAccount call 0
  let poolKey ← nextAccount call 1
  let programData ← nextAccount call 2
  let _ ← nextAccount call 3
  require (call.isSigner authority) .missingRequiredSignature
  requireUpgradeAuthority env authority programData
  let (expectedPool, bump) ← findPda env .pool
  require (poolKey = expectedPool) .invalidSeeds
  createPdaIfNeeded env call authority poolKey poolLen [poolSeed, [bump]]
  let pool ← loadPool poolKey
  let pool := ((((pool.setAuthority authority).setPaused false).setComplianceVersion 0
    ).setCompliancePk compliancePkX compliancePkY).setAllVerifiers verifiers
  let pool ← insertAndEmit env (pool.setNextLeafIndex 0) genesisLeaf (Bytes.zero 32) none none
    (List.replicate 7 (Bytes.zero 32))
  writeData env call poolKey pool.data

/-- `set_verifier`. -/
def setVerifier (circuitId : UInt8) (program : Pubkey) : Exec Unit := do
  let (authority, poolKey) ← loadPoolAuthority env call
  let pool ← loadPool poolKey
  require (pool.authority = authority) .invalidAccountData
  let pool ← ofResult (pool.setVerifier circuitId program)
  writeData env call poolKey pool.data

/-- `rotate_compliance_key`. -/
def rotateComplianceKey (x y : Bytes 32) : Exec Unit := do
  let (authority, poolKey) ← loadPoolAuthority env call
  let pool ← loadPool poolKey
  require (pool.authority = authority) .invalidAccountData
  let oldVersion := pool.complianceVersion
  -- the addition is checked
  require (oldVersion + 1 < 2 ^ 32) .panic
  let pool := (pool.setCompliancePk x y).setComplianceVersion (oldVersion + 1)
  emit (.complianceKeyRotated oldVersion (oldVersion + 1) x y)
  writeData env call poolKey pool.data

/-- `set_paused`. -/
def setPaused (paused : Bool) : Exec Unit := do
  let (authority, poolKey) ← loadPoolAuthority env call
  let pool ← loadPool poolKey
  require (pool.authority = authority) .invalidAccountData
  writeData env call poolKey (pool.setPaused paused).data

/-! ## Deposit -/

/-- The asset registry of `deposit`: create the entry on the first deposit of a mint, and hold
every later one to it. -/
def registerAsset (depositor assetKey mint vault : Pubkey) (assetBump : UInt8) : Exec Unit := do
  let a ← account assetKey
  if a.data = [] then do
    createPdaIfNeeded env call depositor assetKey assetLen
      [assetSeed, (assetIdBytes env mint).val, [assetBump]]
    let b ← account assetKey
    let asset ← ofResult (Asset.new b.data)
    writeData env call assetKey (asset.write mint vault (assetIdBytes env mint) assetBump).data
  else do
    let asset ← ofResult (Asset.new a.data)
    require (asset.mint = mint) PoolError.assetCollision.into
    require (asset.vault = vault) .invalidSeeds

/-- `deposit`. -/
def deposit (proof : Bytes 192) (publicInputs : List (Bytes 32)) (amount : UInt64) : Exec Unit := do
  let depositor ← nextAccount call 0
  let poolKey ← nextAccount call 1
  let assetKey ← nextAccount call 2
  let mint ← nextAccount call 3
  let vault ← nextAccount call 4
  let depositorToken ← nextAccount call 5
  let tokenProgram ← nextAccount call 6
  let ataProgram ← nextAccount call 7
  let _ ← nextAccount call 8
  let verifierKey ← nextAccount call 9
  require (call.isSigner depositor) .missingRequiredSignature
  require (tokenProgramSupported tokenProgram) PoolError.unsupportedMint.into
  require (ataProgram = associatedTokenProgramId) .incorrectProgramId
  checkCount publicInputs 11
  let mintAccount ← account mint
  require (mintAccount.owner = tokenProgram) PoolError.unsupportedMint.into
  let leaf := input publicInputs 0
  let ephPubX := input publicInputs 1
  require (input publicInputs 2 = amountField amount) PoolError.amountMismatch.into
  require (input publicInputs 3 = assetIdField env mint) PoolError.assetMismatch.into
  let pool ← loadPool poolKey
  require (pool.paused = false) PoolError.paused.into
  let full := [pool.compliancePkX, pool.compliancePkY] ++ publicInputs
  let registered ← ofResult (pool.verifier 0)
  let pool ← insertAndEmit env pool leaf ephPubX none none (ct7 publicInputs 4)
  writeData env call poolKey pool.data
  let uncompressed ← ofResult (decompressProof env proof)
  verifyCpi env call verifierKey registered uncompressed full
  let (expectedAsset, assetBump) ← findPda env (.asset (assetIdBytes env mint))
  require (assetKey = expectedAsset) .invalidSeeds
  let expectedVault ← ofOption (env.getAssociatedTokenAddress poolKey mint tokenProgram) .panic
  require (vault = expectedVault) .invalidSeeds
  registerAsset env call depositor assetKey mint vault assetBump
  let vaultAccount ← account vault
  whenever (vaultAccount.data = [])
    (createAssociatedTokenAccount env call depositor poolKey mint tokenProgram)
  let decimals ← mintDecimals mint tokenProgram
  invokeTransferChecked env call (fun _ => false) tokenProgram depositorToken mint vault depositor
    amount decimals

/-! ## Spends -/

/-- `transfer_like`. -/
def transferLike (proof : Bytes 192) (publicInputs : List (Bytes 32)) (rootIndex circuitId : UInt8)
    (expectedCount : ℕ) : Exec Unit := do
  let payer ← nextAccount call 0
  let poolKey ← nextAccount call 1
  let nullifierKey ← nextAccount call 2
  let _ ← nextAccount call 3
  let verifierKey ← nextAccount call 4
  require (call.isSigner payer) .missingRequiredSignature
  let _ ← expectPoolPda env poolKey
  checkCount publicInputs expectedCount
  let nullifier := input publicInputs 0
  let pool ← loadPool poolKey
  require (pool.paused = false) PoolError.paused.into
  let root ← resolveRoot pool rootIndex
  let full := [pool.compliancePkX, pool.compliancePkY, nullifier, root] ++ publicInputs.drop 1
  let registered ← ofResult (pool.verifier circuitId)
  let pool ← insertAndEmit env pool (input publicInputs 1) (input publicInputs 2)
    (some (input publicInputs 3)) (some (input publicInputs 4)) (ct7 publicInputs 5)
  let pool ← insertAndEmit env pool (input publicInputs 12) (input publicInputs 13) none none
    (ct7 publicInputs 14)
  writeData env call poolKey pool.data
  createNullifier env call payer nullifierKey nullifier
  let uncompressed ← ofResult (decompressProof env proof)
  verifyCpi env call verifierKey registered uncompressed full

/-- `split_multisig`. -/
def splitMultisig (proof : Bytes 192) (publicInputs : List (Bytes 32)) (rootIndex : UInt8) :
    Exec Unit := do
  let payer ← nextAccount call 0
  let poolKey ← nextAccount call 1
  let nullifierKey ← nextAccount call 2
  let _ ← nextAccount call 3
  let verifierKey ← nextAccount call 4
  require (call.isSigner payer) .missingRequiredSignature
  let _ ← expectPoolPda env poolKey
  checkCount publicInputs 19
  let nullifier := input publicInputs 0
  let pool ← loadPool poolKey
  require (pool.paused = false) PoolError.paused.into
  let root ← resolveRoot pool rootIndex
  let full := [pool.compliancePkX, pool.compliancePkY, nullifier, root] ++ publicInputs.drop 1
  let registered ← ofResult (pool.verifier 4)
  let pool ← insertAndEmit env pool (input publicInputs 1) (input publicInputs 2) none none
    (ct7 publicInputs 3)
  let pool ← insertAndEmit env pool (input publicInputs 10) (input publicInputs 11) none none
    (ct7 publicInputs 12)
  writeData env call poolKey pool.data
  createNullifier env call payer nullifierKey nullifier
  let uncompressed ← ofResult (decompressProof env proof)
  verifyCpi env call verifierKey registered uncompressed full

/-- `join_multisig`. -/
def joinMultisig (proof : Bytes 192) (publicInputs : List (Bytes 32)) (rootIndex : UInt8) :
    Exec Unit := do
  let payer ← nextAccount call 0
  let poolKey ← nextAccount call 1
  let nullifierKeyA ← nextAccount call 2
  let nullifierKeyB ← nextAccount call 3
  let _ ← nextAccount call 4
  let verifierKey ← nextAccount call 5
  require (call.isSigner payer) .missingRequiredSignature
  let _ ← expectPoolPda env poolKey
  checkCount publicInputs 11
  let nullifierA := input publicInputs 0
  let nullifierB := input publicInputs 1
  let pool ← loadPool poolKey
  require (pool.paused = false) PoolError.paused.into
  let root ← resolveRoot pool rootIndex
  let full := [pool.compliancePkX, pool.compliancePkY, nullifierA, nullifierB, root] ++
    publicInputs.drop 2
  let registered ← ofResult (pool.verifier 5)
  let pool ← insertAndEmit env pool (input publicInputs 2) (input publicInputs 3) none none
    (ct7 publicInputs 4)
  writeData env call poolKey pool.data
  createNullifier env call payer nullifierKeyA nullifierA
  createNullifier env call payer nullifierKeyB nullifierB
  let uncompressed ← ofResult (decompressProof env proof)
  verifyCpi env call verifierKey registered uncompressed full

/-- The asset account of a withdraw names the mint and the vault passed beside it. -/
def checkAsset (assetKey mint vault : Pubkey) (assetIdInput : Bytes 32) : Exec Unit := do
  let a ← account assetKey
  let asset ← ofResult (Asset.new a.data)
  require (asset.mint = mint) PoolError.assetMismatch.into
  require (assetIdInput = assetIdField env mint) PoolError.assetMismatch.into
  require (asset.vault = vault) .invalidSeeds

/-- `withdraw_like`. -/
def withdrawLike (proof : Bytes 192) (publicInputs : List (Bytes 32)) (amount : UInt64)
    (rootIndex circuitId : UInt8) : Exec Unit := do
  let payer ← nextAccount call 0
  let poolKey ← nextAccount call 1
  let nullifierKey ← nextAccount call 2
  let assetKey ← nextAccount call 3
  let mint ← nextAccount call 4
  let vault ← nextAccount call 5
  let destination ← nextAccount call 6
  let tokenProgram ← nextAccount call 7
  let _ ← nextAccount call 8
  let verifierKey ← nextAccount call 9
  require (call.isSigner payer) .missingRequiredSignature
  let mintAccount ← account mint
  require (tokenProgramSupported tokenProgram ∧ mintAccount.owner = tokenProgram)
    .incorrectProgramId
  checkCount publicInputs 14
  let bump ← expectPoolPda env poolKey
  let withdrawValue := input publicInputs 0
  let recipient := input publicInputs 1
  let intentHash := input publicInputs 2
  let nullifier := input publicInputs 3
  require (intentHash = Bytes.zero 32) PoolError.intentHashNotZero.into
  require (withdrawValue = amountField amount) PoolError.amountMismatch.into
  require (recipient = recipientField env destination) PoolError.recipientMismatch.into
  checkAsset env assetKey mint vault (input publicInputs 4)
  let pool ← loadPool poolKey
  require (pool.paused = false) PoolError.paused.into
  let root ← resolveRoot pool rootIndex
  let full := [withdrawValue, recipient, intentHash, pool.compliancePkX, pool.compliancePkY,
    nullifier, root] ++ publicInputs.drop 4
  let registered ← ofResult (pool.verifier circuitId)
  let pool ← insertAndEmit env pool (input publicInputs 5) (input publicInputs 6) none none
    (ct7 publicInputs 7)
  writeData env call poolKey pool.data
  createNullifier env call payer nullifierKey nullifier
  let uncompressed ← ofResult (decompressProof env proof)
  verifyCpi env call verifierKey registered uncompressed full
  let decimals ← mintDecimals mint tokenProgram
  invokeTransferChecked env call (signedBy env [poolSeed, [bump]]) tokenProgram vault mint
    destination poolKey amount decimals

/-! ## Dispatch -/

/-- `process`, after the instruction data is decoded. -/
def process : PoolInstruction → Exec Unit
  | .initializePool x y verifiers genesisLeaf => initializePool env call x y verifiers genesisLeaf
  | .setVerifier circuitId program => setVerifier env call circuitId program
  | .rotateComplianceKey x y => rotateComplianceKey env call x y
  | .setPaused paused => setPaused env call paused
  | .deposit proof publicInputs amount => deposit env call proof publicInputs amount
  | .transfer proof publicInputs rootIndex => transferLike env call proof publicInputs rootIndex 1 21
  | .transferMultisig proof publicInputs rootIndex =>
    transferLike env call proof publicInputs rootIndex 3 21
  | .splitMultisig proof publicInputs rootIndex => splitMultisig env call proof publicInputs rootIndex
  | .joinMultisig proof publicInputs rootIndex => joinMultisig env call proof publicInputs rootIndex
  | .withdraw proof publicInputs amount rootIndex =>
    withdrawLike env call proof publicInputs amount rootIndex 2
  | .withdrawMultisig proof publicInputs amount rootIndex =>
    withdrawLike env call proof publicInputs amount rootIndex 6
  | .verifyOnly _ _ _ => fail .invalidInstructionData

end Kakure
