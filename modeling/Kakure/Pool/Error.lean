import Mathlib

/-!
# Program errors

`PoolError` of `error.rs`, the `ProgramError` values the program returns, and the
errors the Solana runtime and the programs it calls return in its place.
-/

namespace Kakure

/-- The program's own errors, in declaration order. -/
inductive PoolError where
  | paused
  | invalidPublicInputCount
  | complianceKeyStale
  | staleRoot
  | nullifierSpent
  | invalidProof
  | invalidLeaf
  | amountMismatch
  | assetMismatch
  | assetCollision
  | recipientMismatch
  | intentHashNotZero
  | unsupportedMint
  | verifierUnset
  deriving DecidableEq, Repr

/-- `e as u32`. -/
def PoolError.code : PoolError → ℕ
  | .paused => 0
  | .invalidPublicInputCount => 1
  | .complianceKeyStale => 2
  | .staleRoot => 3
  | .nullifierSpent => 4
  | .invalidProof => 5
  | .invalidLeaf => 6
  | .amountMismatch => 7
  | .assetMismatch => 8
  | .assetCollision => 9
  | .recipientMismatch => 10
  | .intentHashNotZero => 11
  | .unsupportedMint => 12
  | .verifierUnset => 13

/-- The error an instruction ends with. -/
inductive ProgramError where
  /-- `ProgramError::Custom`. -/
  | custom (code : ℕ)
  | invalidArgument
  | invalidInstructionData
  | invalidAccountData
  | accountAlreadyInitialized
  | missingRequiredSignature
  | notEnoughAccountKeys
  | invalidSeeds
  | incorrectProgramId
  /-- An arithmetic overflow or a failed `unwrap`: the program aborts. -/
  | panic
  /-- The runtime's refusal of a write or of a cross-program call. -/
  | runtime
  /-- The error of a called program, passed through by the runtime. -/
  | callee
  deriving DecidableEq, Repr

/-- `From<PoolError> for ProgramError`. -/
def PoolError.into (e : PoolError) : ProgramError := .custom e.code

/-- Different pool errors reach the caller as different codes. -/
theorem PoolError.into_injective : Function.Injective PoolError.into := by
  intro e e' h
  cases e <;> cases e' <;> first | rfl | cases h

end Kakure
