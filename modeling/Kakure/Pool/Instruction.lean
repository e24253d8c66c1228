import Kakure.Pool.State

/-!
# Instructions and events

`PoolInstruction` of `instruction.rs` after decoding, and the three events of
`events.rs`.
-/

namespace Kakure

open Slices

/-- The instructions of the program, in wire order. -/
inductive PoolInstruction where
  | initializePool (compliancePkX compliancePkY : Bytes 32) (verifiers : Fin 7 → Pubkey)
      (genesisLeaf : Bytes 32)
  | setVerifier (circuitId : UInt8) (program : Pubkey)
  | rotateComplianceKey (x y : Bytes 32)
  | setPaused (paused : Bool)
  | deposit (proof : Bytes 192) (publicInputs : List (Bytes 32)) (amount : UInt64)
  | transfer (proof : Bytes 192) (publicInputs : List (Bytes 32)) (rootIndex : UInt8)
  | transferMultisig (proof : Bytes 192) (publicInputs : List (Bytes 32)) (rootIndex : UInt8)
  | splitMultisig (proof : Bytes 192) (publicInputs : List (Bytes 32)) (rootIndex : UInt8)
  | joinMultisig (proof : Bytes 192) (publicInputs : List (Bytes 32)) (rootIndex : UInt8)
  | withdraw (proof : Bytes 192) (publicInputs : List (Bytes 32)) (amount : UInt64)
      (rootIndex : UInt8)
  | withdrawMultisig (proof : Bytes 192) (publicInputs : List (Bytes 32)) (amount : UInt64)
      (rootIndex : UInt8)
  | verifyOnly (circuitId : UInt8) (proof : Bytes 192) (publicInputs : List (Bytes 32))

/-- `NoteInserted`. -/
structure NoteInserted where
  leafIndex : ℕ
  leaf : Bytes 32
  ephPubX : Bytes 32
  tag : Option (Bytes 32)
  cekWrap : Option (Bytes 32)
  ciphertext : List (Bytes 32)
  root : Bytes 32

/-- What the program writes to the log. -/
inductive Event where
  | noteInserted (ev : NoteInserted)
  | nullifierSpent (nullifier : Bytes 32)
  | complianceKeyRotated (oldVersion newVersion : ℕ) (x y : Bytes 32)

end Kakure
