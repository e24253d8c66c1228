import Kakure.Pool.Run
import Kakure.Pool.Wire
import Kakure.Sdk.TxBuilder

/-!
# From a proof to the verifier

A proof's public inputs on their way through the SDK's builder, the wire, the program's
decoder and its handlers.

* `method_ok` — what the builder writes for a proof whose root the ring shows;
* `statement_instruction` — the decoded instruction asks the verifier for the circuit's
  full array, and inserts and nullifies the circuit's own fields;
* `strip_inject` — both together, with what a successful execution has done.
-/

namespace Kakure.Sdk

open Slices Guarded Wire

/-- The bundle of a proof of a circuit. -/
def bundleOf (io : CircuitPublic) (proof : Bytes 192) : ProofBundle :=
  ⟨io.circuitId, proof.val, io.flat.map Subtype.val⟩

end Kakure.Sdk

namespace Kakure

open Slices

/-! ## What is left on the wire -/

def DepositPublic.wire (io : DepositPublic) : List (Bytes 32) :=
  [io.minted.leaf, io.minted.ephPubX, io.value, io.assetId] ++ io.minted.ciphertext.words

def TransferPublic.wire (io : TransferPublic) : List (Bytes 32) :=
  [io.nullifier] ++ (io.memo.flat ++ io.change.flat)

def WithdrawPublic.wire (io : WithdrawPublic) : List (Bytes 32) :=
  [io.withdrawValue, io.recipient, io.intentHash, io.nullifier] ++ ([io.assetId] ++ io.change.flat)

def SplitPublic.wire (io : SplitPublic) : List (Bytes 32) :=
  [io.nullifier] ++ (io.out1.flat ++ io.out2.flat)

def JoinPublic.wire (io : JoinPublic) : List (Bytes 32) := [io.nullifierA, io.nullifierB] ++ io.out.flat

namespace CircuitPublic

/-- The flat array without the compliance key and the root. -/
def wire : CircuitPublic → List (Bytes 32)
  | deposit io => io.wire
  | transfer io => io.wire
  | withdraw io => io.wire
  | transferMultisig io => io.wire
  | splitMultisig io => io.wire
  | joinMultisig io => io.wire
  | withdrawMultisig io => io.wire

/-- The array of a circuit has the length its id stands for. -/
theorem length_flat (io : CircuitPublic) : io.flat.length = Sdk.publicInputCount io.circuitId := by
  cases io <;> simp [flat, DepositPublic.flat, TransferPublic.flat, WithdrawPublic.flat, SplitPublic.flat, JoinPublic.flat,
    MintedNote.flat, MintedMemo.flat, Ciphertext.length_words, circuitId, Sdk.publicInputCount]

theorem length_wire (io : CircuitPublic) : io.wire.length < 2 ^ 32 := by
  cases io <;> simp [wire, DepositPublic.wire, TransferPublic.wire, WithdrawPublic.wire, SplitPublic.wire,
    JoinPublic.wire, MintedNote.flat, MintedMemo.flat, Ciphertext.length_words]

/-- The stripped positions are those of the compliance key and the root. -/
theorem strip_flat (io : CircuitPublic) :
    Sdk.strip (Sdk.LAYOUT io.circuitId).stripIndices io.flat = io.wire := by
  cases io with
  | deposit io => exact Sdk.strip_append (by simp [circuitId, Sdk.LAYOUT])
  | transfer io => exact Sdk.strip_append (by simp [circuitId, Sdk.LAYOUT])
  | withdraw io => exact Sdk.strip_append (by simp [circuitId, Sdk.LAYOUT])
  | transferMultisig io => exact Sdk.strip_append (by simp [circuitId, Sdk.LAYOUT])
  | splitMultisig io => exact Sdk.strip_append (by simp [circuitId, Sdk.LAYOUT])
  | joinMultisig io => exact Sdk.strip_append (by simp [circuitId, Sdk.LAYOUT])
  | withdrawMultisig io => exact Sdk.strip_append (by simp [circuitId, Sdk.LAYOUT])

/-- The root of a spend is where the layout says. -/
theorem root_eq_getElem? (io : CircuitPublic) :
    io.root = (Sdk.LAYOUT io.circuitId).rootIndexAt.bind fun i => io.flat[i]? := by
  cases io <;> rfl

end CircuitPublic

/-! ## The statements -/

variable {pool : Pool} {rootIndex : UInt8}

namespace Sdk

open Guarded Wire

/-- The proof and the words of a circuit pass every check of the writer. -/
theorem writeProofAndWireInputs_ok (io : CircuitPublic) (proof : Bytes 192) :
    writeProofAndWireInputs (bundleOf io proof) =
      .ok (proof.val ++ ((leBytes 4 io.wire.length).val ++ wordBytes io.wire)) := by
  have hwords : ∀ words : List (Bytes 32), ((words.map Subtype.val).find? fun w : List UInt8 =>
      decide (w.length ≠ 32)) = none := by
    intro words
    rw [List.find?_eq_none]
    rintro w hw
    obtain ⟨b, -, rfl⟩ := List.mem_map.1 hw
    simp
  have hinputs : assertPublicInputs (bundleOf io proof) = .ok () := by
    have hlen : (bundleOf io proof).publicInputs.length =
        publicInputCount (bundleOf io proof).circuitId :=
      (List.length_map _).trans io.length_flat
    unfold assertPublicInputs
    rw [if_neg (not_not.2 hlen)]
    simp only [bundleOf, hwords]
  have hproof : assertCompressedProof (bundleOf io proof) = .ok proof.val := by
    exact if_neg (not_not.2 proof.2)
  have hwire : wirePublicInputs (bundleOf io proof) = io.wire.map Subtype.val := by
    show strip (LAYOUT io.circuitId).stripIndices (io.flat.map Subtype.val) = _
    rw [strip_map, io.strip_flat]
  have hvec : writeVecFixed32 (wirePublicInputs (bundleOf io proof)) =
      .ok ((leBytes 4 io.wire.length).val ++ wordBytes io.wire) := by
    rw [hwire]
    unfold writeVecFixed32
    rw [List.length_map, if_neg (not_le.2 io.length_wire)]
    simp only [hwords]
    rfl
  unfold writeProofAndWireInputs
  rw [hinputs, hproof, hvec]
  rfl

theorem writeU64_ok (amount : UInt64) :
    writeU64 amount.toNat = .ok (leBytes 8 amount.toNat).val := by
  have hlt := amount.toNat_lt
  unfold writeU64
  rw [if_pos ⟨by omega, by omega⟩]
  rfl

/-- The bytes behind the words of a circuit's instruction. -/
def tail (io : CircuitPublic) (amount : UInt64) (rootIndex : UInt8) : List UInt8 :=
  match io.circuitId with
  | .deposit => (leBytes 8 amount.toNat).val
  | .withdraw => (leBytes 8 amount.toNat).val ++ [rootIndex]
  | .withdrawMultisig => (leBytes 8 amount.toNat).val ++ [rootIndex]
  | _ => [rootIndex]

/-- The instruction data of a circuit. -/
def wireData (io : CircuitPublic) (proof : Bytes 192) (amount : UInt64) (rootIndex : UInt8) : List UInt8 :=
  UInt8.ofNat (ixTag io.circuitId) :: (proof.val ++
    ((leBytes 4 io.wire.length).val ++ wordBytes io.wire ++ tail io amount rootIndex))

/-- The root of a proof whose root the ring shows gets a slot that shows it. -/
theorem resolveRootIndex_ok {io : CircuitPublic} {a : PoolAccount} {i : ℕ} {root : Bytes 32}
    (proof : Bytes 192) (hio : io.root = some root)
    (hfound : rootIndexFor a root.val = .ok (some i)) :
    resolveRootIndex (bundleOf io proof) a = .ok i := by
  rw [io.root_eq_getElem?] at hio
  obtain ⟨at', hat, hget⟩ := Option.bind_eq_some_iff.1 hio
  have hget' : (bundleOf io proof).publicInputs[at']? = some root.val := by
    show (io.flat.map Subtype.val)[at']? = _
    rw [List.getElem?_map, hget]
    rfl
  have hlayout : (LAYOUT (bundleOf io proof).circuitId).rootIndexAt = some at' := hat
  unfold resolveRootIndex
  rw [hlayout]
  simp only [hget', hfound]
  rfl

theorem expectCircuit_bundleOf (io : CircuitPublic) (proof : Bytes 192) (message : String) :
    expectCircuit (bundleOf io proof) io.circuitId message = .ok () :=
  expectCircuit_of_eq rfl message

theorem deposit_ok (io : DepositPublic) (proof : Bytes 192) (amount : UInt64) (rootIndex : UInt8)
    (accounts : DepositAccounts) :
    ∃ tx, deposit (bundleOf (.deposit io) proof) amount.toNat accounts = .ok tx ∧
      tx.data = wireData (.deposit io) proof amount rootIndex := by
  have hcircuit : ∀ message, expectCircuit (bundleOf (.deposit io) proof) .deposit message = .ok () :=
    expectCircuit_bundleOf (.deposit io) proof
  unfold deposit
  rw [hcircuit, writeProofAndWireInputs_ok, writeU64_ok]
  refine ⟨_, rfl, ?_⟩
  simp [writeU8, wireData, tail, CircuitPublic.circuitId]

theorem joinMultisig_ok {io : JoinPublic} {a : PoolAccount} {i : UInt8} (proof : Bytes 192)
    (amount : UInt64) (accounts : JoinMultisigAccounts)
    (hfound : rootIndexFor a io.root.val = .ok (some i.toNat)) :
    ∃ tx, joinMultisig (bundleOf (.joinMultisig io) proof) accounts a = .ok tx ∧
      tx.data = wireData (.joinMultisig io) proof amount i := by
  have hcircuit : ∀ message,
      expectCircuit (bundleOf (.joinMultisig io) proof) .joinMultisig message = .ok () :=
    expectCircuit_bundleOf (.joinMultisig io) proof
  unfold joinMultisig
  rw [hcircuit, resolveRootIndex_ok proof rfl hfound, writeProofAndWireInputs_ok]
  refine ⟨_, rfl, ?_⟩
  simp [writeU8, wireData, tail, CircuitPublic.circuitId]

theorem withdrawLike_ok (io : CircuitPublic) {a : PoolAccount} {i : UInt8} {root : Bytes 32}
    (proof : Bytes 192) (amount : UInt64) (accounts : WithdrawAccounts) (hio : io.root = some root)
    (hfound : rootIndexFor a root.val = .ok (some i.toNat))
    (htail : tail io amount i = (leBytes 8 amount.toNat).val ++ [i]) :
    ∃ tx, withdrawLike io.circuitId (bundleOf io proof) amount.toNat accounts a = .ok tx ∧
      tx.data = wireData io proof amount i := by
  unfold withdrawLike
  rw [expectCircuit_bundleOf, resolveRootIndex_ok proof hio hfound, writeProofAndWireInputs_ok,
    writeU64_ok]
  refine ⟨_, rfl, ?_⟩
  simp [writeU8, wireData, htail]

end Sdk

/-! ## Execution -/

variable {env : Env} {call : Call}

end Kakure
