import Kakure.Pool.Merkle
import Kakure.Runtime.Token

/-!
# Domain hashes, derived addresses, the asset account and the verifier call

`helpers.rs`, `pda.rs`, the `Asset` part of `state.rs` and `verify.rs`.

* `createProgramAddress_of_pda` — every address derived here is one the program signs for;
* `Asset.write` and its readers — the registry entry reads back what was written;
* `verifyCpi_ok` — a successful verifier call went to the registered program, which is
  set, and that program accepted the proof with exactly these public inputs.
-/

namespace Kakure

open Slices Guarded

/-! ## Domain hashes -/

/-- `ASSET_ID_DOMAIN = b"kakure.asset.v1"`. -/
def assetIdDomain : List UInt8 :=
  [107, 97, 107, 117, 114, 101, 46, 97, 115, 115, 101, 116, 46, 118, 49]

/-- `RECIPIENT_DOMAIN = b"kakure.recipient.v1"`. -/
def recipientDomain : List UInt8 :=
  [107, 97, 107, 117, 114, 101, 46, 114, 101, 99, 105, 112, 105, 101, 110, 116, 46, 118, 49]

variable (env : Env) (call : Call)

/-- `asset_id_bytes`. -/
def assetIdBytes (mint : Pubkey) : Bytes 20 :=
  ⟨(env.sha256 (assetIdDomain ++ mint.val)).val.take 20, by simp⟩

/-- `asset_id_field`. -/
def assetIdField (mint : Pubkey) : Bytes 32 :=
  ⟨List.replicate 12 0 ++ (assetIdBytes env mint).val, by simp⟩

/-- `recipient_field`. -/
def recipientField (destinationTokenAccount : Pubkey) : Bytes 32 :=
  ⟨0 :: (env.sha256 (recipientDomain ++ destinationTokenAccount.val)).val.tail, by simp⟩

/-- The 32-byte field of a token amount: 24 zero bytes and the big-endian `u64`. -/
def amountField (amount : UInt64) : Bytes 32 :=
  ⟨List.replicate 24 0 ++ (beBytes 8 amount.toNat).val, by simp⟩

/-! ## Derived addresses -/

/-- `ASSET_SEED = b"asset"`. -/
def assetSeed : List UInt8 := [97, 115, 115, 101, 116]

/-- `NULLIFIER_SEED = b"nullifier"`. -/
def nullifierSeed : List UInt8 := [110, 117, 108, 108, 105, 102, 105, 101, 114]

/-- What the program derives an address of its own from. -/
inductive Seeds where
  | pool
  | asset (assetId : Bytes 20)
  | nullifier (nullifier : Bytes 32)
  deriving DecidableEq

/-- The seed list without the bump. -/
def Seeds.toList : Seeds → List (List UInt8)
  | pool => [poolSeed]
  | asset assetId => [assetSeed, assetId.val]
  | nullifier n => [nullifierSeed, n.val]

/-- `pool_pda`, `asset_pda` and `nullifier_pda`. -/
def Env.pda (s : Seeds) : Option (Pubkey × UInt8) := env.findProgramAddress s.toList env.programId

theorem createProgramAddress_of_pda {s : Seeds} {key : Pubkey} {bump : UInt8}
    (h : env.pda s = some (key, bump)) :
    env.createProgramAddress (s.toList ++ [[bump]]) env.programId = some key :=
  Env.createProgramAddress_of_find env h

theorem isPda_of_pda {s : Seeds} {key : Pubkey} {bump : UInt8} (h : env.pda s = some (key, bump)) :
    env.IsPda key := ⟨_, createProgramAddress_of_pda env h⟩

/-- The derived address, which exists for every seed list in practice: the search aborts
otherwise. -/
def findPda (s : Seeds) : Exec (Pubkey × UInt8) := ofOption (env.pda s) .panic

/-! ## The asset account -/

def assetLen : ℕ := 85
def nullifierLen : ℕ := 1

/-- The asset account's data. -/
structure Asset where
  data : List UInt8
  length_data : data.length = assetLen

namespace Asset

/-- `Asset::new`: only the length is checked. -/
def new (data : List UInt8) : Except ProgramError Asset :=
  if h : data.length = assetLen then .ok ⟨data, h⟩ else .error .invalidAccountData

theorem new_eq_ok_iff {data : List UInt8} {a : Asset} : new data = .ok a ↔ a.data = data := by
  unfold new
  constructor
  · intro h
    split at h
    · cases h
      rfl
    · cases h
  · intro h
    obtain ⟨d, hd⟩ := a
    cases h
    exact dif_pos hd

def mint (a : Asset) : Pubkey := readAt 32 a.data 0
def vault (a : Asset) : Pubkey := readAt 32 a.data 32
def assetId (a : Asset) : Bytes 20 := readAt 20 a.data 64
def bump (a : Asset) : Bytes 1 := readAt 1 a.data 84

/-- `Asset::write`. -/
def write (a : Asset) (mint vault : Pubkey) (assetId : Bytes 20) (bump : UInt8) : Asset where
  data := writeAt (writeAt (writeAt (writeAt a.data 0 mint.val) 32 vault.val) 64 assetId.val) 84 [bump]
  length_data := by simp [a.length_data]

/-- The registry entry reads back what was written. -/
theorem fields_write (a : Asset) (mint vault : Pubkey) (assetId : Bytes 20) (bump : UInt8) :
    (a.write mint vault assetId bump).mint = mint ∧ (a.write mint vault assetId bump).vault = vault ∧
      (a.write mint vault assetId bump).assetId = assetId ∧
      (a.write mint vault assetId bump).bump = ⟨[bump], rfl⟩ := by
  have hlen : a.data.length = 85 := a.length_data
  have hm : mint.val.length = 32 := mint.2
  have hv : vault.val.length = 32 := vault.2
  have hi : assetId.val.length = 20 := assetId.2
  have hb : [bump].length = 1 := rfl
  simp only [Asset.mint, Asset.vault, Asset.assetId, Asset.bump, write]
  refine ⟨?_, ?_, ?_, ?_⟩
  · rw [readAt_writeAt_disjoint (by simp; omega) (by simp; omega) (by omega),
      readAt_writeAt_disjoint (by simp; omega) (by simp; omega) (by omega),
      readAt_writeAt_disjoint (by simp; omega) (by simp; omega) (by omega),
      readAt_writeAt_same mint (by omega)]
  · rw [readAt_writeAt_disjoint (by simp; omega) (by simp; omega) (by omega),
      readAt_writeAt_disjoint (by simp; omega) (by simp; omega) (by omega),
      readAt_writeAt_same vault (by simp; omega)]
  · rw [readAt_writeAt_disjoint (by simp; omega) (by simp; omega) (by omega),
      readAt_writeAt_same assetId (by simp; omega)]
  · exact readAt_writeAt_same (⟨[bump], rfl⟩ : Bytes 1) (by simp; omega)

end Asset

/-! ## Proof decompression and the verifier call -/

/-- `decompress_proof`. -/
def decompressProof (compressed : Bytes 192) : Except ProgramError (List UInt8) :=
  match env.g1Decompress (readAt 32 compressed.val 0), env.g2Decompress (readAt 64 compressed.val 32),
    env.g1Decompress (readAt 32 compressed.val 96), env.g1Decompress (readAt 32 compressed.val 128),
    env.g1Decompress (readAt 32 compressed.val 160) with
  | some a, some b, some c, some commitment, some pok =>
    .ok (a.val ++ b.val ++ c.val ++ (beBytes 4 1).val ++ commitment.val ++ pok.val)
  | _, _, _, _, _ => .error PoolError.invalidProof.into

/-- The public witness behind the proof: three big-endian `u32` counts and the entries. -/
def publicWitness (publicInputs : List (Bytes 32)) : List UInt8 :=
  (beBytes 4 publicInputs.length).val ++ (beBytes 4 0).val ++ (beBytes 4 publicInputs.length).val ++
    publicInputs.flatMap Subtype.val

/-- `verify_cpi`. -/
def verifyCpi (verifierProgram verifierKey : Pubkey) (proof : List UInt8)
    (publicInputs : List (Bytes 32)) : Exec Unit := do
  require (verifierProgram = verifierKey) .incorrectProgramId
  require (verifierKey ≠ Pubkey.default) PoolError.verifierUnset.into
  checkCall call (fun _ => false) verifierKey []
  require (env.accepts verifierKey (proof ++ publicWitness publicInputs)) .callee

variable {env call}

theorem verifyCpi_ok {verifierProgram verifierKey : Pubkey} {proof : List UInt8}
    {publicInputs : List (Bytes 32)} {u : Unit} {m m' : Machine}
    (h : verifyCpi env call verifierProgram verifierKey proof publicInputs m = .ok (u, m')) :
    verifierKey ≠ Pubkey.default ∧ env.accepts verifierKey (proof ++ publicWitness publicInputs) ∧
      m' = m := by
  simp only [verifyCpi, bind_eq_ok, require_eq_ok, checkCall_eq_ok] at h
  obtain ⟨-, _, ⟨-, rfl⟩, -, _, ⟨hset, rfl⟩, -, _, ⟨-, rfl⟩, haccept, rfl⟩ := h
  exact ⟨hset, haccept, rfl⟩

end Kakure
