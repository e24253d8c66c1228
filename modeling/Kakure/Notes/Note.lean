import Kakure.Curve.Primes
import Kakure.Lib.Fallible

/-!
# Notes

`note/note.ts`, `note/nullifier.ts` and `crypto/dem.ts`: the fields of a note, the leaf that commits to them,
and the stream cipher they are sent under.  The hash is a parameter.

* `demDecrypt_encrypt` — what is encrypted is decrypted;
* `preimage_injective` — a leaf preimage has one note.
-/

namespace Kakure.Notes

/-- `ENC_DOMAIN`. -/
def encDomain : Fr := 0x23f955e41a1c10e85986f4fb49fcaf4cb8a6d3264f10fd0253d5e212303b9882

/-- `PSI_DOMAIN`. -/
def psiDomain : Fr := 0x20b80b02c7b72d50c3f3dbdb4aa38592cdac5c1aa0f9d3f3509480ae234a790

/-- `NOTE_VERSION`. -/
def noteVersion : Fr := 1

/-- `NOTE_TYPE_STANDARD`. -/
def noteTypeStandard : Fr := 0

/-- `NOTE_TYPE_MULTISIG`. -/
def noteTypeMultisig : Fr := 1

/-- `Note`. -/
structure Note where
  noteVersion : Fr
  assetId : Fr
  noteType : Fr
  conditionsHash : Fr
  value : ℕ
  owner : Fr
  psi : Fr
  parents : Fr
  deriving DecidableEq

/-- What the leaf hashes. -/
def Note.preimage (note : Note) : List Fr :=
  [note.noteVersion, note.assetId, note.noteType, note.conditionsHash, (note.value : Fr), note.owner, note.psi,
    note.parents]

/-- The fields that are sent; `psi` follows from the content key. -/
def Note.transmitted (note : Note) : List Fr :=
  [note.noteVersion, note.assetId, note.noteType, note.conditionsHash, (note.value : Fr), note.owner, note.parents]

/-- A leaf preimage has one note. -/
theorem preimage_injective {n m : Note} (hn : n.value < 2 ^ 128) (hm : m.value < 2 ^ 128)
    (h : n.preimage = m.preimage) : n = m := by
  unfold Note.preimage at h
  simp only [List.cons.injEq, and_true] at h
  obtain ⟨h₁, h₂, h₃, h₄, hvalue, h₆, h₇, h₈⟩ := h
  have hval := congrArg ZMod.val hvalue
  rw [val_natCast_of_lt (lt_trans hn two_pow_128_lt_modulus), val_natCast_of_lt (lt_trans hm two_pow_128_lt_modulus)] at hval
  cases n
  cases m
  simp_all

section Hash

variable (hash : List Fr → Fr)

/-- `leaf`. -/
def leaf (note : Note) : Except String Fr :=
  if 2 ^ 128 ≤ note.value then .error ("note value out of u128 range: " ++ toString note.value)
  else .ok (hash note.preimage)

/-- `computePsi`. -/
def computePsi (cek : Fr) : Fr := hash [cek, psiDomain]

/-- `computeNullifier`. -/
def computeNullifier (psi leafIndex : Fr) : Fr := hash [psi, leafIndex]

/-- `DEM_FIELDS`. -/
def demFields : ℕ := 7

/-- `demKeystream`. -/
def demKeystream (cek : Fr) (k : ℕ) : Fr := hash [cek, encDomain, (k : Fr)]

/-- `demEncrypt`. -/
def demEncrypt (cek : Fr) (plaintext : List Fr) : Except String (List Fr) :=
  if plaintext.length ≠ demFields then
    .error ("DEM encrypt expects " ++ toString demFields ++ " plaintext fields, got " ++ toString plaintext.length)
  else .ok (plaintext.mapIdx fun k word => word + demKeystream hash cek k)

/-- `demDecrypt`. -/
def demDecrypt (cek : Fr) (ciphertext : List Fr) : Except String (List Fr) :=
  if ciphertext.length ≠ demFields then
    .error ("DEM decrypt expects " ++ toString demFields ++ " ciphertext fields, got " ++ toString ciphertext.length)
  else .ok (ciphertext.mapIdx fun k word => word - demKeystream hash cek k)

/-- The note of a plaintext. -/
def noteOf (plaintext : List Fr) (psi : Fr) : Note where
  noteVersion := plaintext.getD 0 0
  assetId := plaintext.getD 1 0
  noteType := plaintext.getD 2 0
  conditionsHash := plaintext.getD 3 0
  value := (plaintext.getD 4 0).val
  owner := plaintext.getD 5 0
  psi := psi
  parents := plaintext.getD 6 0

variable {hash}

theorem leaf_ok {note : Note} (h : note.value < 2 ^ 128) : leaf hash note = .ok (hash note.preimage) := by
  rw [leaf, if_neg (not_le.2 h)]

/-- The words of a ciphertext. -/
def encrypted (hash : List Fr → Fr) (cek : Fr) (words : List Fr) : List Fr :=
  words.mapIdx fun k word => word + demKeystream hash cek k

@[simp] theorem length_encrypted (cek : Fr) (words : List Fr) : (encrypted hash cek words).length = words.length :=
  List.length_mapIdx

theorem demEncrypt_ok {cek : Fr} {words : List Fr} (h : words.length = demFields) :
    demEncrypt hash cek words = .ok (encrypted hash cek words) := by
  rw [demEncrypt, if_neg (not_not.2 h)]
  rfl

/-- What is encrypted is decrypted. -/
theorem demDecrypt_encrypt (cek : Fr) {words : List Fr} (h : words.length = demFields) :
    demDecrypt hash cek (encrypted hash cek words) = .ok words := by
  have hlength : (encrypted hash cek words).length = demFields := by rw [length_encrypted, h]
  rw [demDecrypt, if_neg (not_not.2 hlength), encrypted, List.mapIdx_mapIdx]
  refine congrArg Except.ok ?_
  have hid : (fun k : ℕ => (fun word => word - demKeystream hash cek k) ∘ fun word => word + demKeystream hash cek k) =
      fun _ word => word := by
    funext k word
    exact add_sub_cancel_right _ _
  rw [hid]
  exact List.ext_getElem (by simp) (by simp)

/-- The fields that are sent are those of the note. -/
theorem noteOf_transmitted {note : Note} (h : note.value < 2 ^ 128) : noteOf note.transmitted note.psi = note := by
  have hvalue := val_natCast_of_lt (lt_trans h two_pow_128_lt_modulus)
  simp [noteOf, Note.transmitted, hvalue]

end Hash

end Kakure.Notes
