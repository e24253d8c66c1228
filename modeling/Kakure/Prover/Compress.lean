import Kakure.Curve.Primes
import Kakure.Prover.Curve

/-!
# Proof bytes of the prover

`decode.ts` and `compress.ts`: the parts of a Sunspot proof, the public witness, and the
compressed points the instructions carry.

* `g1Sign_iff`, `g2Sign_iff` — the flag is set exactly if `y` is greater than its negative;
* `compressG1_point`, `compressG2_point` — a compressed point is its `x` with the sign of
  its `y` in the top bit;
* `encodePublicWitness_of_canonical` — canonical inputs are encoded as they are.
-/

namespace Kakure.Prover

open Slices

/-- The bytes from one offset up to another. -/
def slice (bytes : List UInt8) (start stop : ℕ) : List UInt8 := (bytes.drop start).take (stop - start)

theorem slice_append {front mid back : List UInt8} {start stop : ℕ} (hstart : front.length = start)
    (hstop : start + mid.length = stop) : slice (front ++ (mid ++ back)) start stop = mid := by
  subst hstart hstop
  unfold slice
  rw [List.drop_left, Nat.add_sub_cancel_left, List.take_left]

theorem slice_append_slice {bytes : List UInt8} {start mid stop : ℕ} (h : start ≤ mid) (h' : mid ≤ stop) :
    slice bytes start mid ++ slice bytes mid stop = slice bytes start stop := by
  unfold slice
  have hstop : stop - start = mid - start + (stop - mid) := by omega
  rw [hstop, List.take_add, List.drop_drop, Nat.add_sub_cancel' h]

theorem slice_all {bytes : List UInt8} {stop : ℕ} (h : bytes.length ≤ stop) : slice bytes 0 stop = bytes :=
  List.take_of_length_le h

/-- `ProofError`, with its message. -/
structure ProofError where
  kind : String
  message : String

structure ProofBundle where
  proof : List UInt8
  publicInputs : List (List UInt8)

/-! ## `decode.ts` -/

/-- `assertCanonicalFr`. -/
def assertCanonicalFr (entry : List UInt8) (label : String) : Except ProofError ℕ :=
  if entry.length ≠ 32 then
    .error ⟨"decode", label ++ " must be exactly 32 bytes, got " ++ toString entry.length⟩
  else
    let v := beNat entry
    if v ≥ bn254ScalarFieldModulus then
      .error ⟨"decode", label ++ " is not a canonical Fr element (>= FR_MODULUS): " ++ toString v⟩
    else .ok v

/-- `DecodedProof`. -/
structure DecodedProof where
  a : List UInt8
  b : List UInt8
  c : List UInt8
  commitmentCount : ℕ
  commitments : List UInt8
  commitmentPok : List UInt8

/-- `decodeProof`. -/
def decodeProof (proof : List UInt8) : Except ProofError DecodedProof :=
  if proof.length < 260 then
    .error ⟨"decode", "proof too short: " ++ toString proof.length ++ " bytes (need >= 260)"⟩
  else
    let commitmentCount := beNat (slice proof 256 260)
    let expectedLen := 260 + 64 * commitmentCount + 64
    if proof.length ≠ expectedLen then
      .error ⟨"decode", "proof length " ++ toString proof.length ++ " != 260 + 64*" ++
        toString commitmentCount ++ " + 64 = " ++ toString expectedLen⟩
    else
      let commitmentsEnd := 260 + 64 * commitmentCount
      .ok {
        a := slice proof 0 64
        b := slice proof 64 192
        c := slice proof 192 256
        commitmentCount
        commitments := slice proof 260 commitmentsEnd
        commitmentPok := slice proof commitmentsEnd (commitmentsEnd + 64) }

/-- The loop of `encodePublicWitness` from entry `i` on. -/
def encodeEntries : ℕ → List (List UInt8) → Except ProofError (List UInt8)
  | _, [] => .ok []
  | i, entry :: entries =>
    if entry.length ≠ 32 then
      .error ⟨"encode", "public input " ++ toString i ++ " must be exactly 32 bytes"⟩
    else do
      let _ ← assertCanonicalFr entry ("public input " ++ toString i)
      let rest ← encodeEntries (i + 1) entries
      pure (entry ++ rest)

/-- `encodePublicWitness`. -/
def encodePublicWitness (publicInputs : List (List UInt8)) : Except ProofError (List UInt8) := do
  let n := publicInputs.length
  let entries ← encodeEntries 0 publicInputs
  pure ((beBytes 4 n).val ++ (beBytes 4 0).val ++ (beBytes 4 n).val ++ entries)

/-- `proofBytesForChain`. -/
def proofBytesForChain (bundle : ProofBundle) : Except ProofError (List UInt8) := do
  let pw ← encodePublicWitness bundle.publicInputs
  pure (bundle.proof ++ pw)

/-! ## `compress.ts` -/

/-- `SIGN_FLAG_BIT`. -/
def signFlagBit : UInt8 := 0x80

/-- `isAllZero`. -/
def isAllZero (bytes : List UInt8) : Bool := bytes.all fun b => b = 0

/-- `assertCanonicalFq`. -/
def assertCanonicalFq (y : ℕ) (label : String) : Except ProofError Unit :=
  if y ≥ fqModulus then
    .error ⟨"encode", label ++ " is not a canonical Fq element (>= FQ_MODULUS or negative): " ++
      toString y⟩
  else .ok ()

/-- `(FQ_MODULUS - y) % FQ_MODULUS`. -/
def negY (y : ℕ) : ℕ := (fqModulus - y) % fqModulus

/-- `fqSignFlagBit`. -/
def fqSignFlagBit (y : ℕ) : Bool := y > negY y

/-- `fq2SignFlagBit`. -/
def fq2SignFlagBit (y0 y1 : ℕ) : Bool :=
  if y0 ≠ negY y0 then y0 > negY y0 else y1 > negY y1

/-- `out[0] |= SIGN_FLAG_BIT`, if the flag is to be set. -/
def withFlag (flag : Bool) (x : List UInt8) : List UInt8 :=
  if flag then x.modifyHead (· ||| signFlagBit) else x

/-- `compressG1`. -/
def compressG1 (uncompressed : List UInt8) : Except ProofError (List UInt8) :=
  if uncompressed.length ≠ 64 then
    .error ⟨"encode", "compressG1 expects a 64-byte G1 point, got " ++ toString uncompressed.length⟩
  else if isAllZero uncompressed then .ok (List.replicate 32 0)
  else do
    let x := slice uncompressed 0 32
    let y := beNat (slice uncompressed 32 64)
    assertCanonicalFq (beNat x) "G1.x"
    assertCanonicalFq y "G1.y"
    pure (withFlag (fqSignFlagBit y) x)

/-- `compressG2`. -/
def compressG2 (uncompressed : List UInt8) : Except ProofError (List UInt8) :=
  if uncompressed.length ≠ 128 then
    .error ⟨"encode", "compressG2 expects a 128-byte G2 point, got " ++ toString uncompressed.length⟩
  else if isAllZero uncompressed then .ok (List.replicate 64 0)
  else do
    let x := slice uncompressed 0 64
    let y0 := beNat (slice uncompressed 64 96)
    let y1 := beNat (slice uncompressed 96 128)
    assertCanonicalFq (beNat (slice x 0 32)) "G2.x0"
    assertCanonicalFq (beNat (slice x 32 64)) "G2.x1"
    assertCanonicalFq y0 "G2.y0"
    assertCanonicalFq y1 "G2.y1"
    pure (withFlag (fq2SignFlagBit y0 y1) x)

/-- `compressDecodedProof`: the parts fill the 192 bytes one after the other. -/
def compressDecodedProof (decoded : DecodedProof) : Except ProofError (List UInt8) :=
  if decoded.commitmentCount ≠ 1 then
    .error ⟨"encode", "compressDecodedProof expects exactly one commitment, got " ++
      toString decoded.commitmentCount⟩
  else do
    let a ← compressG1 decoded.a
    let b ← compressG2 decoded.b
    let c ← compressG1 decoded.c
    let commitment ← compressG1 decoded.commitments
    let pok ← compressG1 decoded.commitmentPok
    pure (a ++ b ++ c ++ commitment ++ pok)

/-- `compressProof`. -/
def compressProof (bundle : ProofBundle) : Except ProofError (List UInt8) := do
  let decoded ← decodeProof bundle.proof
  compressDecodedProof decoded

/-! ## The flag -/

theorem or_signFlagBit : ∀ b : UInt8, b.toNat < 128 → (b ||| signFlagBit).toNat = b.toNat + 128 := by
  decide +kernel

/-- Setting the flag of a coordinate adds the value of the top bit. -/
theorem withFlag_spec (flag : Bool) {x : Bytes 32} (h : beNat x.val < 2 ^ 254) :
    (withFlag flag x.val).length = 32 ∧
      beNat (withFlag flag x.val) = beNat x.val + if flag then 2 ^ 255 else 0 := by
  cases flag with
  | false => exact ⟨x.2, rfl⟩
  | true =>
    obtain ⟨bytes, hlen⟩ := x
    cases bytes with
    | nil => cases hlen
    | cons b bytes =>
      have hbytes : bytes.length = 31 := by simpa using hlen
      have hhead : b.toNat < 128 := by
        simp only [beNat_cons, hbytes] at h
        norm_num at h
        omega
      refine ⟨by simpa [withFlag] using hbytes, ?_⟩
      show beNat ((b ||| signFlagBit) :: bytes) = beNat (b :: bytes) + 2 ^ 255
      rw [beNat_cons, beNat_cons, or_signFlagBit b hhead, hbytes]
      ring

theorem withFlag_append (flag : Bool) {n : ℕ} (x : Bytes (n + 1)) (rest : List UInt8) :
    withFlag flag (x.val ++ rest) = withFlag flag x.val ++ rest := by
  obtain ⟨bytes, hlen⟩ := x
  cases bytes with
  | nil => cases hlen
  | cons b bytes => cases flag <;> rfl

/-! ## Points -/

/-- The 32 bytes of a coordinate. -/
def coordinate (x : Fq) : Bytes 32 := beBytes 32 x.val

theorem beNat_coordinate (x : Fq) : beNat (coordinate x).val = x.val :=
  beNat_beBytes (lt_trans (ZMod.val_lt x) (by norm_num [fqModulus]))

theorem coordinate_lt (x : Fq) : beNat (coordinate x).val < 2 ^ 254 := by
  rw [beNat_coordinate]
  exact lt_trans (ZMod.val_lt x) fqModulus_lt

theorem assertCanonicalFq_coordinate (x : Fq) (label : String) :
    assertCanonicalFq (beNat (coordinate x).val) label = .ok () := by
  unfold assertCanonicalFq
  rw [beNat_coordinate]
  exact if_neg (not_le.2 (ZMod.val_lt x))

/-- A coordinate other than zero has a byte other than zero. -/
theorem exists_ne_zero_of_coordinate {x : Fq} (h : x ≠ 0) : ∃ b ∈ (coordinate x).val, b ≠ 0 := by
  by_contra hnone
  have hall : ∀ b ∈ (coordinate x).val, b = 0 := by
    intro b hb
    by_contra hne
    exact hnone ⟨b, hb, hne⟩
  apply h
  have hzero : coordinate x = Bytes.zero 32 := by
    refine Subtype.ext ?_
    rw [List.eq_replicate_of_mem hall, (coordinate x).2]
    rfl
  have hval := (beNat_eq_zero_iff _).2 hzero
  rwa [beNat_coordinate, ZMod.val_eq_zero] at hval

/-- The bytes of a G1 point. -/
def g1Bytes (x y : Fq) : List UInt8 := (coordinate x).val ++ (coordinate y).val

/-- The bytes of a G2 point, each coordinate with `c1` first. -/
def g2Bytes (x y : Fq2) : List UInt8 :=
  ((coordinate x.c1).val ++ (coordinate x.c0).val) ++ ((coordinate y.c1).val ++ (coordinate y.c0).val)

/-- The flag of a G1 point. -/
def g1Sign (y : Fq) : Bool := fqSignFlagBit y.val

/-- The flag of a G2 point, by the serialized halves in order. -/
def g2Sign (y : Fq2) : Bool := fq2SignFlagBit y.c1.val y.c0.val

theorem negY_val (y : Fq) : negY y.val = (-y).val := (ZMod.neg_val' y).symm

theorem g1Sign_iff (y : Fq) : g1Sign y = true ↔ Larger y := by
  unfold g1Sign fqSignFlagBit Larger
  rw [negY_val]
  exact decide_eq_true_iff

theorem g2Sign_iff (y : Fq2) : g2Sign y = true ↔ y.Larger := by
  unfold g2Sign fq2SignFlagBit Fq2.Larger
  rw [negY_val, negY_val]
  by_cases htie : (-y.c1).val = y.c1.val
  · rw [if_neg (not_not.2 htie.symm), decide_eq_true_iff]
    exact ⟨fun h => .inr ⟨htie, h⟩, fun h => (h.resolve_left fun hlt => hlt.ne htie).2⟩
  · rw [if_pos (Ne.symm htie), decide_eq_true_iff]
    exact ⟨.inl, fun h => h.resolve_right fun htie' => htie htie'.1⟩

/-- A compressed G1 point is its `x` with the sign of its `y` in the top bit. -/
theorem compressG1_point {x y : Fq} (hx : x ≠ 0) :
    compressG1 (g1Bytes x y) = .ok (withFlag (g1Sign y) (coordinate x).val) := by
  obtain ⟨b, hb, hne⟩ := exists_ne_zero_of_coordinate hx
  have hlen : (g1Bytes x y).length = 64 := by simp [g1Bytes]
  have hzero : isAllZero (g1Bytes x y) = false := by
    unfold isAllZero g1Bytes
    rw [List.all_eq_false]
    exact ⟨b, List.mem_append_left _ hb, by simpa using hne⟩
  have hfirst : slice (g1Bytes x y) 0 32 = (coordinate x).val := by
    simp [slice, g1Bytes]
  have hsecond : slice (g1Bytes x y) 32 64 = (coordinate y).val := by
    simp [slice, g1Bytes]
  unfold compressG1
  rw [if_neg (not_not.2 hlen), hzero, if_neg (by simp)]
  simp only [hfirst, hsecond, assertCanonicalFq_coordinate]
  rw [beNat_coordinate]
  rfl

/-- A compressed G2 point is its `x` with the sign of its `y` in the top bit. -/
theorem compressG2_point {x y : Fq2} (hx : x.c1 ≠ 0 ∨ x.c0 ≠ 0) :
    compressG2 (g2Bytes x y) =
      .ok (withFlag (g2Sign y) ((coordinate x.c1).val ++ (coordinate x.c0).val)) := by
  have hlen : (g2Bytes x y).length = 128 := by simp [g2Bytes]
  have hzero : isAllZero (g2Bytes x y) = false := by
    obtain ⟨b, hb, hne⟩ : ∃ b ∈ (coordinate x.c1).val ++ (coordinate x.c0).val, b ≠ 0 := by
      rcases hx with h | h
      · obtain ⟨b, hb, hne⟩ := exists_ne_zero_of_coordinate h
        exact ⟨b, List.mem_append_left _ hb, hne⟩
      · obtain ⟨b, hb, hne⟩ := exists_ne_zero_of_coordinate h
        exact ⟨b, List.mem_append_right _ hb, hne⟩
    unfold isAllZero g2Bytes
    rw [List.all_eq_false]
    exact ⟨b, List.mem_append_left _ hb, by simpa using hne⟩
  have hslice : slice (g2Bytes x y) 0 64 = (coordinate x.c1).val ++ (coordinate x.c0).val := by
    apply List.take_left'
    simp
  have hy1 : slice (g2Bytes x y) 64 96 = (coordinate y.c1).val :=
    slice_append (by simp) (by simp)
  have hy0 : slice (g2Bytes x y) 96 128 = (coordinate y.c0).val := by
    unfold g2Bytes
    rw [← List.append_assoc, ← List.append_nil (coordinate y.c0).val]
    exact slice_append (by simp) (by simp)
  have hx1 : slice ((coordinate x.c1).val ++ (coordinate x.c0).val) 0 32 = (coordinate x.c1).val := by
    simp [slice]
  have hx0 : slice ((coordinate x.c1).val ++ (coordinate x.c0).val) 32 64 = (coordinate x.c0).val := by
    simp [slice]
  unfold compressG2
  rw [if_neg (not_not.2 hlen), hzero, if_neg (by simp)]
  simp only [hslice, hy1, hy0, hx1, hx0, assertCanonicalFq_coordinate]
  rw [beNat_coordinate, beNat_coordinate]
  rfl

theorem compressG1_infinity : compressG1 (List.replicate 64 0) = .ok (List.replicate 32 0) := by
  rfl

theorem compressG2_infinity : compressG2 (List.replicate 128 0) = .ok (List.replicate 64 0) := by
  unfold compressG2 isAllZero
  rw [if_neg (by simp), if_pos (by simp)]

/-! ## The public witness -/

theorem assertCanonicalFr_of_canonical {b : Bytes 32} (h : Canonical b) (label : String) :
    assertCanonicalFr b.val label = .ok (beNat b.val) := by
  unfold assertCanonicalFr
  rw [if_neg (not_not.2 b.2)]
  exact if_neg (not_le.2 h)

theorem encodeEntries_of_canonical {inputs : List (Bytes 32)} (h : ∀ b ∈ inputs, Canonical b) (i : ℕ) :
    encodeEntries i (inputs.map Subtype.val) = .ok (inputs.flatMap Subtype.val) := by
  induction inputs generalizing i with
  | nil => rfl
  | cons b inputs ih =>
    have hb : Canonical b := h b List.mem_cons_self
    rw [List.map_cons, encodeEntries, if_neg (not_not.2 b.2), assertCanonicalFr_of_canonical hb,
      ih fun b' hb' => h b' (List.mem_cons_of_mem _ hb')]
    rfl

/-- Canonical inputs are encoded as they are. -/
theorem encodePublicWitness_of_canonical {inputs : List (Bytes 32)} (h : ∀ b ∈ inputs, Canonical b) :
    encodePublicWitness (inputs.map Subtype.val) = .ok ((beBytes 4 inputs.length).val ++
      (beBytes 4 0).val ++ (beBytes 4 inputs.length).val ++ inputs.flatMap Subtype.val) := by
  unfold encodePublicWitness
  rw [encodeEntries_of_canonical h, List.length_map]
  rfl

end Kakure.Prover
