import Kakure.Pool.Helpers
import Kakure.Pool.Reachable
import Kakure.Prover.Compress

/-!
# Agreement of the two proof encodings

The prover hands a proof to the chain compressed; the pool decompresses it and calls the
verifier with the uncompressed bytes and the public witness.  Those are the bytes the
prover itself would pass to the verifier.

* `Decompresses` — what the decompression syscalls return;
* `proof_wire_agreement` — the call data the pool builds is `proofBytesForChain`.
-/

namespace Kakure.Prover

open Slices

/-! ## The syscalls -/

/-- The decompression syscalls on a set of points of the two curves: a compressed point is
decompressed to the point with that `x` whose `y` is greater than its negative if the top bit is
set, and not greater if it is not, and zeros to infinity. -/
structure Decompresses (env : Env) (G1 : Fq → Fq → Prop) (G2 : Fq2 → Fq2 → Prop) : Prop where
  g1_curve : ∀ x y, G1 x y → OnCurve x y
  g2_curve : ∀ x y, G2 x y → OnTwist x y
  g1_infinity : env.g1Decompress (Bytes.zero 32) = some (Bytes.zero 64)
  g2_infinity : env.g2Decompress (Bytes.zero 64) = some (Bytes.zero 128)
  g1_point : ∀ x y (c : Bytes 32), G1 x y →
    beNat c.val = x.val + (if Larger y then 2 ^ 255 else 0) →
    ∃ p, env.g1Decompress c = some p ∧ p.val = g1Bytes x y
  g2_point : ∀ x y (c : Bytes 64), G2 x y →
    beNat (c.val.take 32) = x.c1.val + (if y.Larger then 2 ^ 255 else 0) →
    beNat (c.val.drop 32) = x.c0.val →
    ∃ p, env.g2Decompress c = some p ∧ p.val = g2Bytes x y

/-- The encoding of infinity or of a point. -/
def IsG1 (G1 : Fq → Fq → Prop) (bytes : List UInt8) : Prop :=
  bytes = List.replicate 64 0 ∨ ∃ x y, G1 x y ∧ bytes = g1Bytes x y

def IsG2 (G2 : Fq2 → Fq2 → Prop) (bytes : List UInt8) : Prop :=
  bytes = List.replicate 128 0 ∨ ∃ x y, G2 x y ∧ bytes = g2Bytes x y

variable {env : Env} {G1 : Fq → Fq → Prop} {G2 : Fq2 → Fq2 → Prop}

/-- Compressing a G1 point and decompressing it returns its bytes. -/
theorem Decompresses.g1_round_trip (h : Decompresses env G1 G2) {bytes : List UInt8}
    (hb : IsG1 G1 bytes) : ∃ (c : Bytes 32) (p : Bytes 64),
      compressG1 bytes = .ok c.val ∧ env.g1Decompress c = some p ∧ p.val = bytes := by
  rcases hb with rfl | ⟨x, y, hxy, rfl⟩
  · exact ⟨Bytes.zero 32, Bytes.zero 64, compressG1_infinity, h.g1_infinity, rfl⟩
  · have hx : x ≠ 0 := ne_zero_of_onCurve (h.g1_curve x y hxy)
    obtain ⟨hlen, hvalue⟩ := withFlag_spec (g1Sign y) (coordinate_lt x)
    simp only [beNat_coordinate, g1Sign_iff] at hvalue
    obtain ⟨p, hp, hbytes⟩ := h.g1_point x y ⟨_, hlen⟩ hxy hvalue
    exact ⟨⟨_, hlen⟩, p, compressG1_point hx, hp, hbytes⟩

/-- Compressing a G2 point and decompressing it returns its bytes. -/
theorem Decompresses.g2_round_trip (h : Decompresses env G1 G2) {bytes : List UInt8}
    (hb : IsG2 G2 bytes) : ∃ (c : Bytes 64) (p : Bytes 128),
      compressG2 bytes = .ok c.val ∧ env.g2Decompress c = some p ∧ p.val = bytes := by
  rcases hb with rfl | ⟨x, y, hxy, rfl⟩
  · exact ⟨Bytes.zero 64, Bytes.zero 128, compressG2_infinity, h.g2_infinity, rfl⟩
  · have hx := ne_zero_of_onTwist (h.g2_curve x y hxy)
    obtain ⟨hlen, hvalue⟩ := withFlag_spec (g2Sign y) (coordinate_lt x.c1)
    simp only [beNat_coordinate, g2Sign_iff] at hvalue
    have hflag := withFlag_append (g2Sign y) (coordinate x.c1) (coordinate x.c0).val
    obtain ⟨p, hp, hbytes⟩ := h.g2_point x y
      ⟨withFlag (g2Sign y) (coordinate x.c1).val ++ (coordinate x.c0).val, by simp [hlen]⟩ hxy
      (by rw [List.take_left' hlen]; exact hvalue)
      (by rw [List.drop_left' hlen]; exact beNat_coordinate x.c0)
    refine ⟨_, p, ?_, hp, hbytes⟩
    rw [compressG2_point hx, hflag]

/-! ## The layout -/

/-- A decoded proof with one commitment is the bytes in front of it. -/
theorem decodeProof_one {proof : List UInt8} {d : DecodedProof} (h : decodeProof proof = .ok d)
    (hcount : d.commitmentCount = 1) :
    proof = d.a ++ d.b ++ d.c ++ (beBytes 4 1).val ++ d.commitments ++ d.commitmentPok := by
  unfold decodeProof at h
  split at h
  · cases h
  · dsimp only at h
    split at h
    · cases h
    · next hshort hlen =>
      cases h
      dsimp only at hcount ⊢
      rw [hcount, not_not] at hlen
      have hword : slice proof 256 260 = (beBytes 4 1).val := by
        have hfour : (slice proof 256 260).length = 4 := by
          simp only [slice, List.length_take, List.length_drop]
          omega
        rw [← hcount]
        exact congrArg Subtype.val (beBytes_beNat (⟨_, hfour⟩ : Bytes 4)).symm
      rw [hcount, ← hword, slice_append_slice (by omega) (by omega),
        slice_append_slice (by omega) (by omega), slice_append_slice (by omega) (by omega),
        slice_append_slice (by omega) (by omega), slice_append_slice (by omega) (by omega)]
      exact (slice_all hlen.le).symm

/-- The parts of a proof with one commitment, read back. -/
theorem decodeProof_parts {a b c commitments commitmentPok : List UInt8} (ha : a.length = 64)
    (hb : b.length = 128) (hc : c.length = 64) (hm : commitments.length = 64)
    (hp : commitmentPok.length = 64) :
    decodeProof (a ++ b ++ c ++ (beBytes 4 1).val ++ commitments ++ commitmentPok) =
      .ok ⟨a, b, c, 1, commitments, commitmentPok⟩ := by
  have hproof : a ++ b ++ c ++ (beBytes 4 1).val ++ commitments ++ commitmentPok =
      a ++ (b ++ (c ++ ((beBytes 4 1).val ++ (commitments ++ commitmentPok)))) := by
    simp only [List.append_assoc]
  have hlen : (a ++ b ++ c ++ (beBytes 4 1).val ++ commitments ++ commitmentPok).length = 388 := by
    simp [ha, hb, hc, hm, hp]
  have hone : beNat (beBytes 4 1).val = 1 := beNat_beBytes (by norm_num)
  have hfirst : slice (a ++ b ++ c ++ (beBytes 4 1).val ++ commitments ++ commitmentPok) 0 64 = a := by
    rw [hproof]
    exact List.take_left' ha
  have hsecond : slice (a ++ b ++ c ++ (beBytes 4 1).val ++ commitments ++ commitmentPok) 64 192 = b := by
    rw [hproof]
    exact slice_append ha (by rw [hb])
  have hthird : slice (a ++ b ++ c ++ (beBytes 4 1).val ++ commitments ++ commitmentPok) 192 256 = c := by
    rw [hproof, ← List.append_assoc]
    exact slice_append (by simp [ha, hb]) (by rw [hc])
  have hword : slice (a ++ b ++ c ++ (beBytes 4 1).val ++ commitments ++ commitmentPok) 256 260 =
      (beBytes 4 1).val := by
    rw [List.append_assoc, List.append_assoc]
    exact slice_append (by simp [ha, hb, hc]) (by simp)
  have hfourth : slice (a ++ b ++ c ++ (beBytes 4 1).val ++ commitments ++ commitmentPok) 260 324 =
      commitments := by
    rw [List.append_assoc]
    exact slice_append (by simp [ha, hb, hc]) (by rw [hm])
  have hfifth : slice (a ++ b ++ c ++ (beBytes 4 1).val ++ commitments ++ commitmentPok) 324 388 =
      commitmentPok := by
    have htail : slice (_ ++ (commitmentPok ++ [])) 324 388 = commitmentPok := slice_append
      (by simp [ha, hb, hc, hm] : (a ++ b ++ c ++ (beBytes 4 1).val ++ commitments).length = 324)
      (by rw [hp] : 324 + commitmentPok.length = 388)
    rwa [List.append_nil] at htail
  generalize a ++ b ++ c ++ (beBytes 4 1).val ++ commitments ++ commitmentPok = proof at *
  unfold decodeProof
  rw [hlen, if_neg (by norm_num)]
  simp only [hword, hone, hfirst, hsecond, hthird]
  norm_num [hfourth, hfifth]

/-- The five compressed parts, read at their offsets. -/
theorem decompressProof_parts {a c commitment pok : Bytes 32} {b : Bytes 64}
    {pa pc pcommitment ppok : Bytes 64} {pb : Bytes 128} {compressed : Bytes 192}
    (hcompressed : compressed.val = a.val ++ b.val ++ c.val ++ commitment.val ++ pok.val)
    (ha : env.g1Decompress a = some pa) (hb : env.g2Decompress b = some pb)
    (hc : env.g1Decompress c = some pc) (hcommitment : env.g1Decompress commitment = some pcommitment)
    (hpok : env.g1Decompress pok = some ppok) :
    decompressProof env compressed = .ok (pa.val ++ pb.val ++ pc.val ++ (beBytes 4 1).val ++
      pcommitment.val ++ ppok.val) := by
  have hparts : readAt 32 compressed.val 0 = a ∧ readAt 64 compressed.val 32 = b ∧
      readAt 32 compressed.val 96 = c ∧ readAt 32 compressed.val 128 = commitment ∧
      readAt 32 compressed.val 160 = pok := by
    rw [hcompressed]
    refine ⟨?_, ?_, ?_, ?_, ?_⟩
    · simp only [List.append_assoc]
      exact readAt_append (rfl : ([] : List UInt8).length = 0)
    · simp only [List.append_assoc]
      exact readAt_append (by simp)
    · rw [List.append_assoc, List.append_assoc]
      exact readAt_append (by simp)
    · rw [List.append_assoc]
      exact readAt_append (by simp)
    · rw [← List.append_nil pok.val]
      exact readAt_append (by simp)
  obtain ⟨h₁, h₂, h₃, h₄, h₅⟩ := hparts
  unfold decompressProof
  rw [h₁, h₂, h₃, h₄, h₅, ha, hb, hc, hcommitment, hpok]

/-! ## The call data -/

/-- The pool rebuilds the prover's bytes: the call data it makes of the compressed proof and
the public inputs is `proofBytesForChain`, and a verifier call that succeeds accepted them. -/
theorem proof_wire_agreement (hsys : Decompresses env G1 G2) {proof : List UInt8} {d : DecodedProof}
    {inputs : List (Bytes 32)} (hdecode : decodeProof proof = .ok d) (hcount : d.commitmentCount = 1)
    (ha : IsG1 G1 d.a) (hb : IsG2 G2 d.b) (hc : IsG1 G1 d.c) (hcommitment : IsG1 G1 d.commitments)
    (hpok : IsG1 G1 d.commitmentPok) (hinputs : ∀ b ∈ inputs, Canonical b) :
    ∃ (compressed : Bytes 192) (uncompressed : List UInt8),
      compressProof ⟨proof, inputs.map Subtype.val⟩ = .ok compressed.val ∧
      decompressProof env compressed = .ok uncompressed ∧
      proofBytesForChain ⟨proof, inputs.map Subtype.val⟩ = .ok (uncompressed ++ publicWitness inputs) ∧
      ∀ call program key m out, verifyCpi env call program key uncompressed inputs m = .ok out →
        env.accepts key (uncompressed ++ publicWitness inputs) := by
  obtain ⟨ca, pa, hca, hpa, hba⟩ := hsys.g1_round_trip ha
  obtain ⟨cb, pb, hcb, hpb, hbb⟩ := hsys.g2_round_trip hb
  obtain ⟨cc, pc, hcc, hpc, hbc⟩ := hsys.g1_round_trip hc
  obtain ⟨cm, pm, hcm, hpm, hbm⟩ := hsys.g1_round_trip hcommitment
  obtain ⟨cp, pp, hcp, hpp, hbp⟩ := hsys.g1_round_trip hpok
  refine ⟨⟨ca.val ++ cb.val ++ cc.val ++ cm.val ++ cp.val, by simp⟩, proof, ?_, ?_, ?_, ?_⟩
  · unfold compressProof
    rw [hdecode]
    show compressDecodedProof d = _
    unfold compressDecodedProof
    rw [if_neg (not_not.2 hcount), hca, hcb, hcc, hcm, hcp]
    rfl
  · rw [decompressProof_parts rfl hpa hpb hpc hpm hpp, hba, hbb, hbc, hbm, hbp,
      ← decodeProof_one hdecode hcount]
  · unfold proofBytesForChain
    rw [encodePublicWitness_of_canonical hinputs]
    rfl
  · intro call program key m out hverify
    exact (verifyCpi_ok hverify).2.1

/-! A deployment that decompresses both points over the generator of G1, both over the generator of
G2, and one whose first half is its own negative. -/

def generatorX : Fq2 where
  c1 := 11559732032986387107991004021392285783925812861821192530917403151452391805634
  c0 := 10857046999023057135944570762232829481370756359578518086990519993285655852781

def generatorY : Fq2 where
  c1 := 4082367875863433681332203403145435568316851327593401208105741076214120093531
  c0 := 8495653923123431417604973247489272438418190587263600148770280649306958101930

def tieX : Fq2 where
  c1 := 2
  c0 := 10726979500095104273633763786272600523422316717497912982691557878131998272362

def tieY : Fq2 where
  c1 := 0
  c0 := 14911805807705399137500976615725988058022913507491381126276217214119822868179

def sampleG1 : List (Fq × Fq) := [(1, 2), (1, -2)]

def sampleG2 : List (Fq2 × Fq2) := [(generatorX, generatorY), (generatorX, generatorY.neg), (tieX, tieY)]

def sampleEnv : Env :=
  { Sample.env with
    g1Decompress := fun c =>
      if beNat c.val = 0 then some (Bytes.zero 64)
      else (sampleG1.find? fun p => beNat c.val = p.1.val + (if Larger p.2 then 2 ^ 255 else 0)).map
        fun p => ⟨g1Bytes p.1 p.2, by simp [g1Bytes]⟩
    g2Decompress := fun c =>
      if c = Bytes.zero 64 then some (Bytes.zero 128)
      else (sampleG2.find? fun p => beNat (c.val.take 32) = p.1.c1.val + (if p.2.Larger then 2 ^ 255 else 0) ∧
        beNat (c.val.drop 32) = p.1.c0.val).map fun p => ⟨g2Bytes p.1 p.2, by simp [g2Bytes]⟩ }

/-- Every point of the list is the one found for its flag. -/
theorem find?_sampleG1 : ∀ p ∈ sampleG1, p.1.val + (if Larger p.2 then 2 ^ 255 else 0) ≠ 0 ∧
    (sampleG1.find? fun p' => p.1.val + (if Larger p.2 then 2 ^ 255 else 0) =
      p'.1.val + (if Larger p'.2 then 2 ^ 255 else 0)) = some p :=
  List.forall_mem_cons.2 ⟨by decide +kernel, List.forall_mem_singleton.2 (by decide +kernel)⟩

theorem find?_sampleG2 : ∀ p ∈ sampleG2, p.1.c0.val ≠ 0 ∧
    (sampleG2.find? fun p' => p.1.c1.val + (if p.2.Larger then 2 ^ 255 else 0) =
      p'.1.c1.val + (if p'.2.Larger then 2 ^ 255 else 0) ∧ p.1.c0.val = p'.1.c0.val) = some p :=
  List.forall_mem_cons.2 ⟨by decide +kernel, List.forall_mem_cons.2 ⟨by decide +kernel,
    List.forall_mem_singleton.2 (by decide +kernel)⟩⟩

theorem sampleEnv_decompresses :
    Decompresses sampleEnv (fun x y => (x, y) ∈ sampleG1) fun x y => (x, y) ∈ sampleG2 where
  g1_curve := by
    have h : ∀ p ∈ sampleG1, OnCurve p.1 p.2 :=
      List.forall_mem_cons.2 ⟨by decide, List.forall_mem_singleton.2 (by decide)⟩
    exact fun x y hp => h (x, y) hp
  g2_curve := by
    have h : ∀ p ∈ sampleG2, OnTwist p.1 p.2 :=
      List.forall_mem_cons.2 ⟨by decide, List.forall_mem_cons.2 ⟨by decide, List.forall_mem_singleton.2 (by decide)⟩⟩
    exact fun x y hp => h (x, y) hp
  g1_infinity := by decide
  g2_infinity := by decide
  g1_point := by
    intro x y c hp hvalue
    obtain ⟨hne, hfind⟩ := find?_sampleG1 (x, y) hp
    refine ⟨⟨g1Bytes x y, by simp [g1Bytes]⟩, ?_, rfl⟩
    show ite _ _ _ = _
    rw [hvalue, if_neg hne, hfind]
    rfl
  g2_point := by
    intro x y c hp hfirst hsecond
    obtain ⟨hne, hfind⟩ := find?_sampleG2 (x, y) hp
    refine ⟨⟨g2Bytes x y, by simp [g2Bytes]⟩, ?_, rfl⟩
    have hc : c ≠ Bytes.zero 64 := by
      rintro rfl
      apply hne
      rw [← hsecond]
      decide
    show ite _ _ _ = _
    rw [if_neg hc, hfirst, hsecond, hfind]
    rfl

/-- A proof whose second part has the flag of its second half. -/
def sampleProof : List UInt8 :=
  g1Bytes 1 2 ++ g2Bytes tieX tieY ++ g1Bytes 1 (-2) ++ (beBytes 4 1).val ++
    List.replicate 64 0 ++ g1Bytes 1 (-2)

theorem proof_wire_agreement_sample : ∃ (compressed : Bytes 192) (uncompressed : List UInt8),
    compressProof ⟨sampleProof, [(beBytes 32 7).val]⟩ = .ok compressed.val ∧
    decompressProof sampleEnv compressed = .ok uncompressed ∧
    proofBytesForChain ⟨sampleProof, [(beBytes 32 7).val]⟩ =
      .ok (uncompressed ++ publicWitness [beBytes 32 7]) ∧
    ∀ call program key m out,
      verifyCpi sampleEnv call program key uncompressed [beBytes 32 7] m = .ok out →
        sampleEnv.accepts key (uncompressed ++ publicWitness [beBytes 32 7]) := by
  have hg1 (x y : Fq) : (g1Bytes x y).length = 64 := by simp [g1Bytes]
  have hg2 (x y : Fq2) : (g2Bytes x y).length = 128 := by simp [g2Bytes]
  have hdecode := decodeProof_parts (hg1 1 2) (hg2 tieX tieY) (hg1 1 (-2))
    (List.length_replicate : (List.replicate 64 (0 : UInt8)).length = 64) (hg1 1 (-2))
  have hcanonical : ∀ b ∈ [beBytes 32 7], Canonical b := by
    intro b hb
    rw [List.mem_singleton.1 hb]
    decide
  have hfirst : (1, 2) ∈ sampleG1 := List.mem_cons_self
  have hsecond : (1, -2) ∈ sampleG1 := List.mem_cons_of_mem _ List.mem_cons_self
  have htie : (tieX, tieY) ∈ sampleG2 := by simp [sampleG2]
  exact proof_wire_agreement sampleEnv_decompresses hdecode rfl (.inr ⟨1, 2, hfirst, rfl⟩)
    (.inr ⟨tieX, tieY, htie, rfl⟩) (.inr ⟨1, -2, hsecond, rfl⟩) (.inl rfl)
    (.inr ⟨1, -2, hsecond, rfl⟩) hcanonical

end Kakure.Prover
