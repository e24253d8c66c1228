import Kakure.Circuits.Frost
import Kakure.Frost.Round
import Kakure.Tss.Hash

/-!
# The suite of the protocol

`packages/sdk/src/frost/ciphersuites/bjj.ts`: BabyJubJub with the hash of the field, whose
challenge is the one `verify_frost_spend` computes.

* `bjjPrimeOrder` — it is a suite over a group of prime order;
* `verifyFrostSpend_of_equation` — a signature of the SDK, in the circuit;
* `frost_complete` — from the shares of enough signers to the circuit.
-/

namespace Kakure.Frost

open Fallible Interpolation Slices Polynomial
open Tss (Library Point coords poseidon2 hashToScalar residues newFr)
open BabyJubJub (subgroup base)

/-! ## Messages -/

/-- `encodeMessage`. -/
def encodeMessage (m : ℕ) : List UInt8 := (beBytes 32 m).val

/-- `decodeMessage`. -/
def decodeMessage (msg : List UInt8) : ℤ := (beNat msg : ℤ).tmod bn254ScalarFieldModulus

theorem decodeMessage_range (msg : List UInt8) :
    0 ≤ decodeMessage msg ∧ decodeMessage msg < bn254ScalarFieldModulus := by
  rw [decodeMessage, Int.tmod_eq_emod_of_nonneg (Int.natCast_nonneg _)]
  exact ⟨Int.emod_nonneg _ (by norm_num [bn254ScalarFieldModulus]),
    Int.emod_lt_of_pos _ (by norm_num [bn254ScalarFieldModulus])⟩

/-- A field element is read back from its message. -/
theorem decodeMessage_encodeMessage (m : Fr) : decodeMessage (encodeMessage m.val) = m.val := by
  have hlt := ZMod.val_lt m
  have hfits : m.val < 256 ^ 32 := lt_trans hlt (by norm_num [bn254ScalarFieldModulus])
  rw [decodeMessage, encodeMessage, beNat_beBytes hfits, Int.tmod_eq_emod_of_nonneg (Int.natCast_nonneg _)]
  exact Int.emod_eq_of_lt (Int.natCast_nonneg _) (Int.ofNat_lt.2 hlt)

/-! ## The suite -/

/-- `SCHNORR_DOMAIN`. -/
def schnorrDomain : ℤ := 0xc226e4b2bad84dcd0be5f5cc5c4334b8906fc9057331061d0b5b6117c74c667

/-- `FROST_RHO_DOMAIN`. -/
def frostRhoDomain : ℤ := 0x14d965d53f58e0d5753aa0dfa8def0c242fd638f6278452e72189ace62f2d5dd

/-- `FROST_NONCE_DOMAIN`. -/
def frostNonceDomain : ℤ := 0x6faa2a7a4934ae04655b2c2ad065be999db3e7558efb4c5773dcb0049d171c1

/-- `FROST_MSG_DOMAIN`. -/
def frostMsgDomain : ℤ := 0xbcc548ac662c18acfe3a7e55819b50f625844f6970073879a345c4e72b9a5b3

/-- `FROST_COM_DOMAIN`. -/
def frostComDomain : ℤ := 0xcbf15304e113ef84855f7f50023246fd9dbfe5f507d30bf4ef95a4c2a4915d4

variable (poseidon : List Fr → Fr) (lib : Library)

/-- `hashMessage`. -/
def hashMessage (msg : List UInt8) : Except String ℤ := poseidon2 poseidon [frostMsgDomain, decodeMessage msg]

/-- What `hashCommitmentList` pushes for a commitment. -/
def commitmentFields (c : Commitment Point) : List ℤ := [c.id, c.D.1, c.D.2, c.E.1, c.E.2]

/-- `hashCommitmentList`. -/
def hashCommitmentList (commitments : List (Commitment Point)) : Except String ℤ :=
  poseidon2 poseidon (frostComDomain :: (sortById commitments).flatMap commitmentFields)

/-- `bjjCiphersuite`. -/
def bjjCiphersuite : Ciphersuite Point where
  generator := lib.base8
  identity := Tss.identity
  add := Tss.pointAdd lib
  scalarMul := Tss.scalarMul lib
  eq := Tss.pointEq
  order := lib.subOrder
  nonceScalar random32 secret := hashToScalar poseidon lib frostNonceDomain [decodeMessage random32, secret]
  bindingFactor gpk msg commitments id := do
    let h4 ← hashMessage poseidon msg
    let h5 ← hashCommitmentList poseidon commitments
    hashToScalar poseidon lib frostRhoDomain [gpk.1, gpk.2, h4, h5, id]
  challenge R gpk msg := do
    let full ← poseidon2 poseidon [schnorrDomain, R.1, R.2, gpk.1, gpk.2, decodeMessage msg]
    .ok (full.tmod (2 ^ 248))

/-! ## What it computes -/

/-- The domains are numbers of the field. -/
theorem domains_range : ∀ domain ∈ [schnorrDomain, frostRhoDomain, frostMsgDomain, frostComDomain],
    0 ≤ domain ∧ domain < bn254ScalarFieldModulus := by
  simp only [List.forall_mem_cons]
  norm_num [schnorrDomain, frostRhoDomain, frostMsgDomain, frostComDomain, bn254ScalarFieldModulus]

theorem scalar_range {x : ℤ} (h : 0 ≤ x ∧ x < subOrder) : 0 ≤ x ∧ x < bn254ScalarFieldModulus :=
  ⟨h.1, lt_trans h.2 (by norm_num [subOrder, bn254ScalarFieldModulus])⟩

/-- The hash of numbers of the field is one. -/
theorem exists_poseidon2 {x : ℤ} {inputs : List ℤ} (h : ∀ y ∈ x :: inputs, 0 ≤ y ∧ y < bn254ScalarFieldModulus) :
    ∃ v, poseidon2 poseidon (x :: inputs) = .ok v ∧ 0 ≤ v ∧ v < bn254ScalarFieldModulus :=
  ⟨_, Tss.poseidon2_eq poseidon h, Int.natCast_nonneg _, Int.ofNat_lt.2 (ZMod.val_lt _)⟩

theorem commitmentFields_range {c : Commitment Point} (hid : 0 ≤ c.id ∧ c.id < subOrder)
    (hD : ∃ D : subgroup, c.D = coords D) (hE : ∃ E : subgroup, c.E = coords E) :
    ∀ y ∈ commitmentFields c, 0 ≤ y ∧ y < bn254ScalarFieldModulus := by
  obtain ⟨D, hD⟩ := hD
  obtain ⟨E, hE⟩ := hE
  have hDrange := Tss.coords_range D.1
  have hErange := Tss.coords_range E.1
  intro y hy
  rw [commitmentFields, hD, hE] at hy
  simp only [List.mem_cons, List.not_mem_nil, or_false] at hy
  rcases hy with rfl | rfl | rfl | rfl | rfl
  · exact scalar_range hid
  · exact hDrange.1
  · exact hDrange.2
  · exact hErange.1
  · exact hErange.2

/-- The binding factor of valid commitments. -/
theorem bindingFactor_eq {lib : Library} (h : lib.Lawful) (gpk : subgroup) (msg : List UInt8)
    {commitments : List (Commitment Point)} {id : ℤ}
    (hvalid : ∀ c ∈ commitments, (0 ≤ c.id ∧ c.id < subOrder) ∧ (∃ D : subgroup, c.D = coords D) ∧
      ∃ E : subgroup, c.E = coords E) (hid : 0 ≤ id) (hlt : id < subOrder) :
    ∃ rho, (bjjCiphersuite poseidon lib).bindingFactor (coords gpk) msg commitments id = .ok rho ∧
      0 ≤ rho ∧ rho < subOrder := by
  obtain ⟨-, hrhoDomain, hmsgDomain, hcomDomain, -⟩ := by simpa only [List.forall_mem_cons] using domains_range
  obtain ⟨hx, hy⟩ := Tss.coords_range gpk.1
  obtain ⟨h4, hh4, h4range⟩ : ∃ h4, hashMessage poseidon msg = .ok h4 ∧ 0 ≤ h4 ∧ h4 < bn254ScalarFieldModulus := by
    refine exists_poseidon2 poseidon ?_
    simp only [List.forall_mem_cons]
    exact ⟨hmsgDomain, decodeMessage_range msg, by simp⟩
  obtain ⟨h5, hh5, h5range⟩ : ∃ h5, hashCommitmentList poseidon commitments = .ok h5 ∧
      0 ≤ h5 ∧ h5 < bn254ScalarFieldModulus := by
    refine exists_poseidon2 poseidon (List.forall_mem_cons.2 ⟨hcomDomain, fun y hmem => ?_⟩)
    obtain ⟨c, hc, hmem⟩ := List.mem_flatMap.1 hmem
    obtain ⟨hcid, hD, hE⟩ := hvalid c ((List.mergeSort_perm _ _).mem_iff.1 hc)
    exact commitmentFields_range hcid hD hE y hmem
  obtain ⟨rho, hrho⟩ : ∃ rho, hashToScalar poseidon lib frostRhoDomain
      [(coords gpk).1, (coords gpk).2, h4, h5, id] = .ok rho := by
    refine Tss.hashToScalar_isOk poseidon lib ?_
    simp only [List.forall_mem_cons]
    exact ⟨hrhoDomain, hx, hy, h4range, h5range, scalar_range ⟨hid, hlt⟩, by simp⟩
  refine ⟨rho, ?_, Tss.hashToScalar_range poseidon h hrho⟩
  exact (bind_of_ok hh4 _).trans ((bind_of_ok hh5 _).trans hrho)

/-- The challenge: the low bits of the hash that the circuit computes. -/
theorem challenge_eq (R gpk : BabyJubJub.Point) (msg : List UInt8) :
    (bjjCiphersuite poseidon lib).challenge (coords R) (coords gpk) msg =
      .ok (((poseidon [Circuit.schnorrDomain, R.x, R.y, gpk.x, gpk.y, (decodeMessage msg : Fr)]).val % 2 ^ 248 : ℕ) : ℤ) := by
  obtain ⟨hdomain, -⟩ := by simpa only [List.forall_mem_cons] using domains_range
  obtain ⟨hRx, hRy⟩ := Tss.coords_range R
  obtain ⟨hx, hy⟩ := Tss.coords_range gpk
  have hrange : ∀ y ∈ [schnorrDomain, (coords R).1, (coords R).2, (coords gpk).1, (coords gpk).2, decodeMessage msg],
      0 ≤ y ∧ y < bn254ScalarFieldModulus := by
    simp only [List.forall_mem_cons]
    exact ⟨hdomain, hRx, hRy, hx, hy, decodeMessage_range msg, by simp⟩
  have hcast : ∀ x : Fr, (((x.val : ℤ)) : Fr) = x := fun x => by rw [Int.cast_natCast, ZMod.natCast_zmod_val]
  have hschnorr : (schnorrDomain : Fr) = Circuit.schnorrDomain := by
    rw [schnorrDomain, Circuit.schnorrDomain]
    norm_num
  have hinputs : [schnorrDomain, (coords R).1, (coords R).2, (coords gpk).1, (coords gpk).2, decodeMessage msg].map
      (fun y : ℤ => (y : Fr)) = [Circuit.schnorrDomain, R.x, R.y, gpk.x, gpk.y, (decodeMessage msg : Fr)] := by
    simp only [List.map_cons, List.map_nil, coords, hcast, hschnorr]
  have hmod : ∀ v : ℕ, (v : ℤ).tmod (2 ^ 248) = ((v % 2 ^ 248 : ℕ) : ℤ) := by
    intro v
    rw [Int.tmod_eq_emod_of_nonneg (Int.natCast_nonneg _)]
    push_cast
    rfl
  have hhash := Tss.poseidon2_eq poseidon hrange
  rw [hinputs] at hhash
  exact (bind_of_ok hhash _).trans (congrArg Except.ok (hmod _))

variable {lib} (h : lib.Lawful)

/-- The suite is one over a group of prime order. -/
def bjjPrimeOrder : (bjjCiphersuite poseidon lib).PrimeOrder subOrder subgroup where
  encode P := coords P
  base := base
  order := h.subOrder
  generator := h.base8
  identity := Tss.identity_eq
  add P Q := Tss.pointAdd_coords h P Q
  scalarMul k P _ _ := Tss.scalarMul_coords h k P
  eq P Q := by
    refine (Tss.pointEq_iff _ _).trans ?_
    rw [Tss.coords_injective.eq_iff]
    exact Subtype.coe_injective.eq_iff
  bindingFactor gpk msg _ _ hvalid hid hlt := bindingFactor_eq poseidon h gpk msg hvalid hid hlt
  challenge R gpk msg := by
    refine ⟨_, challenge_eq poseidon lib R gpk msg, Int.natCast_nonneg _, ?_⟩
    refine Int.ofNat_lt.2 (lt_trans (Nat.mod_lt _ (by positivity)) ?_)
    norm_num [subOrder]

/-! ## The circuit -/

/-- The arguments of the circuit for a point of the SDK. -/
def circuitPoint (p : Point) : Circuit.Point := ⟨p.1, p.2⟩

theorem circuitPoint_coords (P : BabyJubJub.Point) : circuitPoint (coords P) = Circuit.ofPoint P := by
  rw [circuitPoint, coords, Circuit.ofPoint, Int.cast_natCast, Int.cast_natCast, ZMod.natCast_zmod_val,
    ZMod.natCast_zmod_val]

/-- A signature whose equation holds is accepted by the circuit, unless it or the key is degenerate. -/
theorem verifyFrostSpend_of_holds {secret r : ZMod subOrder} {c : ℤ} {msg : List UInt8} {sig : Signature Point}
    (hsig : sig.Holds (bjjPrimeOrder poseidon h) secret c r)
    (hc : (bjjCiphersuite poseidon lib).challenge (coords (r • base : subgroup)) (coords (secret • base : subgroup))
      msg = .ok c)
    (hz : sig.z ≠ 0) (hr : r • base ≠ 0) (hsecret : secret • base ≠ 0) :
    Circuit.verifyFrostSpend poseidon (circuitPoint (coords (secret • base : subgroup))) (circuitPoint sig.R)
      (sig.z : Fr) (decodeMessage msg : Fr) = some () := by
  have hR : sig.R = coords (r • base : subgroup) := hsig.R
  obtain ⟨z, hzval⟩ := Int.eq_ofNat_of_zero_le hsig.z_range.1
  have hzlt : z < subOrder := by
    have := hsig.z_range.2
    omega
  have hzfr : ((sig.z : Fr)).val = z := by
    rw [hzval, Int.cast_natCast]
    exact val_natCast_of_lt (lt_trans hzlt (by norm_num [subOrder, bn254ScalarFieldModulus]))
  rw [challenge_eq, Except.ok.injEq] at hc
  have hequation : z • BabyJubJub.base8 = ((r • base : subgroup) : BabyJubJub.Point) + ((poseidon
      [Circuit.schnorrDomain, (r • base : subgroup).1.x, (r • base : subgroup).1.y, (secret • base : subgroup).1.x,
        (secret • base : subgroup).1.y, (decodeMessage msg : Fr)]).val % 2 ^ 248) •
          ((secret • base : subgroup) : BabyJubJub.Point) := by
    generalize (poseidon _).val % 2 ^ 248 = e at hc
    have hvalue := hsig.z
    rw [hzval, ← hc, Int.cast_natCast, Int.cast_natCast] at hvalue
    have hmultiple : (z : ZMod subOrder) • base = r • base + (e : ZMod subOrder) • secret • base := by
      rw [hvalue, add_smul, mul_smul]
    have hcoe := congrArg Subtype.val hmultiple
    rw [BabyJubJub.coe_natCast_smul, AddSubgroup.coe_add, BabyJubJub.coe_natCast_smul] at hcoe
    exact hcoe
  rw [hR, circuitPoint_coords, circuitPoint_coords]
  have hne : ∀ P : subgroup, P ≠ 0 → (P : BabyJubJub.Point) ≠ 0 := fun P hP hzero => hP (Subtype.ext hzero)
  refine Circuit.verifyFrostSpend_eq poseidon (secret • base : subgroup).2 (hne _ hsecret) (hne _ hr) ?_ ?_ ?_
  · intro hzero
    rw [hzero, ZMod.val_zero] at hzfr
    rw [hzval, ← hzfr] at hz
    exact hz rfl
  · rw [hzfr]
    exact hzlt
  · rw [hzfr]
    exact hequation

/-! ## Completeness -/

/-- Enough signers sign: each of their shares passes its check, their sum is a signature under the key
of the group, and the circuit accepts it unless the key, the group commitment or the scalar is zero. -/
theorem frost_complete :
    (∀ (G H : Type) (cs : Ciphersuite G) (q : ℕ) [Fact q.Prime] [AddCommGroup H] [Module (ZMod q) H]
      (suite : cs.PrimeOrder q H) (sharing : Sharing q) (quorum : Quorum q) (msg : List UInt8),
      sharing.threshold ≤ quorum.signers.length →
      (∀ s ∈ quorum.signers, ∃ z,
        (signShare cs s.id s.handle (sharing.share s.id) (sharing.groupKey suite) msg (quorum.commitments cs)).1 =
          .ok z ∧
        verifySignatureShare cs s.id z (sharing.publicShare suite s.id) (sharing.groupKey suite) msg
          (quorum.commitments cs) = .ok true) ∧
      ∃ sig, quorum.signature cs sharing.share (sharing.groupKey suite) msg = .ok sig ∧
        verify cs (sharing.groupKey suite) msg sig = .ok true) ∧
    ∀ (poseidon : List Fr → Fr) (lib : Library) (h : lib.Lawful) (sharing : Sharing subOrder)
      (quorum : Quorum subOrder) (msg : List UInt8) (sig : Signature Point),
      sharing.threshold ≤ quorum.signers.length →
      quorum.signature (bjjCiphersuite poseidon lib) sharing.share
        (sharing.groupKey (bjjPrimeOrder poseidon h)) msg = .ok sig →
      sig.z ≠ 0 → sig.R ≠ Tss.identity → sharing.groupKey (bjjPrimeOrder poseidon h) ≠ Tss.identity →
      Circuit.verifyFrostSpend poseidon (circuitPoint (sharing.groupKey (bjjPrimeOrder poseidon h)))
        (circuitPoint sig.R) (sig.z : Fr) (decodeMessage msg : Fr) = some () := by
  constructor
  · intro G H cs q _ _ _ suite sharing quorum msg ht
    obtain ⟨rhos, rho, c, hashed⟩ := exists_hashed suite quorum (sharing.polynomial.eval 0 • suite.base) msg
    constructor
    · intro s hs
      obtain ⟨z, hz, hverified, -⟩ := signShare_verified sharing hashed hs
      exact ⟨z, congrArg Prod.fst hz, hverified⟩
    · obtain ⟨sig, hsig, hholds⟩ := signature_eq sharing hashed ht
      exact ⟨sig, hsig, verify_of_holds hholds hashed.challenge_eq hashed.challenge_range⟩
  · intro poseidon lib h sharing quorum msg sig ht hsig hz hR hgpk
    obtain ⟨rhos, rho, c, hashed⟩ := exists_hashed (bjjPrimeOrder poseidon h) quorum
      (sharing.polynomial.eval 0 • base) msg
    obtain ⟨sig', hsig', hholds⟩ := signature_eq sharing hashed ht
    obtain rfl : sig = sig' := Except.ok.inj (hsig.symm.trans hsig')
    refine verifyFrostSpend_of_holds poseidon h hholds hashed.challenge_eq hz ?_ ?_
    · intro hzero
      have hr : sig.R = coords ((quorum.bound rho • base : subgroup) : BabyJubJub.Point) := hholds.R
      rw [hzero] at hr
      exact hR (hr.trans Tss.identity_eq.symm)
    · intro hzero
      have hkey : sharing.groupKey (bjjPrimeOrder poseidon h) =
          coords ((sharing.polynomial.eval 0 • base : subgroup) : BabyJubJub.Point) := rfl
      rw [hzero] at hkey
      exact hgpk (hkey.trans Tss.identity_eq.symm)

/-! A key shared by two, who both sign. -/

/-- A hash that returns its sixth input: the identifier in a binding factor, the message in a challenge. -/
def sixthInput (inputs : List Fr) : Fr := inputs.getD 5 0

/-- A line is a polynomial of threshold two. -/
theorem degree_pair (slope secret : ZMod subOrder) : (C slope * X + C secret).degree < ((2 : ℕ) : WithBot ℕ) :=
  degree_linear_lt

/-- A key shared under the threshold two. -/
noncomputable def pairSharing (slope secret : ZMod subOrder) : Sharing subOrder where
  threshold := 2
  polynomial := C slope * X + C secret
  degree_lt := degree_pair slope secret

/-- Both holders, with their nonces. -/
def bothQuorum : Quorum subOrder where
  signers := [⟨⟨3, 5⟩, 1⟩, ⟨⟨4, 6⟩, 2⟩]
  nodup := by decide
  id_range := by
    intro s hs
    simp only [List.mem_cons, List.not_mem_nil, or_false] at hs
    rcases hs with rfl | rfl <;> norm_num [subOrder]
  nonce_range := by
    intro s hs
    simp only [List.mem_cons, List.not_mem_nil, or_false] at hs
    rcases hs with rfl | rfl <;> norm_num [subOrder]

/-- The suite with that hash. -/
noncomputable def pairSuite : (bjjCiphersuite sixthInput Library.reference).PrimeOrder subOrder subgroup :=
  bjjPrimeOrder sixthInput Library.reference_lawful

/-- A binding factor is made of the identifier alone. -/
theorem bindingFactor_sixthInput {gpk : Point} {msg : List UInt8} {commitments : List (Commitment Point)} {id rho : ℤ}
    (h : (bjjCiphersuite sixthInput Library.reference).bindingFactor gpk msg commitments id = .ok rho) :
    rho = ((((id : Fr).val : ℤ)) * 2 ^ 254 + (id : Fr).val).tmod subOrder := by
  obtain ⟨h4, -, h⟩ := bind_eq_ok.1 h
  obtain ⟨h5, -, h⟩ := bind_eq_ok.1 h
  obtain ⟨high, hhigh, h⟩ := bind_eq_ok.1 h
  obtain ⟨low, hlow, h⟩ := bind_eq_ok.1 h
  have hvalue : ∀ last v : ℤ, poseidon2 sixthInput ([frostRhoDomain] ++ [gpk.1, gpk.2, h4, h5, id] ++ [last]) = .ok v →
      v = (id : Fr).val := by
    intro last v hv
    have hrange := Tss.range_of_poseidon2 sixthInput hv
    exact (Except.ok.inj ((Tss.poseidon2_eq sixthInput hrange).symm.trans hv)).symm
  rw [hvalue 0 high hhigh, hvalue 1 low hlow] at h
  exact (Except.ok.inj h).symm

/-- The challenge is the message. -/
theorem challenge_sixthInput (R gpk : BabyJubJub.Point) :
    (bjjCiphersuite sixthInput Library.reference).challenge (coords R) (coords gpk) [7] = .ok 7 := by
  refine (challenge_eq sixthInput Library.reference R gpk [7]).trans ?_
  have hmessage : sixthInput [Circuit.schnorrDomain, R.x, R.y, gpk.x, gpk.y, (decodeMessage [7] : Fr)] = 7 := by
    show ((decodeMessage [7] : ℤ) : Fr) = 7
    decide +kernel
  rw [hmessage]
  decide +kernel

/-- The bound nonces of both, added up. -/
theorem bound_bothQuorum {rhos : ℤ → Option ℤ} {rho : ℤ → ℤ} {c : ℤ} {gpk : Point}
    (hashed : Hashed pairSuite bothQuorum gpk [7] rhos rho c) :
    bothQuorum.bound rho = 3 + ((2 ^ 254 + 1 : ℕ) : ZMod subOrder) * 5 + (4 + ((2 ^ 255 + 2 : ℕ) : ZMod subOrder) * 6) := by
  have hfactor : ∀ s ∈ bothQuorum.signers, (rho s.id : ZMod subOrder) =
      (((s.id : Fr).val * 2 ^ 254 + (s.id : Fr).val : ℕ) : ZMod subOrder) := by
    intro s hs
    have hrho := bindingFactor_sixthInput (bindingFactors_inv hashed.factors (hashed.factor_range s hs).1)
    have hnonneg : (0 : ℤ) ≤ ((s.id : Fr).val : ℤ) * 2 ^ 254 + (s.id : Fr).val := by positivity
    rw [hrho, Int.tmod_eq_emod_of_nonneg hnonneg, ZMod.intCast_mod]
    push_cast
    rfl
  have hfirst := hfactor ⟨⟨3, 5⟩, 1⟩ List.mem_cons_self
  have hsecond := hfactor ⟨⟨4, 6⟩, 2⟩ (List.mem_cons_of_mem _ List.mem_cons_self)
  have hone : ((1 : ℤ) : Fr).val = 1 := by decide +kernel
  have htwo : ((2 : ℤ) : Fr).val = 2 := by decide +kernel
  rw [hone] at hfirst
  rw [htwo] at hsecond
  simp only [Quorum.bound, bothQuorum, Signer.bound, List.map_cons, List.map_nil, List.sum_cons, List.sum_nil,
    hfirst, hsecond]
  push_cast
  ring

/-- Both holders of a key sign, and the circuit accepts. -/
theorem frost_complete_pair : ∃ sig,
    bothQuorum.signature (bjjCiphersuite sixthInput Library.reference) (pairSharing 5 11).share
      ((pairSharing 5 11).groupKey pairSuite) [7] = .ok sig ∧
    verify (bjjCiphersuite sixthInput Library.reference) ((pairSharing 5 11).groupKey pairSuite) [7] sig = .ok true ∧
    Circuit.verifyFrostSpend sixthInput (circuitPoint ((pairSharing 5 11).groupKey pairSuite)) (circuitPoint sig.R)
      (sig.z : Fr) (decodeMessage [7] : Fr) = some () := by
  obtain ⟨sig, hsig, hverified⟩ := (frost_complete.1 _ _ _ _ pairSuite (pairSharing 5 11) bothQuorum [7] le_rfl).2
  have hsecret : (pairSharing 5 11).polynomial.eval 0 = 11 := by simp [pairSharing]
  -- what the signature is made of
  obtain ⟨rhos, rho, c, hashed⟩ := exists_hashed pairSuite bothQuorum ((pairSharing 5 11).polynomial.eval 0 • base) [7]
  obtain ⟨sig', hsig', hholds⟩ := signature_eq (pairSharing 5 11) hashed le_rfl
  obtain rfl : sig = sig' := Except.ok.inj (hsig.symm.trans hsig')
  obtain rfl : c = 7 := Except.ok.inj (hashed.challenge_eq.symm.trans (challenge_sixthInput _ _))
  have hz : sig.z ≠ 0 := by
    intro hzero
    have hvalue := hholds.z
    rw [hzero, hsecret, bound_bothQuorum hashed] at hvalue
    exact absurd hvalue (by decide +kernel)
  have hR : sig.R ≠ Tss.identity := by
    intro hidentity
    have hr : sig.R = coords ((bothQuorum.bound rho • base : subgroup) : BabyJubJub.Point) := hholds.R
    rw [hidentity, Tss.identity_eq] at hr
    have hzero : bothQuorum.bound rho = 0 := by
      refine BabyJubJub.smul_base_injective ?_
      show bothQuorum.bound rho • base = (0 : ZMod subOrder) • base
      rw [zero_smul]
      exact Subtype.ext (Tss.coords_injective hr).symm
    rw [bound_bothQuorum hashed] at hzero
    exact absurd hzero (by decide +kernel)
  have hkey : (pairSharing 5 11).groupKey pairSuite ≠ Tss.identity := by
    intro hidentity
    have hr : (pairSharing 5 11).groupKey pairSuite =
        coords (((pairSharing 5 11).polynomial.eval 0 • base : subgroup) : BabyJubJub.Point) := rfl
    rw [hidentity, Tss.identity_eq, hsecret] at hr
    have hzero : (11 : ZMod subOrder) = 0 := by
      refine BabyJubJub.smul_base_injective ?_
      show (11 : ZMod subOrder) • base = (0 : ZMod subOrder) • base
      rw [zero_smul]
      exact Subtype.ext (Tss.coords_injective hr).symm
    exact absurd hzero (by decide +kernel)
  exact ⟨sig, hsig, hverified,
    frost_complete.2 _ _ Library.reference_lawful (pairSharing 5 11) bothQuorum [7] sig le_rfl hsig hz hR hkey⟩

/-! A key that is zero. -/

/-- A key that one participant holds. -/
noncomputable def soloSharing (secret : ZMod subOrder) : Sharing subOrder where
  threshold := 1
  polynomial := C secret
  degree_lt := degree_solo secret

/-- Its holder, with one and zero as nonces. -/
def soloQuorum : Quorum subOrder where
  signers := [⟨⟨1, 0⟩, 1⟩]
  nodup := List.nodup_singleton 1
  id_range := by
    intro s hs
    rw [List.mem_singleton.1 hs]
    norm_num [subOrder]
  nonce_range := by
    intro s hs
    rw [List.mem_singleton.1 hs]
    norm_num [subOrder]

/-- The signature of the one holder, when every hash is zero. -/
theorem solo_signature (secret : ZMod subOrder) (msg : List UInt8) : ∃ sig,
    soloQuorum.signature (bjjCiphersuite (fun _ => 0) Library.reference) (soloSharing secret).share
      ((soloSharing secret).groupKey (bjjPrimeOrder (fun _ => 0) Library.reference_lawful)) msg = .ok sig ∧
      sig.z ≠ 0 ∧ sig.R ≠ Tss.identity := by
  obtain ⟨rhos, rho, c, hashed⟩ := exists_hashed (bjjPrimeOrder (fun _ => 0) Library.reference_lawful) soloQuorum
    ((soloSharing secret).polynomial.eval 0 • base) msg
  obtain ⟨sig, hsig, hholds⟩ := signature_eq (soloSharing secret) hashed le_rfl
  have hbound : soloQuorum.bound rho = 1 := by simp [Quorum.bound, soloQuorum, Signer.bound]
  refine ⟨sig, hsig, ?_, ?_⟩
  · intro hz
    have hchallenge := (challenge_eq (fun _ => 0) Library.reference _ _ msg).symm.trans hashed.challenge_eq
    have hvalue := hholds.z
    rw [← Except.ok.inj hchallenge, hz, hbound] at hvalue
    simp at hvalue
  · intro hR
    have hr : sig.R = coords ((soloQuorum.bound rho • base : subgroup) : BabyJubJub.Point) := hholds.R
    rw [hbound, one_smul, hR, Tss.identity_eq] at hr
    exact BabyJubJub.base8_ne_zero (Tss.coords_injective hr).symm

/-- The circuit refuses every signature under the key zero. -/
theorem zero_key_refused :
    ¬ ∀ (poseidon : List Fr → Fr) (lib : Library) (h : lib.Lawful) (sharing : Sharing subOrder)
      (quorum : Quorum subOrder) (msg : List UInt8) (sig : Signature Point),
      sharing.threshold ≤ quorum.signers.length →
      quorum.signature (bjjCiphersuite poseidon lib) sharing.share
        (sharing.groupKey (bjjPrimeOrder poseidon h)) msg = .ok sig →
      sig.z ≠ 0 → sig.R ≠ Tss.identity →
      Circuit.verifyFrostSpend poseidon (circuitPoint (sharing.groupKey (bjjPrimeOrder poseidon h)))
        (circuitPoint sig.R) (sig.z : Fr) (decodeMessage msg : Fr) = some () := by
  intro hclaim
  obtain ⟨sig, hsig, hz, hR⟩ := solo_signature 0 [1]
  have haccepted := hclaim _ _ Library.reference_lawful (soloSharing 0) soloQuorum [1] sig le_rfl hsig hz hR
  have hkey : (soloSharing 0).groupKey (bjjPrimeOrder (fun _ => 0) Library.reference_lawful) =
      coords ((0 : subgroup) : BabyJubJub.Point) := by
    rw [Sharing.groupKey, soloSharing, eval_C, zero_smul]
    rfl
  have hzero : circuitPoint (coords ((0 : subgroup) : BabyJubJub.Point)) = Circuit.ofPoint 0 :=
    circuitPoint_coords 0
  rw [hkey, hzero, Circuit.verifyFrostSpend_zero] at haccepted
  cases haccepted

end Kakure.Frost
