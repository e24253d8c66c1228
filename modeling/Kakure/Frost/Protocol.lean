import Kakure.Lib.Fallible
import Kakure.Lib.Interpolation
import Kakure.Tss.Shamir

/-!
# Threshold signatures

`packages/sdk/src/frost/ciphersuite.ts` and `frost.ts`, over an arbitrary ciphersuite: the
commitments of a set of signers, the shares of a signature, their verification and their sum.

* `modInverse_eq`, `lagrangeCoefficient_eq` — the scalars.
-/

namespace Kakure.Frost

open Fallible Interpolation Polynomial
open Tss (bigMod residues)

/-! ## Ciphersuites -/

/-- `Commitment`. -/
structure Commitment (G : Type) where
  id : ℤ
  D : G
  E : G

/-- `Ciphersuite`. -/
structure Ciphersuite (G : Type) where
  generator : G
  identity : G
  add : G → G → G
  scalarMul : ℤ → G → G
  eq : G → G → Bool
  order : ℤ
  nonceScalar : List UInt8 → ℤ → Except String ℤ
  bindingFactor : G → List UInt8 → List (Commitment G) → ℤ → Except String ℤ
  challenge : G → G → List UInt8 → Except String ℤ

/-! ## Scalars -/

/-- The loop of `modInverse`. -/
def modInverseLoop (oldR r oldS s : ℤ) : ℤ × ℤ :=
  if r = 0 then (oldR, oldS)
  else
    let q := oldR.tdiv r
    modInverseLoop r (oldR - q * r) s (oldS - q * s)
termination_by r.natAbs
decreasing_by
  rename_i hr
  have hrest : oldR - oldR.tdiv r * r = oldR.tmod r := by rw [Int.tmod_def, mul_comm]
  rw [hrest, Int.natAbs_tmod]
  exact Nat.mod_lt _ (Int.natAbs_pos.2 hr)

/-- `modInverse`. -/
def modInverse (x m : ℤ) : Except String ℤ :=
  let (oldR, oldS) := modInverseLoop (bigMod x m) m 1 0
  if oldR ≠ 1 then .error "frost: scalar has no inverse mod order" else .ok (bigMod oldS m)

/-- One step of the loop of `lagrangeCoefficient`. -/
def lagrangeStep (m id : ℤ) (acc : ℤ × ℤ) (j : ℤ) : ℤ × ℤ :=
  if j = id then acc else (bigMod (acc.1 * bigMod j m) m, bigMod (acc.2 * bigMod (j - id) m) m)

variable {G : Type} (cs : Ciphersuite G)

/-- `lagrangeCoefficient`. -/
def lagrangeCoefficient (id : ℤ) (signerSet : List ℤ) : Except String ℤ := do
  let m := cs.order
  let (num, den) := signerSet.foldl (lagrangeStep m id) (1, 1)
  let inv ← modInverse den m
  .ok (bigMod (num * inv) m)

/-! ## Nonces -/

/-- `Nonces`. -/
structure Nonces where
  d : ℤ
  e : ℤ

/-- `NonceHandle`. -/
structure NonceHandle extends Nonces where
  consumed : Bool

/-- `NonceHandle.markConsumed`. -/
def NonceHandle.markConsumed (handle : NonceHandle) : Except String NonceHandle :=
  if handle.consumed then .error "frost: one-time nonce reused (round-1 handle already consumed)"
  else .ok { handle with consumed := true }

/-- `commit`. -/
def commit (id secret : ℤ) (hidingRandom bindingRandom : List UInt8) :
    Except String (NonceHandle × Commitment G) := do
  let d ← cs.nonceScalar hidingRandom secret
  let e ← cs.nonceScalar bindingRandom secret
  .ok (⟨⟨d, e⟩, false⟩, ⟨id, cs.scalarMul d cs.generator, cs.scalarMul e cs.generator⟩)

/-! ## Signing -/

/-- `sortById`. -/
def sortById (commitments : List (Commitment G)) : List (Commitment G) :=
  commitments.mergeSort fun a b => a.id ≤ b.id

/-- One step of the loop of `bindingFactors`. -/
def bindingStep (gpk : G) (msg : List UInt8) (sorted : List (Commitment G)) (out : ℤ → Option ℤ)
    (c : Commitment G) : Except String (ℤ → Option ℤ) := do
  let rho ← cs.bindingFactor gpk msg sorted c.id
  .ok (Function.update out c.id (some rho))

/-- `bindingFactors`. -/
def bindingFactors (gpk : G) (msg : List UInt8) (commitments : List (Commitment G)) :
    Except String (ℤ → Option ℤ) :=
  let sorted := sortById commitments
  sorted.foldlM (bindingStep cs gpk msg sorted) fun _ => none

/-- One step of the loop of `groupCommitment`. -/
def commitmentStep (rhos : ℤ → Option ℤ) (R : G) (c : Commitment G) : Except String G :=
  match rhos c.id with
  | none => .error s!"frost: missing binding factor for {c.id}"
  | some rho => .ok (cs.add R (cs.add c.D (cs.scalarMul rho c.E)))

/-- `groupCommitment`. -/
def groupCommitment (commitments : List (Commitment G)) (rhos : ℤ → Option ℤ) : Except String G :=
  (sortById commitments).foldlM (commitmentStep cs rhos) cs.identity

/-- `signShareUnchecked`. -/
def signShareUnchecked (id : ℤ) (nonces : Nonces) (secretShare : ℤ) (gpk : G) (msg : List UInt8)
    (commitments : List (Commitment G)) : Except String ℤ := do
  let m := cs.order
  let signerSet := commitments.map Commitment.id
  let rhos ← bindingFactors cs gpk msg commitments
  let R ← groupCommitment cs commitments rhos
  let c ← cs.challenge R gpk msg
  let lambda ← lagrangeCoefficient cs id signerSet
  match rhos id with
  | none => .error s!"frost: signer {id} not in commitment list"
  | some rho =>
    .ok (bigMod (nonces.d + bigMod (nonces.e * rho) m + bigMod (bigMod (lambda * secretShare) m * c) m) m)

/-- `signShare`: the share, and the handle afterwards. -/
def signShare (id : ℤ) (handle : NonceHandle) (secretShare : ℤ) (gpk : G) (msg : List UInt8)
    (commitments : List (Commitment G)) : Except String ℤ × NonceHandle :=
  match handle.markConsumed with
  | .error e => (.error e, handle)
  | .ok handle' => (signShareUnchecked cs id handle'.toNonces secretShare gpk msg commitments, handle')

/-- `verifySignatureShare`. -/
def verifySignatureShare (id zShare : ℤ) (publicShare gpk : G) (msg : List UInt8)
    (commitments : List (Commitment G)) : Except String Bool := do
  let m := cs.order
  let signerSet := commitments.map Commitment.id
  let rhos ← bindingFactors cs gpk msg commitments
  let R ← groupCommitment cs commitments rhos
  let c ← cs.challenge R gpk msg
  match commitments.find? fun k => k.id = id with
  | none => .ok false
  | some commitment =>
    match rhos id with
    | none => .error "TypeError: rho is undefined"
    | some rho =>
      let lambda ← lagrangeCoefficient cs id signerSet
      let lhs := cs.scalarMul zShare cs.generator
      let commShare := cs.add commitment.D (cs.scalarMul rho commitment.E)
      let rhs := cs.add commShare (cs.scalarMul (bigMod (c * lambda) m) publicShare)
      .ok (cs.eq lhs rhs)

/-- `Signature`. -/
structure Signature (G : Type) where
  R : G
  z : ℤ

/-- `aggregate`. -/
def aggregate (R : G) (zShares : List ℤ) : Signature G :=
  ⟨R, zShares.foldl (fun z zi => bigMod (z + zi) cs.order) 0⟩

/-- What `coordinatorAggregate` takes of each signer. -/
structure Partial (G : Type) where
  id : ℤ
  z : ℤ
  publicShare : G

/-- One step of the first loop of `coordinatorAggregate`. -/
def seenStep (seen : List ℤ) (s : Partial G) : Except String (List ℤ) :=
  if s.id ∈ seen then .error s!"frost: duplicate signature share from signer {s.id} (replay rejected)"
  else .ok (s.id :: seen)

/-- One step of the second loop. -/
def verifyStep (gpk : G) (msg : List UInt8) (commitments : List (Commitment G)) (s : Partial G) :
    Except String Unit := do
  let ok ← verifySignatureShare cs s.id s.z s.publicShare gpk msg commitments
  if !ok then
    .error s!"frost: signature share from signer {s.id} failed verification (identifiable abort)"
  else .ok ()

/-- `coordinatorAggregate`. -/
def coordinatorAggregate (R gpk : G) (msg : List UInt8) (commitments : List (Commitment G))
    (partials : List (Partial G)) (threshold : ℕ) : Except String (Signature G) := do
  let seen ← partials.foldlM seenStep []
  if seen.length < threshold then
    .error s!"frost: {seen.length} distinct shares below threshold {threshold}"
  else do
    partials.forM (verifyStep cs gpk msg commitments)
    .ok (aggregate cs R (partials.map Partial.z))

/-- `verify`. -/
def verify (gpk : G) (msg : List UInt8) (sig : Signature G) : Except String Bool := do
  let c ← cs.challenge sig.R gpk msg
  let lhs := cs.scalarMul sig.z cs.generator
  let rhs := cs.add sig.R (cs.scalarMul c gpk)
  .ok (cs.eq lhs rhs)

/-! ## The scalars -/

/-- Euclid's algorithm: the first number becomes the greatest common divisor. -/
theorem modInverseLoop_fst (oldR r oldS s : ℤ) (hold : 0 ≤ oldR) (hr : 0 ≤ r) :
    (modInverseLoop oldR r oldS s).1 = Int.gcd oldR r := by
  induction oldR, r, oldS, s using modInverseLoop.induct with
  | case1 oldR oldS s =>
    rw [modInverseLoop, if_pos rfl, Int.gcd_zero_right]
    omega
  | case2 oldR r oldS s hne q ih =>
    have hrest : oldR - q * r = oldR % r := by
      rw [← Int.tmod_eq_emod_of_nonneg hold, Int.tmod_def, mul_comm]
    rw [modInverseLoop, if_neg hne]
    change (modInverseLoop r (oldR - q * r) s (oldS - q * s)).1 = _
    rw [ih hr (by rw [hrest]; exact Int.emod_nonneg _ hne), hrest, Int.gcd_comm r]
    exact congrArg _ (Int.gcd_emod oldR r)

/-- The second number stays the factor that makes the first one out of `x`. -/
theorem cast_modInverseLoop {q : ℕ} (x oldR r oldS s : ℤ) (hold : (oldS : ZMod q) * x = oldR)
    (hs : (s : ZMod q) * x = r) :
    (((modInverseLoop oldR r oldS s).2 : ℤ) : ZMod q) * x = (modInverseLoop oldR r oldS s).1 := by
  induction oldR, r, oldS, s using modInverseLoop.induct with
  | case1 oldR oldS s =>
    rw [modInverseLoop, if_pos rfl]
    exact hold
  | case2 oldR r oldS s hne t ih =>
    rw [modInverseLoop, if_neg hne]
    refine ih hs ?_
    push_cast
    rw [sub_mul, hold, mul_assoc, hs]

section Meaning

variable {q : ℕ} [Fact q.Prime]

theorem order_pos : 0 < q := (Fact.out : q.Prime).pos

/-- `modInverse` inverts what is not a multiple of the order. -/
theorem modInverse_eq {x : ℤ} (hx : (x : ZMod q) ≠ 0) :
    ∃ y, modInverse x q = .ok y ∧ (y : ZMod q) = (x : ZMod q)⁻¹ := by
  have hpos : (0 : ℤ) < q := by exact_mod_cast order_pos
  have hgcd : (modInverseLoop (bigMod x q) q 1 0).1 = 1 := by
    rw [modInverseLoop_fst _ _ _ _ (Tss.bigMod_nonneg order_pos x) hpos.le]
    have hndvd : ¬ (q : ℤ) ∣ bigMod x q := by
      rw [← ZMod.intCast_zmod_eq_zero_iff_dvd, Tss.cast_bigMod]
      exact hx
    have hcoprime : IsCoprime (bigMod x q) q :=
      ((Nat.prime_iff_prime_int.1 Fact.out).irreducible.coprime_iff_not_dvd.2 hndvd).symm
    exact_mod_cast Int.isCoprime_iff_gcd_eq_one.1 hcoprime
  have hcast := cast_modInverseLoop x (bigMod x q) q 1 0 (by simp) (by simp : ((0 : ℤ) : ZMod q) * x = (q : ℤ))
  rw [hgcd, Int.cast_one] at hcast
  refine ⟨bigMod (modInverseLoop (bigMod x q) q 1 0).2 q, ?_, ?_⟩
  · rw [modInverse]
    simp only [hgcd, ne_eq, not_true, if_false]
  · rw [Tss.cast_bigMod]
    exact eq_inv_of_mul_eq_one_left hcast

/-- The loop multiplies up both products over the other identifiers. -/
theorem foldl_lagrangeStep (id : ℤ) (signerSet : List ℤ) (acc : ℤ × ℤ) :
    ((((signerSet.foldl (lagrangeStep q id) acc).1 : ℤ) : ZMod q) =
        acc.1 * (residues q (signerSet.filter (· ≠ id))).prod) ∧
      (((signerSet.foldl (lagrangeStep q id) acc).2 : ℤ) : ZMod q) =
        acc.2 * ((residues q (signerSet.filter (· ≠ id))).map fun y => y - (id : ZMod q)).prod := by
  have hskip : ∀ (acc : ℤ × ℤ) (j : ℤ), j = id → lagrangeStep q id acc j = acc := fun acc j hj => if_pos hj
  have hstep : ∀ (acc : ℤ × ℤ) (j : ℤ), ¬ j = id →
      (((lagrangeStep q id acc j).1 : ℤ) : ZMod q) = acc.1 * j ∧
        (((lagrangeStep q id acc j).2 : ℤ) : ZMod q) = acc.2 * (j - id) := by
    intro acc j hj
    rw [lagrangeStep, if_neg hj]
    simp only [Tss.cast_bigMod, Int.cast_mul, Int.cast_sub, and_self]
  obtain ⟨hnum, hden⟩ := foldl_products hskip hstep signerSet acc
  rw [hnum, hden, residues, List.map_map]
  exact ⟨rfl, rfl⟩

variable {cs}

/-- The weight of a signer, for identifiers that differ modulo the order. -/
theorem lagrangeCoefficient_eq (horder : cs.order = q) {id : ℤ} {signerSet : List ℤ} (hid : id ∈ signerSet)
    (hnodup : (residues q signerSet).Nodup) : ∃ l, lagrangeCoefficient cs id signerSet = .ok l ∧
      (l : ZMod q) = weight (residues q signerSet) (id : ZMod q) := by
  have hinj : ∀ j ∈ signerSet, (j : ZMod q) = id → j = id := fun j hj h => List.inj_on_of_nodup_map hnodup hj hid h
  have hfilter : residues q (signerSet.filter (· ≠ id)) = (residues q signerSet).filter (· ≠ (id : ZMod q)) := by
    rw [residues, residues, List.filter_map]
    congr 1
    refine List.filter_congr fun j hj => ?_
    have : j = id ↔ (j : ZMod q) = id := ⟨fun h => by rw [h], hinj j hj⟩
    simp [this]
  obtain ⟨hnum, hden⟩ := foldl_lagrangeStep (q := q) id signerSet (1, 1)
  rw [lagrangeCoefficient, horder]
  cases hfold : signerSet.foldl (lagrangeStep q id) (1, 1) with
  | mk num den =>
  rw [hfold, Int.cast_one, one_mul, hfilter] at hnum hden
  have hne : (den : ZMod q) ≠ 0 := by
    rw [hden]
    refine List.prod_ne_zero ?_
    simp [sub_eq_zero]
  obtain ⟨inv, hinv, hcast⟩ := modInverse_eq hne
  refine ⟨bigMod (num * inv) q, bind_of_ok hinv _, ?_⟩
  rw [Tss.cast_bigMod, Int.cast_mul, hcast, hnum, hden, weight_eq_div]
  rfl

end Meaning

end Kakure.Frost
