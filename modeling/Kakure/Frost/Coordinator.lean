import Kakure.Frost.Bjj

/-!
# The coordinator

`coordinatorAggregate` of `packages/sdk/src/frost/frost.ts` checks the shares it is given, one by one
against the whole list of commitments, and adds them up under the group commitment of that list.
It does not ask that every signer on the list has sent a share.

* `Ciphersuite.OverGroup` — what a suite has to be for this: nothing about its hash functions, and
  commitments may be any elements of the group;
* `verify_iff_balanced` — the signature it returns passes exactly if what the present signers put in
  is what the list and the key ask for;
* `balanced_iff` — for different identifiers: exactly if the absent signers would have put in nothing.
-/

namespace Kakure.Frost

open Fallible Interpolation Polynomial
open Tss (bigMod residues)

variable {G : Type} {cs : Ciphersuite G} {q : ℕ} {H : Type} [AddCommGroup H]

/-- A suite over a group that has the multiples of the generator among its members, scalars
being taken modulo the order. -/
structure Ciphersuite.OverGroup (cs : Ciphersuite G) (q : ℕ) (H : Type) [AddCommGroup H] where
  encode : H → G
  /-- A scalar times the generator. -/
  multiple : ZMod q →+ H
  mul : ℤ → H → H
  order : cs.order = q
  generator : cs.generator = encode (multiple 1)
  identity : cs.identity = encode 0
  add : ∀ P Q, cs.add (encode P) (encode Q) = encode (P + Q)
  scalarMul : ∀ k P, cs.scalarMul k (encode P) = encode (mul k P)
  mul_multiple : ∀ (k : ℤ) a, mul k (multiple a) = multiple (k * a)
  eq : ∀ P Q, cs.eq (encode P) (encode Q) = true ↔ P = Q

/-- A commitment with its points replaced. -/
def Commitment.map (f : H → G) (k : Commitment H) : Commitment G := ⟨k.id, f k.D, f k.E⟩

/-! ## What a run that returned has checked -/

theorem nodup_of_foldlM_seenStep {partials : List (Partial G)} {seen seen' : List ℤ}
    (h : partials.foldlM seenStep seen = .ok seen') :
    (partials.map Partial.id).Nodup ∧ ∀ s ∈ partials, s.id ∉ seen := by
  induction partials generalizing seen with
  | nil => simp
  | cons s partials ih =>
    rw [List.foldlM_cons] at h
    obtain ⟨seen₁, hstep, h⟩ := bind_eq_ok.1 h
    unfold seenStep at hstep
    split at hstep
    · cases hstep
    · rename_i hnew
      cases hstep
      obtain ⟨hnodup, hfresh⟩ := ih h
      refine ⟨List.nodup_cons.2 ⟨fun hmem => ?_, hnodup⟩, fun r hr => ?_⟩
      · obtain ⟨r, hr, hid⟩ := List.mem_map.1 hmem
        exact hfresh r hr (hid ▸ List.mem_cons_self)
      · rcases List.mem_cons.1 hr with rfl | hr
        · exact hnew
        · exact fun hmem => hfresh r hr (List.mem_cons_of_mem _ hmem)

/-- It has seen enough shares of different signers, and each of them passes. -/
theorem coordinatorAggregate_inv {R gpk : G} {msg : List UInt8} {commitments : List (Commitment G)}
    {partials : List (Partial G)} {threshold : ℕ} {sig : Signature G}
    (h : coordinatorAggregate cs R gpk msg commitments partials threshold = .ok sig) :
    (partials.map Partial.id).Nodup ∧ threshold ≤ partials.length ∧
      (∀ s ∈ partials, verifySignatureShare cs s.id s.z s.publicShare gpk msg commitments = .ok true) ∧
      sig = aggregate cs R (partials.map Partial.z) := by
  unfold coordinatorAggregate at h
  obtain ⟨seen, hseen, h⟩ := bind_eq_ok.1 h
  obtain ⟨hnodup, -⟩ := nodup_of_foldlM_seenStep hseen
  obtain ⟨seen', hseen', hlength⟩ := foldlM_seenStep hnodup [] fun _ _ => List.not_mem_nil
  obtain rfl : seen = seen' := Except.ok.inj (hseen.symm.trans hseen')
  rw [List.length_nil, zero_add] at hlength
  split at h
  · cases h
  · obtain ⟨⟨⟩, hsteps, h⟩ := bind_eq_ok.1 h
    cases h
    refine ⟨hnodup, by omega, fun s hs => ?_, rfl⟩
    obtain ⟨ok, hok, hstep⟩ := bind_eq_ok.1 (forall_of_forM hsteps s hs)
    cases ok with
    | true => exact hok
    | false => cases hstep

section Scalars

variable [Fact q.Prime]

/-- What `modInverse` returns is an inverse. -/
theorem modInverse_inv {x y : ℤ} (h : modInverse x q = .ok y) : (y : ZMod q) * x = 1 := by
  have hcast := cast_modInverseLoop x (bigMod x q) q 1 0 (by simp)
    (by simp : ((0 : ℤ) : ZMod q) * x = (q : ℤ))
  unfold modInverse at h
  dsimp only at h
  split at h
  · cases h
  · rename_i hone
    cases h
    rw [Tss.cast_bigMod, hcast, not_not.1 hone, Int.cast_one]

/-- Where `lagrangeCoefficient` returns, no other identifier is the signer's modulo the order, and it
returns the weight. -/
theorem lagrangeCoefficient_inv (horder : cs.order = q) {id l : ℤ} {signerSet : List ℤ}
    (h : lagrangeCoefficient cs id signerSet = .ok l) :
    (l : ZMod q) = weight (residues q signerSet) (id : ZMod q) := by
  obtain ⟨hnum, hden⟩ := foldl_lagrangeStep (q := q) id signerSet (1, 1)
  rw [lagrangeCoefficient, horder] at h
  cases hfold : signerSet.foldl (lagrangeStep q id) (1, 1) with
  | mk num den =>
  rw [hfold] at h hnum hden
  obtain ⟨inv, hinv, h⟩ := bind_eq_ok.1 h
  cases h
  rw [Int.cast_one, one_mul] at hnum hden
  have hone := modInverse_inv hinv
  have hne : (den : ZMod q) ≠ 0 := right_ne_zero_of_mul_eq_one hone
  have hfilter : residues q (signerSet.filter (· ≠ id)) =
      (residues q signerSet).filter (· ≠ (id : ZMod q)) := by
    rw [residues, residues, List.filter_map]
    congr 1
    refine List.filter_congr fun j hj => ?_
    have : j = id ↔ (j : ZMod q) = id := by
      refine ⟨fun heq => by rw [heq], fun heq => ?_⟩
      by_contra hji
      refine hne (hden.trans (List.prod_eq_zero (List.mem_map.2 ⟨(j : ZMod q), ?_, sub_eq_zero.2 heq⟩)))
      exact List.mem_map_of_mem (List.mem_filter.2 ⟨hj, by simpa using hji⟩)
    simp [this]
  rw [hfilter] at hnum hden
  rw [Tss.cast_bigMod, Int.cast_mul, eq_inv_of_mul_eq_one_left hone, hnum, hden, weight_eq_div]
  rfl

end Scalars

/-! ## The sums -/

section Group

variable (suite : cs.OverGroup q H) (committed : List (Commitment H)) (rhos : ℤ → Option ℤ)

/-- The bound commitment of a signer. -/
def bound (k : Commitment H) : H := k.D + suite.mul ((rhos k.id).getD 0) k.E

variable {suite committed rhos}

/-- The group commitment is the sum of the bound commitments. -/
theorem groupCommitment_inv {R : G}
    (h : groupCommitment cs (committed.map (Commitment.map suite.encode)) rhos = .ok R) :
    (∀ k ∈ committed, ∃ rho, rhos k.id = some rho) ∧
      R = suite.encode (committed.map (bound suite rhos)).sum := by
  have hsort : sortById (committed.map (Commitment.map suite.encode)) =
      (committed.mergeSort fun a b => a.id ≤ b.id).map (Commitment.map suite.encode) := by
    rw [sortById, List.map_mergeSort]
    intro a _ b _
    rfl
  have hperm : (committed.mergeSort fun a b => a.id ≤ b.id).Perm committed := List.mergeSort_perm _ _
  have hfold : ∀ (l : List (Commitment H)) (acc : H),
      (l.map (Commitment.map suite.encode)).foldlM (commitmentStep cs rhos) (suite.encode acc) = .ok R →
      (∀ k ∈ l, ∃ rho, rhos k.id = some rho) ∧
        R = suite.encode (acc + (l.map (bound suite rhos)).sum) := by
    intro l
    induction l with
    | nil =>
      intro acc h
      cases h
      simp
    | cons k l ih =>
      intro acc h
      rw [List.map_cons, List.foldlM_cons] at h
      obtain ⟨R', hstep, h⟩ := bind_eq_ok.1 h
      unfold commitmentStep at hstep
      split at hstep
      · cases hstep
      · rename_i rho hrho
        cases hstep
        have hsum : cs.add (suite.encode acc) (cs.add (suite.encode k.D) (cs.scalarMul rho (suite.encode k.E))) =
            suite.encode (acc + bound suite rhos k) := by
          have hget : (rhos k.id).getD 0 = rho := by
            rw [show rhos k.id = some rho from hrho, Option.getD_some]
          rw [suite.scalarMul, suite.add, suite.add, bound, hget]
        obtain ⟨hsome, hR⟩ := ih _ (hsum ▸ h)
        refine ⟨List.forall_mem_cons.2 ⟨⟨rho, hrho⟩, hsome⟩, ?_⟩
        rw [hR, List.map_cons, List.sum_cons, add_assoc]
  rw [groupCommitment, hsort, suite.identity] at h
  obtain ⟨hsome, hR⟩ := hfold _ _ h
  refine ⟨fun k hk => hsome k (hperm.mem_iff.2 hk), ?_⟩
  rw [hR, zero_add, (hperm.map _).sum_eq]

/-- The check of a signature, as an equation in the group. -/
theorem verify_iff {msg : List UInt8} {P : H} {secret : ZMod q} {z : ℤ} :
    verify cs (suite.encode (suite.multiple secret)) msg ⟨suite.encode P, z⟩ = .ok true ↔
      ∃ c, cs.challenge (suite.encode P) (suite.encode (suite.multiple secret)) msg = .ok c ∧
        suite.multiple z = P + suite.multiple (c * secret) := by
  rw [verify, bind_eq_ok]
  refine exists_congr fun c => and_congr_right fun _ => ?_
  rw [Except.ok.injEq, suite.generator, suite.scalarMul, suite.scalarMul, suite.add, suite.eq,
    suite.mul_multiple, suite.mul_multiple, mul_one]

end Group

section Sums

variable (suite : cs.OverGroup q H) (committed : List (Commitment H)) (rhos : ℤ → Option ℤ)
  (f : (ZMod q)[X]) (c : ℤ)

variable [Fact q.Prime]

/-- The challenge times the weighted public share of a signer. -/
noncomputable def keyed (id : ℤ) : H :=
  suite.multiple (c * (weight (residues q (committed.map Commitment.id)) id * f.eval (id : ZMod q)))

/-- What a share of a signer stands for: its commitment, the first in the list, and its key. -/
noncomputable def put (id : ℤ) : H :=
  ((committed.find? fun k => k.id = id).map (bound suite rhos)).getD 0 + keyed suite committed f c id

/-- These signers put in what the commitments and the key ask for. -/
def Balanced (ids : List ℤ) : Prop :=
  (ids.map (put suite committed rhos f c)).sum =
    (committed.map (bound suite rhos)).sum + suite.multiple (c * f.eval 0)

/-- The commitments of the others. -/
def absent (ids : List ℤ) : List (Commitment H) := committed.filter fun k => k.id ∉ ids

variable {suite committed rhos f c}

/-- A share that passes puts in what it stands for. -/
theorem verifySignatureShare_inv {id z : ℤ} {gpk R : G} {msg : List UInt8}
    (hrhos : bindingFactors cs gpk msg (committed.map (Commitment.map suite.encode)) = .ok rhos)
    (hR : groupCommitment cs (committed.map (Commitment.map suite.encode)) rhos = .ok R)
    (h : verifySignatureShare cs id z (suite.encode (suite.multiple (f.eval (id : ZMod q)))) gpk msg
      (committed.map (Commitment.map suite.encode)) = .ok true) :
    id ∈ committed.map Commitment.id ∧ ∃ c, cs.challenge R gpk msg = .ok c ∧
      suite.multiple z = put suite committed rhos f c id := by
  have hids : (committed.map (Commitment.map suite.encode)).map Commitment.id =
      committed.map Commitment.id := by
    rw [List.map_map]
    rfl
  have hfind : (committed.map (Commitment.map suite.encode)).find? (fun k => k.id = id) =
      (committed.find? fun k => k.id = id).map (Commitment.map suite.encode) := by
    rw [List.find?_map]
    rfl
  rw [verifySignatureShare, bind_of_ok hrhos, bind_of_ok hR] at h
  obtain ⟨c, hc, h⟩ := bind_eq_ok.1 h
  rw [hfind, hids] at h
  cases hk : committed.find? fun k => k.id = id with
  | none =>
    rw [hk] at h
    cases h
  | some k =>
    rw [hk] at h
    have hid : k.id = id := by simpa using List.find?_some hk
    cases hrho : rhos id with
    | none =>
      rw [hrho] at h
      cases h
    | some rho =>
      rw [hrho] at h
      obtain ⟨l, hl, h⟩ := bind_eq_ok.1 h
      have hweight := lagrangeCoefficient_inv suite.order hl
      refine ⟨List.mem_map.2 ⟨k, List.mem_of_find?_eq_some hk, hid⟩, c, hc, ?_⟩
      have heq := Except.ok.inj h
      have hget : (rhos k.id).getD 0 = rho := by rw [hid, hrho, Option.getD_some]
      rw [suite.generator, suite.order] at heq
      simp only [Commitment.map] at heq
      rw [suite.scalarMul, suite.scalarMul, suite.scalarMul, suite.add, suite.add, suite.eq,
        suite.mul_multiple, suite.mul_multiple, mul_one, Tss.cast_bigMod, Int.cast_mul, hweight,
        mul_assoc] at heq
      rw [heq, put, hk, Option.map_some, Option.getD_some, bound, hget, keyed]

/-- The signature of a run that returned passes exactly if the present signers put in what the
commitments and the key ask for. -/
theorem verify_iff_balanced {msg : List UInt8} {R : G} {partials : List (Partial G)} {threshold : ℕ}
    {sig : Signature G}
    (hrhos : bindingFactors cs (suite.encode (suite.multiple (f.eval 0))) msg
      (committed.map (Commitment.map suite.encode)) = .ok rhos)
    (hR : groupCommitment cs (committed.map (Commitment.map suite.encode)) rhos = .ok R)
    (hshares : ∀ p ∈ partials, p.publicShare = suite.encode (suite.multiple (f.eval (p.id : ZMod q))))
    (hsig : coordinatorAggregate cs R (suite.encode (suite.multiple (f.eval 0))) msg
      (committed.map (Commitment.map suite.encode)) partials threshold = .ok sig) :
    verify cs (suite.encode (suite.multiple (f.eval 0))) msg sig = .ok true ↔
      ∃ c, cs.challenge R (suite.encode (suite.multiple (f.eval 0))) msg = .ok c ∧
        Balanced suite committed rhos f c (partials.map Partial.id) := by
  obtain ⟨-, -, hverified, rfl⟩ := coordinatorAggregate_inv hsig
  have hput : ∀ c, cs.challenge R (suite.encode (suite.multiple (f.eval 0))) msg = .ok c →
      suite.multiple (residues q (partials.map Partial.z)).sum =
        ((partials.map Partial.id).map (put suite committed rhos f c)).sum := by
    intro c hc
    rw [map_list_sum, residues, List.map_map, List.map_map, List.map_map]
    refine congrArg List.sum (List.map_congr_left fun p hp => ?_)
    have hp' := hverified p hp
    rw [hshares p hp] at hp'
    obtain ⟨-, c', hc', hz⟩ := verifySignatureShare_inv hrhos hR hp'
    obtain rfl : c = c' := Except.ok.inj (hc.symm.trans hc')
    exact hz
  obtain ⟨-, rfl⟩ := groupCommitment_inv hR
  rw [show aggregate cs _ _ = ⟨_, (aggregate cs (suite.encode (committed.map (bound suite rhos)).sum)
    (partials.map Partial.z)).z⟩ from rfl, verify_iff]
  refine exists_congr fun c => and_congr_right fun hc => ?_
  rw [cast_aggregate suite.order, hput c hc, Balanced]

/-! ## The absent signers -/

/-- For different identifiers and a polynomial of a degree below their number, the signers ask for
nothing in all where they all put in something. -/
theorem balanced_iff (hnodup : (residues q (committed.map Commitment.id)).Nodup)
    (hdegree : f.degree < committed.length) {ids : List ℤ} (hids : ids.Nodup)
    (hsub : ∀ id ∈ ids, id ∈ committed.map Commitment.id) :
    Balanced suite committed rhos f c ids ↔
      ((absent committed ids).map fun k => bound suite rhos k + keyed suite committed f c k.id).sum = 0 := by
  have hnodup' : (committed.map Commitment.id).Nodup := List.Nodup.of_map _ hnodup
  -- all together put in what is asked for
  have hkeyed : (committed.map fun k => keyed suite committed f c k.id).sum =
      suite.multiple (c * f.eval 0) := by
    have hlength : f.degree < (residues q (committed.map Commitment.id)).length := by
      rw [Tss.length_residues, List.length_map]
      exact hdegree
    rw [← sum_weight_mul_eval hnodup hlength, ← List.sum_map_mul_left, map_list_sum, residues,
      List.map_map, List.map_map, List.map_map]
    rfl
  have hall : (committed.map fun k => bound suite rhos k + keyed suite committed f c k.id).sum =
      (committed.map (bound suite rhos)).sum + suite.multiple (c * f.eval 0) := by
    rw [List.sum_map_add, hkeyed]
  -- the present ones are those whose identifiers are given
  have hpresent : (ids.map (put suite committed rhos f c)).sum =
      ((committed.filter fun k => k.id ∈ ids).map fun k =>
        bound suite rhos k + keyed suite committed f c k.id).sum := by
    have hperm : ids.Perm ((committed.filter fun k => k.id ∈ ids).map Commitment.id) := by
      refine (List.perm_ext_iff_of_nodup hids (hnodup'.sublist (List.filter_sublist.map _))).2 fun id => ?_
      constructor
      · intro hid
        obtain ⟨k, hk, rfl⟩ := List.mem_map.1 (hsub id hid)
        exact List.mem_map_of_mem (List.mem_filter.2 ⟨hk, by simpa using hid⟩)
      · intro hid
        obtain ⟨k, hk, rfl⟩ := List.mem_map.1 hid
        simpa using (List.mem_filter.1 hk).2
    rw [(hperm.map _).sum_eq, List.map_map]
    refine congrArg List.sum (List.map_congr_left fun k hk => ?_)
    rw [Function.comp_apply, put, find?_of_nodup hnodup' (List.mem_filter.1 hk).1, Option.map_some,
      Option.getD_some]
  have hsplit := ((List.filter_append_perm (fun k : Commitment H => k.id ∈ ids) committed).map fun k =>
    bound suite rhos k + keyed suite committed f c k.id).sum_eq
  rw [List.map_append, List.sum_append] at hsplit
  have habsent : absent committed ids = committed.filter fun k => !decide (k.id ∈ ids) := by
    rw [absent]
    exact List.filter_congr fun k _ => by simp
  rw [Balanced, ← hall, ← hsplit, hpresent, habsent]
  exact left_eq_add

end Sums

/-- Whenever `coordinatorAggregate` returns a signature, it passes exactly if the present signers put in
what the commitments and the key ask for; where the signers have different identifiers and the key
is shared for this threshold, that is if the committed signers without a share would have put in
nothing in all. -/
theorem coordinatorAggregate_sound_iff [Fact q.Prime] (suite : cs.OverGroup q H)
    {committed : List (Commitment H)} {rhos : ℤ → Option ℤ} {f : (ZMod q)[X]} {msg : List UInt8} {R : G}
    {partials : List (Partial G)} {threshold : ℕ} {sig : Signature G}
    (hrhos : bindingFactors cs (suite.encode (suite.multiple (f.eval 0))) msg
      (committed.map (Commitment.map suite.encode)) = .ok rhos)
    (hR : groupCommitment cs (committed.map (Commitment.map suite.encode)) rhos = .ok R)
    (hshares : ∀ p ∈ partials, p.publicShare = suite.encode (suite.multiple (f.eval (p.id : ZMod q))))
    (hsig : coordinatorAggregate cs R (suite.encode (suite.multiple (f.eval 0))) msg
      (committed.map (Commitment.map suite.encode)) partials threshold = .ok sig) :
    (verify cs (suite.encode (suite.multiple (f.eval 0))) msg sig = .ok true ↔
      ∃ c, cs.challenge R (suite.encode (suite.multiple (f.eval 0))) msg = .ok c ∧
        Balanced suite committed rhos f c (partials.map Partial.id)) ∧
    ((residues q (committed.map Commitment.id)).Nodup → f.degree < threshold → ∀ c : ℤ,
      (Balanced suite committed rhos f c (partials.map Partial.id) ↔
        ((absent committed (partials.map Partial.id)).map fun k =>
          bound suite rhos k + keyed suite committed f c k.id).sum = 0)) := by
  refine ⟨verify_iff_balanced hrhos hR hshares hsig, fun hnodup hdegree c => ?_⟩
  obtain ⟨hids, ht, hverified, -⟩ := coordinatorAggregate_inv hsig
  have hsub : ∀ id ∈ partials.map Partial.id, id ∈ committed.map Commitment.id := by
    intro id hid
    obtain ⟨p, hp, rfl⟩ := List.mem_map.1 hid
    have hp' := hverified p hp
    rw [hshares p hp] at hp'
    exact (verifySignatureShare_inv hrhos hR hp').1
  have hlength := (List.subperm_of_subset hids hsub).length_le
  rw [List.length_map, List.length_map] at hlength
  exact balanced_iff hnodup (hdegree.trans_le (by exact_mod_cast ht.trans hlength)) hids hsub

/-! ## The suite of the protocol -/

open Tss (Library coords)
open BabyJubJub (subgroup base)

/-- The suite of the protocol, with commitments anywhere on the curve. -/
def bjjOverGroup (poseidon : List Fr → Fr) {lib : Library} (h : lib.Lawful) :
    (bjjCiphersuite poseidon lib).OverGroup subOrder BabyJubJub.Point where
  encode := coords
  multiple :=
    { toFun a := ((a • base : subgroup) : BabyJubJub.Point)
      map_zero' := by rw [zero_smul]; rfl
      map_add' a b := by rw [add_smul]; rfl }
  mul k P := (Tss.modSub lib k).toNat • P
  order := h.subOrder
  generator := by
    show lib.base8 = coords ((1 : ZMod subOrder) • base : subgroup)
    rw [one_smul, h.base8]
    rfl
  identity := Tss.identity_eq
  add P Q := Tss.pointAdd_coords h P Q
  scalarMul k P := by
    show lib.mulPointEscalar (coords P) (Tss.modSub lib k) = _
    rw [← h.mulPointEscalar, Int.toNat_of_nonneg (Tss.modSub_nonneg h k)]
  mul_multiple k a := by
    have hmul := Tss.scalarMul_coords h k (a • base)
    rw [Tss.scalarMul, ← Int.toNat_of_nonneg (Tss.modSub_nonneg h k), h.mulPointEscalar] at hmul
    refine (Tss.coords_injective hmul).trans ?_
    rw [smul_smul]
    rfl
  eq P Q := (Tss.pointEq_iff _ _).trans Tss.coords_injective.eq_iff

/-- The commitments of a quorum, as points. -/
noncomputable def Quorum.committed (quorum : Quorum subOrder) : List (Commitment BabyJubJub.Point) :=
  quorum.signers.map fun s =>
    ⟨s.id, ((s.d : ZMod subOrder) • base : subgroup), ((s.e : ZMod subOrder) • base : subgroup)⟩

theorem map_committed (poseidon : List Fr → Fr) {lib : Library} (h : lib.Lawful) (quorum : Quorum subOrder) :
    quorum.committed.map (Commitment.map (bjjOverGroup poseidon h).encode) =
      quorum.commitments (bjjCiphersuite poseidon lib) := by
  rw [Quorum.committed, Quorum.commitments, List.map_map]
  refine List.map_congr_left fun s hs => ?_
  rw [commitment_eq (bjjPrimeOrder poseidon h) hs]
  rfl

theorem ids_committed (quorum : Quorum subOrder) :
    quorum.committed.map Commitment.id = quorum.signers.map Signer.id := by
  rw [Quorum.committed, List.map_map]
  rfl

/-- Signers of a quorum that are enough for a threshold are added up by the coordinator. -/
theorem exists_coordinated (poseidon : List Fr → Fr) (sharing : Sharing subOrder) (quorum : Quorum subOrder)
    (msg : List UInt8) {present : List Signer} (hpresent : ∀ s ∈ present, s ∈ quorum.signers)
    (hnodup : (present.map Signer.id).Nodup) {threshold : ℕ} (ht : threshold ≤ present.length) :
    ∃ rhos rho c sig, ∃ partials : List (Partial Tss.Point),
      Hashed (bjjPrimeOrder poseidon Library.reference_lawful) quorum
        (sharing.groupKey (bjjPrimeOrder poseidon Library.reference_lawful)) msg rhos rho c ∧
      partials.map Partial.id = present.map Signer.id ∧
      (∀ p ∈ partials, p.publicShare =
        sharing.publicShare (bjjPrimeOrder poseidon Library.reference_lawful) p.id) ∧
      coordinatorAggregate (bjjCiphersuite poseidon Library.reference) (coords (quorum.bound rho • base : subgroup))
        (sharing.groupKey (bjjPrimeOrder poseidon Library.reference_lawful)) msg
        (quorum.commitments (bjjCiphersuite poseidon Library.reference)) partials threshold = .ok sig := by
  obtain ⟨rhos, rho, c, hashed⟩ := exists_hashed (bjjPrimeOrder poseidon Library.reference_lawful) quorum
    (sharing.polynomial.eval 0 • base) msg
  choose! z _ hverified _ using fun s hs => signShare_verified (s := s) sharing hashed hs
  have hids : (present.map fun s => (⟨s.id, z s,
      sharing.publicShare (bjjPrimeOrder poseidon Library.reference_lawful) s.id⟩ : Partial Tss.Point)).map Partial.id =
      present.map Signer.id := by
    rw [List.map_map]
    rfl
  refine ⟨rhos, rho, c, _, _, hashed, hids, ?_, coordinatorAggregate_eq (hids ▸ hnodup) ?_ ?_⟩
  · intro p hp
    obtain ⟨s, -, rfl⟩ := List.mem_map.1 hp
    rfl
  · rwa [List.length_map]
  · intro p hp
    obtain ⟨s, hs, rfl⟩ := List.mem_map.1 hp
    exact hverified s (hpresent s hs)

/-! ## Two signers, two shares -/

/-- The shares of both holders of the key are a signature, under a challenge that is not zero. -/
theorem coordinatorAggregate_sound_pair : ∃ R partials sig,
    partials.map Partial.id = [1, 2] ∧
    coordinatorAggregate (bjjCiphersuite sixthInput Library.reference) R ((pairSharing 5 11).groupKey pairSuite) [7]
      (bothQuorum.commitments (bjjCiphersuite sixthInput Library.reference)) partials 2 = .ok sig ∧
    (bjjCiphersuite sixthInput Library.reference).challenge R ((pairSharing 5 11).groupKey pairSuite) [7] = .ok 7 ∧
    verify (bjjCiphersuite sixthInput Library.reference) ((pairSharing 5 11).groupKey pairSuite) [7] sig = .ok true := by
  obtain ⟨rhos, rho, c, sig, partials, hashed, hids, hshares, haggregated⟩ :=
    exists_coordinated sixthInput (pairSharing 5 11) bothQuorum [7] (fun _ hs => hs) bothQuorum.nodup (le_refl 2)
  have hcommitments := map_committed sixthInput Library.reference_lawful bothQuorum
  have hfactors := hashed.factors
  have hcommitment := hashed.commitment
  have hsig := haggregated
  rw [← hcommitments] at hfactors hcommitment hsig
  obtain ⟨hiff, habsent⟩ := coordinatorAggregate_sound_iff (bjjOverGroup sixthInput Library.reference_lawful)
    hfactors hcommitment hshares hsig
  have hchallenge := challenge_sixthInput (bothQuorum.bound rho • base : subgroup)
    ((pairSharing 5 11).polynomial.eval 0 • base : subgroup)
  have hnodup : (residues subOrder (bothQuorum.committed.map Commitment.id)).Nodup := by
    rw [ids_committed]
    exact bothQuorum.nodup_residues
  have hnone : absent bothQuorum.committed (partials.map Partial.id) = [] := by
    rw [hids]
    simp [absent, Quorum.committed, bothQuorum]
  refine ⟨_, partials, sig, hids, haggregated, hchallenge, hiff.2 ⟨7, hchallenge, ?_⟩⟩
  rw [habsent hnodup (pairSharing 5 11).degree_lt, hnone, List.map_nil, List.sum_nil]

/-! ## Two signers, one share -/

/-- The suite when every hash is zero. -/
noncomputable def zeroSuite : (bjjCiphersuite (fun _ => 0) Library.reference).OverGroup subOrder BabyJubJub.Point :=
  bjjOverGroup (fun _ => 0) Library.reference_lawful

/-- The key 1, which every participant holds. -/
noncomputable def oneKey : (ZMod subOrder)[X] := (soloSharing 1).polynomial

/-- A run of the coordinator under that key. -/
structure OneKeyRun (committed : List (Commitment BabyJubJub.Point)) where
  rhos : ℤ → Option ℤ
  R : Tss.Point
  partials : List (Partial Tss.Point)
  sig : Signature Tss.Point
  factors : bindingFactors (bjjCiphersuite (fun _ => 0) Library.reference)
    (zeroSuite.encode (zeroSuite.multiple (oneKey.eval 0))) [1]
    (committed.map (Commitment.map zeroSuite.encode)) = .ok rhos
  commitment : groupCommitment (bjjCiphersuite (fun _ => 0) Library.reference)
    (committed.map (Commitment.map zeroSuite.encode)) rhos = .ok R
  shares : ∀ p ∈ partials,
    p.publicShare = zeroSuite.encode (zeroSuite.multiple (oneKey.eval (p.id : ZMod subOrder)))
  aggregated : coordinatorAggregate (bjjCiphersuite (fun _ => 0) Library.reference) R
    (zeroSuite.encode (zeroSuite.multiple (oneKey.eval 0))) [1]
    (committed.map (Commitment.map zeroSuite.encode)) partials 1 = .ok sig
  ids : partials.map Partial.id = [1]

/-- Signer 1 of a quorum signs alone. -/
theorem exists_oneKeyRun (quorum : Quorum subOrder) {s : Signer} (hs : s ∈ quorum.signers) (hid : s.id = 1) :
    Nonempty (OneKeyRun quorum.committed) := by
  obtain ⟨rhos, rho, c, sig, partials, hashed, hids, hshares, haggregated⟩ :=
    exists_coordinated (fun _ => 0) (soloSharing 1) quorum [1] (List.forall_mem_singleton.2 hs)
      (List.nodup_singleton s.id) (le_refl 1)
  have hcommitments : quorum.committed.map (Commitment.map zeroSuite.encode) =
      quorum.commitments (bjjCiphersuite (fun _ => 0) Library.reference) :=
    map_committed (fun _ => 0) Library.reference_lawful quorum
  exact ⟨{
    rhos := rhos
    R := coords (quorum.bound rho • base : subgroup)
    partials := partials
    sig := sig
    factors := by rw [hcommitments]; exact hashed.factors
    commitment := by rw [hcommitments]; exact hashed.commitment
    shares := hshares
    aggregated := by rw [hcommitments]; exact haggregated
    ids := by rw [hids, List.map_singleton, hid] }⟩

/-- Its polynomial is constant. -/
theorem degree_oneKey : oneKey.degree < 1 := degree_C_lt

/-- Two signers, with one and zero as nonces. -/
def pairQuorum : Quorum subOrder where
  signers := [⟨⟨1, 0⟩, 1⟩, ⟨⟨1, 0⟩, 2⟩]
  nodup := by decide
  id_range := by
    intro s hs
    simp only [List.mem_cons, List.not_mem_nil, or_false] at hs
    rcases hs with rfl | rfl <;> norm_num [subOrder]
  nonce_range := by
    intro s hs
    simp only [List.mem_cons, List.not_mem_nil, or_false] at hs
    rcases hs with rfl | rfl <;> norm_num [subOrder]

theorem challenge_zero (P Q : BabyJubJub.Point) :
    (bjjCiphersuite (fun _ => 0) Library.reference).challenge (zeroSuite.encode P) (zeroSuite.encode Q) [1] =
      .ok 0 := by
  refine (challenge_eq (fun _ => 0) Library.reference P Q [1]).trans ?_
  rw [ZMod.val_zero, Nat.zero_mod, Nat.cast_zero]

/-- A key share under a zero challenge is nothing. -/
theorem keyed_zero (committed : List (Commitment BabyJubJub.Point)) (id : ℤ) :
    keyed zeroSuite committed oneKey 0 id = 0 := by
  rw [keyed, Int.cast_zero, zero_mul, map_zero]

/-- Signer 1's share alone is returned as a signature under both commitments, and does not pass. -/
theorem coordinatorAggregate_unsound : ∃ run : OneKeyRun pairQuorum.committed,
    verify (bjjCiphersuite (fun _ => 0) Library.reference) (zeroSuite.encode (zeroSuite.multiple (oneKey.eval 0)))
      [1] run.sig ≠ .ok true := by
  obtain ⟨run⟩ := exists_oneKeyRun pairQuorum List.mem_cons_self rfl
  refine ⟨run, fun hverify => ?_⟩
  rw [verify_iff_balanced run.factors run.commitment run.shares run.aggregated, run.ids] at hverify
  obtain ⟨c, hc, hbalanced⟩ := hverify
  obtain ⟨-, hR⟩ := groupCommitment_inv run.commitment
  rw [hR] at hc
  obtain rfl : 0 = c := Except.ok.inj ((challenge_zero _ _).symm.trans hc)
  have hids : pairQuorum.committed.map Commitment.id = [1, 2] := ids_committed pairQuorum
  have hnodup : (residues subOrder (pairQuorum.committed.map Commitment.id)).Nodup := by
    rw [ids_committed]
    exact pairQuorum.nodup_residues
  have hdegree : oneKey.degree < pairQuorum.committed.length :=
    degree_oneKey.trans_le (by exact_mod_cast Nat.le_succ 1)
  rw [balanced_iff hnodup hdegree (List.nodup_singleton _) (by rw [hids]; decide)] at hbalanced
  -- signer 2 has committed to the base point
  have habsent : absent pairQuorum.committed [1] =
      [⟨2, (((1 : ℤ) : ZMod subOrder) • base : subgroup), (((0 : ℤ) : ZMod subOrder) • base : subgroup)⟩] := by
    simp [absent, Quorum.committed, pairQuorum]
  have hmul : ∀ k, zeroSuite.mul k 0 = 0 := fun k => smul_zero _
  rw [habsent, List.map_singleton, List.sum_singleton, keyed_zero, add_zero, bound, Int.cast_zero, zero_smul,
    Int.cast_one, one_smul, AddSubgroup.coe_zero, hmul, add_zero] at hbalanced
  exact BabyJubJub.base8_ne_zero hbalanced

end Kakure.Frost
