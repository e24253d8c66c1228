import Kakure.Frost.Protocol

/-!
# One round of signing

What the functions of the protocol compute when the suite is a group of prime order and the
shares are values of a polynomial.

* `Ciphersuite.PrimeOrder` — what a suite has to be;
* `Quorum` — the signers of a round;
* `bindingFactors_inv` — the binding factors are those of the identifiers;
* `groupCommitment_eq`, `signShareUnchecked_eq` — the commitment and the shares, as multiples and as
  residues;
* `verifySignatureShare_of_eq`, `verify_aggregate` — both checks follow from these.
-/

namespace Kakure.Frost

open Fallible Interpolation Polynomial
open Tss (bigMod residues)

variable {G : Type} (cs : Ciphersuite G)

/-! ## Suites of prime order -/

/-- A suite over a group of prime order: the operations are those of the group on the elements that stand
for its members, scalars being below the order, and the hash functions return scalars when they are
given scalars and members. -/
structure Ciphersuite.PrimeOrder (cs : Ciphersuite G) (q : ℕ) (H : Type) [AddCommGroup H] [Module (ZMod q) H] where
  encode : H → G
  base : H
  order : cs.order = q
  generator : cs.generator = encode base
  identity : cs.identity = encode 0
  add : ∀ P Q, cs.add (encode P) (encode Q) = encode (P + Q)
  scalarMul : ∀ (k : ℤ) P, 0 ≤ k → k < q → cs.scalarMul k (encode P) = encode ((k : ZMod q) • P)
  eq : ∀ P Q, cs.eq (encode P) (encode Q) = true ↔ P = Q
  bindingFactor : ∀ gpk msg (commitments : List (Commitment G)) (id : ℤ), (∀ c ∈ commitments, (0 ≤ c.id ∧ c.id < q) ∧
    (∃ D, c.D = encode D) ∧ ∃ E, c.E = encode E) → 0 ≤ id → id < q →
    ∃ rho : ℤ, cs.bindingFactor (encode gpk) msg commitments id = .ok rho ∧ 0 ≤ rho ∧ rho < q
  challenge : ∀ R gpk msg, ∃ c : ℤ, cs.challenge (encode R) (encode gpk) msg = .ok c ∧ 0 ≤ c ∧ c < q

/-- A signer: its identifier and its nonces. -/
structure Signer extends Nonces where
  id : ℤ

/-- What a signer publishes in the first round. -/
def Signer.commitment (s : Signer) : Commitment G :=
  ⟨s.id, cs.scalarMul s.d cs.generator, cs.scalarMul s.e cs.generator⟩

/-- The handle it keeps. -/
def Signer.handle (s : Signer) : NonceHandle := ⟨s.toNonces, false⟩

/-- The signers of one round: their identifiers are different non-zero scalars, their nonces are scalars. -/
structure Quorum (q : ℕ) where
  signers : List Signer
  nodup : (signers.map Signer.id).Nodup
  id_range : ∀ s ∈ signers, 0 < s.id ∧ s.id < q
  nonce_range : ∀ s ∈ signers, (0 ≤ s.d ∧ s.d < q) ∧ 0 ≤ s.e ∧ s.e < q

/-- The commitments of the round. -/
def Quorum.commitments {q : ℕ} (quorum : Quorum q) : List (Commitment G) :=
  quorum.signers.map (Signer.commitment cs)

section Round

variable {q : ℕ} {cs}

theorem Quorum.ids {quorum : Quorum q} :
    ((quorum.commitments cs).map Commitment.id) = quorum.signers.map Signer.id := by
  rw [Quorum.commitments, List.map_map]
  rfl

theorem Quorum.nodup_residues (quorum : Quorum q) : (residues q (quorum.signers.map Signer.id)).Nodup := by
  refine List.Nodup.map_on ?_ quorum.nodup
  intro i hi j hj hij
  obtain ⟨s, hs, rfl⟩ := List.mem_map.1 hi
  obtain ⟨s', hs', rfl⟩ := List.mem_map.1 hj
  obtain ⟨hpos, hlt⟩ := quorum.id_range s hs
  obtain ⟨hpos', hlt'⟩ := quorum.id_range s' hs'
  exact Tss.eq_of_cast_eq hpos.le hlt hpos'.le hlt' hij

theorem find?_of_nodup {K : Type} {committed : List (Commitment K)} (hnodup : (committed.map Commitment.id).Nodup)
    {k : Commitment K} (hk : k ∈ committed) : (committed.find? fun k' => k'.id = k.id) = some k := by
  cases hfind : committed.find? fun k' => k'.id = k.id with
  | none => simpa using List.find?_eq_none.1 hfind k hk
  | some k' =>
    have hid : k'.id = k.id := by simpa using List.find?_some hfind
    rw [List.inj_on_of_nodup_map hnodup (List.mem_of_find?_eq_some hfind) hk hid]

variable (cs) in
/-- The commitment under a signer's identifier is its own. -/
theorem Quorum.find?_commitments (quorum : Quorum q) {s : Signer} (hs : s ∈ quorum.signers) :
    (quorum.commitments cs).find? (fun k => k.id = s.id) = some (s.commitment cs) := by
  have hnodup : ((quorum.commitments cs).map Commitment.id).Nodup := by
    rw [Quorum.commitments, List.map_map]
    exact quorum.nodup
  exact find?_of_nodup hnodup (List.mem_map_of_mem hs)

variable (cs) in
/-- The commitments in the order of the identifiers. -/
theorem Quorum.sortById_commitments (quorum : Quorum q) : ∃ sorted : List Signer,
    sorted.Perm quorum.signers ∧ sortById (quorum.commitments cs) = sorted.map (Signer.commitment cs) := by
  refine ⟨quorum.signers.mergeSort fun a b => a.id ≤ b.id, List.mergeSort_perm _ _, ?_⟩
  rw [sortById, Quorum.commitments, List.map_mergeSort]
  intro a _ b _
  rfl

/-- The sum of the shares. -/
theorem cast_aggregate (horder : cs.order = q) (R : G) (zs : List ℤ) :
    (((aggregate cs R zs).z : ℤ) : ZMod q) = (residues q zs).sum := by
  have hfold : ∀ (zs : List ℤ) (acc : ℤ),
      ((zs.foldl (fun z zi => bigMod (z + zi) q) acc : ℤ) : ZMod q) = acc + (residues q zs).sum := by
    intro zs
    induction zs with
    | nil => simp
    | cons z zs ih =>
      intro acc
      rw [List.foldl_cons, ih, Tss.cast_bigMod, Int.cast_add, Tss.residues_cons, List.sum_cons, add_assoc]
  rw [aggregate, horder, hfold, Int.cast_zero, zero_add]

variable {H : Type} [AddCommGroup H] [Module (ZMod q) H] (suite : cs.PrimeOrder q H)

/-- The commitment of a signer, in the group. -/
theorem commitment_eq {quorum : Quorum q} {s : Signer} (hs : s ∈ quorum.signers) :
    s.commitment cs = ⟨s.id, suite.encode ((s.d : ZMod q) • suite.base), suite.encode ((s.e : ZMod q) • suite.base)⟩ := by
  obtain ⟨⟨hd, hdlt⟩, he, helt⟩ := quorum.nonce_range s hs
  rw [Signer.commitment, suite.generator, suite.scalarMul _ _ hd hdlt, suite.scalarMul _ _ he helt]

/-- Every commitment in the list gets the binding factor of its identifier. -/
theorem foldlM_bindingStep (gpk : H) (msg : List UInt8) {sorted : List (Commitment G)}
    (hsorted : ∀ c ∈ sorted, (0 ≤ c.id ∧ c.id < q) ∧ (∃ D, c.D = suite.encode D) ∧ ∃ E, c.E = suite.encode E)
    {later : List (Commitment G)} (hlater : ∀ c ∈ later, c ∈ sorted) (acc : ℤ → Option ℤ) : ∃ rhos,
    later.foldlM (bindingStep cs (suite.encode gpk) msg sorted) acc = .ok rhos ∧
      ∀ id, (id ∈ later.map Commitment.id → ∃ rho, rhos id = some rho ∧ 0 ≤ rho ∧ rho < q) ∧
        (id ∉ later.map Commitment.id → rhos id = acc id) := by
  induction later generalizing acc with
  | nil => exact ⟨acc, rfl, fun id => ⟨fun hid => (List.not_mem_nil hid).elim, fun _ => rfl⟩⟩
  | cons c later ih =>
    obtain ⟨⟨hpos, hlt⟩, -⟩ := hsorted c (hlater c List.mem_cons_self)
    obtain ⟨rho, hrho, hrange⟩ := suite.bindingFactor gpk msg sorted c.id hsorted hpos hlt
    have hstep : bindingStep cs (suite.encode gpk) msg sorted acc c = .ok (Function.update acc c.id (some rho)) :=
      bind_of_ok hrho _
    obtain ⟨rhos, hrhos, hspec⟩ := ih (fun d hd => hlater d (List.mem_cons_of_mem c hd))
      (Function.update acc c.id (some rho))
    refine ⟨rhos, by rw [List.foldlM_cons, bind_of_ok hstep, hrhos], fun id => ?_⟩
    obtain ⟨hmem, hnot⟩ := hspec id
    rw [List.map_cons, List.mem_cons]
    by_cases hid : id ∈ later.map Commitment.id
    · exact ⟨fun _ => hmem hid, fun hno => absurd (Or.inr hid) hno⟩
    · constructor
      · intro hor
        obtain rfl : id = c.id := hor.resolve_right hid
        exact ⟨rho, by rw [hnot hid, Function.update_self], hrange⟩
      · intro hno
        rw [not_or] at hno
        rw [hnot hid, Function.update_of_ne hno.1]

omit suite in
/-- A binding factor in the table is the one of its identifier. -/
theorem bindingFactors_inv {gpk : G} {msg : List UInt8} {commitments : List (Commitment G)} {rhos : ℤ → Option ℤ}
    (h : bindingFactors cs gpk msg commitments = .ok rhos) {id rho : ℤ} (hrho : rhos id = some rho) :
    cs.bindingFactor gpk msg (sortById commitments) id = .ok rho := by
  have hfold : ∀ (later : List (Commitment G)) (acc : ℤ → Option ℤ),
      (∀ id rho, acc id = some rho → cs.bindingFactor gpk msg (sortById commitments) id = .ok rho) →
      later.foldlM (bindingStep cs gpk msg (sortById commitments)) acc = .ok rhos →
      ∀ id rho, rhos id = some rho → cs.bindingFactor gpk msg (sortById commitments) id = .ok rho := by
    intro later
    induction later with
    | nil =>
      intro acc hacc h
      cases h
      exact hacc
    | cons k later ih =>
      intro acc hacc h
      rw [List.foldlM_cons] at h
      obtain ⟨acc', hstep, h⟩ := bind_eq_ok.1 h
      obtain ⟨rho', hrho', hstep⟩ := bind_eq_ok.1 hstep
      cases hstep
      refine ih _ (fun id rho hid => ?_) h
      rw [Function.update_apply] at hid
      split at hid
      · rename_i heq
        rw [heq, ← Option.some.inj hid]
        exact hrho'
      · exact hacc id rho hid
  exact hfold _ _ (fun id rho hid => by cases hid) h id rho hrho

/-- The bound nonce of a signer. -/
def Signer.bound (q : ℕ) (rho : ℤ → ℤ) (s : Signer) : ZMod q := s.d + rho s.id * (s.e : ZMod q)

/-- The sum of the bound nonces of a quorum. -/
def Quorum.bound (quorum : Quorum q) (rho : ℤ → ℤ) : ZMod q := (quorum.signers.map (Signer.bound q rho)).sum

/-- The group commitment is the sum of the bound nonces times the base point. -/
theorem groupCommitment_eq {quorum : Quorum q} {rhos : ℤ → Option ℤ} {rho : ℤ → ℤ}
    (hrho : ∀ s ∈ quorum.signers, rhos s.id = some (rho s.id) ∧ 0 ≤ rho s.id ∧ rho s.id < q) :
    groupCommitment cs (quorum.commitments cs) rhos = .ok (suite.encode (quorum.bound rho • suite.base)) := by
  obtain ⟨sorted, hperm, hsorted⟩ := quorum.sortById_commitments cs
  have hfold : ∀ (l : List Signer) (acc : H), (∀ s ∈ l, s ∈ quorum.signers) →
      (l.map (Signer.commitment cs)).foldlM (commitmentStep cs rhos) (suite.encode acc) =
        .ok (suite.encode (acc + (l.map (Signer.bound q rho)).sum • suite.base)) := by
    intro l
    induction l with
    | nil =>
      intro acc _
      simp
      rfl
    | cons s l ih =>
      intro acc hmem
      obtain ⟨hsome, hpos, hlt⟩ := hrho s (hmem s List.mem_cons_self)
      have hstep : commitmentStep cs rhos (suite.encode acc) (s.commitment cs) =
          .ok (suite.encode (acc + s.bound q rho • suite.base)) := by
        rw [commitment_eq suite (hmem s List.mem_cons_self), commitmentStep, hsome]
        simp only
        rw [suite.scalarMul _ _ hpos hlt, suite.add, suite.add, smul_smul, ← add_smul]
        rfl
      rw [List.map_cons, List.foldlM_cons, bind_of_ok hstep, ih _ fun r hr => hmem r (List.mem_cons_of_mem s hr)]
      rw [List.map_cons, List.sum_cons, add_smul _ (List.sum _), add_assoc]
  rw [groupCommitment, hsorted, suite.identity, hfold sorted 0 fun s hs => hperm.mem_iff.1 hs, zero_add,
    Quorum.bound, (hperm.map (Signer.bound q rho)).sum_eq]

/-- What the functions of a round have in common: the binding factors and the challenge. -/
structure Hashed (quorum : Quorum q) (gpk : G) (msg : List UInt8) (rhos : ℤ → Option ℤ) (rho : ℤ → ℤ)
    (c : ℤ) : Prop where
  factors : bindingFactors cs gpk msg (quorum.commitments cs) = .ok rhos
  factor_range : ∀ s ∈ quorum.signers, rhos s.id = some (rho s.id) ∧ 0 ≤ rho s.id ∧ rho s.id < q
  commitment : groupCommitment cs (quorum.commitments cs) rhos = .ok (suite.encode (quorum.bound rho • suite.base))
  challenge_eq : cs.challenge (suite.encode (quorum.bound rho • suite.base)) gpk msg = .ok c
  challenge_range : 0 ≤ c ∧ c < q

/-- The hash functions accept the commitments of a quorum. -/
theorem exists_hashed (quorum : Quorum q) (gpk : H) (msg : List UInt8) :
    ∃ rhos rho c, Hashed suite quorum (suite.encode gpk) msg rhos rho c := by
  obtain ⟨sorted, hperm, hsorted⟩ := quorum.sortById_commitments cs
  have hvalid : ∀ k ∈ sorted.map (Signer.commitment cs),
      (0 ≤ k.id ∧ k.id < q) ∧ (∃ D, k.D = suite.encode D) ∧ ∃ E, k.E = suite.encode E := by
    intro k hk
    obtain ⟨s, hs, rfl⟩ := List.mem_map.1 hk
    rw [hperm.mem_iff] at hs
    rw [commitment_eq suite hs]
    obtain ⟨hpos, hlt⟩ := quorum.id_range s hs
    exact ⟨⟨hpos.le, hlt⟩, ⟨_, rfl⟩, _, rfl⟩
  obtain ⟨rhos, hrhos, hspec⟩ := foldlM_bindingStep suite gpk msg hvalid (fun _ hk => hk) fun _ => none
  have hfactor : ∀ s ∈ quorum.signers, rhos s.id = some ((rhos s.id).getD 0) ∧
      0 ≤ (rhos s.id).getD 0 ∧ (rhos s.id).getD 0 < q := by
    intro s hs
    have hid : s.id ∈ (sorted.map (Signer.commitment cs)).map Commitment.id := by
      rw [List.map_map]
      exact List.mem_map_of_mem (f := Commitment.id ∘ Signer.commitment cs) (hperm.mem_iff.2 hs)
    obtain ⟨rho, hrho, hrange⟩ := (hspec s.id).1 hid
    have hget : (rhos s.id).getD 0 = rho := by rw [hrho, Option.getD_some]
    rw [hget]
    exact ⟨hrho, hrange⟩
  obtain ⟨c, hc, hrange⟩ := suite.challenge (quorum.bound (fun id => (rhos id).getD 0) • suite.base) gpk msg
  refine ⟨rhos, fun id => (rhos id).getD 0, c, ?_, hfactor, groupCommitment_eq suite hfactor, hc, hrange⟩
  rw [bindingFactors, hsorted]
  exact hrhos

variable [Fact q.Prime] {suite} {quorum : Quorum q} {gpk : G} {msg : List UInt8} {rhos : ℤ → Option ℤ} {rho : ℤ → ℤ} {c : ℤ}

/-- The share of a signer. -/
theorem signShareUnchecked_eq (h : Hashed suite quorum gpk msg rhos rho c) {s : Signer}
    (hs : s ∈ quorum.signers) (share : ℤ) :
    ∃ z, signShareUnchecked cs s.id s.toNonces share gpk msg (quorum.commitments cs) = .ok z ∧
      (0 ≤ z ∧ z < q) ∧ (z : ZMod q) = s.bound q rho +
        c * (weight (residues q (quorum.signers.map Signer.id)) (s.id : ZMod q) * share) := by
  obtain ⟨l, hl, hweight⟩ := lagrangeCoefficient_eq suite.order (List.mem_map_of_mem hs) quorum.nodup_residues
  refine ⟨bigMod (s.d + bigMod (s.e * rho s.id) q + bigMod (bigMod (l * share) q * c) q) q, ?_,
    ⟨Tss.bigMod_nonneg order_pos _, Tss.bigMod_lt order_pos _⟩, ?_⟩
  · rw [signShareUnchecked, bind_of_ok h.factors, bind_of_ok h.commitment, bind_of_ok h.challenge_eq,
      Quorum.ids, bind_of_ok hl]
    simp only [(h.factor_range s hs).1, suite.order]
  · simp only [Tss.cast_bigMod, Int.cast_add, Int.cast_mul, hweight, Signer.bound]
    ring

/-- The check of a share, as an equation between multiples of the base point. -/
theorem verifySignatureShare_iff (h : Hashed suite quorum gpk msg rhos rho c) {s : Signer}
    (hs : s ∈ quorum.signers) {z : ℤ} (hz : 0 ≤ z ∧ z < q) (share : ZMod q) : ∃ ok,
    verifySignatureShare cs s.id z (suite.encode (share • suite.base)) gpk msg (quorum.commitments cs) = .ok ok ∧
      (ok = true ↔ (z : ZMod q) • suite.base = (s.bound q rho +
        c * (weight (residues q (quorum.signers.map Signer.id)) (s.id : ZMod q) * share)) • suite.base) := by
  obtain ⟨l, hl, hweight⟩ := lagrangeCoefficient_eq suite.order (List.mem_map_of_mem hs) quorum.nodup_residues
  obtain ⟨hrho, hpos, hlt⟩ := h.factor_range s hs
  have hfind := Quorum.find?_commitments cs quorum hs
  refine ⟨_, ?_, Iff.rfl.trans (suite.eq _ _)⟩
  rw [verifySignatureShare, bind_of_ok h.factors, bind_of_ok h.commitment, bind_of_ok h.challenge_eq]
  simp only [hfind, hrho]
  rw [Quorum.ids, bind_of_ok hl, commitment_eq suite hs, Except.ok.injEq, suite.generator, suite.order]
  simp only
  rw [suite.scalarMul _ _ hz.1 hz.2, suite.scalarMul _ _ hpos hlt, suite.add,
    suite.scalarMul _ _ (Tss.bigMod_nonneg order_pos _) (Tss.bigMod_lt order_pos _), suite.add]
  rw [Tss.cast_bigMod, Int.cast_mul, hweight]
  simp only [add_smul, mul_smul, Signer.bound]

/-- A share with the right residue passes its check. -/
theorem verifySignatureShare_of_eq (h : Hashed suite quorum gpk msg rhos rho c) {s : Signer}
    (hs : s ∈ quorum.signers) {z : ℤ} (hz : 0 ≤ z ∧ z < q) {share : ZMod q}
    (hvalue : (z : ZMod q) = s.bound q rho +
      c * (weight (residues q (quorum.signers.map Signer.id)) (s.id : ZMod q) * share)) :
    verifySignatureShare cs s.id z (suite.encode (share • suite.base)) gpk msg (quorum.commitments cs) = .ok true := by
  obtain ⟨ok, hok, hiff⟩ := verifySignatureShare_iff h hs hz share
  have htrue : ok = true := hiff.2 (by rw [hvalue])
  rw [hok, htrue]

omit suite [Fact q.Prime] in
/-- The loop over the identifiers fails on none when they are different. -/
theorem foldlM_seenStep {partials : List (Partial G)} (hnodup : (partials.map Partial.id).Nodup) (seen : List ℤ)
    (hseen : ∀ s ∈ partials, s.id ∉ seen) :
    ∃ seen', partials.foldlM seenStep seen = .ok seen' ∧ seen'.length = seen.length + partials.length := by
  induction partials generalizing seen with
  | nil => exact ⟨seen, rfl, rfl⟩
  | cons s partials ih =>
    rw [List.map_cons, List.nodup_cons] at hnodup
    have hstep : seenStep seen s = .ok (s.id :: seen) := if_neg (hseen s List.mem_cons_self)
    obtain ⟨seen', hseen', hlength⟩ := ih hnodup.2 (s.id :: seen) fun r hr => by
      rw [List.mem_cons, not_or]
      refine ⟨fun heq => hnodup.1 ?_, hseen r (List.mem_cons_of_mem s hr)⟩
      rw [← heq]
      exact List.mem_map_of_mem hr
    refine ⟨seen', by rw [List.foldlM_cons, bind_of_ok hstep, hseen'], ?_⟩
    rw [hlength, List.length_cons, List.length_cons]
    omega

omit suite [Fact q.Prime] in
/-- Enough shares of different signers that all pass are added up. -/
theorem coordinatorAggregate_eq {R : G} {commitments : List (Commitment G)} {partials : List (Partial G)} {threshold : ℕ}
    (hnodup : (partials.map Partial.id).Nodup) (ht : threshold ≤ partials.length)
    (hverified : ∀ s ∈ partials, verifySignatureShare cs s.id s.z s.publicShare gpk msg commitments = .ok true) :
    coordinatorAggregate cs R gpk msg commitments partials threshold = .ok (aggregate cs R (partials.map Partial.z)) := by
  obtain ⟨seen, hseen, hlength⟩ := foldlM_seenStep hnodup [] fun _ _ => List.not_mem_nil
  have hsteps : ∀ l : List (Partial G), (∀ s ∈ l, s ∈ partials) →
      l.forM (verifyStep cs gpk msg commitments) = .ok () := by
    intro l
    induction l with
    | nil => exact fun _ => rfl
    | cons s l ih =>
      intro hmem
      have hstep : verifyStep cs gpk msg commitments s = .ok () := bind_of_ok (hverified s (hmem s List.mem_cons_self)) _
      exact (bind_of_ok hstep _).trans (ih fun r hr => hmem r (List.mem_cons_of_mem s hr))
  rw [List.length_nil, zero_add] at hlength
  rw [coordinatorAggregate, bind_of_ok hseen, if_neg (by omega), bind_of_ok (hsteps partials fun s hs => hs)]

omit suite [Fact q.Prime] in
/-- One share that does not pass is an error. -/
theorem coordinatorAggregate_error {R : G} {commitments : List (Commitment G)} {s : Partial G} {threshold : ℕ}
    (hrefused : verifySignatureShare cs s.id s.z s.publicShare gpk msg commitments = .ok false) :
    ∃ e, coordinatorAggregate cs R gpk msg commitments [s] threshold = .error e := by
  rw [coordinatorAggregate, bind_of_ok (rfl : [s].foldlM seenStep [] = .ok [s.id])]
  split_ifs
  · exact ⟨_, rfl⟩
  · have hstep : verifyStep cs gpk msg commitments s =
        .error s!"frost: signature share from signer {s.id} failed verification (identifiable abort)" :=
      bind_of_ok hrefused _
    have hloop : [s].forM (verifyStep cs gpk msg commitments) = .error
        s!"frost: signature share from signer {s.id} failed verification (identifiable abort)" := by
      change (verifyStep cs gpk msg commitments s >>= fun _ => [].forM (verifyStep cs gpk msg commitments)) = _
      rw [hstep]
      rfl
    rw [hloop]
    exact ⟨_, rfl⟩

omit suite in
theorem aggregate_range (suite : cs.PrimeOrder q H) (R : G) (zs : List ℤ) :
    (0 ≤ (aggregate cs R zs).z ∧ (aggregate cs R zs).z < q) ∧
      (((aggregate cs R zs).z : ℤ) : ZMod q) = (residues q zs).sum := by
  have hfold : ∀ (zs : List ℤ) (acc : ℤ), 0 ≤ acc ∧ acc < q →
      0 ≤ zs.foldl (fun z zi => bigMod (z + zi) q) acc ∧ zs.foldl (fun z zi => bigMod (z + zi) q) acc < q := by
    intro zs
    induction zs with
    | nil => exact fun acc hacc => hacc
    | cons z zs ih => exact fun acc _ => ih _ ⟨Tss.bigMod_nonneg order_pos _, Tss.bigMod_lt order_pos _⟩
  refine ⟨?_, cast_aggregate suite.order R zs⟩
  rw [aggregate, suite.order]
  exact hfold zs 0 ⟨le_rfl, by exact_mod_cast order_pos⟩

/-! ## A whole round -/

/-- A key shared by a polynomial. -/
structure Sharing (q : ℕ) where
  threshold : ℕ
  polynomial : (ZMod q)[X]
  degree_lt : polynomial.degree < threshold

/-- A secret alone is a polynomial of threshold one. -/
theorem degree_solo {q : ℕ} (secret : ZMod q) : (C secret).degree < (1 : ℕ) := degree_C_lt

/-- The share of a participant. -/
noncomputable def Sharing.share {q : ℕ} (sharing : Sharing q) (id : ℤ) : ℤ := (sharing.polynomial.eval (id : ZMod q)).val

/-- The public share of a participant. -/
noncomputable def Sharing.publicShare (suite : cs.PrimeOrder q H) (sharing : Sharing q) (id : ℤ) : G :=
  suite.encode (sharing.polynomial.eval (id : ZMod q) • suite.base)

/-- The key of the group. -/
noncomputable def Sharing.groupKey (suite : cs.PrimeOrder q H) (sharing : Sharing q) : G :=
  suite.encode (sharing.polynomial.eval 0 • suite.base)

variable (cs) in
/-- The signature of a round: the shares of all its signers, added up. -/
def Quorum.signature (quorum : Quorum q) (share : ℤ → ℤ) (gpk : G) (msg : List UInt8) :
    Except String (Signature G) := do
  let rhos ← bindingFactors cs gpk msg (quorum.commitments cs)
  let R ← groupCommitment cs (quorum.commitments cs) rhos
  let zs ← quorum.signers.mapM fun s => (signShare cs s.id s.handle (share s.id) gpk msg (quorum.commitments cs)).1
  .ok (aggregate cs R zs)

omit suite in
theorem Sharing.cast_share (sharing : Sharing q) (id : ℤ) :
    ((sharing.share id : ℤ) : ZMod q) = sharing.polynomial.eval (id : ZMod q) := by
  rw [Sharing.share, Int.cast_natCast, ZMod.natCast_zmod_val]

/-- The shares of enough signers add up to a signature under the shared key. -/
theorem sum_of_shares {sharing : Sharing q} (ht : sharing.threshold ≤ quorum.signers.length) {z : Signer → ℤ}
    (hz : ∀ s ∈ quorum.signers, (z s : ZMod q) = s.bound q rho +
      c * (weight (residues q (quorum.signers.map Signer.id)) (s.id : ZMod q) * sharing.polynomial.eval (s.id : ZMod q))) :
    (residues q (quorum.signers.map z)).sum = quorum.bound rho + c * sharing.polynomial.eval 0 := by
  have hdegree : sharing.polynomial.degree < (residues q (quorum.signers.map Signer.id)).length := by
    refine lt_of_lt_of_le sharing.degree_lt ?_
    rw [residues, List.length_map, List.length_map]
    exact_mod_cast ht
  have hnodes : ∀ g : ZMod q → ZMod q, (residues q (quorum.signers.map Signer.id)).map g =
      quorum.signers.map fun s => g (s.id : ZMod q) := by
    intro g
    rw [residues, List.map_map, List.map_map]
    rfl
  rw [← sum_weight_mul_eval quorum.nodup_residues hdegree, ← List.sum_map_mul_left, Quorum.bound, hnodes,
    ← List.sum_map_add, residues, List.map_map]
  refine congrArg List.sum (List.map_congr_left fun s hs => ?_)
  exact hz s hs

/-- The equation of a signature. -/
structure Signature.Holds (suite : cs.PrimeOrder q H) (secret : ZMod q) (c : ℤ) (sig : Signature G) (r : ZMod q) :
    Prop where
  R : sig.R = suite.encode (r • suite.base)
  z_range : 0 ≤ sig.z ∧ sig.z < q
  z : (sig.z : ZMod q) = r + c * secret

/-- A signature whose equation holds passes. -/
theorem verify_of_holds {secret r : ZMod q} {sig : Signature G} (hsig : sig.Holds suite secret c r)
    (hc : cs.challenge (suite.encode (r • suite.base)) (suite.encode (secret • suite.base)) msg = .ok c)
    (hrange : 0 ≤ c ∧ c < q) : verify cs (suite.encode (secret • suite.base)) msg sig = .ok true := by
  rw [verify, hsig.R, bind_of_ok hc, Except.ok.injEq, suite.generator,
    suite.scalarMul _ _ hsig.z_range.1 hsig.z_range.2, suite.scalarMul _ _ hrange.1 hrange.2, suite.add, suite.eq,
    hsig.z, add_smul, mul_smul]

/-- Every signer's share is returned and passes its check. -/
theorem signShare_verified (sharing : Sharing q) (h : Hashed suite quorum (sharing.groupKey suite) msg rhos rho c)
    {s : Signer} (hs : s ∈ quorum.signers) :
    ∃ z, signShare cs s.id s.handle (sharing.share s.id) (sharing.groupKey suite) msg (quorum.commitments cs) =
        (.ok z, { s.handle with consumed := true }) ∧
      verifySignatureShare cs s.id z (sharing.publicShare suite s.id) (sharing.groupKey suite) msg
        (quorum.commitments cs) = .ok true ∧
      (z : ZMod q) = s.bound q rho + c * (weight (residues q (quorum.signers.map Signer.id)) (s.id : ZMod q) *
        sharing.polynomial.eval (s.id : ZMod q)) := by
  obtain ⟨z, hz, hrange, hvalue⟩ := signShareUnchecked_eq h hs (sharing.share s.id)
  rw [sharing.cast_share] at hvalue
  refine ⟨z, ?_, verifySignatureShare_of_eq h hs hrange hvalue, hvalue⟩
  exact congrArg (fun result => (result, _)) hz

/-- The signature of a round of enough signers. -/
theorem signature_eq (sharing : Sharing q) (h : Hashed suite quorum (sharing.groupKey suite) msg rhos rho c)
    (ht : sharing.threshold ≤ quorum.signers.length) :
    ∃ sig, quorum.signature cs sharing.share (sharing.groupKey suite) msg = .ok sig ∧
      sig.Holds suite (sharing.polynomial.eval 0) c (quorum.bound rho) := by
  choose! z hz _ hvalue using fun s hs => signShare_verified (s := s) sharing h hs
  have hshares : (quorum.signers.mapM fun s => (signShare cs s.id s.handle (sharing.share s.id)
      (sharing.groupKey suite) msg (quorum.commitments cs)).1) = .ok (quorum.signers.map z) :=
    mapM_eq_ok fun s hs => congrArg Prod.fst (hz s hs)
  obtain ⟨hrange, hsum⟩ := aggregate_range suite (suite.encode (quorum.bound rho • suite.base)) (quorum.signers.map z)
  refine ⟨_, ?_, rfl, hrange, ?_⟩
  · rw [Quorum.signature, bind_of_ok h.factors, bind_of_ok h.commitment, bind_of_ok hshares]
  · rw [hsum, sum_of_shares ht hvalue]

/-- The order in which shares are added up does not matter. -/
theorem aggregate_perm (suite : cs.PrimeOrder q H) (R : G) {zs zs' : List ℤ} (h : zs.Perm zs') :
    aggregate cs R zs = aggregate cs R zs' := by
  obtain ⟨⟨hpos, hlt⟩, hsum⟩ := aggregate_range suite R zs
  obtain ⟨⟨hpos', hlt'⟩, hsum'⟩ := aggregate_range suite R zs'
  have hz : (aggregate cs R zs).z = (aggregate cs R zs').z := by
    apply Tss.eq_of_cast_eq hpos hlt hpos' hlt'
    rw [hsum, hsum']
    exact (h.map _).sum_eq
  exact congrArg (Signature.mk R) hz

end Round

end Kakure.Frost
