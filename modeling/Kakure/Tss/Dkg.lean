import Kakure.Tss.Hash
import Kakure.Tss.Shamir

/-!
# The distributed key generation

`packages/sdk/src/tss/vss.ts` and `dkg.ts`.  A dealer commits to the coefficients of a
polynomial and sends each participant a value of it; a participant checks its value against
the commitments; the values and the first commitments of all dealers are added up.  Random
scalars are arguments here.

* `dealerContribute_verified` — an honest contribution is accepted;
* `feldmanVerifyShare_iff` — the check, as an equation between multiples of the base point;
* `aggregate_verified`, `aggregate_eq` — the sums;
* `commitsTo_iff` — what commitments anywhere on the curve commit to;
* `dkg_agreement_iff` — when the sums are shares of one key with the given threshold: the check
  bounds the degree of nothing, a dealer chooses how many coefficients there are, and the points are
  asked to be nowhere.
-/

namespace Kakure.Tss

open Fallible Interpolation Polynomial

open BabyJubJub (subgroup base)

variable (poseidon : List Fr → Fr) (lib : Library)

/-- `FROST_POP_DOMAIN`. -/
def frostPopDomain : ℤ := 0x209e21dad378253bec05dec69c0ba1062a1318dee1fc00b7c6060603abe6db36

/-! ## Verifiable sharing -/

/-- `feldmanCommit`. -/
def feldmanCommit (coeffs : List ℤ) : List Point := coeffs.map (scalarBaseMul lib)

/-- One step of the loop of `feldmanVerifyShare`. -/
def feldmanStep (i : ℤ) (acc : Point × ℤ) (com : Point) : Point × ℤ :=
  (pointAdd lib acc.1 (scalarMul lib acc.2 com), modSub lib (acc.2 * i))

/-- `feldmanVerifyShare`. -/
def feldmanVerifyShare (i share : ℤ) (commitments : List Point) : Bool :=
  pointEq (scalarBaseMul lib share) (commitments.foldl (feldmanStep lib i) (identity, 1)).1

/-! ## Dealers -/

/-- `SchnorrPoP`. -/
structure SchnorrPoP where
  R : Point
  z : ℤ

/-- `DealerContribution`. -/
structure DealerContribution where
  id : ℤ
  commitments : List Point
  pop : SchnorrPoP
  shares : ℤ → Option ℤ

/-- `popChallenge`. -/
def popChallenge (id context : ℤ) (com0 R : Point) : Except String ℤ :=
  hashToScalar poseidon lib frostPopDomain [id, context, com0.1, com0.2, R.1, R.2]

/-- `provePoP`, with the random scalar `k`. -/
def provePoP (k id context secret : ℤ) (commitment : Point) : Except String SchnorrPoP := do
  let R := scalarBaseMul lib k
  let e ← popChallenge poseidon lib id context commitment R
  .ok ⟨R, modSub lib (k + e * secret)⟩

/-- `verifyPoP`. -/
def verifyPoP (id context : ℤ) (commitments : List Point) (pop : SchnorrPoP) : Except String Bool :=
  match commitments with
  | [] => .error "TypeError: commitments[0] is undefined"
  | com0 :: _ => do
    let e ← popChallenge poseidon lib id context com0 pop.R
    let lhs := scalarBaseMul lib pop.z
    let rhs := pointAdd lib pop.R (scalarMul lib e com0)
    .ok (pointEq lhs rhs)

/-- `dealerContribute`, with the random scalars `coeffs` and `k`. -/
def dealerContribute (coeffs : List ℤ) (k id : ℤ) (participants : List ℤ) (context : ℤ) :
    Except String DealerContribution :=
  match coeffs with
  | [] => .error "TypeError: commitments[0] is undefined"
  | secret :: _ => do
    let commitments := feldmanCommit lib coeffs
    let pop ← provePoP poseidon lib k id context secret (commitments.headD identity)
    .ok ⟨id, commitments, pop, fun j => if j ∈ participants then some (polyEval lib coeffs j) else none⟩

/-- `verifyContribution`. -/
def verifyContribution (recipientId : ℤ) (contribution : DealerContribution) (context : ℤ) :
    Except String Bool :=
  if contribution.commitments.length = 0 then .ok false
  else
    match contribution.shares recipientId with
    | none => .ok false
    | some share =>
      if !feldmanVerifyShare lib recipientId share contribution.commitments then .ok false
      else verifyPoP poseidon lib contribution.id context contribution.commitments contribution.pop

/-! ## The result -/

/-- `DkgResult`. -/
structure DkgResult where
  C : Point
  shares : ℤ → Option ℤ
  V : ℤ → Option Point
  qual : List ℤ

/-- One step of the loop for `C`. -/
def addCommitment (C : Point) (c : DealerContribution) : Except String Point :=
  match c.commitments with
  | [] => .error "TypeError: commitments[0] is undefined"
  | com0 :: _ => .ok (pointAdd lib C com0)

/-- One step of the loop over the dealers for the share of participant `i`. -/
def addShare (i ci : ℤ) (c : DealerContribution) : Except String ℤ :=
  match c.shares i with
  | none => .error s!"dkg: QUAL dealer {c.id} missing share for {i}"
  | some s => .ok (modSub lib (ci + s))

/-- One step of the loop over the participants. -/
def setShare (qualContributions : List DealerContribution) (acc : (ℤ → Option ℤ) × (ℤ → Option Point))
    (i : ℤ) : Except String ((ℤ → Option ℤ) × (ℤ → Option Point)) := do
  let ci ← qualContributions.foldlM (addShare lib i) 0
  .ok (Function.update acc.1 i (some ci), Function.update acc.2 i (some (scalarBaseMul lib ci)))

/-- `aggregate`. -/
def aggregate (participants : List ℤ) (qualContributions : List DealerContribution) :
    Except String DkgResult := do
  let C ← qualContributions.foldlM (addCommitment lib) identity
  let (shares, V) ← participants.foldlM (setShare lib qualContributions) (fun _ => none, fun _ => none)
  .ok ⟨C, shares, V, qualContributions.map DealerContribution.id⟩

/-! ## What the check establishes -/

/-- The coordinates of points of the subgroup. -/
def coordsOf (points : List subgroup) : List Point := points.map fun P : subgroup => coords P

/-- The point that commitments give at `x`.  The loop reduces the power, so that outside the subgroup
the multiple is by the reduced number. -/
def valueFrom (x : ZMod subOrder) : ZMod subOrder → List BabyJubJub.Point → BabyJubJub.Point
  | _, [] => 0
  | power, P :: points => power.val • P + valueFrom x (power * x) points

/-- In the subgroup it is the value of the polynomial. -/
theorem valueFrom_subgroup (x power : ZMod subOrder) (points : List subgroup) :
    valueFrom x power (points.map Subtype.val) = ((power • evalAt points x : subgroup) : BabyJubJub.Point) := by
  induction points generalizing power with
  | nil => simp [valueFrom, evalAt]
  | cons P points ih =>
    have hP : power.val • (P : BabyJubJub.Point) = ((power • P : subgroup) : BabyJubJub.Point) := by
      rw [← BabyJubJub.coe_natCast_smul, ZMod.natCast_zmod_val]
    rw [List.map_cons, valueFrom, ih, hP, evalAt, smul_add, mul_smul]
    rfl

/-- At zero only the first commitment is left. -/
theorem valueFrom_zero (points : List BabyJubJub.Point) : valueFrom 0 1 points = points.headD 0 := by
  have hrest : ∀ points, valueFrom 0 0 points = 0 := by
    intro points
    induction points with
    | nil => rfl
    | cons P points ih => rw [valueFrom, ZMod.val_zero, zero_smul, zero_add, zero_mul, ih]
  cases points with
  | nil => rfl
  | cons P points =>
    have hone : (1 : ZMod subOrder).val = 1 := ZMod.val_one _
    rw [valueFrom, hone, one_smul, mul_zero, hrest, add_zero, List.headD_cons]

/-- The right-hand side of the check. -/
def feldmanValue (i : ℤ) (commitments : List Point) : Point :=
  (commitments.foldl (feldmanStep lib i) (identity, 1)).1

/-- The first commitment. -/
def firstCommitment (c : DealerContribution) : Point := c.commitments.headD identity

/-- Points, added up one after the other. -/
def sumOf (points : List Point) : Point := points.foldl (pointAdd lib) identity

/-- What the dealers commit to together: their first commitments add up to the value at zero, and what
their commitments give at an identifier adds up to the value there. -/
structure CommitsTo (dealers : List DealerContribution) (participants : List ℤ)
    (values : ZMod subOrder → subgroup) : Prop where
  key : sumOf lib (dealers.map firstCommitment) = coords (values 0)
  share : ∀ i ∈ participants, sumOf lib (dealers.map fun c => feldmanValue lib i c.commitments) = coords (values i)

section Meaning

variable {lib} (h : lib.Lawful)

include h

theorem foldl_feldmanStep_points (i : ℤ) (points : List BabyJubJub.Point) (acc : BabyJubJub.Point) (ipow : ℤ) :
    ((points.map coords).foldl (feldmanStep lib i) (coords acc, ipow)).1 =
      coords (acc + valueFrom (i : ZMod subOrder) (ipow : ZMod subOrder) points) := by
  induction points generalizing acc ipow with
  | nil => simp [valueFrom]
  | cons P points ih =>
    have hstep : feldmanStep lib i (coords acc, ipow) (coords P) =
        (coords (acc + (ipow : ZMod subOrder).val • P), modSub lib (ipow * i)) := by
      rw [feldmanStep, scalarMul_point h, pointAdd_coords h]
    rw [List.map_cons, List.foldl_cons, hstep, ih, cast_modSub h, Int.cast_mul, valueFrom, add_assoc]

theorem foldl_feldmanStep (i : ℤ) (points : List subgroup) (acc : subgroup) (ipow : ℤ) :
    ((coordsOf points).foldl (feldmanStep lib i) (coords acc, ipow)).1 =
      coords (acc + (ipow : ZMod subOrder) • evalAt points (i : ZMod subOrder) : subgroup) := by
  have hcoords : coordsOf points = (points.map Subtype.val).map coords := by
    rw [coordsOf, List.map_map]
    rfl
  rw [hcoords, foldl_feldmanStep_points h, valueFrom_subgroup]
  rfl

/-- The check, whatever the commitments are. -/
theorem feldmanVerifyShare_eq_true_iff (i share : ℤ) (commitments : List Point) :
    feldmanVerifyShare lib i share commitments = true ↔
      coords ((share : ZMod subOrder) • base : subgroup) = feldmanValue lib i commitments := by
  rw [feldmanVerifyShare, pointEq_iff, scalarBaseMul_eq h, feldmanValue]

theorem feldmanValue_coords (i : ℤ) (points : List BabyJubJub.Point) :
    feldmanValue lib i (points.map coords) = coords (valueFrom (i : ZMod subOrder) 1 points) := by
  have hfold := foldl_feldmanStep_points h i points 0 1
  rwa [Int.cast_one, zero_add, ← identity_eq] at hfold

/-- The share times the base point is the value of the committed polynomial. -/
theorem feldmanVerifyShare_iff (i share : ℤ) (points : List subgroup) :
    feldmanVerifyShare lib i share (coordsOf points) = true ↔
      (share : ZMod subOrder) • base = evalAt points (i : ZMod subOrder) := by
  have hfold := foldl_feldmanStep h i points 0 1
  rw [Int.cast_one, one_smul, zero_add] at hfold
  have hzero : identity = coords (0 : subgroup) := identity_eq
  rw [feldmanVerifyShare_eq_true_iff h, feldmanValue, hzero, hfold, coords_injective.eq_iff]
  exact Subtype.coe_injective.eq_iff

theorem feldmanCommit_eq (coeffs : List ℤ) :
    feldmanCommit lib coeffs = coordsOf ((residues subOrder coeffs).map fun c => c • base) := by
  rw [feldmanCommit, coordsOf, residues, List.map_map, List.map_map]
  exact List.map_congr_left fun c _ => scalarBaseMul_eq h c

/-- The proof of an honest dealer is accepted. -/
theorem verifyPoP_provePoP {k id context secret : ℤ} (coms : List Point) {pop : SchnorrPoP}
    (hpop : provePoP poseidon lib k id context secret (scalarBaseMul lib secret) = .ok pop) :
    verifyPoP poseidon lib id context (scalarBaseMul lib secret :: coms) pop = .ok true := by
  rw [provePoP, bind_eq_ok] at hpop
  obtain ⟨e, he, hpop⟩ := hpop
  cases hpop
  rw [verifyPoP, bind_of_ok he, Except.ok.injEq, pointEq_iff]
  rw [scalarBaseMul_eq h, scalarBaseMul_eq h, scalarBaseMul_eq h, scalarMul_coords h, pointAdd_coords h,
    cast_modSub h]
  push_cast
  rw [add_smul, mul_smul]
  rfl

/-- An honest dealer's contribution is accepted by every participant. -/
theorem dealerContribute_verified {coeffs participants : List ℤ} {k id context : ℤ} {c : DealerContribution}
    (hc : dealerContribute poseidon lib coeffs k id participants context = .ok c) :
    c.commitments = coordsOf ((residues subOrder coeffs).map fun a => a • base) ∧
      ∀ i ∈ participants, c.shares i = some (polyEval lib coeffs i) ∧
        verifyContribution poseidon lib i c context = .ok true := by
  cases coeffs with
  | nil => cases hc
  | cons secret coeffs =>
    rw [dealerContribute, bind_eq_ok] at hc
    obtain ⟨pop, hpop, hc⟩ := hc
    cases hc
    have hcommit := feldmanCommit_eq h (secret :: coeffs)
    refine ⟨hcommit, fun i hi => ⟨if_pos hi, ?_⟩⟩
    have hshare : feldmanVerifyShare lib i (polyEval lib (secret :: coeffs) i)
        (feldmanCommit lib (secret :: coeffs)) = true := by
      rw [hcommit, feldmanVerifyShare_iff h, evalAt_map_smul, cast_polyEval h]
    rw [verifyContribution, if_neg (by simp [feldmanCommit])]
    simp only [if_pos hi]
    rw [hshare]
    exact verifyPoP_provePoP poseidon h (feldmanCommit lib coeffs) hpop

variable {poseidon}

/-- What a participant who accepts a contribution knows. -/
theorem share_of_verified {i context : ℤ} {c : DealerContribution}
    (hverified : verifyContribution poseidon lib i c context = .ok true) :
    c.commitments ≠ [] ∧ ∃ s, c.shares i = some s ∧
      coords ((s : ZMod subOrder) • base : subgroup) = feldmanValue lib i c.commitments := by
  rw [verifyContribution] at hverified
  split at hverified
  · cases hverified
  · rename_i hlength
    split at hverified
    · cases hverified
    · rename_i s hs
      split at hverified
      · cases hverified
      · rename_i hfeldman
        refine ⟨fun hnil => hlength (List.length_eq_zero_iff.2 hnil), s, hs, ?_⟩
        rw [← feldmanVerifyShare_eq_true_iff h]
        simpa using hfeldman

/-! ## The sums -/

omit h in
/-- The sum of the first commitments. -/
theorem foldlM_addCommitment {dealers : List DealerContribution} (hne : ∀ c ∈ dealers, c.commitments ≠ [])
    (acc : Point) : dealers.foldlM (addCommitment lib) acc =
      .ok ((dealers.map firstCommitment).foldl (pointAdd lib) acc) := by
  induction dealers generalizing acc with
  | nil => rfl
  | cons c dealers ih =>
    obtain ⟨com0, rest, hc⟩ := List.exists_cons_of_ne_nil (hne c List.mem_cons_self)
    have hstep : addCommitment lib acc c = .ok (pointAdd lib acc (firstCommitment c)) := by
      rw [addCommitment, firstCommitment, hc]
      rfl
    rw [List.foldlM_cons, bind_of_ok hstep, ih fun d hd => hne d (List.mem_cons_of_mem c hd)]
    rfl

/-- The sum of the shares of one participant. -/
theorem foldlM_addShare {dealers : List DealerContribution} {i : ℤ}
    (hshares : ∀ c ∈ dealers, ∃ s, c.shares i = some s ∧
      coords ((s : ZMod subOrder) • base : subgroup) = feldmanValue lib i c.commitments) (acc : ℤ) :
    ∃ ci, dealers.foldlM (addShare lib i) acc = .ok ci ∧
      (dealers.map fun c => feldmanValue lib i c.commitments).foldl (pointAdd lib)
        (coords ((acc : ZMod subOrder) • base : subgroup)) = coords ((ci : ZMod subOrder) • base : subgroup) := by
  induction dealers generalizing acc with
  | nil => exact ⟨acc, rfl, rfl⟩
  | cons c dealers ih =>
    obtain ⟨s, hs, hvalue⟩ := hshares c List.mem_cons_self
    have hstep : addShare lib i acc c = .ok (modSub lib (acc + s)) := by rw [addShare, hs]
    obtain ⟨ci, hci, hsum⟩ := ih (fun d hd => hshares d (List.mem_cons_of_mem c hd)) (modSub lib (acc + s))
    refine ⟨ci, by rw [List.foldlM_cons, bind_of_ok hstep, hci], ?_⟩
    rw [cast_modSub h, Int.cast_add, add_smul] at hsum
    rw [List.map_cons, List.foldl_cons, ← hvalue, pointAdd_coords h]
    exact hsum

omit h in
/-- The loop over the participants fills both maps. -/
theorem foldlM_setShare {dealers : List DealerContribution} {participants : List ℤ} {ci : ℤ → ℤ}
    (hci : ∀ i ∈ participants, dealers.foldlM (addShare lib i) 0 = .ok (ci i))
    (acc : (ℤ → Option ℤ) × (ℤ → Option Point)) : ∃ res,
    participants.foldlM (setShare lib dealers) acc = .ok res ∧
      ∀ i, (i ∈ participants → res.1 i = some (ci i) ∧ res.2 i = some (scalarBaseMul lib (ci i))) ∧
        (i ∉ participants → res.1 i = acc.1 i ∧ res.2 i = acc.2 i) := by
  induction participants generalizing acc with
  | nil => exact ⟨acc, rfl, fun i => ⟨fun hi => (List.not_mem_nil hi).elim, fun _ => ⟨rfl, rfl⟩⟩⟩
  | cons j participants ih =>
    have hstep : setShare lib dealers acc j = .ok (Function.update acc.1 j (some (ci j)),
        Function.update acc.2 j (some (scalarBaseMul lib (ci j)))) :=
      bind_of_ok (hci j List.mem_cons_self) _
    obtain ⟨res, hres, hspec⟩ := ih (fun i hi => hci i (List.mem_cons_of_mem j hi))
      (Function.update acc.1 j (some (ci j)), Function.update acc.2 j (some (scalarBaseMul lib (ci j))))
    refine ⟨res, by rw [List.foldlM_cons, bind_of_ok hstep, hres], fun i => ⟨fun hi => ?_, fun hi => ?_⟩⟩
    · by_cases hmem : i ∈ participants
      · exact (hspec i).1 hmem
      · obtain rfl : i = j := (List.mem_cons.1 hi).resolve_right hmem
        obtain ⟨hshare, hV⟩ := (hspec i).2 hmem
        rw [hshare, hV]
        exact ⟨Function.update_self _ _ _, Function.update_self _ _ _⟩
    · rw [List.mem_cons, not_or] at hi
      obtain ⟨hshare, hV⟩ := (hspec i).2 hi.2
      rw [hshare, hV]
      exact ⟨Function.update_of_ne hi.1 _ _, Function.update_of_ne hi.1 _ _⟩

/-- The key is the sum of the first commitments, and the shares are the logarithms of what the commitments give. -/
theorem aggregate_verified {participants : List ℤ} {dealers : List DealerContribution} {context : ℤ}
    (hne : participants ≠ [])
    (hverified : ∀ c ∈ dealers, ∀ i ∈ participants, verifyContribution poseidon lib i c context = .ok true) :
    ∃ r, aggregate lib participants dealers = .ok r ∧ r.C = sumOf lib (dealers.map firstCommitment) ∧
      ∀ i ∈ participants, ∃ s, r.shares i = some s ∧ r.V i = some (scalarBaseMul lib s) ∧
        sumOf lib (dealers.map fun c => feldmanValue lib i c.commitments) =
          coords ((s : ZMod subOrder) • base : subgroup) := by
  have hcommitments : ∀ c ∈ dealers, c.commitments ≠ [] := by
    intro c hc
    obtain ⟨i, hi⟩ := List.exists_mem_of_ne_nil _ hne
    exact (share_of_verified h (hverified c hc i hi)).1
  have hsum : ∀ i ∈ participants, ∃ ci, dealers.foldlM (addShare lib i) 0 = .ok ci ∧
      sumOf lib (dealers.map fun c => feldmanValue lib i c.commitments) =
        coords ((ci : ZMod subOrder) • base : subgroup) := by
    intro i hi
    obtain ⟨ci, hci, hvalue⟩ := foldlM_addShare h (fun c hc => (share_of_verified h (hverified c hc i hi)).2) 0
    rw [Int.cast_zero, zero_smul] at hvalue
    refine ⟨ci, hci, ?_⟩
    rw [sumOf, ← hvalue, identity_eq]
    rfl
  choose! ci hci hvalue using hsum
  obtain ⟨res, hres, hspec⟩ := foldlM_setShare hci (fun _ => none, fun _ => none)
  refine ⟨⟨sumOf lib (dealers.map firstCommitment), res.1, res.2, dealers.map DealerContribution.id⟩, ?_, rfl, ?_⟩
  · rw [aggregate, bind_of_ok (foldlM_addCommitment hcommitments identity), bind_of_ok hres]
    rfl
  · intro i hi
    obtain ⟨hshare, hV⟩ := (hspec i).1 hi
    exact ⟨ci i, hshare, hV, hvalue i hi⟩

/-! ## Commitments on the curve -/

omit h in
/-- Zero and the identifiers. -/
def dkgNodes (participants : List ℤ) : Finset (ZMod subOrder) := Insert.insert 0 (residues subOrder participants).toFinset

omit h in
theorem mem_dkgNodes {participants : List ℤ} {i : ℤ} (hi : i ∈ participants) :
    (i : ZMod subOrder) ∈ dkgNodes participants :=
  Finset.mem_insert_of_mem (List.mem_toFinset.2 (List.mem_map_of_mem hi))

theorem sumOf_coords (points : List BabyJubJub.Point) : sumOf lib (points.map coords) = coords points.sum := by
  have hfold : ∀ (points : List BabyJubJub.Point) (acc : BabyJubJub.Point),
      (points.map coords).foldl (pointAdd lib) (coords acc) = coords (acc + points.sum) := by
    intro points
    induction points with
    | nil => simp
    | cons P points ih =>
      intro acc
      rw [List.map_cons, List.foldl_cons, pointAdd_coords h, ih, List.sum_cons, add_assoc]
  rw [sumOf, identity_eq, hfold, zero_add]

/-- For commitments on the curve, what they give is their sum in the group of the curve. -/
theorem commitsTo_iff {points : DealerContribution → List BabyJubJub.Point} {participants : List ℤ}
    {dealers : List DealerContribution} (hpoints : ∀ c ∈ dealers, c.commitments = (points c).map coords)
    (values : ZMod subOrder → subgroup) : CommitsTo lib dealers participants values ↔
      ∀ x ∈ dkgNodes participants, (dealers.map fun c => valueFrom x 1 (points c)).sum = values x := by
  have hkey : sumOf lib (dealers.map firstCommitment) =
      coords (dealers.map fun c => valueFrom 0 1 (points c)).sum := by
    rw [← sumOf_coords h, List.map_map]
    refine congrArg (sumOf lib) (List.map_congr_left fun c hc => ?_)
    rw [firstCommitment, hpoints c hc, Function.comp_apply, valueFrom_zero, identity_eq]
    cases points c <;> rfl
  have hshare : ∀ i : ℤ, sumOf lib (dealers.map fun c => feldmanValue lib i c.commitments) =
      coords (dealers.map fun c => valueFrom (i : ZMod subOrder) 1 (points c)).sum := by
    intro i
    rw [← sumOf_coords h, List.map_map]
    refine congrArg (sumOf lib) (List.map_congr_left fun c hc => ?_)
    rw [hpoints c hc, feldmanValue_coords h, Function.comp_apply]
  constructor
  · rintro ⟨hzero, hids⟩ x hx
    rcases Finset.mem_insert.1 hx with rfl | hx
    · exact coords_injective (hkey.symm.trans hzero)
    · obtain ⟨i, hi, rfl⟩ := List.mem_map.1 (List.mem_toFinset.1 hx)
      exact coords_injective ((hshare i).symm.trans (hids i hi))
  · intro hvalues
    refine ⟨?_, fun i hi => ?_⟩
    · rw [hkey, hvalues 0 (Finset.mem_insert_self 0 _)]
    · rw [hshare, hvalues _ (mem_dkgNodes hi)]

variable {points : DealerContribution → List subgroup}

omit h in
variable (points) in
/-- The value of the sum of the committed polynomials. -/
def committed (dealers : List DealerContribution) (x : ZMod subOrder) : subgroup :=
  (dealers.map fun c => evalAt (points c) x).sum

/-- In the subgroup, it is the value of the committed polynomials. -/
theorem commitsTo_committed (participants : List ℤ) {dealers : List DealerContribution}
    (hpoints : ∀ c ∈ dealers, c.commitments = coordsOf (points c)) :
    CommitsTo lib dealers participants (committed points dealers) := by
  have hcoords : ∀ c ∈ dealers, c.commitments = ((points c).map Subtype.val).map coords := by
    intro c hc
    rw [hpoints c hc, coordsOf, List.map_map]
    rfl
  refine (commitsTo_iff h hcoords _).2 fun x _ => ?_
  have hsum := map_list_sum subgroup.subtype (dealers.map fun c => evalAt (points c) x)
  rw [committed]
  refine Eq.trans ?_ hsum.symm
  rw [List.map_map]
  refine congrArg List.sum (List.map_congr_left fun c _ => ?_)
  rw [valueFrom_subgroup, one_smul]
  rfl

/-- The key is the value at zero, the shares are the values at the identifiers. -/
theorem aggregate_eq {participants : List ℤ} {dealers : List DealerContribution} {context : ℤ}
    (hne : participants ≠ []) (hpoints : ∀ c ∈ dealers, c.commitments = coordsOf (points c))
    (hverified : ∀ c ∈ dealers, ∀ i ∈ participants, verifyContribution poseidon lib i c context = .ok true) :
    ∃ r, aggregate lib participants dealers = .ok r ∧ r.C = coords (committed points dealers 0) ∧
      ∀ i ∈ participants, ∃ s, r.shares i = some s ∧ r.V i = some (scalarBaseMul lib s) ∧
        (s : ZMod subOrder) • base = committed points dealers (i : ZMod subOrder) := by
  obtain ⟨r, hr, hC, hshares⟩ := aggregate_verified h hne hverified
  have hvalues := commitsTo_committed h participants hpoints
  refine ⟨r, hr, hC.trans hvalues.key, fun i hi => ?_⟩
  obtain ⟨s, hs, hV, hvalue⟩ := hshares i hi
  exact ⟨s, hs, hV, Subtype.ext (coords_injective (hvalue.symm.trans (hvalues.share i hi)))⟩

/-! ## Agreement on the key -/

omit h in
/-- The shares lie on one polynomial of degree below the threshold, and every quorum of that many
participants reconstructs the logarithm of the key. -/
structure Agreement (lib : Library) (t : ℕ) (participants : List ℤ) (r : DkgResult) : Prop where
  polynomial : ∃ f : (ZMod subOrder)[X], f.degree < t ∧
    ∀ i ∈ participants, ∃ s, r.shares i = some s ∧ (s : ZMod subOrder) = f.eval (i : ZMod subOrder)
  reconstruct : ∀ quorum : List ℤ, quorum.Nodup → quorum.length = t → (∀ i ∈ quorum, i ∈ participants) →
    ∃ s, interpolateAtZero lib r.shares quorum = .ok s ∧ scalarBaseMul lib s = r.C

/-- Agreement, in terms of the commitments. -/
theorem agreement_iff_exists {participants : List ℤ} {dealers : List DealerContribution} {context : ℤ} {t : ℕ}
    (hids : (residues subOrder participants).Nodup) (hpositive : 0 < t) (ht : t ≤ participants.length)
    (hverified : ∀ c ∈ dealers, ∀ i ∈ participants, verifyContribution poseidon lib i c context = .ok true) :
    ∃ r, aggregate lib participants dealers = .ok r ∧ (Agreement lib t participants r ↔
      ∃ f : (ZMod subOrder)[X], f.degree < t ∧ CommitsTo lib dealers participants fun x => f.eval x • base) := by
  have hne : participants ≠ [] := List.ne_nil_of_length_pos (by omega)
  obtain ⟨r, hr, hC, hshares⟩ := aggregate_verified h hne hverified
  refine ⟨r, hr, ?_⟩
  have hreconstructed : ∀ f : (ZMod subOrder)[X], f.degree < t →
      (∀ i ∈ participants, ∃ s, r.shares i = some s ∧ (s : ZMod subOrder) = f.eval (i : ZMod subOrder)) →
      ∀ quorum : List ℤ, quorum.Nodup → quorum.length = t → (∀ i ∈ quorum, i ∈ participants) →
        ∃ s, interpolateAtZero lib r.shares quorum = .ok s ∧ (s : ZMod subOrder) = f.eval 0 := by
    intro f hdegree hf quorum hquorum hlength hsub
    choose! value hvalue heval using hf
    obtain ⟨s, hs, -, -, hzero⟩ := interpolateAtZero_eq h (fun i hi => hvalue i (hsub i hi))
      (fun i hi => heval i (hsub i hi)) (nodup_residues_of_subset hids hquorum hsub)
      (by rw [hlength]; exact hdegree)
    exact ⟨s, hs, hzero⟩
  constructor
  · rintro ⟨⟨f, hdegree, hf⟩, hreconstruct⟩
    refine ⟨f, hdegree, ?_, fun i hi => ?_⟩
    · -- the first participants are a quorum
      have hquorum : (participants.take t).Nodup := (List.take_sublist t _).nodup hids.of_map
      have hlength : (participants.take t).length = t := by
        rw [List.length_take]
        omega
      obtain ⟨s, hs, hkey⟩ := hreconstruct _ hquorum hlength fun i hi => List.mem_of_mem_take hi
      obtain ⟨s', hs', hzero⟩ := hreconstructed f hdegree hf _ hquorum hlength fun i hi => List.mem_of_mem_take hi
      obtain rfl : s = s' := Except.ok.inj (hs.symm.trans hs')
      rw [← hC, ← hkey, scalarBaseMul_eq h, hzero]
    · obtain ⟨s, hs, heval⟩ := hf i hi
      obtain ⟨s', hs', -, hvalue⟩ := hshares i hi
      obtain rfl : s = s' := Option.some.inj (hs.symm.trans hs')
      rw [hvalue, heval]
  · rintro ⟨f, hdegree, hf⟩
    have hpolynomial : ∀ i ∈ participants, ∃ s, r.shares i = some s ∧
        (s : ZMod subOrder) = f.eval (i : ZMod subOrder) := by
      intro i hi
      obtain ⟨s, hs, -, hvalue⟩ := hshares i hi
      rw [hf.share i hi] at hvalue
      exact ⟨s, hs, (BabyJubJub.smul_base_injective (Subtype.ext (coords_injective hvalue))).symm⟩
    refine ⟨⟨f, hdegree, hpolynomial⟩, fun quorum hquorum hlength hsub => ?_⟩
    obtain ⟨s, hs, hzero⟩ := hreconstructed f hdegree hpolynomial quorum hquorum hlength hsub
    refine ⟨s, hs, ?_⟩
    rw [scalarBaseMul_eq h, hC, hf.key, hzero]

omit h in
theorem card_residues {participants : List ℤ} (hids : (residues subOrder participants).Nodup) :
    (residues subOrder participants).toFinset.card = participants.length := by
  rw [List.toFinset_card_of_nodup hids, length_residues]

/-- Values that are multiples of the base point at the identifiers are those of a polynomial of low degree exactly
if no entry is left from the threshold on. -/
theorem exists_polynomial_iff_coefficient {participants : List ℤ} {dealers : List DealerContribution} {context : ℤ}
    {t : ℕ} (hids : (residues subOrder participants).Nodup) (hpositive : 0 < t) (ht : t ≤ participants.length)
    (hverified : ∀ c ∈ dealers, ∀ i ∈ participants, verifyContribution poseidon lib i c context = .ok true)
    {values : ZMod subOrder → subgroup} (hvalues : CommitsTo lib dealers participants values) :
    (∃ f : (ZMod subOrder)[X], f.degree < t ∧ ∀ x ∈ dkgNodes participants, values x = f.eval x • base) ↔
      ∀ k, t ≤ k → coefficient (dkgNodes participants) values k = 0 := by
  have hne : participants ≠ [] := List.ne_nil_of_length_pos (by omega)
  obtain ⟨r, -, -, hshares⟩ := aggregate_verified h hne hverified
  refine exists_polynomial_iff (Finset.subset_insert 0 _) (by rw [card_residues hids]; exact ht) fun x hx => ?_
  obtain ⟨i, hi, rfl⟩ := List.mem_map.1 (List.mem_toFinset.1 hx)
  obtain ⟨s, -, -, hs⟩ := hshares i hi
  exact ⟨s, Subtype.ext (coords_injective ((hvalues.share i hi).symm.trans hs))⟩

/-- Whatever the dealers commit to, the result is a sharing with the threshold exactly if what they commit to is, at
zero too, in the subgroup, and the polynomial of least degree through it has no entry from the threshold on. -/
theorem dkg_agreement_iff {participants : List ℤ} {dealers : List DealerContribution} {context : ℤ} {t : ℕ}
    (hids : (residues subOrder participants).Nodup) (hpositive : 0 < t) (ht : t ≤ participants.length)
    (hverified : ∀ c ∈ dealers, ∀ i ∈ participants, verifyContribution poseidon lib i c context = .ok true) :
    ∃ r, aggregate lib participants dealers = .ok r ∧ (Agreement lib t participants r ↔
      ∃ values, CommitsTo lib dealers participants values ∧
        ∀ k, t ≤ k → coefficient (dkgNodes participants) values k = 0) := by
  obtain ⟨r, hr, hiff⟩ := agreement_iff_exists h hids hpositive ht hverified
  refine ⟨r, hr, hiff.trans ⟨?_, ?_⟩⟩
  · rintro ⟨f, hdegree, hf⟩
    refine ⟨_, hf, ?_⟩
    exact (exists_polynomial_iff_coefficient h hids hpositive ht hverified hf).1 ⟨f, hdegree, fun _ _ => rfl⟩
  · rintro ⟨values, hvalues, hzero⟩
    obtain ⟨f, hdegree, hf⟩ := (exists_polynomial_iff_coefficient h hids hpositive ht hverified hvalues).2 hzero
    refine ⟨f, hdegree, ?_, fun i hi => ?_⟩
    · rw [hvalues.key, hf 0 (Finset.mem_insert_self 0 _)]
    · rw [hvalues.share i hi, hf _ (mem_dkgNodes hi)]

/-- Dealers that commit in the subgroup, to as many coefficients as the threshold or fewer, agree. -/
theorem agreement_of_length_le {participants : List ℤ} {dealers : List DealerContribution} {context : ℤ} {t : ℕ}
    (hids : (residues subOrder participants).Nodup) (hpositive : 0 < t) (ht : t ≤ participants.length)
    (hpoints : ∀ c ∈ dealers, c.commitments = coordsOf (points c))
    (hverified : ∀ c ∈ dealers, ∀ i ∈ participants, verifyContribution poseidon lib i c context = .ok true)
    (hlength : ∀ c ∈ dealers, c.commitments.length ≤ t) :
    ∃ r, aggregate lib participants dealers = .ok r ∧ Agreement lib t participants r := by
  obtain ⟨r, hr, hiff⟩ := agreement_iff_exists h hids hpositive ht hverified
  have hvalues := commitsTo_committed h participants hpoints
  have hcard : t ≤ (dkgNodes participants).card := by
    refine le_trans ?_ (Finset.card_le_card (Finset.subset_insert 0 _))
    rw [card_residues hids]
    exact ht
  -- each dealer's commitments have no entry from the threshold on
  have hzero : ∀ k, t ≤ k → ∀ ds : List DealerContribution, (∀ c ∈ ds, c ∈ dealers) →
      coefficient (dkgNodes participants) (committed points ds) k = 0 := by
    intro k hk ds
    induction ds with
    | nil => simp [committed, coefficient]
    | cons c ds ih =>
      intro hmem
      have hpoint : (points c).length ≤ t := by
        have := hlength c (hmem c List.mem_cons_self)
        rw [hpoints c (hmem c List.mem_cons_self), coordsOf, List.length_map] at this
        exact this
      have hc := coefficient_evalAt_eq_zero (hpoint.trans hcard) (hpoint.trans hk)
      have hds := ih fun d hd => hmem d (List.mem_cons_of_mem c hd)
      have hsum : committed points (c :: ds) = fun x => evalAt (points c) x + committed points ds x := by
        funext x
        rw [committed, List.map_cons, List.sum_cons, committed]
      rw [hsum, coefficient_add, hc, hds, add_zero]
  obtain ⟨f, hdegree, hf⟩ := (exists_polynomial_iff_coefficient h hids hpositive ht hverified hvalues).2
    fun k hk => hzero k hk dealers fun c hc => hc
  refine ⟨r, hr, hiff.2 ⟨f, hdegree, ?_, fun i hi => ?_⟩⟩
  · rw [hvalues.key, hf 0 (Finset.mem_insert_self 0 _)]
  · rw [hvalues.share i hi, hf _ (mem_dkgNodes hi)]

/-! ## A dealer with a coefficient too many -/

/-- On numbers of the field a dealer does prove that it knows its secret. -/
theorem provePoP_isOk (k secret : ℤ) {id context : ℤ} (hid : 0 ≤ id ∧ id < bn254ScalarFieldModulus)
    (hcontext : 0 ≤ context ∧ context < bn254ScalarFieldModulus) :
    ∃ pop, provePoP poseidon lib k id context secret (scalarBaseMul lib secret) = .ok pop := by
  have hrange : ∀ x ∈ [frostPopDomain, id, context, (scalarBaseMul lib secret).1, (scalarBaseMul lib secret).2,
      (scalarBaseMul lib k).1, (scalarBaseMul lib k).2], 0 ≤ x ∧ x < bn254ScalarFieldModulus := by
    have hsecret := coords_range ((secret : ZMod subOrder) • base : subgroup)
    have hk := coords_range ((k : ZMod subOrder) • base : subgroup)
    rw [← scalarBaseMul_eq h] at hsecret hk
    have hdomain : 0 ≤ frostPopDomain ∧ frostPopDomain < bn254ScalarFieldModulus := by decide
    simp only [List.forall_mem_cons]
    exact ⟨hdomain, hid, hcontext, hsecret.1, hsecret.2, hk.1, hk.2, fun x hx => by cases hx⟩
  obtain ⟨e, he⟩ := hashToScalar_isOk poseidon lib hrange
  exact ⟨⟨scalarBaseMul lib k, modSub lib (k + e * secret)⟩, bind_of_ok he _⟩

/-- On numbers of the field a dealer does contribute. -/
theorem dealerContribute_isOk (coeffs participants : List ℤ) {secret k id context : ℤ}
    (hid : 0 ≤ id ∧ id < bn254ScalarFieldModulus)
    (hcontext : 0 ≤ context ∧ context < bn254ScalarFieldModulus) :
    ∃ c, dealerContribute poseidon lib (secret :: coeffs) k id participants context = .ok c := by
  obtain ⟨pop, hpop⟩ := provePoP_isOk h k secret hid hcontext
  have hcommit : (feldmanCommit lib (secret :: coeffs)).headD identity = scalarBaseMul lib secret := rfl
  rw [dealerContribute, hcommit, bind_of_ok hpop]
  exact ⟨_, rfl⟩

end Meaning

/-! ## A coefficient too many -/

namespace Sample

/-- The commitments of a dealer with these coefficients. -/
def commitmentsOf (coeffs : List ℤ) : List subgroup := (residues subOrder coeffs).map fun a => a • base

/-- The participants 1, 2 and 3 with one dealer of the given coefficients, whom they all accept. -/
theorem exists_dealer (coeffs : List ℤ) : ∃ c,
    dealerContribute (fun _ => 0) Library.reference (1 :: coeffs) 1 1 [1, 2, 3] 0 = .ok c ∧
    c.commitments = coordsOf (commitmentsOf (1 :: coeffs)) ∧
    ∀ i ∈ [1, 2, 3], verifyContribution (fun _ => 0) Library.reference i c 0 = .ok true := by
  have h := Library.reference_lawful
  obtain ⟨c, hc⟩ : ∃ c, dealerContribute (fun _ => 0) Library.reference (1 :: coeffs) 1 1 [1, 2, 3] 0 = .ok c :=
    dealerContribute_isOk h coeffs [1, 2, 3] (by decide) (by decide)
  obtain ⟨hcommitments, hverified⟩ := dealerContribute_verified _ h hc
  exact ⟨c, hc, hcommitments, fun i hi => (hverified i hi).2⟩

theorem nodup_ids : (residues subOrder [1, 2, 3]).Nodup := by decide +kernel

end Sample

/-- For the threshold 2 a dealer that commits to three coefficients is accepted by everyone, and the
shares are on no line. -/
theorem long_commitment_accepted : ∃ c r,
    dealerContribute (fun _ => 0) Library.reference [1, 1, 1] 1 1 [1, 2, 3] 0 = .ok c ∧
    (∀ i ∈ [1, 2, 3], verifyContribution (fun _ => 0) Library.reference i c 0 = .ok true) ∧
    aggregate Library.reference [1, 2, 3] [c] = .ok r ∧ ¬ Agreement Library.reference 2 [1, 2, 3] r := by
  have h := Library.reference_lawful
  obtain ⟨c, hc, hpoints, haccepted⟩ := Sample.exists_dealer [1, 1]
  obtain ⟨r, hr, hiff⟩ := agreement_iff_exists h Sample.nodup_ids Nat.zero_lt_two (by decide)
    (List.forall_mem_singleton.2 haccepted)
  refine ⟨c, r, hc, haccepted, hr, ?_⟩
  rw [hiff]
  rintro ⟨f, hdegree, hf⟩
  have hvalues : CommitsTo Library.reference [c] [1, 2, 3] (committed (fun _ => Sample.commitmentsOf [1, 1, 1]) [c]) :=
    commitsTo_committed h _ (List.forall_mem_singleton.2 hpoints)
  have heval : ∀ i ∈ ([1, 2, 3] : List ℤ),
      1 + (i : ZMod subOrder) * (1 + i * (1 + i * 0)) = f.eval (i : ZMod subOrder) := by
    intro i hi
    have hi' := coords_injective ((hvalues.share i hi).symm.trans (hf.share i hi))
    rw [committed, List.map_singleton, List.sum_singleton, Sample.commitmentsOf, evalAt_map_smul] at hi'
    have := BabyJubJub.smul_base_injective (Subtype.ext hi')
    simpa [residues, ofCoefficients] using this
  have hline : f = C (f.coeff 1) * X + C (f.coeff 0) :=
    eq_X_add_C_of_degree_le_one (Order.le_of_lt_succ hdegree)
  have h₁ := heval 1 (by decide)
  have h₂ := heval 2 (by decide)
  have h₃ := heval 3 (by decide)
  rw [hline] at h₁ h₂ h₃
  simp only [eval_add, eval_mul, eval_C, eval_X] at h₁ h₂ h₃
  push_cast at h₁ h₂ h₃
  have htwo : (2 : ZMod subOrder) = 0 := by linear_combination h₁ - 2 * h₂ + h₃
  exact absurd htwo (by decide +kernel)

/-! ## Commitments outside the subgroup -/

namespace Sample

open BabyJubJub (base8 orderTwo)

/-- Three commitments, two of them moved out of the subgroup. -/
def movedPoints : List BabyJubJub.Point := [base8, base8 + orderTwo, base8 + orderTwo]

/-- A dealer with these commitments and the shares of the coefficients that they hide. -/
def movedDealer (pop : SchnorrPoP) : DealerContribution where
  id := 2
  commitments := movedPoints.map coords
  pop := pop
  shares j := if j ∈ [1, 2, 3] then some (1 + j + j * j) else none

/-- At small numbers the two moves cancel: the sum of a number and its square is even. -/
theorem valueFrom_movedPoints {n : ℕ} (hn : n ≤ 3) : valueFrom (n : ZMod subOrder) 1 movedPoints =
    (((1 + n + n * n : ℕ) : ZMod subOrder) • base : subgroup) := by
  have hlt : n * n < subOrder := (Nat.mul_le_mul hn hn).trans_lt (by norm_num [subOrder])
  have hone : (1 : ZMod subOrder).val = 1 := ZMod.val_one _
  have hfirst : (n : ZMod subOrder).val = n := ZMod.val_natCast_of_lt (hn.trans_lt (by norm_num [subOrder]))
  have hsquare : ((n : ZMod subOrder) * n).val = n * n := by
    rw [← Nat.cast_mul]
    exact ZMod.val_natCast_of_lt hlt
  have hcancel : n • orderTwo + (n * n) • orderTwo = 0 := by
    obtain ⟨m, hm⟩ : Even (n + n * n) := by
      have := Nat.even_mul_succ_self n
      rwa [Nat.mul_succ, add_comm] at this
    rw [← add_nsmul, hm, ← two_mul, mul_nsmul, BabyJubJub.two_nsmul_orderTwo, nsmul_zero]
  rw [BabyJubJub.coe_natCast_smul, movedPoints, valueFrom, valueFrom, valueFrom, valueFrom, hone, one_mul, hfirst,
    hsquare, one_nsmul, add_zero, nsmul_add, nsmul_add, add_add_add_comm, hcancel, add_zero, add_nsmul, add_nsmul,
    one_nsmul, add_assoc]
  rfl

theorem exists_le_three {i : ℤ} (hi : i ∈ ([1, 2, 3] : List ℤ)) : ∃ n : ℕ, n ≤ 3 ∧ i = n := by
  simp only [List.mem_cons, List.not_mem_nil, or_false] at hi
  exact ⟨i.toNat, by omega, by omega⟩

theorem exists_le_three_of_mem_dkgNodes {x : ZMod subOrder} (hx : x ∈ dkgNodes [1, 2, 3]) :
    ∃ n : ℕ, n ≤ 3 ∧ x = n := by
  rcases Finset.mem_insert.1 hx with rfl | hx
  · exact ⟨0, Nat.zero_le 3, Nat.cast_zero.symm⟩
  · obtain ⟨i, hi, rfl⟩ := List.mem_map.1 (List.mem_toFinset.1 hx)
    obtain ⟨n, hn, rfl⟩ := exists_le_three hi
    exact ⟨n, hn, Int.cast_natCast n⟩

/-- The points of the commitments of an honest dealer with the coefficients 1 and 1, and of this one. -/
def pointsOf (c : DealerContribution) : List BabyJubJub.Point :=
  if c.commitments.length = 2 then (commitmentsOf [1, 1]).map Subtype.val else movedPoints

/-- All three participants accept it. -/
theorem exists_movedDealer : ∃ pop, ∀ i ∈ ([1, 2, 3] : List ℤ),
    verifyContribution (fun _ => 0) Library.reference i (movedDealer pop) 0 = .ok true := by
  have h := Library.reference_lawful
  obtain ⟨pop, hpop⟩ : ∃ pop, provePoP (fun _ => 0) Library.reference 1 2 0 1 (scalarBaseMul Library.reference 1) =
      .ok pop := provePoP_isOk h 1 1 (by decide) (by decide)
  refine ⟨pop, fun i hi => ?_⟩
  have hfeldman : feldmanVerifyShare Library.reference i (1 + i + i * i) (movedDealer pop).commitments = true := by
    obtain ⟨n, hn, rfl⟩ := exists_le_three hi
    rw [feldmanVerifyShare_eq_true_iff h, movedDealer, feldmanValue_coords h, Int.cast_natCast,
      valueFrom_movedPoints hn]
    push_cast
    rfl
  have hshare : (movedDealer pop).shares i = some (1 + i + i * i) := if_pos hi
  have hfirst : (movedDealer pop).commitments = scalarBaseMul Library.reference 1 :: (movedPoints.tail.map coords) := by
    rw [scalarBaseMul_eq h, Int.cast_one, one_smul]
    rfl
  rw [verifyContribution, if_neg (by rw [hfirst]; simp)]
  simp only [hshare]
  rw [hfeldman, hfirst]
  exact verifyPoP_provePoP _ h (movedPoints.tail.map coords) hpop

end Sample

/-- An honest dealer and one whose commitments leave the subgroup, for the threshold 3. -/
theorem dkg_agreement_sample : ∃ c pop r,
    dealerContribute (fun _ => 0) Library.reference [1, 1] 1 1 [1, 2, 3] 0 = .ok c ∧
    (∀ i ∈ ([1, 2, 3] : List ℤ),
      verifyContribution (fun _ => 0) Library.reference i (Sample.movedDealer pop) 0 = .ok true) ∧
    aggregate Library.reference [1, 2, 3] [c, Sample.movedDealer pop] = .ok r ∧
    Agreement Library.reference 3 [1, 2, 3] r := by
  have h := Library.reference_lawful
  obtain ⟨c, hc, hcommitments, haccepted⟩ := Sample.exists_dealer [1]
  obtain ⟨pop, hmoved⟩ := Sample.exists_movedDealer
  have hverified : ∀ d ∈ [c, Sample.movedDealer pop], ∀ i ∈ ([1, 2, 3] : List ℤ),
      verifyContribution (fun _ => 0) Library.reference i d 0 = .ok true :=
    List.forall_mem_cons.2 ⟨haccepted, List.forall_mem_singleton.2 hmoved⟩
  obtain ⟨r, hr, hiff⟩ := dkg_agreement_iff h Sample.nodup_ids (Nat.zero_lt_succ 2) (by decide) hverified
  refine ⟨c, pop, r, hc, hmoved, hr, hiff.2 ?_⟩
  -- together they commit to twice one, twice the identifier and its square
  have hvalues : CommitsTo Library.reference [c, Sample.movedDealer pop] [1, 2, 3] fun x =>
      (ofCoefficients [2, 2, 1]).eval x • base := by
    have hfirst : Sample.pointsOf c = (Sample.commitmentsOf [1, 1]).map Subtype.val :=
      if_pos (by rw [hcommitments]; rfl)
    have hpoints : ∀ d ∈ [c, Sample.movedDealer pop], d.commitments = (Sample.pointsOf d).map coords := by
      refine List.forall_mem_cons.2 ⟨?_, List.forall_mem_singleton.2 rfl⟩
      rw [hfirst, hcommitments, coordsOf, List.map_map]
      rfl
    refine (commitsTo_iff h hpoints _).2 fun x hx => ?_
    obtain ⟨n, hn, rfl⟩ := Sample.exists_le_three_of_mem_dkgNodes hx
    have hsecond : Sample.pointsOf (Sample.movedDealer pop) = Sample.movedPoints := rfl
    rw [List.map_cons, List.map_singleton, List.sum_cons, List.sum_singleton, hfirst, hsecond,
      Sample.valueFrom_movedPoints hn, valueFrom_subgroup, one_smul, Sample.commitmentsOf, evalAt_map_smul,
      ← AddSubgroup.coe_add, ← add_smul]
    refine congrArg (fun a : ZMod subOrder => ((a • base : subgroup) : BabyJubJub.Point)) ?_
    simp only [residues, List.map_cons, List.map_nil, ofCoefficients, eval_add, eval_mul, eval_C, eval_X, eval_zero]
    push_cast
    ring
  refine ⟨_, hvalues, ?_⟩
  refine (exists_polynomial_iff_coefficient h Sample.nodup_ids (Nat.zero_lt_succ 2) (by decide) hverified hvalues).1 ?_
  exact ⟨_, degree_ofCoefficients_lt [2, 2, 1], fun _ _ => rfl⟩

end Kakure.Tss
