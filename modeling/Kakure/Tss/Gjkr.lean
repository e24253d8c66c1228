import Kakure.Notes.Derivation
import Kakure.Tss.Dkg

/-!
# The key generation with a second generator

`packages/sdk/src/tss/gjkr.ts`: every dealer first commits to its polynomial under a second
generator, which hides it; the dealers whose shares agree with these commitments reveal the
plain commitments, and only their shares are added up.  Random scalars are arguments here, and
so is the point decompression that the second generator is found with.

* `getH_inv` — the second generator is in the subgroup;
* `pedersenVerifyShare_eq` — the check of a pair of shares, as an equation between points;
* `qualified_eq` — who is left after the first phase;
* `runGjkrDkg_eq` — the result: one sharing of the sum of the constant coefficients.
-/

namespace Kakure.Tss

open Fallible Interpolation Polynomial
open BabyJubJub (subgroup base)

variable (poseidon : List Fr → Fr) (lib : Library) (unpackPoint : ℤ → Option Point)

/-! ## The second generator -/

/-- `COFACTOR`. -/
def cofactor : ℤ := 8

/-- `H_SEED_DOMAIN`. -/
def hSeedDomain : String := "kakure.tss.pedersen.h"

/-- `H_MAX_TRIES`. -/
def hMaxTries : ℕ := 256

/-- The loop of `deriveH` over the counters that are left. -/
def deriveHLoop (seed : ℤ) : List ℕ → Except String Point
  | [] => .error "gjkr: failed to derive H within the try-and-increment bound"
  | ctr :: rest => do
    let candidate ← poseidon2 poseidon [seed, ctr]
    match unpackPoint candidate with
    | none => deriveHLoop seed rest
    | some unpacked =>
      let h := scalarMul lib cofactor unpacked
      if isIdentity h then deriveHLoop seed rest
      else if pointEq h lib.base8 then deriveHLoop seed rest
      else do
        assertInSubgroup lib h "H"
        .ok h

/-- `getH`. -/
def getH : Except String Point :=
  deriveHLoop poseidon lib unpackPoint (Notes.stringToFr poseidon hSeedDomain).val (List.range hMaxTries)

/-! ## Commitments that hide -/

/-- `pedersenCommit`. -/
def pedersenCommit (aCoeffs bCoeffs : List ℤ) : Except String (List Point) :=
  if aCoeffs.length ≠ bCoeffs.length then
    .error s!"gjkr: Pedersen coefficient length mismatch (a={aCoeffs.length}, b={bCoeffs.length})"
  else do
    let h ← getH poseidon lib unpackPoint
    .ok (List.zipWith (fun a b => pointAdd lib (scalarBaseMul lib a) (scalarMul lib b h)) aCoeffs bCoeffs)

/-- `pedersenVerifyShare`, whose loop is that of `feldmanVerifyShare`. -/
def pedersenVerifyShare (id fShare fPrimeShare : ℤ) (commitments : List Point) : Except String Bool := do
  let h ← getH poseidon lib unpackPoint
  let lhs := pointAdd lib (scalarBaseMul lib fShare) (scalarMul lib fPrimeShare h)
  let rhs := (commitments.foldl (feldmanStep lib id) (identity, 1)).1
  .ok (pointEq lhs rhs)

/-! ## Dealers -/

/-- `PedersenDealer`. -/
structure PedersenDealer where
  id : ℤ
  aCoeffs : List ℤ
  bCoeffs : List ℤ
  commitments : List Point
  aShares : ℤ → Option ℤ
  fPrimeShares : ℤ → Option ℤ

/-- The random scalars of a dealer: its coefficients, and the one of its proof. -/
structure DealerScalars where
  a : ℕ → ℤ
  b : ℕ → ℤ
  k : ℤ

/-- `contribute`. -/
def contribute (scalars : DealerScalars) (id : ℤ) (participants : List ℤ) (t : ℕ) :
    Except String PedersenDealer := do
  let aCoeffs := (List.range t).map scalars.a
  let bCoeffs := (List.range t).map scalars.b
  let commitments ← pedersenCommit poseidon lib unpackPoint aCoeffs bCoeffs
  .ok ⟨id, aCoeffs, bCoeffs, commitments,
    fun j => if j ∈ participants then some (polyEval lib aCoeffs j) else none,
    fun j => if j ∈ participants then some (polyEval lib bCoeffs j) else none⟩

/-- What `runGjkrDkg` does to the shares of a faulty dealer. -/
def corrupt (participants : List ℤ) (dealer : PedersenDealer) : PedersenDealer :=
  let victim := (participants.find? (· ≠ dealer.id)).getD dealer.id
  let corrupted := (dealer.aShares victim).getD 0 + 1
  { dealer with aShares := Function.update dealer.aShares victim (some (modSub lib corrupted)) }

/-- The loop of the first phase over the participants, for one dealer. -/
def pedersenAccepts (dealer : PedersenDealer) : List ℤ → Except String Bool
  | [] => .ok true
  | j :: participants =>
    match dealer.aShares j, dealer.fPrimeShares j with
    | some f, some fPrime => do
      let ok ← pedersenVerifyShare poseidon lib unpackPoint j f fPrime dealer.commitments
      if !ok then .ok false else pedersenAccepts dealer participants
    | _, _ => .ok false

/-- One step of the loop of the first phase over the dealers. -/
def qualStep (participants : List ℤ) (qual : List PedersenDealer) (dealer : PedersenDealer) :
    Except String (List PedersenDealer) := do
  let ok ← pedersenAccepts poseidon lib unpackPoint dealer participants
  .ok (if ok then qual ++ [dealer] else qual)

/-- The check of the second phase for one participant. -/
def feldmanReveal (dealer : PedersenDealer) (commitments : List Point) (j : ℤ) : Except String Unit :=
  match dealer.aShares j with
  | none => .error s!"gjkr: Feldman reveal inconsistent for dealer {dealer.id}"
  | some f =>
    if !feldmanVerifyShare lib j f commitments then
      .error s!"gjkr: Feldman reveal inconsistent for dealer {dealer.id}"
    else .ok ()

/-- The second phase for one dealer, with the random scalar `k`. -/
def reveal (context : ℤ) (participants : List ℤ) (k : ℤ) (dealer : PedersenDealer) :
    Except String DealerContribution :=
  match dealer.aCoeffs with
  | [] => .error "TypeError: commitments[0] is undefined"
  | secret :: _ => do
    let commitments := feldmanCommit lib dealer.aCoeffs
    let pop ← provePoP poseidon lib k dealer.id context secret (commitments.headD identity)
    participants.forM (feldmanReveal lib dealer commitments)
    let ok ← verifyPoP poseidon lib dealer.id context commitments pop
    if !ok then .error s!"gjkr: PoP failed for QUAL dealer {dealer.id}"
    else .ok ⟨dealer.id, commitments, pop, dealer.aShares⟩

/-- The identifiers from 1 to `n`. -/
def gjkrParticipants (n : ℕ) : List ℤ := (List.range n).map fun i : ℕ => (i : ℤ) + 1

/-- The shares a dealer sends, true or not. -/
def deal (scalars : ℤ → DealerScalars) (participants : List ℤ) (t : ℕ) (badShareDealers : List ℤ) (id : ℤ) :
    Except String PedersenDealer := do
  let dealer ← contribute poseidon lib unpackPoint (scalars id) id participants t
  .ok (if id ∈ badShareDealers then corrupt lib participants dealer else dealer)

/-- `runGjkrDkg`. -/
def runGjkrDkg (scalars : ℤ → DealerScalars) (n t : ℕ) (context : ℤ) (badShareDealers : List ℤ) :
    Except String DkgResult := do
  let participants := gjkrParticipants n
  let dealers ← participants.mapM (deal poseidon lib unpackPoint scalars participants t badShareDealers)
  let qual ← dealers.foldlM (qualStep poseidon lib unpackPoint participants) []
  if qual.length = 0 then .error "gjkr: no qualified dealers"
  else do
    let qualContributions ← qual.mapM fun dealer =>
      reveal poseidon lib context participants (scalars dealer.id).k dealer
    aggregate lib participants qualContributions

/-! ## What the checks say -/

section Meaning

variable {poseidon lib unpackPoint} (h : lib.Lawful)

include h

/-- The decompression finds points of the curve. -/
abbrev Unpacks (unpackPoint : ℤ → Option Point) : Prop :=
  ∀ c p, unpackPoint c = some p → ∃ P : BabyJubJub.Point, p = coords P

/-- The second generator is in the subgroup. -/
theorem getH_inv (hunpack : Unpacks unpackPoint) {H : Point} (hH : getH poseidon lib unpackPoint = .ok H) :
    ∃ P : subgroup, H = coords P := by
  have hloop : ∀ (seed : ℤ) (ctrs : List ℕ), deriveHLoop poseidon lib unpackPoint seed ctrs = .ok H →
      ∃ P : subgroup, H = coords P := by
    intro seed ctrs
    induction ctrs with
    | nil =>
      intro hrun
      cases hrun
    | cons ctr rest ih =>
      intro hrun
      obtain ⟨candidate, -, hrun⟩ := bind_eq_ok.1 hrun
      split at hrun
      · exact ih hrun
      · rename_i unpacked hunpacked
        dsimp only at hrun
        obtain ⟨P, rfl⟩ := hunpack _ _ hunpacked
        split at hrun
        · exact ih hrun
        · split at hrun
          · exact ih hrun
          · obtain ⟨⟨⟩, hsub, hrun⟩ := bind_eq_ok.1 hrun
            cases hrun
            have hmul : scalarMul lib cofactor (coords P) = coords ((modSub lib cofactor).toNat • P) := by
              rw [scalarMul, ← h.mulPointEscalar, Int.toNat_of_nonneg (modSub_nonneg h cofactor)]
            rw [hmul] at hsub ⊢
            refine ⟨⟨_, (inSubgroup_coords h _).1 ?_⟩, rfl⟩
            rw [assertInSubgroup] at hsub
            split_ifs at hsub with hcurve hid hno
            simpa using hno
  exact hloop _ _ hH

variable {H : subgroup} (hH : getH poseidon lib unpackPoint = .ok (coords H))

include hH

/-- The check of a pair of shares. -/
theorem pedersenVerifyShare_eq (id fShare fPrimeShare : ℤ) (points : List subgroup) : ∃ ok,
    pedersenVerifyShare poseidon lib unpackPoint id fShare fPrimeShare (coordsOf points) = .ok ok ∧
      (ok = true ↔ (fShare : ZMod subOrder) • base + (fPrimeShare : ZMod subOrder) • H =
        evalAt points (id : ZMod subOrder)) := by
  have hfold := foldl_feldmanStep h id points 0 1
  rw [Int.cast_one, one_smul, zero_add, show coords ((0 : subgroup) : BabyJubJub.Point) = identity from
    identity_eq.symm] at hfold
  refine ⟨_, bind_of_ok hH _, ?_⟩
  rw [pointEq_iff, scalarBaseMul_eq h, scalarMul_coords h, pointAdd_coords h, hfold, coords_injective.eq_iff]
  exact Subtype.coe_injective.eq_iff (a := (fShare : ZMod subOrder) • base + (fPrimeShare : ZMod subOrder) • H)

/-- The first phase for one dealer: all pairs of shares have to agree with the commitments. -/
theorem pedersenAccepts_eq {dealer : PedersenDealer} {points : List subgroup} {f fPrime : ℤ → ℤ}
    {participants : List ℤ} (hcommitments : dealer.commitments = coordsOf points)
    (hf : ∀ j ∈ participants, dealer.aShares j = some (f j))
    (hfPrime : ∀ j ∈ participants, dealer.fPrimeShares j = some (fPrime j)) : ∃ ok,
    pedersenAccepts poseidon lib unpackPoint dealer participants = .ok ok ∧
      (ok = true ↔ ∀ j ∈ participants, (f j : ZMod subOrder) • base + (fPrime j : ZMod subOrder) • H =
        evalAt points (j : ZMod subOrder)) := by
  induction participants with
  | nil => exact ⟨true, rfl, by simp⟩
  | cons j participants ih =>
    obtain ⟨ok, hok, hiff⟩ := pedersenVerifyShare_eq h hH j (f j) (fPrime j) points
    obtain ⟨rest, hrest, hrestiff⟩ := ih (fun i hi => hf i (List.mem_cons_of_mem j hi))
      fun i hi => hfPrime i (List.mem_cons_of_mem j hi)
    rw [pedersenAccepts, hf j List.mem_cons_self, hfPrime j List.mem_cons_self]
    dsimp only
    rw [hcommitments, bind_of_ok hok]
    cases ok with
    | true =>
      refine ⟨rest, hrest, ?_⟩
      rw [hrestiff, List.forall_mem_cons]
      exact ⟨fun hall => ⟨hiff.1 rfl, hall⟩, fun hall => hall.2⟩
    | false =>
      refine ⟨false, rfl, ?_⟩
      rw [List.forall_mem_cons]
      exact ⟨fun hfalse => absurd hfalse Bool.false_ne_true, fun hall => hiff.2 hall.1⟩

/-! ## The first phase -/

omit h hH in
theorem evalAt_pedersen (a b : ℕ → ℤ) (l : List ℕ) (x : ZMod subOrder) :
    evalAt (l.map fun k => (a k : ZMod subOrder) • base + (b k : ZMod subOrder) • H) x =
      (ofCoefficients (residues subOrder (l.map a))).eval x • base +
        (ofCoefficients (residues subOrder (l.map b))).eval x • H := by
  induction l with
  | nil => simp [evalAt, ofCoefficients]
  | cons k l ih =>
    rw [List.map_cons, evalAt, ih, List.map_cons, List.map_cons, residues_cons, residues_cons,
      eval_ofCoefficients_cons, eval_ofCoefficients_cons, smul_add, add_smul, add_smul, mul_smul, mul_smul]
    abel

omit h hH in
variable (lib H) in
/-- The dealer that `contribute` makes of its scalars. -/
def honestDealer (scalars : DealerScalars) (participants : List ℤ) (t : ℕ) (id : ℤ) : PedersenDealer where
  id := id
  aCoeffs := (List.range t).map scalars.a
  bCoeffs := (List.range t).map scalars.b
  commitments := coordsOf ((List.range t).map fun k =>
    (scalars.a k : ZMod subOrder) • base + (scalars.b k : ZMod subOrder) • H)
  aShares := fun j => if j ∈ participants then some (polyEval lib ((List.range t).map scalars.a) j) else none
  fPrimeShares := fun j => if j ∈ participants then some (polyEval lib ((List.range t).map scalars.b) j) else none

theorem contribute_eq (scalars : DealerScalars) (id : ℤ) (participants : List ℤ) (t : ℕ) :
    contribute poseidon lib unpackPoint scalars id participants t =
      .ok (honestDealer lib H scalars participants t id) := by
  have hcommit : pedersenCommit poseidon lib unpackPoint ((List.range t).map scalars.a)
      ((List.range t).map scalars.b) = .ok (honestDealer lib H scalars participants t id).commitments := by
    rw [pedersenCommit, if_neg (by simp), bind_of_ok hH, List.zipWith_map, List.zipWith_self]
    refine congrArg Except.ok ?_
    rw [honestDealer, coordsOf, List.map_map]
    refine List.map_congr_left fun k _ => ?_
    rw [scalarBaseMul_eq h, scalarMul_coords h, pointAdd_coords h]
    rfl
  exact bind_of_ok hcommit _

/-- The shares of an honest dealer pass. -/
theorem accepts_honest (scalars : DealerScalars) (participants : List ℤ) (t : ℕ) (id : ℤ) :
    pedersenAccepts poseidon lib unpackPoint (honestDealer lib H scalars participants t id) participants =
      .ok true := by
  obtain ⟨ok, hok, hiff⟩ : ∃ ok, pedersenAccepts poseidon lib unpackPoint
      (honestDealer lib H scalars participants t id) participants = .ok ok ∧ (ok = true ↔ _) :=
    pedersenAccepts_eq h hH rfl (fun j hj => if_pos hj) (fun j hj => if_pos hj)
  rw [hok, hiff.2 fun j _ => by rw [cast_polyEval h, cast_polyEval h, evalAt_pedersen]]

omit h hH in
variable (lib) in
theorem corrupt_aShares {participants : List ℤ} {dealer : PedersenDealer} {victim s : ℤ}
    (hvictim : participants.find? (· ≠ dealer.id) = some victim) (hs : dealer.aShares victim = some s) :
    (corrupt lib participants dealer).aShares =
      Function.update dealer.aShares victim (some (modSub lib (s + 1))) := by
  unfold corrupt
  dsimp only
  rw [hvictim, Option.getD_some, hs, Option.getD_some]

/-- One share off by one is found, the base point not being zero. -/
theorem accepts_corrupt (scalars : DealerScalars) {participants : List ℤ} (t : ℕ) {id : ℤ}
    (hother : ∃ j ∈ participants, j ≠ id) :
    pedersenAccepts poseidon lib unpackPoint
      (corrupt lib participants (honestDealer lib H scalars participants t id)) participants = .ok false := by
  obtain ⟨victim, hvictim⟩ : ∃ victim, participants.find? (· ≠ id) = some victim := by
    rw [← Option.isSome_iff_exists, List.find?_isSome]
    simpa using hother
  have hmem := List.mem_of_find?_eq_some hvictim
  have hcorrupt : (corrupt lib participants (honestDealer lib H scalars participants t id)).aShares =
      Function.update (honestDealer lib H scalars participants t id).aShares victim _ :=
    corrupt_aShares lib hvictim (if_pos hmem)
  have hshares : ∀ j ∈ participants,
      (corrupt lib participants (honestDealer lib H scalars participants t id)).aShares j =
        some (if j = victim then modSub lib (polyEval lib ((List.range t).map scalars.a) victim + 1)
          else polyEval lib ((List.range t).map scalars.a) j) := by
    intro j hj
    rw [hcorrupt]
    split
    · rename_i hj'
      rw [hj', Function.update_self]
    · rename_i hj'
      rw [Function.update_of_ne hj']
      exact if_pos hj
  obtain ⟨ok, hok, hiff⟩ : ∃ ok, pedersenAccepts poseidon lib unpackPoint
      (corrupt lib participants (honestDealer lib H scalars participants t id)) participants = .ok ok ∧
        (ok = true ↔ _) :=
    pedersenAccepts_eq h hH rfl hshares (fun j hj => if_pos hj)
  have hfalse : ¬ ok = true := by
    rw [hiff]
    intro hall
    have hoff := hall victim hmem
    rw [if_pos rfl, cast_modSub h, Int.cast_add, cast_polyEval h, cast_polyEval h, evalAt_pedersen, add_smul,
      Int.cast_one, one_smul, add_right_cancel_iff, add_eq_left] at hoff
    exact BabyJubJub.base_ne_zero hoff
  rw [hok, Bool.eq_false_iff.2 hfalse]

/-- The dealers of the first phase. -/
theorem deal_eq (scalars : ℤ → DealerScalars) (participants : List ℤ) (t : ℕ) (badShareDealers : List ℤ) (id : ℤ) :
    deal poseidon lib unpackPoint scalars participants t badShareDealers id =
      .ok (if id ∈ badShareDealers then corrupt lib participants (honestDealer lib H (scalars id) participants t id)
        else honestDealer lib H (scalars id) participants t id) :=
  bind_of_ok (contribute_eq h hH (scalars id) id participants t) _

/-- Those that are not faulty are left after it. -/
theorem qualified_eq (scalars : ℤ → DealerScalars) {participants : List ℤ} (t : ℕ) (badShareDealers : List ℤ)
    (hother : ∀ id ∈ participants, ∃ j ∈ participants, j ≠ id) {ids : List ℤ} (hids : ∀ id ∈ ids, id ∈ participants)
    (qual : List PedersenDealer) :
    (ids.map fun id => if id ∈ badShareDealers
        then corrupt lib participants (honestDealer lib H (scalars id) participants t id)
        else honestDealer lib H (scalars id) participants t id).foldlM
      (qualStep poseidon lib unpackPoint participants) qual =
    .ok (qual ++ (ids.filter (· ∉ badShareDealers)).map fun id =>
      honestDealer lib H (scalars id) participants t id) := by
  induction ids generalizing qual with
  | nil => simp; rfl
  | cons id ids ih =>
    have hrest := fun j hj => hids j (List.mem_cons_of_mem id hj)
    rw [List.map_cons, List.foldlM_cons]
    by_cases hbad : id ∈ badShareDealers
    · have hstep : qualStep poseidon lib unpackPoint participants qual
          (corrupt lib participants (honestDealer lib H (scalars id) participants t id)) = .ok qual :=
        bind_of_ok (accepts_corrupt h hH (scalars id) t (hother id (hids id List.mem_cons_self))) _
      rw [if_pos hbad, bind_of_ok hstep, ih hrest, List.filter_cons_of_neg (by simpa using hbad)]
    · have hstep : qualStep poseidon lib unpackPoint participants qual
          (honestDealer lib H (scalars id) participants t id) =
            .ok (qual ++ [honestDealer lib H (scalars id) participants t id]) :=
        bind_of_ok (accepts_honest h hH (scalars id) participants t id) _
      rw [if_neg hbad, bind_of_ok hstep, ih hrest, List.filter_cons_of_pos (by simpa using hbad), List.map_cons,
        List.append_assoc, List.singleton_append]

/-! ## The second phase -/

omit hH in
/-- What an honest dealer reveals is what `dealerContribute` publishes. -/
theorem reveal_eq {scalars : DealerScalars} {participants : List ℤ} {t : ℕ} {id context k : ℤ}
    {c : DealerContribution}
    (hc : dealerContribute poseidon lib ((List.range t).map scalars.a) k id participants context = .ok c) :
    reveal poseidon lib context participants k (honestDealer lib H scalars participants t id) = .ok c := by
  obtain ⟨-, hverified⟩ := dealerContribute_verified poseidon h hc
  cases hcoeffs : (List.range t).map scalars.a with
  | nil =>
    rw [hcoeffs] at hc
    cases hc
  | cons secret coeffs =>
    have hshares : ∀ j ∈ participants, feldmanReveal lib (honestDealer lib H scalars participants t id)
        (feldmanCommit lib (secret :: coeffs)) j = .ok () := by
      intro j hj
      have hshare : feldmanVerifyShare lib j (polyEval lib (secret :: coeffs) j)
          (feldmanCommit lib (secret :: coeffs)) = true := by
        rw [feldmanCommit_eq h, feldmanVerifyShare_iff h, evalAt_map_smul, cast_polyEval h]
      simp only [feldmanReveal, honestDealer, hcoeffs, if_pos hj, hshare]
      rfl
    have hloop : ∀ js : List ℤ, (∀ j ∈ js, j ∈ participants) →
        js.forM (feldmanReveal lib (honestDealer lib H scalars participants t id)
          (feldmanCommit lib (secret :: coeffs))) = .ok () := by
      intro js
      induction js with
      | nil => exact fun _ => rfl
      | cons j js ih =>
        intro hjs
        exact (bind_of_ok (hshares j (hjs j List.mem_cons_self)) _).trans
          (ih fun i hi => hjs i (List.mem_cons_of_mem j hi))
    rw [hcoeffs, dealerContribute] at hc
    obtain ⟨pop, hpop, hc⟩ := bind_eq_ok.1 hc
    cases hc
    have hverify : verifyPoP poseidon lib id context (feldmanCommit lib (secret :: coeffs)) pop = .ok true :=
      verifyPoP_provePoP poseidon h (feldmanCommit lib coeffs) hpop
    have haCoeffs : (honestDealer lib H scalars participants t id).aCoeffs = secret :: coeffs := hcoeffs
    unfold reveal
    rw [haCoeffs]
    dsimp only
    refine (bind_of_ok hpop _).trans ((bind_of_ok (hloop participants fun j hj => hj) _).trans
      ((bind_of_ok hverify _).trans ?_))
    rw [honestDealer, hcoeffs]
    rfl

/-! ## The result -/

omit h hH in
theorem mem_gjkrParticipants {n : ℕ} {id : ℤ} : id ∈ gjkrParticipants n ↔ 1 ≤ id ∧ id ≤ n := by
  rw [gjkrParticipants, List.mem_map]
  constructor
  · rintro ⟨i, hi, rfl⟩
    have := List.mem_range.1 hi
    omega
  · intro hid
    exact ⟨(id - 1).toNat, List.mem_range.2 (by omega), by omega⟩

omit h hH in
/-- The identifiers differ modulo the order. -/
theorem nodup_gjkrParticipants {n : ℕ} (hn : n < subOrder) : (residues subOrder (gjkrParticipants n)).Nodup := by
  have hnodup : (gjkrParticipants n).Nodup := by
    refine List.Nodup.map ?_ List.nodup_range
    intro i j hij
    simpa using hij
  refine hnodup.map_on fun i hi j hj hij => ?_
  rw [mem_gjkrParticipants] at hi hj
  exact eq_of_cast_eq (q := subOrder) (by omega) (by omega) (by omega) (by omega) hij

omit h hH in
theorem aggregate_qual {participants : List ℤ} {dealers : List DealerContribution} {r : DkgResult}
    (hr : aggregate lib participants dealers = .ok r) : r.qual = dealers.map DealerContribution.id := by
  obtain ⟨C, -, hr⟩ := bind_eq_ok.1 hr
  obtain ⟨maps, -, hr⟩ := bind_eq_ok.1 hr
  cases hr
  rfl

omit h hH in
theorem dealerContribute_id {coeffs participants : List ℤ} {k id context : ℤ} {c : DealerContribution}
    (hc : dealerContribute poseidon lib coeffs k id participants context = .ok c) : c.id = id := by
  cases coeffs with
  | nil => cases hc
  | cons secret coeffs =>
    obtain ⟨pop, -, hc⟩ := bind_eq_ok.1 hc
    cases hc
    rfl

omit h hH in
/-- The sum of the polynomials of these dealers. -/
noncomputable def sumPolynomial (scalars : ℤ → DealerScalars) (t : ℕ) (ids : List ℤ) : (ZMod subOrder)[X] :=
  (ids.map fun id => ofCoefficients (residues subOrder ((List.range t).map (scalars id).a))).sum

omit h hH in
theorem degree_sumPolynomial_lt (scalars : ℤ → DealerScalars) {t : ℕ} (ids : List ℤ) :
    (sumPolynomial scalars t ids).degree < t := by
  induction ids with
  | nil =>
    rw [sumPolynomial, List.map_nil, List.sum_nil, degree_zero]
    exact WithBot.bot_lt_coe t
  | cons id ids ih =>
    rw [sumPolynomial, List.map_cons, List.sum_cons]
    refine lt_of_le_of_lt (degree_add_le _ _) (max_lt ?_ ih)
    have hlt := degree_ofCoefficients_lt (residues subOrder ((List.range t).map (scalars id).a))
    rwa [length_residues, List.length_map, List.length_range] at hlt

omit h hH in
/-- Its value at zero is the sum of the constant coefficients. -/
theorem eval_zero_sumPolynomial (scalars : ℤ → DealerScalars) {t : ℕ} (ht : 1 ≤ t) (ids : List ℤ) :
    (sumPolynomial scalars t ids).eval 0 = ((ids.map fun id => (scalars id).a 0).sum : ℤ) := by
  obtain ⟨t, rfl⟩ := Nat.exists_eq_add_of_le' ht
  induction ids with
  | nil => simp [sumPolynomial]
  | cons id ids ih =>
    rw [sumPolynomial] at ih ⊢
    rw [List.map_cons, List.sum_cons, eval_add, ih, List.range_succ_eq_map, List.map_cons, residues_cons,
      eval_zero_ofCoefficients, List.map_cons, List.sum_cons, Int.cast_add]

/-- What a run gives that leaves these dealers. -/
structure Outcome (lib : Library) (scalars : ℤ → DealerScalars) (n t : ℕ) (ids : List ℤ) (r : DkgResult) :
    Prop where
  qual : r.qual = ids
  C : r.C = scalarBaseMul lib (ids.map fun id => (scalars id).a 0).sum
  shares : ∀ i ∈ gjkrParticipants n, ∃ s, r.shares i = some s ∧ r.V i = some (scalarBaseMul lib s)
  interpolate : ∀ quorum : List ℤ, quorum.Nodup → t ≤ quorum.length → (∀ i ∈ quorum, i ∈ gjkrParticipants n) →
    interpolateAtZero lib r.shares quorum =
      .ok ((((ids.map fun id => (scalars id).a 0).sum : ℤ) : ZMod subOrder).val : ℤ)

theorem runGjkrDkg_of_getH {scalars : ℤ → DealerScalars} {n t : ℕ} {context : ℤ} {badShareDealers : List ℤ}
    (hn : 2 ≤ n) (hsafe : n < subOrder) (ht : 1 ≤ t) (hcontext : 0 ≤ context ∧ context < bn254ScalarFieldModulus)
    (hgood : ∃ id ∈ gjkrParticipants n, id ∉ badShareDealers) :
    ∃ r, runGjkrDkg poseidon lib unpackPoint scalars n t context badShareDealers = .ok r ∧
      Outcome lib scalars n t ((gjkrParticipants n).filter (· ∉ badShareDealers)) r := by
  have hother : ∀ id ∈ gjkrParticipants n, ∃ j ∈ gjkrParticipants n, j ≠ id := by
    intro id _
    by_cases hid : id = 1
    · exact ⟨2, mem_gjkrParticipants.2 (by omega), by omega⟩
    · exact ⟨1, mem_gjkrParticipants.2 (by omega), fun heq => hid heq.symm⟩
  -- the qualified dealers, and what they reveal
  let ids := (gjkrParticipants n).filter (· ∉ badShareDealers)
  have hidsub : ∀ id ∈ ids, id ∈ gjkrParticipants n := fun id hid => (List.mem_filter.1 hid).1
  have hreveals : ∀ id ∈ ids, ∃ c, dealerContribute poseidon lib ((List.range t).map (scalars id).a) (scalars id).k
      id (gjkrParticipants n) context = .ok c := by
    intro id hid
    have hrange := mem_gjkrParticipants.1 (hidsub id hid)
    have hmodulus : subOrder < bn254ScalarFieldModulus := by norm_num [subOrder, bn254ScalarFieldModulus]
    obtain ⟨t', rfl⟩ := Nat.exists_eq_add_of_le' ht
    rw [List.range_succ_eq_map, List.map_cons]
    exact dealerContribute_isOk h _ _ (by omega) hcontext
  obtain ⟨id₀, hid₀, hgood₀⟩ := hgood
  have hmem₀ : id₀ ∈ ids := List.mem_filter.2 ⟨hid₀, by simpa using hgood₀⟩
  have hinhabited : Nonempty DealerContribution := ⟨(hreveals id₀ hmem₀).choose⟩
  choose! reveals hreveals using hreveals
  have hqual : (ids.map fun id => honestDealer lib H (scalars id) (gjkrParticipants n) t id).mapM
      (fun dealer => reveal poseidon lib context (gjkrParticipants n) (scalars dealer.id).k dealer) =
        .ok (ids.map reveals) := by
    have hsteps : (ids.map fun id => honestDealer lib H (scalars id) (gjkrParticipants n) t id).mapM
        (fun dealer => reveal poseidon lib context (gjkrParticipants n) (scalars dealer.id).k dealer) = .ok _ :=
      mapM_eq_ok (g := fun dealer => reveals dealer.id) fun dealer hdealer => by
        obtain ⟨id, hid, rfl⟩ := List.mem_map.1 hdealer
        exact reveal_eq h (hreveals id hid)
    rw [hsteps, List.map_map]
    rfl
  -- their commitments are to multiples of the base point
  let points : DealerContribution → List subgroup := fun c =>
    (residues subOrder ((List.range t).map (scalars c.id).a)).map fun a => a • base
  have hdealers : ∀ c ∈ ids.map reveals, c.commitments = coordsOf (points c) ∧ ∀ i ∈ gjkrParticipants n,
      verifyContribution poseidon lib i c context = .ok true := by
    intro c hc
    obtain ⟨id, hid, rfl⟩ := List.mem_map.1 hc
    obtain ⟨hcommitments, hverified⟩ := dealerContribute_verified poseidon h (hreveals id hid)
    refine ⟨?_, fun i hi => (hverified i hi).2⟩
    rw [hcommitments]
    simp only [points, dealerContribute_id (hreveals id hid)]
  have hne : gjkrParticipants n ≠ [] := List.ne_nil_of_mem hid₀
  obtain ⟨r, hr, hC, hshares⟩ := aggregate_eq h hne (fun c hc => (hdealers c hc).1) fun c hc => (hdealers c hc).2
  have hcommitted : ∀ x, committed points (ids.map reveals) x = (sumPolynomial scalars t ids).eval x • base := by
    intro x
    rw [committed, List.map_map, sumPolynomial, eval_listSum, List.map_map, List.sum_smul, List.map_map]
    refine congrArg List.sum (List.map_congr_left fun id hid => ?_)
    simp only [Function.comp_apply, points, dealerContribute_id (hreveals id hid)]
    rw [evalAt_map_smul]
  have hqualified : r.qual = ids := by
    rw [aggregate_qual hr, List.map_map]
    exact (List.map_congr_left fun id hid => dealerContribute_id (hreveals id hid)).trans (List.map_id ids)
  have hrun : runGjkrDkg poseidon lib unpackPoint scalars n t context badShareDealers = .ok r := by
    have hdeal := mapM_eq_ok fun id (_ : id ∈ gjkrParticipants n) =>
      deal_eq h hH scalars (gjkrParticipants n) t badShareDealers id
    have hfirst := qualified_eq h hH scalars t badShareDealers hother (fun id hid => hid) []
    rw [List.nil_append] at hfirst
    have hsome : ¬ (ids.map fun id => honestDealer lib H (scalars id) (gjkrParticipants n) t id).length = 0 := by
      rw [List.length_map]
      exact (List.length_pos_of_mem hmem₀).ne'
    rw [runGjkrDkg, bind_of_ok hdeal, bind_of_ok hfirst, if_neg hsome, bind_of_ok hqual, hr]
  have hzero := eval_zero_sumPolynomial scalars ht ids
  refine ⟨r, hrun, hqualified, ?_, fun i hi => ?_, fun quorum hquorum hlength hsub => ?_⟩
  · rw [hC, hcommitted, hzero, scalarBaseMul_eq h]
  · obtain ⟨s, hs, hV, -⟩ := hshares i hi
    exact ⟨s, hs, hV⟩
  · choose! s hs _ hvalue using hshares
    have heval : ∀ i ∈ quorum, ((s i : ℤ) : ZMod subOrder) =
        (sumPolynomial scalars t ids).eval (i : ZMod subOrder) := by
      intro i hi
      have hi' := hvalue i (hsub i hi)
      rw [hcommitted] at hi'
      exact BabyJubJub.smul_base_injective hi'
    obtain ⟨secret, hsecret, hnonneg, hlt, hsum⟩ := interpolateAtZero_eq h (fun i hi => hs i (hsub i hi)) heval
      (nodup_residues_of_subset (nodup_gjkrParticipants hsafe) hquorum hsub)
      ((degree_sumPolynomial_lt scalars ids).trans_le (by exact_mod_cast hlength))
    rw [hsecret, ← hzero, ← hsum, val_cast_of_range hnonneg hlt]

omit hH in
/-- With any set of faulty dealers that leaves one out, the key generation ends with exactly the other
dealers qualified; the key is the sum of their constant coefficients times the generator, each public
share is the participant's share times the generator, and the shares of any `t` participants or more
interpolate at zero to that sum.  The number of participants is below the order, as every counter of
the language is, and the context is the number of a field element. -/
theorem runGjkrDkg_eq (hunpack : Unpacks unpackPoint) {H : Point} (hH : getH poseidon lib unpackPoint = .ok H)
    {scalars : ℤ → DealerScalars} {n t : ℕ} {context : ℤ} {badShareDealers : List ℤ} (hn : 2 ≤ n)
    (hsafe : n < subOrder) (ht : 1 ≤ t) (hcontext : 0 ≤ context ∧ context < bn254ScalarFieldModulus)
    (hgood : ∃ id ∈ gjkrParticipants n, id ∉ badShareDealers) :
    ∃ r, runGjkrDkg poseidon lib unpackPoint scalars n t context badShareDealers = .ok r ∧
      Outcome lib scalars n t ((gjkrParticipants n).filter (· ∉ badShareDealers)) r := by
  obtain ⟨P, rfl⟩ := getH_inv h hunpack hH
  exact runGjkrDkg_of_getH h hH hn hsafe ht hcontext hgood

end Meaning

/-! ## Three participants, one faulty -/

/-- The decompression of the generator's ordinate, whose point has the smaller abscissa. -/
def unpackBase (c : ℤ) : Option Point :=
  if c = BabyJubJub.base8.y.val then some (coords BabyJubJub.base8) else none

theorem unpacks_unpackBase : Unpacks unpackBase := by
  intro c p hp
  unfold unpackBase at hp
  split at hp
  · cases hp
    exact ⟨_, rfl⟩
  · cases hp

/-- With a hash that always gives this ordinate the second generator is eight times the first. -/
theorem getH_unpackBase : getH (fun _ => BabyJubJub.base8.y) Library.reference unpackBase =
    .ok (coords ((8 : ZMod subOrder) • base : subgroup)) := by
  have h := Library.reference_lawful
  have hcandidate : ∀ seed : Fr, poseidon2 (fun _ => BabyJubJub.base8.y) [(seed.val : ℤ), ((0 : ℕ) : ℤ)] =
      .ok BabyJubJub.base8.y.val := by
    intro seed
    refine poseidon2_eq _ ?_
    simp only [List.forall_mem_cons]
    exact ⟨⟨Int.natCast_nonneg _, Int.ofNat_lt.2 (ZMod.val_lt seed)⟩, by norm_num [bn254ScalarFieldModulus],
      by simp⟩
  have hmul : scalarMul Library.reference cofactor (coords BabyJubJub.base8) =
      coords ((8 : ZMod subOrder) • base : subgroup) := by
    have hcast : ((cofactor : ℤ) : ZMod subOrder) = 8 := by rw [cofactor, Int.cast_ofNat]
    rw [← hcast]
    exact scalarMul_coords h cofactor base
  have hne : (8 : ZMod subOrder) • base ≠ 0 := by
    rw [ne_eq, smul_eq_zero, not_or]
    exact ⟨by decide +kernel, BabyJubJub.base_ne_zero⟩
  have hid : isIdentity (coords ((8 : ZMod subOrder) • base : subgroup)) = false := by
    rw [← Bool.not_eq_true, isIdentity_coords]
    exact fun hzero => hne (Subtype.ext hzero)
  have hother : pointEq (coords ((8 : ZMod subOrder) • base : subgroup)) Library.reference.base8 = false := by
    rw [← Bool.not_eq_true, pointEq_iff, h.base8]
    intro heq
    have hscalar : (8 : ZMod subOrder) • base = (1 : ZMod subOrder) • base := by
      rw [one_smul]
      exact Subtype.ext (coords_injective heq)
    exact absurd (BabyJubJub.smul_base_injective hscalar) (by decide +kernel)
  rw [getH, hMaxTries, List.range_succ_eq_map, deriveHLoop]
  refine (bind_of_ok (hcandidate _) _).trans ?_
  rw [unpackBase, if_pos rfl]
  dsimp only
  rw [hmul, hid, hother]
  exact bind_of_ok (assertInSubgroup_coords h hne _) _

/-- Dealer 2 of three sends a wrong share. -/
theorem runGjkrDkg_sample : ∃ r, runGjkrDkg (fun _ => BabyJubJub.base8.y) Library.reference unpackBase
    (fun id => ⟨fun _ => id, fun _ => 1, 1⟩) 3 2 0 [2] = .ok r ∧
      Outcome Library.reference (fun id => ⟨fun _ => id, fun _ => 1, 1⟩) 3 2 [1, 3] r :=
  runGjkrDkg_eq Library.reference_lawful unpacks_unpackBase getH_unpackBase (by decide)
    (by norm_num [subOrder]) (by decide) (by norm_num [bn254ScalarFieldModulus]) ⟨1, by decide, by decide⟩

end Kakure.Tss
