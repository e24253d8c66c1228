import Kakure.Frost.Round
import Kakure.Tss.Hash

/-!
# Threshold disclosure

`packages/sdk/src/tss/chaumPedersen.ts` and `threshold/compliance.ts`: a committee that shares a
secret recovers the first coordinate of the secret times an ephemeral point, from partials with a
proof each.  Random scalars are arguments here.

* `cpVerify_cpProve` — an honest partial is accepted;
* `foldlM_robustStep` — the partials that the loop keeps: the first valid one of each identifier, up to
  the threshold;
* `combine_eq` — the interpolation of valid partials in the exponent;
* `thresholdCekRobust_spec` — the result for every list of partials.
-/

namespace Kakure.Threshold

open Fallible Interpolation Polynomial
open Tss
open Frost (Sharing)
open BabyJubJub (subgroup base orderTwo two_nsmul_orderTwo)

variable (poseidon : List Fr → Fr) (lib : Library)

/-! ## Equality of logarithms -/

/-- `CP_DOMAIN`. -/
def cpDomain : ℤ := 0x23dabeda201c754f067d138365d1246df58773cc4ba056f4d1ef0c4a5d29c480

/-- `DleqProof`. -/
structure DleqProof where
  D : Point
  A : Point
  B : Point
  z : ℤ
  deriving DecidableEq

/-- `transcript`. -/
def transcript (epk V D A B : Point) : List ℤ :=
  [lib.base8.1, lib.base8.2, epk.1, epk.2, V.1, V.2, D.1, D.2, A.1, A.2, B.1, B.2]

/-- `cpProve`, with the random scalar `k`. -/
def cpProve (k secret : ℤ) (epk : Point) : Except String DleqProof := do
  let V := scalarMul lib secret lib.base8
  let D := scalarMul lib secret epk
  let A := scalarMul lib k lib.base8
  let B := scalarMul lib k epk
  let e ← hashToScalar poseidon lib cpDomain (transcript lib epk V D A B)
  .ok ⟨D, A, B, modSub lib (k + e * secret)⟩

/-- `cpVerify`. -/
def cpVerify (V epk : Point) (proof : DleqProof) : Except String Bool :=
  if !inSubgroupNonId lib proof.D then .ok false
  else do
    let e ← hashToScalar poseidon lib cpDomain (transcript lib epk V proof.D proof.A proof.B)
    let lhsBase := scalarMul lib proof.z lib.base8
    let rhsBase := pointAdd lib proof.A (scalarMul lib e V)
    let lhsEpk := scalarMul lib proof.z epk
    let rhsEpk := pointAdd lib proof.B (scalarMul lib e proof.D)
    .ok (pointEq lhsBase rhsBase && pointEq lhsEpk rhsEpk)

/-! ## Partials -/

/-- `Partial`. -/
structure Partial where
  id : ℤ
  proof : DleqProof
  deriving DecidableEq

/-- `partialDecrypt`, with the random scalar `k`. -/
def partialDecrypt (k id share : ℤ) (ephPub : Point) : Except String Partial := do
  assertInSubgroup lib ephPub "eph_pub"
  let proof ← cpProve poseidon lib k share ephPub
  .ok ⟨id, proof⟩

/-- What both loops below check of a partial they have no valid one of yet. -/
def accepted (ephPub : Point) (V : ℤ → Option Point) (p : Partial) : Except String Bool :=
  match V p.id with
  | none => .ok false
  | some vi =>
    if !inSubgroupNonId lib p.proof.D then .ok false
    else cpVerify poseidon lib vi ephPub p.proof

/-- One step of the first loop of `combine`: the identifiers seen, and the verified points. -/
def combineStep (ephPub : Point) (V : ℤ → Option Point) (acc : List ℤ × List (ℤ × Point)) (p : Partial) :
    Except String (List ℤ × List (ℤ × Point)) :=
  if p.id ∈ acc.1 then .ok acc
  else do
    let ok ← accepted poseidon lib ephPub V p
    .ok (if ok then (p.id :: acc.1, acc.2 ++ [(p.id, p.proof.D)]) else acc)

/-- One step of the second loop of `combine`. -/
def sumStep (quorum : List ℤ) (S : Point) (v : ℤ × Point) : Except String Point := do
  let l ← lagrangeAtZero lib v.1 quorum
  .ok (pointAdd lib S (scalarMul lib l v.2))

/-- `combine`. -/
def combine (ephPub : Point) (partials : List Partial) (V : ℤ → Option Point) (threshold : ℕ) :
    Except String Point := do
  assertInSubgroup lib ephPub "eph_pub"
  let (_, verified) ← partials.foldlM (combineStep poseidon lib ephPub V) ([], [])
  if verified.length < threshold then
    .error s!"compliance: {verified.length} valid partials, need >= {threshold}"
  else verified.foldlM (sumStep lib (verified.map Prod.fst)) identity

/-- `thresholdCek`. -/
def thresholdCek (ephPub : Point) (partials : List Partial) (V : ℤ → Option Point) (threshold : ℕ) :
    Except String Fr := do
  let S ← combine poseidon lib ephPub partials V threshold
  newFr S.1

/-- The variables of the loop of `thresholdCekRobust`. -/
structure Selection where
  good : List Partial
  excluded : List ℤ
  seen : List ℤ

/-- One step of that loop. -/
def robustStep (ephPub : Point) (V : ℤ → Option Point) (t : ℕ) (acc : Selection) (p : Partial) :
    Except String Selection :=
  if p.id ∈ acc.seen then .ok acc
  else do
    let ok ← accepted poseidon lib ephPub V p
    .ok (if ok then ⟨if acc.good.length < t then acc.good ++ [p] else acc.good, acc.excluded, p.id :: acc.seen⟩
      else ⟨acc.good, acc.excluded ++ [p.id], acc.seen⟩)

/-- The result of `thresholdCekRobust`. -/
structure RobustCek where
  cek : Fr
  used : List ℤ
  excluded : List ℤ

/-- `thresholdCekRobust`. -/
def thresholdCekRobust (ephPub : Point) (allPartials : List Partial) (V : ℤ → Option Point) (t : ℕ) :
    Except String RobustCek := do
  assertInSubgroup lib ephPub "eph_pub"
  let selection ← allPartials.foldlM (robustStep poseidon lib ephPub V t) ⟨[], [], []⟩
  if selection.good.length < t then
    .error s!"compliance: only {selection.good.length} valid partials, need {t}"
  else do
    let cek ← thresholdCek poseidon lib ephPub selection.good V t
    .ok ⟨cek, selection.good.map Partial.id, selection.excluded⟩

/-! ## The checks -/

section Meaning

variable {lib} (h : lib.Lawful)

include h

/-- The proof of an honest member is accepted. -/
theorem cpVerify_cpProve {k secret : ℤ} {P : subgroup} (hP : (secret : ZMod subOrder) • P ≠ 0) {proof : DleqProof}
    (hproof : cpProve poseidon lib k secret (coords P) = .ok proof) :
    cpVerify poseidon lib (scalarBaseMul lib secret) (coords P) proof = .ok true := by
  rw [cpProve, bind_eq_ok] at hproof
  obtain ⟨e, he, hproof⟩ := hproof
  cases hproof
  have hD : inSubgroupNonId lib (scalarMul lib secret (coords P)) = true := by
    rw [scalarMul_coords h, inSubgroupNonId_coords h]
    exact ⟨Subtype.prop _, fun hzero => hP (Subtype.ext hzero)⟩
  rw [cpVerify, hD]
  refine (bind_of_ok he _).trans (congrArg Except.ok ?_)
  rw [Bool.and_eq_true, pointEq_iff, pointEq_iff, scalarBaseMul, base8_eq h]
  simp only [scalarMul_coords h, pointAdd_coords h, cast_modSub h]
  push_cast
  rw [add_smul, mul_smul, add_smul, mul_smul]
  exact ⟨rfl, rfl⟩

end Meaning

/-! ## The committee -/

/-- A sharing among members whose identifiers are different scalars. -/
structure Committee where
  sharing : Sharing subOrder
  members : List ℤ
  nodup : (residues subOrder members).Nodup

/-- The public shares. -/
noncomputable def Committee.V (committee : Committee) (i : ℤ) : Option Point :=
  if i ∈ committee.members then some (scalarBaseMul lib (committee.sharing.share i)) else none

/-- The right multiple for a member. -/
noncomputable def Committee.multiple (committee : Committee) (P : subgroup) (i : ℤ) : subgroup :=
  committee.sharing.polynomial.eval (i : ZMod subOrder) • P

/-- A partial of a member, with the right multiple, which is not zero. -/
def Committee.Valid (committee : Committee) (P : subgroup) (p : Partial) : Prop :=
  p.id ∈ committee.members ∧ p.proof.D = coords (committee.multiple P p.id) ∧ committee.multiple P p.id ≠ 0

/-- The members that have a valid partial in the list. -/
def Committee.validIds (committee : Committee) (P : subgroup) (partials : List Partial) : Set ℤ :=
  {i | ∃ p ∈ partials, committee.Valid P p ∧ p.id = i}

/-- The proof check accepts the partials of the list exactly when they are the right multiples. -/
def Committee.Sound (committee : Committee) (P : subgroup) (partials : List Partial) : Prop :=
  ∀ p ∈ partials, p.id ∈ committee.members → inSubgroupNonId lib p.proof.D = true →
    ∃ ok, cpVerify poseidon lib (scalarBaseMul lib (committee.sharing.share p.id)) (coords P) p.proof = .ok ok ∧
      (ok = true ↔ p.proof.D = coords (committee.multiple P p.id))

/-- Under that assumption the checks find out which partials are valid. -/
theorem accepted_eq {lib : Library} (h : lib.Lawful) {committee : Committee} {P : subgroup} {partials : List Partial}
    (hsound : committee.Sound poseidon lib P partials) {p : Partial} (hp : p ∈ partials) :
    ∃ ok, accepted poseidon lib (coords P) (committee.V lib) p = .ok ok ∧ (ok = true ↔ committee.Valid P p) := by
  rw [accepted, Committee.V]
  by_cases hmember : p.id ∈ committee.members
  · simp only [if_pos hmember]
    by_cases hD : inSubgroupNonId lib p.proof.D = true
    · obtain ⟨ok, hok, hiff⟩ := hsound p hp hmember hD
      refine ⟨ok, by rw [hD]; exact hok, hiff.trans ⟨fun heq => ?_, fun hvalid => hvalid.2.1⟩⟩
      rw [heq, inSubgroupNonId_coords h] at hD
      exact ⟨hmember, heq, fun hzero => hD.2 (congrArg Subtype.val hzero)⟩
    · rw [Bool.not_eq_true] at hD
      refine ⟨false, by rw [hD]; rfl, fun hfalse => absurd hfalse Bool.false_ne_true, ?_⟩
      rintro ⟨-, heq, hne⟩
      rw [heq, ← Bool.not_eq_true, inSubgroupNonId_coords h] at hD
      exact absurd ⟨Subtype.prop _, fun hzero => hne (Subtype.ext hzero)⟩ hD
  · simp only [if_neg hmember]
    exact ⟨false, rfl, fun hfalse => absurd hfalse Bool.false_ne_true, fun hvalid => absurd hvalid.1 hmember⟩

/-! ## The loops -/

section Loops

variable {lib} (h : lib.Lawful) {committee : Committee} {P : subgroup}

/-- What the loop has selected of a list: the identifiers with a valid partial, and a valid partial of
as many of them as the threshold asks for. -/
structure Selected (valid : Partial → Prop) (t : ℕ) (l : List Partial) (s : Selection) : Prop where
  mem_seen : ∀ i, i ∈ s.seen ↔ ∃ p ∈ l, valid p ∧ p.id = i
  seen_nodup : s.seen.Nodup
  good_valid : ∀ p ∈ s.good, p ∈ l ∧ valid p
  good_nodup : (s.good.map Partial.id).Nodup
  good_length : s.good.length = min t s.seen.length

include h

/-- One more partial. -/
theorem robustStep_selected {partials l : List Partial} {t : ℕ} {s : Selection} {p : Partial}
    (hsound : committee.Sound poseidon lib P partials) (hp : p ∈ partials)
    (hselected : Selected (committee.Valid P) t l s) : ∃ s',
    robustStep poseidon lib (coords P) (committee.V lib) t s p = .ok s' ∧
      Selected (committee.Valid P) t (l ++ [p]) s' := by
  obtain ⟨hseen, hnodup, hvalid, hgood, hlength⟩ := hselected
  have hkeep : ∀ q ∈ s.good, q ∈ l ++ [p] ∧ committee.Valid P q := fun q hq =>
    ⟨List.mem_append_left _ (hvalid q hq).1, (hvalid q hq).2⟩
  have hmore : ∀ i, (∃ q ∈ l ++ [p], committee.Valid P q ∧ q.id = i) ↔
      i ∈ s.seen ∨ (committee.Valid P p ∧ p.id = i) := by
    intro i
    rw [hseen]
    simp only [List.mem_append, List.mem_singleton, or_and_right, exists_or, exists_eq_left]
  rw [robustStep]
  by_cases hmem : p.id ∈ s.seen
  · refine ⟨s, by rw [if_pos hmem], ⟨fun i => ?_, hnodup, hkeep, hgood, hlength⟩⟩
    rw [hmore]
    refine ⟨Or.inl, fun hor => hor.elim (fun hi => hi) ?_⟩
    rintro ⟨-, rfl⟩
    exact hmem
  · obtain ⟨ok, hok, hiff⟩ := accepted_eq poseidon h hsound hp
    rw [if_neg hmem, bind_of_ok hok]
    cases ok with
    | true =>
      have hp' := hiff.1 rfl
      rw [if_pos rfl]
      refine ⟨_, rfl, ⟨fun i => ?_, List.nodup_cons.2 ⟨hmem, hnodup⟩, ?_, ?_, ?_⟩⟩
      · rw [hmore, List.mem_cons]
        constructor
        · rintro (rfl | hi)
          · exact Or.inr ⟨hp', rfl⟩
          · exact Or.inl hi
        · rintro (hi | ⟨-, rfl⟩)
          · exact Or.inr hi
          · exact Or.inl rfl
      · intro q hq
        dsimp only at hq
        split_ifs at hq with hlt
        · rcases List.mem_append.1 hq with hq | hq
          · exact hkeep q hq
          · obtain rfl := List.mem_singleton.1 hq
            exact ⟨List.mem_append_right _ hq, hp'⟩
        · exact hkeep q hq
      · dsimp only
        split_ifs with hlt
        · rw [List.map_append, List.nodup_append]
          refine ⟨hgood, List.nodup_singleton _, fun i hi j hj => ?_⟩
          obtain ⟨q, hq, rfl⟩ := List.mem_map.1 hi
          rw [List.map_singleton, List.mem_singleton] at hj
          rintro rfl
          exact hmem ((hseen _).2 ⟨q, (hvalid q hq).1, (hvalid q hq).2, hj⟩)
        · exact hgood
      · dsimp only
        rw [List.length_cons]
        split_ifs with hlt
        · rw [List.length_append, List.length_singleton]
          omega
        · omega
    | false =>
      have hp' : ¬ committee.Valid P p := fun hvalid => Bool.false_ne_true (hiff.2 hvalid)
      rw [if_neg Bool.false_ne_true]
      refine ⟨_, rfl, ⟨fun i => ?_, hnodup, hkeep, hgood, hlength⟩⟩
      rw [hmore]
      exact ⟨Or.inl, fun hor => hor.elim (fun hi => hi) fun hno => absurd hno.1 hp'⟩

/-- The whole list. -/
theorem foldlM_robustStep {partials : List Partial} {t : ℕ} (hsound : committee.Sound poseidon lib P partials) :
    ∃ s, partials.foldlM (robustStep poseidon lib (coords P) (committee.V lib) t) ⟨[], [], []⟩ = .ok s ∧
      Selected (committee.Valid P) t partials s := by
  have hrun : ∀ (l done : List Partial) (s : Selection), (∀ p ∈ l, p ∈ partials) →
      Selected (committee.Valid P) t done s → ∃ s',
        l.foldlM (robustStep poseidon lib (coords P) (committee.V lib) t) s = .ok s' ∧
          Selected (committee.Valid P) t (done ++ l) s' := by
    intro l
    induction l with
    | nil => exact fun done s _ hs => ⟨s, rfl, by rwa [List.append_nil]⟩
    | cons p l ih =>
      intro done s hmem hs
      obtain ⟨s', hstep, hs'⟩ := robustStep_selected poseidon h hsound (hmem p List.mem_cons_self) hs
      obtain ⟨s'', hrest, hs''⟩ := ih (done ++ [p]) s' (fun q hq => hmem q (List.mem_cons_of_mem p hq)) hs'
      refine ⟨s'', by rw [List.foldlM_cons, bind_of_ok hstep, hrest], ?_⟩
      rwa [List.append_assoc, List.singleton_append] at hs''
  refine hrun partials [] ⟨[], [], []⟩ (fun p hp => hp) ⟨?_, List.nodup_nil, ?_, List.nodup_nil, ?_⟩
  · simp
  · simp
  · simp

/-- Valid partials with different identifiers are all verified. -/
theorem foldlM_combineStep {partials : List Partial} (hsound : committee.Sound poseidon lib P partials)
    (hvalid : ∀ p ∈ partials, committee.Valid P p) {l : List Partial} (hl : ∀ p ∈ l, p ∈ partials)
    (hnodup : (l.map Partial.id).Nodup) (seen : List ℤ) (verified : List (ℤ × Point))
    (hseen : ∀ p ∈ l, p.id ∉ seen) : ∃ seen',
    l.foldlM (combineStep poseidon lib (coords P) (committee.V lib)) (seen, verified) =
      .ok (seen', verified ++ l.map fun p => (p.id, coords (committee.multiple P p.id))) := by
  induction l generalizing seen verified with
  | nil => exact ⟨seen, by rw [List.map_nil, List.append_nil]; rfl⟩
  | cons p l ih =>
    have hp := hl p List.mem_cons_self
    have hD := (hvalid p hp).2.1
    rw [List.map_cons, List.nodup_cons] at hnodup
    have hstep : combineStep poseidon lib (coords P) (committee.V lib) (seen, verified) p =
        .ok (p.id :: seen, verified ++ [(p.id, coords (committee.multiple P p.id))]) := by
      obtain ⟨ok, hok, hiff⟩ := accepted_eq poseidon h hsound hp
      rw [combineStep, if_neg (hseen p List.mem_cons_self), bind_of_ok hok, if_pos (hiff.2 (hvalid p hp)), hD]
    obtain ⟨seen', hrest⟩ := ih (fun q hq => hl q (List.mem_cons_of_mem p hq)) hnodup.2 (p.id :: seen)
      (verified ++ [(p.id, coords (committee.multiple P p.id))]) fun q hq => by
        rw [List.mem_cons, not_or]
        refine ⟨fun heq => hnodup.1 ?_, hseen q (List.mem_cons_of_mem p hq)⟩
        rw [← heq]
        exact List.mem_map_of_mem hq
    refine ⟨seen', ?_⟩
    rw [List.foldlM_cons, bind_of_ok hstep, hrest, List.append_assoc, List.singleton_append, List.map_cons]

omit h in
/-- The loop of the interpolation adds weighted points up. -/
theorem foldlM_sumStep (h : lib.Lawful) (quorum : List ℤ) (points : ℤ → subgroup) (ids : List ℤ) (acc : subgroup) :
    (ids.map fun i => (i, coords (points i : subgroup))).foldlM (sumStep lib quorum) (coords acc) =
      .ok (coords (acc + (ids.map fun i : ℤ => weight (residues subOrder quorum) (i : ZMod subOrder) • points i).sum :
        subgroup)) := by
  induction ids generalizing acc with
  | nil =>
    rw [List.map_nil, List.map_nil, List.sum_nil, add_zero]
    rfl
  | cons i ids ih =>
    obtain ⟨l, hl, hweight⟩ := lagrangeAtZero_eq h i quorum
    have hstep : sumStep lib quorum (coords acc) (i, coords (points i : subgroup)) =
        .ok (coords (acc + weight (residues subOrder quorum) (i : ZMod subOrder) • points i : subgroup)) := by
      rw [sumStep, bind_of_ok hl, scalarMul_coords h, pointAdd_coords h, hweight]
      rfl
    rw [List.map_cons, List.foldlM_cons, bind_of_ok hstep, ih, List.map_cons, List.sum_cons, add_assoc]

/-- The interpolation of enough valid partials. -/
theorem combine_eq {partials : List Partial} {t : ℕ} (hsound : committee.Sound poseidon lib P partials) (hP : P ≠ 0)
    (hvalid : ∀ p ∈ partials, committee.Valid P p) (hnodup : (partials.map Partial.id).Nodup)
    (ht : t ≤ partials.length) (hdegree : committee.sharing.threshold ≤ t) :
    combine poseidon lib (coords P) partials (committee.V lib) t = .ok (coords (committee.multiple P 0 : subgroup)) := by
  obtain ⟨seen, hverified⟩ := foldlM_combineStep poseidon h hsound hvalid (fun p hp => hp) hnodup [] []
    fun p _ => List.not_mem_nil
  have hids : (partials.map fun p => (p.id, coords (committee.multiple P p.id : subgroup))) =
      (partials.map Partial.id).map fun i => (i, coords (committee.multiple P i : subgroup)) := by
    rw [List.map_map]
    rfl
  have hquorum : ((partials.map Partial.id).map fun i => (i, coords (committee.multiple P i : subgroup))).map Prod.fst =
      partials.map Partial.id := by
    rw [List.map_map]
    exact List.map_id _
  have hmembers : (residues subOrder (partials.map Partial.id)).Nodup := by
    refine nodup_residues_of_subset committee.nodup hnodup fun i hi => ?_
    obtain ⟨p, hp, rfl⟩ := List.mem_map.1 hi
    exact (hvalid p hp).1
  have hlength : committee.sharing.polynomial.degree < (residues subOrder (partials.map Partial.id)).length := by
    refine lt_of_lt_of_le committee.sharing.degree_lt ?_
    rw [length_residues, List.length_map]
    exact_mod_cast hdegree.trans ht
  have hzero : identity = coords ((0 : subgroup) : BabyJubJub.Point) := identity_eq
  rw [combine, bind_of_ok (assertInSubgroup_coords h hP _), bind_of_ok hverified, List.nil_append, hids]
  simp only [List.length_map, if_neg (not_lt.2 ht), hquorum]
  rw [hzero, foldlM_sumStep h, zero_add]
  have hsum := sum_weight_smul_eval hmembers hlength P
  rw [residues, List.map_map] at hsum
  rw [Committee.multiple, Int.cast_zero, ← hsum]
  rfl

end Loops

/-! ## The result -/

/-- On a point of the subgroup other than the identity the result is the first coordinate of the secret
multiple when enough members have a valid partial in the list, and an error otherwise; on any other
pair of field elements it is an error. -/
theorem thresholdCekRobust_spec (h : lib.Lawful) (committee : Committee) (partials : List Partial) :
    (∀ P : subgroup, P ≠ 0 → committee.Sound poseidon lib P partials →
      (committee.sharing.threshold ≤ (committee.validIds P partials).ncard →
        ∃ r, thresholdCekRobust poseidon lib (coords P) partials (committee.V lib) committee.sharing.threshold = .ok r ∧
          r.cek = ((committee.sharing.polynomial.eval 0 • P : subgroup) : BabyJubJub.Point).x) ∧
      ((committee.validIds P partials).ncard < committee.sharing.threshold →
        ∃ e, thresholdCekRobust poseidon lib (coords P) partials (committee.V lib) committee.sharing.threshold =
          .error e)) ∧
    ∀ ephPub : Point, Reduced ephPub → (¬ ∃ P : subgroup, P ≠ 0 ∧ ephPub = coords P) →
      ∃ e, thresholdCekRobust poseidon lib ephPub partials (committee.V lib) committee.sharing.threshold = .error e := by
  constructor
  · intro P hP hsound
    obtain ⟨s, hs, hselected⟩ := foldlM_robustStep (t := committee.sharing.threshold) poseidon h hsound
    have hcard : (committee.validIds P partials).ncard = s.seen.length := by
      have hset : committee.validIds P partials = ↑s.seen.toFinset := by
        ext i
        rw [List.coe_toFinset]
        exact (hselected.mem_seen i).symm
      rw [hset, Set.ncard_coe_finset, List.toFinset_card_of_nodup hselected.seen_nodup]
    have hlength := hselected.good_length
    rw [thresholdCekRobust, bind_of_ok (assertInSubgroup_coords h hP _), bind_of_ok hs, hcard]
    constructor
    · intro henough
      have hgood : s.good.length = committee.sharing.threshold := by omega
      have hsound' : committee.Sound poseidon lib P s.good := fun p hp => hsound p (hselected.good_valid p hp).1
      have hcombine := combine_eq poseidon h hsound' hP (fun p hp => (hselected.good_valid p hp).2)
        hselected.good_nodup hgood.ge le_rfl
      obtain ⟨hx, hxlt⟩ := (coords_range (committee.multiple P 0).1).1
      have hcek := (bind_of_ok hcombine fun S => newFr S.1).trans (newFr_eq hx hxlt)
      rw [if_neg (by omega)]
      refine ⟨_, bind_of_ok hcek _, ?_⟩
      rw [coords, Int.cast_natCast, ZMod.natCast_zmod_val, Committee.multiple, Int.cast_zero]
    · intro hfew
      rw [if_pos (by omega)]
      exact ⟨_, rfl⟩
  · intro ephPub hreduced hno
    obtain ⟨e, he⟩ := assertInSubgroup_error h hreduced hno "eph_pub"
    exact ⟨e, by rw [thresholdCekRobust, he]; rfl⟩

/-! ## One member -/

/-- A committee of one, with a secret. -/
noncomputable def soloCommittee (secret : ZMod subOrder) : Committee where
  sharing := ⟨1, C secret, Frost.degree_solo secret⟩
  members := [1]
  nodup := List.nodup_singleton _

/-- A partial of the member, whose proof is that of a zero challenge. -/
def zeroPartial (D : Point) : Partial := ⟨1, ⟨D, identity, identity, 0⟩⟩

/-- When every hash is zero, that proof is accepted. -/
theorem cpVerify_zeroPartial {lib : Library} (h : lib.Lawful) (V epk : BabyJubJub.Point) {D : subgroup} (hD : D ≠ 0) :
    cpVerify (fun _ => 0) lib (coords V) (coords epk) (zeroPartial (coords D)).proof = .ok true := by
  have hone : (0 : ℤ) ≤ 1 ∧ (1 : ℤ) < bn254ScalarFieldModulus := by norm_num [bn254ScalarFieldModulus]
  have hrange : ∀ last : ℤ, 0 ≤ last ∧ last < bn254ScalarFieldModulus → ∀ x ∈ cpDomain ::
      (transcript lib (coords epk) (coords V) (coords D) identity identity ++ [last]),
      0 ≤ x ∧ x < bn254ScalarFieldModulus := by
    intro last hlast
    obtain ⟨hbx, hby⟩ := coords_range BabyJubJub.base8
    obtain ⟨hex, hey⟩ := coords_range epk
    obtain ⟨hVx, hVy⟩ := coords_range V
    obtain ⟨hDx, hDy⟩ := coords_range D.1
    rw [transcript, h.base8]
    simp only [List.cons_append, List.nil_append, List.forall_mem_cons]
    exact ⟨by norm_num [cpDomain, bn254ScalarFieldModulus], hbx, hby, hex, hey, hVx, hVy, hDx, hDy,
      ⟨le_rfl, hone.1.trans_lt hone.2⟩, hone, ⟨le_rfl, hone.1.trans_lt hone.2⟩, hone, hlast, by simp⟩
  have hhash : hashToScalar (fun _ => 0) lib cpDomain
      (transcript lib (coords epk) (coords V) (coords D) identity identity) = .ok 0 := by
    rw [hashToScalar, List.singleton_append, List.cons_append, List.cons_append]
    rw [poseidon2_eq _ (hrange 0 ⟨le_rfl, hone.1.trans_lt hone.2⟩), poseidon2_eq _ (hrange 1 hone)]
    refine congrArg Except.ok ?_
    rw [ZMod.val_zero, Nat.cast_zero, zero_mul, add_zero, Int.zero_tmod]
  have hnonId : inSubgroupNonId lib (coords D) = true := by
    rw [inSubgroupNonId_coords h]
    exact ⟨D.2, fun hzero => hD (Subtype.ext hzero)⟩
  have hmul : ∀ Q : BabyJubJub.Point, scalarMul lib 0 (coords Q) = coords 0 := by
    intro Q
    have hzero : modSub lib 0 = ((0 : ℕ) : ℤ) := (modSub_eq_zero_iff h 0).2 Int.cast_zero
    rw [scalarMul, hzero, h.mulPointEscalar, zero_nsmul]
  rw [cpVerify, zeroPartial, hnonId]
  refine (bind_of_ok hhash _).trans (congrArg Except.ok ?_)
  rw [Bool.and_eq_true, pointEq_iff, pointEq_iff, h.base8, identity_eq]
  simp only [hmul, pointAdd_coords h, add_zero]
  exact ⟨trivial, trivial⟩

/-- The committee discloses: a partial of a stranger, and one of the member twice. -/
theorem thresholdCekRobust_spec_solo : ∃ r,
    thresholdCekRobust (fun _ => 0) Library.reference (coords base)
      [⟨7, (zeroPartial (0, 0)).proof⟩, zeroPartial (coords base), zeroPartial (coords base)]
      ((soloCommittee 1).V Library.reference) 1 = .ok r ∧ r.cek = BabyJubJub.base8.x ∧
    (∃ e, thresholdCekRobust (fun _ => 0) Library.reference (coords base) [] ((soloCommittee 1).V Library.reference) 1 =
      .error e) ∧
    ∃ e, thresholdCekRobust (fun _ => 0) Library.reference (coords 0) [] ((soloCommittee 1).V Library.reference) 1 =
      .error e := by
  have hmultiple : ∀ i, (soloCommittee 1).multiple base i = base := by
    intro i
    rw [Committee.multiple, soloCommittee, eval_C, one_smul]
  have hsound : (soloCommittee 1).Sound (fun _ => 0) Library.reference base
      [⟨7, (zeroPartial (0, 0)).proof⟩, zeroPartial (coords base), zeroPartial (coords base)] := by
    intro p hp hmember _
    rcases List.mem_cons.1 hp with rfl | hp
    · exact absurd (List.mem_singleton.1 hmember) (by decide)
    · obtain rfl : p = zeroPartial (coords base) := by simpa using hp
      refine ⟨true, ?_, ?_⟩
      · rw [scalarBaseMul_eq Library.reference_lawful]
        exact cpVerify_zeroPartial Library.reference_lawful _ _ BabyJubJub.base_ne_zero
      · rw [hmultiple]
        exact ⟨fun _ => rfl, fun _ => rfl⟩
  have hvalid : (soloCommittee 1).validIds base
      [⟨7, (zeroPartial (0, 0)).proof⟩, zeroPartial (coords base), zeroPartial (coords base)] = {1} := by
    ext i
    constructor
    · rintro ⟨p, -, ⟨hmember, -⟩, rfl⟩
      exact List.mem_singleton.1 hmember
    · rintro rfl
      refine ⟨zeroPartial (coords base), by simp, ⟨List.mem_singleton_self _, ?_, ?_⟩, rfl⟩
      · rw [hmultiple]
        rfl
      · rw [hmultiple]
        exact BabyJubJub.base_ne_zero
  have hnone : (soloCommittee 1).validIds base [] = ∅ := by simp [Committee.validIds]
  obtain ⟨hsome, -⟩ := (thresholdCekRobust_spec (fun _ => 0) Library.reference Library.reference_lawful (soloCommittee 1) _).1 base
    BabyJubJub.base_ne_zero hsound
  obtain ⟨-, hfew⟩ := (thresholdCekRobust_spec (fun _ => 0) Library.reference Library.reference_lawful (soloCommittee 1) []).1 base
    BabyJubJub.base_ne_zero fun p hp => (List.not_mem_nil hp).elim
  rw [hvalid, Set.ncard_singleton] at hsome
  rw [hnone, Set.ncard_empty] at hfew
  obtain ⟨r, hr, hcek⟩ := hsome le_rfl
  refine ⟨r, hr, ?_, hfew Nat.one_pos, ?_⟩
  · have hsecret : (soloCommittee 1).sharing.polynomial.eval 0 • base = base := by
      rw [soloCommittee, eval_C, one_smul]
    rw [hcek, hsecret]
    rfl
  · refine (thresholdCekRobust_spec (fun _ => 0) Library.reference Library.reference_lawful (soloCommittee 1) []).2 _
      (reduced_coords 0) ?_
    rintro ⟨P, hP, heq⟩
    exact hP (Subtype.ext (coords_injective heq).symm)

theorem not_inSubgroup_orderTwo : ¬ BabyJubJub.InSubgroup (BabyJubJub.base8 + orderTwo) := by
  have hodd : subOrder = subOrder / 2 * 2 + 1 := by norm_num [subOrder]
  have htwo : subOrder • orderTwo = orderTwo := by
    rw [hodd, add_nsmul, mul_comm, mul_nsmul, two_nsmul_orderTwo, nsmul_zero, zero_add, one_nsmul]
  rw [BabyJubJub.InSubgroup, nsmul_add, BabyJubJub.subOrder_nsmul_base8, htwo, zero_add]
  decide +kernel

/-- On a point outside the subgroup nothing is returned, although the partials are right and accepted. -/
theorem outside_subgroup_refused :
    ¬ ∀ (poseidon : List Fr → Fr) (lib : Library), lib.Lawful → ∀ (committee : Committee) (eph : BabyJubJub.Point)
      (partials : List Partial),
      (∀ p ∈ partials, ∀ v, committee.V lib p.id = some v → (cpVerify poseidon lib v (coords eph) p.proof = .ok true ↔
        p.proof.D = coords ((committee.sharing.share p.id).toNat • eph))) →
      committee.sharing.threshold ≤ {i | ∃ p ∈ partials, p.id ∈ committee.members ∧
        p.proof.D = coords ((committee.sharing.share p.id).toNat • eph) ∧ p.id = i}.ncard →
      ∃ r, thresholdCekRobust poseidon lib (coords eph) partials (committee.V lib) committee.sharing.threshold = .ok r ∧
        r.cek = ((committee.sharing.polynomial.eval 0).val • eph).x := by
  intro hclaim
  have hshare : ∀ i, ((soloCommittee 2).sharing.share i).toNat = 2 := by
    intro i
    have htwo : ((2 : ℕ) : ZMod subOrder).val = 2 := ZMod.val_natCast_of_lt (by norm_num [subOrder])
    rw [Sharing.share, Int.toNat_natCast, soloCommittee, eval_C]
    exact htwo
  have hdouble : (2 : ℕ) • (BabyJubJub.base8 + orderTwo) = (((2 : ℕ) : ZMod subOrder) • base : subgroup) := by
    rw [nsmul_add, two_nsmul_orderTwo, add_zero, BabyJubJub.coe_natCast_smul]
    rfl
  have hne : ((2 : ℕ) : ZMod subOrder) • base ≠ 0 := by
    rw [ne_eq, smul_eq_zero, not_or]
    refine ⟨?_, BabyJubJub.base_ne_zero⟩
    rw [ZMod.natCast_eq_zero_iff]
    exact Nat.not_dvd_of_pos_of_lt Nat.two_pos (by norm_num [subOrder])
  obtain ⟨r, hr, -⟩ := hclaim (fun _ => 0) Library.reference Library.reference_lawful (soloCommittee 2)
    (BabyJubJub.base8 + orderTwo) [zeroPartial (coords (((2 : ℕ) : ZMod subOrder) • base : subgroup))]
    (fun p hp v hv => by
      obtain rfl := List.mem_singleton.1 hp
      obtain rfl : scalarBaseMul Library.reference ((soloCommittee 2).sharing.share 1) = v := Option.some.inj hv
      rw [hshare, hdouble, scalarBaseMul_eq Library.reference_lawful]
      exact ⟨fun _ => rfl, fun _ => cpVerify_zeroPartial Library.reference_lawful _ _ hne⟩)
    (by
      refine Nat.one_le_iff_ne_zero.2 (Set.ncard_ne_zero_of_mem (a := 1) ⟨_, List.mem_singleton_self _, ?_⟩ ?_)
      · rw [hshare, hdouble]
        exact ⟨List.mem_singleton_self _, rfl, rfl⟩
      · refine (Set.finite_singleton 1).subset ?_
        rintro i ⟨p, hp, -, -, rfl⟩
        rw [List.mem_singleton.1 hp]
        rfl)
  obtain ⟨e, he⟩ := assertInSubgroup_error Library.reference_lawful (reduced_coords (BabyJubJub.base8 + orderTwo))
    (fun hP => by
      obtain ⟨P, -, heq⟩ := hP
      apply not_inSubgroup_orderTwo
      rw [coords_injective heq]
      exact P.2) "eph_pub"
  rw [thresholdCekRobust, he] at hr
  cases hr

end Kakure.Threshold
