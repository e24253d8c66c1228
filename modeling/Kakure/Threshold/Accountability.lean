import Kakure.Threshold.Compliance

/-!
# Whom the robust opener blames

The loop of `thresholdCekRobust` (`packages/sdk/src/threshold/compliance.ts`) lists an identifier as
excluded as soon as it meets an invalid partial of it, and only a valid one met before prevents that.

* `mem_excluded_iff` — who is on the list after a run of the loop;
* `accountable_iff` — the two lists are right exactly when no invalid partial comes before the first
  valid one of its identifier.
-/

namespace Kakure.Threshold

open Fallible Polynomial
open Tss
open BabyJubJub (subgroup base)

/-- The checks accept the partial. -/
def Verified (poseidon : List Fr → Fr) (lib : Library) (ephPub : Point) (V : ℤ → Option Point) (p : Partial) : Prop :=
  accepted poseidon lib ephPub V p = .ok true

/-- Some partial of the list with this identifier satisfies `valid`. -/
def Vouched (valid : Partial → Prop) (l : List Partial) (i : ℤ) : Prop := ∃ p ∈ l, valid p ∧ p.id = i

/-- Some partial with this identifier does not, and comes before all that do. -/
def Blamed (valid : Partial → Prop) (l : List Partial) (i : ℤ) : Prop :=
  ∃ before p, before ++ [p] <+: l ∧ ¬ valid p ∧ p.id = i ∧ ¬ Vouched valid before i

theorem vouched_append_singleton {valid : Partial → Prop} {l : List Partial} {p : Partial} {i : ℤ} :
    Vouched valid (l ++ [p]) i ↔ Vouched valid l i ∨ (valid p ∧ p.id = i) := by
  simp [Vouched, or_and_right, exists_or]

theorem blamed_append_singleton {valid : Partial → Prop} {l : List Partial} {p : Partial} {i : ℤ} :
    Blamed valid (l ++ [p]) i ↔ Blamed valid l i ∨ (¬ valid p ∧ p.id = i ∧ ¬ Vouched valid l i) := by
  unfold Blamed
  constructor
  · rintro ⟨before, q, hprefix, hq, hid, hno⟩
    rcases List.prefix_concat_iff.1 hprefix with heq | hprefix
    · obtain ⟨rfl, hpq⟩ := List.append_inj' heq rfl
      obtain rfl : q = p := by simpa using hpq
      exact Or.inr ⟨hq, hid, hno⟩
    · exact Or.inl ⟨before, q, hprefix, hq, hid, hno⟩
  · rintro (⟨before, q, hprefix, hq, hid, hno⟩ | ⟨hp, hid, hno⟩)
    · exact ⟨before, q, hprefix.trans (List.prefix_append l [p]), hq, hid, hno⟩
    · exact ⟨l, p, List.prefix_rfl, hp, hid, hno⟩

/-- What the loop has noted of a list. -/
structure Noted (valid : Partial → Prop) (l : List Partial) (s : Selection) : Prop where
  seen : ∀ i, i ∈ s.seen ↔ Vouched valid l i
  excluded : ∀ i, i ∈ s.excluded ↔ Blamed valid l i
  good : ∀ p ∈ s.good, p ∈ l ∧ valid p

section Loop

variable {poseidon : List Fr → Fr} {lib : Library} {ephPub : Point} {V : ℤ → Option Point}

/-- One more partial. -/
theorem noted_robustStep {t : ℕ} {l : List Partial} {s s' : Selection} {p : Partial}
    (hs : Noted (Verified poseidon lib ephPub V) l s)
    (hstep : robustStep poseidon lib ephPub V t s p = .ok s') :
    Noted (Verified poseidon lib ephPub V) (l ++ [p]) s' := by
  have hkeep : ∀ q ∈ s.good, q ∈ l ++ [p] ∧ Verified poseidon lib ephPub V q := fun q hq =>
    ⟨List.mem_append_left _ (hs.good q hq).1, (hs.good q hq).2⟩
  unfold robustStep at hstep
  split at hstep
  · -- a valid partial of the identifier came before, so this one changes nothing
    rename_i hseen
    cases hstep
    have hvouched := (hs.seen _).1 hseen
    refine ⟨fun i => ?_, fun i => ?_, hkeep⟩
    · rw [hs.seen, vouched_append_singleton]
      exact ⟨Or.inl, fun h => h.elim (fun h => h) fun h => h.2 ▸ hvouched⟩
    · rw [hs.excluded, blamed_append_singleton]
      refine ⟨Or.inl, fun h => h.elim (fun h => h) fun h => absurd hvouched ?_⟩
      rw [h.2.1]
      exact h.2.2
  · rename_i hseen
    obtain ⟨ok, hok, hstep⟩ := bind_eq_ok.1 hstep
    cases hstep
    cases ok with
    | true =>
      have hp : Verified poseidon lib ephPub V p := hok
      refine ⟨fun i => ?_, fun i => ?_, fun q hq => ?_⟩
      · rw [if_pos rfl, vouched_append_singleton, ← hs.seen, List.mem_cons, or_comm, eq_comm]
        simp [hp]
      · rw [if_pos rfl, blamed_append_singleton, hs.excluded]
        simp [hp]
      · rw [if_pos rfl] at hq
        dsimp only at hq
        split at hq
        · rcases List.mem_append.1 hq with hq | hq
          · exact hkeep q hq
          · obtain rfl := List.mem_singleton.1 hq
            exact ⟨by simp, hp⟩
        · exact hkeep q hq
    | false =>
      have hp : ¬ Verified poseidon lib ephPub V p := by
        unfold Verified
        rw [hok]
        simp
      have hno : ¬ Vouched (Verified poseidon lib ephPub V) l p.id := by rwa [← hs.seen]
      refine ⟨fun i => ?_, fun i => ?_, hkeep⟩
      · rw [if_neg Bool.false_ne_true, vouched_append_singleton, hs.seen]
        simp [hp]
      · rw [if_neg Bool.false_ne_true, blamed_append_singleton, List.mem_append, hs.excluded,
          List.mem_singleton]
        constructor
        · rintro (h | rfl)
          · exact Or.inl h
          · exact Or.inr ⟨hp, rfl, hno⟩
        · rintro (h | h)
          · exact Or.inl h
          · exact Or.inr h.2.1.symm

/-- The whole list. -/
theorem noted_foldlM {t : ℕ} {l : List Partial} {s : Selection}
    (hrun : l.foldlM (robustStep poseidon lib ephPub V t) ⟨[], [], []⟩ = .ok s) :
    Noted (Verified poseidon lib ephPub V) l s := by
  induction l using List.reverseRecOn generalizing s with
  | nil =>
    cases hrun
    refine ⟨fun i => ?_, fun i => ?_, fun p hp => absurd hp List.not_mem_nil⟩
    · simp [Vouched]
    · simp [Blamed]
  | append_singleton l p ih =>
    rw [List.foldlM_append] at hrun
    obtain ⟨s', hs', hrun⟩ := bind_eq_ok.1 hrun
    rw [List.foldlM_cons] at hrun
    obtain ⟨s'', hstep, hrun⟩ := bind_eq_ok.1 hrun
    cases hrun
    exact noted_robustStep (ih hs') hstep

/-- The lists of a run that ended well. -/
theorem thresholdCekRobust_lists {partials : List Partial} {t : ℕ} {r : RobustCek}
    (hr : thresholdCekRobust poseidon lib ephPub partials V t = .ok r) :
    (∀ i ∈ r.used, Vouched (Verified poseidon lib ephPub V) partials i) ∧
      ∀ i, i ∈ r.excluded ↔ Blamed (Verified poseidon lib ephPub V) partials i := by
  unfold thresholdCekRobust at hr
  obtain ⟨-, -, hr⟩ := bind_eq_ok.1 hr
  obtain ⟨s, hs, hr⟩ := bind_eq_ok.1 hr
  have hnoted := noted_foldlM hs
  split at hr
  · cases hr
  · obtain ⟨cek, -, hr⟩ := bind_eq_ok.1 hr
    cases hr
    refine ⟨fun i hi => ?_, hnoted.excluded⟩
    obtain ⟨p, hp, rfl⟩ := List.mem_map.1 hi
    exact ⟨p, (hnoted.good p hp).1, (hnoted.good p hp).2, rfl⟩

/-- The used and the excluded identifiers are apart, and nobody with a valid partial in the list is
excluded. -/
def Accountable (poseidon : List Fr → Fr) (lib : Library) (ephPub : Point) (V : ℤ → Option Point)
    (partials : List Partial) (r : RobustCek) : Prop :=
  r.used.Disjoint r.excluded ∧
    ∀ i ∈ r.excluded, ∀ p ∈ partials, p.id = i → ¬ Verified poseidon lib ephPub V p

/-- A run that ended well is accountable exactly when every invalid partial of an identifier that has
a valid one later in the list has one before it too. -/
theorem accountable_iff {partials : List Partial} {t : ℕ} {r : RobustCek}
    (hr : thresholdCekRobust poseidon lib ephPub partials V t = .ok r) :
    Accountable poseidon lib ephPub V partials r ↔
      ∀ before p after, partials = before ++ p :: after → ¬ Verified poseidon lib ephPub V p →
        (∃ q ∈ after, Verified poseidon lib ephPub V q ∧ q.id = p.id) →
        ∃ q ∈ before, Verified poseidon lib ephPub V q ∧ q.id = p.id := by
  obtain ⟨hused, hexcluded⟩ := thresholdCekRobust_lists hr
  constructor
  · rintro ⟨-, hblame⟩ before p after rfl hp ⟨q, hq, hvalid, hid⟩
    by_contra hno
    have hmem : p.id ∈ r.excluded :=
      (hexcluded _).2 ⟨before, p, ⟨after, by simp⟩, hp, rfl, hno⟩
    exact hblame p.id hmem q (by simp [hq]) hid hvalid
  · intro hcond
    have hblame : ∀ i ∈ r.excluded, ¬ Vouched (Verified poseidon lib ephPub V) partials i := by
      rintro i hi ⟨q, hq, hvalid, rfl⟩
      obtain ⟨before, p, ⟨after, rfl⟩, hp, hid, hno⟩ := (hexcluded _).1 hi
      rw [List.append_assoc, List.singleton_append] at hcond hq
      rcases List.mem_append.1 hq with hbefore | hrest
      · exact hno ⟨q, hbefore, hvalid, rfl⟩
      · rcases List.mem_cons.1 hrest with rfl | hafter
        · exact hp hvalid
        · have hfirst := hcond before p after rfl hp ⟨q, hafter, hvalid, hid.symm⟩
          rw [hid] at hfirst
          exact hno hfirst
    constructor
    · intro i hi hex
      exact hblame i hex (hused i hi)
    · intro i hi p hp hid hvalid
      exact hblame i hi ⟨p, hp, hvalid, hid⟩

end Loop

/-! ## One member, twice -/

/-- The member's partial. -/
def rightPartial : Partial := zeroPartial (coords base)

/-- Another one under its identifier. -/
def wrongPartial : Partial := zeroPartial (coords 0)

/-- The member's public share. -/
noncomputable def soloV : ℤ → Option Point := (soloCommittee 1).V Library.reference

theorem multiple_solo (i : ℤ) : (soloCommittee 1).multiple base i = base := by
  rw [Committee.multiple, soloCommittee, eval_C, one_smul]

theorem sound_rightPartial :
    (soloCommittee 1).Sound (fun _ => 0) Library.reference base [rightPartial] := by
  intro p hp _ _
  obtain rfl := List.mem_singleton.1 hp
  refine ⟨true, ?_, ?_⟩
  · rw [scalarBaseMul_eq Library.reference_lawful]
    exact cpVerify_zeroPartial Library.reference_lawful _ _ BabyJubJub.base_ne_zero
  · rw [multiple_solo]
    exact ⟨fun _ => rfl, fun _ => rfl⟩

theorem valid_rightPartial : (soloCommittee 1).Valid base rightPartial := by
  refine ⟨List.mem_singleton_self _, ?_, ?_⟩
  · rw [multiple_solo]
    rfl
  · rw [multiple_solo]
    exact BabyJubJub.base_ne_zero

theorem accepted_rightPartial :
    accepted (fun _ => 0) Library.reference (coords base) soloV rightPartial = .ok true := by
  obtain ⟨ok, hok, hiff⟩ := accepted_eq (fun _ => 0) Library.reference_lawful sound_rightPartial
    (List.mem_singleton_self _)
  rw [soloV, hok, hiff.2 valid_rightPartial]

theorem accepted_wrongPartial :
    accepted (fun _ => 0) Library.reference (coords base) soloV wrongPartial = .ok false := by
  have hzero : inSubgroupNonId Library.reference (coords 0) = false := by
    rw [← Bool.not_eq_true, inSubgroupNonId_coords Library.reference_lawful]
    exact fun h => h.2 rfl
  rw [accepted, soloV, Committee.V]
  simp only [wrongPartial, zeroPartial, soloCommittee, List.mem_singleton, if_true, hzero]
  rfl

/-- A selection of the right partial gives a result. -/
theorem solo_run {partials : List Partial} {s : Selection}
    (hs : partials.foldlM (robustStep (fun _ => 0) Library.reference (coords base) soloV 1) ⟨[], [], []⟩ = .ok s)
    (hgood : s.good = [rightPartial]) : ∃ r,
      thresholdCekRobust (fun _ => 0) Library.reference (coords base) partials soloV 1 = .ok r := by
  have hcombine := combine_eq (fun _ => 0) Library.reference_lawful (t := 1) sound_rightPartial
    BabyJubJub.base_ne_zero (fun p hp => by rw [List.mem_singleton.1 hp]; exact valid_rightPartial)
    (List.nodup_singleton _) le_rfl le_rfl
  obtain ⟨hx, hxlt⟩ := (coords_range ((soloCommittee 1).multiple base 0).1).1
  have hcek := (bind_of_ok hcombine fun S => newFr S.1).trans (newFr_eq hx hxlt)
  rw [thresholdCekRobust, bind_of_ok (assertInSubgroup_coords Library.reference_lawful
    BabyJubJub.base_ne_zero _), bind_of_ok hs]
  simp only [hgood, List.length_singleton, lt_irrefl, if_false]
  exact ⟨_, bind_of_ok hcek _⟩

theorem foldlM_right_wrong :
    [rightPartial, wrongPartial].foldlM
      (robustStep (fun _ => 0) Library.reference (coords base) soloV 1) ⟨[], [], []⟩ =
    .ok ⟨[rightPartial], [], [1]⟩ := by
  have hright : robustStep (fun _ => 0) Library.reference (coords base) soloV 1 ⟨[], [], []⟩ rightPartial =
      .ok ⟨[rightPartial], [], [1]⟩ := by
    rw [robustStep, if_neg List.not_mem_nil, bind_of_ok accepted_rightPartial]
    rfl
  rw [List.foldlM_cons, bind_of_ok hright]
  rfl

theorem foldlM_wrong_right :
    [wrongPartial, rightPartial].foldlM
      (robustStep (fun _ => 0) Library.reference (coords base) soloV 1) ⟨[], [], []⟩ =
    .ok ⟨[rightPartial], [1], [1]⟩ := by
  have hwrong : robustStep (fun _ => 0) Library.reference (coords base) soloV 1 ⟨[], [], []⟩ wrongPartial =
      .ok ⟨[], [1], []⟩ := by
    rw [robustStep, if_neg List.not_mem_nil, bind_of_ok accepted_wrongPartial]
    rfl
  have hright : robustStep (fun _ => 0) Library.reference (coords base) soloV 1 ⟨[], [1], []⟩ rightPartial =
      .ok ⟨[rightPartial], [1], [1]⟩ := by
    rw [robustStep, if_neg List.not_mem_nil, bind_of_ok accepted_rightPartial]
    rfl
  rw [List.foldlM_cons, bind_of_ok hwrong, List.foldlM_cons, bind_of_ok hright]
  rfl

/-- With the right partial first nobody is blamed. -/
theorem accountable_solo : ∃ r,
    thresholdCekRobust (fun _ => 0) Library.reference (coords base) [rightPartial, wrongPartial] soloV 1 = .ok r ∧
      Accountable (fun _ => 0) Library.reference (coords base) soloV [rightPartial, wrongPartial] r := by
  obtain ⟨r, hr⟩ := solo_run foldlM_right_wrong rfl
  refine ⟨r, hr, (accountable_iff hr).2 ?_⟩
  rintro (_ | ⟨q, rest⟩) p after heq hp hlater
  · rw [List.nil_append, List.cons.injEq] at heq
    obtain ⟨rfl, -⟩ := heq
    exact absurd accepted_rightPartial hp
  · rw [List.cons_append, List.cons.injEq] at heq
    obtain ⟨rfl, hrest⟩ := heq
    have hmem : p ∈ [wrongPartial] := by
      rw [hrest]
      simp
    rw [List.mem_singleton.1 hmem]
    exact ⟨rightPartial, List.mem_cons_self, accepted_rightPartial, rfl⟩

/-- With the wrong one first the member is used and excluded. -/
theorem blamed_solo : ¬ ∀ (poseidon : List Fr → Fr) (lib : Library), lib.Lawful →
    ∀ (ephPub : Point) (partials : List Partial) (V : ℤ → Option Point) (t : ℕ) (r : RobustCek),
      thresholdCekRobust poseidon lib ephPub partials V t = .ok r →
      Accountable poseidon lib ephPub V partials r := by
  intro hall
  obtain ⟨r, hr⟩ := solo_run foldlM_wrong_right rfl
  obtain ⟨-, hblame⟩ := hall _ _ Library.reference_lawful _ _ _ _ r hr
  have hmem : (1 : ℤ) ∈ r.excluded := by
    rw [(thresholdCekRobust_lists hr).2]
    refine ⟨[], wrongPartial, ⟨[rightPartial], rfl⟩, ?_, rfl, fun h => ?_⟩
    · rw [Verified, accepted_wrongPartial]
      simp
    · obtain ⟨p, hp, -⟩ := h
      exact List.not_mem_nil hp
  exact hblame 1 hmem rightPartial (by simp) rfl accepted_rightPartial

end Kakure.Threshold
