import Kakure.Lib.Covers

/-!
# Planning a spend

`tx/plan.ts`: the notes of one asset are selected for a target and folded by joins into the note that is spent.
The texts of numbers are parameters; every limit of steps is a number of the language.

* `planSpend_eq_ok` — a plan is that of the selected notes, if there are not too many;
* `planSpend_optimal_iff` — they are a best cover exactly if the cheapest run of consecutive notes is one;
* `planSpend_spendable_iff` — the balance with a plan is what can be planned, for every limit that is a number.
-/

namespace Kakure.Tx

open Covers

/-! ## Notes and plans -/

structure PlannableNote where
  leafIndex : ℤ
  assetId : String
  value : ℤ
  deriving DecidableEq

inductive PlanOp where
  | join
  | withdraw
  | transfer
  | split
  deriving DecidableEq

structure PlanStep where
  op : PlanOp
  inputs : List ℤ
  outgoing : ℤ
  change : ℤ
  deriving DecidableEq

structure ActionPlan where
  steps : List PlanStep
  joinsRequired : ℕ
  totalSelected : ℤ
  deriving DecidableEq

/-- A number as a limit. -/
inductive StepLimit where
  | nan
  | negInfinity
  | finite (x : ℚ)
  | infinity
  deriving DecidableEq

/-- `n > limit`. -/
def StepLimit.exceeded (n : ℕ) : StepLimit → Bool
  | nan => false
  | negInfinity => true
  | finite x => decide (x < n)
  | infinity => false

/-- `Math.max(1, limit)`. -/
def StepLimit.atLeastOne : StepLimit → StepLimit
  | nan => nan
  | negInfinity => finite 1
  | finite x => finite (max 1 x)
  | infinity => infinity

/-- `slice(0, limit)`. -/
def StepLimit.slice {α : Type} (l : List α) : StepLimit → List α
  | nan => []
  | negInfinity => []
  | finite x => if 0 ≤ x then l.take ⌊x⌋₊ else l.take (l.length - ⌊-x⌋₊)
  | infinity => l

structure PlanPolicy where
  dustFloor : ℤ
  maxSteps : StepLimit
  deriving DecidableEq

/-- `DEFAULT_PLAN_POLICY`. -/
def defaultPlanPolicy : PlanPolicy := ⟨0, .finite 8⟩

inductive PlanFailureReason where
  | noNotesForAsset
  | insufficientTotal
  | exceedsMaxSteps
  | nonPositiveTarget
  deriving DecidableEq

structure PlanError where
  reason : PlanFailureReason
  message : String
  detail : List (String × String)
  deriving DecidableEq

/-- The operations of an intent. -/
inductive SpendOp where
  | withdraw
  | transfer
  deriving DecidableEq

def SpendOp.planOp : SpendOp → PlanOp
  | withdraw => .withdraw
  | transfer => .transfer

structure SpendIntent where
  op : SpendOp
  assetId : String
  target : ℤ
  deriving DecidableEq

/-! ## The planner -/

/-- The comparison by value, and by index where values are equal. -/
def noteOrder (a b : PlannableNote) : Prop :=
  if a.value = b.value then a.leafIndex ≤ b.leafIndex else a.value < b.value

instance : DecidableRel noteOrder := fun a b => inferInstanceAs (Decidable (if a.value = b.value then _ else _))

/-- The comparison by index. -/
def indexOrder (a b : PlannableNote) : Prop := a.leafIndex ≤ b.leafIndex

instance : DecidableRel indexOrder := fun a b => inferInstanceAs (Decidable (a.leafIndex ≤ b.leafIndex))

/-- `forAsset`. -/
def forAsset (notes : List PlannableNote) (assetId : String) : List PlannableNote :=
  (notes.filter fun n => n.assetId = assetId ∧ 0 < n.value).insertionSort noteOrder

/-- `joinStep`. -/
def joinStep (a b : PlannableNote) : PlanStep :=
  let lo := if a.leafIndex < b.leafIndex then a else b
  let hi := if a.leafIndex < b.leafIndex then b else a
  ⟨.join, [lo.leafIndex, hi.leafIndex], 0, lo.value + hi.value⟩

/-- The change of this total is worth less than its own note. -/
def PlanPolicy.Dusty (policy : PlanPolicy) (target sum : ℤ) : Prop :=
  0 < sum - target ∧ sum - target < policy.dustFloor

instance (policy : PlanPolicy) (target sum : ℤ) : Decidable (policy.Dusty target sum) :=
  inferInstanceAs (Decidable (_ ∧ _))

/-- The loop of `bestFit`. -/
def bestFitFrom (target : ℤ) (policy : PlanPolicy) : Option PlannableNote → List PlannableNote → Option PlannableNote
  | dusty, [] => dusty
  | dusty, n :: rest =>
    if n.value < target then bestFitFrom target policy dusty rest
    else if policy.Dusty target n.value then bestFitFrom target policy (dusty.or (some n)) rest
    else some n

/-- `bestFit`. -/
def bestFit (sorted : List PlannableNote) (target : ℤ) (policy : PlanPolicy) : Option PlannableNote :=
  bestFitFrom target policy none sorted

/-- The windows of `k` consecutive notes. -/
def windows (k : ℕ) (sorted : List PlannableNote) : List (List PlannableNote) :=
  (List.range (sorted.length + 1 - k)).map fun start => (sorted.drop start).take k

/-- `minimalCover`. -/
def minimalCover (sorted : List PlannableNote) (target : ℤ) : Option (List PlannableNote) :=
  let desc := sorted.reverse
  let (k, sum) := reach PlannableNote.value target desc 0 0
  if sum < target then none
  else
    match (windows k sorted).foldl (cheaper PlannableNote.value target) none with
    | some (best, _) => some best
    | none => some (desc.take k)

/-- The loop of joins: the steps, and the note that they leave. -/
def joinSteps (assetId : String) : PlannableNote → List PlannableNote → List PlanStep × PlannableNote
  | merged, [] => ([], merged)
  | merged, n :: rest =>
    let step := joinStep merged n
    let (steps, last) := joinSteps assetId ⟨-1, assetId, step.change⟩ rest
    (step :: steps, last)

/-- The plan for the notes of a cover; a cover has a first note. -/
def coverPlan (intent : SpendIntent) (cover : List PlannableNote) : Option ActionPlan :=
  match cover.insertionSort indexOrder with
  | [] => none
  | first :: rest =>
    let (steps, merged) := joinSteps intent.assetId first rest
    let totalSelected := cover.foldl (fun acc n => acc + n.value) 0
    some ⟨steps ++ [⟨intent.op.planOp, [merged.leafIndex], intent.target, totalSelected - intent.target⟩],
      cover.length - 1, totalSelected⟩

section PlanSpend

variable (numberText : StepLimit → String)

/-- What `planSpend` throws: a `PlanError`, or the error of a language that finds no first note. -/
inductive PlanFailure where
  | plan (e : PlanError)
  | noFirstNote
  deriving DecidableEq

/-- `planSpend`. -/
def planSpend (notes : List PlannableNote) (intent : SpendIntent) (policy : PlanPolicy) :
    Except PlanFailure ActionPlan :=
  if intent.target ≤ 0 then
    .error (.plan ⟨.nonPositiveTarget, "cannot plan a spend of " ++ toString intent.target ++
      "; target must be positive", [("target", toString intent.target)]⟩)
  else
    let candidates := forAsset notes intent.assetId
    if candidates = [] then
      .error (.plan ⟨.noNotesForAsset, "no spendable notes for asset " ++ intent.assetId,
        [("assetId", intent.assetId)]⟩)
    else
      match bestFit candidates intent.target policy with
      | some single => .ok ⟨[⟨intent.op.planOp, [single.leafIndex], intent.target, single.value - intent.target⟩], 0,
          single.value⟩
      | none =>
        match minimalCover candidates intent.target with
        | none =>
          let held := candidates.foldl (fun a n => a + n.value) 0
          .error (.plan ⟨.insufficientTotal, "holding " ++ toString held ++ " of asset " ++ intent.assetId ++
            ", need " ++ toString intent.target, [("held", toString held), ("needed", toString intent.target)]⟩)
        | some cover =>
          match coverPlan intent cover with
          | none => .error .noFirstNote
          | some plan =>
            if policy.maxSteps.exceeded plan.steps.length then
              .error (.plan ⟨.exceedsMaxSteps, "plan needs " ++ toString plan.steps.length ++
                " on-chain steps, above the " ++ numberText policy.maxSteps ++ " limit; consolidate first",
                [("steps", toString plan.steps.length), ("limit", numberText policy.maxSteps)]⟩)
            else .ok plan

end PlanSpend

/-- What `spendableBalance` returns. -/
structure SpendableBalance where
  total : ℤ
  inOneTx : ℤ
  withPlan : ℤ
  deriving DecidableEq

/-- `spendableBalance`. -/
def spendableBalance (notes : List PlannableNote) (assetId : String) (policy : PlanPolicy) : SpendableBalance :=
  let candidates := forAsset notes assetId
  ⟨candidates.foldl (fun a n => a + n.value) 0,
    candidates.foldl (fun a n => if a < n.value then n.value else a) 0,
    (policy.maxSteps.atLeastOne.slice candidates.reverse).foldl (fun a n => a + n.value) 0⟩

/-! ## The candidates -/

section Candidates

variable {notes : List PlannableNote} {assetId : String} {n : PlannableNote}

theorem noteOrder_value {a b : PlannableNote} (h : noteOrder a b) : a.value ≤ b.value := by
  unfold noteOrder at h
  by_cases heq : a.value = b.value
  · exact heq.le
  · rw [if_neg heq] at h
    exact h.le

instance : Std.Total noteOrder := ⟨fun a b => by
  unfold noteOrder
  by_cases heq : a.value = b.value
  · rw [if_pos heq, if_pos heq.symm]
    exact le_total _ _
  · rw [if_neg heq, if_neg (Ne.symm heq)]
    exact lt_or_gt_of_ne heq⟩

instance : IsTrans PlannableNote noteOrder := ⟨fun a b c hab hbc => by
  unfold noteOrder at hab hbc ⊢
  split at hab <;> split at hbc <;> split <;> omega⟩

instance : Std.Total indexOrder := ⟨fun a b => le_total a.leafIndex b.leafIndex⟩

instance : IsTrans PlannableNote indexOrder := ⟨fun _ _ _ => le_trans⟩

theorem forAsset_perm : (forAsset notes assetId).Perm (notes.filter fun n => n.assetId = assetId ∧ 0 < n.value) :=
  List.perm_insertionSort _ _

@[simp] theorem mem_forAsset : n ∈ forAsset notes assetId ↔ n ∈ notes ∧ n.assetId = assetId ∧ 0 < n.value := by
  rw [forAsset_perm.mem_iff, List.mem_filter]
  simp

theorem forAsset_subperm : (forAsset notes assetId).Subperm notes :=
  forAsset_perm.subperm.trans (List.filter_sublist).subperm

/-- The candidates are in the order of their values. -/
theorem forAsset_sorted : (forAsset notes assetId).Pairwise fun a b => a.value ≤ b.value :=
  (List.pairwise_insertionSort noteOrder _).imp noteOrder_value

theorem forAsset_reverse_sorted : (forAsset notes assetId).reverse.Pairwise fun a b => b.value ≤ a.value :=
  List.pairwise_reverse.2 forAsset_sorted

theorem value_pos_of_mem (h : n ∈ forAsset notes assetId) : 0 < n.value := (mem_forAsset.1 h).2.2

end Candidates

/-! ## What is selected -/

section Selection

variable {sorted : List PlannableNote} {target : ℤ} {policy : PlanPolicy}

/-- What the loop has found: a note without dust, or the first of the notes if all leave dust. -/
theorem bestFitFrom_spec {dusty : Option PlannableNote} {n : PlannableNote}
    (hsorted : sorted.Pairwise fun a b => a.value ≤ b.value)
    (h : bestFitFrom target policy dusty sorted = some n) :
    (n ∈ sorted ∧ target ≤ n.value ∧ ¬ policy.Dusty target n.value ∧
      ∀ m ∈ sorted, target ≤ m.value → policy.Dusty target m.value ∨ n.value ≤ m.value) ∨
    ((dusty = some n ∨ dusty = none ∧ n ∈ sorted ∧ target ≤ n.value ∧
        ∀ m ∈ sorted, target ≤ m.value → n.value ≤ m.value) ∧
      ∀ m ∈ sorted, target ≤ m.value → policy.Dusty target m.value) := by
  induction sorted generalizing dusty with
  | nil =>
    right
    exact ⟨.inl h, fun m hm => absurd hm List.not_mem_nil⟩
  | cons a rest ih =>
    obtain ⟨hfirst, htail⟩ := List.pairwise_cons.1 hsorted
    rw [bestFitFrom] at h
    by_cases hlt : a.value < target
    · rw [if_pos hlt] at h
      rcases ih htail h with ⟨hmem, hcovers, hdust, hle⟩ | ⟨hfound, hall⟩
      · left
        refine ⟨List.mem_cons_of_mem a hmem, hcovers, hdust, fun m hm hm' => ?_⟩
        rcases List.mem_cons.1 hm with rfl | hm
        · exact absurd hm' (not_le.2 hlt)
        · exact hle m hm hm'
      · right
        refine ⟨?_, fun m hm hm' => ?_⟩
        · rcases hfound with hsome | ⟨hnone, hmem, hcovers, hle⟩
          · exact .inl hsome
          · refine .inr ⟨hnone, List.mem_cons_of_mem a hmem, hcovers, fun m hm hm' => ?_⟩
            rcases List.mem_cons.1 hm with rfl | hm
            · exact absurd hm' (not_le.2 hlt)
            · exact hle m hm hm'
        · rcases List.mem_cons.1 hm with rfl | hm
          · exact absurd hm' (not_le.2 hlt)
          · exact hall m hm hm'
    · rw [if_neg hlt] at h
      by_cases hdusty : policy.Dusty target a.value
      · rw [if_pos hdusty] at h
        rcases ih htail h with ⟨hmem, hcovers, hdust, hle⟩ | ⟨hfound, hall⟩
        · left
          refine ⟨List.mem_cons_of_mem a hmem, hcovers, hdust, fun m hm hm' => ?_⟩
          rcases List.mem_cons.1 hm with rfl | hm
          · exact .inl hdusty
          · exact hle m hm hm'
        · right
          refine ⟨?_, fun m hm hm' => ?_⟩
          · -- The first dusty note is kept, and no later one is smaller.
            cases dusty with
            | some d => exact .inl (hfound.resolve_right fun h => by simp at h)
            | none =>
              right
              have hfound : a = n := by simpa using hfound
              rw [← hfound]
              refine ⟨rfl, List.mem_cons_self, not_lt.1 hlt, fun m hm _ => ?_⟩
              rcases List.mem_cons.1 hm with rfl | hm
              · exact le_rfl
              · exact hfirst m hm
          · rcases List.mem_cons.1 hm with rfl | hm
            · exact hdusty
            · exact hall m hm hm'
      · rw [if_neg hdusty] at h
        cases h
        left
        refine ⟨List.mem_cons_self, not_lt.1 hlt, hdusty, fun m hm _ => .inr ?_⟩
        rcases List.mem_cons.1 hm with rfl | hm
        · exact le_rfl
        · exact hfirst m hm

/-- No note is found exactly if none covers the target. -/
theorem bestFitFrom_eq_none {dusty : Option PlannableNote} :
    bestFitFrom target policy dusty sorted = none ↔ dusty = none ∧ ∀ n ∈ sorted, n.value < target := by
  induction sorted generalizing dusty with
  | nil => simp [bestFitFrom]
  | cons a rest ih =>
    rw [bestFitFrom, List.forall_mem_cons]
    by_cases hlt : a.value < target
    · rw [if_pos hlt, ih]
      simp [hlt]
    · rw [if_neg hlt]
      by_cases hdusty : policy.Dusty target a.value
      · rw [if_pos hdusty, ih]
        simp [hlt]
      · rw [if_neg hdusty]
        simp [hlt]

theorem bestFit_eq_none : bestFit sorted target policy = none ↔ ∀ n ∈ sorted, n.value < target := by
  rw [bestFit, bestFitFrom_eq_none]
  simp

/-- Of two totals that cover the target the first is no worse: it leaves dust only if the second does, and is no greater
where both do or neither does. -/
def PlanPolicy.NotWorse (policy : PlanPolicy) (target a b : ℤ) : Prop :=
  if policy.Dusty target a then policy.Dusty target b ∧ a ≤ b else policy.Dusty target b ∨ a ≤ b

/-- A note found alone covers the target, and no such note is better. -/
theorem bestFit_spec {n : PlannableNote} (hsorted : sorted.Pairwise fun a b => a.value ≤ b.value)
    (h : bestFit sorted target policy = some n) : n ∈ sorted ∧ target ≤ n.value ∧
      ∀ m ∈ sorted, target ≤ m.value → policy.NotWorse target n.value m.value := by
  rcases bestFitFrom_spec hsorted h with ⟨hmem, hcovers, hdust, hle⟩ | ⟨hfound, hall⟩
  · refine ⟨hmem, hcovers, fun m hm hm' => ?_⟩
    rw [PlanPolicy.NotWorse, if_neg hdust]
    exact hle m hm hm'
  · rcases hfound with hsome | ⟨-, hmem, hcovers, hle⟩
    · cases hsome
    · refine ⟨hmem, hcovers, fun m hm hm' => ?_⟩
      rw [PlanPolicy.NotWorse, if_pos (hall n hmem hcovers)]
      exact ⟨hall m hm hm', hle m hm hm'⟩

theorem mem_windows {k : ℕ} {run : List PlannableNote} (hk : k ≤ sorted.length) :
    run ∈ windows k sorted ↔ run.length = k ∧ run <:+: sorted := by
  unfold windows
  rw [List.mem_map]
  constructor
  · rintro ⟨start, hstart, rfl⟩
    have hlt := List.mem_range.1 hstart
    refine ⟨?_, (List.take_prefix _ _).isInfix.trans (List.drop_suffix _ _).isInfix⟩
    rw [List.length_take, List.length_drop]
    omega
  · rintro ⟨hlength, before, after, rfl⟩
    refine ⟨before.length, ?_, ?_⟩
    · rw [List.mem_range]
      simp only [List.length_append]
      omega
    · rw [List.append_assoc, List.drop_left, ← hlength, List.take_left]

/-- The cover of several notes is the cheapest run of consecutive notes of the least length that covers. -/
theorem minimalCover_spec {cover : List PlannableNote} (h : minimalCover sorted target = some cover) :
    cover <:+: sorted ∧ target ≤ total PlannableNote.value cover ∧
      (∀ j < cover.length, total PlannableNote.value (sorted.reverse.take j) < target) ∧
      ∀ run, run <:+: sorted → run.length = cover.length → target ≤ total PlannableNote.value run →
        total PlannableNote.value cover ≤ total PlannableNote.value run := by
  obtain ⟨k, hk, hreach, hbefore, -⟩ := reach_spec (w := PlannableNote.value) target sorted.reverse
  rw [List.length_reverse] at hk
  unfold minimalCover at h
  simp only [hreach] at h
  by_cases hlt : total PlannableNote.value (sorted.reverse.take k) < target
  · rw [if_pos hlt] at h
    cases h
  · rw [if_neg hlt] at h
    have hcheapest := cheapest_spec (w := PlannableNote.value) target (windows k sorted)
    cases hbest : (windows k sorted).foldl (cheaper PlannableNote.value target) none with
    | none =>
      -- The last window holds the largest notes.
      exfalso
      have hlast : (sorted.reverse.take k).reverse ∈ windows k sorted := by
        rw [mem_windows hk]
        refine ⟨by rw [List.length_reverse, List.length_take, List.length_reverse]; omega, ?_⟩
        rw [List.take_reverse, List.reverse_reverse]
        exact (List.drop_suffix _ _).isInfix
      have htotal := total_perm PlannableNote.value (sorted.reverse.take k).reverse_perm
      obtain ⟨b, hb, -⟩ := hcheapest.le _ hlast (by rw [htotal]; exact not_lt.1 hlt)
      rw [hbest] at hb
      cases hb
    | some best =>
      rw [hbest] at h
      cases h
      obtain ⟨hmem, htotal, hcovers⟩ := hcheapest.mem best (by rw [hbest]; rfl)
      obtain ⟨hlength, hrun⟩ := (mem_windows hk).1 hmem
      refine ⟨hrun, by rwa [← htotal], by rwa [hlength], fun run hrun' hlength' hcovers' => ?_⟩
      obtain ⟨b, hb, hle⟩ := hcheapest.le run ((mem_windows hk).2 ⟨hlength'.trans hlength, hrun'⟩) hcovers'
      rw [hbest] at hb
      cases hb
      rwa [← htotal]

/-- Without a cover the largest notes do not cover the target, however many there are. -/
theorem minimalCover_eq_none (h : minimalCover sorted target = none) (j : ℕ) :
    total PlannableNote.value (sorted.reverse.take j) < target := by
  obtain ⟨k, hk, hreach, hbefore, hend⟩ := reach_spec (w := PlannableNote.value) target sorted.reverse
  unfold minimalCover at h
  simp only [hreach] at h
  by_cases hlt : total PlannableNote.value (sorted.reverse.take k) < target
  · have hall : k = sorted.reverse.length := hend.resolve_left (not_le.2 hlt)
    by_cases hj : j < k
    · exact hbefore j hj
    · rw [List.take_of_length_le (by omega)]
      rwa [hall, List.take_length] at hlt
  · rw [if_neg hlt] at h
    cases hbest : (windows k sorted).foldl (cheaper PlannableNote.value target) none <;> simp [hbest] at h

/-- The notes that are selected, by `bestFit` or by `minimalCover`. -/
def selectNotes (sorted : List PlannableNote) (target : ℤ) (policy : PlanPolicy) : Option (List PlannableNote) :=
  match bestFit sorted target policy with
  | some single => some [single]
  | none => minimalCover sorted target

/-- A cover with the fewest notes, and no worse than any other of its size. -/
structure Optimal (sorted : List PlannableNote) (target : ℤ) (policy : PlanPolicy) (cover : List PlannableNote) :
    Prop where
  covers : IsCover PlannableNote.value sorted target cover
  fewest : ∀ other, IsCover PlannableNote.value sorted target other → cover.length ≤ other.length
  best : ∀ other, IsCover PlannableNote.value sorted target other → other.length = cover.length →
    policy.NotWorse target (total PlannableNote.value cover) (total PlannableNote.value other)

/-- The cheapest cover by consecutive notes, of the size of the smallest covers. -/
structure CheapestRun (sorted : List PlannableNote) (target : ℤ) (run : List PlannableNote) : Prop where
  consecutive : run <:+: sorted
  reaches : target ≤ total PlannableNote.value run
  fewest : ∀ other, IsCover PlannableNote.value sorted target other → run.length ≤ other.length
  cheapest : ∀ other, other <:+: sorted → other.length = run.length → target ≤ total PlannableNote.value other →
    total PlannableNote.value run ≤ total PlannableNote.value other

/-- A note covers the target alone, or no cover with gaps between its notes is better than the cheapest one without. -/
def RunsSuffice (sorted : List PlannableNote) (target : ℤ) (policy : PlanPolicy) : Prop :=
  (∃ n ∈ sorted, target ≤ n.value) ∨ ∀ run, CheapestRun sorted target run →
    ∀ other, IsCover PlannableNote.value sorted target other → other.length = run.length →
      policy.NotWorse target (total PlannableNote.value run) (total PlannableNote.value other)

/-- Covers of a positive target have a note. -/
theorem length_pos_of_cover (htarget : 0 < target) {cover : List PlannableNote}
    (h : target ≤ total PlannableNote.value cover) : 0 < cover.length := by
  cases cover with
  | nil =>
    rw [total_nil] at h
    exact absurd h (not_le.2 htarget)
  | cons n cover => simp

/-- A single note is selected optimally. -/
theorem optimal_single (hsorted : sorted.Pairwise fun a b => a.value ≤ b.value) (htarget : 0 < target)
    {n : PlannableNote} (h : bestFit sorted target policy = some n) : Optimal sorted target policy [n] := by
  obtain ⟨hmem, hcovers, hbest⟩ := bestFit_spec hsorted h
  refine ⟨⟨List.singleton_subperm_iff.2 hmem, by simpa using hcovers⟩, fun other hother => ?_,
    fun other hother hlength => ?_⟩
  · exact length_pos_of_cover htarget hother.reaches
  · obtain ⟨m, rfl⟩ := List.length_eq_one_iff.1 hlength
    have hm := List.singleton_subperm_iff.1 hother.subperm
    have hreaches : target ≤ m.value := by simpa using hother.reaches
    simpa using hbest m hm hreaches

/-- Several notes are selected as the cheapest run. -/
theorem cheapestRun_minimalCover (hsorted : sorted.Pairwise fun a b => a.value ≤ b.value) {cover : List PlannableNote}
    (h : minimalCover sorted target = some cover) : CheapestRun sorted target cover := by
  obtain ⟨hrun, hreaches, hbefore, hcheapest⟩ := minimalCover_spec h
  refine ⟨hrun, hreaches, fun other hother => ?_, hcheapest⟩
  have hdesc : sorted.reverse.Pairwise fun a b => b.value ≤ a.value := List.pairwise_reverse.2 hsorted
  refine length_le_of_cover hdesc ⟨?_, hother.reaches⟩ hbefore
  exact hother.subperm.trans sorted.reverse_perm.symm.subperm

/-- What is selected is optimal exactly if consecutive notes are. -/
theorem selectNotes_optimal_iff (hsorted : sorted.Pairwise fun a b => a.value ≤ b.value) (htarget : 0 < target)
    {cover : List PlannableNote} (h : selectNotes sorted target policy = some cover) :
    Optimal sorted target policy cover ↔ RunsSuffice sorted target policy := by
  unfold selectNotes at h
  cases hfit : bestFit sorted target policy with
  | some n =>
    rw [hfit] at h
    cases h
    obtain ⟨hmem, hcovers, -⟩ := bestFit_spec hsorted hfit
    exact ⟨fun _ => .inl ⟨n, hmem, hcovers⟩, fun _ => optimal_single hsorted htarget hfit⟩
  | none =>
    rw [hfit] at h
    have hselected := cheapestRun_minimalCover hsorted h
    constructor
    · intro hoptimal
      -- Two cheapest runs have one total and one size.
      refine .inr fun run hrun other hother hlength => ?_
      have hsize : run.length = cover.length := by
        refine le_antisymm (hrun.fewest _ hoptimal.covers) (hselected.fewest _ ⟨?_, hrun.reaches⟩)
        exact hrun.consecutive.sublist.subperm
      have htotal : total PlannableNote.value run = total PlannableNote.value cover :=
        le_antisymm (hrun.cheapest _ hselected.consecutive hsize.symm hselected.reaches)
          (hselected.cheapest _ hrun.consecutive hsize hrun.reaches)
      rw [htotal]
      exact hoptimal.best other hother (hlength.trans hsize)
    · rintro (⟨n, hn, hcovers⟩ | hruns)
      · exact absurd hcovers (not_le.2 (bestFit_eq_none.1 hfit n hn))
      · exact ⟨⟨hselected.consecutive.sublist.subperm, hselected.reaches⟩, hselected.fewest,
          fun other hother hlength => hruns cover hselected other hother hlength⟩

end Selection

/-! ## What a plan is made of -/

section Plans

variable {numberText : StepLimit → String} {notes : List PlannableNote} {intent : SpendIntent} {policy : PlanPolicy}
  {plan : ActionPlan} {cover : List PlannableNote}

theorem joinSteps_length (assetId : String) (merged : PlannableNote) (rest : List PlannableNote) :
    (joinSteps assetId merged rest).1.length = rest.length := by
  induction rest generalizing merged with
  | nil => rfl
  | cons n rest ih =>
    rw [joinSteps]
    simp [ih]

/-- The plan of a cover: its joins in the order of the indices, and the spend of what they leave. -/
theorem coverPlan_eq_some (h : coverPlan intent cover = some plan) : ∃ first rest,
    cover.insertionSort indexOrder = first :: rest ∧
      plan.steps = (joinSteps intent.assetId first rest).1 ++ [⟨intent.op.planOp,
        [(joinSteps intent.assetId first rest).2.leafIndex], intent.target,
        total PlannableNote.value cover - intent.target⟩] ∧
      plan.totalSelected = total PlannableNote.value cover := by
  have htotal : cover.foldl (fun acc n => acc + n.value) 0 = total PlannableNote.value cover := by
    rw [foldl_add, zero_add]
  unfold coverPlan at h
  rw [htotal] at h
  cases hordered : cover.insertionSort indexOrder with
  | nil =>
    rw [hordered] at h
    cases h
  | cons first rest =>
    rw [hordered] at h
    cases h
    exact ⟨first, rest, rfl, rfl, rfl⟩

theorem coverPlan_length (h : coverPlan intent cover = some plan) : plan.steps.length = cover.length := by
  obtain ⟨first, rest, hordered, hsteps, -⟩ := coverPlan_eq_some h
  have hlength := List.length_insertionSort indexOrder cover
  rw [hordered, List.length_cons] at hlength
  rw [hsteps, List.length_append, joinSteps_length, ← hlength]
  rfl

theorem coverPlan_isSome (h : 0 < cover.length) : ∃ plan, coverPlan intent cover = some plan := by
  unfold coverPlan
  cases hordered : cover.insertionSort indexOrder with
  | nil =>
    have hlength := List.length_insertionSort indexOrder cover
    rw [hordered, List.length_nil] at hlength
    omega
  | cons first rest => exact ⟨_, rfl⟩

theorem coverPlan_single (n : PlannableNote) : coverPlan intent [n] = some ⟨[⟨intent.op.planOp, [n.leafIndex],
    intent.target, n.value - intent.target⟩], 0, n.value⟩ := by
  simp [coverPlan, joinSteps]

/-- A plan is that of the selected notes, of which there are no more than the limit allows. -/
theorem planSpend_eq_ok : planSpend numberText notes intent policy = .ok plan ↔ 0 < intent.target ∧
    ∃ cover, selectNotes (forAsset notes intent.assetId) intent.target policy = some cover ∧
      coverPlan intent cover = some plan ∧ (cover.length = 1 ∨ policy.maxSteps.exceeded cover.length = false) := by
  unfold planSpend selectNotes
  by_cases htarget : intent.target ≤ 0
  · rw [if_pos htarget]
    constructor
    · intro h
      cases h
    · rintro ⟨hpos, -⟩
      exact absurd htarget (not_le.2 hpos)
  rw [if_neg htarget]
  have hpos := not_le.1 htarget
  dsimp only
  by_cases hnone : forAsset notes intent.assetId = []
  · rw [if_pos hnone, hnone]
    constructor
    · intro h
      cases h
    · rintro ⟨-, cover, hselect, -⟩
      have hreach := @minimalCover_spec [] intent.target cover (by simpa [bestFit, bestFitFrom] using hselect)
      have hnil : cover = [] := List.infix_nil.1 hreach.1
      rw [hnil, total_nil] at hreach
      exact absurd hreach.2.1 htarget
  rw [if_neg hnone]
  cases hfit : bestFit (forAsset notes intent.assetId) intent.target policy with
  | some n =>
    simp only [Option.some.injEq, exists_eq_left', coverPlan_single, List.length_singleton, true_or, and_true,
      Except.ok.injEq]
    exact ⟨fun h => ⟨hpos, h⟩, fun h => h.2⟩
  | none =>
    dsimp only
    cases hcover : minimalCover (forAsset notes intent.assetId) intent.target with
    | none => simp
    | some cover =>
      have hcovers := (minimalCover_spec hcover).2.1
      obtain ⟨plan', hplan'⟩ := @coverPlan_isSome intent cover (length_pos_of_cover hpos hcovers)
      have hseveral : cover.length ≠ 1 := by
        intro hone
        obtain ⟨n, rfl⟩ := List.length_eq_one_iff.1 hone
        have hmem : n ∈ forAsset notes intent.assetId := (minimalCover_spec hcover).1.mem (List.mem_singleton_self n)
        have hlt := bestFit_eq_none.1 hfit n hmem
        have hle : intent.target ≤ n.value := by simpa using hcovers
        omega
      simp only [Option.some.injEq, exists_eq_left', hplan', coverPlan_length hplan', hseveral, false_or]
      cases hexceeded : policy.maxSteps.exceeded cover.length with
      | true => simp
      | false => simp [hpos]

/-- The notes of a plan cover its target. -/
theorem selectNotes_cover (h : selectNotes (forAsset notes intent.assetId) intent.target policy = some cover) :
    IsCover PlannableNote.value (forAsset notes intent.assetId) intent.target cover := by
  unfold selectNotes at h
  cases hfit : bestFit (forAsset notes intent.assetId) intent.target policy with
  | some n =>
    rw [hfit] at h
    cases h
    obtain ⟨hmem, hcovers, -⟩ := bestFit_spec forAsset_sorted hfit
    exact ⟨List.singleton_subperm_iff.2 hmem, by simpa using hcovers⟩
  | none =>
    rw [hfit] at h
    obtain ⟨hrun, hreaches, -⟩ := minimalCover_spec h
    exact ⟨hrun.sublist.subperm, hreaches⟩

/-- The notes of a plan are a best cover exactly if no cover with gaps is better than the cheapest one without. -/
theorem planSpend_optimal_iff (h : planSpend numberText notes intent policy = .ok plan) :
    ∃ cover, selectNotes (forAsset notes intent.assetId) intent.target policy = some cover ∧
      coverPlan intent cover = some plan ∧ (Optimal (forAsset notes intent.assetId) intent.target policy cover ↔
        RunsSuffice (forAsset notes intent.assetId) intent.target policy) := by
  obtain ⟨hpos, cover, hselect, hplan, -⟩ := planSpend_eq_ok.1 h
  exact ⟨cover, hselect, hplan, selectNotes_optimal_iff forAsset_sorted hpos hselect⟩

/-- Notes of one asset with these values, in the order of their leaves. -/
def samplePlanNotes (values : List ℤ) : List PlannableNote := values.mapIdx fun i value => ⟨i, "0xaaaa", value⟩

def sampleIntent (target : ℤ) : SpendIntent := ⟨.withdraw, "0xaaaa", target⟩

/-- Of notes worth `3`, `5` and `9` the last two are what two notes cover `13` with. -/
theorem total_of_cover_sample {cover : List PlannableNote}
    (h : IsCover PlannableNote.value (forAsset (samplePlanNotes [3, 5, 9]) "0xaaaa") 13 cover) (hlength : cover.length ≤ 2) :
    total PlannableNote.value cover = 14 := by
  obtain ⟨found, hperm, hsublist⟩ := h.subperm
  have htotal : total PlannableNote.value found = total PlannableNote.value cover :=
    (hperm.map PlannableNote.value).sum_eq
  have hall : ∀ l ∈ (forAsset (samplePlanNotes [3, 5, 9]) "0xaaaa").sublists, l.length ≤ 2 →
      13 ≤ total PlannableNote.value l → total PlannableNote.value l = 14 := by decide +kernel
  rw [← htotal]
  exact hall found (List.mem_sublists.2 hsublist) (hperm.length_eq ▸ hlength) (htotal ▸ h.reaches)

/-- So these are joined, and no two notes do better. -/
theorem planSpend_optimal_iff_sample :
    RunsSuffice (forAsset (samplePlanNotes [3, 5, 9]) "0xaaaa") 13 defaultPlanPolicy ∧
    ∃ cover, selectNotes (forAsset (samplePlanNotes [3, 5, 9]) "0xaaaa") 13 defaultPlanPolicy = some cover ∧
      coverPlan (sampleIntent 13) cover = some ⟨[⟨.join, [1, 2], 0, 14⟩, ⟨.withdraw, [-1], 13, 1⟩], 1, 14⟩ ∧
      Optimal (forAsset (samplePlanNotes [3, 5, 9]) "0xaaaa") 13 defaultPlanPolicy cover := by
  have hpair : IsCover PlannableNote.value (forAsset (samplePlanNotes [3, 5, 9]) "0xaaaa") 13
      [⟨1, "0xaaaa", 5⟩, ⟨2, "0xaaaa", 9⟩] := ⟨List.isSubperm_iff.1 (by decide +kernel), by decide⟩
  have hsuffice : RunsSuffice (forAsset (samplePlanNotes [3, 5, 9]) "0xaaaa") 13 defaultPlanPolicy := by
    refine Or.inr fun run hrun other hother hlength => ?_
    have hfewest := hrun.fewest _ hpair
    rw [total_of_cover_sample ⟨hrun.consecutive.sublist.subperm, hrun.reaches⟩ hfewest,
      total_of_cover_sample hother (hlength ▸ hfewest)]
    unfold PlanPolicy.NotWorse
    split_ifs with hdusty
    · exact ⟨hdusty, le_rfl⟩
    · exact Or.inr le_rfl
  obtain ⟨cover, hselect, hplan, hiff⟩ := @planSpend_optimal_iff (fun _ => "") (samplePlanNotes [3, 5, 9]) (sampleIntent 13)
    defaultPlanPolicy ⟨[⟨.join, [1, 2], 0, 14⟩, ⟨.withdraw, [-1], 13, 1⟩], 1, 14⟩ (by decide +kernel)
  exact ⟨hsuffice, cover, hselect, hplan, hiff.2 hsuffice⟩

/-- Of notes worth `1`, `8`, `9` and `10` the middle ones are joined for `11`, and not the first and the last. -/
theorem planSpend_suboptimal : ¬ ∀ (notes : List PlannableNote) (intent : SpendIntent) (policy : PlanPolicy)
    (plan : ActionPlan), planSpend (fun _ => "") notes intent policy = .ok plan →
      ∃ cover, selectNotes (forAsset notes intent.assetId) intent.target policy = some cover ∧
        coverPlan intent cover = some plan ∧ Optimal (forAsset notes intent.assetId) intent.target policy cover := by
  intro h
  obtain ⟨cover, hselect, -, hoptimal⟩ := h (samplePlanNotes [1, 8, 9, 10]) (sampleIntent 11) defaultPlanPolicy
    ⟨[⟨.join, [1, 2], 0, 17⟩, ⟨.withdraw, [-1], 11, 6⟩], 1, 17⟩ (by decide +kernel)
  have hselected : selectNotes (forAsset (samplePlanNotes [1, 8, 9, 10]) "0xaaaa") 11 defaultPlanPolicy =
      some [⟨1, "0xaaaa", 8⟩, ⟨2, "0xaaaa", 9⟩] := by decide +kernel
  rw [show (sampleIntent 11).assetId = "0xaaaa" from rfl, show (sampleIntent 11).target = 11 from rfl, hselected]
    at hselect
  cases hselect
  have hother : IsCover PlannableNote.value (forAsset (samplePlanNotes [1, 8, 9, 10]) "0xaaaa") 11
      [⟨0, "0xaaaa", 1⟩, ⟨3, "0xaaaa", 10⟩] := ⟨List.isSubperm_iff.1 (by decide +kernel), by decide⟩
  have hbest := hoptimal.best _ hother rfl
  simp [PlanPolicy.NotWorse, PlanPolicy.Dusty, defaultPlanPolicy, sampleIntent] at hbest

/-! ## The balance -/

/-- A limit that is a number takes at least one note, and as many as it has steps. -/
theorem StepLimit.slice_atLeastOne {α : Type} {limit : StepLimit} (hlimit : limit ≠ .nan) (l : List α) :
    ∃ m, 1 ≤ m ∧ limit.atLeastOne.slice l = l.take m ∧
      ∀ k, 2 ≤ k → k ≤ l.length → (limit.exceeded k = false ↔ k ≤ m) := by
  cases limit with
  | nan => exact absurd rfl hlimit
  | negInfinity =>
    refine ⟨1, le_rfl, ?_, fun k hk _ => ?_⟩
    · simp [atLeastOne, slice]
    · simp [exceeded]
      omega
  | finite x =>
    have hmax : (1 : ℚ) ≤ max 1 x := le_max_left _ _
    refine ⟨⌊max 1 x⌋₊, Nat.floor_pos.2 hmax, ?_, fun k hk _ => ?_⟩
    · simp only [atLeastOne, slice]
      rw [if_pos (le_trans zero_le_one hmax)]
    · rw [exceeded, decide_eq_false_iff_not, not_lt, Nat.le_floor_iff (le_trans zero_le_one hmax), le_max_iff]
      have hone : ¬ (k : ℚ) ≤ 1 := by
        rw [not_le]
        exact_mod_cast hk
      simp [hone]
  | infinity =>
    refine ⟨max 1 l.length, le_max_left _ _, ?_, fun k _ hk => ?_⟩
    · rw [List.take_of_length_le (le_max_right _ _)]
      rfl
    · simp [exceeded, hk]

theorem withPlan_eq {assetId : String} : (spendableBalance notes assetId policy).withPlan =
    total PlannableNote.value (policy.maxSteps.atLeastOne.slice (forAsset notes assetId).reverse) := by
  show (policy.maxSteps.atLeastOne.slice (forAsset notes assetId).reverse).foldl _ 0 = _
  rw [foldl_add, zero_add]

/-- A plan is found exactly if the limit takes notes that cover the target. -/
theorem planSpend_isOk_iff (hlimit : policy.maxSteps ≠ .nan) :
    (∃ plan, planSpend numberText notes intent policy = .ok plan) ↔
      0 < intent.target ∧ intent.target ≤ (spendableBalance notes intent.assetId policy).withPlan := by
  obtain ⟨m, hm, hslice, hexceeded⟩ := StepLimit.slice_atLeastOne hlimit (forAsset notes intent.assetId).reverse
  rw [withPlan_eq, hslice]
  have hnonneg : ∀ n ∈ (forAsset notes intent.assetId).reverse, 0 ≤ n.value := fun n hn =>
    (value_pos_of_mem (List.mem_reverse.1 hn)).le
  constructor
  · rintro ⟨plan, hplan⟩
    obtain ⟨hpos, cover, hselect, -, hlength⟩ := planSpend_eq_ok.1 hplan
    have hcover := selectNotes_cover hselect
    have hsub := hcover.subperm.trans (forAsset notes intent.assetId).reverse_perm.symm.subperm
    have hle : cover.length ≤ m := by
      by_cases hone : cover.length ≤ 1
      · exact le_trans hone hm
      · exact (hexceeded _ (by omega) hsub.length_le).1 (hlength.resolve_left (by omega))
    refine ⟨hpos, le_trans hcover.reaches ?_⟩
    exact le_trans (total_le_take forAsset_reverse_sorted hsub) (total_take_mono hnonneg hle)
  · rintro ⟨hpos, hle⟩
    have hcover : ∃ cover, selectNotes (forAsset notes intent.assetId) intent.target policy = some cover ∧
        (cover.length = 1 ∨ policy.maxSteps.exceeded cover.length = false) := by
      unfold selectNotes
      cases hfit : bestFit (forAsset notes intent.assetId) intent.target policy with
      | some n => exact ⟨[n], rfl, .inl rfl⟩
      | none =>
        cases hcover : minimalCover (forAsset notes intent.assetId) intent.target with
        | none => exact absurd hle (not_le.2 (minimalCover_eq_none hcover m))
        | some cover =>
          obtain ⟨hrun, hreaches, hbefore, -⟩ := minimalCover_spec hcover
          refine ⟨cover, rfl, ?_⟩
          have hcovered := length_pos_of_cover hpos hreaches
          by_cases hone : cover.length = 1
          · exact .inl hone
          · refine .inr ((hexceeded _ (by omega) ?_).2 ?_)
            · rw [List.length_reverse]
              exact hrun.length_le
            · by_contra hlt
              exact absurd hle (not_le.2 (hbefore m (not_le.1 hlt)))
    obtain ⟨cover, hselect, hlength⟩ := hcover
    obtain ⟨plan, hplan⟩ := @coverPlan_isSome intent cover
      (length_pos_of_cover hpos (selectNotes_cover hselect).reaches)
    exact ⟨plan, planSpend_eq_ok.2 ⟨hpos, cover, hselect, hplan, hlength⟩⟩

/-- The balance with a plan is what can be planned, exactly if the limit is a number or there is nothing to spend. -/
theorem planSpend_spendable_iff {assetId : String} : (∀ (op : SpendOp) (target : ℤ),
    (∃ plan, planSpend numberText notes ⟨op, assetId, target⟩ policy = .ok plan) ↔
      0 < target ∧ target ≤ (spendableBalance notes assetId policy).withPlan) ↔
    policy.maxSteps ≠ .nan ∨ ∀ n ∈ notes, n.assetId = assetId → n.value ≤ 0 := by
  constructor
  · intro h
    by_cases hlimit : policy.maxSteps = .nan
    · -- Every note of the asset can be spent alone, and the balance counts none.
      refine .inr fun n hn hasset => ?_
      by_contra hvalue
      have hmem : n ∈ forAsset notes assetId := mem_forAsset.2 ⟨hn, hasset, not_le.1 hvalue⟩
      have hzero : (spendableBalance notes assetId policy).withPlan = 0 := by
        rw [withPlan_eq, hlimit]
        rfl
      have hplan : ∃ plan, planSpend numberText notes ⟨.withdraw, assetId, n.value⟩ policy = .ok plan := by
        cases hfit : bestFit (forAsset notes assetId) n.value policy with
        | none => exact absurd (bestFit_eq_none.1 hfit n hmem) (lt_irrefl _)
        | some single =>
          refine ⟨_, planSpend_eq_ok.2 ⟨not_le.1 hvalue, [single], ?_, coverPlan_single single, .inl rfl⟩⟩
          simp [selectNotes, hfit]
      have hspendable := ((h .withdraw n.value).1 hplan).2
      rw [hzero] at hspendable
      exact hvalue hspendable
    · exact .inl hlimit
  · intro h op target
    by_cases hlimit : policy.maxSteps = .nan
    · have hnone : forAsset notes assetId = [] := by
        rw [List.eq_nil_iff_forall_not_mem]
        intro n hn
        obtain ⟨hmem, hasset, hpos⟩ := mem_forAsset.1 hn
        exact absurd (h.resolve_left (not_not.2 hlimit) n hmem hasset) (not_le.2 hpos)
      have hzero : (spendableBalance notes assetId policy).withPlan = 0 := by
        rw [withPlan_eq, hlimit]
        rfl
      rw [hzero]
      constructor
      · rintro ⟨plan, hplan⟩
        obtain ⟨hpos, cover, hselect, -⟩ := planSpend_eq_ok.1 hplan
        have hcover := selectNotes_cover hselect
        rw [show forAsset notes (SpendIntent.mk op assetId target).assetId = [] from hnone] at hcover
        rw [List.subperm_nil.1 hcover.subperm] at hcover
        exact ⟨hpos, hcover.reaches⟩
      · rintro ⟨hpos, hle⟩
        exact absurd hle (not_le.2 hpos)
    · exact planSpend_isOk_iff hlimit

/-- Without a number as the limit a note can be spent that the balance does not count. -/
theorem planSpend_unadvertised : ¬ ∀ (notes : List PlannableNote) (assetId : String) (policy : PlanPolicy)
    (op : SpendOp) (target : ℤ), (∃ plan, planSpend (fun _ => "") notes ⟨op, assetId, target⟩ policy = .ok plan) ↔
      0 < target ∧ target ≤ (spendableBalance notes assetId policy).withPlan := by
  intro h
  have hplan := (h (samplePlanNotes [5]) "0xaaaa" ⟨0, .nan⟩ .withdraw 5).1
    ⟨⟨[⟨.withdraw, [0], 5, 0⟩], 0, 5⟩, by decide +kernel⟩
  revert hplan
  decide +kernel

end Plans

end Kakure.Tx
