import Kakure.Tx.Plan

/-!
# Executing a plan

The steps of a plan of `tx/plan.ts`, executed one after the other on the notes it was made for: `-1` is the output of
the step before, and a join puts two notes together to one.

* `planSpend_executes` — a plan consumes notes of its asset only, and every output is consumed by the next step;
* `planSpend_ascending_iff` — once the outputs have their leaves, the joins are in the order of the circuit exactly if
  two notes cover the target.
-/

namespace Kakure.Tx

open Covers

/-- Notes of a tree, each at its own leaf. -/
structure Snapshot where
  notes : List PlannableNote
  nonneg : ∀ n ∈ notes, 0 ≤ n.leafIndex
  nodup : (notes.map PlannableNote.leafIndex).Nodup

/-- A step, with the values of the inputs that it consumed. -/
structure ExecutedStep where
  step : PlanStep
  values : List ℤ

/-- The notes that are left, those consumed, the output of the step before, and the steps so far. -/
structure Execution where
  notes : List PlannableNote
  consumed : List PlannableNote
  output : Option ℤ
  executed : List ExecutedStep

namespace Execution

def start (notes : List PlannableNote) : Execution := ⟨notes, [], none, []⟩

/-- Consume an input: the output of the step before, or the note at a leaf. -/
def consume (s : Execution) (input : ℤ) : Option (ℤ × Execution) :=
  if input = -1 then s.output.map fun value => (value, { s with output := none })
  else (s.notes.find? fun n => n.leafIndex = input).map fun n =>
    (n.value, { s with notes := s.notes.erase n, consumed := s.consumed ++ [n] })

def consumeAll (s : Execution) : List ℤ → Option (List ℤ × Execution)
  | [] => some ([], s)
  | input :: inputs => do
    let (value, s) ← s.consume input
    let (values, s) ← s.consumeAll inputs
    return (value :: values, s)

/-- Execute a step. It has to consume the output of the step before; a join has two inputs and a spend has one. -/
def step (s : Execution) (step : PlanStep) : Option Execution := do
  let (values, s) ← s.consumeAll step.inputs
  if s.output.isSome then none
  else
    match step.op, values with
    | .join, [a, b] => some { s with output := some (a + b), executed := s.executed ++ [⟨step, [a, b]⟩] }
    | .withdraw, [a] => some { s with executed := s.executed ++ [⟨step, [a]⟩] }
    | .transfer, [a] => some { s with executed := s.executed ++ [⟨step, [a]⟩] }
    | _, _ => none

def run (s : Execution) : List PlanStep → Option Execution
  | [] => some s
  | step :: steps => do
    let s ← s.step step
    s.run steps

end Execution

/-! ## Joins -/

section Run

variable {snapshot : Snapshot} {s : Execution} {assetId : String} {merged n : PlannableNote}
  {own rest : List PlannableNote}

/-- A join of notes in the order of their indices. -/
theorem joinStep_of_lt {a b : PlannableNote} (h : a.leafIndex < b.leafIndex) :
    joinStep a b = ⟨.join, [a.leafIndex, b.leafIndex], 0, a.value + b.value⟩ := by
  simp [joinStep, h]

theorem joinSteps_cons (h : merged.leafIndex < n.leafIndex) : joinSteps assetId merged (n :: rest) =
    (⟨.join, [merged.leafIndex, n.leafIndex], 0, merged.value + n.value⟩ ::
      (joinSteps assetId ⟨-1, assetId, merged.value + n.value⟩ rest).1,
      (joinSteps assetId ⟨-1, assetId, merged.value + n.value⟩ rest).2) := by
  rw [joinSteps, joinStep_of_lt h]

/-- The note that the joins are at can be consumed: it is the output of the step before, or a note of its own. -/
def Execution.Ready (s : Execution) (merged : PlannableNote) (own : List PlannableNote) : Prop :=
  (own = [] ∧ merged.leafIndex = -1 ∧ s.output = some merged.value) ∨
    (own = [merged] ∧ merged ∈ s.notes ∧ s.output = none)

/-- The notes that are left are notes of the snapshot, and the others are consumed. -/
structure Execution.Of (s : Execution) (snapshot : Snapshot) : Prop where
  sublist : s.notes.Sublist snapshot.notes
  perm : (s.consumed ++ s.notes).Perm snapshot.notes
  joins : ∀ e ∈ s.executed, e.step.op = .join → e.step.outgoing = 0 ∧ e.step.change = e.values.sum

theorem Execution.of_start (snapshot : Snapshot) : (Execution.start snapshot.notes).Of snapshot :=
  ⟨List.Sublist.refl _, List.Perm.refl _, fun _ he => absurd he List.not_mem_nil⟩

/-- A note that is left is consumed by its index. -/
theorem Execution.consume_note (h : s.Of snapshot) (hn : n ∈ s.notes) : s.consume n.leafIndex =
    some (n.value, { s with notes := s.notes.erase n, consumed := s.consumed ++ [n] }) := by
  have hnonneg := snapshot.nonneg n (h.sublist.subset hn)
  have hnodup : (s.notes.map PlannableNote.leafIndex).Nodup := snapshot.nodup.sublist (h.sublist.map _)
  have hfind : s.notes.find? (fun m => m.leafIndex = n.leafIndex) = some n := by
    cases hfound : s.notes.find? fun m => m.leafIndex = n.leafIndex with
    | none =>
      have hnot := List.find?_eq_none.1 hfound n hn
      simp at hnot
    | some m =>
      have hindex : m.leafIndex = n.leafIndex := by simpa using List.find?_some hfound
      rw [List.inj_on_of_nodup_map hnodup (List.mem_of_find?_eq_some hfound) hn hindex]
  rw [consume, if_neg (by omega), hfind]
  rfl

theorem Execution.of_consume (h : s.Of snapshot) (hn : n ∈ s.notes) :
    Execution.Of { s with notes := s.notes.erase n, consumed := s.consumed ++ [n] } snapshot := by
  refine ⟨(List.erase_sublist).trans h.sublist, ?_, h.joins⟩
  rw [List.append_assoc]
  exact ((List.perm_cons_erase hn).symm.append_left s.consumed).trans h.perm

/-- The note that the joins are at is consumed. -/
theorem Execution.consume_ready (h : s.Of snapshot) (hready : s.Ready merged own) :
    ∃ s', s.consume merged.leafIndex = some (merged.value, s') ∧ s'.Of snapshot ∧ s'.output = none ∧
      s'.consumed = s.consumed ++ own ∧ s'.executed = s.executed ∧ ∀ m ∈ s.notes, m ≠ merged → m ∈ s'.notes := by
  rcases hready with ⟨rfl, hindex, houtput⟩ | ⟨rfl, hmem, houtput⟩
  · refine ⟨{ s with output := none }, ?_, ⟨h.sublist, h.perm, h.joins⟩, rfl, ?_, rfl, fun m hm _ => hm⟩
    · rw [consume, if_pos hindex, houtput]
      rfl
    · simp
  · exact ⟨_, consume_note h hmem, of_consume h hmem, houtput, rfl, rfl,
      fun m hm hne => (List.mem_erase_of_ne hne).2 hm⟩

/-- A join consumes the note that the joins are at and the next one, and its output is what they are worth. -/
theorem Execution.step_join (h : s.Of snapshot) (hready : s.Ready merged own) (hn : n ∈ s.notes)
    (hne : n ≠ merged) : ∃ s', s.step ⟨.join, [merged.leafIndex, n.leafIndex], 0, merged.value + n.value⟩ = some s' ∧
      s'.Of snapshot ∧ s'.Ready ⟨-1, assetId, merged.value + n.value⟩ [] ∧ s'.consumed = s.consumed ++ own ++ [n] ∧
      ∀ m ∈ s.notes, m ≠ merged → m ≠ n → m ∈ s'.notes := by
  obtain ⟨s₁, hconsume, hof, houtput, hconsumed, hexecuted, hleft⟩ := consume_ready h hready
  have hn₁ := hleft n hn hne
  have hof₂ := of_consume hof hn₁
  refine ⟨⟨s₁.notes.erase n, s₁.consumed ++ [n], some (merged.value + n.value), s₁.executed ++
    [⟨⟨.join, [merged.leafIndex, n.leafIndex], 0, merged.value + n.value⟩, [merged.value, n.value]⟩]⟩, ?_,
    ⟨hof₂.sublist, hof₂.perm, ?_⟩, .inl ⟨rfl, rfl, rfl⟩, ?_, ?_⟩
  · simp only [step, consumeAll, hconsume, consume_note hof hn₁, Option.bind_eq_bind, Option.bind_some, houtput]
    rfl
  · intro e he hjoin
    rcases List.mem_append.1 he with he | he
    · exact hof.joins e he hjoin
    · rw [List.mem_singleton.1 he]
      simp
  · simp [hconsumed]
  · intro m hm hmerged hmn
    exact (List.mem_erase_of_ne hmn).2 (hleft m hm hmerged)

/-- The joins consume the notes of the cover, and what they leave is worth all of them. -/
theorem Execution.run_joinSteps (h : s.Of snapshot) (hready : s.Ready merged own) (hrest : ∀ m ∈ rest, m ∈ s.notes)
    (hascending : (merged :: rest).Pairwise fun a b => a.leafIndex < b.leafIndex)
    (htotal : total PlannableNote.value (s.consumed ++ own) = merged.value) :
    ∃ s' own', s.run (joinSteps assetId merged rest).1 = some s' ∧ s'.Of snapshot ∧
      s'.Ready (joinSteps assetId merged rest).2 own' ∧ s'.consumed ++ own' = s.consumed ++ own ++ rest ∧
      total PlannableNote.value (s'.consumed ++ own') = (joinSteps assetId merged rest).2.value := by
  induction rest generalizing s merged own with
  | nil => exact ⟨s, own, rfl, h, hready, by simp, htotal⟩
  | cons n rest ih =>
    obtain ⟨hmerged, htail⟩ := List.pairwise_cons.1 hascending
    have hlt := hmerged n List.mem_cons_self
    have hn := hrest n List.mem_cons_self
    obtain ⟨s₁, hstep, hof, hready₁, hconsumed, hleft⟩ :=
      @step_join snapshot s assetId merged n own h hready hn fun heq => by simp [heq] at hlt
    rw [joinSteps_cons hlt]
    -- An output comes before every note in the order of the joins.
    have hascending₁ : (⟨-1, assetId, merged.value + n.value⟩ :: rest).Pairwise fun a b : PlannableNote =>
        a.leafIndex < b.leafIndex := by
      refine List.pairwise_cons.2 ⟨fun m hm => ?_, (List.pairwise_cons.1 htail).2⟩
      have := snapshot.nonneg m (h.sublist.subset (hrest m (List.mem_cons_of_mem n hm)))
      dsimp only
      omega
    have hrest₁ : ∀ m ∈ rest, m ∈ s₁.notes := by
      intro m hm
      have hm₁ := hmerged m (List.mem_cons_of_mem n hm)
      have hm₂ := (List.pairwise_cons.1 htail).1 m hm
      exact hleft m (hrest m (List.mem_cons_of_mem n hm)) (fun heq => by simp [heq] at hm₁)
        fun heq => by simp [heq] at hm₂
    obtain ⟨s', own', hrun, hof', hready', hconsumed', htotal'⟩ := ih hof hready₁ hrest₁ hascending₁ (by
      rw [List.append_nil, hconsumed, total_append, htotal]
      simp)
    refine ⟨s', own', ?_, hof', hready', ?_, htotal'⟩
    · rw [run, hstep]
      exact hrun
    · rw [hconsumed', hconsumed]
      simp

end Run

/-! ## Plans -/

section Plans

variable {numberText : StepLimit → String} {snapshot : Snapshot} {intent : SpendIntent} {policy : PlanPolicy}
  {plan : ActionPlan} {cover : List PlannableNote} {s s' : Execution}

theorem Execution.executed_of_consume {input value : ℤ} (h : s.consume input = some (value, s')) :
    s'.executed = s.executed := by
  unfold consume at h
  split at h
  · cases hout : s.output <;> simp [hout] at h
    rw [← h.2]
  · cases hfind : s.notes.find? fun n => n.leafIndex = input <;> simp [hfind] at h
    rw [← h.2]

theorem Execution.executed_of_consumeAll {inputs values : List ℤ} (h : s.consumeAll inputs = some (values, s')) :
    s'.executed = s.executed := by
  induction inputs generalizing s values with
  | nil =>
    cases h
    rfl
  | cons input inputs ih =>
    simp only [consumeAll, Option.bind_eq_bind, Option.bind_eq_some_iff] at h
    obtain ⟨⟨value, s₁⟩, hfirst, ⟨values', s₂⟩, hrest, h⟩ := h
    cases h
    rw [ih hrest, executed_of_consume hfirst]

/-- A step that is executed is recorded. -/
theorem Execution.executed_of_step {step : PlanStep} (h : s.step step = some s') :
    s'.executed.map ExecutedStep.step = s.executed.map ExecutedStep.step ++ [step] := by
  simp only [Execution.step, Option.bind_eq_bind, Option.bind_eq_some_iff] at h
  obtain ⟨⟨values, s₁⟩, hconsume, h⟩ := h
  have hexecuted := executed_of_consumeAll hconsume
  split at h
  · cases h
  · split at h <;> cases h <;> simp [hexecuted]

theorem Execution.executed_of_run {steps : List PlanStep} (h : s.run steps = some s') :
    s'.executed.map ExecutedStep.step = s.executed.map ExecutedStep.step ++ steps := by
  induction steps generalizing s with
  | nil =>
    cases h
    simp
  | cons step steps ih =>
    rw [run, Option.bind_eq_bind, Option.bind_eq_some_iff] at h
    obtain ⟨s₁, hstep, hrun⟩ := h
    rw [ih hrun, executed_of_step hstep]
    simp

theorem Execution.run_append (xs ys : List PlanStep) : s.run (xs ++ ys) = (s.run xs).bind fun s => s.run ys := by
  induction xs generalizing s with
  | nil => rfl
  | cons step xs ih =>
    rw [List.cons_append, run, run]
    cases hstep : s.step step with
    | none => rfl
    | some s₁ => exact ih

theorem joinSteps_op (assetId : String) (merged : PlannableNote) (rest : List PlannableNote) :
    ∀ step ∈ (joinSteps assetId merged rest).1, step.op = .join := by
  induction rest generalizing merged with
  | nil => intro step hstep; cases hstep
  | cons n rest ih =>
    intro step hstep
    rw [joinSteps] at hstep
    rcases List.mem_cons.1 hstep with rfl | hstep
    · rfl
    · exact ih _ step hstep

/-- Notes of a snapshot in the order of their indices have ascending indices. -/
theorem Snapshot.ascending (hsub : cover.Subperm snapshot.notes) :
    (cover.insertionSort indexOrder).Pairwise fun a b => a.leafIndex < b.leafIndex := by
  have hordered := List.pairwise_insertionSort indexOrder cover
  obtain ⟨cover', hperm, hsub'⟩ := (List.perm_insertionSort indexOrder cover).subperm.trans hsub
  have hnodup : ((cover.insertionSort indexOrder).map PlannableNote.leafIndex).Nodup :=
    (hperm.map _).nodup_iff.1 (snapshot.nodup.sublist (hsub'.map _))
  rw [List.Nodup, List.pairwise_map] at hnodup
  exact (hordered.and hnodup).imp fun h => lt_of_le_of_ne h.1 h.2

/-- The spend consumes what the joins have left. -/
theorem Execution.step_spend {merged : PlannableNote} {own : List PlannableNote} (h : s.Of snapshot)
    (hready : s.Ready merged own) (op : SpendOp) (outgoing change : ℤ) :
    ∃ s', s.step ⟨op.planOp, [merged.leafIndex], outgoing, change⟩ = some s' ∧ s'.Of snapshot ∧ s'.output = none ∧
      s'.consumed = s.consumed ++ own := by
  obtain ⟨s₁, hconsume, hof, houtput, hconsumed, -, -⟩ := consume_ready h hready
  refine ⟨{ s₁ with executed := s₁.executed ++ [⟨⟨op.planOp, [merged.leafIndex], outgoing, change⟩, [merged.value]⟩] },
    ?_, ⟨hof.sublist, hof.perm, ?_⟩, houtput, hconsumed⟩
  · cases op <;> simp [step, consumeAll, hconsume, houtput, SpendOp.planOp]
  · intro e he hjoin
    rcases List.mem_append.1 he with he | he
    · exact hof.joins e he hjoin
    · rw [List.mem_singleton.1 he] at hjoin
      cases op <;> cases hjoin

/-- Executing a plan: the joins consume notes of the asset, each once, and the spend pays the target from their total. -/
theorem planSpend_executes (h : planSpend numberText snapshot.notes intent policy = .ok plan) :
    ∃ (s : Execution) (joins : List PlanStep) (last : PlanStep),
      (Execution.start snapshot.notes).run plan.steps = some s ∧ s.output = none ∧
      s.executed.map ExecutedStep.step = plan.steps ∧ (s.consumed ++ s.notes).Perm snapshot.notes ∧
      (∀ n ∈ s.consumed, n.assetId = intent.assetId) ∧
      (∀ e ∈ s.executed, e.step.op = .join → e.step.outgoing = 0 ∧ e.step.change = e.values.sum) ∧
      plan.steps = joins ++ [last] ∧ (∀ step ∈ joins, step.op = .join) ∧ last.op = intent.op.planOp ∧
      last.outgoing = intent.target ∧ last.outgoing + last.change = total PlannableNote.value s.consumed ∧
      total PlannableNote.value s.consumed = plan.totalSelected := by
  obtain ⟨-, cover, hselect, hplan, -⟩ := planSpend_eq_ok.1 h
  obtain ⟨first, rest, hordered, hsteps, htotal⟩ := coverPlan_eq_some hplan
  have hcover := (selectNotes_cover hselect).subperm
  have hperm := List.perm_insertionSort indexOrder cover
  have hascending := snapshot.ascending (hcover.trans forAsset_subperm)
  rw [hordered] at hperm hascending
  have hmem : ∀ n ∈ first :: rest, n ∈ snapshot.notes ∧ n.assetId = intent.assetId := by
    intro n hn
    obtain ⟨hn, hasset, -⟩ := mem_forAsset.1 (hcover.subset (hperm.subset hn))
    exact ⟨hn, hasset⟩
  obtain ⟨s₁, own, hjoins, hof, hready, hconsumed, -⟩ :=
    @Execution.run_joinSteps snapshot _ intent.assetId first [first] rest (Execution.of_start snapshot)
      (.inr ⟨rfl, (hmem first List.mem_cons_self).1, rfl⟩)
      (fun n hn => (hmem n (List.mem_cons_of_mem first hn)).1) hascending (by simp [Execution.start])
  obtain ⟨s₂, hspend, hof₂, houtput, hconsumed₂⟩ := Execution.step_spend hof hready intent.op intent.target
    (total PlannableNote.value cover - intent.target)
  have hrun : (Execution.start snapshot.notes).run plan.steps = some s₂ := by
    rw [hsteps, Execution.run_append, hjoins, Option.bind_some, Execution.run, hspend]
    rfl
  have hall : s₂.consumed = first :: rest := by
    rw [hconsumed₂, hconsumed]
    rfl
  have hvalue : total PlannableNote.value s₂.consumed = total PlannableNote.value cover := by
    rw [hall]
    exact total_perm _ hperm
  refine ⟨s₂, _, _, hrun, houtput, Execution.executed_of_run hrun, hof₂.perm, ?_, hof₂.joins, hsteps,
    joinSteps_op _ _ _, rfl, rfl, ?_, by rw [hvalue, htotal]⟩
  · intro n hn
    rw [hall] at hn
    exact (hmem n hn).2
  · rw [hvalue]
    dsimp only
    ring

/-! ## The order of the joins -/

/-- The leaves of the outputs: after every leaf of the snapshot, in the order of the steps. -/
structure Fresh (snapshot : Snapshot) (fresh : ℕ → ℤ) : Prop where
  after : ∀ n ∈ snapshot.notes, ∀ i, n.leafIndex < fresh i
  increasing : StrictMono fresh

/-- The leaf indices that a step consumes, where the output of the step at `i` is at the leaf `fresh i`. -/
def PlanStep.resolved (fresh : ℕ → ℤ) (position : ℕ) (step : PlanStep) : List ℤ :=
  step.inputs.map fun input => if input = -1 then fresh (position - 1) else input

/-- Every join consumes its leaves in strictly ascending order, as the circuit asserts. -/
def ActionPlan.Ascending (fresh : ℕ → ℤ) (plan : ActionPlan) : Prop :=
  ∀ i (h : i < plan.steps.length), plan.steps[i].op = .join → (plan.steps[i].resolved fresh i).Pairwise (· < ·)

/-- No cover has fewer notes than what is selected. -/
theorem selectNotes_fewest {notes : List PlannableNote} (htarget : 0 < intent.target)
    (hselect : selectNotes (forAsset notes intent.assetId) intent.target policy = some cover)
    {other : List PlannableNote}
    (hother : IsCover PlannableNote.value (forAsset notes intent.assetId) intent.target other) :
    cover.length ≤ other.length := by
  unfold selectNotes at hselect
  cases hfit : bestFit (forAsset notes intent.assetId) intent.target policy with
  | some n =>
    rw [hfit] at hselect
    cases hselect
    exact length_pos_of_cover htarget hother.reaches
  | none =>
    rw [hfit] at hselect
    exact (cheapestRun_minimalCover forAsset_sorted hselect).fewest other hother

/-- The joins of a cover are in the order of the circuit exactly if there is one at most. -/
theorem coverPlan_ascending_iff {fresh : ℕ → ℤ} (hfresh : Fresh snapshot fresh)
    (hsub : cover.Subperm snapshot.notes) (hplan : coverPlan intent cover = some plan) :
    plan.Ascending fresh ↔ cover.length ≤ 2 := by
  obtain ⟨first, rest, hordered, hsteps, -⟩ := coverPlan_eq_some hplan
  have hperm := List.perm_insertionSort indexOrder cover
  have hascending := snapshot.ascending hsub
  rw [hordered] at hperm hascending
  have hmem : ∀ n ∈ first :: rest, n ∈ snapshot.notes := fun n hn => hsub.subset (hperm.subset hn)
  have hspend : ∀ step : PlanStep, step.op = intent.op.planOp → step.op ≠ .join := by
    intro step hstep
    rw [hstep]
    cases intent.op <;> exact PlanOp.noConfusion
  rw [← hperm.length_eq, ActionPlan.Ascending]
  cases rest with
  | nil =>
    simp only [joinSteps, List.nil_append] at hsteps
    rw [hsteps]
    refine ⟨fun _ => by simp, fun _ i hi hjoin => ?_⟩
    obtain rfl : i = 0 := by simpa using hi
    exact absurd hjoin (hspend _ rfl)
  | cons n rest =>
    obtain ⟨hfirst, htail⟩ := List.pairwise_cons.1 hascending
    have hlt := hfirst n List.mem_cons_self
    rw [joinSteps_cons hlt] at hsteps
    cases rest with
    | nil =>
      have hnonneg := snapshot.nonneg first (hmem first List.mem_cons_self)
      simp only [joinSteps, List.cons_append, List.nil_append] at hsteps
      rw [hsteps]
      refine ⟨fun _ => by simp, fun _ i hi hjoin => ?_⟩
      obtain rfl | rfl : i = 0 ∨ i = 1 := by
        simp only [List.length_cons, List.length_nil] at hi
        omega
      · simp only [PlanStep.resolved, List.getElem_cons_zero, List.map_cons, List.map_nil]
        rw [if_neg (by omega), if_neg (by omega)]
        simpa using hlt
      · exact absurd hjoin (hspend _ rfl)
    | cons m rest =>
      have hm := hmem m (by simp)
      have hnonneg := snapshot.nonneg m hm
      rw [joinSteps_cons (by dsimp only; omega)] at hsteps
      simp only [List.cons_append] at hsteps
      rw [hsteps]
      refine ⟨fun hall => ?_, fun hle => by simp at hle⟩
      -- The second join names the output of the first before an older leaf.
      have hsecond := hall 1 (by simp) rfl
      simp only [PlanStep.resolved, List.getElem_cons_succ, List.getElem_cons_zero, List.map_cons, List.map_nil] at hsecond
      rw [if_pos trivial, if_neg (by omega)] at hsecond
      have hfresh₀ : fresh 0 < m.leafIndex := by simpa using hsecond
      exact absurd (hfresh.after m hm 0) (by omega)

/-- The joins of a plan are in the order of the circuit exactly if two notes of the asset cover the target. -/
theorem planSpend_ascending_iff {fresh : ℕ → ℤ} (hfresh : Fresh snapshot fresh)
    (h : planSpend numberText snapshot.notes intent policy = .ok plan) : plan.Ascending fresh ↔
      ∃ few, IsCover PlannableNote.value (forAsset snapshot.notes intent.assetId) intent.target few ∧
        few.length ≤ 2 := by
  obtain ⟨hpos, cover, hselect, hplan, -⟩ := planSpend_eq_ok.1 h
  have hcover := selectNotes_cover hselect
  rw [coverPlan_ascending_iff hfresh (hcover.subperm.trans forAsset_subperm) hplan]
  constructor
  · intro hle
    exact ⟨cover, hcover, hle⟩
  · rintro ⟨few, hfew, hle⟩
    exact le_trans (selectNotes_fewest hpos hselect hfew) hle

/-- Three notes of one tree. -/
def sampleSnapshot : Snapshot := ⟨samplePlanNotes [40, 40, 40], by decide, by decide⟩

theorem fresh_sample : Fresh sampleSnapshot fun i => 3 + i := by
  refine ⟨?_, fun i j hij => by simpa using hij⟩
  intro n hn i
  have : n.leafIndex < 3 := by
    revert n
    decide
  omega

theorem planSpend_ascending_iff_sample :
    ActionPlan.Ascending (fun i => 3 + i) ⟨[⟨.join, [0, 1], 0, 80⟩, ⟨.withdraw, [-1], 70, 10⟩], 1, 80⟩ ↔
      ∃ few, IsCover PlannableNote.value (forAsset sampleSnapshot.notes "0xaaaa") 70 few ∧ few.length ≤ 2 :=
  @planSpend_ascending_iff (fun _ => "") sampleSnapshot (sampleIntent 70) defaultPlanPolicy _ _ fresh_sample
    (by decide +kernel)

theorem planSpend_executes_sample : ∃ (s : Execution) (joins : List PlanStep) (last : PlanStep),
    (Execution.start sampleSnapshot.notes).run [⟨.join, [0, 1], 0, 80⟩, ⟨.join, [-1, 2], 0, 120⟩,
      ⟨.withdraw, [-1], 100, 20⟩] = some s ∧ s.output = none ∧
    s.executed.map ExecutedStep.step = [⟨.join, [0, 1], 0, 80⟩, ⟨.join, [-1, 2], 0, 120⟩,
      ⟨.withdraw, [-1], 100, 20⟩] ∧ (s.consumed ++ s.notes).Perm sampleSnapshot.notes ∧
    (∀ n ∈ s.consumed, n.assetId = "0xaaaa") ∧
    (∀ e ∈ s.executed, e.step.op = .join → e.step.outgoing = 0 ∧ e.step.change = e.values.sum) ∧
    [⟨.join, [0, 1], 0, 80⟩, ⟨.join, [-1, 2], 0, 120⟩, ⟨.withdraw, [-1], 100, 20⟩] = joins ++ [last] ∧
    (∀ step ∈ joins, step.op = .join) ∧ last.op = .withdraw ∧ last.outgoing = 100 ∧
    last.outgoing + last.change = total PlannableNote.value s.consumed ∧
    total PlannableNote.value s.consumed = 120 :=
  @planSpend_executes (fun _ => "") sampleSnapshot (sampleIntent 100) defaultPlanPolicy
    ⟨[⟨.join, [0, 1], 0, 80⟩, ⟨.join, [-1, 2], 0, 120⟩, ⟨.withdraw, [-1], 100, 20⟩], 2, 120⟩ (by decide +kernel)

/-- Of three notes that only together cover the target the third is named after the output of the first join. -/
theorem planSpend_descending : ¬ ∀ (snapshot : Snapshot) (fresh : ℕ → ℤ) (intent : SpendIntent) (policy : PlanPolicy)
    (plan : ActionPlan), Fresh snapshot fresh → planSpend (fun _ => "") snapshot.notes intent policy = .ok plan →
      plan.Ascending fresh := by
  intro h
  have hascending := h sampleSnapshot _ (sampleIntent 100) defaultPlanPolicy
    ⟨[⟨.join, [0, 1], 0, 80⟩, ⟨.join, [-1, 2], 0, 120⟩, ⟨.withdraw, [-1], 100, 20⟩], 2, 120⟩ fresh_sample
    (by decide +kernel)
  have hsecond := hascending 1 (by decide) rfl
  revert hsecond
  decide

end Plans

end Kakure.Tx
