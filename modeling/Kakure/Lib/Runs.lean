import Mathlib

/-!
# Runs of a labelled transition system

A run is a finite sequence of steps from a start state, remembered with the labels of
its steps, the latest last.

* **invariants** — `Run.invariant`: what holds at the start and is kept by every step
  of a run holds at its end;
* **composition** — `Run.append` and `Run.exists_of_append`: runs are cut and glued at
  any of their labels.
-/

namespace Runs

variable {σ ι : Type*} {step : σ → ι → σ → Prop}

/-- The states a sequence of labelled steps can lead to. -/
inductive Run (step : σ → ι → σ → Prop) (s₀ : σ) : List ι → σ → Prop
  | start : Run step s₀ [] s₀
  | snoc {ls : List ι} {s s' : σ} {l : ι} : Run step s₀ ls s → step s l s' →
      Run step s₀ (ls ++ [l]) s'

/-- A property of labels and state that every step of a run keeps holds at its end. -/
theorem Run.invariant {s₀ s : σ} {ls : List ι} {P : List ι → σ → Prop} (h : Run step s₀ ls s)
    (hstart : P [] s₀)
    (hstep : ∀ ls s l s', Run step s₀ ls s → P ls s → step s l s' → P (ls ++ [l]) s') : P ls s := by
  induction h with
  | start => exact hstart
  | snoc hrun hlast ih => exact hstep _ _ _ _ hrun ih hlast

theorem Run.single {s s' : σ} {l : ι} (h : step s l s') : Run step s [l] s' := by
  have hrun : Run step s ([] ++ [l]) s' := Run.start.snoc h
  rwa [List.nil_append] at hrun

/-- A run that ends with a label is a run followed by a step with it. -/
theorem Run.exists_of_snoc {s₀ s : σ} {ls : List ι} {l : ι} (h : Run step s₀ (ls ++ [l]) s) :
    ∃ s₁, Run step s₀ ls s₁ ∧ step s₁ l s := by
  generalize hls : ls ++ [l] = ks at h
  cases h with
  | start => simp at hls
  | snoc hrun hlast =>
    obtain ⟨rfl, hl⟩ := List.append_inj' hls rfl
    rw [List.singleton_inj.1 hl]
    exact ⟨_, hrun, hlast⟩

theorem Run.append {s₀ s s' : σ} {ls ks : List ι} (h : Run step s₀ ls s) (h' : Run step s ks s') :
    Run step s₀ (ls ++ ks) s' := by
  induction h' with
  | start => rwa [List.append_nil]
  | snoc _ hlast ih =>
    rw [← List.append_assoc]
    exact ih.snoc hlast

/-- A run passes through a state at every cut of its labels. -/
theorem Run.exists_of_append {s₀ s : σ} {ls ks : List ι} (h : Run step s₀ (ls ++ ks) s) :
    ∃ s₁, Run step s₀ ls s₁ ∧ Run step s₁ ks s := by
  induction ks using List.reverseRecOn generalizing s with
  | nil =>
    rw [List.append_nil] at h
    exact ⟨s, h, Run.start⟩
  | append_singleton ks k ih =>
    rw [← List.append_assoc] at h
    obtain ⟨s₂, hrun, hlast⟩ := h.exists_of_snoc
    obtain ⟨s₁, h₁, h₂⟩ := ih hrun
    exact ⟨s₁, h₁, h₂.snoc hlast⟩

theorem Run.eq_of_nil {s₀ s : σ} (h : Run step s₀ [] s) : s = s₀ := by
  generalize hls : [] = ks at h
  cases h with
  | start => rfl
  | snoc _ _ => simp at hls

/-- A run that begins with a label is a step with it followed by a run. -/
theorem Run.exists_of_cons {s₀ s : σ} {l : ι} {ls : List ι} (h : Run step s₀ (l :: ls) s) :
    ∃ s₁, step s₀ l s₁ ∧ Run step s₁ ls s := by
  rw [← List.singleton_append] at h
  obtain ⟨s₁, hfirst, hrest⟩ := h.exists_of_append
  rw [← List.nil_append [l]] at hfirst
  obtain ⟨_, hstart, hstep⟩ := hfirst.exists_of_snoc
  rw [hstart.eq_of_nil] at hstep
  exact ⟨s₁, hstep, hrest⟩

/-- The steps of a partial function, one after the other. -/
theorem Run.of_foldlM {f : σ → ι → Option σ} {s₀ s : σ} {ls : List ι} (h : ls.foldlM f s₀ = some s) :
    Run (fun s l s' => f s l = some s') s₀ ls s := by
  induction ls using List.reverseRecOn generalizing s with
  | nil =>
    obtain rfl : s₀ = s := by simpa using h
    exact Run.start
  | append_singleton ls l ih =>
    rw [List.foldlM_append] at h
    obtain ⟨s₁, h₁, hlast⟩ := Option.bind_eq_some_iff.1 h
    refine (ih h₁).snoc ?_
    simpa using hlast

/-- Steps that meet a condition where they are taken are a run of the steps with it. -/
theorem Run.of_forall {guard : σ → ι → Prop} {s₀ s : σ} {ls : List ι} (h : Run step s₀ ls s)
    (hguard : ∀ before l after s, ls = before ++ l :: after → Run step s₀ before s → guard s l) :
    Run (fun s l s' => step s l s' ∧ guard s l) s₀ ls s := by
  induction h with
  | start => exact .start
  | @snoc ls s s' l hrun hlast ih =>
    refine (ih fun before l' after s heq => hguard before l' (after ++ [l]) s ?_).snoc
      ⟨hlast, hguard ls l [] s rfl hrun⟩
    rw [heq, List.append_assoc, List.cons_append]

/-- A coarser step relation has the same runs and more. -/
theorem Run.mono {step' : σ → ι → σ → Prop} (hsub : ∀ s l s', step s l s' → step' s l s') {s₀ s : σ}
    {ls : List ι} (h : Run step s₀ ls s) : Run step' s₀ ls s := by
  induction h with
  | start => exact Run.start
  | snoc _ hlast ih => exact ih.snoc (hsub _ _ _ hlast)

end Runs
