import Mathlib

/-!
# Trials over candidates

A loop that tries one candidate after the other: a try may throw, which ends the loop, may leave it to the
next candidate, or may end the loop with an answer.

* `trial_answer_iff` — the loop answers what the first candidate that is not passed over does;
* `trial_of_passesUntil`, `trial_of_not_passesUntil` — with one kind of candidate that answers and one that throws,
  it comes to the answer exactly if no candidate of the second kind is tried before.
-/

namespace Trials

universe u v w

variable {ε : Type u} {α : Type v} {β : Type w}

/-- What comes of a try. -/
inductive Attempt (ε : Type u) (β : Type w)
  | thrown (e : ε)
  | next
  | answer (b : β)

/-- The loop. -/
def trial (attempt : α → Attempt ε β) : List α → Except ε (Option β)
  | [] => .ok none
  | a :: as =>
    match attempt a with
    | .thrown e => .error e
    | .next => trial attempt as
    | .answer b => .ok (some b)

/-- Every candidate up to the first right one passes. -/
def PassesUntil (pass right : α → Prop) : List α → Prop
  | [] => True
  | a :: as => pass a ∧ (right a ∨ PassesUntil pass right as)

/-- If all candidates pass, so do those that are tried. -/
theorem passesUntil_of_forall {pass right : α → Prop} {as : List α} (h : ∀ a ∈ as, pass a) :
    PassesUntil pass right as := by
  induction as with
  | nil => trivial
  | cons a as ih => exact ⟨h a List.mem_cons_self, Or.inr (ih fun b hb => h b (List.mem_cons_of_mem a hb))⟩

/-- Candidates that are passed over leave it to the others. -/
theorem trial_append {attempt : α → Attempt ε β} {as bs : List α} (h : ∀ a ∈ as, attempt a = .next) :
    trial attempt (as ++ bs) = trial attempt bs := by
  induction as with
  | nil => rfl
  | cons a as ih =>
    rw [List.cons_append, trial, h a List.mem_cons_self]
    exact ih fun b hb => h b (List.mem_cons_of_mem a hb)

/-- The loop answers what the first candidate that is not passed over does. -/
theorem trial_answer_iff {attempt : α → Attempt ε β} {as : List α} {b : β} :
    trial attempt as = .ok (some b) ↔
      ∃ before a after, as = before ++ a :: after ∧ (∀ c ∈ before, attempt c = .next) ∧ attempt a = .answer b := by
  constructor
  · intro h
    induction as with
    | nil => cases h
    | cons a as ih =>
      rw [trial] at h
      cases hattempt : attempt a with
      | thrown e =>
        rw [hattempt] at h
        cases h
      | next =>
        rw [hattempt] at h
        obtain ⟨before, c, after, rfl, hbefore, hc⟩ := ih h
        refine ⟨a :: before, c, after, rfl, ?_, hc⟩
        intro d hd
        rcases List.mem_cons.1 hd with rfl | hd
        · exact hattempt
        · exact hbefore d hd
      | answer b' =>
        rw [hattempt] at h
        cases h
        exact ⟨[], a, as, rfl, by simp, hattempt⟩
  · rintro ⟨before, a, after, rfl, hbefore, ha⟩
    rw [trial_append hbefore, trial, ha]

/-- Candidates that throw, are passed over and answer. -/
structure Sorted (attempt : α → Attempt ε β) (pass right : α → Prop) (b : β) (as : List α) : Prop where
  thrown : ∀ a ∈ as, ¬ pass a → ∃ e, attempt a = .thrown e
  next : ∀ a ∈ as, pass a → ¬ right a → attempt a = .next
  answer : ∀ a ∈ as, pass a → right a → attempt a = .answer b

variable {attempt : α → Attempt ε β} {pass right : α → Prop} {b : β}

theorem Sorted.tail {a : α} {as : List α} (h : Sorted attempt pass right b (a :: as)) :
    Sorted attempt pass right b as where
  thrown c hc := h.thrown c (List.mem_cons_of_mem a hc)
  next c hc := h.next c (List.mem_cons_of_mem a hc)
  answer c hc := h.answer c (List.mem_cons_of_mem a hc)

/-- If all candidates up to the first right one pass, the loop comes to the answer. -/
theorem trial_of_passesUntil {as : List α} (h : Sorted attempt pass right b as) (hright : ∃ a ∈ as, right a)
    (hpasses : PassesUntil pass right as) : trial attempt as = .ok (some b) := by
  induction as with
  | nil =>
    obtain ⟨a, ha, -⟩ := hright
    cases ha
  | cons a as ih =>
    have hmem := List.mem_cons_self (a := a) (l := as)
    obtain ⟨hpass, hrest⟩ := hpasses
    rw [trial]
    by_cases hr : right a
    · rw [h.answer a hmem hpass hr]
    · rw [h.next a hmem hpass hr]
      obtain ⟨c, hc, hcr⟩ := hright
      refine ih h.tail ⟨c, ?_, hcr⟩ (hrest.resolve_left hr)
      exact (List.mem_cons.1 hc).resolve_left fun heq => hr (heq ▸ hcr)

/-- Without a right candidate there is no answer. -/
theorem trial_of_none_right {as : List α} (h : Sorted attempt pass right b as) (hright : ∀ a ∈ as, ¬ right a) :
    trial attempt as = .ok none ∨ ∃ e, trial attempt as = .error e := by
  induction as with
  | nil => exact Or.inl rfl
  | cons a as ih =>
    have hmem := List.mem_cons_self (a := a) (l := as)
    rw [trial]
    by_cases hpass : pass a
    · rw [h.next a hmem hpass (hright a hmem)]
      exact ih h.tail fun c hc => hright c (List.mem_cons_of_mem a hc)
    · obtain ⟨e, he⟩ := h.thrown a hmem hpass
      rw [he]
      exact Or.inr ⟨e, rfl⟩

/-- With one, but not all candidates up to it passing, the loop throws. -/
theorem trial_of_not_passesUntil {as : List α} (h : Sorted attempt pass right b as)
    (hpasses : ¬ PassesUntil pass right as) : ∃ e, trial attempt as = .error e := by
  induction as with
  | nil => exact absurd trivial hpasses
  | cons a as ih =>
    have hmem := List.mem_cons_self (a := a) (l := as)
    rw [trial]
    by_cases hpass : pass a
    · have hr : ¬ right a := fun hr => hpasses ⟨hpass, Or.inl hr⟩
      rw [h.next a hmem hpass hr]
      exact ih h.tail fun hrest => hpasses ⟨hpass, Or.inr hrest⟩
    · obtain ⟨e, he⟩ := h.thrown a hmem hpass
      rw [he]
      exact ⟨e, rfl⟩

end Trials
