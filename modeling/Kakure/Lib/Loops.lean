import Mathlib

/-!
# Loops that are given a number of turns

Computations that throw or answer, or are stopped in a loop that takes more turns than it is given.

* `Answers.bind` — one computation after the other;
* `answers_loop` — a loop answers, from an invariant that counts the turns that are left;
* `keeps_loop` — what the turns of a loop keep holds of its answer, if it answers.
-/

namespace Loops

/-- A computation that throws or answers, if no loop of it is stopped. -/
abbrev Run (ε α : Type) := ExceptT ε Option α

/-- What a turn of a loop comes to. -/
inductive Turn (σ ρ : Type)
  | again (s : σ)
  | done (r : ρ)

variable {ε σ ρ α β : Type}

/-- A loop. -/
def loop (body : σ → Run ε (Turn σ ρ)) : ℕ → σ → Run ε ρ
  | 0, _ => ExceptT.mk none
  | turns + 1, s => do
    match ← body s with
    | .again s => loop body turns s
    | .done r => pure r

/-- The computation answers, and something holds of the answer. -/
def Answers (x : Run ε α) (Q : α → Prop) : Prop := ∃ a, x = pure a ∧ Q a

theorem pure_inj {a b : α} : (pure a : Run ε α) = pure b ↔ a = b := by
  constructor
  · intro h
    exact Except.ok.inj (Option.some.inj h)
  · rintro rfl
    rfl

theorem answers_pure {a : α} {Q : α → Prop} (h : Q a) : Answers (pure a : Run ε α) Q := ⟨a, rfl, h⟩

theorem Answers.bind {x : Run ε α} {f : α → Run ε β} {P : α → Prop} {Q : β → Prop} (hx : Answers x P)
    (hf : ∀ a, P a → Answers (f a) Q) : Answers (x >>= f) Q := by
  obtain ⟨a, rfl, ha⟩ := hx
  rw [pure_bind]
  exact hf a ha

theorem Answers.eq_pure {x : Run ε α} {a : α} (h : Answers x fun b => b = a) : x = pure a := by
  obtain ⟨b, hb, rfl⟩ := h
  exact hb

/-- What a turn leaves: fewer turns to go, or a result. -/
def Turn.Leaves (I : ℕ → σ → Prop) (Q : ρ → Prop) (left : ℕ) : Turn σ ρ → Prop
  | .again s => ∃ fewer < left, I fewer s
  | .done r => Q r

/-- A loop answers if an invariant counts the turns that are left. -/
theorem answers_loop {body : σ → Run ε (Turn σ ρ)} {I : ℕ → σ → Prop} {Q : ρ → Prop}
    (hbody : ∀ left s, I left s → Answers (body s) (Turn.Leaves I Q left)) {left turns : ℕ} {s : σ}
    (hturns : left < turns) (h : I left s) : Answers (loop body turns s) Q := by
  induction turns generalizing left s with
  | zero => omega
  | succ turns ih =>
    rw [loop]
    refine (hbody left s h).bind fun turn hturn => ?_
    cases turn with
    | again s =>
      obtain ⟨fewer, hfewer, hs⟩ := hturn
      exact ih (by omega) hs
    | done r => exact answers_pure hturn

theorem bind_eq_pure {x : Run ε α} {f : α → Run ε β} {b : β} : x >>= f = pure b ↔ ∃ a, x = pure a ∧ f a = pure b := by
  constructor
  · intro h
    cases x with
    | none => cases h
    | some x =>
      cases x with
      | error e => cases h
      | ok a => exact ⟨a, rfl, h⟩
  · rintro ⟨a, rfl, h⟩
    rwa [pure_bind]

/-- What a turn keeps. -/
def Turn.Keeps (I : σ → Prop) (Q : ρ → Prop) : Turn σ ρ → Prop
  | .again s => I s
  | .done r => Q r

/-- What the turns of a loop keep holds of its answer. -/
theorem keeps_loop {body : σ → Run ε (Turn σ ρ)} {I : σ → Prop} {Q : ρ → Prop}
    (hbody : ∀ s turn, I s → body s = pure turn → Turn.Keeps I Q turn) {turns : ℕ} {s : σ} {r : ρ} (h : I s)
    (hr : loop body turns s = pure r) : Q r := by
  induction turns generalizing s with
  | zero => cases hr
  | succ turns ih =>
    rw [loop, bind_eq_pure] at hr
    obtain ⟨turn, hturn, hr⟩ := hr
    have hkeeps := hbody s turn h hturn
    cases turn with
    | again s => exact ih hkeeps hr
    | done r' =>
      rw [← pure_inj.1 hr]
      exact hkeeps

end Loops
