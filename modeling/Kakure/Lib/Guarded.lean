import Mathlib

/-!
# Guarded state programs

Programs that read and write a state and may give up with an error, in which case
nothing they did is kept.  Everything here is over an arbitrary state and error type.

* **inversion** — `bind_eq_ok`, `require_eq_ok`, `bind_eq_error`: what a run that ended well
  has done, one step after the other, and where one that failed gave up;
* **running** — `bind_of_ok`, `require_of`: how a run is put together from its steps.
-/

namespace Guarded

universe v

variable {σ α β : Type} {ε : Type v}

/-- A program over the state `σ` which may fail with an error `ε`. -/
abbrev Prog (σ : Type) (ε : Type v) (α : Type) := StateT σ (Except ε) α

/-- Go on only if the condition holds. -/
def require (c : Prop) [Decidable c] (e : ε) : Prog σ ε Unit := fun s =>
  if c then .ok ((), s) else .error e

/-- Do something only if the condition holds. -/
def whenever (c : Prop) [Decidable c] (x : Prog σ ε Unit) : Prog σ ε Unit := if c then x else pure ()

/-- Give up. -/
def fail (e : ε) : Prog σ ε α := fun _ => .error e

/-- Go on with the value of a computation that does not touch the state. -/
def ofResult (r : Except ε α) : Prog σ ε α := fun s => r.map fun a => (a, s)

/-- A value that may be missing. -/
def ofOption (r : Option α) (e : ε) : Prog σ ε α := fun s =>
  match r with
  | some a => .ok (a, s)
  | none => .error e

/-! ## Inversion -/

theorem bind_eq_ok {x : Prog σ ε α} {f : α → Prog σ ε β} {s s'' : σ} {b : β} :
    (x >>= f) s = .ok (b, s'') ↔ ∃ a s', x s = .ok (a, s') ∧ f a s' = .ok (b, s'') := by
  show (x s).bind (fun p => f p.1 p.2) = .ok (b, s'') ↔ _
  cases hx : x s with
  | error e => simp [Except.bind]
  | ok p =>
    obtain ⟨a, s'⟩ := p
    simp [Except.bind]

theorem pure_eq_ok {a b : α} {s s' : σ} :
    (pure a : Prog σ ε α) s = .ok (b, s') ↔ a = b ∧ s = s' := by
  show (Except.ok (a, s) : Except ε _) = .ok (b, s') ↔ _
  simp

theorem require_eq_ok {c : Prop} [Decidable c] {e : ε} {s s' : σ} {u : Unit} :
    require c e s = .ok (u, s') ↔ c ∧ s = s' := by
  unfold require
  split <;> simp_all

theorem whenever_eq_ok {c : Prop} [Decidable c] {x : Prog σ ε Unit} {s s' : σ} {u : Unit} :
    whenever c x s = .ok (u, s') ↔ (c ∧ x s = .ok (u, s')) ∨ (¬ c ∧ s = s') := by
  unfold whenever
  split
  · simp_all
  · rename_i h
    simp [h, pure_eq_ok]

theorem not_fail_eq_ok {e : ε} {s s' : σ} {a : α} : ¬ (fail e : Prog σ ε α) s = .ok (a, s') := by
  simp [fail]

theorem ofResult_eq_ok {r : Except ε α} {s s' : σ} {a : α} :
    (ofResult r : Prog σ ε α) s = .ok (a, s') ↔ r = .ok a ∧ s = s' := by
  unfold ofResult
  cases r <;> simp [Except.map]

theorem ofOption_eq_ok {r : Option α} {e : ε} {s s' : σ} {a : α} :
    (ofOption r e : Prog σ ε α) s = .ok (a, s') ↔ r = some a ∧ s = s' := by
  unfold ofOption
  cases r <;> simp

theorem bind_eq_error {x : Prog σ ε α} {f : α → Prog σ ε β} {s : σ} {e : ε} :
    (x >>= f) s = .error e ↔ x s = .error e ∨ ∃ a s', x s = .ok (a, s') ∧ f a s' = .error e := by
  show (x s).bind (fun p => f p.1 p.2) = .error e ↔ _
  cases hx : x s with
  | error e' => simp [Except.bind]
  | ok p =>
    obtain ⟨a, s'⟩ := p
    simp [Except.bind]

theorem require_eq_error {c : Prop} [Decidable c] {e e' : ε} {s : σ} :
    (require c e : Prog σ ε Unit) s = .error e' ↔ ¬ c ∧ e = e' := by
  unfold require
  split <;> simp_all

theorem whenever_eq_error {c : Prop} [Decidable c] {x : Prog σ ε Unit} {s : σ} {e : ε} :
    whenever c x s = .error e ↔ c ∧ x s = .error e := by
  unfold whenever
  split
  · simp_all
  · rename_i h
    simp only [h, false_and, iff_false]
    exact nofun

theorem ofOption_eq_error {r : Option α} {e e' : ε} {s : σ} :
    (ofOption r e : Prog σ ε α) s = .error e' ↔ r = none ∧ e = e' := by
  unfold ofOption
  cases r <;> simp

/-! ## Running -/

theorem bind_of_ok {x : Prog σ ε α} {f : α → Prog σ ε β} {s s' : σ} {a : α} (h : x s = .ok (a, s')) :
    (x >>= f) s = f a s' := by
  show (x s).bind (fun p => f p.1 p.2) = _
  rw [h]
  rfl

theorem bind_of_error {x : Prog σ ε α} {f : α → Prog σ ε β} {s : σ} {e : ε} (h : x s = .error e) :
    (x >>= f) s = .error e := by
  show (x s).bind (fun p => f p.1 p.2) = _
  rw [h]
  rfl

theorem require_of {c : Prop} [Decidable c] (h : c) (e : ε) (s : σ) :
    require c e s = .ok ((), s) := if_pos h

theorem require_of_not {c : Prop} [Decidable c] (h : ¬ c) (e : ε) (s : σ) :
    require c e s = .error e := if_neg h

end Guarded
