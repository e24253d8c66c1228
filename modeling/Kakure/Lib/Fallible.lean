import Mathlib

/-!
# Computations that may fail

How a computation in `Except` that ended well went, and how one is put together from steps
that do.

* `bind_eq_ok` — both steps ended well;
* `mapM_eq_ok`, `mapM_eq_ok_iff` — a loop over a list ends well exactly if every step does;
* `foldlM_eq_ok` — a loop with an accumulator.
-/

namespace Fallible

universe u v w

variable {ε : Type u} {α : Type v} {β : Type v} {γ : Type w}

theorem bind_eq_ok {x : Except ε α} {f : α → Except ε β} {b : β} :
    (x >>= f) = .ok b ↔ ∃ a, x = .ok a ∧ f a = .ok b := by
  cases x with
  | error e =>
    constructor
    · intro h
      cases h
    · rintro ⟨a, h, -⟩
      cases h
  | ok a =>
    constructor
    · intro h
      exact ⟨a, rfl, h⟩
    · rintro ⟨a', h, hf⟩
      cases h
      exact hf

theorem bind_of_ok {x : Except ε α} {a : α} (h : x = .ok a) (f : α → Except ε β) : (x >>= f) = f a := by
  rw [h]
  rfl

theorem bind_of_error {x : Except ε α} {e : ε} (h : x = .error e) (f : α → Except ε β) : (x >>= f) = .error e := by
  rw [h]
  rfl

/-- Another error is still one. -/
theorem mapError_eq_ok {ε' : Type w} {f : ε → ε'} {x : Except ε α} {a : α} : x.mapError f = .ok a ↔ x = .ok a := by
  cases x with
  | error e => simp [Except.mapError]
  | ok a' => simp [Except.mapError]

/-- A loop ends well if its steps do. -/
theorem mapM_eq_ok {f : γ → Except ε α} {g : γ → α} {xs : List γ} (h : ∀ x ∈ xs, f x = .ok (g x)) :
    xs.mapM f = .ok (xs.map g) := by
  induction xs with
  | nil => rfl
  | cons x xs ih =>
    rw [List.mapM_cons, bind_of_ok (h x List.mem_cons_self)]
    rw [bind_of_ok (ih fun y hy => h y (List.mem_cons_of_mem x hy))]
    rfl

/-- The steps of a loop that ended well did so. -/
theorem forall_of_mapM {f : γ → Except ε α} {xs : List γ} {ys : List α} (h : xs.mapM f = .ok ys) :
    List.Forall₂ (fun x y => f x = .ok y) xs ys := by
  induction xs generalizing ys with
  | nil =>
    cases h
    exact .nil
  | cons x xs ih =>
    rw [List.mapM_cons, bind_eq_ok] at h
    obtain ⟨y, hy, h⟩ := h
    rw [bind_eq_ok] at h
    obtain ⟨rest, hrest, h⟩ := h
    cases h
    exact .cons hy (ih hrest)

theorem mapM_eq_ok_iff {f : γ → Except ε α} {xs : List γ} {ys : List α} :
    xs.mapM f = .ok ys ↔ List.Forall₂ (fun x y => f x = .ok y) xs ys := by
  refine ⟨forall_of_mapM, fun h => ?_⟩
  induction h with
  | nil => rfl
  | cons hhead _ ih =>
    rw [List.mapM_cons, bind_of_ok hhead, bind_of_ok ih]
    rfl

/-- So did the steps of a loop that only checks. -/
theorem forall_of_forM {f : γ → Except ε Unit} {xs : List γ} (h : xs.forM f = .ok ()) : ∀ x ∈ xs, f x = .ok () := by
  induction xs with
  | nil => simp
  | cons x xs ih =>
    have hbind : (f x >>= fun _ => xs.forM f) = .ok () := h
    obtain ⟨⟨⟩, hx, h⟩ := bind_eq_ok.1 hbind
    intro y hy
    rcases List.mem_cons.1 hy with rfl | hy
    · exact hx
    · exact ih h y hy

/-- What is related to the elements of another list is related to each one. -/
theorem exists_of_forall₂ {R : γ → α → Prop} {xs : List γ} {ys : List α} (h : List.Forall₂ R xs ys) {x : γ}
    (hx : x ∈ xs) : ∃ y, R x y := by
  induction h with
  | nil => cases hx
  | cons hhead _ ih =>
    rcases List.mem_cons.1 hx with rfl | hx
    · exact ⟨_, hhead⟩
    · exact ih hx

/-- What the elements of another list are related to is in the list. -/
theorem exists_mem_of_forall₂ {R : γ → α → Prop} {xs : List γ} {ys : List α} (h : List.Forall₂ R xs ys) {y : α}
    (hy : y ∈ ys) : ∃ x ∈ xs, R x y := by
  induction h with
  | nil => cases hy
  | cons hhead _ ih =>
    rcases List.mem_cons.1 hy with rfl | hy
    · exact ⟨_, List.mem_cons_self, hhead⟩
    · obtain ⟨x, hx, hR⟩ := ih hy
      exact ⟨x, List.mem_cons_of_mem _ hx, hR⟩

/-- A loop with an accumulator ends well if each step does, whatever it starts from. -/
theorem foldlM_eq_ok {f : α → γ → Except ε α} {g : α → γ → α} {xs : List γ}
    (h : ∀ x ∈ xs, ∀ a, f a x = .ok (g a x)) (a : α) : xs.foldlM f a = .ok (xs.foldl g a) := by
  induction xs generalizing a with
  | nil => rfl
  | cons x xs ih =>
    rw [List.foldlM_cons, bind_of_ok (h x List.mem_cons_self a), List.foldl_cons]
    exact ih (fun y hy => h y (List.mem_cons_of_mem x hy)) _

end Fallible
