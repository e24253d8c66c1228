import Mathlib

/-!
# Lookahead over an indexed family of tags

A wallet that derives a tag from every index, and finds what belongs to it by looking the tags
it meets up in a table.  The table holds the indices below some mark; the mark is moved on
to stay a window past the highest index that was met.

* `Window.Covers` — every tagged index below the mark is in the table;
* `Covers.extend`, `Covers.ensure` — moving the mark on keeps it so;
* `Covers.lookup` — what was met moves no mark.
-/

namespace Lookahead

universe u v

variable {τ : Type u} {κ : Type v}

/-- The mark, the highest index met and the table. -/
structure Window (τ : Type u) (κ : Type v) where
  next : ℕ
  matched : ℤ
  entries : τ → Option (ℕ × κ)

namespace Window

/-- Nothing registered, nothing met. -/
def empty : Window τ κ := ⟨0, -1, fun _ => none⟩

/-- Remembers an index that was met. -/
def meet (w : Window τ κ) (index : ℕ) : Window τ κ := { w with matched := max w.matched index }

/-- Looks a tag up, and remembers the index it belongs to. -/
def lookup (w : Window τ κ) (tag : τ) : Option (ℕ × κ) × Window τ κ :=
  match w.entries tag with
  | none => (none, w)
  | some entry => (some entry, w.meet entry.1)

/-- The table has nothing but tags of the family, and every one from below the mark. -/
structure Covers (derive : ℕ → Option (τ × κ)) (w : Window τ κ) : Prop where
  sound : ∀ tag index key, w.entries tag = some (index, key) → derive index = some (tag, key)
  complete : ∀ index tag key, index < w.next → derive index = some (tag, key) →
    (w.entries tag).isSome

variable {derive : ℕ → Option (τ × κ)} {w : Window τ κ}

theorem covers_empty : (empty : Window τ κ).Covers derive where
  sound := by
    intro tag index key h
    cases h
  complete := by
    intro index tag key h
    exact absurd h (Nat.not_lt_zero _)

/-- The mark may move past indices that are there or have no tag. -/
theorem Covers.advance (h : w.Covers derive) {next : ℕ}
    (hnew : ∀ index tag key, w.next ≤ index → index < next → derive index = some (tag, key) →
      (w.entries tag).isSome) : ({ w with next := next } : Window τ κ).Covers derive where
  sound := h.sound
  complete := by
    intro index tag key hlt hderive
    by_cases hold : index < w.next
    · exact h.complete index tag key hold hderive
    · exact hnew index tag key (not_lt.1 hold) hlt hderive

theorem Covers.meet (h : w.Covers derive) (index : ℕ) : (w.meet index).Covers derive :=
  ⟨h.sound, h.complete⟩

@[simp] theorem fst_lookup (tag : τ) : (w.lookup tag).1 = w.entries tag := by
  unfold lookup
  cases h : w.entries tag <;> rfl

@[simp] theorem next_lookup (tag : τ) : (w.lookup tag).2.next = w.next := by
  unfold lookup
  split <;> rfl

theorem Covers.lookup (h : w.Covers derive) (tag : τ) : (w.lookup tag).2.Covers derive := by
  unfold Window.lookup
  split
  · exact h
  · exact h.meet _

/-! ## Moving the mark -/

variable [DecidableEq τ]

/-- Puts an entry into the table, in the place of one with its tag. -/
def set (w : Window τ κ) (tag : τ) (entry : ℕ × κ) : Window τ κ :=
  { w with entries := Function.update w.entries tag (some entry) }

/-- Registers an index, unless it has no tag or its tag is there. -/
def register (derive : ℕ → Option (τ × κ)) (w : Window τ κ) (index : ℕ) : Window τ κ :=
  match derive index with
  | none => w
  | some (tag, key) => if (w.entries tag).isSome then w else w.set tag (index, key)

/-- Registers the index at the mark and moves the mark on. -/
def registerNext (derive : ℕ → Option (τ × κ)) (w : Window τ κ) : Window τ κ :=
  { w.register derive w.next with next := w.next + 1 }

/-- Moves the mark up to a target. -/
def extend (derive : ℕ → Option (τ × κ)) (w : Window τ κ) (target : ℤ) : Window τ κ :=
  (registerNext derive)^[(target - w.next).toNat] w

/-- Moves the mark up to a window past the highest index met. -/
def ensure (derive : ℕ → Option (τ × κ)) (w : Window τ κ) (window : ℤ) : Window τ κ :=
  w.extend derive (max w.next (w.matched + 1 + window))

@[simp] theorem next_register (index : ℕ) : (w.register derive index).next = w.next := by
  unfold register
  split
  · rfl
  · split <;> rfl

@[simp] theorem next_registerNext : (w.registerNext derive).next = w.next + 1 := rfl

@[simp] theorem matched_register (index : ℕ) : (w.register derive index).matched = w.matched := by
  unfold register
  split
  · rfl
  · split <;> rfl

@[simp] theorem matched_registerNext : (w.registerNext derive).matched = w.matched :=
  matched_register w.next

theorem entries_set (tag tag' : τ) (entry : ℕ × κ) :
    (w.set tag entry).entries tag' = if tag' = tag then some entry else w.entries tag' := by
  exact Function.update_apply _ _ _ _

/-- An entry of the family keeps the table sound, and takes none away. -/
theorem Covers.set (h : w.Covers derive) {tag : τ} {index : ℕ} {key : κ}
    (hderive : derive index = some (tag, key)) : (w.set tag (index, key)).Covers derive where
  sound := by
    intro tag' index' key' hentry
    rw [entries_set] at hentry
    split at hentry
    · rename_i heq
      cases hentry
      rw [heq, hderive]
    · exact h.sound _ _ _ hentry
  complete := by
    intro index' tag' key' hlt hderive'
    rw [entries_set]
    split
    · rfl
    · exact h.complete _ _ _ hlt hderive'

/-- A registered index is there, and nothing is lost. -/
theorem Covers.register (h : w.Covers derive) (index : ℕ) :
    (w.register derive index).Covers derive ∧
      ∀ tag key, derive index = some (tag, key) → ((w.register derive index).entries tag).isSome := by
  unfold Window.register
  cases hderive : derive index with
  | none =>
    refine ⟨h, ?_⟩
    intro tag key htag
    cases htag
  | some entry =>
    obtain ⟨tag, key⟩ := entry
    by_cases hthere : (w.entries tag).isSome = true
    · simp only [if_pos hthere]
      refine ⟨h, ?_⟩
      intro tag' key' htag
      cases htag
      exact hthere
    · simp only [if_neg hthere]
      refine ⟨h.set hderive, ?_⟩
      intro tag' key' htag
      cases htag
      rw [entries_set, if_pos rfl]
      rfl

theorem Covers.registerNext (h : w.Covers derive) : (w.registerNext derive).Covers derive := by
  obtain ⟨hcovers, hthere⟩ := h.register w.next
  refine hcovers.advance ?_
  intro index tag key hle hlt hderive
  rw [next_register] at hle
  obtain rfl : index = w.next := by omega
  exact hthere tag key hderive

theorem Covers.extend (h : w.Covers derive) (target : ℤ) : (w.extend derive target).Covers derive := by
  unfold Window.extend
  generalize (target - w.next).toNat = n
  induction n generalizing w with
  | zero => exact h
  | succ n ih => exact ih h.registerNext

theorem next_extend (target : ℤ) : ((w.extend derive target).next : ℤ) = max (w.next : ℤ) target := by
  have hiterate : ∀ (n : ℕ) (w : Window τ κ), ((Window.registerNext derive)^[n] w).next = w.next + n := by
    intro n
    induction n with
    | zero => simp
    | succ n ih =>
      intro w
      rw [Function.iterate_succ_apply, ih, next_registerNext]
      omega
  unfold Window.extend
  rw [hiterate]
  omega

theorem matched_extend (target : ℤ) : (w.extend derive target).matched = w.matched := by
  unfold Window.extend
  generalize (target - w.next).toNat = n
  induction n generalizing w with
  | zero => rfl
  | succ n ih => rw [Function.iterate_succ_apply, ih, matched_registerNext]

theorem Covers.ensure (h : w.Covers derive) (window : ℤ) : (w.ensure derive window).Covers derive :=
  h.extend _

/-! ## Entries of the family -/

/-- The table has nothing but tags of the family. -/
def Sound (derive : ℕ → Option (τ × κ)) (w : Window τ κ) : Prop :=
  ∀ tag index key, w.entries tag = some (index, key) → derive index = some (tag, key)

omit [DecidableEq τ] in
theorem sound_empty : (empty : Window τ κ).Sound derive := by
  intro tag index key h
  cases h

theorem Sound.set (h : w.Sound derive) {tag : τ} {index : ℕ} {key : κ} (hderive : derive index = some (tag, key)) :
    (w.set tag (index, key)).Sound derive := by
  intro tag' index' key' hentry
  rw [entries_set] at hentry
  split at hentry
  · rename_i heq
    cases hentry
    rw [heq, hderive]
  · exact h _ _ _ hentry

theorem Sound.register (h : w.Sound derive) (index : ℕ) : (w.register derive index).Sound derive := by
  unfold Window.register
  cases hderive : derive index with
  | none => exact h
  | some entry =>
    obtain ⟨tag, key⟩ := entry
    dsimp only
    split
    · exact h
    · exact h.set hderive

theorem Sound.extend (h : w.Sound derive) (target : ℤ) : (w.extend derive target).Sound derive := by
  unfold Window.extend
  generalize (target - w.next).toNat = n
  induction n generalizing w with
  | zero => exact h
  | succ n ih => exact ih (h.register w.next)

theorem Sound.ensure (h : w.Sound derive) (window : ℤ) : (w.ensure derive window).Sound derive := h.extend _

omit [DecidableEq τ] in
theorem Sound.lookup (h : w.Sound derive) (tag : τ) : (w.lookup tag).2.Sound derive := by
  unfold Window.lookup
  split <;> exact h

end Window

end Lookahead
