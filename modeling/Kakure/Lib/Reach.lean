import Kakure.Lib.Lookahead

/-!
# How far a lookahead reaches

Passes over the tags of a history: each looks all of them up and then moves the mark on.  What is met in one pass
moves the mark of the next, so the mark after some passes is a function of the indices that are in use.

* `lt_reach_of_gapless` — a pass for every index in use reaches all that are not too far apart;
* `Exact` — the table has every tag below the mark, with the first index that has it;
* `AtPass.pass` — a scan from nothing has its mark at the reach of the passes it made;
* `Beyond.pass` — a scan from anything exact has it there or beyond;
* `reach_stable` — once a pass moves no mark, none does.
-/

namespace Lookahead

universe u v

variable {τ : Type u} {κ : Type v}

/-! ## Reach -/

/-- The highest index in use below a mark, or `-1`. -/
def highest (used : ℕ → Bool) : ℕ → ℤ
  | 0 => -1
  | n + 1 => if used n then n else highest used n

/-- The mark after some passes. -/
def reach (used : ℕ → Bool) (window : ℤ) : ℕ → ℕ
  | 0 => window.toNat
  | k + 1 => max (reach used window k) (highest used (reach used window k) + 1 + window).toNat

variable {used : ℕ → Bool} {window : ℤ}

theorem neg_one_le_highest (n : ℕ) : -1 ≤ highest used n := by
  induction n with
  | zero => exact le_refl _
  | succ n ih =>
    rw [highest]
    split
    · omega
    · exact ih

theorem le_highest {i n : ℕ} (hlt : i < n) (hused : used i = true) : (i : ℤ) ≤ highest used n := by
  induction n with
  | zero => omega
  | succ n ih =>
    rw [highest]
    split
    · omega
    · rename_i hn
      refine ih (lt_of_le_of_ne (Nat.lt_succ_iff.1 hlt) ?_)
      rintro rfl
      exact hn hused

theorem highest_le {n : ℕ} {m : ℤ} (hm : -1 ≤ m) (h : ∀ i < n, used i = true → (i : ℤ) ≤ m) :
    highest used n ≤ m := by
  induction n with
  | zero => exact hm
  | succ n ih =>
    rw [highest]
    split
    · exact h n (Nat.lt_succ_self n) ‹_›
    · exact ih fun i hi => h i (Nat.lt_succ_of_lt hi)

theorem highest_mono {n n' : ℕ} (h : n ≤ n') : highest used n ≤ highest used n' :=
  highest_le (neg_one_le_highest n') fun _ hi hused => le_highest (lt_of_lt_of_le hi h) hused

theorem reach_le_succ (k : ℕ) : reach used window k ≤ reach used window (k + 1) := le_max_left _ _

theorem reach_mono : Monotone (reach used window) := monotone_nat_of_le_succ reach_le_succ

/-- Once a pass moves no mark, none does. -/
theorem reach_stable {k : ℕ} (h : reach used window (k + 1) = reach used window k) {j : ℕ} (hj : k ≤ j) :
    reach used window j = reach used window k := by
  induction j, hj using Nat.le_induction with
  | base => rfl
  | succ j _ ih =>
    rw [reach, ih]
    exact h

/-- An index in use within the window of the ones met is reached. -/
theorem lt_reach_succ {k i j : ℕ} (hj : j < reach used window k) (hused : used j = true)
    (hgap : (i : ℤ) ≤ j + window) : i < reach used window (k + 1) := by
  have h := le_highest hj hused
  rw [reach]
  omega

/-- Every index in use is within the window of a lower one, or of the start. -/
def Gapless (used : ℕ → Bool) (window : ℤ) : Prop :=
  ∀ i, used i = true → (i : ℤ) < window ∨ ∃ j < i, used j = true ∧ (i : ℤ) ≤ j + window

/-- Without longer gaps, an index in use is reached after as many passes as there are lower ones. -/
theorem lt_reach_of_gapless (h : Gapless used window) {i : ℕ} (hused : used i = true) :
    i < reach used window (Nat.count (fun j => used j = true) i) := by
  induction i using Nat.strong_induction_on with
  | _ i ih =>
    rcases h i hused with hlt | ⟨j, hj, husedj, hgap⟩
    · have hstart : i < reach used window 0 := by
        rw [reach]
        omega
      exact lt_of_lt_of_le hstart (reach_mono (Nat.zero_le _))
    · have hcount : Nat.count (fun j => used j = true) j + 1 ≤ Nat.count (fun j => used j = true) i := by
        have hsucc : Nat.count (fun j => used j = true) (j + 1) = Nat.count (fun j => used j = true) j + 1 := by
          rw [Nat.count_succ, if_pos husedj]
        rw [← hsucc]
        exact Nat.count_monotone _ hj
      exact lt_of_lt_of_le (lt_reach_succ (ih j hj husedj) husedj hgap) (reach_mono hcount)

/-! ## Tables -/

/-- The first index that has a tag. -/
structure First (derive : ℕ → Option (τ × κ)) (tag : τ) (index : ℕ) (key : κ) : Prop where
  has : derive index = some (tag, key)
  before : ∀ j < index, (derive j).map Prod.fst ≠ some tag

/-- An index has the tag, so some index is the first. -/
theorem exists_first {derive : ℕ → Option (τ × κ)} {tag : τ} {index : ℕ} {key : κ}
    (h : derive index = some (tag, key)) : ∃ i ≤ index, ∃ k, First derive tag i k := by
  induction index using Nat.strong_induction_on generalizing key with
  | _ index ih =>
    by_cases hbefore : ∃ j < index, (derive j).map Prod.fst = some tag
    · obtain ⟨j, hj, htag⟩ := hbefore
      obtain ⟨⟨tag', key'⟩, hderive, rfl⟩ := Option.map_eq_some_iff.1 htag
      obtain ⟨i, hi, k, hfirst⟩ := ih j hj hderive
      exact ⟨i, by omega, k, hfirst⟩
    · push Not at hbefore
      exact ⟨index, le_refl _, key, h, hbefore⟩

theorem First.index_eq {derive : ℕ → Option (τ × κ)} {tag : τ} {i j : ℕ} {k k' : κ} (h : First derive tag i k)
    (h' : First derive tag j k') : i = j := by
  rcases lt_trichotomy i j with hlt | heq | hlt
  · exact absurd (by rw [h.has]; rfl) (h'.before i hlt)
  · exact heq
  · exact absurd (by rw [h'.has]; rfl) (h.before j hlt)

theorem First.entry_eq {derive : ℕ → Option (τ × κ)} {tag : τ} {index : ℕ} {key : κ} {entry : τ × κ}
    (h : First derive tag index key) (hderive : derive index = some entry) : entry = (tag, key) := by
  rw [h.has] at hderive
  exact (Option.some.inj hderive).symm

/-- An index that is not the first of a tag adds nothing to its entry. -/
theorem lt_or_eq_and_first_iff {derive : ℕ → Option (τ × κ)} {tag : τ} {next index : ℕ} {key : κ}
    (hnot : ¬ First derive tag next key) :
    index < next ∧ First derive tag index key ↔ (index < next ∨ index = next) ∧ First derive tag index key := by
  constructor
  · rintro ⟨hlt, hfirst⟩
    exact ⟨Or.inl hlt, hfirst⟩
  · rintro ⟨hlt | rfl, hfirst⟩
    · exact ⟨hlt, hfirst⟩
    · exact absurd hfirst hnot

namespace Window

variable {derive : ℕ → Option (τ × κ)} {w : Window τ κ}

/-- The table has every tag below the mark, with the first index that has it. -/
def Exact (derive : ℕ → Option (τ × κ)) (w : Window τ κ) : Prop :=
  ∀ tag index key, w.entries tag = some (index, key) ↔ index < w.next ∧ First derive tag index key

theorem exact_empty : (empty : Window τ κ).Exact derive := by
  intro tag index key
  constructor
  · intro h
    cases h
  · rintro ⟨h, -⟩
    exact absurd h (Nat.not_lt_zero _)

/-- A tag is there if an index below the mark has it. -/
theorem Exact.isSome_iff (h : w.Exact derive) {tag : τ} :
    (w.entries tag).isSome ↔ ∃ index < w.next, ∃ key, derive index = some (tag, key) := by
  constructor
  · intro hsome
    obtain ⟨⟨index, key⟩, hentry⟩ := Option.isSome_iff_exists.1 hsome
    obtain ⟨hlt, hfirst⟩ := (h tag index key).1 hentry
    exact ⟨index, hlt, key, hfirst.has⟩
  · rintro ⟨index, hlt, key, hderive⟩
    obtain ⟨i, hi, k, hfirst⟩ := exists_first hderive
    rw [(h tag i k).2 ⟨by omega, hfirst⟩]
    rfl

/-- Looks tags up, one after the other. -/
def lookupAll (tags : List τ) (w : Window τ κ) : Window τ κ := tags.foldl (fun w tag => (w.lookup tag).2) w

@[simp] theorem entries_lookup (tag : τ) : (w.lookup tag).2.entries = w.entries := by
  unfold lookup
  split <;> rfl

@[simp] theorem entries_lookupAll (tags : List τ) : (w.lookupAll tags).entries = w.entries := by
  induction tags generalizing w with
  | nil => rfl
  | cons tag tags ih => exact (ih (w := (w.lookup tag).2)).trans (entries_lookup tag)

@[simp] theorem next_lookupAll (tags : List τ) : (w.lookupAll tags).next = w.next := by
  induction tags generalizing w with
  | nil => rfl
  | cons tag tags ih => exact (ih (w := (w.lookup tag).2)).trans (next_lookup tag)

theorem Exact.lookupAll (h : w.Exact derive) (tags : List τ) : (w.lookupAll tags).Exact derive := by
  unfold Exact
  rw [entries_lookupAll, next_lookupAll]
  exact h

theorem matched_lookup_le_iff {tag : τ} {m : ℤ} :
    (w.lookup tag).2.matched ≤ m ↔ w.matched ≤ m ∧ ∀ i k, w.entries tag = some (i, k) → (i : ℤ) ≤ m := by
  unfold lookup
  cases hentry : w.entries tag with
  | none => simp
  | some entry =>
    obtain ⟨i, k⟩ := entry
    simp [meet]

/-- The highest index met is the highest one of the tags. -/
theorem matched_lookupAll_le_iff {tags : List τ} {m : ℤ} :
    (w.lookupAll tags).matched ≤ m ↔
      w.matched ≤ m ∧ ∀ tag ∈ tags, ∀ i k, w.entries tag = some (i, k) → (i : ℤ) ≤ m := by
  induction tags generalizing w with
  | nil => simp [lookupAll]
  | cons tag tags ih =>
    have hcons : w.lookupAll (tag :: tags) = (w.lookup tag).2.lookupAll tags := rfl
    rw [hcons, ih, matched_lookup_le_iff, entries_lookup, List.forall_mem_cons, and_assoc]

variable [DecidableEq τ]

theorem Exact.registerNext (h : w.Exact derive) : (w.registerNext derive).Exact derive := by
  intro tag index key
  have hsucc : index < w.next + 1 ↔ index < w.next ∨ index = w.next := Nat.lt_succ_iff_lt_or_eq
  rw [next_registerNext, hsucc]
  have hentries : (w.registerNext derive).entries = (w.register derive w.next).entries := rfl
  rw [hentries]
  unfold register
  cases hderive : derive w.next with
  | none =>
    dsimp only
    rw [h]
    apply lt_or_eq_and_first_iff
    intro hfirst
    rw [hfirst.has] at hderive
    cases hderive
  | some entry =>
    obtain ⟨t, k⟩ := entry
    dsimp only
    by_cases hthere : (w.entries t).isSome = true
    · -- a lower index has the tag already
      rw [if_pos hthere, h]
      apply lt_or_eq_and_first_iff
      intro hfirst
      cases hfirst.entry_eq hderive
      obtain ⟨j, hj, k', hj'⟩ := h.isSome_iff.1 hthere
      exact absurd (by rw [hj']; rfl) (hfirst.before j hj)
    · rw [if_neg hthere, entries_set]
      split
      · rename_i heq
        subst heq
        have hbefore : ∀ j < w.next, (derive j).map Prod.fst ≠ some tag := by
          intro j hj htag
          obtain ⟨⟨tag', k'⟩, hj', rfl⟩ := Option.map_eq_some_iff.1 htag
          exact hthere (h.isSome_iff.2 ⟨j, hj, k', hj'⟩)
        constructor
        · intro heq
          cases heq
          exact ⟨Or.inr rfl, hderive, hbefore⟩
        · rintro ⟨hlt | rfl, hfirst⟩
          · exact absurd (by rw [hfirst.has]; rfl) (hbefore index hlt)
          · cases hfirst.entry_eq hderive
            rfl
      · rename_i hne
        rw [h]
        apply lt_or_eq_and_first_iff
        intro hfirst
        cases hfirst.entry_eq hderive
        exact absurd rfl hne

theorem Exact.extend (h : w.Exact derive) (target : ℤ) : (w.extend derive target).Exact derive := by
  unfold Window.extend
  generalize (target - w.next).toNat = n
  induction n generalizing w with
  | zero => exact h
  | succ n ih => exact ih h.registerNext

theorem Exact.ensure (h : w.Exact derive) (window : ℤ) : (w.ensure derive window).Exact derive := h.extend _

theorem next_ensure (window : ℤ) : ((w.ensure derive window).next : ℤ) = max (w.next : ℤ) (w.matched + 1 + window) := by
  unfold ensure
  rw [next_extend]
  omega

theorem matched_ensure (window : ℤ) : (w.ensure derive window).matched = w.matched := matched_extend _

/-! ## Passes -/

/-- The first index that has its tag, which is one of these. -/
def usedIn (derive : ℕ → Option (τ × κ)) (tags : List τ) (index : ℕ) : Bool :=
  match derive index with
  | none => false
  | some (tag, _) => decide (tag ∈ tags ∧ ∀ j < index, (derive j).map Prod.fst ≠ some tag)

theorem usedIn_iff {tags : List τ} {index : ℕ} :
    usedIn derive tags index = true ↔ ∃ tag ∈ tags, ∃ key, First derive tag index key := by
  unfold usedIn
  cases hderive : derive index with
  | none =>
    constructor
    · intro h
      cases h
    · rintro ⟨tag, -, key, hfirst⟩
      rw [hfirst.has] at hderive
      cases hderive
  | some entry =>
    obtain ⟨tag, key⟩ := entry
    rw [decide_eq_true_eq]
    constructor
    · rintro ⟨hmem, hbefore⟩
      exact ⟨tag, hmem, key, hderive, hbefore⟩
    · rintro ⟨tag', hmem, key', hfirst⟩
      have htag := hfirst.has
      rw [hderive] at htag
      cases htag
      exact ⟨hmem, hfirst.before⟩

/-- A pass: all tags are looked up, and the mark is moved on. -/
def pass (derive : ℕ → Option (τ × κ)) (tags : List τ) (window : ℤ) (w : Window τ κ) : Window τ κ :=
  (w.lookupAll tags).ensure derive window

theorem le_next_pass {tags : List τ} : w.next ≤ (w.pass derive tags window).next := by
  have h := @next_ensure _ _ derive (w.lookupAll tags) _ window
  rw [next_lookupAll] at h
  exact Int.ofNat_le.1 (le_of_le_of_eq (le_max_left _ _) h.symm)

/-- The highest index met after all tags were looked up. -/
theorem Exact.matched_lookupAll (h : w.Exact derive) (hmatched : -1 ≤ w.matched) (tags : List τ) :
    (w.lookupAll tags).matched = max w.matched (highest (usedIn derive tags) w.next) := by
  refine eq_of_forall_ge_iff fun m => ?_
  rw [matched_lookupAll_le_iff, max_le_iff]
  refine and_congr_right fun hm => ⟨?_, ?_⟩
  · intro hentries
    refine highest_le (le_trans hmatched hm) fun i hi hused => ?_
    obtain ⟨tag, hmem, key, hfirst⟩ := usedIn_iff.1 hused
    exact hentries tag hmem i key ((h tag i key).2 ⟨hi, hfirst⟩)
  · intro hhighest tag hmem i key hentry
    obtain ⟨hi, hfirst⟩ := (h tag i key).1 hentry
    exact le_trans (le_highest hi (usedIn_iff.2 ⟨tag, hmem, key, hfirst⟩)) hhighest

/-- A scan from nothing after some passes. -/
structure AtPass (derive : ℕ → Option (τ × κ)) (tags : List τ) (window : ℤ) (k : ℕ) (w : Window τ κ) : Prop where
  exact : w.Exact derive
  next : w.next = reach (usedIn derive tags) window k
  low : -1 ≤ w.matched
  high : w.matched ≤ highest (usedIn derive tags) w.next

theorem atPass_start (tags : List τ) (window : ℤ) :
    AtPass derive tags window 0 ((empty : Window τ κ).ensure derive window) where
  exact := exact_empty.ensure window
  next := by
    have h := @next_ensure _ _ derive (empty : Window τ κ) _ window
    have hempty : (empty : Window τ κ).next = 0 ∧ (empty : Window τ κ).matched = -1 := ⟨rfl, rfl⟩
    rw [hempty.1, hempty.2] at h
    rw [reach]
    omega
  low := by
    rw [matched_ensure]
    exact le_refl _
  high := by
    rw [matched_ensure]
    exact neg_one_le_highest _

theorem AtPass.pass {tags : List τ} {k : ℕ} (h : AtPass derive tags window k w) :
    AtPass derive tags window (k + 1) (w.pass derive tags window) := by
  have hmatched : (w.lookupAll tags).matched = highest (usedIn derive tags) w.next := by
    rw [h.exact.matched_lookupAll h.low, max_eq_right h.high]
  have hnext : ((w.pass derive tags window).next : ℤ) =
      max (w.next : ℤ) (highest (usedIn derive tags) w.next + 1 + window) := by
    rw [Window.pass, next_ensure, next_lookupAll, hmatched]
  have hle : w.next ≤ (w.pass derive tags window).next := by omega
  refine ⟨(h.exact.lookupAll tags).ensure window, ?_, ?_, ?_⟩
  · rw [reach, ← h.next]
    omega
  · rw [Window.pass, matched_ensure, hmatched]
    exact neg_one_le_highest _
  · have hmatched' : (w.pass derive tags window).matched = highest (usedIn derive tags) w.next := by
      rw [Window.pass, matched_ensure, hmatched]
    rw [hmatched']
    exact highest_mono hle

/-- A scan from anything exact, which is at least as far as one from nothing. -/
structure Beyond (derive : ℕ → Option (τ × κ)) (tags : List τ) (window : ℤ) (k : ℕ) (w : Window τ κ) : Prop where
  exact : w.Exact derive
  next : reach (usedIn derive tags) window k ≤ w.next
  low : -1 ≤ w.matched

theorem beyond_start (h : w.Exact derive) (hlow : -1 ≤ w.matched) (tags : List τ) (window : ℤ) :
    Beyond derive tags window 0 (w.ensure derive window) where
  exact := h.ensure window
  next := by
    have hnext := @next_ensure _ _ derive w _ window
    rw [reach]
    omega
  low := by rwa [matched_ensure]

theorem Beyond.pass {tags : List τ} {k : ℕ} (h : Beyond derive tags window k w) :
    Beyond derive tags window (k + 1) (w.pass derive tags window) := by
  have hmatched := h.exact.matched_lookupAll h.low tags
  have hhighest := @highest_mono (usedIn derive tags) _ _ h.next
  have hnext := @next_ensure _ _ derive (w.lookupAll tags) _ window
  rw [next_lookupAll, hmatched] at hnext
  refine ⟨(h.exact.lookupAll tags).ensure window, ?_, ?_⟩
  · have hreach := h.next
    rw [reach, Window.pass]
    omega
  · rw [Window.pass, matched_ensure, hmatched]
    exact le_trans h.low (le_max_left _ _)

/-- Once a pass moves no mark, nothing is out of reach. -/
theorem Beyond.le_of_still {tags : List τ} {k : ℕ} (h : Beyond derive tags window k w)
    (hstill : (w.pass derive tags window).next = w.next) (j : ℕ) : reach (usedIn derive tags) window j ≤ w.next := by
  have hnext := @next_ensure _ _ derive (w.lookupAll tags) _ window
  rw [next_lookupAll, h.exact.matched_lookupAll h.low tags] at hnext
  rw [Window.pass] at hstill
  have hwindow : window ≤ w.next := by
    have hlow := le_trans h.low (le_max_left w.matched (highest (usedIn derive tags) w.next))
    omega
  induction j with
  | zero =>
    rw [reach]
    omega
  | succ j ih =>
    have hhighest := @highest_mono (usedIn derive tags) _ _ ih
    rw [reach]
    omega

end Window

end Lookahead
