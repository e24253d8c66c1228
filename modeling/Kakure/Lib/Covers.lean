import Mathlib

/-!
# Covers of a target

Items of a list are selected so that their weights add up to a target.  The weights are in any linearly ordered
commutative monoid.

* `total_le_take` — no selection from a descending list is heavier than as many of its first items;
* `reach_spec`, `length_le_of_cover` — adding up the heaviest items finds the fewest that reach the target;
* `cheapest_spec` — one pass over candidate selections keeps a lightest one that reaches it.
-/

namespace Covers

variable {α M : Type*} [AddCommMonoid M] (w : α → M)

/-- The weight of a list. -/
def total (l : List α) : M := (l.map w).sum

@[simp] theorem total_nil : total w [] = 0 := rfl

@[simp] theorem total_cons (a : α) (l : List α) : total w (a :: l) = w a + total w l := by simp [total]

@[simp] theorem total_append (l l' : List α) : total w (l ++ l') = total w l + total w l' := by simp [total]

theorem total_perm {l l' : List α} (h : l.Perm l') : total w l = total w l' := (h.map w).sum_eq

/-- `reduce` adds the weights up from the left. -/
theorem foldl_add (l : List α) (sum : M) : l.foldl (fun acc a => acc + w a) sum = sum + total w l := by
  induction l generalizing sum with
  | nil => simp
  | cons a l ih => rw [List.foldl_cons, ih, total_cons, add_assoc]

variable [LinearOrder M]

/-- A selection of the items that reaches the target. -/
structure IsCover (items : List α) (target : M) (cover : List α) : Prop where
  subperm : cover.Subperm items
  reaches : target ≤ total w cover

/-! ## The cheapest candidate -/

/-- One step of the search: a candidate that reaches the target replaces a heavier one. -/
def cheaper (target : M) (best : Option (List α × M)) (candidate : List α) : Option (List α × M) :=
  let weight := total w candidate
  if target ≤ weight ∧ ∀ b ∈ best, weight < b.2 then some (candidate, weight) else best

variable {w}

/-- What the search has kept of the candidates seen. -/
structure Cheapest (target : M) (seen : List (List α)) (best : Option (List α × M)) : Prop where
  mem : ∀ b ∈ best, b.1 ∈ seen ∧ b.2 = total w b.1 ∧ target ≤ b.2
  le : ∀ c ∈ seen, target ≤ total w c → ∃ b ∈ best, b.2 ≤ total w c

theorem Cheapest.step {target : M} {seen : List (List α)} {best : Option (List α × M)}
    (h : Cheapest (w := w) target seen best) (candidate : List α) :
    Cheapest (w := w) target (seen ++ [candidate]) (cheaper w target best candidate) := by
  unfold cheaper
  by_cases hbetter : target ≤ total w candidate ∧ ∀ b ∈ best, total w candidate < b.2
  · dsimp only
    rw [if_pos hbetter]
    constructor
    · rintro b hb
      cases hb
      exact ⟨by simp, rfl, hbetter.1⟩
    · intro c hc hreaches
      refine ⟨_, rfl, ?_⟩
      rcases List.mem_append.1 hc with hc | hc
      · obtain ⟨b, hb, hle⟩ := h.le c hc hreaches
        exact le_trans (hbetter.2 b hb).le hle
      · rw [List.mem_singleton.1 hc]
  · dsimp only
    rw [if_neg hbetter]
    constructor
    · intro b hb
      obtain ⟨hmem, hrest⟩ := h.mem b hb
      exact ⟨List.mem_append_left _ hmem, hrest⟩
    · intro c hc hreaches
      rcases List.mem_append.1 hc with hc | hc
      · exact h.le c hc hreaches
      · rw [List.mem_singleton.1 hc] at hreaches ⊢
        by_contra hnone
        exact hbetter ⟨hreaches, fun b hb => not_le.1 fun hle => hnone ⟨b, hb, hle⟩⟩

/-- The search ends with a lightest candidate that reaches the target, if there is one. -/
theorem cheapest_spec (target : M) (candidates : List (List α)) :
    Cheapest (w := w) target candidates (candidates.foldl (cheaper w target) none) := by
  have hrun : ∀ (rest seen : List (List α)) (best : Option (List α × M)), Cheapest (w := w) target seen best →
      Cheapest (w := w) target (seen ++ rest) (rest.foldl (cheaper w target) best) := by
    intro rest
    induction rest with
    | nil =>
      intro seen best h
      rwa [List.append_nil]
    | cons candidate rest ih =>
      intro seen best h
      have := ih _ _ (h.step candidate)
      rwa [List.append_assoc, List.singleton_append] at this
  refine hrun candidates [] none ⟨?_, ?_⟩
  · intro b hb
    cases hb
  · intro c hc
    cases hc

/-! ## The heaviest items -/

variable (w) in
/-- Adding the items up until the target is reached: how many there were, and their weight. -/
def reach (target : M) : List α → ℕ → M → ℕ × M
  | [], k, sum => (k, sum)
  | a :: rest, k, sum => if sum < target then reach target rest (k + 1) (sum + w a) else (k, sum)

/-- The loop stops at the first items that reach the target, or with all of them. -/
theorem reach_from {target : M} {taken rest : List α}
    (hbefore : ∀ j < taken.length, total w ((taken ++ rest).take j) < target) :
    ∃ k ≤ (taken ++ rest).length, reach w target rest taken.length (total w taken) =
        (k, total w ((taken ++ rest).take k)) ∧
      (∀ j < k, total w ((taken ++ rest).take j) < target) ∧
      (target ≤ total w ((taken ++ rest).take k) ∨ k = (taken ++ rest).length) := by
  induction rest generalizing taken with
  | nil =>
    refine ⟨taken.length, by simp, ?_, hbefore, .inr (by simp)⟩
    simp [reach]
  | cons a rest ih =>
    have htaken : (taken ++ a :: rest).take taken.length = taken := List.take_left' rfl
    by_cases hlt : total w taken < target
    · have hbefore' : ∀ j < (taken ++ [a]).length, total w ((taken ++ [a] ++ rest).take j) < target := by
        intro j hj
        rw [List.append_assoc, List.singleton_append]
        rcases Nat.lt_succ_iff_lt_or_eq.1 (by simpa using hj) with hj | rfl
        · exact hbefore j hj
        · rwa [htaken]
      obtain ⟨k, hk, hreach, hrest⟩ := ih hbefore'
      rw [List.append_assoc, List.singleton_append] at hk hreach hrest
      refine ⟨k, hk, ?_, hrest⟩
      rw [reach, if_pos hlt, ← hreach]
      simp
    · refine ⟨taken.length, by simp, ?_, hbefore, .inl ?_⟩
      · rw [reach, if_neg hlt, htaken]
      · rw [htaken]
        exact not_lt.1 hlt

theorem reach_spec (target : M) (l : List α) :
    ∃ k ≤ l.length, reach w target l 0 0 = (k, total w (l.take k)) ∧ (∀ j < k, total w (l.take j) < target) ∧
      (target ≤ total w (l.take k) ∨ k = l.length) :=
  @reach_from _ _ _ w _ target [] l fun j hj => absurd hj (Nat.not_lt_zero j)

variable [IsOrderedAddMonoid M]

/-- Dropping the first of the taken items for a later one does not make a descending list heavier. -/
theorem total_take_le_cons {a : α} {d : List α} (hd : (a :: d).Pairwise fun a b => w b ≤ w a) {n : ℕ}
    (hn : n ≤ d.length) : total w (d.take n) ≤ total w ((a :: d).take n) := by
  induction d generalizing a n with
  | nil =>
    rw [Nat.le_zero.1 hn]
    simp
  | cons b d ih =>
    cases n with
    | zero => simp
    | succ n =>
      obtain ⟨hab, htail⟩ := List.pairwise_cons.1 hd
      rw [List.take_succ_cons, List.take_succ_cons, total_cons, total_cons]
      exact add_le_add (hab b List.mem_cons_self) (ih htail (Nat.le_of_succ_le_succ hn))

/-- A sublist of a descending list is at most as heavy as its first items. -/
theorem total_sublist_le_take {s d : List α} (hd : d.Pairwise fun a b => w b ≤ w a) (h : s.Sublist d) :
    total w s ≤ total w (d.take s.length) := by
  induction h with
  | slnil => simp
  | cons a hsub ih =>
    exact le_trans (ih (List.pairwise_cons.1 hd).2) (total_take_le_cons hd hsub.length_le)
  | cons_cons a _ ih =>
    rw [List.length_cons, List.take_succ_cons, total_cons, total_cons]
    exact add_le_add le_rfl (ih (List.pairwise_cons.1 hd).2)

/-- No selection is heavier than as many of the heaviest items. -/
theorem total_le_take {s d : List α} (hd : d.Pairwise fun a b => w b ≤ w a) (h : s.Subperm d) :
    total w s ≤ total w (d.take s.length) := by
  obtain ⟨s', hperm, hsub⟩ := h
  rw [← total_perm w hperm, ← hperm.length_eq]
  exact total_sublist_le_take hd hsub

theorem total_nonneg {l : List α} (h : ∀ a ∈ l, 0 ≤ w a) : 0 ≤ total w l := by
  induction l with
  | nil => simp
  | cons a l ih =>
    rw [total_cons]
    exact add_nonneg (h a List.mem_cons_self) (ih fun b hb => h b (List.mem_cons_of_mem a hb))

/-- More of the first items are at least as heavy, if no weight is negative. -/
theorem total_take_mono {l : List α} (h : ∀ a ∈ l, 0 ≤ w a) {m n : ℕ} (hmn : m ≤ n) :
    total w (l.take m) ≤ total w (l.take n) := by
  obtain ⟨k, rfl⟩ := Nat.exists_eq_add_of_le hmn
  rw [List.take_add, total_append]
  refine le_add_of_nonneg_right (total_nonneg fun a ha => h a ?_)
  exact List.mem_of_mem_drop (List.mem_of_mem_take ha)

/-- No cover has fewer items than the heaviest items that reach the target. -/
theorem length_le_of_cover {target : M} {d cover : List α} (hd : d.Pairwise fun a b => w b ≤ w a)
    (h : IsCover w d target cover) {k : ℕ} (hk : ∀ j < k, total w (d.take j) < target) : k ≤ cover.length := by
  by_contra hlt
  have := hk cover.length (not_le.1 hlt)
  exact absurd (le_trans h.reaches (total_le_take hd h.subperm)) (not_le.2 this)

end Covers
