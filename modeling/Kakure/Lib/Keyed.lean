import Mathlib

/-!
# Lists with a key

The values of a map that keeps the order in which its keys were first set.

* `put` — a value takes the place of the one with its key, or goes to the end;
* `mem_put`, `nodup_put` — the map afterwards;
* `keys_put` — its keys;
* `totalOf_tally` — totals that are kept by key.
-/

namespace Keyed

universe u v

variable {α : Type u} {κ : Type v} [DecidableEq κ] {key : α → κ}

/-- Sets the value of a key. -/
def put (key : α → κ) (xs : List α) (a : α) : List α :=
  if key a ∈ xs.map key then xs.map fun x => if key x = key a then a else x else xs ++ [a]

/-- The new value is there, and the old ones with another key are. -/
theorem mem_put {xs : List α} {a x : α} : x ∈ put key xs a ↔ x = a ∨ (x ∈ xs ∧ key x ≠ key a) := by
  rw [put]
  by_cases hmem : key a ∈ xs.map key
  · rw [if_pos hmem, List.mem_map]
    constructor
    · rintro ⟨y, hy, rfl⟩
      split_ifs with hkey
      · exact Or.inl rfl
      · exact Or.inr ⟨hy, hkey⟩
    · rintro (rfl | ⟨hx, hkey⟩)
      · obtain ⟨y, hy, hkey⟩ := List.mem_map.1 hmem
        exact ⟨y, hy, if_pos hkey⟩
      · exact ⟨x, hx, if_neg hkey⟩
  · rw [if_neg hmem, List.mem_append, List.mem_singleton]
    constructor
    · rintro (hx | rfl)
      · refine Or.inr ⟨hx, fun hkey => hmem ?_⟩
        rw [← hkey]
        exact List.mem_map_of_mem hx
      · exact Or.inl rfl
    · rintro (rfl | ⟨hx, -⟩)
      · exact Or.inr rfl
      · exact Or.inl hx

/-- The keys stay where they are, a new one goes to the end. -/
theorem keys_put (xs : List α) (a : α) :
    (put key xs a).map key = if key a ∈ xs.map key then xs.map key else xs.map key ++ [key a] := by
  rw [put]
  split_ifs with hmem
  · rw [List.map_map]
    refine List.map_congr_left fun x _ => ?_
    rw [Function.comp_apply]
    split_ifs with hkey
    · exact hkey.symm
    · rfl
  · simp

theorem nodup_put {xs : List α} (h : (xs.map key).Nodup) (a : α) : ((put key xs a).map key).Nodup := by
  rw [keys_put]
  split_ifs with hmem
  · exact h
  · rw [List.nodup_append]
    refine ⟨h, List.nodup_singleton _, fun x hx y hy => ?_⟩
    rw [List.mem_singleton.1 hy]
    rintro rfl
    exact hmem hx

/-- Setting commutes with a map of the values that keeps their keys. -/
theorem map_put {β : Type*} {key' : β → κ} (f : α → β) (hf : ∀ x, key' (f x) = key x) (xs : List α) (a : α) :
    (put key xs a).map f = put key' (xs.map f) (f a) := by
  have hkeys : (xs.map f).map key' = xs.map key := by
    rw [List.map_map]
    exact List.map_congr_left fun x _ => hf x
  rw [put, put, hkeys, hf]
  split_ifs with hmem
  · rw [List.map_map, List.map_map]
    refine List.map_congr_left fun x _ => ?_
    rw [Function.comp_apply, Function.comp_apply, hf]
    split_ifs <;> rfl
  · simp

/-- What a map has for a key after one was set. -/
theorem find?_put (xs : List α) (a : α) (k : κ) :
    (put key xs a).find? (fun x => key x = k) = if key a = k then some a else xs.find? fun x => key x = k := by
  rw [put]
  by_cases hmem : key a ∈ xs.map key
  · have hkeys : ((fun x => decide (key x = k)) ∘ fun x => if key x = key a then a else x) =
        fun x => decide (key x = k) := by
      funext x
      rw [Function.comp_apply]
      split_ifs with hkey
      · rw [hkey]
      · rfl
    rw [if_pos hmem, List.find?_map, hkeys]
    split_ifs with hkey
    · subst hkey
      obtain ⟨x, hx, heq⟩ := List.mem_map.1 hmem
      have hsome : (xs.find? fun x => decide (key x = key a)).isSome := List.find?_isSome.2 ⟨x, hx, by simpa using heq⟩
      obtain ⟨y, hy⟩ := Option.isSome_iff_exists.1 hsome
      have hfound : key y = key a := by simpa using List.find?_some hy
      rw [hy, Option.map_some, if_pos hfound]
    · cases hfind : xs.find? fun x => decide (key x = k) with
      | none => rfl
      | some y =>
        have hfound : key y = k := by simpa using List.find?_some hfind
        rw [Option.map_some, if_neg fun h => hkey (h.symm.trans hfound)]
  · rw [if_neg hmem, List.find?_append]
    by_cases hkey : key a = k
    · have hnone : xs.find? (fun x => decide (key x = k)) = none := by
        refine List.find?_eq_none.2 fun x hx => ?_
        have hne : key x ≠ k := fun h => hmem (by rw [hkey, ← h]; exact List.mem_map_of_mem hx)
        simpa using hne
      simp [hnone, hkey]
    · simp [hkey]

/-! ## Totals -/

variable {M : Type*} [AddCommMonoid M]

/-- The total of a key, of none zero. -/
def totalOf (totals : List (κ × M)) (k : κ) : M := ((totals.find? fun t => t.1 = k).map Prod.snd).getD 0

/-- Adds up what is counted of each key, the keys in the order in which they first come. -/
def tally (key : α → κ) (amount : α → M) (xs : List α) : List (κ × M) :=
  xs.foldl (fun totals x => put Prod.fst totals (key x, totalOf totals (key x) + amount x)) []

/-- The total of a key is the sum over the values that have it. -/
theorem totalOf_tally (key : α → κ) (amount : α → M) (xs : List α) (k : κ) :
    totalOf (tally key amount xs) k = ((xs.filter fun x => key x = k).map amount).sum := by
  have hfold : ∀ (xs : List α) (totals : List (κ × M)),
      totalOf (xs.foldl (fun totals x => put Prod.fst totals (key x, totalOf totals (key x) + amount x)) totals) k =
        totalOf totals k + ((xs.filter fun x => key x = k).map amount).sum := by
    intro xs
    induction xs with
    | nil => simp
    | cons x xs ih =>
      intro totals
      have hput : totalOf (put Prod.fst totals (key x, totalOf totals (key x) + amount x)) k =
          totalOf totals k + if key x = k then amount x else 0 := by
        rw [totalOf, find?_put]
        split_ifs with hkey
        · rw [← hkey]
          rfl
        · rw [add_zero]
          rfl
      rw [List.foldl_cons, ih, hput, add_assoc]
      by_cases hkey : key x = k
      · rw [if_pos hkey, List.filter_cons_of_pos (by simpa using hkey), List.map_cons, List.sum_cons]
      · rw [if_neg hkey, List.filter_cons_of_neg (by simpa using hkey), zero_add]
  have hempty : totalOf ([] : List (κ × M)) k = 0 := rfl
  rw [tally, hfold, hempty, zero_add]

/-- Leaving values out changes no sum exactly if they are zero. -/
theorem sum_filter_eq_iff (p q : α → Bool) (f : α → ℕ) (xs : List α) :
    ((xs.filter p).map f).sum = ((xs.filter fun x => p x && q x).map f).sum ↔
      ∀ x ∈ xs, p x = true → q x = false → f x = 0 := by
  have hle : ∀ xs : List α, ((xs.filter fun x => p x && q x).map f).sum ≤ ((xs.filter p).map f).sum := by
    intro xs
    induction xs with
    | nil => simp
    | cons x xs ih => cases hp : p x <;> cases hq : q x <;> simp [hp, hq] <;> omega
  induction xs with
  | nil => simp
  | cons x xs ih =>
    have h := hle xs
    simp only [List.forall_mem_cons, ← ih]
    cases hp : p x <;> cases hq : q x <;> simp [hp, hq]
    omega

end Keyed
