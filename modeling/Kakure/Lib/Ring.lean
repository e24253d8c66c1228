import Mathlib

/-!
# Ring buffers

A ring of `N` slots and a cursor, against the sequence of everything ever pushed.

* `IsLatest` — the latest push that went to its slot, with `isLatest_iff`: it is one of
  the last `N`;
* `Holds` — the ring shows the sequence: the cursor is its length modulo `N`, a slot
  shows its latest push and the slots not reached yet are blank;
* `Holds.push` — writing at the cursor and advancing it shows the longer sequence.
-/

namespace Ring

variable {α : Type*} {N : ℕ}

/-- Push `k` is the latest of `n` pushes to its slot. -/
def IsLatest (N n k : ℕ) : Prop := k < n ∧ ∀ k' < n, k' % N = k % N → k' ≤ k

/-- The latest push to a slot is one of the last `N`. -/
theorem isLatest_iff (hN : 0 < N) {n k : ℕ} : IsLatest N n k ↔ k < n ∧ n ≤ k + N := by
  constructor
  · rintro ⟨hlt, hlatest⟩
    refine ⟨hlt, ?_⟩
    by_contra hfar
    have := hlatest (k + N) (by omega) (Nat.add_mod_right k N)
    omega
  · rintro ⟨hlt, hle⟩
    refine ⟨hlt, fun k' hk' hmod => ?_⟩
    by_contra hlater
    -- two numbers of one residue are a multiple of `N` apart
    obtain ⟨c, hc⟩ : N ∣ k' - k := (Nat.modEq_iff_dvd' (by omega)).1 hmod.symm
    have hcpos : 0 < c := by
      rcases Nat.eq_zero_or_pos c with rfl | hpos
      · omega
      · exact hpos
    have : N ≤ N * c := Nat.le_mul_of_pos_right N hcpos
    omega

/-- The ring shows the sequence of everything pushed. -/
structure Holds (N : ℕ) (blank : α) (slot : ℕ → α) (cursor : ℕ) (pushed : List α) : Prop where
  cursor : cursor = pushed.length % N
  latest : ∀ k x, pushed[k]? = some x → pushed.length ≤ k + N → slot (k % N) = x
  blank : ∀ j < N, pushed.length ≤ j → slot j = blank

theorem holds_nil {blank : α} {slot : ℕ → α} (h : ∀ j < N, slot j = blank) :
    Holds N blank slot 0 [] where
  cursor := rfl
  latest := by simp
  blank j hj _ := h j hj

/-- Writing at the cursor and advancing it shows the longer sequence. -/
theorem Holds.push {blank : α} {slot slot' : ℕ → α} {cursor cursor' : ℕ} {pushed : List α} {x : α}
    (hN : 0 < N) (h : Holds N blank slot cursor pushed) (hcursor : cursor' = (cursor + 1) % N)
    (hslot : ∀ j < N, slot' j = if j = cursor then x else slot j) :
    Holds N blank slot' cursor' (pushed ++ [x]) where
  cursor := by rw [hcursor, h.cursor, List.length_append, List.length_singleton, Nat.mod_add_mod]
  latest k y hy hlen := by
    rw [List.length_append, List.length_singleton] at hlen
    rw [hslot _ (Nat.mod_lt _ hN), h.cursor]
    rcases Nat.lt_trichotomy k pushed.length with hk | rfl | hk
    · rw [List.getElem?_append_left hk] at hy
      -- an older push of the same slot would be `N` pushes away
      have hne : k % N ≠ pushed.length % N := by
        intro hmod
        have hlatest := ((isLatest_iff hN).2 ⟨(by omega : k < pushed.length + 1), by omega⟩).2
          pushed.length (by omega) hmod.symm
        omega
      rw [if_neg hne]
      exact h.latest k y hy (by omega)
    · rw [List.getElem?_append_right le_rfl, Nat.sub_self, List.getElem?_cons_zero,
        Option.some_inj] at hy
      rw [if_pos rfl, hy]
    · rw [List.getElem?_eq_none (by rw [List.length_append, List.length_singleton]; omega)] at hy
      cases hy
  blank j hj hlen := by
    rw [List.length_append, List.length_singleton] at hlen
    have hne : j ≠ cursor := by
      rw [h.cursor, Nat.mod_eq_of_lt (by omega)]
      omega
    rw [hslot j hj, if_neg hne]
    exact h.blank j hj (by omega)

/-- A slot shows something pushed, or is blank. -/
theorem Holds.slot_cases {blank : α} {slot : ℕ → α} {cursor : ℕ} {pushed : List α} (hN : 0 < N)
    (h : Holds N blank slot cursor pushed) {j : ℕ} (hj : j < N) :
    (pushed.length ≤ j ∧ slot j = blank) ∨
      ∃ k x, k % N = j ∧ pushed[k]? = some x ∧ pushed.length ≤ k + N ∧ slot j = x := by
  rcases Nat.lt_or_ge j pushed.length with hlt | hge
  · -- the last push that is congruent to `j`
    obtain ⟨k, hk, hle, hmod⟩ : ∃ k < pushed.length, pushed.length ≤ k + N ∧ k % N = j := by
      refine ⟨j + N * ((pushed.length - 1 - j) / N), ?_, ?_, ?_⟩
      · have := Nat.mul_div_le (pushed.length - 1 - j) N
        omega
      · have := Nat.lt_mul_div_succ (pushed.length - 1 - j) hN
        rw [Nat.mul_add, Nat.mul_one] at this
        omega
      · rw [Nat.add_mul_mod_self_left, Nat.mod_eq_of_lt hj]
    refine Or.inr ⟨k, pushed[k], hmod, List.getElem?_eq_getElem hk, hle, ?_⟩
    rw [← hmod]
    exact h.latest k _ (List.getElem?_eq_getElem hk) hle
  · exact Or.inl ⟨hge, h.blank j hj hge⟩

/-- Two rings that show the same sequence show the same in every slot. -/
theorem Holds.slot_eq {blank : α} {slot slot' : ℕ → α} {cursor cursor' : ℕ} {pushed : List α}
    (hN : 0 < N) (h : Holds N blank slot cursor pushed) (h' : Holds N blank slot' cursor' pushed)
    {j : ℕ} (hj : j < N) : slot j = slot' j := by
  rcases h.slot_cases hN hj with ⟨hlen, hslot⟩ | ⟨k, x, hmod, hk, hle, hslot⟩
  · rw [hslot, h'.blank j hj hlen]
  · rw [hslot, ← hmod, h'.latest k x hk hle]

end Ring
