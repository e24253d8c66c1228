import Mathlib

/-!
# Tables with an integer primary key

A table is its list of rows in ascending order of their keys, which is also the order a
database keeps the rows of such a table in.  The order is a field, so that every table
has at most one row for each key.

* `insertOrReplace` — the row with the new row's key makes room for it, with
  `mem_insertOrReplace` for what the table holds afterwards;
* `insertOrReplace_of_lt` — a key beyond all others goes to the end;
* `top_eq_some` — the row an ordered selection of one row gives.
-/

universe u

/-- The rows of a table, each key once and in ascending order. -/
structure Table (ρ : Type u) (key : ρ → ℕ) where
  rows : List ρ
  sorted : rows.Pairwise fun a b => key a < key b

namespace Table

variable {ρ : Type u} {key : ρ → ℕ}

/-- `CREATE TABLE`. -/
def empty : Table ρ key := ⟨[], List.Pairwise.nil⟩

instance : Membership ρ (Table ρ key) := ⟨fun t r => r ∈ t.rows⟩

theorem mem_iff {t : Table ρ key} {r : ρ} : r ∈ t ↔ r ∈ t.rows := Iff.rfl

@[simp] theorem not_mem_empty (r : ρ) : r ∉ (empty : Table ρ key) := List.not_mem_nil

/-- `INSERT OR REPLACE`. -/
def insertOrReplace (t : Table ρ key) (r : ρ) : Table ρ key where
  rows := t.rows.filter (fun a => key a < key r) ++ r :: t.rows.filter (fun a => key r < key a)
  sorted := by
    rw [List.pairwise_append]
    refine ⟨t.sorted.filter _, ?_, ?_⟩
    · rw [List.pairwise_cons]
      exact ⟨fun b hb => by simpa using (List.mem_filter.1 hb).2, t.sorted.filter _⟩
    · intro a ha b hb
      have hlt : key a < key r := by simpa using (List.mem_filter.1 ha).2
      rcases List.mem_cons.1 hb with rfl | hb
      · exact hlt
      · exact hlt.trans (by simpa using (List.mem_filter.1 hb).2)

/-- The new row is there, and the old ones with another key are. -/
@[simp] theorem mem_insertOrReplace {t : Table ρ key} {r a : ρ} :
    a ∈ t.insertOrReplace r ↔ a = r ∨ (a ∈ t ∧ key a ≠ key r) := by
  show a ∈ _ ++ _ :: _ ↔ _
  rw [List.mem_append, List.mem_cons, List.mem_filter, List.mem_filter]
  simp only [decide_eq_true_eq, mem_iff]
  constructor
  · rintro (⟨ha, hlt⟩ | rfl | ⟨ha, hlt⟩)
    · exact Or.inr ⟨ha, hlt.ne⟩
    · exact Or.inl rfl
    · exact Or.inr ⟨ha, hlt.ne'⟩
  · rintro (rfl | ⟨ha, hne⟩)
    · exact Or.inr (Or.inl rfl)
    · rcases Nat.lt_or_gt_of_ne hne with hlt | hlt
      · exact Or.inl ⟨ha, hlt⟩
      · exact Or.inr (Or.inr ⟨ha, hlt⟩)

/-- Two rows with one key are one row. -/
theorem eq_of_key_eq {t : Table ρ key} {a b : ρ} (ha : a ∈ t) (hb : b ∈ t) (h : key a = key b) :
    a = b := by
  by_contra hne
  have : Std.Symm fun a b : ρ => key a ≠ key b := ⟨fun _ _ hab => hab.symm⟩
  have hpair : t.rows.Pairwise fun a b => key a ≠ key b := t.sorted.imp fun hlt => hlt.ne
  exact hpair.forall ha hb hne h

/-- A key beyond all others goes to the end. -/
theorem insertOrReplace_of_lt {t : Table ρ key} {r : ρ} (h : ∀ a ∈ t, key a < key r) :
    (t.insertOrReplace r).rows = t.rows ++ [r] := by
  show t.rows.filter _ ++ r :: t.rows.filter _ = _
  rw [List.filter_eq_self.2 (fun a ha => by simpa using h a ha),
    List.filter_eq_nil_iff.2 (fun a ha => by simpa using (h a ha).le)]

/-- The keys stay as they are where the new row's key was there. -/
theorem keys_insertOrReplace_of_mem {t : Table ρ key} {r : ρ} (h : ∃ a ∈ t, key a = key r) :
    (t.insertOrReplace r).rows.map key = t.rows.map key := by
  have hsorted : ∀ s : Table ρ key, (s.rows.map key).Pairwise (· < ·) := fun s =>
    List.pairwise_map.2 s.sorted
  refine (hsorted _).eq_of_mem_iff (hsorted _) fun k => ?_
  simp only [List.mem_map]
  constructor
  · rintro ⟨a, ha, rfl⟩
    rcases mem_insertOrReplace.1 ha with rfl | ⟨ha, -⟩
    · exact h
    · exact ⟨a, ha, rfl⟩
  · rintro ⟨a, ha, rfl⟩
    by_cases hkey : key a = key r
    · exact ⟨r, mem_insertOrReplace.2 (Or.inl rfl), hkey.symm⟩
    · exact ⟨a, mem_insertOrReplace.2 (Or.inr ⟨ha, hkey⟩), rfl⟩

/-! ## Aggregates -/

/-- `SELECT COUNT(*)`. -/
def count (t : Table ρ key) : ℕ := t.rows.length

/-- `SELECT MAX` of the key: the last row's. -/
def maxKey (t : Table ρ key) : Option ℕ := t.rows.getLast?.map key

/-- `ORDER BY rank DESC, key DESC`: the rows that come first. -/
def precedes (key rank : ρ → ℕ) (a b : ρ) : Bool :=
  rank b < rank a ∨ (rank b = rank a ∧ key b ≤ key a)

@[simp] theorem precedes_iff {rank : ρ → ℕ} {a b : ρ} :
    precedes key rank a b = true ↔ rank b < rank a ∨ (rank b = rank a ∧ key b ≤ key a) := by
  rw [precedes, decide_eq_true_eq]

/-- `SELECT … ORDER BY rank DESC, key DESC LIMIT 1`. -/
def top (t : Table ρ key) (rank : ρ → ℕ) : Option ρ :=
  (t.rows.mergeSort (precedes key rank)).head?

/-- The row it selects: no other has a higher rank, or its rank and a greater key. -/
theorem top_eq_some {t : Table ρ key} {rank : ρ → ℕ} {r : ρ} (hr : r ∈ t)
    (h : ∀ a ∈ t, precedes key rank r a) : t.top rank = some r := by
  have hsorted : (t.rows.mergeSort (precedes key rank)).Pairwise fun a b => precedes key rank a b := by
    refine List.pairwise_mergeSort (fun a b c hab hbc => ?_) (fun a b => ?_) t.rows
    · simp only [precedes_iff] at *
      omega
    · simp only [Bool.or_eq_true, precedes_iff]
      omega
  have hmem : ∀ b, b ∈ t.rows.mergeSort (precedes key rank) ↔ b ∈ t :=
    fun b => List.mem_mergeSort
  unfold top
  cases hsort : t.rows.mergeSort (precedes key rank) with
  | nil =>
    rw [hsort] at hmem
    exact absurd ((hmem r).2 hr) List.not_mem_nil
  | cons a rest =>
    rw [hsort] at hmem hsorted
    have ha : a ∈ t := (hmem a).1 List.mem_cons_self
    -- each precedes the other, so they share their key
    have hkey : key a = key r := by
      rcases List.mem_cons.1 ((hmem r).2 hr) with rfl | hrest
      · rfl
      · have hle := (List.pairwise_cons.1 hsorted).1 r hrest
        have hge := h a ha
        rw [precedes_iff] at hle hge
        omega
    rw [List.head?_cons, eq_of_key_eq ha hr hkey]

/-- `SELECT` by key. -/
def find (t : Table ρ key) (k : ℕ) : Option ρ := t.rows.find? fun r => key r = k

theorem find_eq_some_iff {t : Table ρ key} {k : ℕ} {r : ρ} :
    t.find k = some r ↔ r ∈ t ∧ key r = k := by
  unfold find
  constructor
  · intro h
    exact ⟨List.mem_of_find?_eq_some h, by simpa using List.find?_some h⟩
  · rintro ⟨hmem, hkey⟩
    cases hfind : t.rows.find? fun r => key r = k with
    | none => simpa [hkey] using List.find?_eq_none.1 hfind r hmem
    | some a =>
      have ha : key a = k := by simpa using List.find?_some hfind
      rw [eq_of_key_eq (List.mem_of_find?_eq_some hfind) hmem (ha.trans hkey.symm)]

theorem find_eq_none_iff {t : Table ρ key} {k : ℕ} : t.find k = none ↔ ∀ r ∈ t, key r ≠ k := by
  unfold find
  rw [List.find?_eq_none]
  simp only [decide_eq_true_eq, mem_iff]

theorem find_insertOrReplace (t : Table ρ key) (r : ρ) (k : ℕ) :
    (t.insertOrReplace r).find k = if k = key r then some r else t.find k := by
  split
  · rename_i hk
    exact find_eq_some_iff.2 ⟨mem_insertOrReplace.2 (Or.inl rfl), hk.symm⟩
  · rename_i hk
    refine Option.ext fun a => ?_
    rw [find_eq_some_iff, find_eq_some_iff, mem_insertOrReplace]
    constructor
    · rintro ⟨rfl | ⟨ha, -⟩, rfl⟩
      · exact absurd rfl hk
      · exact ⟨ha, rfl⟩
    · rintro ⟨ha, rfl⟩
      exact ⟨Or.inr ⟨ha, hk⟩, rfl⟩

end Table
