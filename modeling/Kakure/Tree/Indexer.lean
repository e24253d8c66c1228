import Kakure.Curve.Primes
import Kakure.Lib.LeanTree

/-!
# The indexer's tree mirror

`LeanIMT` of `packages/indexer/src/tree/leanImt.ts`.  Bigints are natural numbers
here, an array is the map of its assigned indices, and reading an unassigned index
with `?? 0n` gives zero.

* `insert_of_holds` — a mirror of some leaves accepts every further nonzero leaf
  while there is room, returns the root of the extended list and mirrors it;
* `getPath_of_holds` — the path it serves is the tree's own sibling path.
-/

namespace Kakure.Indexer

open LeanTree

variable (poseidon : Fr → Fr → Fr → Fr)

/-- The state of the mirror. -/
structure LeanIMT where
  depth : ℕ
  /-- `levels level index`, `none` where nothing was assigned. -/
  levels : ℕ → ℕ → Option ℕ
  nextIndex : ℕ
  root : ℕ

/-- `constructor`. -/
def LeanIMT.new (depth : ℕ) : Except String LeanIMT :=
  if depth < 1 ∨ depth > 32 then .error "depth must be between 1 and 32"
  else .ok { depth, levels := fun _ _ => none, nextIndex := 0, root := 0 }

/-- `hash3` of `poseidonV1.ts`, on bigints. -/
def hash3 (left right level : ℕ) : ℕ := (poseidon left right level).val

/-- `this.levels[level]![index] = node`. -/
def assign (levels : ℕ → ℕ → Option ℕ) (level index node : ℕ) : ℕ → ℕ → Option ℕ :=
  Function.update levels level (Function.update (levels level) index (some node))

/-- The index of the neighbour under the same parent. -/
def siblingIndex (indexAtLevel : ℕ) : ℕ :=
  if indexAtLevel % 2 = 0 then indexAtLevel + 1 else indexAtLevel - 1

/-- The loop of `insert` from `level` up. -/
def insertLevels : ℕ → ℕ → (ℕ → ℕ → Option ℕ) → ℕ → ℕ → (ℕ → ℕ → Option ℕ) × ℕ
  | 0, _, levels, node, _ => (levels, node)
  | fuel + 1, level, levels, node, indexAtLevel =>
    let sibling := (levels level (siblingIndex indexAtLevel)).getD 0
    let left := if indexAtLevel % 2 = 0 then node else sibling
    let right := if indexAtLevel % 2 = 0 then sibling else node
    let parent :=
      if left = 0 ∧ right = 0 then 0
      else if right = 0 then left
      else if left = 0 then right
      else hash3 poseidon left right level
    let parentIndex := indexAtLevel / 2
    insertLevels fuel (level + 1) (assign levels (level + 1) parentIndex parent) parent parentIndex

/-- `insert`: the new mirror and the root it returns. -/
def LeanIMT.insert (t : LeanIMT) (leaf : ℕ) : Except String (LeanIMT × ℕ) :=
  if leaf = 0 then .error "leaf must be non-zero"
  else if t.nextIndex ≥ 2 ^ t.depth then .error "tree is full"
  else
    let r := insertLevels poseidon t.depth 0 (assign t.levels 0 t.nextIndex leaf) leaf t.nextIndex
    .ok ({ t with levels := r.1, nextIndex := t.nextIndex + 1, root := r.2 }, r.2)

/-- One `insert` after the other. -/
def LeanIMT.insertAll (t : LeanIMT) (leaves : List ℕ) : Except String LeanIMT :=
  leaves.foldlM (fun t leaf => (t.insert poseidon leaf).map Prod.fst) t

/-- The loop of `getPath` from `level` up. -/
def pathLevels (levels : ℕ → ℕ → Option ℕ) : ℕ → ℕ → ℕ → List ℕ
  | 0, _, _ => []
  | fuel + 1, level, indexAtLevel =>
    (levels level (siblingIndex indexAtLevel)).getD 0 ::
      pathLevels levels fuel (level + 1) (indexAtLevel / 2)

/-- `getPath`. -/
def LeanIMT.getPath (t : LeanIMT) (leafIndex : ℕ) : Except String (List ℕ) :=
  if leafIndex ≥ t.nextIndex then .error "leaf index out of bounds"
  else .ok (pathLevels t.levels t.depth 0 leafIndex)

/-! ## What the mirror holds -/

/-- The mirror holds every level of the tree over these leaves. -/
structure LeanIMT.Holds (t : LeanIMT) (leaves : List ℕ) : Prop where
  nextIndex : t.nextIndex = leaves.length
  levels : ∀ level ≤ t.depth, ∀ j,
    t.levels level j = (levelList (hash3 poseidon) 0 leaves level)[j]?
  root : t.root = LeanTree.root (hash3 poseidon) 0 leaves

theorem holds_new (depth : ℕ) {t : LeanIMT} (h : LeanIMT.new depth = .ok t) :
    t.Holds poseidon [] ∧ t.depth = depth := by
  unfold LeanIMT.new at h
  split at h
  · cases h
  · cases h
    refine ⟨⟨rfl, fun level _ j => ?_, (root_nil _ _).symm⟩, rfl⟩
    rw [levelList_nil]
    rfl

/-- A hash that is zero nowhere is zero at no node. -/
theorem growsNonzero_hash3 (hpos : ∀ l r k, poseidon l r k ≠ 0) (leaves : List ℕ) :
    GrowsNonzero (hash3 poseidon) 0 leaves := by
  refine growsNonzero_of_ne_zero (fun l r k => ?_) leaves
  unfold hash3
  rw [ne_eq, ZMod.val_eq_zero]
  exact hpos _ _ _

/-- Assigning the last leaf's node turns a level of the old tree into the new one's. -/
theorem assign_levelList {levels : ℕ → ℕ → Option ℕ} {leaves : List ℕ} (leaf : ℕ) {level : ℕ}
    (h : ∀ j, levels level j = (levelList (hash3 poseidon) 0 leaves level)[j]?) (j : ℕ) :
    assign levels level (leaves.length / 2 ^ level)
        (node (hash3 poseidon) 0 (leaves ++ [leaf]) level (leaves.length / 2 ^ level)) level j =
      (levelList (hash3 poseidon) 0 (leaves ++ [leaf]) level)[j]? := by
  unfold assign
  rw [Function.update_self]
  by_cases hj : j = leaves.length / 2 ^ level
  · subst hj
    rw [Function.update_self, getElem?_levelList_last]
  · rw [Function.update_of_ne hj, h, getElem?_levelList_of_ne _ _ _ _ hj]

/-- The walk from `level` up, with the levels up to it already extended. -/
theorem insertLevels_spec {depth : ℕ} {leaves : List ℕ} {leaf : ℕ}
    (hpos : HashesNonzero (hash3 poseidon) 0 (leaves ++ [leaf]))
    (hL : ∀ y ∈ leaves ++ [leaf], y ≠ 0) :
    ∀ (fuel level : ℕ) (levels : ℕ → ℕ → Option ℕ), fuel + level = depth →
      (∀ m ≤ level, ∀ j, levels m j = (levelList (hash3 poseidon) 0 (leaves ++ [leaf]) m)[j]?) →
      (∀ m, level < m → m ≤ depth → ∀ j,
        levels m j = (levelList (hash3 poseidon) 0 leaves m)[j]?) →
      ∃ levels', insertLevels poseidon fuel level levels
          (node (hash3 poseidon) 0 (leaves ++ [leaf]) level (leaves.length / 2 ^ level))
          (leaves.length / 2 ^ level) =
          (levels', node (hash3 poseidon) 0 (leaves ++ [leaf]) depth (leaves.length / 2 ^ depth)) ∧
        ∀ m ≤ depth, ∀ j,
          levels' m j = (levelList (hash3 poseidon) 0 (leaves ++ [leaf]) m)[j]? := by
  intro fuel
  induction fuel with
  | zero =>
    intro level levels hd hlow _
    obtain rfl : level = depth := by omega
    exact ⟨levels, rfl, hlow⟩
  | succ fuel ih =>
    intro level levels hd hlow hhigh
    have hparent := parent_last (hash3 poseidon) 0 hL hpos level rfl
    unfold insertLevels siblingIndex
    -- the value the four-way test computes is the node one level up
    have hnode : ∀ q, q = leaves.length / 2 ^ level →
        LeanTree.parent (hash3 poseidon) 0
          (if q % 2 = 0 then node (hash3 poseidon) 0 (leaves ++ [leaf]) level q
            else (levels level (if q % 2 = 0 then q + 1 else q - 1)).getD 0)
          (if q % 2 = 0 then (levels level (if q % 2 = 0 then q + 1 else q - 1)).getD 0
            else node (hash3 poseidon) 0 (leaves ++ [leaf]) level q) level =
        node (hash3 poseidon) 0 (leaves ++ [leaf]) (level + 1)
          (leaves.length / 2 ^ (level + 1)) := by
      intro q hq
      subst hq
      rw [div_two_pow_succ, ← hparent]
      split
      · rw [hlow level le_rfl]
      · rw [hlow level le_rfl]
    have hnode' := hnode _ rfl
    unfold LeanTree.parent at hnode'
    simp only [hnode', ← div_two_pow_succ]
    refine ih (level + 1) _ (by omega) (fun m hm j => ?_) (fun m hm hmd j => ?_)
    · by_cases hml : m = level + 1
      · subst hml
        exact assign_levelList poseidon leaf (hhigh (level + 1) (by omega) (by omega)) j
      · rw [assign, Function.update_of_ne hml]
        exact hlow m (by omega) j
    · rw [assign, Function.update_of_ne (by omega)]
      exact hhigh m (by omega) hmd j

/-- A mirror of some leaves accepts every further nonzero leaf while there is room. -/
theorem insert_of_holds {t : LeanIMT} {leaves : List ℕ} {leaf : ℕ}
    (hpos : HashesNonzero (hash3 poseidon) 0 (leaves ++ [leaf])) (h : t.Holds poseidon leaves)
    (hL : ∀ y ∈ leaves ++ [leaf], y ≠ 0)
    (hlt : leaves.length < 2 ^ t.depth) :
    ∃ t', t.insert poseidon leaf =
        .ok (t', LeanTree.root (hash3 poseidon) 0 (leaves ++ [leaf])) ∧
      t'.Holds poseidon (leaves ++ [leaf]) ∧ t'.depth = t.depth := by
  have hzero : node (hash3 poseidon) 0 (leaves ++ [leaf]) 0 (leaves.length / 2 ^ 0) = leaf := by
    simp [node]
  have hbottom := assign_levelList poseidon leaf (h.levels 0 (Nat.zero_le _))
  rw [hzero, pow_zero, Nat.div_one] at hbottom
  obtain ⟨levels', hrun, hlevels'⟩ := insertLevels_spec poseidon hpos hL t.depth 0
    (assign t.levels 0 leaves.length leaf) (Nat.add_zero _)
    (fun m hm j => by
      obtain rfl : m = 0 := by omega
      exact hbottom j)
    (fun m hm hmd j => by
      rw [assign, Function.update_of_ne (by omega)]
      exact h.levels m hmd j)
  have hlen : (leaves ++ [leaf]).length = leaves.length + 1 := by simp
  rw [hzero, pow_zero, Nat.div_one, Nat.div_eq_of_lt hlt,
    node_top _ _ (by rw [hlen]; omega)] at hrun
  refine ⟨{ t with levels := levels', nextIndex := leaves.length + 1,
                   root := LeanTree.root (hash3 poseidon) 0 (leaves ++ [leaf]) }, ?_, ?_, rfl⟩
  · unfold LeanIMT.insert
    rw [if_neg (hL leaf (by simp)), h.nextIndex, if_neg (not_le.2 hlt), hrun]
  · exact ⟨hlen.symm, hlevels', rfl⟩

/-! ## Runs of inserts -/

/-- An accepted insert found room in the tree. -/
theorem room_of_insert {t t' : LeanIMT} {leaves : List ℕ} {leaf root : ℕ}
    (h : t.Holds poseidon leaves) (hok : t.insert poseidon leaf = .ok (t', root)) :
    leaf ≠ 0 ∧ leaves.length < 2 ^ t.depth := by
  unfold LeanIMT.insert at hok
  split at hok
  · cases hok
  · rename_i hleaf
    split at hok
    · cases hok
    · rename_i hroom
      rw [h.nextIndex] at hroom
      exact ⟨hleaf, not_le.1 hroom⟩

theorem insertAll_cons (t : LeanIMT) (x : ℕ) (xs : List ℕ) :
    t.insertAll poseidon (x :: xs) =
      ((t.insert poseidon x).map Prod.fst).bind fun t => t.insertAll poseidon xs := rfl

/-- A mirror accepts every sequence of nonzero leaves that fits. -/
theorem insertAll_of_holds {t : LeanIMT} {leaves : List ℕ} (h : t.Holds poseidon leaves)
    (xs : List ℕ) (hpos : GrowsNonzero (hash3 poseidon) 0 (leaves ++ xs))
    (hL : ∀ y ∈ leaves ++ xs, y ≠ 0) (hlt : (leaves ++ xs).length ≤ 2 ^ t.depth) :
    ∃ t', t.insertAll poseidon xs = .ok t' ∧ t'.Holds poseidon (leaves ++ xs) ∧
      t'.depth = t.depth := by
  induction xs generalizing t leaves with
  | nil => exact ⟨t, rfl, by rwa [List.append_nil], rfl⟩
  | cons x xs ih =>
    rw [List.append_cons] at hL hlt hpos ⊢
    rw [List.length_append, List.length_append, List.length_singleton] at hlt
    obtain ⟨t₁, hinsert, hholds, hdepth₁⟩ := insert_of_holds poseidon
      (hpos _ (List.prefix_append _ _)) h (fun y hy => hL y (List.mem_append_left _ hy)) (by omega)
    obtain ⟨t₂, hrest, hholds₂, hdepth₂⟩ := ih hholds hpos hL
      (by rw [hdepth₁, List.length_append, List.length_append, List.length_singleton]; omega)
    refine ⟨t₂, ?_, hholds₂, hdepth₂.trans hdepth₁⟩
    rw [insertAll_cons, hinsert]
    exact hrest

/-- A mirror that accepted a sequence of leaves holds it. -/
theorem holds_of_insertAll {t t' : LeanIMT} {leaves : List ℕ} (h : t.Holds poseidon leaves)
    (hL : ∀ y ∈ leaves, y ≠ 0) {xs : List ℕ} (hpos : GrowsNonzero (hash3 poseidon) 0 (leaves ++ xs))
    (hok : t.insertAll poseidon xs = .ok t') :
    t'.Holds poseidon (leaves ++ xs) ∧ t'.depth = t.depth := by
  induction xs generalizing t leaves with
  | nil =>
    cases hok
    rw [List.append_nil]
    exact ⟨h, rfl⟩
  | cons x xs ih =>
    rw [insertAll_cons] at hok
    cases hinsert : t.insert poseidon x with
    | error e =>
      rw [hinsert] at hok
      cases hok
    | ok out =>
      obtain ⟨t₁, root⟩ := out
      rw [hinsert] at hok
      obtain ⟨hx, hlt⟩ := room_of_insert poseidon h hinsert
      have hL' : ∀ y ∈ leaves ++ [x], y ≠ 0 := by
        intro y hy
        rcases List.mem_append.1 hy with hy | hy
        · exact hL y hy
        · rwa [List.mem_singleton.1 hy]
      rw [List.append_cons] at hpos ⊢
      obtain ⟨t₁', hinsert', hholds, hdepth₁⟩ := insert_of_holds poseidon
        (hpos _ (List.prefix_append _ _)) h hL' hlt
      rw [hinsert] at hinsert'
      cases hinsert'
      have hrest := ih hholds hL' hpos hok
      rwa [hdepth₁] at hrest

/-! ## Paths -/

/-- The loop of `getPath` reads the tree's own siblings. -/
theorem pathLevels_eq {levels : ℕ → ℕ → Option ℕ} {leaves : List ℕ} {depth : ℕ}
    (h : ∀ level ≤ depth, ∀ j, levels level j = (levelList (hash3 poseidon) 0 leaves level)[j]?)
    (i fuel level : ℕ) (hd : fuel + level = depth) :
    pathLevels levels fuel level (i / 2 ^ level) =
      (List.range' level fuel).map (path (hash3 poseidon) 0 leaves i) := by
  induction fuel generalizing level with
  | zero => rfl
  | succ fuel ih =>
    rw [pathLevels, ← div_two_pow_succ, ih (level + 1) (by omega), List.range'_succ, List.map_cons,
      path_eq_getElem?, h level (by omega), siblingIndex]

/-- The path served for an inserted leaf is the tree's own. -/
theorem getPath_of_holds {t : LeanIMT} {leaves : List ℕ} (h : t.Holds poseidon leaves) {i : ℕ}
    (hi : i < leaves.length) :
    t.getPath i = .ok ((List.range t.depth).map (path (hash3 poseidon) 0 leaves i)) := by
  have hloop := pathLevels_eq poseidon h.levels i t.depth 0 (Nat.add_zero _)
  rw [pow_zero, Nat.div_one, ← List.range_eq_range'] at hloop
  unfold LeanIMT.getPath
  rw [h.nextIndex, if_neg (not_le.2 hi), hloop]

end Kakure.Indexer
