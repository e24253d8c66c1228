import Kakure.Curve.Primes
import Kakure.Lib.LeanTree

/-!
# The SDK's tree mirror

`LeanIMT` of `packages/sdk/src/merkle/LeanIMT.ts` and `foldPath` of
`packages/sdk/src/tx/witnessSources.ts`.  The levels are JavaScript arrays that
grow by `push`, so the model keeps the array length limit.

* `insert_of_holds` — a mirror of fewer than `2 ^ 32 - 1` leaves accepts every
  further nonzero leaf, returns the root of the extended list and mirrors it;
* `insert_of_full_array` — the leaf array holds no more leaves than that: the next
  `push` throws;
* `getMerklePath_of_holds`, `foldPath_eq` — the path is the tree's own, and the
  fold is the tree's fold.
-/

namespace Kakure.Sdk

open LeanTree

variable (poseidon : Fr → Fr → Fr → Fr)

/-- The largest length of a JavaScript array. -/
def maxArrayLength : ℕ := 2 ^ 32 - 1

/-- `Array.prototype.push`. -/
def push (l : List Fr) (x : Fr) : Except String (List Fr) :=
  if l.length < maxArrayLength then .ok (l ++ [x]) else .error "Invalid array length"

/-- The state of the mirror. -/
structure LeanIMT where
  depth : ℕ
  levels : ℕ → List Fr
  nextLeafIndex : ℕ
  currentRoot : Fr

/-- `constructor`. -/
def LeanIMT.new (depth : ℕ) : Except String LeanIMT :=
  if depth < 1 ∨ depth > 32 then .error "Invalid depth"
  else .ok { depth, levels := fun _ => [], nextLeafIndex := 0, currentRoot := 0 }

/-- The index of the neighbour under the same parent. -/
def siblingIndex (currentIndex : ℕ) : ℕ :=
  if currentIndex % 2 = 0 then currentIndex + 1 else currentIndex - 1

/-- Store a parent: a new one is pushed, an existing one overwritten, and the root is not kept in
the levels. -/
def storeParent (depth : ℕ) (levels : ℕ → List Fr) (level parentIndex : ℕ) (node : Fr) :
    Except String (ℕ → List Fr) :=
  if level < depth - 1 then
    if parentIndex ≥ (levels (level + 1)).length then
      (push (levels (level + 1)) node).map (Function.update levels (level + 1))
    else .ok (Function.update levels (level + 1) ((levels (level + 1)).set parentIndex node))
  else .ok levels

/-- The loop of `insert` from `level` up. -/
def insertLevels (depth : ℕ) : ℕ → ℕ → (ℕ → List Fr) → Fr → ℕ → Except String ((ℕ → List Fr) × Fr)
  | 0, _, levels, node, _ => .ok (levels, node)
  | fuel + 1, level, levels, currentComputedNode, currentIndexInLevel => do
    let siblingNode := ((levels level)[siblingIndex currentIndexInLevel]?).getD 0
    let left := if currentIndexInLevel % 2 = 0 then currentComputedNode else siblingNode
    let right := if currentIndexInLevel % 2 = 0 then siblingNode else currentComputedNode
    let node :=
      if left = 0 ∧ right = 0 then 0
      else if right = 0 then left
      else if left = 0 then right
      else poseidon left right level
    let parentIndex := currentIndexInLevel / 2
    let levels' ← storeParent depth levels level parentIndex node
    insertLevels depth fuel (level + 1) levels' node parentIndex

/-- `insert`: the new mirror and the root it returns. -/
def LeanIMT.insert (t : LeanIMT) (leaf : Fr) : Except String (LeanIMT × Fr) :=
  if leaf = 0 then .error "leaf must be non-zero"
  else if t.nextLeafIndex ≥ 2 ^ t.depth then .error "Tree is full"
  else do
    let leaves ← push (t.levels 0) leaf
    let (levels, root) ← insertLevels poseidon t.depth t.depth 0
      (Function.update t.levels 0 leaves) leaf t.nextLeafIndex
    .ok ({ t with levels, nextLeafIndex := t.nextLeafIndex + 1, currentRoot := root }, root)

/-- One `insert` after the other. -/
def LeanIMT.insertAll (t : LeanIMT) (leaves : List Fr) : Except String LeanIMT :=
  leaves.foldlM (fun t leaf => (t.insert poseidon leaf).map Prod.fst) t

/-- The loop of `getMerklePath` from `level` up. -/
def pathLevels (levels : ℕ → List Fr) : ℕ → ℕ → ℕ → List Fr
  | 0, _, _ => []
  | fuel + 1, level, currentIndex =>
    ((levels level)[siblingIndex currentIndex]?).getD 0 ::
      pathLevels levels fuel (level + 1) (currentIndex / 2)

/-- `getMerklePath`. -/
def LeanIMT.getMerklePath (t : LeanIMT) (index : ℕ) : Except String (List Fr) :=
  if index ≥ t.nextLeafIndex then .error "Index out of bounds"
  else .ok (pathLevels t.levels t.depth 0 index)

/-- The loop of `foldPath` from level `i` up. -/
def foldPathFrom (leafIndex : ℕ) : ℕ → List Fr → Fr → Except String Fr
  | _, [], current => .ok current
  | i, sibling :: siblings, current =>
    let bit := leafIndex / 2 ^ i % 2
    if sibling ≠ 0 then
      let left := if bit = 1 then sibling else current
      let right := if bit = 1 then current else sibling
      foldPathFrom leafIndex (i + 1) siblings (poseidon left right i)
    else if bit = 1 then
      .error ("non-canonical leaf index: right child at empty level " ++ toString i)
    else foldPathFrom leafIndex (i + 1) siblings current

/-- `foldPath`. -/
def foldPath (leaf : Fr) (leafIndex : ℕ) (siblings : List Fr) : Except String Fr :=
  foldPathFrom poseidon leafIndex 0 siblings leaf

/-! ## What the mirror holds -/

/-- The mirror holds every level of the tree over these leaves, below the root. -/
structure LeanIMT.Holds (t : LeanIMT) (leaves : List Fr) : Prop where
  nextLeafIndex : t.nextLeafIndex = leaves.length
  levels : ∀ level < t.depth, t.levels level = levelList (nodeHash poseidon) 0 leaves level
  currentRoot : t.currentRoot = LeanTree.root (nodeHash poseidon) 0 leaves

theorem holds_new (depth : ℕ) {t : LeanIMT} (h : LeanIMT.new depth = .ok t) :
    t.Holds poseidon [] ∧ t.depth = depth ∧ 0 < depth := by
  unfold LeanIMT.new at h
  split at h
  · cases h
  · rename_i hdepth
    cases h
    refine ⟨⟨rfl, fun level _ => ?_, (root_nil _ _).symm⟩, rfl, by omega⟩
    rw [levelList_nil]

/-- Storing the last leaf's node turns a level of the old tree into the new one's. -/
theorem storeParent_spec {depth : ℕ} {levels : ℕ → List Fr} {leaves : List Fr} (leaf : Fr) {level : ℕ}
    (hlt : leaves.length < maxArrayLength)
    (h : level + 1 < depth → levels (level + 1) = levelList (nodeHash poseidon) 0 leaves (level + 1)) :
    ∃ levels', storeParent depth levels level (leaves.length / 2 ^ (level + 1))
        (node (nodeHash poseidon) 0 (leaves ++ [leaf]) (level + 1)
          (leaves.length / 2 ^ (level + 1))) = .ok levels' ∧
      (∀ m, m ≠ level + 1 → levels' m = levels m) ∧
      (level + 1 < depth →
        levels' (level + 1) = levelList (nodeHash poseidon) 0 (leaves ++ [leaf]) (level + 1)) := by
  unfold storeParent
  by_cases hdepth : level + 1 < depth
  · rw [if_pos (by omega), h hdepth]
    have happend := levelList_append (nodeHash poseidon) 0 leaves leaf (level + 1)
    split
    · rename_i hnew
      have hle := Nat.div_le_self leaves.length (2 ^ (level + 1))
      rw [if_pos hnew] at happend
      refine ⟨_, by rw [push, if_pos (by omega)]; rfl, fun m hm => Function.update_of_ne hm _ _,
        fun _ => ?_⟩
      rw [Function.update_self, happend]
    · rename_i hold
      rw [if_neg hold] at happend
      refine ⟨_, rfl, fun m hm => Function.update_of_ne hm _ _, fun _ => ?_⟩
      rw [Function.update_self, happend]
  · exact ⟨levels, if_neg (by omega), fun _ _ => rfl, fun hd => absurd hd hdepth⟩

/-- The walk from `level` up, with the levels up to it already extended. -/
theorem insertLevels_spec {depth : ℕ} {leaves : List Fr} {leaf : Fr}
    (hpos : HashesNonzero (nodeHash poseidon) 0 (leaves ++ [leaf]))
    (hL : ∀ y ∈ leaves ++ [leaf], y ≠ 0) (hlt : leaves.length < maxArrayLength) :
    ∀ (fuel level : ℕ) (levels : ℕ → List Fr), fuel + level = depth →
      (∀ m ≤ level, m < depth → levels m = levelList (nodeHash poseidon) 0 (leaves ++ [leaf]) m) →
      (∀ m, level < m → m < depth → levels m = levelList (nodeHash poseidon) 0 leaves m) →
      ∃ levels', insertLevels poseidon depth fuel level levels
          (node (nodeHash poseidon) 0 (leaves ++ [leaf]) level (leaves.length / 2 ^ level))
          (leaves.length / 2 ^ level) =
          .ok (levels', node (nodeHash poseidon) 0 (leaves ++ [leaf]) depth (leaves.length / 2 ^ depth)) ∧
        ∀ m < depth, levels' m = levelList (nodeHash poseidon) 0 (leaves ++ [leaf]) m := by
  intro fuel
  induction fuel with
  | zero =>
    intro level levels hd hlow _
    obtain rfl : level = depth := by omega
    exact ⟨levels, rfl, fun m hm => hlow m hm.le hm⟩
  | succ fuel ih =>
    intro level levels hd hlow hhigh
    have hparent := parent_last (nodeHash poseidon) 0 hL hpos level rfl
    unfold insertLevels siblingIndex
    rw [hlow level le_rfl (by omega)]
    -- the value the four-way test computes is the node one level up
    have hnode : ∀ q, q = leaves.length / 2 ^ level →
        LeanTree.parent (nodeHash poseidon) 0
          (if q % 2 = 0 then node (nodeHash poseidon) 0 (leaves ++ [leaf]) level q
            else ((levelList (nodeHash poseidon) 0 (leaves ++ [leaf]) level)[
              if q % 2 = 0 then q + 1 else q - 1]?).getD 0)
          (if q % 2 = 0 then ((levelList (nodeHash poseidon) 0 (leaves ++ [leaf]) level)[
              if q % 2 = 0 then q + 1 else q - 1]?).getD 0
            else node (nodeHash poseidon) 0 (leaves ++ [leaf]) level q) level =
        node (nodeHash poseidon) 0 (leaves ++ [leaf]) (level + 1)
          (leaves.length / 2 ^ (level + 1)) := by
      intro q hq
      subst hq
      rw [div_two_pow_succ, ← hparent]
      split <;> rfl
    have hnode' := hnode _ rfl
    unfold LeanTree.parent nodeHash at hnode'
    unfold nodeHash
    simp only [hnode', ← div_two_pow_succ]
    obtain ⟨levels₁, hstore, hframe, hset⟩ := storeParent_spec poseidon leaf hlt
      (hhigh (level + 1) (by omega))
    unfold nodeHash at hstore
    rw [hstore]
    refine ih (level + 1) levels₁ (by omega) (fun m hm hmd => ?_) (fun m hm hmd => ?_)
    · by_cases hml : m = level + 1
      · subst hml
        exact hset hmd
      · rw [hframe m hml]
        exact hlow m (by omega) hmd
    · rw [hframe m (by omega)]
      exact hhigh m (by omega) hmd

/-- A mirror of some leaves accepts every further nonzero leaf while the tree and the leaf array
have room. -/
theorem insert_of_holds {t : LeanIMT} {leaves : List Fr} {leaf : Fr}
    (hpos : HashesNonzero (nodeHash poseidon) 0 (leaves ++ [leaf])) (h : t.Holds poseidon leaves)
    (hdepth : 0 < t.depth) (hL : ∀ y ∈ leaves ++ [leaf], y ≠ 0) (hlt : leaves.length < 2 ^ t.depth)
    (harr : leaves.length < maxArrayLength) :
    ∃ t', t.insert poseidon leaf =
        .ok (t', LeanTree.root (nodeHash poseidon) 0 (leaves ++ [leaf])) ∧
      t'.Holds poseidon (leaves ++ [leaf]) ∧ t'.depth = t.depth := by
  have hlen : (leaves ++ [leaf]).length = leaves.length + 1 := by simp
  have hzero : node (nodeHash poseidon) 0 (leaves ++ [leaf]) 0 (leaves.length / 2 ^ 0) = leaf := by
    simp [node]
  obtain ⟨levels', hrun, hlevels'⟩ := insertLevels_spec poseidon hpos hL harr t.depth 0
    (Function.update t.levels 0 (leaves ++ [leaf])) (Nat.add_zero _)
    (fun m hm _ => by
      obtain rfl : m = 0 := by omega
      rw [Function.update_self, levelList_zero])
    (fun m hm hmd => by
      rw [Function.update_of_ne (by omega)]
      exact h.levels m hmd)
  rw [hzero, pow_zero, Nat.div_one, Nat.div_eq_of_lt hlt,
    node_top _ _ (by rw [hlen]; omega)] at hrun
  refine ⟨{ t with levels := levels', nextLeafIndex := leaves.length + 1,
                   currentRoot := LeanTree.root (nodeHash poseidon) 0 (leaves ++ [leaf]) }, ?_, ?_, rfl⟩
  · unfold LeanIMT.insert push
    rw [if_neg (hL leaf (by simp)), h.nextLeafIndex, if_neg (not_le.2 hlt), h.levels 0 hdepth,
      levelList_zero, if_pos harr]
    show (insertLevels poseidon _ _ _ _ _ _ >>= _) = _
    rw [hrun]
    rfl
  · exact ⟨hlen.symm, hlevels', rfl⟩

/-- The leaf array is full one leaf before the tree of depth 32 is: the `push` throws. -/
theorem insert_of_full_array {t : LeanIMT} {leaves : List Fr} {leaf : Fr}
    (h : t.Holds poseidon leaves) (hdepth : 0 < t.depth) (hleaf : leaf ≠ 0)
    (hlt : leaves.length < 2 ^ t.depth) (harr : maxArrayLength ≤ leaves.length) :
    t.insert poseidon leaf = .error "Invalid array length" := by
  unfold LeanIMT.insert push
  rw [if_neg hleaf, h.nextLeafIndex, if_neg (not_le.2 hlt), h.levels 0 hdepth, levelList_zero,
    if_neg (not_lt.2 harr)]
  rfl

/-! ## Runs of inserts -/

/-- An accepted insert found room in the tree and in the leaf array. -/
theorem room_of_insert {t t' : LeanIMT} {leaves : List Fr} {leaf root : Fr}
    (h : t.Holds poseidon leaves) (hdepth : 0 < t.depth)
    (hok : t.insert poseidon leaf = .ok (t', root)) :
    leaf ≠ 0 ∧ leaves.length < 2 ^ t.depth ∧ leaves.length < maxArrayLength := by
  have hleaf : leaf ≠ 0 := by
    intro h0
    unfold LeanIMT.insert at hok
    rw [if_pos h0] at hok
    cases hok
  have hlt : leaves.length < 2 ^ t.depth := by
    by_contra hfull
    unfold LeanIMT.insert at hok
    rw [if_neg hleaf, h.nextLeafIndex, if_pos (not_lt.1 hfull)] at hok
    cases hok
  refine ⟨hleaf, hlt, ?_⟩
  by_contra harr
  rw [insert_of_full_array poseidon h hdepth hleaf hlt (not_lt.1 harr)] at hok
  cases hok

theorem insertAll_cons (t : LeanIMT) (x : Fr) (xs : List Fr) :
    t.insertAll poseidon (x :: xs) =
      ((t.insert poseidon x).map Prod.fst).bind fun t => t.insertAll poseidon xs := rfl

/-- A mirror accepts every sequence of nonzero leaves that fits. -/
theorem insertAll_of_holds {t : LeanIMT} {leaves : List Fr} (h : t.Holds poseidon leaves)
    (hdepth : 0 < t.depth) (xs : List Fr) (hpos : GrowsNonzero (nodeHash poseidon) 0 (leaves ++ xs))
    (hL : ∀ y ∈ leaves ++ xs, y ≠ 0) (hlt : (leaves ++ xs).length ≤ 2 ^ t.depth)
    (harr : (leaves ++ xs).length ≤ maxArrayLength) :
    ∃ t', t.insertAll poseidon xs = .ok t' ∧ t'.Holds poseidon (leaves ++ xs) ∧
      t'.depth = t.depth := by
  induction xs generalizing t leaves with
  | nil => exact ⟨t, rfl, by rwa [List.append_nil], rfl⟩
  | cons x xs ih =>
    rw [List.append_cons] at hL hlt harr hpos ⊢
    rw [List.length_append, List.length_append, List.length_singleton] at hlt harr
    obtain ⟨t₁, hinsert, hholds, hdepth₁⟩ := insert_of_holds poseidon
      (hpos _ (List.prefix_append _ _)) h hdepth
      (fun y hy => hL y (List.mem_append_left _ hy)) (by omega) (by omega)
    obtain ⟨t₂, hrest, hholds₂, hdepth₂⟩ := ih hholds (by omega) hpos hL
      (by rw [hdepth₁, List.length_append, List.length_append, List.length_singleton]; omega)
      (by rw [List.length_append, List.length_append, List.length_singleton]; omega)
    refine ⟨t₂, ?_, hholds₂, hdepth₂.trans hdepth₁⟩
    rw [insertAll_cons, hinsert]
    exact hrest

/-- A mirror that accepted a sequence of leaves holds it, and no more than the leaf array can. -/
theorem holds_of_insertAll {t t' : LeanIMT} {leaves : List Fr} (h : t.Holds poseidon leaves)
    (hdepth : 0 < t.depth) (hL : ∀ y ∈ leaves, y ≠ 0) (harr : leaves.length ≤ maxArrayLength)
    {xs : List Fr} (hpos : GrowsNonzero (nodeHash poseidon) 0 (leaves ++ xs)) (hok : t.insertAll poseidon xs = .ok t') :
    t'.Holds poseidon (leaves ++ xs) ∧ t'.depth = t.depth ∧ (∀ y ∈ leaves ++ xs, y ≠ 0) ∧
      (leaves ++ xs).length ≤ maxArrayLength := by
  induction xs generalizing t leaves with
  | nil =>
    cases hok
    rw [List.append_nil]
    exact ⟨h, rfl, hL, harr⟩
  | cons x xs ih =>
    rw [insertAll_cons] at hok
    cases hinsert : t.insert poseidon x with
    | error e =>
      rw [hinsert] at hok
      cases hok
    | ok out =>
      obtain ⟨t₁, root⟩ := out
      rw [hinsert] at hok
      obtain ⟨hx, hlt, hlt'⟩ := room_of_insert poseidon h hdepth hinsert
      have hL' : ∀ y ∈ leaves ++ [x], y ≠ 0 := by
        intro y hy
        rcases List.mem_append.1 hy with hy | hy
        · exact hL y hy
        · rwa [List.mem_singleton.1 hy]
      rw [List.append_cons] at hpos ⊢
      obtain ⟨t₁', hinsert', hholds, hdepth₁⟩ := insert_of_holds poseidon
        (hpos _ (List.prefix_append _ _)) h hdepth hL' hlt hlt'
      rw [hinsert] at hinsert'
      cases hinsert'
      have hrest := ih hholds (by omega) hL'
        (by rw [List.length_append, List.length_singleton]; omega) hpos hok
      rwa [hdepth₁] at hrest

/-! ## Paths -/

/-- The loop of `getMerklePath` reads the tree's own siblings. -/
theorem pathLevels_eq {levels : ℕ → List Fr} {leaves : List Fr} {depth : ℕ}
    (h : ∀ level < depth, levels level = levelList (nodeHash poseidon) 0 leaves level)
    (i fuel level : ℕ) (hd : fuel + level = depth) :
    pathLevels levels fuel level (i / 2 ^ level) =
      (List.range' level fuel).map (path (nodeHash poseidon) 0 leaves i) := by
  induction fuel generalizing level with
  | zero => rfl
  | succ fuel ih =>
    rw [pathLevels, ← div_two_pow_succ, ih (level + 1) (by omega), List.range'_succ, List.map_cons,
      path_eq_getElem?, h level (by omega), siblingIndex]

/-- The path given for an inserted leaf is the tree's own. -/
theorem getMerklePath_of_holds {t : LeanIMT} {leaves : List Fr} (h : t.Holds poseidon leaves) {i : ℕ}
    (hi : i < leaves.length) :
    t.getMerklePath i = .ok ((List.range t.depth).map (path (nodeHash poseidon) 0 leaves i)) := by
  have hloop := pathLevels_eq poseidon h.levels i t.depth 0 (Nat.add_zero _)
  rw [pow_zero, Nat.div_one, ← List.range_eq_range'] at hloop
  unfold LeanIMT.getMerklePath
  rw [h.nextLeafIndex, if_neg (not_le.2 hi), hloop]

/-- From level `i` up, `foldPath` finishes the tree's fold. -/
theorem foldPathFrom_eq {siblings : ℕ → Fr} {leafIndex : ℕ} {x v : Fr} (fuel i : ℕ) {c : Fr}
    (hc : pathNode (nodeHash poseidon) 0 siblings leafIndex x i = some c)
    (h : pathNode (nodeHash poseidon) 0 siblings leafIndex x (i + fuel) = some v) :
    foldPathFrom poseidon leafIndex i ((List.range' i fuel).map siblings) c = .ok v := by
  induction fuel generalizing i c with
  | zero =>
    rw [Nat.add_zero, hc, Option.some_inj] at h
    rw [← h]
    rfl
  | succ fuel ih =>
    have hstep : ∃ c', pathNode (nodeHash poseidon) 0 siblings leafIndex x (i + 1) = some c' := by
      by_contra hnone
      have hnone' : pathNode (nodeHash poseidon) 0 siblings leafIndex x (i + 1) = none := by
        cases hp : pathNode (nodeHash poseidon) 0 siblings leafIndex x (i + 1) with
        | none => rfl
        | some c' => exact absurd ⟨c', hp⟩ hnone
      exact absurd h (by rw [pathNode_eq_none_of_le _ _ hnone' (by omega)]; simp)
    obtain ⟨c', hc'⟩ := hstep
    have hrest := ih (i + 1) hc' (by rwa [show i + 1 + fuel = i + (fuel + 1) from by omega])
    rw [List.range'_succ, List.map_cons, foldPathFrom]
    rw [pathNode, hc, Option.bind_some] at hc'
    by_cases hs : siblings i = 0
    · rw [if_pos hs] at hc'
      by_cases hb : leafIndex / 2 ^ i % 2 = 1
      · simp [hb] at hc'
      · rw [if_neg hb, Option.some_inj] at hc'
        simp only [hs, ne_eq, not_true_eq_false, if_false, if_neg hb]
        rw [hc']
        exact hrest
    · rw [if_neg hs] at hc'
      simp only [ne_eq, hs, not_false_eq_true, if_true]
      by_cases hb : leafIndex / 2 ^ i % 2 = 1
      · rw [if_pos hb, Option.some_inj] at hc'
        rw [if_pos hb, if_pos hb]
        rw [← hc'] at hrest
        exact hrest
      · rw [if_neg hb, Option.some_inj] at hc'
        rw [if_neg hb, if_neg hb]
        rw [← hc'] at hrest
        exact hrest

/-- `foldPath` is the tree's fold. -/
theorem foldPath_eq {siblings : ℕ → Fr} {leafIndex depth : ℕ} {x v : Fr}
    (h : pathNode (nodeHash poseidon) 0 siblings leafIndex x depth = some v) :
    foldPath poseidon x leafIndex ((List.range depth).map siblings) = .ok v := by
  rw [List.range_eq_range']
  exact foldPathFrom_eq poseidon depth 0 rfl (by rwa [Nat.zero_add])

/-- A fold that ends is the tree's, from level `i` up. -/
theorem pathNode_of_foldPathFrom {siblings : ℕ → Fr} {leafIndex : ℕ} {x v : Fr} {rest : List Fr} {i : ℕ} {c : Fr}
    (hrest : ∀ k (h : k < rest.length), siblings (i + k) = rest[k])
    (hc : pathNode (nodeHash poseidon) 0 siblings leafIndex x i = some c)
    (h : foldPathFrom poseidon leafIndex i rest c = .ok v) :
    pathNode (nodeHash poseidon) 0 siblings leafIndex x (i + rest.length) = some v := by
  induction rest generalizing i c with
  | nil =>
    cases h
    exact hc
  | cons sibling rest ih =>
    have hsibling : siblings i = sibling := hrest 0 (Nat.zero_lt_succ _)
    have htail : ∀ k (h : k < rest.length), siblings (i + 1 + k) = rest[k] := by
      intro k hk
      have := hrest (k + 1) (Nat.succ_lt_succ hk)
      rwa [List.getElem_cons_succ, show i + (k + 1) = i + 1 + k from by omega] at this
    have hstep : pathNode (nodeHash poseidon) 0 siblings leafIndex x (i + 1) =
        if sibling = 0 then if leafIndex / 2 ^ i % 2 = 1 then none else some c
        else if leafIndex / 2 ^ i % 2 = 1 then some (nodeHash poseidon sibling c i)
        else some (nodeHash poseidon c sibling i) := by
      rw [pathNode, hc, Option.bind_some, hsibling]
    rw [List.length_cons, show i + (rest.length + 1) = i + 1 + rest.length from by omega]
    unfold foldPathFrom at h
    dsimp only at h
    by_cases hs : sibling = 0
    · rw [if_pos hs] at hstep
      rw [if_neg (not_not.2 hs)] at h
      by_cases hb : leafIndex / 2 ^ i % 2 = 1
      · rw [if_pos hb] at h
        cases h
      · rw [if_neg hb] at h hstep
        exact ih htail hstep h
    · rw [if_neg hs] at hstep
      rw [if_pos hs] at h
      by_cases hb : leafIndex / 2 ^ i % 2 = 1
      · rw [if_pos hb, if_pos hb] at h
        rw [if_pos hb] at hstep
        exact ih htail hstep h
      · rw [if_neg hb, if_neg hb] at h
        rw [if_neg hb] at hstep
        exact ih htail hstep h

/-- `foldPath` ends with a root exactly if the tree's fold does. -/
theorem foldPath_eq_ok_iff {siblings : List Fr} {leafIndex : ℕ} {x v : Fr} :
    foldPath poseidon x leafIndex siblings = .ok v ↔
      pathNode (nodeHash poseidon) 0 (fun i => siblings.getD i 0) leafIndex x siblings.length = some v := by
  have hget : ∀ k (h : k < siblings.length), siblings.getD k 0 = siblings[k] :=
    fun k h => List.getD_eq_getElem _ _ h
  constructor
  · intro h
    have hrest : ∀ k (h : k < siblings.length), siblings.getD (0 + k) 0 = siblings[k] := by
      intro k hk
      rw [Nat.zero_add]
      exact hget k hk
    have hnode := @pathNode_of_foldPathFrom poseidon (fun i => siblings.getD i 0) _ _ _ _ _ _ hrest rfl h
    rwa [Nat.zero_add] at hnode
  · intro h
    have hmap : (List.range siblings.length).map (fun i => siblings.getD i 0) = siblings := by
      refine List.ext_getElem (by simp) fun k _ hk => ?_
      rw [List.getElem_map, List.getElem_range]
      exact hget k hk
    have := foldPath_eq poseidon h
    rwa [hmap] at this

end Kakure.Sdk
