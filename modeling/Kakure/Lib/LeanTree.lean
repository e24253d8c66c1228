import Mathlib

/-!
# Lean incremental Merkle trees

The general theory of the unbalanced append-only Merkle tree known as the lean
IMT: a node with no right sibling is passed up unhashed, every other node is
`hash left right level`.  Everything here is over an arbitrary node type, an
arbitrary `hash` and an arbitrary `zero` standing for "no node".

* **the tree** — `root` is the recursive definition by halves, `node` the value
  at a level and position; `node_eq_root` identifies the two and `root_eq_hash`
  is the defining equation of `root`;
* **the frontier** — `climb` is the insert that keeps one side node a level;
  `climb_spec` shows that it computes the root of the extended leaf list and
  keeps `Frontier`, the statement that a side node is the last *complete* node
  of its level wherever the next insert is going to read it;
* **mirrors** — `levelList` is a whole level; `levelList_append` and `parent_last` say what one
  more leaf does to it and how a walk that looks its neighbours up computes the new nodes;
* **membership** — `pathNode` folds a sibling path; `pathNode_path` is
  completeness for the path the tree itself gives, and `path_sound` is
  soundness for arbitrary siblings, as long as the hash calls made by the tree
  and by the fold do not collide.
-/

namespace LeanTree

variable {α : Type*} (hash : α → α → ℕ → α) (zero : α)

/-! ## The tree -/

/-- The root of a leaf list: the leaf itself for one leaf, and otherwise the hash of the
root of the first `2 ^ t` leaves with the root of the remaining ones, where
`2 ^ t < n ≤ 2 ^ (t + 1)`. -/
def root : List α → α
  | [] => zero
  | [x] => x
  | x :: y :: L =>
    let t := Nat.log2 (L.length + 1)
    hash (root ((x :: y :: L).take (2 ^ t))) (root ((x :: y :: L).drop (2 ^ t))) t
termination_by L => L.length
decreasing_by
  · have := Nat.log2_self_le (n := L.length + 1) (by omega)
    simp only [List.length_take, List.length_cons]
    omega
  · have := Nat.one_le_two_pow (n := Nat.log2 (L.length + 1))
    simp only [List.length_drop, List.length_cons]
    omega

@[simp] theorem root_nil : root hash zero [] = zero := by rw [root]

@[simp] theorem root_singleton (x : α) : root hash zero [x] = x := by rw [root]

/-- The defining equation of the root above one leaf. -/
theorem root_eq_hash {L : List α} {t : ℕ} (hlo : 2 ^ t < L.length) (hhi : L.length ≤ 2 ^ (t + 1)) :
    root hash zero L = hash (root hash zero (L.take (2 ^ t))) (root hash zero (L.drop (2 ^ t))) t := by
  have hpos := Nat.one_le_two_pow (n := t)
  match L, hlo, hhi with
  | [], hlo, _ => simp at hlo
  | [x], hlo, _ => simp at hlo
  | x :: y :: L, hlo, hhi =>
    simp only [List.length_cons] at hlo hhi
    have ht : Nat.log2 (L.length + 1) = t := by
      rw [Nat.log2_eq_iff (by omega)]
      omega
    rw [root, ht]

/-- The node at a level and position: it covers the leaves `j * 2 ^ level` up to
`(j + 1) * 2 ^ level`, and passes its left child through when the right one covers nothing. -/
def node (L : List α) : ℕ → ℕ → α
  | 0, j => L.getD j zero
  | level + 1, j =>
    if (2 * j + 1) * 2 ^ level < L.length then
      hash (node L level (2 * j)) (node L level (2 * j + 1)) level
    else node L level (2 * j)

/-- A node is the root of the leaves it covers. -/
theorem node_eq_root (L : List α) (level j : ℕ) :
    node hash zero L level j = root hash zero ((L.drop (j * 2 ^ level)).take (2 ^ level)) := by
  induction level generalizing j with
  | zero =>
    rw [node, pow_zero, mul_one]
    by_cases hj : j < L.length
    · rw [List.drop_eq_getElem_cons hj, List.getD_eq_getElem _ _ hj]
      exact (root_singleton hash zero L[j]).symm
    · rw [List.drop_of_length_le (by omega), List.take_nil, root_nil,
        List.getD_eq_default _ _ (by omega)]
  | succ level ih =>
    have hsplit : j * 2 ^ (level + 1) = 2 * j * 2 ^ level := by ring
    have hright : (2 * j + 1) * 2 ^ level = 2 * j * 2 ^ level + 2 ^ level := by ring
    have hdouble : 2 ^ (level + 1) = 2 ^ level + 2 ^ level := by ring
    have hpos := Nat.one_le_two_pow (n := level)
    rw [node, ih, ih, hsplit, hright]
    generalize 2 * j * 2 ^ level = m
    set B := L.drop m with hB
    have hBlen : B.length = L.length - m := by rw [hB, List.length_drop]
    split
    · rename_i hlive
      rw [root_eq_hash hash zero (L := B.take (2 ^ (level + 1))) (t := level)
          (by rw [List.length_take]; omega) (by rw [List.length_take]; omega),
        List.take_take, List.drop_take, hdouble, Nat.add_sub_cancel, min_eq_left (by omega), hB,
        List.drop_drop]
    · rename_i hlive
      rw [List.take_of_length_le (by omega), List.take_of_length_le (by omega)]

/-- The node at the top covers the whole list. -/
theorem node_top {L : List α} {depth : ℕ} (h : L.length ≤ 2 ^ depth) :
    node hash zero L depth 0 = root hash zero L := by
  rw [node_eq_root, zero_mul, List.drop_zero, List.take_of_length_le h]

/-- Every node is a leaf or a hash taken below its level. -/
theorem node_cases (L : List α) (level j : ℕ) (hj : j * 2 ^ level < L.length) :
    node hash zero L level j ∈ L ∨ ∃ k i, k < level ∧ (2 * i + 1) * 2 ^ k < L.length ∧
      node hash zero L level j = hash (node hash zero L k (2 * i)) (node hash zero L k (2 * i + 1)) k := by
  induction level generalizing j with
  | zero =>
    rw [pow_zero, mul_one] at hj
    left
    rw [node, List.getD_eq_getElem _ _ hj]
    exact List.getElem_mem hj
  | succ level ih =>
    rw [node]
    split
    · rename_i hlive
      exact Or.inr ⟨level, j, by omega, hlive, rfl⟩
    · rcases ih (2 * j) (by rw [pow_succ] at hj; linarith) with h | ⟨k, i, hk, hi, h⟩
      · exact Or.inl h
      · exact Or.inr ⟨k, i, by omega, hi, h⟩

/-- The hash calls that make up the tree over `L`. -/
def treeQueries (L : List α) : Set (α × α × ℕ) :=
  {q | ∃ level j, (2 * j + 1) * 2 ^ level < L.length ∧
    q = (node hash zero L level (2 * j), node hash zero L level (2 * j + 1), level)}

/-- No hash call of the tree over `L` gives zero. -/
def HashesNonzero (L : List α) : Prop :=
  ∀ q ∈ treeQueries hash zero L, hash q.1 q.2.1 q.2.2 ≠ zero

/-- No node is zero when no leaf is and no call of the tree gives zero. -/
theorem node_ne_zero {L : List α} (hL : ∀ x ∈ L, x ≠ zero) (hash0 : HashesNonzero hash zero L)
    {level j : ℕ} (hj : j * 2 ^ level < L.length) : node hash zero L level j ≠ zero := by
  rcases node_cases hash zero L level j hj with h | ⟨k, i, -, hi, h⟩
  · exact hL _ h
  · rw [h]
    exact hash0 _ ⟨k, i, hi, rfl⟩

/-- Translating the nodes translates the tree. -/
theorem node_map {β : Type*} (f : α → β) {hash' : β → β → ℕ → β}
    (hf : ∀ l r k, f (hash l r k) = hash' (f l) (f r) k) (L : List α) (level j : ℕ) :
    node hash' (f zero) (L.map f) level j = f (node hash zero L level j) := by
  induction level generalizing j with
  | zero => rw [node, node, List.getD_map]
  | succ level ih =>
    rw [node, node, ih, ih, List.length_map]
    split
    · rw [hf]
    · rfl

theorem root_map {β : Type*} (f : α → β) {hash' : β → β → ℕ → β}
    (hf : ∀ l r k, f (hash l r k) = hash' (f l) (f r) k) (L : List α) :
    root hash' (f zero) (L.map f) = f (root hash zero L) := by
  have hlen : L.length ≤ 2 ^ L.length := Nat.lt_two_pow_self.le
  rw [← node_top hash zero hlen, ← node_map hash zero f hf,
    node_top hash' (f zero) (by rwa [List.length_map])]

/-- No hash call made while the tree grows to `L`, leaf by leaf, gives zero. -/
def GrowsNonzero (L : List α) : Prop := ∀ P, P <+: L → HashesNonzero hash zero P

variable {hash zero}

theorem growsNonzero_of_ne_zero (hash0 : ∀ l r k, hash l r k ≠ zero) (L : List α) :
    GrowsNonzero hash zero L := fun _ _ _ _ => hash0 _ _ _

theorem GrowsNonzero.hashes {L : List α} (h : GrowsNonzero hash zero L) : HashesNonzero hash zero L :=
  h L List.prefix_rfl

theorem GrowsNonzero.of_prefix {L P : List α} (h : GrowsNonzero hash zero L) (hP : P <+: L) :
    GrowsNonzero hash zero P := fun _ hQ => h _ (hQ.trans hP)

/-- The tree of translated nodes makes the translated calls. -/
theorem GrowsNonzero.map {β : Type*} {f : α → β} {hash' : β → β → ℕ → β}
    (hf : ∀ l r k, f (hash l r k) = hash' (f l) (f r) k) (hf0 : ∀ x, f x = f zero → x = zero)
    {L : List α} (h : GrowsNonzero hash zero L) : GrowsNonzero hash' (f zero) (L.map f) := by
  rintro P hP q ⟨level, j, hj, rfl⟩
  obtain ⟨M, hM, rfl⟩ := List.prefix_map_iff.1 hP
  rw [List.length_map] at hj
  rw [node_map hash zero f hf, node_map hash zero f hf, ← hf]
  exact mt (hf0 _) (h M hM _ ⟨level, j, hj, rfl⟩)

variable (hash zero)

/-! ## Appending one leaf -/

/-- A complete node does not see leaves appended after it. -/
theorem node_append_of_complete (L : List α) (x : α) {level j : ℕ}
    (hj : (j + 1) * 2 ^ level ≤ L.length) :
    node hash zero (L ++ [x]) level j = node hash zero L level j := by
  have hpos := Nat.one_le_two_pow (n := level)
  have hexp : (j + 1) * 2 ^ level = j * 2 ^ level + 2 ^ level := by ring
  rw [node_eq_root, node_eq_root, List.drop_append_of_le_length (by omega),
    List.take_append_of_le_length (by rw [List.length_drop]; omega)]

/-- The position of the last leaf's node one level up. -/
theorem div_two_pow_succ (n level : ℕ) : n / 2 ^ (level + 1) = n / 2 ^ level / 2 := by
  rw [pow_succ, Nat.div_div_eq_div_mul]

/-- Above a left child the last leaf's node is passed through. -/
theorem node_last_of_even {L : List α} {x : α} {level : ℕ} (h : L.length / 2 ^ level % 2 = 0) :
    node hash zero (L ++ [x]) (level + 1) (L.length / 2 ^ (level + 1)) =
      node hash zero (L ++ [x]) level (L.length / 2 ^ level) := by
  have hpos := Nat.one_le_two_pow (n := level)
  have hq : 2 * (L.length / 2 ^ level / 2) = L.length / 2 ^ level := by omega
  have hlt := Nat.lt_mul_div_succ L.length (b := 2 ^ level) (by omega)
  rw [div_two_pow_succ, node, hq, if_neg]
  rw [List.length_append, List.length_singleton]
  nlinarith

/-- Above a right child it is hashed with the complete node to its left. -/
theorem node_last_of_odd {L : List α} {x : α} {level : ℕ} (h : L.length / 2 ^ level % 2 = 1) :
    node hash zero (L ++ [x]) (level + 1) (L.length / 2 ^ (level + 1)) =
      hash (node hash zero L level (L.length / 2 ^ level - 1))
        (node hash zero (L ++ [x]) level (L.length / 2 ^ level)) level := by
  have hq : 2 * (L.length / 2 ^ level / 2) + 1 = L.length / 2 ^ level := by omega
  have hle := Nat.div_mul_le_self L.length (2 ^ level)
  rw [div_two_pow_succ, node, hq, if_pos (by rw [List.length_append, List.length_singleton]; omega),
    show 2 * (L.length / 2 ^ level / 2) = L.length / 2 ^ level - 1 from by omega,
    node_append_of_complete]
  rwa [Nat.sub_add_cancel (by omega)]

/-! ## The frontier -/

/-- The frontier walk: from `level` up, a left child overwrites the side node of its level
(and ends the walk at the leftmost one), a right child is hashed with it. -/
def climb (side : ℕ → α) : ℕ → ℕ → ℕ → α → (ℕ → α) × α
  | 0, _, _, x => (side, x)
  | fuel + 1, level, index, x =>
    if index % 2 = 0 then
      if index = 0 then (Function.update side level x, x)
      else climb (Function.update side level x) fuel (level + 1) (index / 2) x
    else climb side fuel (level + 1) (index / 2) (hash (side level) x level)

/-- Where the next leaf is going to read a side node, that node is the last complete one of
its level.  Nothing is said of the other side nodes: they hold partial nodes which later
inserts overwrite before reading. -/
def Frontier (depth : ℕ) (L : List α) (side : ℕ → α) : Prop :=
  ∀ level < depth, L.length / 2 ^ level % 2 = 1 →
    side level = node hash zero L level (L.length / 2 ^ level - 1)

theorem frontier_nil (depth : ℕ) (side : ℕ → α) : Frontier hash zero depth [] side := by
  intro level _ h
  simp at h

/-- One more leaf changes the parity of `n / 2 ^ level` only where the carry stops. -/
theorem succ_div_two_pow_odd {n level : ℕ} (h : (n + 1) / 2 ^ level % 2 = 1) :
    (n / 2 ^ level % 2 = 1 ∧ (n + 1) / 2 ^ level = n / 2 ^ level) ∨
      (n / 2 ^ level % 2 = 0 ∧ (n + 1) / 2 ^ level = n / 2 ^ level + 1) := by
  have hs := @Nat.succ_div n (2 ^ level)
  split at hs <;> omega

/-- The walk from `level` up, with the levels below already settled. -/
theorem climb_spec_from {depth : ℕ} {L : List α} {x : α} (hn : L.length < 2 ^ depth) :
    ∀ (fuel level : ℕ) (side : ℕ → α), fuel + level = depth →
      (∀ m, level ≤ m → m < depth → L.length / 2 ^ m % 2 = 1 →
        side m = node hash zero L m (L.length / 2 ^ m - 1)) →
      (∀ m < level, (L.length + 1) / 2 ^ m % 2 = 1 →
        side m = node hash zero (L ++ [x]) m ((L.length + 1) / 2 ^ m - 1)) →
      Frontier hash zero depth (L ++ [x]) (climb hash side fuel level (L.length / 2 ^ level)
          (node hash zero (L ++ [x]) level (L.length / 2 ^ level))).1 ∧
        (climb hash side fuel level (L.length / 2 ^ level)
          (node hash zero (L ++ [x]) level (L.length / 2 ^ level))).2 = root hash zero (L ++ [x]) := by
  have hlen : (L ++ [x]).length = L.length + 1 := by simp
  have hroot : node hash zero (L ++ [x]) depth 0 = root hash zero (L ++ [x]) :=
    node_top hash zero (by omega)
  intro fuel
  induction fuel with
  | zero =>
    intro level side hd _ hlow
    obtain rfl : level = depth := by omega
    refine ⟨fun m hm hodd => ?_, ?_⟩
    · rw [hlen] at hodd ⊢
      exact hlow m hm hodd
    · rw [climb, Nat.div_eq_of_lt hn, hroot]
  | succ fuel ih =>
    intro level side hd hhigh hlow
    rw [climb]
    -- the levels below stay settled, and this one is settled by the write
    have hset : L.length / 2 ^ level % 2 = 0 → ∀ m < level + 1, (L.length + 1) / 2 ^ m % 2 = 1 →
        Function.update side level (node hash zero (L ++ [x]) level (L.length / 2 ^ level)) m =
          node hash zero (L ++ [x]) m ((L.length + 1) / 2 ^ m - 1) := by
      intro heven m hm hodd
      by_cases hml : m = level
      · subst hml
        rcases succ_div_two_pow_odd hodd with ⟨h, -⟩ | ⟨-, h⟩
        · omega
        · rw [Function.update_self, h, Nat.add_sub_cancel]
      · rw [Function.update_of_ne hml]
        exact hlow m (by omega) hodd
    split
    · rename_i heven
      split
      · rename_i hzero
        -- the leftmost node of its level is the root: nothing above it is odd
        have hsmall : L.length < 2 ^ level := by
          by_contra hge
          have := Nat.div_pos (not_lt.mp hge) (by positivity)
          omega
        refine ⟨fun m hm hodd => ?_, ?_⟩
        · rw [hlen] at hodd ⊢
          by_cases hml : m < level + 1
          · exact hset heven m hml hodd
          · have hpow : 2 ^ (level + 1) ≤ 2 ^ m := Nat.pow_le_pow_right (by omega) (by omega)
            rw [pow_succ] at hpow
            have := Nat.div_eq_of_lt (by omega : L.length + 1 < 2 ^ m)
            omega
        · rw [hzero, node_top hash zero (by omega)]
      · have hrest := ih (level + 1) _ (by omega) (fun m hm hmd hodd => by
          rw [Function.update_of_ne (by omega)]
          exact hhigh m (by omega) hmd hodd) (hset heven)
        rwa [node_last_of_even hash zero heven, div_two_pow_succ] at hrest
    · rename_i hodd
      have hodd' : L.length / 2 ^ level % 2 = 1 := by omega
      rw [← div_two_pow_succ, hhigh level le_rfl (by omega) hodd', ← node_last_of_odd hash zero hodd']
      refine ih (level + 1) side (by omega) (fun m hm => hhigh m (by omega)) (fun m hm hodd2 => ?_)
      by_cases hml : m = level
      · subst hml
        rcases succ_div_two_pow_odd hodd2 with ⟨-, h⟩ | ⟨h, -⟩
        · have hone : 1 ≤ L.length / 2 ^ m := Nat.one_le_iff_ne_zero.2 fun h0 => by simp [h0] at hodd'
          have hcomplete := Nat.div_mul_le_self L.length (2 ^ m)
          rw [h, node_append_of_complete, hhigh m le_rfl (by omega) hodd']
          rwa [Nat.sub_add_cancel hone]
        · omega
      · exact hlow m (by omega) hodd2

/-- The frontier insert computes the root of the extended list and keeps the frontier. -/
theorem climb_spec {depth : ℕ} {L : List α} {x : α} {side : ℕ → α} (hn : L.length < 2 ^ depth)
    (h : Frontier hash zero depth L side) :
    Frontier hash zero depth (L ++ [x]) (climb hash side depth 0 L.length x).1 ∧
      (climb hash side depth 0 L.length x).2 = root hash zero (L ++ [x]) := by
  have h0 : node hash zero (L ++ [x]) 0 (L.length / 2 ^ 0) = x := by
    simp [node]
  have := climb_spec_from hash zero (x := x) hn depth 0 side (by omega)
    (fun m _ hm hodd => h m hm hodd) (fun m hm => absurd hm (Nat.not_lt_zero m))
  rwa [h0, pow_zero, Nat.div_one] at this

/-! ## Mirrors that keep whole levels -/

/-- The nodes of a level, as many as cover a leaf. -/
def levelList (L : List α) (level : ℕ) : List α :=
  (List.range ((L.length + 2 ^ level - 1) / 2 ^ level)).map (node hash zero L level)

theorem lt_length_levelList {L : List α} {level j : ℕ} :
    j < (levelList hash zero L level).length ↔ j * 2 ^ level < L.length := by
  have hpos := Nat.one_le_two_pow (n := level)
  rw [levelList, List.length_map, List.length_range, Nat.lt_div_iff_mul_lt (by omega)]
  omega

theorem getElem?_levelList (L : List α) (level j : ℕ) :
    (levelList hash zero L level)[j]? =
      if j * 2 ^ level < L.length then some (node hash zero L level j) else none := by
  by_cases h : j < (levelList hash zero L level).length
  · rw [if_pos ((lt_length_levelList hash zero).1 h), List.getElem?_eq_getElem h]
    simp [levelList]
  · rw [if_neg (mt (lt_length_levelList hash zero).2 h), List.getElem?_eq_none (not_lt.1 h)]

@[simp] theorem levelList_nil (level : ℕ) : levelList hash zero [] level = [] := by
  refine List.ext_getElem? fun j => ?_
  simp [getElem?_levelList]

/-- The bottom level is the leaf list. -/
theorem levelList_zero (L : List α) : levelList hash zero L 0 = L := by
  refine List.ext_getElem? fun j => ?_
  rw [getElem?_levelList, pow_zero, mul_one, node]
  split
  · rename_i h
    rw [List.getD_eq_getElem _ _ h, List.getElem?_eq_getElem h]
  · rename_i h
    rw [List.getElem?_eq_none (not_lt.1 h)]

/-- The last leaf's node stands at its position. -/
theorem getElem?_levelList_last (L : List α) (x : α) (level : ℕ) :
    (levelList hash zero (L ++ [x]) level)[L.length / 2 ^ level]? =
      some (node hash zero (L ++ [x]) level (L.length / 2 ^ level)) := by
  have hle := Nat.div_mul_le_self L.length (2 ^ level)
  rw [getElem?_levelList, if_pos (by rw [List.length_append, List.length_singleton]; omega)]

/-- One more leaf changes one node of a level. -/
theorem getElem?_levelList_of_ne (L : List α) (x : α) {level j : ℕ} (h : j ≠ L.length / 2 ^ level) :
    (levelList hash zero (L ++ [x]) level)[j]? = (levelList hash zero L level)[j]? := by
  have hpos := Nat.one_le_two_pow (n := level)
  have hlen : (L ++ [x]).length = L.length + 1 := by simp
  rw [getElem?_levelList, getElem?_levelList, hlen]
  rcases lt_or_gt_of_ne h with hlt | hgt
  · have hcomplete : (j + 1) * 2 ^ level ≤ L.length :=
      (Nat.mul_le_mul_right _ (by omega)).trans (Nat.div_mul_le_self L.length (2 ^ level))
    have hexp : (j + 1) * 2 ^ level = j * 2 ^ level + 2 ^ level := by ring
    rw [if_pos (by omega), if_pos (by omega), node_append_of_complete hash zero L x hcomplete]
  · have hover : L.length < j * 2 ^ level :=
      (Nat.lt_mul_div_succ L.length (b := 2 ^ level) (by omega)).trans_le (by
        rw [mul_comm]
        exact Nat.mul_le_mul_right _ hgt)
    rw [if_neg (by omega), if_neg (by omega)]

/-- A level grows by the last leaf's node, or has its last node replaced by it. -/
theorem levelList_append (L : List α) (x : α) (level : ℕ) :
    levelList hash zero (L ++ [x]) level =
      if L.length / 2 ^ level ≥ (levelList hash zero L level).length then
        levelList hash zero L level ++ [node hash zero (L ++ [x]) level (L.length / 2 ^ level)]
      else (levelList hash zero L level).set (L.length / 2 ^ level)
        (node hash zero (L ++ [x]) level (L.length / 2 ^ level)) := by
  set q := L.length / 2 ^ level with hq
  have hlow : ∀ j < q, j < (levelList hash zero L level).length := by
    intro j hj
    rw [lt_length_levelList]
    calc j * 2 ^ level < q * 2 ^ level := Nat.mul_lt_mul_of_pos_right hj (by positivity)
      _ ≤ L.length := Nat.div_mul_le_self L.length (2 ^ level)
  refine List.ext_getElem? fun j => ?_
  by_cases hj : j = q
  · subst hj
    rw [getElem?_levelList_last]
    split
    · rename_i hlen
      have hend : (levelList hash zero L level).length = q := by
        by_contra hne
        exact absurd (hlow _ (lt_of_le_of_ne hlen hne)) (lt_irrefl _)
      rw [List.getElem?_append_right (by omega), hend, Nat.sub_self]
      rfl
    · rename_i hlen
      rw [List.getElem?_set_self (by omega)]
  · rw [getElem?_levelList_of_ne hash zero L x hj]
    split
    · rename_i hlen
      by_cases hjlt : j < (levelList hash zero L level).length
      · rw [List.getElem?_append_left hjlt]
      · have hjq : q < j := by
          by_contra hle
          exact hjlt (hlow j (by omega))
        rw [List.getElem?_eq_none (by omega), List.getElem?_eq_none (by simp; omega)]
    · rw [List.getElem?_set_ne (by omega)]

/-- The four-way combination of two children: a missing one is zero and passes the other up. -/
def parent [DecidableEq α] (left right : α) (level : ℕ) : α :=
  if left = zero ∧ right = zero then zero
  else if right = zero then left
  else if left = zero then right
  else hash left right level

/-- Walking up from the last leaf, the four-way combination with the neighbour found in the level
gives the last leaf's node one level up. -/
theorem parent_last [DecidableEq α] {L : List α} {x : α} (hL : ∀ y ∈ L ++ [x], y ≠ zero)
    (hash0 : HashesNonzero hash zero (L ++ [x])) (level : ℕ) {q : ℕ} (hq : q = L.length / 2 ^ level) :
    (if q % 2 = 0 then
        parent hash zero (node hash zero (L ++ [x]) level q)
          ((levelList hash zero (L ++ [x]) level)[q + 1]?.getD zero) level
      else
        parent hash zero ((levelList hash zero (L ++ [x]) level)[q - 1]?.getD zero)
          (node hash zero (L ++ [x]) level q) level) =
      node hash zero (L ++ [x]) (level + 1) (q / 2) := by
  have hhalf : q / 2 = L.length / 2 ^ (level + 1) := by rw [div_two_pow_succ, hq]
  have hlen : (L ++ [x]).length = L.length + 1 := by simp
  have hle := Nat.div_mul_le_self L.length (2 ^ level)
  have hself : node hash zero (L ++ [x]) level q ≠ zero :=
    node_ne_zero hash zero hL hash0 (by rw [hlen, hq]; omega)
  split
  · rename_i heven
    have hlt := Nat.lt_mul_div_succ L.length (b := 2 ^ level) (by positivity)
    have hmissing : ¬ (q + 1) * 2 ^ level < (L ++ [x]).length := by
      rw [hlen, hq, mul_comm]
      omega
    rw [getElem?_levelList, if_neg hmissing, Option.getD_none, parent, hhalf,
      node_last_of_even hash zero (hq ▸ heven), ← hq, if_neg (by simp [hself]), if_pos rfl]
  · rename_i hodd
    have hodd' : q % 2 = 1 := by omega
    have hone : q - 1 + 1 = q := by omega
    have hcomplete : (q - 1 + 1) * 2 ^ level ≤ L.length := by rw [hone, hq]; exact hle
    have hlive : (q - 1) * 2 ^ level < (L ++ [x]).length := by
      rw [hlen]
      exact Nat.lt_succ_of_le ((Nat.mul_le_mul_right _ (by omega)).trans hcomplete)
    have hleft := node_ne_zero hash zero hL hash0 hlive
    rw [getElem?_levelList, if_pos hlive, Option.getD_some, parent, hhalf,
      node_last_of_odd hash zero (hq ▸ hodd'), ← hq, if_neg (by simp [hself]), if_neg hself,
      if_neg hleft, node_append_of_complete hash zero L x hcomplete]

/-! ## Membership -/

/-- The sibling path of leaf `i`: the neighbouring node where it exists, zero elsewhere. -/
def path (L : List α) (i level : ℕ) : α :=
  let j := i / 2 ^ level
  let s := if j % 2 = 0 then j + 1 else j - 1
  if s * 2 ^ level < L.length then node hash zero L level s else zero

/-- The siblings are looked up in the levels. -/
theorem path_eq_getElem? (L : List α) (i level : ℕ) :
    path hash zero L i level = (levelList hash zero L level)[
      if i / 2 ^ level % 2 = 0 then i / 2 ^ level + 1 else i / 2 ^ level - 1]?.getD zero := by
  rw [path, getElem?_levelList, apply_ite (Option.getD · zero)]
  rfl

theorem path_map {β : Type*} (f : α → β) {hash' : β → β → ℕ → β}
    (hf : ∀ l r k, f (hash l r k) = hash' (f l) (f r) k) (L : List α) (i level : ℕ) :
    path hash' (f zero) (L.map f) i level = f (path hash zero L i level) := by
  simp only [path, List.length_map, node_map hash zero f hf]
  exact (apply_ite f _ _ _).symm

variable [DecidableEq α]

/-- The value a sibling path folds to below `level`: a zero sibling passes the node through
and is refused under a set index bit. -/
def pathNode (siblings : ℕ → α) (i : ℕ) (x : α) : ℕ → Option α
  | 0 => some x
  | level + 1 =>
    (pathNode siblings i x level).bind fun c =>
      if siblings level = zero then
        if i / 2 ^ level % 2 = 1 then none else some c
      else if i / 2 ^ level % 2 = 1 then some (hash (siblings level) c level)
      else some (hash c (siblings level) level)

/-- The fold below a level reads only the siblings below it. -/
theorem pathNode_congr {siblings siblings' : ℕ → α} {i : ℕ} {x : α} {level : ℕ}
    (h : ∀ k < level, siblings k = siblings' k) :
    pathNode hash zero siblings i x level = pathNode hash zero siblings' i x level := by
  induction level with
  | zero => rfl
  | succ level ih =>
    rw [pathNode, pathNode, ih fun k hk => h k (by omega), h level (by omega)]

/-- A fold that was refused at a level stays refused above it. -/
theorem pathNode_eq_none_of_le {siblings : ℕ → α} {i : ℕ} {x : α} {k level : ℕ}
    (h : pathNode hash zero siblings i x k = none) (hle : k ≤ level) :
    pathNode hash zero siblings i x level = none := by
  induction level with
  | zero => rwa [Nat.le_zero.1 hle] at h
  | succ level ih =>
    rcases Nat.lt_or_ge level k with hlt | hge
    · rwa [show level + 1 = k from by omega]
    · rw [pathNode, ih hge, Option.bind_none]

/-- The tree's own path folds to the tree's own nodes. -/
theorem pathNode_path {L : List α} (hL : ∀ x ∈ L, x ≠ zero) (hash0 : HashesNonzero hash zero L)
    {i : ℕ} (hi : i < L.length) (level : ℕ) :
    pathNode hash zero (path hash zero L i) i L[i] level =
      some (node hash zero L level (i / 2 ^ level)) := by
  induction level with
  | zero => simp [pathNode, node, hi]
  | succ level ih =>
    have hj : i / 2 ^ level * 2 ^ level < L.length :=
      lt_of_le_of_lt (Nat.div_mul_le_self i (2 ^ level)) hi
    rw [pathNode, ih, Option.bind_some, div_two_pow_succ, node, path]
    set j := i / 2 ^ level
    rcases Nat.mod_two_eq_zero_or_one j with hpar | hpar
    · have hq : 2 * (j / 2) = j := by omega
      simp only [hpar, if_true, hq]
      by_cases hlive : (j + 1) * 2 ^ level < L.length
      · have := node_ne_zero hash zero hL hash0 hlive
        simp [hlive, this]
      · simp [hlive]
    · have hq : 2 * (j / 2) = j - 1 := by omega
      have hq' : 2 * (j / 2) + 1 = j := by omega
      have hleft : (j - 1) * 2 ^ level < L.length :=
        lt_of_le_of_lt (Nat.mul_le_mul_right _ (by omega)) hj
      have := node_ne_zero hash zero hL hash0 hleft
      rw [hq', hq]
      simp [hpar, hleft, hj, this]

/-- The hash calls made by folding a path of `depth` siblings. -/
def pathQueries (depth : ℕ) (siblings : ℕ → α) (i : ℕ) (x : α) : Set (α × α × ℕ) :=
  {q | ∃ level < depth, siblings level ≠ zero ∧ ∃ c, pathNode hash zero siblings i x level = some c ∧
    q = if i / 2 ^ level % 2 = 1 then (siblings level, c, level) else (c, siblings level, level)}

/-- The calls of a fold depend only on the siblings below the top. -/
theorem pathQueries_subset_of_eq {siblings siblings' : ℕ → α} {i : ℕ} {x : α} {depth : ℕ}
    (h : ∀ k < depth, siblings k = siblings' k) :
    pathQueries hash zero depth siblings i x ⊆ pathQueries hash zero depth siblings' i x := by
  rintro q ⟨level, hlevel, hs, c, hc, rfl⟩
  rw [pathNode_congr hash zero fun k hk => h k (by omega)] at hc
  rw [h level hlevel] at hs ⊢
  exact ⟨level, hlevel, hs, c, hc, rfl⟩

/-- Folding the tree's own path makes only calls of the tree. -/
theorem pathQueries_path_subset {L : List α} (hL : ∀ x ∈ L, x ≠ zero)
    (hash0 : HashesNonzero hash zero L) {i : ℕ} (hi : i < L.length) (depth : ℕ) :
    pathQueries hash zero depth (path hash zero L i) i L[i] ⊆ treeQueries hash zero L := by
  rintro q ⟨level, -, hs, c, hc, rfl⟩
  rw [pathNode_path hash zero hL hash0 hi, Option.some_inj] at hc
  subst hc
  have hj : i / 2 ^ level * 2 ^ level < L.length :=
    lt_of_le_of_lt (Nat.div_mul_le_self i (2 ^ level)) hi
  unfold path at hs ⊢
  set j := i / 2 ^ level
  rcases Nat.mod_two_eq_zero_or_one j with hpar | hpar
  · have hq : 2 * (j / 2) = j := by omega
    simp only [hpar, if_true] at hs ⊢
    have hlive : (j + 1) * 2 ^ level < L.length := by
      by_contra hdead
      exact hs (if_neg hdead)
    refine ⟨level, j / 2, by rwa [hq], ?_⟩
    rw [if_pos hlive, if_neg (by omega), hq]
  · have hq : 2 * (j / 2) = j - 1 := by omega
    have hq' : 2 * (j / 2) + 1 = j := by omega
    simp only [hpar, one_ne_zero, if_false] at hs ⊢
    have hleft : (j - 1) * 2 ^ level < L.length :=
      lt_of_le_of_lt (Nat.mul_le_mul_right _ (by omega)) hj
    refine ⟨level, j / 2, by rwa [hq'], ?_⟩
    rw [if_pos hleft, if_pos trivial, hq', hq]

/-- One level of the fold: passed through under a clear bit, or a recorded hash call. -/
theorem pathNode_succ_cases {depth level : ℕ} {siblings : ℕ → α} {i : ℕ} {x v : α}
    (hlevel : level < depth) (h : pathNode hash zero siblings i x (level + 1) = some v) :
    (pathNode hash zero siblings i x level = some v ∧ i / 2 ^ level % 2 = 0) ∨
      ∃ l r, (l, r, level) ∈ pathQueries hash zero depth siblings i x ∧ v = hash l r level ∧
        pathNode hash zero siblings i x level =
          some (if i / 2 ^ level % 2 = 1 then r else l) := by
  rw [pathNode] at h
  obtain ⟨c, hc, h⟩ := Option.bind_eq_some_iff.1 h
  by_cases hs : siblings level = zero
  · rw [if_pos hs] at h
    by_cases hb : i / 2 ^ level % 2 = 1
    · simp [hb] at h
    · rw [if_neg hb, Option.some_inj] at h
      exact Or.inl ⟨h ▸ hc, by omega⟩
  · rw [if_neg hs] at h
    right
    by_cases hb : i / 2 ^ level % 2 = 1
    · rw [if_pos hb, Option.some_inj] at h
      exact ⟨siblings level, c, ⟨level, hlevel, hs, c, hc, by rw [if_pos hb]⟩, h.symm,
        by rw [if_pos hb]; exact hc⟩
    · rw [if_neg hb, Option.some_inj] at h
      exact ⟨c, siblings level, ⟨level, hlevel, hs, c, hc, by rw [if_neg hb]⟩, h.symm,
        by rw [if_neg hb]; exact hc⟩

/-- A fold value is the leaf it started from or a recorded hash call below its level. -/
theorem pathNode_cases {depth : ℕ} {siblings : ℕ → α} {i : ℕ} {x : α} :
    ∀ {level : ℕ} {v : α}, level ≤ depth → pathNode hash zero siblings i x level = some v →
      v = x ∨ ∃ l r k, k < level ∧ (l, r, k) ∈ pathQueries hash zero depth siblings i x ∧
        v = hash l r k := by
  intro level
  induction level with
  | zero =>
    intro v _ h
    exact Or.inl (Option.some_inj.1 h).symm
  | succ level ih =>
    intro v hd h
    rcases pathNode_succ_cases hash zero (by omega : level < depth) h with ⟨h', -⟩ | ⟨l, r, hq, hv, -⟩
    · rcases ih (by omega) h' with rfl | ⟨l, r, k, hk, hq, hv⟩
      · exact Or.inl rfl
      · exact Or.inr ⟨l, r, k, by omega, hq, hv⟩
    · exact Or.inr ⟨l, r, level, by omega, hq, hv⟩

/-- Soundness of membership, from the root down: as long as the calls of the tree and of the
fold do not collide, a fold that meets the tree at a node has met it at every node below. -/
theorem path_sound_from {L : List α} {depth : ℕ} {siblings : ℕ → α} {i : ℕ} {x : α}
    (hinj : Set.InjOn (fun q : α × α × ℕ => hash q.1 q.2.1 q.2.2)
      (treeQueries hash zero L ∪ pathQueries hash zero depth siblings i x))
    (hleaf : ∀ y ∈ x :: L, ∀ q ∈ treeQueries hash zero L ∪ pathQueries hash zero depth siblings i x,
      y ≠ hash q.1 q.2.1 q.2.2) :
    ∀ level, level ≤ depth → i / 2 ^ level * 2 ^ level < L.length →
      pathNode hash zero siblings i x level = some (node hash zero L level (i / 2 ^ level)) →
      i < L.length ∧ L[i]? = some x := by
  intro level
  induction level with
  | zero =>
    intro _ hi h
    rw [pow_zero, mul_one, Nat.div_one] at hi
    refine ⟨hi, ?_⟩
    rw [pathNode, node, pow_zero, Nat.div_one, List.getD_eq_getElem _ _ hi, Option.some_inj] at h
    rw [List.getElem?_eq_getElem hi, h]
  | succ level ih =>
    intro hd hi h
    rw [div_two_pow_succ] at h hi
    set j := i / 2 ^ level with hj
    have hlive : 2 * (j / 2) * 2 ^ level < L.length := by
      rw [pow_succ] at hi; linarith
    have hmem : ∀ {v : α}, v ∈ L → v ∈ x :: L := fun hv => List.mem_cons_of_mem x hv
    by_cases hright : (2 * (j / 2) + 1) * 2 ^ level < L.length
    · -- the tree hashes here
      have hnode : node hash zero L (level + 1) (j / 2) = hash (node hash zero L level (2 * (j / 2)))
          (node hash zero L level (2 * (j / 2) + 1)) level := by rw [node, if_pos hright]
      have htree : (node hash zero L level (2 * (j / 2)), node hash zero L level (2 * (j / 2) + 1), level)
          ∈ treeQueries hash zero L := ⟨level, j / 2, hright, rfl⟩
      rcases pathNode_succ_cases hash zero (by omega : level < depth) h with ⟨hpass, -⟩ | ⟨l, r, hq, hv, hc⟩
      · -- the fold passed the node through: it would be a leaf, or hashed at another level
        rw [hnode] at hpass
        rcases pathNode_cases hash zero (by omega : level ≤ depth) hpass with hx | ⟨l, r, k, hk, hq, hv⟩
        · exact absurd hx.symm (hleaf x List.mem_cons_self _ (Or.inl htree))
        · have heq := hinj (Or.inl htree) (Or.inr hq) hv
          have hlevel : level = k := congrArg (fun q => q.2.2) heq
          omega
      · -- both hash: the children agree
        rw [hnode] at hv
        have heq := hinj (Or.inl htree) (Or.inr hq) hv
        have hl : node hash zero L level (2 * (j / 2)) = l := congrArg (fun q => q.1) heq
        have hr : node hash zero L level (2 * (j / 2) + 1) = r := congrArg (fun q => q.2.1) heq
        rcases Nat.mod_two_eq_zero_or_one j with hpar | hpar
        · have hjj : 2 * (j / 2) = j := by omega
          rw [hpar, if_neg (by omega), ← hl, hjj] at hc
          exact ih (by omega) (by rw [← hjj]; exact hlive) hc
        · have hjj : 2 * (j / 2) + 1 = j := by omega
          rw [hpar, if_pos rfl, ← hr, hjj] at hc
          exact ih (by omega) (by rw [← hjj]; exact hright) hc
    · -- the tree passes its left child through
      have hnode : node hash zero L (level + 1) (j / 2) = node hash zero L level (2 * (j / 2)) := by
        rw [node, if_neg hright]
      rw [hnode] at h
      rcases pathNode_succ_cases hash zero (by omega : level < depth) h with ⟨hpass, hbit⟩ | ⟨l, r, hq, hv, -⟩
      · have hjj : 2 * (j / 2) = j := by omega
        rw [hjj] at hpass hlive
        exact ih (by omega) hlive hpass
      · -- the fold hashed what the tree did not
        rcases node_cases hash zero L level (2 * (j / 2)) hlive with hin | ⟨k, m, hk, hm, hn⟩
        · exact absurd hv (hleaf _ (hmem hin) _ (Or.inr hq))
        · have heq := hinj (Or.inl ⟨k, m, hm, rfl⟩) (Or.inr hq) (hn.symm.trans hv)
          have hlevel : k = level := congrArg (fun q => q.2.2) heq
          omega

/-- Soundness of membership: a path that folds to the root opens the leaf at its index. -/
theorem path_sound {L : List α} {depth : ℕ} {siblings : ℕ → α} {i : ℕ} {x : α} (hne : L ≠ [])
    (hn : L.length ≤ 2 ^ depth) (hi : i < 2 ^ depth)
    (hinj : Set.InjOn (fun q : α × α × ℕ => hash q.1 q.2.1 q.2.2)
      (treeQueries hash zero L ∪ pathQueries hash zero depth siblings i x))
    (hleaf : ∀ y ∈ x :: L, ∀ q ∈ treeQueries hash zero L ∪ pathQueries hash zero depth siblings i x,
      y ≠ hash q.1 q.2.1 q.2.2)
    (h : pathNode hash zero siblings i x depth = some (root hash zero L)) :
    i < L.length ∧ L[i]? = some x := by
  have hpos : 0 < L.length := List.length_pos_of_ne_nil hne
  refine path_sound_from hash zero hinj hleaf depth le_rfl ?_ ?_
  · rwa [Nat.div_eq_of_lt hi, zero_mul]
  · rw [Nat.div_eq_of_lt hi, node_top hash zero hn]
    exact h

end LeanTree
