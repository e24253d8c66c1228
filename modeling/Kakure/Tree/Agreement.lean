import Kakure.Circuits.Inclusion
import Kakure.Pool.Merkle
import Kakure.Tree.Indexer
import Kakure.Tree.Sdk

/-!
# The tree across the program, its mirrors and the circuits

The on-chain frontier insert, the indexer's and the SDK's mirrors and the circuits'
inclusion proof all work on the tree of `Kakure.Lib.LeanTree`.

* `inserts_agree_iff` — inserting leaf by leaf, the program and the two mirrors
  give the same index and the root of the recursive definition, up to the length
  the SDK's leaf array can have;
* `paths_agree` — the mirrors serve the same path for every leaf they hold, and the
  circuit and the SDK fold it to the root the program keeps;
* `inclusion_sound` — whatever the circuit accepts against a root is the leaf that
  was inserted at that index, unless the node hash collides.
-/

namespace Kakure

open Slices LeanTree

variable (poseidon : Fr → Fr → Fr → Fr)

/-! ## The mirrors hold the program's tree -/

/-- The indexer's hash on bigints is the node hash on their field elements. -/
theorem val_nodeHash (l r : Fr) (level : ℕ) :
    (nodeHash poseidon l r level).val = Indexer.hash3 poseidon l.val r.val level := by
  unfold nodeHash Indexer.hash3
  rw [ZMod.natCast_zmod_val, ZMod.natCast_zmod_val]

theorem indexer_root (leaves : List Fr) :
    LeanTree.root (Indexer.hash3 poseidon) 0 (leaves.map ZMod.val) =
      (LeanTree.root (nodeHash poseidon) 0 leaves).val := by
  have h := root_map (nodeHash poseidon) 0 ZMod.val (val_nodeHash poseidon) leaves
  rwa [ZMod.val_zero] at h

theorem indexer_path (leaves : List Fr) (i level : ℕ) :
    path (Indexer.hash3 poseidon) 0 (leaves.map ZMod.val) i level =
      (path (nodeHash poseidon) 0 leaves i level).val := by
  have h := path_map (nodeHash poseidon) 0 ZMod.val (val_nodeHash poseidon) leaves i level
  rwa [ZMod.val_zero] at h

/-- The indexer's tree makes the calls of the tree of field elements. -/
theorem growsNonzero_val {leaves : List Fr} (h : GrowsNonzero (nodeHash poseidon) 0 leaves) :
    GrowsNonzero (Indexer.hash3 poseidon) 0 (leaves.map ZMod.val) := by
  have hval := h.map (val_nodeHash poseidon) fun x hx => by rwa [ZMod.val_zero, ZMod.val_eq_zero] at hx
  rwa [ZMod.val_zero] at hval

theorem val_ne_zero_of_mem {leaves : List Fr} (hL : ∀ x ∈ leaves, x ≠ 0) :
    ∀ y ∈ leaves.map ZMod.val, y ≠ 0 := by
  intro y hy
  obtain ⟨x, hx, rfl⟩ := List.mem_map.1 hy
  rw [ne_eq, ZMod.val_eq_zero]
  exact hL x hx

/-! ## Inserting -/

/-- After `leaves`, the program and the mirrors of depth 32 all accept `leaf`, at this index and
with this root. -/
structure InsertsAs (leaves : List Fr) (leaf : Fr) (index : ℕ) (root : Fr) : Prop where
  program : ∃ pool out p, insertAll poseidon Pool.empty (leaves.map Fr.toBytes) = .ok (pool, out) ∧
    insert poseidon pool leaf.toBytes = .ok (p, index, root.toBytes)
  indexer : ∃ t₀ t t', Indexer.LeanIMT.new 32 = .ok t₀ ∧
    t₀.insertAll poseidon (leaves.map ZMod.val) = .ok t ∧ t.nextIndex = index ∧
    t.insert poseidon leaf.val = .ok (t', root.val) ∧ t'.root = root.val
  sdk : ∃ t₀ t t', Sdk.LeanIMT.new 32 = .ok t₀ ∧ t₀.insertAll poseidon leaves = .ok t ∧
    t.nextLeafIndex = index ∧ t.insert poseidon leaf = .ok (t', root) ∧ t'.currentRoot = root

/-- Below the array limit all three accept the next leaf and agree on it. -/
theorem insertsAs_of_lt {leaves : List Fr} {leaf : Fr}
    (hpos : GrowsNonzero (nodeHash poseidon) 0 (leaves ++ [leaf])) (hL : ∀ x ∈ leaves ++ [leaf], x ≠ 0)
    (hlt : leaves.length < 2 ^ 32 - 1) :
    InsertsAs poseidon leaves leaf leaves.length
      (LeanTree.root (nodeHash poseidon) 0 (leaves ++ [leaf])) := by
  have hleaf : leaf ≠ 0 := hL leaf (by simp)
  have hleaves : ∀ x ∈ leaves, x ≠ 0 := fun x hx => hL x (List.mem_append_left _ hx)
  have hval : ∀ y ∈ leaves.map ZMod.val ++ [leaf.val], y ≠ 0 := by
    have := val_ne_zero_of_mem hL
    rwa [List.map_append, List.map_singleton] at this
  have hpos' : GrowsNonzero (nodeHash poseidon) 0 leaves := hpos.of_prefix (List.prefix_append _ _)
  have hval0 : HashesNonzero (Indexer.hash3 poseidon) 0 (leaves.map ZMod.val ++ [leaf.val]) := by
    have := (growsNonzero_val poseidon hpos).hashes
    rwa [List.map_append, List.map_singleton] at this
  refine ⟨?_, ?_, ?_⟩
  · obtain ⟨pool, hrun, hstate⟩ := insertAll_toBytes poseidon hleaves (by omega)
    obtain ⟨p, hp, -⟩ := insert_of_treeState poseidon hstate hleaf (by omega)
    exact ⟨pool, _, p, hrun, hp⟩
  · obtain ⟨h₀, -⟩ := Indexer.holds_new poseidon 32 rfl
    obtain ⟨t, hrun, hholds, hdepth⟩ := Indexer.insertAll_of_holds poseidon h₀
      (leaves.map ZMod.val) (growsNonzero_val poseidon hpos') (val_ne_zero_of_mem hleaves)
      (by rw [List.nil_append, List.length_map]; show _ ≤ 2 ^ 32; omega)
    rw [List.nil_append] at hholds
    obtain ⟨t', hinsert, hholds', -⟩ := Indexer.insert_of_holds poseidon hval0 hholds hval
      (by rw [List.length_map, hdepth]; show _ < 2 ^ 32; omega)
    have hroot := indexer_root poseidon (leaves ++ [leaf])
    rw [List.map_append, List.map_singleton] at hroot
    refine ⟨_, t, t', rfl, hrun, ?_, hroot ▸ hinsert, hroot ▸ hholds'.root⟩
    rw [hholds.nextIndex, List.length_map]
  · obtain ⟨h₀, -, -⟩ := Sdk.holds_new poseidon 32 rfl
    obtain ⟨t, hrun, hholds, hdepth⟩ := Sdk.insertAll_of_holds poseidon h₀ (by decide)
      leaves hpos' hleaves (by show _ ≤ 2 ^ 32; rw [List.nil_append]; omega)
      (by rw [List.nil_append, Sdk.maxArrayLength]; omega)
    rw [List.nil_append] at hholds
    have hdepth' : t.depth = 32 := hdepth
    obtain ⟨t', hinsert, hholds', -⟩ := Sdk.insert_of_holds poseidon hpos.hashes hholds
      (by omega) hL (by rw [hdepth']; omega) (by rw [Sdk.maxArrayLength]; omega)
    exact ⟨_, t, t', rfl, hrun, hholds.nextLeafIndex, hinsert, hholds'.currentRoot⟩

/-- With as many leaves as an array can hold, the SDK's mirror accepts no further one. -/
theorem not_insertsAs_of_full {leaves : List Fr} {leaf : Fr}
    (hpos : GrowsNonzero (nodeHash poseidon) 0 leaves) (hlen : leaves.length = 2 ^ 32 - 1) {index : ℕ} {root : Fr} :
    ¬ InsertsAs poseidon leaves leaf index root := by
  rintro ⟨-, -, t₀, t, t', hnew, hrun, -, hinsert, -⟩
  obtain ⟨h₀, hdepth₀, -⟩ := Sdk.holds_new poseidon _ hnew
  obtain ⟨hholds, hdepth, -, -⟩ := Sdk.holds_of_insertAll poseidon h₀ (by omega) (by simp)
    (Nat.zero_le _) hpos hrun
  rw [List.nil_append] at hholds
  obtain ⟨-, -, harr⟩ := Sdk.room_of_insert poseidon hholds (by omega) hinsert
  rw [Sdk.maxArrayLength] at harr
  omega

/-- For at most `2 ^ 32` nonzero leaves inserted one by one, the program's frontier insert and both
mirrors give each leaf the same index and return the root of the leaves so far, exactly when the
leaves are fewer than `2 ^ 32`: the last one no longer fits the SDK's leaf array. -/
theorem inserts_agree_iff (hpos : ∀ l r k, poseidon l r k ≠ 0) {leaves : List Fr}
    (hL : ∀ x ∈ leaves, x ≠ 0) (hlen : leaves.length ≤ 2 ^ 32) :
    (∀ (k : ℕ) (hk : k < leaves.length), InsertsAs poseidon (leaves.take k) leaves[k] k
        (LeanTree.root (nodeHash poseidon) 0 (leaves.take (k + 1)))) ↔ leaves.length < 2 ^ 32 := by
  have hash0 : ∀ l r k, nodeHash poseidon l r k ≠ 0 := fun l r k => hpos l r k
  have htake : ∀ k (hk : k < leaves.length), (leaves.take k).length = k := by
    intro k hk
    rw [List.length_take]
    omega
  constructor
  · intro h
    by_contra hfull
    have hlast : 2 ^ 32 - 1 < leaves.length := by omega
    exact not_insertsAs_of_full poseidon (growsNonzero_of_ne_zero hash0 _) (htake _ hlast) (h _ hlast)
  · intro hlt k hk
    have happend : leaves.take (k + 1) = leaves.take k ++ [leaves[k]] :=
      List.take_succ_eq_append_getElem hk
    have hmem : ∀ x ∈ leaves.take k ++ [leaves[k]], x ≠ 0 := by
      rw [← happend]
      exact fun x hx => hL x (List.mem_of_mem_take hx)
    have h := insertsAs_of_lt poseidon (growsNonzero_of_ne_zero hash0 _) hmem (by rw [htake k hk]; omega)
    rwa [htake k hk, ← happend] at h

/-- The root of the known-answer test after the leaves 1 and 2. -/
def katRoot2 : Fr :=
  13831821852403126897479426070347226427183075710625481252219866028995538813194

/-- The root of the known-answer test after the leaves 1, 2 and 3. -/
def katRoot3 : Fr :=
  21544593044822064879676381735871446024454618451132183038662185816027637285770

/-- Poseidon on the calls of the known-answer test with the leaves 1, 2 and 3. -/
def katPoseidon (l r k : Fr) : Fr :=
  if l = 1 ∧ r = 2 ∧ k = 0 then katRoot2
  else if l = katRoot2 ∧ r = 3 ∧ k = 1 then katRoot3
  else 1

theorem katRoot2_ne_one : katRoot2 ≠ 1 := by decide

theorem katRoot2_ne_katRoot3 : katRoot2 ≠ katRoot3 := by decide

theorem katPoseidon_ne_zero (l r k : Fr) : katPoseidon l r k ≠ 0 := by
  unfold katPoseidon
  split
  · decide
  · split <;> decide

theorem growsNonzero_kat (leaves : List Fr) : GrowsNonzero (nodeHash katPoseidon) 0 leaves :=
  growsNonzero_of_ne_zero (fun l r k => katPoseidon_ne_zero l r k) leaves

theorem nodeHash_kat_first : nodeHash katPoseidon 1 2 0 = katRoot2 := by
  simp [nodeHash, katPoseidon]

theorem nodeHash_kat_second : nodeHash katPoseidon katRoot2 3 1 = katRoot3 := by
  simp [nodeHash, katPoseidon, katRoot2_ne_one]

theorem root_kat_two : LeanTree.root (nodeHash katPoseidon) 0 [1, 2] = katRoot2 := by
  rw [root_eq_hash (t := 0) _ _ (by norm_num) (by norm_num)]
  show nodeHash katPoseidon (root _ 0 [1]) (root _ 0 [2]) 0 = katRoot2
  rw [root_singleton, root_singleton, nodeHash_kat_first]

theorem root_kat_three : LeanTree.root (nodeHash katPoseidon) 0 [1, 2, 3] = katRoot3 := by
  rw [root_eq_hash (t := 1) _ _ (by norm_num) (by norm_num)]
  show nodeHash katPoseidon (root _ 0 [1, 2]) (root _ 0 [3]) 1 = katRoot3
  rw [root_singleton, root_kat_two, nodeHash_kat_second]

theorem kat_leaves_ne_zero : ∀ x ∈ ([1, 2, 3] : List Fr), x ≠ 0 := by
  intro x hx
  simp only [List.mem_cons, List.not_mem_nil, or_false] at hx
  rcases hx with rfl | rfl | rfl <;> decide

/-- The three leaves of the known-answer test get the indices 0, 1 and 2 and its roots. -/
theorem inserts_agree_kat :
    InsertsAs katPoseidon [] 1 0 1 ∧ InsertsAs katPoseidon [1] 2 1 katRoot2 ∧
      InsertsAs katPoseidon [1, 2] 3 2 katRoot3 := by
  have h := (inserts_agree_iff katPoseidon katPoseidon_ne_zero kat_leaves_ne_zero (by norm_num)).2
    (by norm_num)
  have h0 := h 0 (by norm_num)
  have h1 := h 1 (by norm_num)
  have h2 := h 2 (by norm_num)
  simp only [List.take_succ_cons, List.take_zero, root_singleton] at h0
  simp only [List.take_succ_cons, List.take_zero, root_kat_two] at h1
  simp only [List.take_succ_cons, List.take_zero, root_kat_three] at h2
  exact ⟨h0, h1, h2⟩

/-- With `2 ^ 32` leaves the agreement fails: a constant hash and the leaf 1 throughout. -/
theorem inserts_disagree_full :
    ¬ ∀ (poseidon : Fr → Fr → Fr → Fr) (leaves : List Fr), (∀ l r k, poseidon l r k ≠ 0) →
      (∀ x ∈ leaves, x ≠ 0) → leaves.length ≤ 2 ^ 32 →
      ∀ (k : ℕ) (hk : k < leaves.length), InsertsAs poseidon (leaves.take k) leaves[k] k
        (LeanTree.root (nodeHash poseidon) 0 (leaves.take (k + 1))) := by
  intro h
  have hone : ∀ _ _ _ : Fr, (1 : Fr) ≠ 0 := fun _ _ _ => one_ne_zero
  have hash0 : ∀ l r k, nodeHash (fun _ _ _ => 1) l r k ≠ 0 := fun l r k => hone l r k
  obtain ⟨n, hn⟩ : ∃ n : ℕ, n = 2 ^ 32 := ⟨_, rfl⟩
  have hlen : (List.replicate n (1 : Fr)).length = n := List.length_replicate
  have hlast : n - 1 < (List.replicate n (1 : Fr)).length := by omega
  have hall : ∀ x ∈ List.replicate n (1 : Fr), x ≠ 0 := by
    intro x hx
    rw [List.eq_of_mem_replicate hx]
    exact one_ne_zero
  have htake : ((List.replicate n (1 : Fr)).take (n - 1)).length = 2 ^ 32 - 1 := by
    rw [List.length_take]
    omega
  exact not_insertsAs_of_full (fun _ _ _ => 1) (growsNonzero_of_ne_zero hash0 _) htake
    (h (fun _ _ _ => 1) (List.replicate n 1) hone hall (hlen.trans hn).le (n - 1) hlast)

/-! ## Paths -/

/-- The siblings of a leaf, level by level. -/
def siblingsOf (leaves : List Fr) (i : ℕ) (k : Fin 32) : Fr := path (nodeHash poseidon) 0 leaves i k

theorem ofFn_eq_map_range {α : Type*} (n : ℕ) (f : ℕ → α) :
    List.ofFn (fun k : Fin n => f k) = (List.range n).map f := by
  refine List.ext_getElem (by simp) fun i _ _ => ?_
  simp

/-- The circuit accepts the tree's own siblings and returns the root. -/
theorem inclusion_complete {leaves : List Fr} (hpos : HashesNonzero (nodeHash poseidon) 0 leaves)
    (hL : ∀ x ∈ leaves, x ≠ 0) (hlen : leaves.length ≤ 2 ^ 32) {i : ℕ} (hi : i < leaves.length) :
    leanImtInclusionProof poseidon leaves[i] (i : Fr) (siblingsOf poseidon leaves i) =
      some (LeanTree.root (nodeHash poseidon) 0 leaves) := by
  have hval : ((i : Fr)).val = i :=
    val_natCast_of_lt (lt_of_lt_of_le (by omega : i < 2 ^ 128) two_pow_128_lt_modulus.le)
  have hpath := pathNode_path (nodeHash poseidon) 0 hL hpos hi 32
  rw [Nat.div_eq_of_lt (by omega), node_top _ _ hlen] at hpath
  rw [leanImtInclusionProof_eq, hval, if_pos (by omega), ← hpath]
  refine pathNode_congr _ _ fun k hk => ?_
  rw [siblingAt, dif_pos hk, siblingsOf]

/-- For every leaf of mirrors that hold the same leaves, the indexer and the SDK give the same 32
siblings, and on them the circuit's inclusion proof and the SDK's fold return the current root of
both mirrors and of the program.  The node hashes of these trees are nonzero: the code writes zero
for an absent node. -/
theorem paths_agree {leaves : List Fr} (hL : ∀ x ∈ leaves, x ≠ 0)
    (hpos : GrowsNonzero (nodeHash poseidon) 0 leaves)
    {t₀ t : Indexer.LeanIMT} (ht₀ : Indexer.LeanIMT.new 32 = .ok t₀)
    (ht : t₀.insertAll poseidon (leaves.map ZMod.val) = .ok t)
    {s₀ s : Sdk.LeanIMT} (hs₀ : Sdk.LeanIMT.new 32 = .ok s₀)
    (hs : s₀.insertAll poseidon leaves = .ok s) {i : ℕ} (hi : i < leaves.length) :
    ∃ siblings : Fin 32 → Fr,
      t.getPath i = .ok (List.ofFn fun k => (siblings k).val) ∧
      s.getMerklePath i = .ok (List.ofFn siblings) ∧
      leanImtInclusionProof poseidon leaves[i] (i : Fr) siblings = some s.currentRoot ∧
      Sdk.foldPath poseidon leaves[i] i (List.ofFn siblings) = .ok s.currentRoot ∧
      t.root = s.currentRoot.val ∧
      ∃ pool, insertAll poseidon Pool.empty (leaves.map Fr.toBytes) =
        .ok (pool, some s.currentRoot.toBytes) := by
  obtain ⟨ht₀, htd₀⟩ := Indexer.holds_new poseidon _ ht₀
  obtain ⟨hs₀, hsd₀, -⟩ := Sdk.holds_new poseidon _ hs₀
  obtain ⟨ht, htd⟩ := Indexer.holds_of_insertAll poseidon ht₀ (by simp)
    (growsNonzero_val poseidon hpos) ht
  obtain ⟨hs, hsd, -, harr⟩ := Sdk.holds_of_insertAll poseidon hs₀ (by omega) (by simp)
    (Nat.zero_le _) hpos hs
  rw [List.nil_append] at ht hs harr
  have hlen : leaves.length ≤ 2 ^ 32 := by
    rw [Sdk.maxArrayLength] at harr
    omega
  have hroot : s.currentRoot = LeanTree.root (nodeHash poseidon) 0 leaves := hs.currentRoot
  have hcircuit := inclusion_complete poseidon hpos.hashes hL hlen hi
  refine ⟨siblingsOf poseidon leaves i, ?_, ?_, hroot ▸ hcircuit, ?_, ?_, ?_⟩
  · rw [Indexer.getPath_of_holds poseidon ht (by rwa [List.length_map]), htd, htd₀]
    unfold siblingsOf
    rw [ofFn_eq_map_range 32 fun k => (path (nodeHash poseidon) 0 leaves i k).val]
    exact congrArg Except.ok (List.map_congr_left fun k _ => indexer_path poseidon leaves i k)
  · rw [Sdk.getMerklePath_of_holds poseidon hs hi, hsd, hsd₀]
    unfold siblingsOf
    rw [ofFn_eq_map_range 32 (path (nodeHash poseidon) 0 leaves i)]
  · have hpath := pathNode_path (nodeHash poseidon) 0 hL hpos.hashes hi 32
    rw [Nat.div_eq_of_lt (by omega), node_top _ _ hlen] at hpath
    unfold siblingsOf
    rw [ofFn_eq_map_range 32 (path (nodeHash poseidon) 0 leaves i), hroot]
    exact Sdk.foldPath_eq poseidon hpath
  · rw [ht.root, indexer_root, hroot]
  · obtain ⟨pool, hrun, -⟩ := insertAll_toBytes poseidon hL hlen
    refine ⟨pool, ?_⟩
    have hne : leaves ≠ [] := by
      rintro rfl
      simp at hi
    rw [hrun, rootOf, if_neg hne, hroot]

/-- Mirrors that hold the three leaves of the known-answer test, and the path of the second one. -/
theorem paths_agree_kat :
    ∃ (t : Indexer.LeanIMT) (s : Sdk.LeanIMT) (siblings : Fin 32 → Fr),
      t.getPath 1 = .ok (List.ofFn fun k => (siblings k).val) ∧
      s.getMerklePath 1 = .ok (List.ofFn siblings) ∧
      leanImtInclusionProof katPoseidon 2 (1 : ℕ) siblings = some s.currentRoot ∧
      Sdk.foldPath katPoseidon 2 1 (List.ofFn siblings) = .ok s.currentRoot ∧
      t.root = s.currentRoot.val ∧
      ∃ pool, insertAll katPoseidon Pool.empty ([1, 2, 3].map Fr.toBytes) =
        .ok (pool, some s.currentRoot.toBytes) := by
  have hnew : Indexer.LeanIMT.new 32 = .ok ⟨32, fun _ _ => none, 0, 0⟩ := rfl
  obtain ⟨t, ht, -⟩ := Indexer.insertAll_of_holds katPoseidon
    (Indexer.holds_new katPoseidon 32 hnew).1 (([1, 2, 3] : List Fr).map ZMod.val)
    (growsNonzero_val katPoseidon (growsNonzero_kat _)) (val_ne_zero_of_mem kat_leaves_ne_zero) (by norm_num)
  have hnew' : Sdk.LeanIMT.new 32 = .ok ⟨32, fun _ => [], 0, 0⟩ := rfl
  obtain ⟨s, hs, -⟩ := Sdk.insertAll_of_holds katPoseidon
    (Sdk.holds_new katPoseidon 32 hnew').1 (by norm_num) [1, 2, 3] (growsNonzero_kat _)
    kat_leaves_ne_zero (by norm_num) (by norm_num [Sdk.maxArrayLength])
  have hi : 1 < ([1, 2, 3] : List Fr).length := by norm_num
  obtain ⟨siblings, h⟩ :=
    paths_agree katPoseidon kat_leaves_ne_zero (growsNonzero_kat _) hnew ht hnew' hs hi
  exact ⟨t, s, siblings, h⟩

/-! ## Soundness of the inclusion proof -/

/-- The hash calls of the tree over the canonical ones of these leaves, and of one inclusion proof. -/
def inclusionCalls (leaves : List (Bytes 32)) (leaf leafIndex : Fr) (siblings : Fin 32 → Fr) :
    Set (Fr × Fr × ℕ) :=
  treeQueries (nodeHash poseidon) 0 (leaves.filterMap Fr.ofBytes?) ∪
    pathQueries (nodeHash poseidon) 0 32 (siblingAt siblings) leafIndex.val leaf

theorem filterMap_ofBytes?_toBytes (xs : List Fr) : (xs.map Fr.toBytes).filterMap Fr.ofBytes? = xs := by
  induction xs with
  | nil => rfl
  | cons x xs ih => rw [List.map_cons, List.filterMap_cons_some (ofBytes?_toBytes x), ih]

/-- Whatever leaf, index and siblings the circuit folds to the root of the inserted leaves, the index
is that of an inserted leaf and the leaf is the one inserted there, unless two calls of the node
hash collide or a leaf is itself the output of one. -/
theorem inclusion_sound {leaves : List (Bytes 32)} {pool : Pool} {root : Fr}
    (hrun : insertAll poseidon Pool.empty leaves = .ok (pool, some root.toBytes))
    {leaf leafIndex : Fr} {siblings : Fin 32 → Fr}
    (hproof : leanImtInclusionProof poseidon leaf leafIndex siblings = some root)
    (hinj : Set.InjOn (fun q : Fr × Fr × ℕ => nodeHash poseidon q.1 q.2.1 q.2.2)
      (inclusionCalls poseidon leaves leaf leafIndex siblings))
    (hleaf : ∀ y ∈ leaf :: leaves.filterMap Fr.ofBytes?,
      ∀ q ∈ inclusionCalls poseidon leaves leaf leafIndex siblings,
        y ≠ nodeHash poseidon q.1 q.2.1 q.2.2) :
    leafIndex.val < leaves.length ∧ leaves[leafIndex.val]? = some leaf.toBytes := by
  rw [leanImtInclusionProof_eq] at hproof
  split at hproof
  · rename_i hindex
    rcases insertAll_cases poseidon hrun with ⟨xs, rfl, hlen, -, hroot⟩ | ⟨first, -, hfirst, -, hroot⟩
    · have hne : xs ≠ [] := by
        rintro rfl
        cases hroot
      rw [rootOf, if_neg hne, Option.some_inj] at hroot
      rw [toBytes_injective hroot] at hproof
      unfold inclusionCalls at hinj hleaf
      rw [filterMap_ofBytes?_toBytes] at hinj hleaf
      obtain ⟨hi, hget⟩ := path_sound (nodeHash poseidon) 0 hne hlen hindex hinj hleaf hproof
      refine ⟨by rwa [List.length_map], ?_⟩
      rw [List.getElem?_map, hget, Option.map_some]
    · -- a root that is not canonical is no field element
      rw [Option.some_inj] at hroot
      exact absurd (hroot ▸ canonical_toBytes root) hfirst
  · cases hproof

/-- The calls of the known-answer tree. -/
theorem mem_treeQueries_kat {q : Fr × Fr × ℕ}
    (h : q ∈ treeQueries (nodeHash katPoseidon) 0 ([1, 2, 3] : List Fr)) :
    q = (1, 2, 0) ∨
      q = (katRoot2, 3, 1) := by
  obtain ⟨level, j, hlt, rfl⟩ := h
  have hlen : ([1, 2, 3] : List Fr).length = 3 := rfl
  have hpow := Nat.lt_two_pow_self (n := level)
  have hlevel : level < 2 := by
    by_contra hge
    have : 2 ^ 2 ≤ 2 ^ level := Nat.pow_le_pow_right (by omega) (not_lt.1 hge)
    nlinarith
  have hj : j = 0 := by
    by_contra hne
    have : 1 ≤ 2 ^ level := Nat.one_le_two_pow
    have : 1 ≤ j := Nat.one_le_iff_ne_zero.2 hne
    nlinarith
  subst hj
  obtain rfl | rfl : level = 0 ∨ level = 1 := by omega
  · left
    simp [node]
  · right
    simp [node, nodeHash, katPoseidon]

/-- The second leaf of the known-answer test, opened with the tree's own siblings. -/
theorem inclusion_sound_kat :
    ∃ pool root, insertAll katPoseidon Pool.empty (([1, 2, 3] : List Fr).map Fr.toBytes) =
        .ok (pool, some root) ∧
      ((1 : ℕ) : Fr).val < (([1, 2, 3] : List Fr).map Fr.toBytes).length ∧
      (([1, 2, 3] : List Fr).map Fr.toBytes)[((1 : ℕ) : Fr).val]? = some (2 : Fr).toBytes := by
  obtain ⟨pool, hrun, -⟩ := insertAll_toBytes katPoseidon kat_leaves_ne_zero (by norm_num)
  rw [rootOf, if_neg (by simp)] at hrun
  have hproof := inclusion_complete katPoseidon (growsNonzero_kat _).hashes kat_leaves_ne_zero (by norm_num)
    (i := 1) (by norm_num)
  have hval : ((1 : ℕ) : Fr).val = 1 :=
    val_natCast_of_lt (lt_trans (by norm_num) two_pow_128_lt_modulus)
  have hcalls : ∀ q ∈ inclusionCalls katPoseidon (([1, 2, 3] : List Fr).map Fr.toBytes) 2 (1 : ℕ)
      (siblingsOf katPoseidon [1, 2, 3] 1), q = (1, 2, 0) ∨
        q = (katRoot2, 3, 1) := by
    intro q hq
    unfold inclusionCalls at hq
    rw [filterMap_ofBytes?_toBytes, hval] at hq
    refine mem_treeQueries_kat (hq.elim id fun hpath => ?_)
    refine pathQueries_path_subset (nodeHash katPoseidon) 0 kat_leaves_ne_zero
      (growsNonzero_kat _).hashes (i := 1) (by norm_num) 32 ?_
    have hsib : ∀ k < 32, siblingAt (siblingsOf katPoseidon [1, 2, 3] 1) k =
        path (nodeHash katPoseidon) 0 [1, 2, 3] 1 k := fun k hk => dif_pos hk
    exact pathQueries_subset_of_eq _ _ hsib hpath
  refine ⟨pool, _, hrun, inclusion_sound katPoseidon hrun hproof ?_ ?_⟩
  · -- the two calls have different values
    intro q hq q' hq' h
    rcases hcalls q hq with rfl | rfl <;> rcases hcalls q' hq' with rfl | rfl
    · rfl
    · exact absurd (nodeHash_kat_first.symm.trans (h.trans nodeHash_kat_second)) katRoot2_ne_katRoot3
    · exact absurd (nodeHash_kat_first.symm.trans (h.symm.trans nodeHash_kat_second)) katRoot2_ne_katRoot3
    · rfl
  · intro y hy q hq
    rw [filterMap_ofBytes?_toBytes] at hy
    change y ∈ ([2, 1, 2, 3] : List Fr) at hy
    simp only [List.mem_cons, List.not_mem_nil, or_false] at hy
    rcases hcalls q hq with rfl | rfl
    · rw [nodeHash_kat_first]
      rcases hy with rfl | rfl | rfl | rfl <;> decide
    · rw [nodeHash_kat_second]
      rcases hy with rfl | rfl | rfl | rfl <;> decide

end Kakure
