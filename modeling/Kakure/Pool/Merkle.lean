import Kakure.Lib.LeanTree
import Kakure.Pool.State

/-!
# The on-chain frontier insert

`merkle.rs`: `hash3` is the Poseidon v1 syscall, which refuses an input that is not
a canonical field element, and `insert` walks the 32 levels of the frontier kept in
the pool account.  Poseidon itself is a parameter.

* `TreeState` — the pool's tree fields stand for a list of canonical leaves;
* `insert_of_treeState` — on such a pool every nonzero canonical leaf is accepted,
  the returned root is the root of the extended list and the rest of the account is
  untouched;
* `canonical_of_insert` — and nothing else is accepted after the first leaf;
* `Stuck` — a pool whose first leaf was not canonical refuses every further leaf.
-/

namespace Kakure

open Slices LeanTree

variable (poseidon : Fr → Fr → Fr → Fr)

/-- `merkle::hash3`: fails exactly when an input is not a canonical field element. -/
def hash3 (left right : Bytes 32) (level : ℕ) : Except ProgramError (Bytes 32) :=
  match Fr.ofBytes? left, Fr.ofBytes? right with
  | some l, some r => .ok (nodeHash poseidon l r level).toBytes
  | _, _ => .error PoolError.invalidLeaf.into

@[simp] theorem hash3_toBytes (l r : Fr) (level : ℕ) :
    hash3 poseidon l.toBytes r.toBytes level = .ok (nodeHash poseidon l r level).toBytes := by
  simp [hash3]

theorem hash3_isOk_iff {left right : Bytes 32} {level : ℕ} :
    (∃ h, hash3 poseidon left right level = .ok h) ↔ Canonical left ∧ Canonical right := by
  constructor
  · rintro ⟨h, hh⟩
    unfold hash3 at hh
    split at hh
    · rename_i l r hl hr
      exact ⟨ofBytes?_eq_some_iff.1 hl ▸ canonical_toBytes l, ofBytes?_eq_some_iff.1 hr ▸ canonical_toBytes r⟩
    · cases hh
  · rintro ⟨hl, hr⟩
    obtain ⟨l, rfl⟩ := hl.exists_toBytes
    obtain ⟨r, rfl⟩ := hr.exists_toBytes
    exact ⟨_, hash3_toBytes poseidon l r level⟩

/-- The loop of `insert` over the remaining levels. -/
def insertLevels : List (Fin 32) → Pool → Bytes 32 → ℕ → Except ProgramError (Pool × Bytes 32)
  | [], pool, node, _ => .ok (pool, node)
  | level :: levels, pool, node, index =>
    if index % 2 = 0 then
      if index = 0 then .ok (pool.setSideNode level node, node)
      else insertLevels levels (pool.setSideNode level node) node (index / 2)
    else
      match hash3 poseidon (pool.sideNode level) node level with
      | .ok node' => insertLevels levels pool node' (index / 2)
      | .error e => .error e

/-- `merkle::insert`: the new account, the leaf's index and the new root. -/
def insert (pool : Pool) (leaf : Bytes 32) : Except ProgramError (Pool × ℕ × Bytes 32) :=
  if leaf = Bytes.zero 32 then .error PoolError.invalidLeaf.into
  else if pool.nextLeafIndex ≥ 2 ^ treeDepth then .error .invalidAccountData
  else
    match insertLevels poseidon (List.finRange 32) pool leaf pool.nextLeafIndex with
    | .ok (pool', node) =>
      .ok ((pool'.setNextLeafIndex (pool.nextLeafIndex + 1)).pushRoot node, pool.nextLeafIndex, node)
    | .error e => .error e

/-- What a successful insert has checked and done. -/
theorem insert_eq_ok {pool p : Pool} {leaf root : Bytes 32} {index : ℕ}
    (h : insert poseidon pool leaf = .ok (p, index, root)) :
    leaf ≠ Bytes.zero 32 ∧ pool.nextLeafIndex < 2 ^ 32 ∧ index = pool.nextLeafIndex ∧
      ∃ q, insertLevels poseidon (List.finRange 32) pool leaf pool.nextLeafIndex = .ok (q, root) ∧
        p = (q.setNextLeafIndex (pool.nextLeafIndex + 1)).pushRoot root := by
  unfold insert at h
  split at h
  · cases h
  · rename_i hleaf
    split at h
    · cases h
    · rename_i hcap
      split at h
      · rename_i q node hq
        cases h
        exact ⟨hleaf, not_le.1 hcap, rfl, q, hq, rfl⟩
      · cases h

/-! ## Frame -/

/-- The walk writes side nodes only. -/
theorem get_insertLevels {levels : List (Fin 32)} {pool q : Pool} {node root : Bytes 32} {index : ℕ}
    (h : insertLevels poseidon levels pool node index = .ok (q, root)) {f : PoolField}
    (hf : ∀ level, f ≠ .sideNode level) : q.get f = pool.get f := by
  induction levels generalizing pool node index with
  | nil => cases h; rfl
  | cons level levels ih =>
    unfold insertLevels at h
    split at h
    · split at h
      · cases h
        exact Pool.get_set_of_ne _ _ (hf level)
      · rw [ih h]
        exact Pool.get_set_of_ne _ _ (hf level)
    · split at h
      · exact ih h
      · cases h

/-- An insert leaves every field outside the tree alone. -/
theorem get_insert_of_not_tree {pool p : Pool} {leaf root : Bytes 32} {index : ℕ}
    (h : insert poseidon pool leaf = .ok (p, index, root)) {f : PoolField} (hf : f.isTree = false) :
    p.get f = pool.get f := by
  obtain ⟨-, -, -, q, hq, rfl⟩ := insert_eq_ok poseidon h
  have hcur : f ≠ .rootCursor := by rintro rfl; cases hf
  have hroot : ∀ idx, f ≠ .root idx := by rintro idx rfl; cases hf
  have hnext : f ≠ .nextLeafIndex := by rintro rfl; cases hf
  have hside : ∀ level, f ≠ .sideNode level := by rintro level rfl; cases hf
  rw [Pool.get_pushRoot_of_not_ring _ _ hcur hroot, ← get_insertLevels poseidon hq hside]
  exact Pool.get_set_of_ne _ _ hnext

/-- An insert advances the leaf count by one. -/
theorem nextLeafIndex_insert {pool p : Pool} {leaf root : Bytes 32} {index : ℕ}
    (h : insert poseidon pool leaf = .ok (p, index, root)) :
    p.nextLeafIndex = pool.nextLeafIndex + 1 := by
  obtain ⟨-, hlt, -, q, -, rfl⟩ := insert_eq_ok poseidon h
  unfold Pool.nextLeafIndex
  rw [Pool.get_pushRoot_of_not_ring _ _ (by simp) (by simp)]
  unfold Pool.setNextLeafIndex
  rw [Pool.get_set_same]
  refine leNat_leBytes 8 _ ?_
  rw [Pool.nextLeafIndex] at hlt
  omega

/-- An insert pushes the root it returns. -/
theorem rootAt_insert {pool p : Pool} {leaf root : Bytes 32} {index : ℕ}
    (h : insert poseidon pool leaf = .ok (p, index, root)) (idx : UInt8) :
    p.rootAt idx = if idx = pool.rootCursor then root else pool.rootAt idx := by
  obtain ⟨-, -, -, q, hq, rfl⟩ := insert_eq_ok poseidon h
  have hcur : (q.setNextLeafIndex (pool.nextLeafIndex + 1)).rootCursor = pool.rootCursor := by
    unfold Pool.rootCursor Pool.setNextLeafIndex
    rw [Pool.get_set_of_ne _ _ (by simp), get_insertLevels poseidon hq (by simp)]
  have hroot : (q.setNextLeafIndex (pool.nextLeafIndex + 1)).rootAt idx = pool.rootAt idx := by
    unfold Pool.rootAt Pool.setNextLeafIndex
    rw [Pool.get_set_of_ne _ _ (by simp), get_insertLevels poseidon hq (by simp)]
  rw [Pool.rootAt_pushRoot, hcur, hroot]

theorem rootCursor_insert {pool p : Pool} {leaf root : Bytes 32} {index : ℕ}
    (h : insert poseidon pool leaf = .ok (p, index, root)) : p.rootCursor = pool.rootCursor + 1 := by
  obtain ⟨-, -, -, q, hq, rfl⟩ := insert_eq_ok poseidon h
  rw [Pool.rootCursor_pushRoot]
  unfold Pool.rootCursor Pool.setNextLeafIndex
  rw [Pool.get_set_of_ne _ _ (by simp), get_insertLevels poseidon hq (by simp)]

/-! ## The tree a pool stands for -/

/-- The pool's tree fields stand for this list of leaves: the count is right, every side node is
canonical, and the ones the next insert reads are the complete nodes of the tree. -/
structure TreeState (pool : Pool) (leaves : List Fr) : Prop where
  nextLeafIndex : pool.nextLeafIndex = leaves.length
  frontier : ∃ side : ℕ → Fr, (∀ level : Fin 32, pool.sideNode level = (side level).toBytes) ∧
    Frontier (nodeHash poseidon) 0 treeDepth leaves side

/-- On canonical side nodes the program's walk is the frontier walk on field elements. -/
theorem insertLevels_eq_climb (fuel level : ℕ) (hd : fuel + level = 32) (pool : Pool)
    (side : ℕ → Fr) (hside : ∀ l : Fin 32, pool.sideNode l = (side l).toBytes) (x : Fr) (index : ℕ) :
    ∃ q, insertLevels poseidon ((List.finRange 32).drop level) pool x.toBytes index =
        .ok (q, (climb (nodeHash poseidon) side fuel level index x).2.toBytes) ∧
      ∀ l : Fin 32, q.sideNode l = ((climb (nodeHash poseidon) side fuel level index x).1 l).toBytes := by
  induction fuel generalizing level pool side x index with
  | zero =>
    obtain rfl : level = 32 := by omega
    exact ⟨pool, rfl, hside⟩
  | succ fuel ih =>
    have hlt : level < 32 := by omega
    have hcons : (List.finRange 32).drop level =
        ⟨level, hlt⟩ :: (List.finRange 32).drop (level + 1) := by
      rw [List.drop_eq_getElem_cons (by simpa using hlt), List.getElem_finRange]
      rfl
    rw [hcons, insertLevels, climb]
    -- the program and the frontier write the same side node
    have hwrite : ∀ l : Fin 32, (pool.setSideNode ⟨level, hlt⟩ x.toBytes).sideNode l =
        (Function.update side level x l).toBytes := by
      intro l
      unfold Pool.sideNode Pool.setSideNode
      by_cases hl : l = ⟨level, hlt⟩
      · subst hl
        rw [Function.update_self]
        exact Pool.get_set_same _ _ _
      · have hne : (l : ℕ) ≠ level := fun h => hl (Fin.ext h)
        rw [Function.update_of_ne hne]
        exact (Pool.get_set_of_ne _ _ (by simpa using hl)).trans (hside l)
    split
    · split
      · exact ⟨_, rfl, hwrite⟩
      · exact ih (level + 1) (by omega) _ _ hwrite x (index / 2)
    · rw [hside ⟨level, hlt⟩, hash3_toBytes]
      exact ih (level + 1) (by omega) pool side hside _ (index / 2)

/-- Every nonzero canonical leaf is accepted while there is room, and the returned root is the
root of the extended list. -/
theorem insert_of_treeState {pool : Pool} {leaves : List Fr} (h : TreeState poseidon pool leaves)
    {x : Fr} (hx : x ≠ 0) (hlt : leaves.length < 2 ^ 32) :
    ∃ p, insert poseidon pool x.toBytes =
        .ok (p, leaves.length, (root (nodeHash poseidon) 0 (leaves ++ [x])).toBytes) ∧
      TreeState poseidon p (leaves ++ [x]) := by
  obtain ⟨hnext, side, hside, hfront⟩ := h
  obtain ⟨q, hq, hqside⟩ := insertLevels_eq_climb poseidon 32 0 rfl pool side hside x leaves.length
  obtain ⟨hfront', hroot⟩ := climb_spec (nodeHash poseidon) 0 (x := x) hlt hfront
  have hok : insert poseidon pool x.toBytes =
      .ok ((q.setNextLeafIndex (leaves.length + 1)).pushRoot
        (root (nodeHash poseidon) 0 (leaves ++ [x])).toBytes, leaves.length,
        (root (nodeHash poseidon) 0 (leaves ++ [x])).toBytes) := by
    unfold insert
    have hcap : ¬ leaves.length ≥ 2 ^ treeDepth := not_le.2 hlt
    rw [if_neg (by rwa [toBytes_eq_zero_iff]), hnext, if_neg hcap]
    rw [List.drop_zero] at hq
    rw [hq, ← hroot]
  refine ⟨_, hok, ?_, _, fun level => ?_, hfront'⟩
  · rw [nextLeafIndex_insert poseidon hok, hnext, List.length_append, List.length_singleton]
  · rw [← hqside level]
    unfold Pool.sideNode Pool.setNextLeafIndex
    rw [Pool.get_pushRoot_of_not_ring _ _ (by simp) (by simp)]
    exact Pool.get_set_of_ne _ _ (by simp)

/-- Along the walk a node that is not canonical survives to the next hash, which refuses it. -/
theorem canonical_of_insertLevels {levels : List (Fin 32)} {pool q : Pool} {node root : Bytes 32}
    {index : ℕ} (h : insertLevels poseidon levels pool node index = .ok (q, root))
    (hpos : 0 < index) (hlt : index < 2 ^ levels.length) : Canonical node := by
  induction levels generalizing pool index with
  | nil => simp at hlt; omega
  | cons level levels ih =>
    unfold insertLevels at h
    rw [List.length_cons, pow_succ] at hlt
    split at h
    · rw [if_neg (by omega)] at h
      exact ih h (by omega) (by omega)
    · split at h
      · rename_i node' hnode
        exact ((hash3_isOk_iff poseidon).1 ⟨_, hnode⟩).2
      · cases h

/-- After the first leaf only canonical leaves are accepted. -/
theorem canonical_of_insert {pool p : Pool} {leaf root : Bytes 32} {index : ℕ}
    (h : insert poseidon pool leaf = .ok (p, index, root)) (hpos : 0 < pool.nextLeafIndex) :
    Canonical leaf := by
  obtain ⟨-, hlt, -, q, hq, -⟩ := insert_eq_ok poseidon h
  exact canonical_of_insertLevels poseidon hq hpos (by simpa using hlt)

/-- A successful insert into a pool that stands for some leaves extends them, unless it is a
first leaf that is not canonical. -/
theorem treeState_insert {pool p : Pool} {leaves : List Fr} {leaf root : Bytes 32} {index : ℕ}
    (hs : TreeState poseidon pool leaves) (h : insert poseidon pool leaf = .ok (p, index, root))
    (hleaf : Canonical leaf) :
    ∃ x, leaf = x.toBytes ∧ x ≠ 0 ∧ leaves.length < 2 ^ 32 ∧ index = leaves.length ∧
      root = (LeanTree.root (nodeHash poseidon) 0 (leaves ++ [x])).toBytes ∧
      TreeState poseidon p (leaves ++ [x]) := by
  obtain ⟨hne, hlt, -⟩ := insert_eq_ok poseidon h
  obtain ⟨x, rfl⟩ := hleaf.exists_toBytes
  have hx : x ≠ 0 := fun h0 => hne ((toBytes_eq_zero_iff x).2 h0)
  rw [hs.nextLeafIndex] at hlt
  obtain ⟨p', hp', hs'⟩ := insert_of_treeState poseidon hs hx hlt
  rw [h, Except.ok.injEq, Prod.mk.injEq, Prod.mk.injEq] at hp'
  obtain ⟨rfl, rfl, rfl⟩ := hp'
  exact ⟨x, rfl, hx, hlt, rfl, rfl, hs'⟩

/-! ## A first leaf that is not canonical -/

/-- One leaf is in the tree, and it is not a canonical field element. -/
structure Stuck (pool : Pool) : Prop where
  nextLeafIndex : pool.nextLeafIndex = 1
  sideNode : ¬ Canonical (pool.sideNode 0)

/-- No further leaf is accepted: index 1 hashes the first leaf. -/
theorem Stuck.insert_ne_ok {pool : Pool} (h : Stuck pool) (leaf : Bytes 32)
    (out : Pool × ℕ × Bytes 32) : insert poseidon pool leaf ≠ .ok out := by
  intro hok
  obtain ⟨-, -, -, q, hq, -⟩ := insert_eq_ok poseidon hok
  rw [h.nextLeafIndex, List.finRange_succ, insertLevels] at hq
  split at hq
  · rename_i hodd
    cases hodd
  · split at hq
    · rename_i node' hnode
      exact h.sideNode ((hash3_isOk_iff poseidon).1 ⟨_, hnode⟩).1
    · cases hq

/-- A first leaf that is not canonical is accepted, is the root, and leaves the pool stuck. -/
theorem stuck_of_insert {pool p : Pool} {leaf root : Bytes 32} {index : ℕ}
    (h : insert poseidon pool leaf = .ok (p, index, root)) (hnext : pool.nextLeafIndex = 0)
    (hleaf : ¬ Canonical leaf) : root = leaf ∧ Stuck p := by
  have hcount : p.nextLeafIndex = 1 := by rw [nextLeafIndex_insert poseidon h, hnext]
  obtain ⟨-, -, -, q, hq, rfl⟩ := insert_eq_ok poseidon h
  rw [hnext, List.finRange_succ, insertLevels, if_pos rfl, if_pos rfl] at hq
  cases hq
  refine ⟨rfl, hcount, ?_⟩
  unfold Pool.sideNode Pool.setNextLeafIndex
  rw [Pool.get_pushRoot_of_not_ring _ _ (by simp) (by simp), Pool.get_set_of_ne _ _ (by simp)]
  unfold Pool.setSideNode
  rw [Pool.get_set_same]
  exact hleaf

/-! ## Only the tree fields matter -/

/-- Two pools with the same tree fields. -/
def SameTree (p q : Pool) : Prop := ∀ f : PoolField, f.isTree = true → p.get f = q.get f

theorem SameTree.refl (p : Pool) : SameTree p p := fun _ _ => rfl

theorem SameTree.symm {p q : Pool} (h : SameTree p q) : SameTree q p := fun f hf => (h f hf).symm

theorem SameTree.trans {p q r : Pool} (h : SameTree p q) (h' : SameTree q r) : SameTree p r :=
  fun f hf => (h f hf).trans (h' f hf)

/-- The same write to two such pools. -/
theorem SameTree.set {p q : Pool} (h : SameTree p q) (f : PoolField) (v : Bytes f.width) :
    SameTree (p.set f v) (q.set f v) := by
  intro g hg
  by_cases hgf : g = f
  · subst hgf
    rw [Pool.get_set_same, Pool.get_set_same]
  · rw [Pool.get_set_of_ne _ _ hgf, Pool.get_set_of_ne _ _ hgf]
    exact h g hg

/-- A write outside the tree. -/
theorem sameTree_set (p : Pool) {f : PoolField} (v : Bytes f.width) (hf : f.isTree = false) :
    SameTree p (p.set f v) := by
  intro g hg
  refine (Pool.get_set_of_ne _ _ ?_).symm
  rintro rfl
  rw [hf] at hg
  cases hg

theorem SameTree.pushRoot {p q : Pool} (h : SameTree p q) (root : Bytes 32) :
    SameTree (p.pushRoot root) (q.pushRoot root) := by
  have hcursor : p.rootCursor = q.rootCursor := by
    unfold Pool.rootCursor
    rw [h .rootCursor rfl]
  unfold Pool.pushRoot
  rw [hcursor]
  exact (h.set _ _).set _ _

theorem insertLevels_congr {levels : List (Fin 32)} {p q p' : Pool} {node root : Bytes 32}
    {index : ℕ} (hpq : SameTree p q)
    (h : insertLevels poseidon levels p node index = .ok (p', root)) :
    ∃ q', insertLevels poseidon levels q node index = .ok (q', root) ∧ SameTree p' q' := by
  induction levels generalizing p q node index with
  | nil =>
    cases h
    exact ⟨q, rfl, hpq⟩
  | cons level levels ih =>
    unfold insertLevels at h ⊢
    have hside : p.sideNode level = q.sideNode level := hpq (.sideNode level) rfl
    split at h
    · rename_i heven
      rw [if_pos heven]
      split at h
      · rename_i hzero
        cases h
        rw [if_pos hzero]
        exact ⟨_, rfl, hpq.set _ _⟩
      · rename_i hzero
        rw [if_neg hzero]
        exact ih (hpq.set _ _) h
    · rename_i hodd
      rw [if_neg hodd, ← hside]
      split at h
      · rename_i node' hnode
        exact ih hpq h
      · cases h

/-- An insert reads and writes the tree fields only. -/
theorem insert_congr {p q p' : Pool} {leaf root : Bytes 32} {index : ℕ} (hpq : SameTree p q)
    (h : insert poseidon p leaf = .ok (p', index, root)) :
    ∃ q', insert poseidon q leaf = .ok (q', index, root) ∧ SameTree p' q' := by
  obtain ⟨hne, hlt, rfl, p₁, hp₁, rfl⟩ := insert_eq_ok poseidon h
  have hnext : p.nextLeafIndex = q.nextLeafIndex := by
    unfold Pool.nextLeafIndex
    rw [hpq .nextLeafIndex rfl]
  obtain ⟨q₁, hq₁, hsame⟩ := insertLevels_congr poseidon hpq hp₁
  have hcap : ¬ q.nextLeafIndex ≥ 2 ^ treeDepth := by
    rw [← hnext]
    exact not_le.2 hlt
  refine ⟨(q₁.setNextLeafIndex (q.nextLeafIndex + 1)).pushRoot root, ?_, ?_⟩
  · unfold insert
    rw [if_neg hne, if_neg hcap, ← hnext, hq₁]
  · rw [hnext]
    exact (hsame.set _ _).pushRoot root

/-- A pool with the same tree fields stands for the same leaves. -/
theorem TreeState.congr {p q : Pool} {leaves : List Fr} (h : TreeState poseidon p leaves)
    (hpq : SameTree p q) : TreeState poseidon q leaves := by
  obtain ⟨hnext, side, hside, hfront⟩ := h
  refine ⟨?_, side, fun level => ?_, hfront⟩
  · rw [← hnext]
    unfold Pool.nextLeafIndex
    rw [hpq .nextLeafIndex rfl]
  · rw [← hside level]
    exact (hpq (.sideNode level) rfl).symm

theorem Stuck.congr {p q : Pool} (h : Stuck p) (hpq : SameTree p q) : Stuck q where
  nextLeafIndex := by
    rw [← h.nextLeafIndex]
    unfold Pool.nextLeafIndex
    rw [hpq .nextLeafIndex rfl]
  sideNode := by
    have := h.sideNode
    rwa [Pool.sideNode, hpq (.sideNode 0) rfl] at this

/-! ## Runs of inserts -/

/-- A fresh account stands for the empty tree. -/
theorem treeState_empty : TreeState poseidon Pool.empty [] where
  nextLeafIndex := by
    unfold Pool.nextLeafIndex
    rw [Pool.get_empty]
    exact leNat_replicate_zero 8
  frontier := by
    refine ⟨fun _ => 0, fun level => ?_, frontier_nil _ _ _ _⟩
    unfold Pool.sideNode
    rw [Pool.get_empty]
    exact ((toBytes_eq_zero_iff 0).2 rfl).symm

/-- One `insert` after the other, with the root the last one returned. -/
def insertAll (pool : Pool) (leaves : List (Bytes 32)) :
    Except ProgramError (Pool × Option (Bytes 32)) :=
  leaves.foldlM (fun s leaf => (insert poseidon s.1 leaf).map fun r => (r.1, some r.2.2)) (pool, none)

theorem insertAll_append_singleton (pool : Pool) (leaves : List (Bytes 32)) (leaf : Bytes 32) :
    insertAll poseidon pool (leaves ++ [leaf]) =
      (insertAll poseidon pool leaves).bind fun s =>
        (insert poseidon s.1 leaf).map fun r => (r.1, some r.2.2) := by
  unfold insertAll
  rw [List.foldlM_append]
  refine congrArg _ (funext fun s => ?_)
  rw [List.foldlM_cons]
  simp only [List.foldlM_nil, bind_pure]

/-- A run that ends with an insert is a run followed by that insert. -/
theorem insertAll_append_eq_ok {pool p : Pool} {leaves : List (Bytes 32)} {leaf : Bytes 32}
    {out : Option (Bytes 32)} (h : insertAll poseidon pool (leaves ++ [leaf]) = .ok (p, out)) :
    ∃ q out', insertAll poseidon pool leaves = .ok (q, out') ∧
      ∃ index root, insert poseidon q leaf = .ok (p, index, root) ∧ out = some root := by
  rw [insertAll_append_singleton] at h
  cases hrun : insertAll poseidon pool leaves with
  | error e =>
    rw [hrun] at h
    cases h
  | ok s =>
    obtain ⟨q, out'⟩ := s
    rw [hrun] at h
    change (insert poseidon q leaf).map _ = _ at h
    cases hins : insert poseidon q leaf with
    | error e =>
      rw [hins] at h
      cases h
    | ok r =>
      obtain ⟨p', index, root⟩ := r
      rw [hins] at h
      cases h
      exact ⟨q, out', rfl, index, root, hins, rfl⟩

theorem insertAll_append_of_ok {pool q p : Pool} {leaves : List (Bytes 32)} {leaf root : Bytes 32}
    {out : Option (Bytes 32)} {index : ℕ} (hrun : insertAll poseidon pool leaves = .ok (q, out))
    (hins : insert poseidon q leaf = .ok (p, index, root)) :
    insertAll poseidon pool (leaves ++ [leaf]) = .ok (p, some root) := by
  rw [insertAll_append_singleton, hrun]
  show (insert poseidon q leaf).map _ = _
  rw [hins]
  rfl

/-- A run of inserts advances the leaf count by its length. -/
theorem nextLeafIndex_insertAll {pool p : Pool} {leaves : List (Bytes 32)} {out : Option (Bytes 32)}
    (h : insertAll poseidon pool leaves = .ok (p, out)) :
    p.nextLeafIndex = pool.nextLeafIndex + leaves.length := by
  induction leaves using List.reverseRecOn generalizing p out with
  | nil =>
    cases h
    rfl
  | append_singleton leaves leaf ih =>
    obtain ⟨q, out', hrun, index, root, hins, -⟩ := insertAll_append_eq_ok poseidon h
    rw [nextLeafIndex_insert poseidon hins, ih hrun, List.length_append, List.length_singleton,
      Nat.add_assoc]

/-- The root of a leaf list, if it has one. -/
def rootOf (leaves : List Fr) : Option (Bytes 32) :=
  if leaves = [] then none else some (LeanTree.root (nodeHash poseidon) 0 leaves).toBytes

/-- Every sequence of nonzero canonical leaves that fits is accepted. -/
theorem insertAll_toBytes {leaves : List Fr} (hL : ∀ x ∈ leaves, x ≠ 0)
    (hlen : leaves.length ≤ 2 ^ 32) :
    ∃ pool, insertAll poseidon Pool.empty (leaves.map Fr.toBytes) = .ok (pool, rootOf poseidon leaves) ∧
      TreeState poseidon pool leaves := by
  induction leaves using List.reverseRecOn with
  | nil => exact ⟨Pool.empty, rfl, treeState_empty poseidon⟩
  | append_singleton leaves x ih =>
    rw [List.length_append, List.length_singleton] at hlen
    obtain ⟨pool, hrun, hstate⟩ := ih (fun y hy => hL y (List.mem_append_left _ hy)) (by omega)
    obtain ⟨p, hp, hp'⟩ := insert_of_treeState poseidon hstate (hL x (by simp)) (by omega)
    refine ⟨p, ?_, hp'⟩
    rw [List.map_append, List.map_singleton, insertAll_append_of_ok poseidon hrun hp, rootOf,
      if_neg (by simp)]

/-- Whatever a run of inserts into a fresh account accepts is a sequence of nonzero canonical
leaves, or a single leaf that is not canonical. -/
theorem insertAll_cases {leaves : List (Bytes 32)} {pool : Pool} {out : Option (Bytes 32)}
    (h : insertAll poseidon Pool.empty leaves = .ok (pool, out)) :
    (∃ xs : List Fr, leaves = xs.map Fr.toBytes ∧ xs.length ≤ 2 ^ 32 ∧ TreeState poseidon pool xs ∧
        out = rootOf poseidon xs) ∨
      ∃ leaf, leaves = [leaf] ∧ ¬ Canonical leaf ∧ Stuck pool ∧ out = some leaf := by
  induction leaves using List.reverseRecOn generalizing pool out with
  | nil =>
    cases h
    exact Or.inl ⟨[], rfl, Nat.zero_le _, treeState_empty poseidon, rfl⟩
  | append_singleton leaves leaf ih =>
    obtain ⟨pool₀, out₀, hrun, index, root, hins, rfl⟩ := insertAll_append_eq_ok poseidon h
    rcases ih hrun with ⟨xs, rfl, -, hstate, -⟩ | ⟨first, -, -, hstuck, -⟩
    · by_cases hleaf : Canonical leaf
      · obtain ⟨x, rfl, -, hlt, -, hroot, hstate'⟩ := treeState_insert poseidon hstate hins hleaf
        refine Or.inl ⟨xs ++ [x], by simp, by simpa using hlt, hstate', ?_⟩
        rw [rootOf, if_neg (by simp), hroot]
      · -- only a first leaf may fail to be canonical
        have hzero : pool₀.nextLeafIndex = 0 := by
          by_contra hpos
          exact hleaf (canonical_of_insert poseidon hins (Nat.pos_of_ne_zero hpos))
        obtain ⟨hroot, hstuck⟩ := stuck_of_insert poseidon hins hzero hleaf
        rw [hstate.nextLeafIndex, List.length_eq_zero_iff] at hzero
        subst hzero
        exact Or.inr ⟨leaf, rfl, hleaf, hstuck, by rw [hroot]⟩
    · exact absurd hins (hstuck.insert_ne_ok poseidon leaf _)

end Kakure
