import Kakure.Lib.Traverse
import Kakure.Tx.Mint

/-!
# Tracing notes

`threshold/chainTrace.ts`: from a note to the notes made of it, and back.  The tracer opens notes with a hook for the
decryption and reads leaves, spent nullifiers and their outputs from a chain state; it trusts neither.

* `openLeaf_ok` — what is opened is a note with the leaf of the chain;
* `consumedLeaves_pack` — the parents of a packed pair;
* `traverse_shows`, `traverse_sound` — the graph of a search, and what holds of it whatever the hooks answer.
-/

namespace Kakure.Threshold

open Fallible Loops Notes Traverse
open Tx (parentsHidden)
open Tss (newFr)

/-- `LeafData`. -/
structure LeafData where
  ephPub : Tss.Point
  ciphertext : List Fr
  leaf : Fr

/-- `ChainState`. -/
structure ChainState where
  getLeaf : ℤ → Option LeafData
  nextLeafIndex : ℤ
  isNullifierSpent : Fr → Bool
  childrenOfSpend : Fr → List ℤ

/-- `DecryptNote`: the fields of a note and its content key. -/
abbrev DecryptNote := Tss.Point → List Fr → Except String (List Fr × Fr)

/-- `SpendGraph`. -/
structure SpendGraph where
  nodes : List ℤ
  edges : List (ℤ × ℤ)
  truncated : List ℤ
  deriving DecidableEq

/-- `PARENTS_FIELD_INDEX`. -/
def parentsFieldIndex : ℕ := demFields - 1

/-- `unpackParents`. -/
def unpackParents (packed : Fr) : Except String (ℕ × ℕ) :=
  if 2 ^ 64 ≤ packed.val then .error "packed parents exceeds 2^64"
  else .ok (packed.val % 2 ^ 32, packed.val / 2 ^ 32 % 2 ^ 32)

section Program

variable (hash : List Fr → Fr) (decrypt : DecryptNote) (chain : ChainState)

/-- `openLeaf`: the fields and `psi`, if they have the leaf. -/
def openLeaf (data : LeafData) : Except String (Option (List Fr × Fr)) := do
  let opened ← decrypt data.ephPub data.ciphertext
  if opened.1.length < demFields then .ok none
  else if 2 ^ 128 ≤ (opened.1.getD 4 0).val then .ok none
  else do
    let psi := computePsi hash opened.2
    let rebuilt ← leaf hash (noteOf opened.1 psi)
    .ok (if rebuilt = data.leaf then some (opened.1, psi) else none)

/-- `assertInRange`. -/
def assertInRange (index : ℤ) : Except String Unit :=
  if index < 0 ∨ chain.nextLeafIndex ≤ index then
    .error ("chainTrace: leaf index " ++ toString index ++ " out of range [0, " ++ toString chain.nextLeafIndex ++ ")")
  else .ok ()

/-- `build`: everything in ascending order. -/
def build (s : State ℤ (ℤ × ℤ)) : SpendGraph where
  nodes := s.visited.insertionSort (· ≤ ·)
  edges := ((s.edges.map toLex).insertionSort (· ≤ ·)).map ofLex
  truncated := s.truncated.insertionSort (· ≤ ·)

/-- `traverse`, with a number of turns for its loop. -/
def traverse (start : ℤ) (step : ℤ → Except String (Found ℤ (ℤ × ℤ))) (turns : ℕ) : Loops.Run String SpendGraph := do
  ExceptT.mk (some (assertInRange chain start))
  let s ← loop (turn step) turns (State.init start)
  pure (build s)

/-- `consumedLeaves`: one parent if the second is 0. -/
def consumedLeaves (packed : Fr) : Except String (Option (List ℤ)) :=
  if 2 ^ 64 ≤ packed.val then .ok none
  else do
    let parents ← unpackParents packed
    let indexes : List ℤ := if parents.2 = 0 then [(parents.1 : ℤ)] else [(parents.1 : ℤ), (parents.2 : ℤ)]
    .ok (if indexes.all fun i => 0 ≤ i ∧ i < chain.nextLeafIndex then some indexes else none)

/-- The step of `forwardTrace`. -/
def forwardStep (index : ℤ) : Except String (Found ℤ (ℤ × ℤ)) :=
  (chain.getLeaf index).elim (.ok ⟨[], true⟩) fun leafData => do
    let opened ← openLeaf hash decrypt leafData
    opened.elim (.ok ⟨[], true⟩) fun note => do
      let leafIndex ← newFr index
      let nf := computeNullifier hash note.2 leafIndex
      if chain.isNullifierSpent nf = false then .ok ⟨[], false⟩
      else if (chain.childrenOfSpend nf).any fun c => c < 0 ∨ chain.nextLeafIndex ≤ c then .ok ⟨[], true⟩
      else
        .ok ⟨(chain.childrenOfSpend nf).map fun child => (child, (index, child)), (chain.childrenOfSpend nf).isEmpty⟩

/-- `forwardTrace`. -/
def forwardTrace (startLeafIndex : ℤ) (turns : ℕ) : Loops.Run String SpendGraph :=
  traverse chain startLeafIndex (forwardStep hash decrypt chain) turns

/-- The spend of a parent has the memo among its outputs. -/
def spendsInto (memoIndex parent : ℤ) : Except String Bool :=
  (chain.getLeaf parent).elim (.ok false) fun parentLeaf => do
    let opened ← openLeaf hash decrypt parentLeaf
    opened.elim (.ok false) fun note => do
      let leafIndex ← newFr parent
      .ok ((chain.childrenOfSpend (computeNullifier hash note.2 leafIndex)).contains memoIndex)

/-- `bridgeHiddenParents`: the parents of a memo are those of the change note behind it. -/
def bridgeHiddenParents (memoIndex : ℤ) : Except String (Option Fr) :=
  (chain.getLeaf (memoIndex + 1)).elim (.ok none) fun sibling => do
    let opened ← openLeaf hash decrypt sibling
    opened.elim (.ok none) fun note => do
      let packed := note.1.getD parentsFieldIndex 0
      if packed = 0 ∨ packed = parentsHidden then .ok none
      else do
        let consumed ← consumedLeaves chain packed
        consumed.elim (.ok none) fun parents => do
          let linked ← parents.allM (spendsInto hash decrypt chain memoIndex)
          .ok (if linked = true then some packed else none)

/-- The parents of a note as its expansions. -/
def expandParents (index : ℤ) (packed : Fr) : Except String (Found ℤ (ℤ × ℤ)) := do
  let parents ← consumedLeaves chain packed
  .ok (parents.elim ⟨[], true⟩ fun indexes => ⟨indexes.map fun parent => (parent, (parent, index)), false⟩)

/-- The step of `backwardTrace`. -/
def backwardStep (index : ℤ) : Except String (Found ℤ (ℤ × ℤ)) :=
  (chain.getLeaf index).elim (.ok ⟨[], true⟩) fun leafData => do
    let opened ← openLeaf hash decrypt leafData
    opened.elim (.ok ⟨[], true⟩) fun note =>
      let packed := note.1.getD parentsFieldIndex 0
      if packed = 0 then .ok ⟨[], false⟩
      else if packed = parentsHidden then do
        let bridged ← bridgeHiddenParents hash decrypt chain index
        bridged.elim (.ok ⟨[], true⟩) fun parents => expandParents chain index parents
      else expandParents chain index packed

/-- `backwardTrace`. -/
def backwardTrace (startLeafIndex : ℤ) (turns : ℕ) : Loops.Run String SpendGraph :=
  traverse chain startLeafIndex (backwardStep hash decrypt chain) turns

end Program

/-! ## Opening a leaf -/

section Opening

variable {hash : List Fr → Fr} {decrypt : DecryptNote} {chain : ChainState}

/-- What is opened are the fields and `psi` of a note with the leaf. -/
theorem openLeaf_ok {data : LeafData} {fields : List Fr} {psi : Fr}
    (h : openLeaf hash decrypt data = .ok (some (fields, psi))) :
    ∃ cek, decrypt data.ephPub data.ciphertext = .ok (fields, cek) ∧ demFields ≤ fields.length ∧
      (noteOf fields psi).value < 2 ^ 128 ∧ psi = computePsi hash cek ∧
      hash (noteOf fields psi).preimage = data.leaf := by
  obtain ⟨⟨fields', cek⟩, hdecrypt, h⟩ := bind_eq_ok.1 h
  dsimp only at h
  split at h
  · cases h
  · rename_i hlength
    split at h
    · cases h
    · rename_i hvalue
      rw [bind_of_ok (leaf_ok (not_le.1 hvalue))] at h
      split at h
      · rename_i hleaf
        cases h
        exact ⟨cek, hdecrypt, not_lt.1 hlength, not_le.1 hvalue, rfl, hleaf⟩
      · cases h

/-- A note whose fields are decrypted is opened. -/
theorem openLeaf_note {data : LeafData} {note : Note} {cek : Fr} (hvalue : note.value < 2 ^ 128)
    (hdecrypt : decrypt data.ephPub data.ciphertext = .ok (note.transmitted, cek)) (hpsi : computePsi hash cek = note.psi)
    (hleaf : hash note.preimage = data.leaf) :
    openLeaf hash decrypt data = .ok (some (note.transmitted, note.psi)) := by
  have hlength : ¬ note.transmitted.length < demFields := lt_irrefl 7
  have hword : ¬ 2 ^ 128 ≤ (note.transmitted.getD 4 0).val := by
    show ¬ 2 ^ 128 ≤ ((note.value : ℕ) : Fr).val
    rw [val_natCast_of_lt (lt_trans hvalue two_pow_128_lt_modulus)]
    exact not_le.2 hvalue
  unfold openLeaf
  rw [bind_of_ok hdecrypt]
  dsimp only
  rw [if_neg hlength, if_neg hword, hpsi, noteOf_transmitted hvalue, bind_of_ok (leaf_ok hvalue), if_pos hleaf]

/-- The parents of a transmitted note are its last field. -/
theorem transmitted_parents (note : Note) : note.transmitted.getD parentsFieldIndex 0 = note.parents := rfl

end Opening

/-! ## Parents -/

section Parents

variable {chain : ChainState} {a b : ℕ}

/-- The parents of a packed pair. -/
def parentsOf (a b : ℕ) : List ℕ := if b = 0 then [a] else [a, b]

theorem val_packParents (ha : a < 2 ^ 32) (hb : b < 2 ^ 32) : (Circuit.packParents a b).val = a + b * 2 ^ 32 := by
  have hcast : Circuit.packParents a b = ((a + b * 2 ^ 32 : ℕ) : Fr) := by
    rw [Circuit.packParents]
    push_cast
    norm_num
  rw [hcast, val_natCast_of_lt (lt_trans (by omega : a + b * 2 ^ 32 < 2 ^ 128) two_pow_128_lt_modulus)]

/-- A packed pair is told apart from the marks of no parents and of hidden ones. -/
theorem packParents_ne (ha : a < 2 ^ 32) (hb : b < 2 ^ 32) (hne : a ≠ 0) :
    Circuit.packParents a b ≠ 0 ∧ Circuit.packParents a b ≠ parentsHidden := by
  have hval := val_packParents ha hb
  constructor
  · intro h
    rw [h, ZMod.val_zero] at hval
    omega
  · intro h
    have hhidden : 2 ^ 64 ≤ parentsHidden.val := by decide +kernel
    rw [h] at hval
    omega

/-- What is read of two parents: they are there if they are among the leaves. -/
theorem consumedLeaves_eq {packed : Fr} (h : packed.val < 2 ^ 64) :
    consumedLeaves chain packed =
      .ok (if ((parentsOf (packed.val % 2 ^ 32) (packed.val / 2 ^ 32)).map Nat.cast).all
          fun i : ℤ => 0 ≤ i ∧ i < chain.nextLeafIndex then
        some ((parentsOf (packed.val % 2 ^ 32) (packed.val / 2 ^ 32)).map Nat.cast) else none) := by
  have hparents : unpackParents packed = .ok (packed.val % 2 ^ 32, packed.val / 2 ^ 32) := by
    rw [unpackParents, if_neg (not_le.2 h), Nat.mod_eq_of_lt (by omega : packed.val / 2 ^ 32 < 2 ^ 32)]
  have hindexes : (if packed.val / 2 ^ 32 = 0 then [((packed.val % 2 ^ 32 : ℕ) : ℤ)]
      else [((packed.val % 2 ^ 32 : ℕ) : ℤ), ((packed.val / 2 ^ 32 : ℕ) : ℤ)]) =
      (parentsOf (packed.val % 2 ^ 32) (packed.val / 2 ^ 32)).map Nat.cast := by
    unfold parentsOf
    split <;> rfl
  unfold consumedLeaves
  rw [if_neg (not_le.2 h), bind_of_ok hparents, ← hindexes]

/-- What is read of a packed pair are its parents. -/
theorem consumedLeaves_pack (ha : a < 2 ^ 32) (hb : b < 2 ^ 32) :
    consumedLeaves chain (Circuit.packParents a b) =
      .ok (if ((parentsOf a b).map Nat.cast).all fun i : ℤ => 0 ≤ i ∧ i < chain.nextLeafIndex then
        some ((parentsOf a b).map Nat.cast) else none) := by
  have hval := val_packParents ha hb
  have hfirst : (a + b * 2 ^ 32) % 2 ^ 32 = a := by omega
  have hsecond : (a + b * 2 ^ 32) / 2 ^ 32 = b := by omega
  rw [consumedLeaves_eq (by omega), hval, hfirst, hsecond]

/-- Parents that are among the leaves are read. -/
theorem consumedLeaves_of_lt (ha : a < 2 ^ 32) (hb : b < 2 ^ 32)
    (hrange : ∀ i ∈ parentsOf a b, (i : ℤ) < chain.nextLeafIndex) :
    consumedLeaves chain (Circuit.packParents a b) = .ok (some ((parentsOf a b).map Nat.cast)) := by
  rw [consumedLeaves_pack ha hb, if_pos]
  rw [List.all_eq_true]
  intro v hv
  obtain ⟨i, hi, rfl⟩ := List.mem_map.1 hv
  exact decide_eq_true ⟨Int.natCast_nonneg i, hrange i hi⟩

/-- Parents that are read are those of the pair. -/
theorem eq_of_consumedLeaves (ha : a < 2 ^ 32) (hb : b < 2 ^ 32) {indexes : List ℤ}
    (h : consumedLeaves chain (Circuit.packParents a b) = .ok (some indexes)) :
    indexes = (parentsOf a b).map Nat.cast := by
  rw [consumedLeaves_pack ha hb, Except.ok.injEq] at h
  exact (Option.some.inj (Option.ite_none_right_eq_some.1 h).2).symm

end Parents

/-! ## The graph of a search -/

/-- A graph with these nodes and these edges, in order, and nothing cut off. -/
structure SpendGraph.Shows (g : SpendGraph) (nodes : Set ℤ) (edges : Set (ℤ × ℤ)) : Prop where
  nodes_sorted : g.nodes.SortedLT
  mem_nodes : ∀ v, v ∈ g.nodes ↔ v ∈ nodes
  edges_sorted : (g.edges.map toLex).SortedLT
  mem_edges : ∀ e, e ∈ g.edges ↔ e ∈ edges
  truncated : g.truncated = []

section Search

variable {chain : ChainState} {start : ℤ} {step : ℤ → Except String (Found ℤ (ℤ × ℤ))}

theorem sortedLT_insertionSort {α : Type} [LinearOrder α] {xs : List α} (h : xs.Nodup) :
    (xs.insertionSort (· ≤ ·)).SortedLT :=
  List.sortedLE_insertionSort.sortedLT_of_nodup ((List.perm_insertionSort _ xs).nodup_iff.2 h)

theorem build_shows {found : ℤ → Found ℤ (ℤ × ℤ)} {s : State ℤ (ℤ × ℤ)} (h : Complete found start s)
    (hwhole : ∀ v, Reaches found start v → (found v).truncated = false) :
    (build s).Shows {v | Reaches found start v} {e | ∃ v w, Reaches found start v ∧ (w, e) ∈ (found v).expansions} where
  nodes_sorted := sortedLT_insertionSort h.visited_nodup
  mem_nodes v := by rw [build, List.mem_insertionSort, h.mem_visited]; rfl
  edges_sorted := by
    rw [build, List.map_map]
    have hid : (toLex ∘ ofLex : ℤ ×ₗ ℤ → ℤ ×ₗ ℤ) = id := rfl
    rw [hid, List.map_id]
    exact sortedLT_insertionSort (h.edges_nodup.map toLex.injective)
  mem_edges e := by
    rw [build, List.mem_map]
    simp only [List.mem_insertionSort, List.mem_map]
    rw [Set.mem_ofPred_eq, ← h.mem_edges]
    constructor
    · rintro ⟨_, ⟨e', he', rfl⟩, rfl⟩
      exact he'
    · exact fun he => ⟨_, ⟨e, he, rfl⟩, rfl⟩
  truncated := by
    have hnil : s.truncated = [] := by
      refine List.eq_nil_iff_forall_not_mem.2 fun v hv => ?_
      obtain ⟨hreach, htruncated⟩ := (h.mem_truncated v).1 hv
      rw [hwhole v hreach] at htruncated
      cases htruncated
    rw [build, hnil]
    rfl

/-- Steps along a relation reach what it does. -/
theorem reaches_iff {found : ℤ → Found ℤ (ℤ × ℤ)} {next : ℤ → ℤ → Prop} {V : Finset ℤ}
    (hin : ∀ v, Relation.ReflTransGen next start v → v ∈ V) (hnext : ∀ v ∈ V, ∀ w, Next found v w ↔ next v w) (v : ℤ) :
    Reaches found start v ↔ Relation.ReflTransGen next start v := by
  refine ⟨fun hv => ?_, fun hv => ?_⟩
  · induction hv with
    | refl => exact .refl
    | tail _ h ih => exact ih.tail ((hnext _ (hin _ ih) _).1 h)
  · induction hv with
    | refl => exact .refl
    | tail hv h ih => exact ih.tail ((hnext _ (hin _ hv) _).2 h)

/-- A search whose steps go along a relation, with one edge for each pair, ends with what can be reached. -/
theorem traverse_shows {V : Finset ℤ} (next : ℤ → ℤ → Prop) (edge : ℤ → ℤ → ℤ × ℤ) (hstart : start ∈ V)
    (hrange : ∀ v ∈ V, 0 ≤ v ∧ v < chain.nextLeafIndex) (hclosed : ∀ v ∈ V, ∀ w, next v w → w ∈ V)
    (hstep : ∀ v ∈ V, ∃ f, step v = .ok f ∧ f.truncated = false ∧
      ∀ x, x ∈ f.expansions ↔ next v x.1 ∧ x.2 = edge v x.1) :
    ∃ bound, ∀ turns > bound, Answers (traverse chain start step turns) fun g =>
      g.Shows {v | Relation.ReflTransGen next start v}
        {e | ∃ v w, Relation.ReflTransGen next start v ∧ next v w ∧ e = edge v w} := by
  have hsome : ∀ v, ∃ f : Found ℤ (ℤ × ℤ), v ∈ V → step v = .ok f ∧ f.truncated = false ∧
      ∀ x, x ∈ f.expansions ↔ next v x.1 ∧ x.2 = edge v x.1 := by
    intro v
    by_cases hv : v ∈ V
    · obtain ⟨f, hf⟩ := hstep v hv
      exact ⟨f, fun _ => hf⟩
    · exact ⟨⟨[], false⟩, fun h => absurd h hv⟩
  choose found hfound using hsome
  have hwhole := fun v hv => (hfound v hv).2.1
  have hexpansions := fun v hv => (hfound v hv).2.2
  have hnext : ∀ v ∈ V, ∀ w, Next found v w ↔ next v w := by
    refine fun v hv w => ⟨fun ⟨e, he⟩ => ((hexpansions v hv _).1 he).1, fun h => ⟨edge v w, ?_⟩⟩
    exact (hexpansions v hv (w, edge v w)).2 ⟨h, rfl⟩
  have hin : ∀ v, Relation.ReflTransGen next start v → v ∈ V := by
    intro v hv
    induction hv with
    | refl => exact hstart
    | tail _ h ih => exact hclosed _ ih _ h
  have hreaches := reaches_iff hin hnext
  refine ⟨1 + ∑ v ∈ V, (found v).expansions.length, fun turns hturns => ?_⟩
  have hsearch := answers_traverse hstart (fun v hv => (hfound v hv).1)
    (fun v hv w hw => hclosed v hv w ((hnext v hv w).1 hw)) hturns
  obtain ⟨s, hs, hcomplete⟩ := hsearch
  have hassert : assertInRange chain start = .ok () := by
    obtain ⟨hlow, hhigh⟩ := hrange start hstart
    exact if_neg (by omega)
  refine ⟨build s, ?_, ?_⟩
  · unfold traverse
    rw [hassert, hs]
    rfl
  · have hshows := build_shows hcomplete fun v hv => hwhole v (hin v ((hreaches v).1 hv))
    refine ⟨hshows.nodes_sorted, fun v => ?_, hshows.edges_sorted, fun e => ?_, hshows.truncated⟩
    · rw [hshows.mem_nodes]
      exact hreaches v
    · rw [hshows.mem_edges]
      constructor
      · rintro ⟨v, w, hv, hx⟩
        have hreach := (hreaches v).1 hv
        obtain ⟨hn, he⟩ := (hexpansions v (hin v hreach) _).1 hx
        exact ⟨v, w, hreach, hn, he⟩
      · rintro ⟨v, w, hv, hn, he⟩
        exact ⟨v, w, (hreaches v).2 hv, (hexpansions v (hin v hv) (w, e)).2 ⟨hn, he⟩⟩

/-- Whatever the steps answer: what they keep holds of the whole graph. -/
theorem traverse_sound {R : ℤ → Prop} {E : ℤ × ℤ → Prop} (hstart : R start)
    (hstep : ∀ v f, R v → step v = .ok f → ∀ x ∈ f.expansions, R x.1 ∧ E x.2) {turns : ℕ} {g : SpendGraph}
    (h : traverse chain start step turns = pure g) : (∀ v ∈ g.nodes, R v) ∧ ∀ e ∈ g.edges, E e := by
  obtain ⟨_, -, h⟩ := bind_eq_pure.1 h
  obtain ⟨s, hs, h⟩ := bind_eq_pure.1 h
  obtain ⟨hnodes, hedges⟩ := sound_traverse hstart hstep hs
  rw [← pure_inj.1 h]
  refine ⟨fun v hv => hnodes v ((List.mem_insertionSort _).1 hv), fun e he => ?_⟩
  obtain ⟨e', he', rfl⟩ := List.mem_map.1 he
  obtain ⟨e'', hmem, rfl⟩ := List.mem_map.1 ((List.mem_insertionSort _).1 he')
  exact hedges e'' hmem

end Search

end Kakure.Threshold
