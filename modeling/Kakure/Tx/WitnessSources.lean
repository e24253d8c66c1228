import Kakure.Lib.Hex
import Kakure.Tree.Sdk
import Kakure.Tx.Assemble

/-!
# Where the Merkle paths come from

`IndexerWitnessSource` of `tx/witnessSources.ts`, and `openSpend` of `tx/assemble.ts` on whatever a source answers.
`Fr.fromString` and the texts of numbers are parameters, and an answer is whatever values the transport returns.

* `PathWitness.Leads` — the circuit's inclusion proof leads from the leaf to the root of the answer;
* `openSpend_leads_iff` — a spend is opened on a path that leads there exactly if the source answers with such paths;
* `witnessFor_leads_iff` — the indexer's source does so exactly if the index has no more bits than the path has levels.
-/

namespace Kakure.Tx

open Doubles Fallible LeanTree

/-- What `witnessFor` of a `MerkleWitnessSource` returns. -/
structure PathWitness where
  leafIndex : Double
  siblings : List Fr
  root : Fr

/-- `MerkleWitnessSource`. -/
abbrev MerkleWitnessSource := Fr → Except String PathWitness

/-- The circuit's inclusion proof at an answer: its path has `depth` siblings and its index is a field element. -/
def PathWitness.circuitRoot (poseidon : Fr → Fr → Fr → Fr) (depth : ℕ) (leaf : Fr) (w : PathWitness) : Option Fr :=
  match w.leafIndex with
  | .int n =>
    if h : w.siblings.length = depth ∧ 0 ≤ n ∧ n < bn254ScalarFieldModulus then
      leanImtInclusionProof poseidon leaf (n : Fr) fun i : Fin depth => w.siblings.get (i.cast h.1.symm)
    else none
  | _ => none

/-- The circuit's inclusion proof leads from the leaf to the root of the answer. -/
def PathWitness.Leads (poseidon : Fr → Fr → Fr → Fr) (depth : ℕ) (leaf : Fr) (w : PathWitness) : Prop :=
  w.circuitRoot poseidon depth leaf = some w.root

/-! ## `openSpend` -/

/-- `openSpend`, on whatever the source answers. -/
def MerkleWitnessSource.openSpend (numberText : Double → String) (source : MerkleWitnessSource)
    (input : SpendableNote) : Except AssembleError PathWitness := do
  let w ← (source input.leaf).mapError .other
  if w.leafIndex ≠ .int input.leafIndex then
    throw (.assembly "MERKLE_INDEX_MISMATCH" ("merkle source placed the note at index " ++
      numberText w.leafIndex ++ ", wallet has " ++ toString input.leafIndex))
  return w

/-- The paths that the source answers with at an index lead to their roots. -/
def MerkleWitnessSource.Leads (poseidon : Fr → Fr → Fr → Fr) (source : MerkleWitnessSource) : Prop :=
  ∀ leaf w, source leaf = .ok w → ∀ index : ℕ, w.leafIndex = .int index → w.Leads poseidon Circuit.treeDepth leaf

section OpenSpend

variable {poseidon : Fr → Fr → Fr → Fr} {numberText : Double → String} {source : MerkleWitnessSource}

/-- A spend is opened on what the source answers, at the wallet's own index. -/
theorem source_openSpend_ok {input : SpendableNote} {w : PathWitness} :
    source.openSpend numberText input = .ok w ↔ source input.leaf = .ok w ∧ w.leafIndex = .int input.leafIndex := by
  unfold MerkleWitnessSource.openSpend
  cases hsource : source input.leaf with
  | error e =>
    constructor
    · intro h
      cases h
    · rintro ⟨h, -⟩
      cases h
  | ok w' =>
    show (if w'.leafIndex ≠ .int input.leafIndex then throw _ else pure w' : Except AssembleError PathWitness) =
      .ok w ↔ _
    by_cases hindex : w'.leafIndex = .int input.leafIndex
    · rw [if_neg (not_not.2 hindex)]
      constructor
      · intro h
        cases h
        exact ⟨rfl, hindex⟩
      · rintro ⟨h, -⟩
        cases h
        rfl
    · rw [if_pos hindex]
      constructor
      · intro h
        cases h
      · rintro ⟨h, hw⟩
        cases h
        exact absurd hw hindex

/-- The source of an assembly, at the port. -/
def AssemblyContext.port (ctx : AssemblyContext) : MerkleWitnessSource := fun leaf =>
  (ctx.witnessFor leaf).map fun w => ⟨.int w.leafIndex, List.ofFn w.siblings, w.root⟩

/-- An assembly opens its spends at the port. -/
theorem openSpend_port {ctx : AssemblyContext} {input : SpendableNote} {w : MerkleWitness}
    {states states' : List Discovery.AuthorizationState} (h : openSpend ctx input states = (.ok w, states')) :
    ctx.port.openSpend numberText input = .ok ⟨.int w.leafIndex, List.ofFn w.siblings, w.root⟩ := by
  obtain ⟨hw, hindex, -⟩ := openSpend_ok h
  rw [source_openSpend_ok]
  refine ⟨?_, by rw [hindex]⟩
  rw [AssemblyContext.port, hw]
  rfl

/-- Every spend is opened on a path that leads to its root exactly if the source answers with no other path. -/
theorem openSpend_leads_iff : (∀ (input : SpendableNote) (w : PathWitness),
    source.openSpend numberText input = .ok w → w.Leads poseidon Circuit.treeDepth input.leaf) ↔
      source.Leads poseidon := by
  constructor
  · intro h leaf w hw index hindex
    -- The note of an input takes no part in opening it.
    have hopen := h ⟨⟨0, 0, 0, 0, 0, 0, 0, 0⟩, leaf, index, 0⟩ w (source_openSpend_ok.2 ⟨hw, hindex⟩)
    exact hopen
  · intro h input w hopen
    obtain ⟨hw, hindex⟩ := source_openSpend_ok.1 hopen
    exact h input.leaf w hw input.leafIndex hindex

end OpenSpend

/-- A source that names another root than the one its path leads to. -/
def misleadingSource : MerkleWitnessSource := fun leaf => .ok ⟨.int 0, List.replicate Circuit.treeDepth 0, leaf + 1⟩

/-- The circuit's inclusion proof along empty levels. -/
theorem circuitRoot_replicate {poseidon : Fr → Fr → Fr → Fr} {leaf root : Fr} :
    (PathWitness.mk (.int 0) (List.replicate Circuit.treeDepth 0) root).circuitRoot poseidon Circuit.treeDepth leaf =
      some leaf := by
  unfold PathWitness.circuitRoot
  have hlength : (List.replicate Circuit.treeDepth (0 : Fr)).length = Circuit.treeDepth ∧ (0 : ℤ) ≤ 0 ∧
      (0 : ℤ) < bn254ScalarFieldModulus := ⟨List.length_replicate, le_rfl, by norm_num [bn254ScalarFieldModulus]⟩
  have hsiblings : (fun i : Fin Circuit.treeDepth =>
      (List.replicate Circuit.treeDepth (0 : Fr)).get (i.cast hlength.1.symm)) = fun _ => 0 := by
    funext i
    simp
  dsimp only
  rw [dif_pos hlength, hsiblings, Int.cast_zero]
  exact Sync.inclusion_zero _ _

/-- The wallet builds on a path that does not lead to the root. -/
theorem openSpend_misled : ¬ ∀ (source : MerkleWitnessSource) (input : SpendableNote) (w : PathWitness),
    source.openSpend (fun _ => "") input = .ok w → w.Leads (fun _ _ _ => 0) Circuit.treeDepth input.leaf := by
  intro h
  have hleads := h misleadingSource ⟨⟨0, 0, 0, 0, 0, 0, 0, 0⟩, 1, 0, 0⟩ _ (source_openSpend_ok.2 ⟨rfl, rfl⟩)
  rw [PathWitness.Leads, circuitRoot_replicate] at hleads
  have hone : (1 : Fr) = 1 + 1 := Option.some.inj hleads
  exact one_ne_zero (left_eq_add.1 hone)

/-! ## The indexer -/

/-- The reasons of a `WitnessSourceError`. -/
inductive WitnessSourceReason where
  | leafNotFound
  | malformedResponse
  | rootMismatch
  | transport
  deriving DecidableEq

/-- `WitnessSourceError`, and what else is thrown. -/
inductive WitnessSourceError where
  | source (reason : WitnessSourceReason) (message : String)
  | other (message : String)

/-- `Fr.toString`. -/
def frText (x : Fr) : String := Hex.toHex x.toBytes.val

/-- What a transport returned: no list where `siblings` is not an array, and no value where `root` is not a string. -/
structure WitnessResponse (Json : Type) where
  leafIndex : Double
  siblings : Option (List Json)
  root : Option Json

/-- `IndexerWitnessSource`. -/
structure IndexerWitnessSource (Json : Type) where
  transport : String → Except String (WitnessResponse Json)
  depth : ℕ

section Indexer

variable {Json : Type} (poseidon : Fr → Fr → Fr → Fr) (fromString : Json → Except String Fr)

/-- The error of a response of another shape. -/
def malformed (depth : ℕ) : WitnessSourceError :=
  .source .malformedResponse ("indexer returned a witness that is not " ++ toString depth ++
    " siblings plus an index and a root")

/-- `witnessFor` on a response of the right shape. -/
def checkWitness (leaf : Fr) (leafIndex : ℕ) (rawSiblings : List Json) (rawRoot : Json) :
    Except WitnessSourceError PathWitness := do
  let siblings ← (rawSiblings.mapM fromString).mapError .other
  let root ← (fromString rawRoot).mapError .other
  let recomputed ← (Sdk.foldPath poseidon leaf leafIndex siblings).mapError (.source .malformedResponse)
  if recomputed ≠ root then
    throw (.source .rootMismatch ("indexer witness does not reproduce its own root: folded " ++
      frText recomputed ++ ", claimed " ++ frText root))
  return ⟨.int leafIndex, siblings, root⟩

/-- `IndexerWitnessSource.witnessFor`. -/
def IndexerWitnessSource.witnessFor (source : IndexerWitnessSource Json) (leaf : Fr) :
    Except WitnessSourceError PathWitness :=
  match source.transport (frText leaf) with
  | .error e => .error (.source .transport ("witness lookup failed: " ++ e))
  | .ok raw =>
    match raw.leafIndex, raw.siblings, raw.root with
    | .int leafIndex, some siblings, some root =>
      if leafIndex < 0 ∨ siblings.length ≠ source.depth then .error (malformed source.depth)
      else checkWitness poseidon fromString leaf leafIndex.toNat siblings root
    | _, _, _ => .error (malformed source.depth)

end Indexer

section Agreement

variable {Json : Type} {poseidon : Fr → Fr → Fr → Fr} {fromString : Json → Except String Fr} {leaf : Fr}

/-- What was folded before a witness is returned. -/
theorem checkWitness_ok {leafIndex : ℕ} {rawSiblings : List Json} {rawRoot : Json} {w : PathWitness}
    (h : checkWitness poseidon fromString leaf leafIndex rawSiblings rawRoot = .ok w) :
    w.leafIndex = .int leafIndex ∧ w.siblings.length = rawSiblings.length ∧
      Sdk.foldPath poseidon leaf leafIndex w.siblings = .ok w.root := by
  unfold checkWitness at h
  obtain ⟨siblings, hsiblings, h⟩ := bind_eq_ok.1 h
  obtain ⟨root, -, h⟩ := bind_eq_ok.1 h
  obtain ⟨recomputed, hfold, h⟩ := bind_eq_ok.1 h
  rw [mapError_eq_ok] at hsiblings hfold
  by_cases hne : recomputed ≠ root
  · rw [if_pos hne] at h
    cases h
  · rw [if_neg hne] at h
    cases h
    refine ⟨rfl, (forall_of_mapM hsiblings).length_eq.symm, ?_⟩
    rw [hfold, not_not.1 hne]

/-- What a returned witness was checked for. -/
theorem witnessFor_ok {source : IndexerWitnessSource Json} {w : PathWitness}
    (h : source.witnessFor poseidon fromString leaf = .ok w) :
    ∃ (raw : WitnessResponse Json) (n : ℕ), source.transport (frText leaf) = .ok raw ∧ raw.leafIndex = .int n ∧
      w.leafIndex = .int n ∧ w.siblings.length = source.depth ∧
      Sdk.foldPath poseidon leaf n w.siblings = .ok w.root := by
  unfold IndexerWitnessSource.witnessFor at h
  split at h
  · cases h
  · rename_i raw hraw
    split at h
    · rename_i leafIndex siblings root hindex hsiblings hroot
      by_cases hshape : leafIndex < 0 ∨ siblings.length ≠ source.depth
      · rw [if_pos hshape] at h
        cases h
      · rw [if_neg hshape] at h
        obtain ⟨hnonneg, hlength⟩ := not_or.1 hshape
        obtain ⟨hw, hlen, hfold⟩ := checkWitness_ok h
        refine ⟨raw, leafIndex.toNat, hraw, ?_, hw, hlen.trans (not_not.1 hlength), hfold⟩
        rw [hindex, Int.toNat_of_nonneg (not_lt.1 hnonneg)]
    · cases h

/-- The circuit's inclusion proof at an index and a path of the circuit's length is the tree's fold, if the index fits. -/
theorem circuitRoot_eq {w : PathWitness} {depth n : ℕ} (hindex : w.leafIndex = .int n)
    (hlength : w.siblings.length = depth) : w.circuitRoot poseidon depth leaf =
      if n < 2 ^ depth ∧ n < bn254ScalarFieldModulus then
        pathNode (nodeHash poseidon) 0 (fun i => w.siblings.getD i 0) n leaf depth
      else none := by
  unfold PathWitness.circuitRoot
  rw [hindex]
  dsimp only
  by_cases hlt : n < bn254ScalarFieldModulus
  · have hguard : w.siblings.length = depth ∧ (0 : ℤ) ≤ n ∧ (n : ℤ) < bn254ScalarFieldModulus :=
      ⟨hlength, by omega, by exact_mod_cast hlt⟩
    have hval : ((n : ℤ) : Fr).val = n := by
      rw [Int.cast_natCast]
      exact val_natCast_of_lt hlt
    rw [dif_pos hguard, leanImtInclusionProof_eq, hval]
    by_cases hfits : n < 2 ^ depth
    · rw [if_pos hfits, if_pos ⟨hfits, hlt⟩]
      refine pathNode_congr _ _ fun level hlevel => ?_
      rw [siblingAt, dif_pos hlevel, List.getD_eq_getElem _ _ (by omega)]
      simp
    · rw [if_neg hfits, if_neg fun h => hfits h.1]
  · rw [dif_neg fun h => hlt (by exact_mod_cast h.2.2), if_neg fun h => hlt h.2]

/-- A witness that the indexer's source returns leads to its root exactly if the circuit has room for its index. -/
theorem leads_of_witnessFor {source : IndexerWitnessSource Json} {w : PathWitness}
    (h : source.witnessFor poseidon fromString leaf = .ok w) : w.Leads poseidon source.depth leaf ↔
      ∃ n : ℕ, w.leafIndex = .int n ∧ n < 2 ^ source.depth ∧ n < bn254ScalarFieldModulus := by
  obtain ⟨raw, n, -, -, hindex, hlength, hfold⟩ := witnessFor_ok h
  have hroot := (Sdk.foldPath_eq_ok_iff poseidon).1 hfold
  rw [hlength] at hroot
  rw [PathWitness.Leads, circuitRoot_eq hindex hlength]
  by_cases hfits : n < 2 ^ source.depth ∧ n < bn254ScalarFieldModulus
  · rw [if_pos hfits]
    exact ⟨fun _ => ⟨n, hindex, hfits⟩, fun _ => hroot⟩
  · rw [if_neg hfits]
    constructor
    · intro hnone
      cases hnone
    · rintro ⟨m, hm, hmfits⟩
      have hnm : n = m := by
        rw [hindex] at hm
        exact_mod_cast Double.int.inj hm
      exact absurd (hnm ▸ hmfits) hfits

/-- For a transport that answered, the condition is one on the index of its response. -/
theorem witnessFor_leads_iff {source : IndexerWitnessSource Json} {raw : WitnessResponse Json} {w : PathWitness}
    (hraw : source.transport (frText leaf) = .ok raw) (h : source.witnessFor poseidon fromString leaf = .ok w) :
    w.Leads poseidon source.depth leaf ↔
      ∃ n : ℕ, raw.leafIndex = .int n ∧ n < 2 ^ source.depth ∧ n < bn254ScalarFieldModulus := by
  obtain ⟨raw', n, hraw', hn, hindex, -, -⟩ := witnessFor_ok h
  rw [hraw] at hraw'
  cases hraw'
  rw [leads_of_witnessFor h, hindex, hn]

/-- A wallet that has the note below `2 ^ 32` spends on paths that the indexer's source has folded. -/
theorem indexer_openSpend_leads {source : IndexerWitnessSource Json} {numberText : Double → String}
    {message : WitnessSourceError → String} (hdepth : source.depth = Circuit.treeDepth) {input : SpendableNote}
    (hinput : input.leafIndex < 2 ^ Circuit.treeDepth) {w : PathWitness}
    (h : MerkleWitnessSource.openSpend numberText
      (fun leaf => (source.witnessFor poseidon fromString leaf).mapError message) input = .ok w) :
    w.Leads poseidon Circuit.treeDepth input.leaf := by
  obtain ⟨hsource, hindex⟩ := source_openSpend_ok.1 h
  have hlt : input.leafIndex < bn254ScalarFieldModulus :=
    lt_trans hinput (by norm_num [Circuit.treeDepth, bn254ScalarFieldModulus])
  rw [← hdepth] at hinput ⊢
  exact (leads_of_witnessFor (mapError_eq_ok.1 hsource)).2 ⟨_, hindex, hinput, hlt⟩

end Agreement

/-! ## A path -/

/-- The texts of a path, three of whose levels have a sibling. -/
def pathTexts : List String := ["0x1", "0x0", "0x1", "0x1"] ++ List.replicate 28 "0x0"

def pathFromString (text : String) : Except String Fr :=
  if text = "0x0" then .ok 0 else if text = "0x1" then .ok 1 else if text = "0x9" then .ok 9
  else .error ("Invalid hex string: " ++ text)

/-- An indexer that has a leaf at the index 5: left, alone and left of it, and then right, are the levels of the path. -/
def pathIndexer : IndexerWitnessSource String where
  transport := fun _ => .ok ⟨.int 5, some pathTexts, some "0x9"⟩
  depth := Circuit.treeDepth

def pathSiblings : List Fr := [1, 0, 1, 1] ++ List.replicate 28 0

/-- The path of the leaf `1` is accepted. -/
theorem witnessFor_path : pathIndexer.witnessFor (fun l r _ => l + 2 * r) pathFromString 1 =
    .ok ⟨.int (5 : ℕ), pathSiblings, 9⟩ := by
  have hsiblings : pathTexts.mapM pathFromString = .ok pathSiblings := by decide +kernel
  have hfold : Sdk.foldPath (fun l r _ => l + 2 * r) 1 5 pathSiblings = .ok 9 := by decide +kernel
  have hcheck : checkWitness (fun l r _ => l + 2 * r) pathFromString 1 5 pathTexts "0x9" =
      .ok ⟨.int (5 : ℕ), pathSiblings, 9⟩ := by
    unfold checkWitness
    rw [bind_of_ok (mapError_eq_ok.2 hsiblings), bind_of_ok (mapError_eq_ok.2 (rfl : pathFromString "0x9" = .ok 9)),
      bind_of_ok (mapError_eq_ok.2 hfold)]
    rfl
  unfold IndexerWitnessSource.witnessFor
  show (if (5 : ℤ) < 0 ∨ _ then _ else _) = _
  rw [if_neg (by decide), ← hcheck]
  rfl

/-- It leads to its root. -/
theorem witnessFor_leads_iff_sample : PathWitness.Leads (fun l r _ => l + 2 * r) Circuit.treeDepth 1
    ⟨.int (5 : ℕ), pathSiblings, 9⟩ :=
  (@witnessFor_leads_iff String _ pathFromString 1 pathIndexer _ _ rfl witnessFor_path).2
    ⟨5, rfl, by norm_num [pathIndexer, Circuit.treeDepth], by norm_num [bn254ScalarFieldModulus]⟩

/-! ## Responses with empty levels -/

/-- `Fr.fromString` on two texts. -/
def sampleFromString (text : String) : Except String Fr :=
  if text = "0x0" then .ok 0 else if text = "0x1" then .ok 1 else .error ("Invalid hex string: " ++ text)

/-- An indexer that places every leaf at one index, below empty levels only. -/
def sampleIndexer (leafIndex : ℤ) : IndexerWitnessSource String where
  transport := fun _ => .ok ⟨.int leafIndex, some (List.replicate Circuit.treeDepth "0x0"), some "0x1"⟩
  depth := Circuit.treeDepth

variable {poseidon : Fr → Fr → Fr → Fr}

/-- The fold along empty levels ends with the leaf if the index has no bit there. -/
theorem foldPathFrom_replicate {leafIndex i k : ℕ} {c : Fr} (h : ∀ j < i + k, leafIndex / 2 ^ j % 2 ≠ 1) :
    Sdk.foldPathFrom poseidon leafIndex i (List.replicate k 0) c = .ok c := by
  induction k generalizing i with
  | zero => rfl
  | succ k ih =>
    rw [List.replicate_succ, Sdk.foldPathFrom]
    simp only [ne_eq, not_true_eq_false, if_false, if_neg (h i (by omega))]
    exact ih fun j hj => h j (by omega)

/-- The leaf `1` is accepted at every index without bits at the levels of the path. -/
theorem witnessFor_sample {leafIndex : ℕ} (h : ∀ j < Circuit.treeDepth, leafIndex / 2 ^ j % 2 ≠ 1) :
    (sampleIndexer leafIndex).witnessFor poseidon sampleFromString 1 =
      .ok ⟨.int leafIndex, List.replicate Circuit.treeDepth 0, 1⟩ := by
  have hsiblings : (List.replicate Circuit.treeDepth "0x0").mapM sampleFromString =
      .ok (List.replicate Circuit.treeDepth 0) := by
    rw [mapM_eq_ok (g := fun _ => 0) fun x hx => by rw [List.eq_of_mem_replicate hx]; rfl, List.map_replicate]
  have hfold : Sdk.foldPath poseidon 1 leafIndex (List.replicate Circuit.treeDepth 0) = .ok 1 :=
    foldPathFrom_replicate (by rwa [Nat.zero_add])
  have hcheck : checkWitness poseidon sampleFromString 1 leafIndex (List.replicate Circuit.treeDepth "0x0") "0x1" =
      .ok ⟨.int leafIndex, List.replicate Circuit.treeDepth 0, 1⟩ := by
    unfold checkWitness
    rw [bind_of_ok (mapError_eq_ok.2 hsiblings), bind_of_ok (mapError_eq_ok.2 (rfl : sampleFromString "0x1" = .ok 1)),
      bind_of_ok (mapError_eq_ok.2 hfold)]
    rfl
  have hshape : ¬ ((leafIndex : ℤ) < 0 ∨
      (List.replicate Circuit.treeDepth "0x0").length ≠ (sampleIndexer leafIndex).depth) := by
    rw [List.length_replicate]
    simp [sampleIndexer]
  unfold IndexerWitnessSource.witnessFor
  show (if (leafIndex : ℤ) < 0 ∨ _ then _ else _) = _
  rw [if_neg hshape, Int.toNat_natCast, hcheck]

/-- The path of the first leaf is returned at the index `2 ^ 32` too, where the circuit rejects it. -/
theorem witnessFor_misleads : ¬ ∀ (source : IndexerWitnessSource String) (leaf : Fr) (w : PathWitness),
    source.witnessFor (fun _ _ _ => 0) sampleFromString leaf = .ok w → w.Leads (fun _ _ _ => 0) source.depth leaf := by
  intro h
  have hreturned := @witnessFor_sample (fun _ _ _ => 0) (2 ^ 32) (by decide)
  obtain ⟨n, hn, hlt, -⟩ := (leads_of_witnessFor hreturned).1 (h _ _ _ hreturned)
  have hindex : (2 ^ 32 : ℕ) = n := by exact_mod_cast Double.int.inj hn
  rw [← hindex] at hlt
  exact absurd hlt (lt_irrefl _)

end Kakure.Tx
