import Kakure.Field
import Kakure.Lib.LeanTree

/-!
# The inclusion proof of the circuits

`lean_imt_inclusion_proof` of `circuits/shared/src/lib.nr`.  A failing assert leaves
the circuit without a witness, which is `none` here.

* `leanImtInclusionProof_eq` — the circuit's loop, with its arithmetic selection of
  the two children, is the fold of a sibling path in the tree.
-/

namespace Kakure

open LeanTree

/-- `to_le_bits`: the bits of a field element, if they fit. -/
def toLeBits (n : ℕ) (x : Fr) : Option (Fin n → Bool) :=
  if x.val < 2 ^ n then some fun i => x.val.testBit i else none

variable (poseidon : Fr → Fr → Fr → Fr)

/-- One level of the loop of `lean_imt_inclusion_proof`. -/
def inclusionLevel {maxDepth : ℕ} (pathBits : Fin maxDepth → Bool) (siblings : Fin maxDepth → Fr)
    (current : Fr) (i : Fin maxDepth) : Option Fr :=
  let sibling := siblings i
  if sibling ≠ 0 then
    let pathBit : Fr := if pathBits i then 1 else 0
    let left := current + pathBit * (sibling - current)
    let right := current + sibling - left
    some (poseidon left right (i : ℕ))
  else if pathBits i then none
  else some current

/-- `lean_imt_inclusion_proof`. -/
def leanImtInclusionProof {maxDepth : ℕ} (leaf leafIndex : Fr) (siblings : Fin maxDepth → Fr) :
    Option Fr :=
  (toLeBits maxDepth leafIndex).bind fun pathBits =>
    (List.finRange maxDepth).foldlM (inclusionLevel poseidon pathBits siblings) leaf

/-- The sibling at a level of the tree, zero above the path's end. -/
def siblingAt {maxDepth : ℕ} (siblings : Fin maxDepth → Fr) (level : ℕ) : Fr :=
  if h : level < maxDepth then siblings ⟨level, h⟩ else 0

/-- One level of the circuit's loop is one level of the tree's fold. -/
theorem inclusionLevel_eq {maxDepth : ℕ} (siblings : Fin maxDepth → Fr) (n : ℕ) (c : Fr)
    (i : Fin maxDepth) :
    inclusionLevel poseidon (fun i => n.testBit i) siblings c i =
      if siblings i = 0 then
        if n / 2 ^ (i : ℕ) % 2 = 1 then none else some c
      else if n / 2 ^ (i : ℕ) % 2 = 1 then some (nodeHash poseidon (siblings i) c i)
      else some (nodeHash poseidon c (siblings i) i) := by
  unfold inclusionLevel nodeHash
  simp only [Nat.testBit_eq_decide_div_mod_eq, decide_eq_true_eq]
  by_cases hs : siblings i = 0
  · simp [hs]
  · by_cases hb : n / 2 ^ (i : ℕ) % 2 = 1
    · simp [hs, hb]
    · simp [hs, hb]

/-- The loop up to a level is the tree's fold up to it. -/
theorem foldlM_inclusionLevel {maxDepth : ℕ} (siblings : Fin maxDepth → Fr) (n : ℕ) (leaf : Fr)
    {level : ℕ} (h : level ≤ maxDepth) :
    ((List.finRange maxDepth).take level).foldlM
        (inclusionLevel poseidon (fun i => n.testBit i) siblings) leaf =
      pathNode (nodeHash poseidon) 0 (siblingAt siblings) n leaf level := by
  induction level with
  | zero => rfl
  | succ level ih =>
    have hlt : level < (List.finRange maxDepth).length := by
      rw [List.length_finRange]
      exact h
    have hi : (List.finRange maxDepth)[level] = ⟨level, h⟩ := by simp
    have hsib : siblingAt siblings level = siblings ⟨level, h⟩ := dif_pos h
    rw [List.take_succ_eq_append_getElem hlt, List.foldlM_append, ih (by omega), pathNode, hsib, hi]
    refine congrArg _ (funext fun c => ?_)
    rw [List.foldlM_cons, inclusionLevel_eq]
    simp only [List.foldlM_nil, bind_pure]

/-- The circuit's inclusion proof is the fold of the sibling path, for an index that fits. -/
theorem leanImtInclusionProof_eq {maxDepth : ℕ} (leaf leafIndex : Fr) (siblings : Fin maxDepth → Fr) :
    leanImtInclusionProof poseidon leaf leafIndex siblings =
      if leafIndex.val < 2 ^ maxDepth then
        pathNode (nodeHash poseidon) 0 (siblingAt siblings) leafIndex.val leaf maxDepth
      else none := by
  unfold leanImtInclusionProof toLeBits
  split
  · rw [Option.bind_some, ← foldlM_inclusionLevel poseidon siblings _ _ le_rfl, List.take_of_length_le]
    rw [List.length_finRange]
  · rfl

end Kakure
