import Kakure.Circuits.Multisig
import Kakure.Circuits.Public

/-!
# What a proof says of notes

The seven circuits as one: what a prover hands to a circuit, the flat array that its proof makes public, and what
an accepted witness says of the notes it opens and of those it mints.

* `Layout` — where the array has the nullifiers, the root, the leaves and the amounts;
* `Accepted` — what holds of the notes: their nullifiers, root and leaves are the ones made public, no value is lost
  or made, and the parents a minted note names are the notes that were opened for it;
* `accepted_of_flat` — so it is for a witness that is accepted.
-/

namespace Kakure.Circuit

open Notes

/-- A note that is opened in the tree. -/
structure Opening where
  note : Note
  index : Fr
  path : Fin treeDepth → Fr

/-- What a prover hands to a circuit, the compliance key apart. -/
inductive Witness where
  | deposit (out : Output)
  | transfer (spend : Opening) (spendScalar : Fr) (recipientSpendPub recipientViewPub : Point) (memo change : Output)
  | withdraw (withdrawValue : U128) (recipient intentHash : Fr) (spend : Opening) (spendScalar : Fr) (change : Output)
  | multisig (w : MultisigWitness)

/-- The note that a group spends. -/
def GroupSpend.opening (s : GroupSpend) : Opening := ⟨s.note, s.index, s.path⟩

/-- What a transfer makes public. -/
def flatTransfer (cx cy : Fr) (out : Fr × Fr × Fr × Fr × Fr × Fr × List Fr × Fr × Fr × List Fr) : List Fr :=
  [cx, cy, out.1, out.2.1] ++ ([out.2.2.1, out.2.2.2.1, out.2.2.2.2.1, out.2.2.2.2.2.1] ++ out.2.2.2.2.2.2.1 ++
    ([out.2.2.2.2.2.2.2.1, out.2.2.2.2.2.2.2.2.1] ++ out.2.2.2.2.2.2.2.2.2))

/-- What a withdrawal makes public. -/
def flatWithdraw (cx cy : Fr) (value : U128) (recipient intentHash : Fr) (out : Fr × Fr × Fr × Fr × Fr × List Fr) :
    List Fr :=
  [(value.1 : Fr), recipient, intentHash, cx, cy, out.1, out.2.1] ++
    ([out.2.2.1] ++ ([out.2.2.2.1, out.2.2.2.2.1] ++ out.2.2.2.2.2))

/-- The flat array of a multisig circuit. -/
def MultisigPublic.flat (cx cy : Fr) : MultisigPublic → List Fr
  | transfer out => flatTransfer cx cy out
  | split out => [cx, cy, out.1, out.2.1] ++ ([out.2.2.1, out.2.2.2.1] ++ out.2.2.2.2.1 ++
      ([out.2.2.2.2.2.1, out.2.2.2.2.2.2.1] ++ out.2.2.2.2.2.2.2))
  | join out => [cx, cy, out.1, out.2.1, out.2.2.1] ++ ([out.2.2.2.1, out.2.2.2.2.1] ++ out.2.2.2.2.2)
  | withdraw value recipient intentHash out => flatWithdraw cx cy value recipient intentHash out

namespace Witness

/-- The circuit a witness is for. -/
def circuitId : Witness → CircuitId
  | deposit _ => .deposit
  | transfer .. => .transfer
  | withdraw .. => .withdraw
  | multisig (.transfer ..) => .transferMultisig
  | multisig (.split ..) => .splitMultisig
  | multisig (.join ..) => .joinMultisig
  | multisig (.withdraw ..) => .withdrawMultisig

/-- The notes that are opened. -/
def opened : Witness → List Opening
  | deposit _ => []
  | transfer spend .. => [spend]
  | withdraw _ _ _ spend .. => [spend]
  | multisig w => w.spends.map GroupSpend.opening

/-- The notes that are minted. -/
def minted : Witness → List Note
  | deposit out => [out.note]
  | transfer _ _ _ _ memo change => [memo.note, change.note]
  | withdraw _ _ _ _ _ change => [change.note]
  | multisig w => w.outputs.map Output.note

/-- The asset of its notes. -/
def asset : Witness → Fr
  | deposit out => out.note.1.assetId
  | transfer spend .. => spend.note.1.assetId
  | withdraw _ _ _ spend .. => spend.note.1.assetId
  | multisig w => w.asset

/-- What is paid in from outside. -/
def paidIn : Witness → ℕ
  | deposit out => out.note.1.value
  | _ => 0

/-- What is paid out. -/
def paidOut : Witness → ℕ
  | withdraw value .. => value.1
  | multisig (.withdraw value ..) => value.1
  | _ => 0

/-- The flat array of its proof, if the circuit accepts it. -/
def flat (poseidon : Fr → Fr → Fr → Fr) (poseidon2 : List Fr → Fr) (cx cy : Fr) : Witness → Option (List Fr)
  | deposit out =>
    (depositMain poseidon2 cx cy out.note out.eph).map fun r => [cx, cy] ++ ([r.1, r.2.1, r.2.2.1, r.2.2.2.1] ++ r.2.2.2.2)
  | transfer spend spendScalar spendPub viewPub memo change =>
    (transferMain poseidon poseidon2 cx cy spendPub viewPub spend.note spendScalar spend.index spend.path memo.note
      memo.eph change.note change.eph).map (flatTransfer cx cy)
  | withdraw value recipient intentHash spend spendScalar change =>
    (withdrawMain poseidon poseidon2 value recipient intentHash cx cy spend.note spendScalar spend.index spend.path
      change.note change.eph).map (flatWithdraw cx cy value recipient intentHash)
  | multisig w => (w.main poseidon poseidon2 cx cy).map (MultisigPublic.flat cx cy)

end Witness

/-! ## Sums -/

theorem foldlM_addU128 {ns : List ℕ} {n total : ℕ} (h : ns.foldlM addU128 n = some total) : total = n + ns.sum := by
  induction ns generalizing n with
  | nil =>
    rw [List.foldlM_nil] at h
    cases h
    rfl
  | cons k ns ih =>
    rw [List.foldlM_cons, bind_eq_some] at h
    obtain ⟨sum, hsum, h⟩ := h
    unfold addU128 at hsum
    split at hsum
    · cases hsum
      rw [ih h, List.sum_cons, Nat.add_assoc]
    · cases hsum

/-- What comes out is what goes in. -/
theorem conserved_of_assertConserved {inputs outputs : List U128} {publicOut : U128} {u : Unit}
    (h : assertConserved inputs outputs publicOut = some u) :
    (inputs.map Subtype.val).sum = publicOut.1 + (outputs.map Subtype.val).sum := by
  unfold assertConserved at h
  simp only [bind_eq_some, guard_eq_some] at h
  obtain ⟨totalIn, hin, totalOut, hout, heq⟩ := h
  rw [foldlM_addU128 hin, foldlM_addU128 hout, Nat.zero_add] at heq
  exact heq

/-! ## Notes that are opened, notes that are minted -/

variable {poseidon : Fr → Fr → Fr → Fr} {poseidon2 : List Fr → Fr}

/-- The nullifier of a note that is opened. -/
def Opening.nullifier (poseidon2 : List Fr → Fr) (o : Opening) : Fr := computeNullifier poseidon2 o.note.1.psi o.index

/-- A note that is opened below a root. -/
def Opening.Below (poseidon : Fr → Fr → Fr → Fr) (poseidon2 : List Fr → Fr) (o : Opening) (root : Fr) : Prop :=
  leanImtInclusionProof poseidon (o.note.leaf poseidon2) o.index o.path = some root

theorem below_of_membership {o : Opening} {nf root : Fr}
    (h : spendMembershipNullifier poseidon poseidon2 o.note o.index o.path = some (nf, root)) :
    nf = o.nullifier poseidon2 ∧ o.Below poseidon poseidon2 root := by
  have hnf := spendMembershipNullifier_nullifier h
  unfold spendMembershipNullifier at h
  simp only [bind_eq_some, guard_eq_some, exists_and_left, exists_const] at h
  obtain ⟨-, _, -, computedRoot, hroot, h⟩ := h
  cases h
  exact ⟨hnf, hroot⟩

theorem below_of_verifySpend {o : Opening} {spendScalar nf root : Fr}
    (h : verifySpend poseidon poseidon2 o.note spendScalar o.index o.path = some (nf, root)) :
    nf = o.nullifier poseidon2 ∧ o.Below poseidon poseidon2 root := by
  unfold verifySpend at h
  simp only [bind_eq_some, guard_eq_some, exists_and_left, exists_const] at h
  obtain ⟨_, -, _, -, -, -, h⟩ := h
  exact below_of_membership h

theorem below_of_openMultisigNote {s : GroupSpend} {nf root : Fr}
    (h : openMultisigNote poseidon poseidon2 s.note s.gpk s.index s.path = some (nf, root)) :
    nf = s.opening.nullifier poseidon2 ∧ s.opening.Below poseidon poseidon2 root := by
  unfold openMultisigNote at h
  simp only [bind_eq_some, guard_eq_some, exists_and_left, exists_const] at h
  obtain ⟨_, -, _, -, -, -, -, h⟩ := h
  exact below_of_membership (o := s.opening) h

/-- A minted note is inserted as its leaf, and sent in seven words. -/
theorem MintedFrom.shape {note : Note} {eph : Fr} {compliancePk : Point} {m : Minted}
    (h : MintedFrom poseidon2 note eph compliancePk m) : m.leaf = note.leaf poseidon2 ∧ m.ciphertext.length = 7 := by
  refine ⟨h.leaf, ?_⟩
  rw [h.ciphertext, length_encrypted]
  rfl

theorem shape_of_selfMint {note : Note} {eph : Fr} {compliancePk : Point} {s : SelfMint}
    (h : selfMint poseidon2 note eph compliancePk = some s) : s.leaf = note.leaf poseidon2 ∧ s.ciphertext.length = 7 := by
  obtain ⟨m, hm, -, rfl⟩ := selfMint_eq h
  exact hm.shape

theorem shape_of_mintIncomingNote {note : Note} {eph : Fr} {compliancePk spendPub viewPub : Point} {i : IncomingMint}
    (h : mintIncomingNote poseidon2 note eph compliancePk spendPub viewPub = some i) :
    i.leaf = note.leaf poseidon2 ∧ i.ciphertext.length = 7 := by
  obtain ⟨m, V, hm, -, rfl⟩ := mintIncomingNote_eq h
  exact hm.shape

/-! ## What is accepted -/

/-- Where the flat array of a circuit has its parts. -/
structure Layout where
  nullifiers : List ℕ
  root : ℕ
  leaves : List ℕ
  amount : Option (ℕ × ℕ)
  length : ℕ

/-- The layouts, the amount with its asset.  A deposit has no root to look for. -/
def layout : CircuitId → Layout
  | .deposit => ⟨[], 0, [2], some (4, 5), 13⟩
  | .transfer => ⟨[2], 3, [4, 15], none, 24⟩
  | .withdraw => ⟨[5], 6, [8], some (0, 7), 17⟩
  | .transferMultisig => ⟨[2], 3, [4, 15], none, 24⟩
  | .splitMultisig => ⟨[2], 3, [4, 13], none, 22⟩
  | .joinMultisig => ⟨[2, 3], 4, [5], none, 14⟩
  | .withdrawMultisig => ⟨[5], 6, [8], some (0, 7), 17⟩

/-- The parents that the notes minted by a circuit name, from those it opens. -/
inductive Lineage : List Opening → List Note → Prop
  | deposit {n : Note} (hn : n.1.parents = 0) : Lineage [] [n]
  | transfer {o : Opening} {memo change : Note} (hmemo : memo.1.parents = parentsHidden)
      (hchange : change.1.parents = packParents (asU32 o.index) 0) : Lineage [o] [memo, change]
  | withdraw {o : Opening} {change : Note} (hchange : change.1.parents = packParents (asU32 o.index) 0) :
      Lineage [o] [change]
  | split {o : Opening} {n n' : Note} (hn : n.1.parents = packParents (asU32 o.index) 0)
      (hn' : n'.1.parents = packParents (asU32 o.index) 0) : Lineage [o] [n, n']
  | join {o o' : Opening} {n : Note} (hlt : asU32 o.index < asU32 o'.index)
      (hn : n.1.parents = packParents (asU32 o.index) (asU32 o'.index)) : Lineage [o, o'] [n]

/-- What holds of the notes of a witness and of the array its proof makes public. -/
structure Accepted (poseidon : Fr → Fr → Fr → Fr) (poseidon2 : List Fr → Fr) (w : Witness) (flat : List Fr) : Prop where
  nullifiers : (layout w.circuitId).nullifiers.map (flat.getD · 0) = w.opened.map (Opening.nullifier poseidon2)
  below : ∀ o ∈ w.opened, o.Below poseidon poseidon2 (flat.getD (layout w.circuitId).root 0)
  leaves : (layout w.circuitId).leaves.map (flat.getD · 0) = w.minted.map (Note.leaf poseidon2)
  amount : ∀ slot ∈ (layout w.circuitId).amount, flat.getD slot.1 0 = ((w.paidIn + w.paidOut : ℕ) : Fr) ∧
    flat.getD slot.2 0 = w.asset
  openedAsset : ∀ o ∈ w.opened, o.note.1.assetId = w.asset
  mintedAsset : ∀ n ∈ w.minted, n.1.assetId = w.asset
  conserved : (w.opened.map fun o => o.note.1.value).sum + w.paidIn = (w.minted.map fun n => n.1.value).sum + w.paidOut
  lineage : Lineage w.opened w.minted
  length : flat.length = (layout w.circuitId).length

/-- Seven words are seven words. -/
theorem exists_words {words : List Fr} (h : words.length = 7) :
    ∃ w₀ w₁ w₂ w₃ w₄ w₅ w₆, words = [w₀, w₁, w₂, w₃, w₄, w₅, w₆] := by
  rcases words with _ | ⟨w₀, _ | ⟨w₁, _ | ⟨w₂, _ | ⟨w₃, _ | ⟨w₄, _ | ⟨w₅, _ | ⟨w₆, _ | ⟨w₇, words⟩⟩⟩⟩⟩⟩⟩⟩ <;>
    simp only [List.length_nil, List.length_cons] at h <;> first | omega | exact ⟨_, _, _, _, _, _, _, rfl⟩

section Circuits

variable {cx cy : Fr} {flat : List Fr}

theorem accepted_deposit {out : Output} (h : (Witness.deposit out).flat poseidon poseidon2 cx cy = some flat) :
    Accepted poseidon poseidon2 (.deposit out) flat := by
  obtain ⟨r, hr, rfl⟩ := Option.map_eq_some_iff.1 h
  unfold depositMain mintDeposit at hr
  simp only [bind_eq_some, guard_eq_some, exists_and_left, exists_const] at hr
  obtain ⟨_, -, hparents, m, hm, hr⟩ := hr
  obtain ⟨hleaf, hlength⟩ := shape_of_selfMint hm
  cases hr
  refine ⟨rfl, fun _ ho => absurd ho List.not_mem_nil, congrArg (fun x => [x]) hleaf, ?_,
    fun _ ho => absurd ho List.not_mem_nil, fun n hn => by rw [List.mem_singleton.1 hn]; rfl,
    Nat.add_comm _ _, .deposit hparents, by simp [hlength, layout, Witness.circuitId]⟩
  rintro slot ⟨⟩
  exact ⟨rfl, rfl⟩

theorem accepted_transfer {spend : Opening} {spendScalar : Fr} {spendPub viewPub : Point} {memo change : Output}
    (h : (Witness.transfer spend spendScalar spendPub viewPub memo change).flat poseidon poseidon2 cx cy = some flat) :
    Accepted poseidon poseidon2 (.transfer spend spendScalar spendPub viewPub memo change) flat := by
  obtain ⟨r, hr, rfl⟩ := Option.map_eq_some_iff.1 h
  unfold transferMain at hr
  simp only [bind_eq_some, guard_eq_some, assertParentsBound, exists_and_left, exists_const] at hr
  obtain ⟨_, -, ⟨nf, root⟩, hspend, hmemo, hchange, -, _, hconserved, hhidden, hparents, i, hi, c, hc, hr⟩ := hr
  obtain ⟨rfl, hbelow⟩ := below_of_verifySpend hspend
  obtain ⟨hleaf, hlength⟩ := shape_of_mintIncomingNote hi
  obtain ⟨hleaf', hlength'⟩ := shape_of_selfMint (mintSelfNote_eq hc).2
  obtain ⟨w₀, w₁, w₂, w₃, w₄, w₅, w₆, hwords⟩ := exists_words hlength
  cases hr
  simp only [flatTransfer, hwords, hleaf, hleaf']
  refine ⟨rfl, ?_, rfl, fun _ hslot => absurd hslot (Option.not_mem_none _), ?_, ?_, ?_, .transfer hhidden hparents,
    by simp [hlength', layout, Witness.circuitId]⟩
  · intro o ho
    rw [List.mem_singleton.1 ho]
    exact hbelow
  · intro o ho
    rw [List.mem_singleton.1 ho]
    rfl
  · intro n hn
    rcases List.mem_pair.1 hn with rfl | rfl
    · exact hmemo.symm
    · exact hchange.symm
  · have hsum := conserved_of_assertConserved hconserved
    simpa [Witness.opened, Witness.minted, Witness.paidIn, Witness.paidOut, Note.amount] using hsum

theorem accepted_withdraw {value : U128} {recipient intentHash spendScalar : Fr} {spend : Opening} {change : Output}
    (h : (Witness.withdraw value recipient intentHash spend spendScalar change).flat poseidon poseidon2 cx cy =
      some flat) :
    Accepted poseidon poseidon2 (.withdraw value recipient intentHash spend spendScalar change) flat := by
  obtain ⟨r, hr, rfl⟩ := Option.map_eq_some_iff.1 h
  unfold withdrawMain at hr
  simp only [bind_eq_some, guard_eq_some, assertParentsBound, exists_and_left, exists_const] at hr
  obtain ⟨_, -, -, -, ⟨nf, root⟩, hspend, hchange, _, hconserved, hparents, c, hc, hr⟩ := hr
  obtain ⟨rfl, hbelow⟩ := below_of_verifySpend hspend
  obtain ⟨hleaf, hlength⟩ := shape_of_selfMint (mintSelfNote_eq hc).2
  cases hr
  simp only [flatWithdraw, hleaf]
  refine ⟨rfl, ?_, rfl, ?_, ?_, ?_, ?_, .withdraw hparents,
    by simp [hlength, layout, Witness.circuitId]⟩
  · intro o ho
    rw [List.mem_singleton.1 ho]
    exact hbelow
  · rintro slot ⟨⟩
    refine ⟨?_, rfl⟩
    show ((value.1 : ℕ) : Fr) = ((0 + value.1 : ℕ) : Fr)
    rw [Nat.zero_add]
  · intro o ho
    rw [List.mem_singleton.1 ho]
    rfl
  · intro n hn
    rw [List.mem_singleton.1 hn]
    exact hchange.symm
  · have hsum := conserved_of_assertConserved hconserved
    simp only [List.map_cons, List.map_nil, List.sum_cons, List.sum_nil, Note.amount] at hsum
    simp only [Witness.opened, Witness.minted, Witness.paidIn, Witness.paidOut, List.map_cons, List.map_nil,
      List.sum_cons, List.sum_nil]
    omega

theorem accepted_transferMultisig {s : GroupSpend} {spendPub viewPub : Point} {memo change : Output}
    (h : (Witness.multisig (.transfer s spendPub viewPub memo change)).flat poseidon poseidon2 cx cy = some flat) :
    Accepted poseidon poseidon2 (.multisig (.transfer s spendPub viewPub memo change)) flat := by
  obtain ⟨p, hp, rfl⟩ := Option.map_eq_some_iff.1 h
  obtain ⟨r, hr, rfl⟩ := Option.map_eq_some_iff.1 hp
  unfold transferMultisigMain at hr
  simp only [bind_eq_some, guard_eq_some, assertParentsBound, exists_and_left, exists_const] at hr
  obtain ⟨_, -, ⟨nf, root⟩, hspend, hmemo, hchange, -, _, hconserved, hhidden, hparents, i, hi, c, hc, _, -, hr⟩ := hr
  obtain ⟨rfl, hbelow⟩ := below_of_openMultisigNote hspend
  obtain ⟨hleaf, hlength⟩ := shape_of_mintIncomingNote hi
  obtain ⟨hleaf', hlength'⟩ := shape_of_selfMint (mintSelfNoteMultisig_eq hc).2.2
  obtain ⟨w₀, w₁, w₂, w₃, w₄, w₅, w₆, hwords⟩ := exists_words hlength
  cases hr
  simp only [MultisigPublic.flat, flatTransfer, hwords, hleaf, hleaf']
  refine ⟨rfl, ?_, rfl, fun _ hslot => absurd hslot (Option.not_mem_none _), ?_, ?_, ?_, .transfer hhidden hparents,
    by simp [hlength', layout, Witness.circuitId]⟩
  · intro o ho
    rw [List.mem_singleton.1 ho]
    exact hbelow
  · intro o ho
    rw [List.mem_singleton.1 ho]
    rfl
  · intro n hn
    rcases List.mem_pair.1 hn with rfl | rfl
    · exact hmemo.symm
    · exact hchange.symm
  · have hsum := conserved_of_assertConserved hconserved
    simpa [Witness.opened, Witness.minted, Witness.paidIn, Witness.paidOut, MultisigWitness.spends,
      MultisigWitness.outputs, GroupSpend.opening, Note.amount] using hsum

theorem accepted_split {s : GroupSpend} {out1 out2 : Output}
    (h : (Witness.multisig (.split s out1 out2)).flat poseidon poseidon2 cx cy = some flat) :
    Accepted poseidon poseidon2 (.multisig (.split s out1 out2)) flat := by
  obtain ⟨p, hp, rfl⟩ := Option.map_eq_some_iff.1 h
  obtain ⟨r, hr, rfl⟩ := Option.map_eq_some_iff.1 hp
  unfold splitMultisigMain at hr
  simp only [bind_eq_some, guard_eq_some, assertParentsBound, exists_and_left, exists_const] at hr
  obtain ⟨_, -, ⟨nf, root⟩, hspend, hasset, hasset', -, _, hconserved, hparents, hparents', c, hc, c', hc', _, -,
    hr⟩ := hr
  obtain ⟨rfl, hbelow⟩ := below_of_openMultisigNote hspend
  obtain ⟨hleaf, hlength⟩ := shape_of_selfMint (mintSelfNoteMultisig_eq hc).2.2
  obtain ⟨hleaf', hlength'⟩ := shape_of_selfMint (mintSelfNoteMultisig_eq hc').2.2
  obtain ⟨w₀, w₁, w₂, w₃, w₄, w₅, w₆, hwords⟩ := exists_words hlength
  cases hr
  simp only [MultisigPublic.flat, hwords, hleaf, hleaf']
  refine ⟨rfl, ?_, rfl, fun _ hslot => absurd hslot (Option.not_mem_none _), ?_, ?_, ?_, .split hparents hparents',
    by simp [hlength', layout, Witness.circuitId]⟩
  · intro o ho
    rw [List.mem_singleton.1 ho]
    exact hbelow
  · intro o ho
    rw [List.mem_singleton.1 ho]
    rfl
  · intro n hn
    rcases List.mem_pair.1 hn with rfl | rfl
    · exact hasset.symm
    · exact hasset'.symm
  · have hsum := conserved_of_assertConserved hconserved
    simpa [Witness.opened, Witness.minted, Witness.paidIn, Witness.paidOut, MultisigWitness.spends,
      MultisigWitness.outputs, GroupSpend.opening, Note.amount] using hsum

theorem accepted_join {s t : GroupSpend} {out : Output}
    (h : (Witness.multisig (.join s t out)).flat poseidon poseidon2 cx cy = some flat) :
    Accepted poseidon poseidon2 (.multisig (.join s t out)) flat := by
  obtain ⟨p, hp, rfl⟩ := Option.map_eq_some_iff.1 h
  obtain ⟨r, hr, rfl⟩ := Option.map_eq_some_iff.1 hp
  unfold joinMultisigMain at hr
  simp only [bind_eq_some, guard_eq_some, assertParentsBound, exists_and_left, exists_const] at hr
  obtain ⟨_, -, ⟨nfA, rootA⟩, hspendA, ⟨nfB, rootB⟩, hspendB, hroot, -, hlt, -, hassetB, hasset, _, hconserved,
    hparents, c, hc, _, -, _, -, hr⟩ := hr
  obtain ⟨rfl, hbelowA⟩ := below_of_openMultisigNote hspendA
  obtain ⟨rfl, hbelowB⟩ := below_of_openMultisigNote hspendB
  obtain ⟨hleaf, hlength⟩ := shape_of_selfMint (mintSelfNoteMultisig_eq hc).2.2
  dsimp only at hroot
  subst hroot
  cases hr
  simp only [MultisigPublic.flat, hleaf]
  refine ⟨rfl, ?_, rfl, fun _ hslot => absurd hslot (Option.not_mem_none _), ?_, ?_, ?_, .join hlt hparents,
    by simp [hlength, layout, Witness.circuitId]⟩
  · intro o ho
    rcases List.mem_pair.1 ho with rfl | rfl
    · exact hbelowA
    · exact hbelowB
  · intro o ho
    rcases List.mem_pair.1 ho with rfl | rfl
    · rfl
    · exact hassetB.symm
  · intro n hn
    rw [List.mem_singleton.1 hn]
    exact hasset.symm
  · have hsum := conserved_of_assertConserved hconserved
    simpa [Witness.opened, Witness.minted, Witness.paidIn, Witness.paidOut, MultisigWitness.spends,
      MultisigWitness.outputs, GroupSpend.opening, Note.amount] using hsum

theorem accepted_withdrawMultisig {value : U128} {recipient intentHash : Fr} {s : GroupSpend} {change : Output}
    (h : (Witness.multisig (.withdraw value recipient intentHash s change)).flat poseidon poseidon2 cx cy =
      some flat) :
    Accepted poseidon poseidon2 (.multisig (.withdraw value recipient intentHash s change)) flat := by
  obtain ⟨p, hp, rfl⟩ := Option.map_eq_some_iff.1 h
  obtain ⟨r, hr, rfl⟩ := Option.map_eq_some_iff.1 hp
  unfold withdrawMultisigMain at hr
  simp only [bind_eq_some, guard_eq_some, assertParentsBound, exists_and_left, exists_const] at hr
  obtain ⟨_, -, ⟨nf, root⟩, hspend, hchange, _, hconserved, hparents, c, hc, _, -, hr⟩ := hr
  obtain ⟨rfl, hbelow⟩ := below_of_openMultisigNote hspend
  obtain ⟨hleaf, hlength⟩ := shape_of_selfMint (mintSelfNoteMultisig_eq hc).2.2
  cases hr
  simp only [MultisigPublic.flat, flatWithdraw, hleaf]
  refine ⟨rfl, ?_, rfl, ?_, ?_, ?_, ?_, .withdraw hparents,
    by simp [hlength, layout, Witness.circuitId]⟩
  · intro o ho
    rw [List.mem_singleton.1 ho]
    exact hbelow
  · rintro slot ⟨⟩
    refine ⟨?_, rfl⟩
    show ((value.1 : ℕ) : Fr) = ((0 + value.1 : ℕ) : Fr)
    rw [Nat.zero_add]
  · intro o ho
    rw [List.mem_singleton.1 ho]
    rfl
  · intro n hn
    rw [List.mem_singleton.1 hn]
    exact hchange.symm
  · have hsum := conserved_of_assertConserved hconserved
    simp only [List.map_cons, List.map_nil, List.sum_cons, List.sum_nil, Note.amount] at hsum
    simp only [Witness.opened, Witness.minted, Witness.paidIn, Witness.paidOut, MultisigWitness.spends,
      MultisigWitness.outputs, GroupSpend.opening, List.map_cons, List.map_nil, List.sum_cons, List.sum_nil]
    omega

/-- What holds of a witness that is accepted. -/
theorem accepted_of_flat {w : Witness} (h : w.flat poseidon poseidon2 cx cy = some flat) :
    Accepted poseidon poseidon2 w flat := by
  cases w with
  | deposit out => exact accepted_deposit h
  | transfer => exact accepted_transfer h
  | withdraw => exact accepted_withdraw h
  | multisig w =>
    cases w with
    | transfer => exact accepted_transferMultisig h
    | split => exact accepted_split h
    | join => exact accepted_join h
    | withdraw => exact accepted_withdrawMultisig h

end Circuits

end Kakure.Circuit
