import Kakure.Circuits.Witness
import Kakure.Lib.Coins
import Kakure.Pool.Admin
import Kakure.Pool.Nullifiers
import Kakure.Tree.Agreement

/-!
# The notes behind a proof

What the leaves and the nullifiers of an instruction stand for, if the proof that the pool accepts has a witness.

* `Hashed` — what is hashed for notes and in the tree, and that nothing of it collides;
* `Witnessed`, `SoundFor` — what is accepted for a statement is what a satisfying witness of its circuit makes public;
* `Reads` — the arrays of the handlers have their parts where the circuits have them;
* `proves_of_verified` — the notes behind a proof that the pool has accepted.
-/

namespace Kakure

open Slices Guarded Runs LeanTree Circuit

/-! ## What is hashed -/

/-- What the provers and the tree hash: the notes, and the calls of the hash of the tree. -/
structure Hashed where
  notes : Set Circuit.Note
  nodes : Set (Fr × Fr × ℕ)

/-- The lists hashed for the notes: for their leaves, and for their nullifiers at any index. -/
def Hashed.lists (H : Hashed) : Set (List Fr) :=
  {l | ∃ n ∈ H.notes, l = n.1.preimage ∨ ∃ i < 2 ^ 32, l = [n.1.psi, ((i : ℕ) : Fr)]}

/-- A call of the hash of the tree. -/
def nodeOf (poseidon : Fr → Fr → Fr → Fr) (q : Fr × Fr × ℕ) : Fr := nodeHash poseidon q.1 q.2.1 q.2.2

/-- Nothing that is hashed collides. -/
structure Hashed.Free (H : Hashed) (poseidon : Fr → Fr → Fr → Fr) (poseidon2 : List Fr → Fr) : Prop where
  lists : Set.InjOn poseidon2 H.lists
  nodes : Set.InjOn (nodeOf poseidon) H.nodes
  leaves : ∀ n ∈ H.notes, ∀ q ∈ H.nodes, n.leaf poseidon2 ≠ nodeOf poseidon q

/-- A genesis leaf that is no hash. -/
structure Hashed.Genesis (H : Hashed) (poseidon : Fr → Fr → Fr → Fr) (poseidon2 : List Fr → Fr) (leaf : Bytes 32) :
    Prop where
  note : ∀ n ∈ H.notes, leaf ≠ (n.leaf poseidon2).toBytes
  node : ∀ q ∈ H.nodes, leaf ≠ (nodeOf poseidon q).toBytes

/-- The notes of a witness and the calls of its paths are among them. -/
structure Hashed.Covers (H : Hashed) (poseidon : Fr → Fr → Fr → Fr) (poseidon2 : List Fr → Fr) (w : Witness) : Prop where
  opened : ∀ o ∈ w.opened, o.note ∈ H.notes
  paths : ∀ o ∈ w.opened, pathQueries (nodeHash poseidon) 0 32 (siblingAt o.path) o.index.val (o.note.leaf poseidon2) ⊆
    H.nodes
  minted : ∀ n ∈ w.minted, n ∈ H.notes

/-- The data of a proof that a witness of the circuit satisfies: it ends with what the witness makes public, and what the
witness hashes is among what is hashed. -/
def Witnessed (env : Env) (poseidon2 : List Fr → Fr) (H : Hashed) (circuitId : UInt8) (data : List UInt8) : Prop :=
  ∃ proof cx cy flat w, data = proof ++ publicWitness (flat.map Fr.toBytes) ∧
    Witness.flat env.poseidon poseidon2 cx cy w = some flat ∧ w.circuitId.toU8 = circuitId ∧
    H.Covers env.poseidon poseidon2 w

/-- What the verifier of the pool accepts for this statement has a witness. -/
def SoundFor (env : Env) (poseidon2 : List Fr → Fr) (H : Hashed) (s : Statement) (pool : Pool) : Prop :=
  ∀ key proof, pool.verifier s.circuitId = .ok key → env.accepts key (proof ++ publicWitness (s.inputs pool)) →
    Witnessed env poseidon2 H s.circuitId (proof ++ publicWitness (s.inputs pool))

variable {env : Env} {call : Call} {poseidon2 : List Fr → Fr} {H : Hashed}

/-! ## The arrays of the handlers -/

/-- The array of a statement has its parts where the circuit has them. -/
structure Reads (s : Statement) (pool : Pool) (id : CircuitId) : Prop where
  circuitId : s.circuitId = id.toU8
  length : (s.inputs pool).length = (layout id).length
  nullifiers : (layout id).nullifiers.map ((s.inputs pool).getD · (Bytes.zero 32)) = s.nullifiers
  root : ∀ i ∈ s.rootIndex, (s.inputs pool).getD (layout id).root (Bytes.zero 32) = pool.rootAt i
  leaves : (layout id).leaves.map ((s.inputs pool).getD · (Bytes.zero 32)) = s.outputs.map NoteOutput.leaf

/-- The array behind what the handler puts in front of it. -/
theorem getD_append_drop (front : List (Bytes 32)) (publicInputs : List (Bytes 32)) (n i : ℕ) :
    (front ++ publicInputs.drop n).getD (front.length + i) (Bytes.zero 32) = input publicInputs (n + i) := by
  rw [List.getD_append_right _ _ _ _ (Nat.le_add_right _ _), Nat.add_sub_cancel_left, input, List.getD_eq_getElem?_getD,
    List.getElem?_drop, List.getD_eq_getElem?_getD]

theorem reads_deposit {publicInputs : List (Bytes 32)} (h : publicInputs.length = 11) (pool : Pool) :
    Reads (depositStatement publicInputs) pool .deposit := by
  have hget := getD_append_drop [pool.compliancePkX, pool.compliancePkY] publicInputs 0
  refine ⟨rfl, by simp [depositStatement, layout, h], rfl, fun i hi => absurd hi (Option.not_mem_none i), ?_⟩
  exact congrArg (fun x => [x]) (hget 0)

theorem reads_transfer {publicInputs : List (Bytes 32)} {rootIndex circuitId : UInt8} {id : CircuitId}
    (hid : id = .transfer ∧ circuitId = 1 ∨ id = .transferMultisig ∧ circuitId = 3) (h : publicInputs.length = 21)
    (pool : Pool) : Reads (transferStatement publicInputs rootIndex circuitId) pool id := by
  have hget := getD_append_drop [pool.compliancePkX, pool.compliancePkY, input publicInputs 0, pool.rootAt rootIndex]
    publicInputs 1
  rcases hid with ⟨rfl, rfl⟩ | ⟨rfl, rfl⟩
  · refine ⟨rfl, by simp [transferStatement, layout, h], rfl, ?_, congrArg₂ (fun x y => [x, y]) (hget 0) (hget 11)⟩
    rintro i ⟨⟩
    rfl
  · refine ⟨rfl, by simp [transferStatement, layout, h], rfl, ?_, congrArg₂ (fun x y => [x, y]) (hget 0) (hget 11)⟩
    rintro i ⟨⟩
    rfl

theorem reads_split {publicInputs : List (Bytes 32)} {rootIndex : UInt8} (h : publicInputs.length = 19) (pool : Pool) :
    Reads (splitStatement publicInputs rootIndex) pool .splitMultisig := by
  have hget := getD_append_drop [pool.compliancePkX, pool.compliancePkY, input publicInputs 0, pool.rootAt rootIndex]
    publicInputs 1
  refine ⟨rfl, by simp [splitStatement, layout, h], rfl, ?_, congrArg₂ (fun x y => [x, y]) (hget 0) (hget 9)⟩
  rintro i ⟨⟩
  rfl

theorem reads_join {publicInputs : List (Bytes 32)} {rootIndex : UInt8} (h : publicInputs.length = 11) (pool : Pool) :
    Reads (joinStatement publicInputs rootIndex) pool .joinMultisig := by
  have hget := getD_append_drop [pool.compliancePkX, pool.compliancePkY, input publicInputs 0, input publicInputs 1,
    pool.rootAt rootIndex] publicInputs 2
  refine ⟨rfl, by simp [joinStatement, layout, h], rfl, ?_, congrArg (fun x => [x]) (hget 0)⟩
  rintro i ⟨⟩
  rfl

theorem reads_withdraw {publicInputs : List (Bytes 32)} {rootIndex circuitId : UInt8} {id : CircuitId}
    (hid : id = .withdraw ∧ circuitId = 2 ∨ id = .withdrawMultisig ∧ circuitId = 6) (h : publicInputs.length = 14)
    (pool : Pool) : Reads (withdrawStatement publicInputs rootIndex circuitId) pool id := by
  have hget := getD_append_drop [input publicInputs 0, input publicInputs 1, input publicInputs 2, pool.compliancePkX,
    pool.compliancePkY, input publicInputs 3, pool.rootAt rootIndex] publicInputs 4
  rcases hid with ⟨rfl, rfl⟩ | ⟨rfl, rfl⟩
  · refine ⟨rfl, by simp [withdrawStatement, layout, h], rfl, ?_, congrArg (fun x => [x]) (hget 1)⟩
    rintro i ⟨⟩
    rfl
  · refine ⟨rfl, by simp [withdrawStatement, layout, h], rfl, ?_, congrArg (fun x => [x]) (hget 1)⟩
    rintro i ⟨⟩
    rfl

/-! ## The notes behind a proof -/

/-- The notes behind a statement: they have its nullifiers, its root and its leaves. -/
structure NotesBehind (env : Env) (poseidon2 : List Fr → Fr) (s : Statement) (pool : Pool) (w : Witness) : Prop where
  nullifiers : s.nullifiers = w.opened.map fun o => (o.nullifier poseidon2).toBytes
  below : ∀ o ∈ w.opened, ∀ i ∈ s.rootIndex, ∃ root, pool.rootAt i = root.toBytes ∧ o.Below env.poseidon poseidon2 root
  leaves : s.outputs.map NoteOutput.leaf = w.minted.map fun n => (n.leaf poseidon2).toBytes

/-- Arrays of the same length with the same bytes are the same. -/
theorem flatMap_val_injective {n : ℕ} {as bs : List (Bytes n)} (hlength : as.length = bs.length)
    (h : as.flatMap Subtype.val = bs.flatMap Subtype.val) : as = bs := by
  induction as generalizing bs with
  | nil => exact (List.length_eq_zero_iff.1 hlength.symm).symm
  | cons a as ih =>
    cases bs with
    | nil => cases hlength
    | cons b bs =>
      rw [List.flatMap_cons, List.flatMap_cons] at h
      obtain ⟨hhead, htail⟩ := List.append_inj h (a.2.trans b.2.symm)
      rw [Subtype.ext hhead, ih (Nat.succ.inj hlength) htail]

theorem length_publicWitness (publicInputs : List (Bytes 32)) :
    (publicWitness publicInputs).length = 12 + 32 * publicInputs.length := by
  have hentries : (publicInputs.flatMap Subtype.val).length = 32 * publicInputs.length := by
    induction publicInputs with
    | nil => rfl
    | cons b bs ih =>
      rw [List.flatMap_cons, List.length_append, ih, b.2, List.length_cons]
      omega
  simp only [publicWitness, List.length_append, hentries, (beBytes 4 _).2]

theorem toU8_injective : Function.Injective CircuitId.toU8 := by
  intro id id' h
  cases id <;> cases id' <;> first | rfl | exact absurd h (by decide)

theorem getD_map_toBytes (flat : List Fr) (i : ℕ) :
    (flat.map Fr.toBytes).getD i (Bytes.zero 32) = (flat.getD i 0).toBytes := by
  have hzero : Bytes.zero 32 = (0 : Fr).toBytes := ((toBytes_eq_zero_iff 0).2 rfl).symm
  rw [hzero, List.getD_map]

/-- What the pool has accepted a proof of, if it has a witness. -/
theorem proves_of_verified {s : Statement} {pool : Pool} {id : CircuitId} (hreads : Reads s pool id)
    (hverified : Verified env s pool) (hsound : SoundFor env poseidon2 H s pool) :
    ∃ w flat, w.circuitId = id ∧ Accepted env.poseidon poseidon2 w flat ∧ s.inputs pool = flat.map Fr.toBytes ∧
      NotesBehind env poseidon2 s pool w ∧ H.Covers env.poseidon poseidon2 w := by
  obtain ⟨key, proof, hkey, -, haccepts⟩ := hverified.accepted
  obtain ⟨proof', cx, cy, flat, w, hdata, hflat, hcircuit, hcovers⟩ := hsound key proof hkey haccepts
  obtain rfl : w.circuitId = id := toU8_injective (hcircuit.trans hreads.circuitId)
  have haccepted := accepted_of_flat hflat
  -- both arrays have the length of the circuit, so the bytes of the entries are the same
  have hlength : (s.inputs pool).length = (flat.map Fr.toBytes).length := by
    rw [hreads.length, List.length_map, haccepted.length]
  have hinputs : s.inputs pool = flat.map Fr.toBytes := by
    have hwitness : (publicWitness (s.inputs pool)).length = (publicWitness (flat.map Fr.toBytes)).length := by
      rw [length_publicWitness, length_publicWitness, hlength]
    have hbytes := (List.append_inj' hdata hwitness).2
    have hentries : (s.inputs pool).flatMap Subtype.val = (flat.map Fr.toBytes).flatMap Subtype.val := by
      unfold publicWitness at hbytes
      rw [hlength] at hbytes
      exact List.append_cancel_left hbytes
    exact flatMap_val_injective hlength hentries
  refine ⟨w, flat, rfl, haccepted, hinputs, ⟨?_, fun o ho i hi => ?_, ?_⟩, hcovers⟩
  · have h := congrArg (List.map Fr.toBytes) haccepted.nullifiers
    rw [List.map_map, List.map_map] at h
    rw [← hreads.nullifiers, hinputs]
    simp only [getD_map_toBytes]
    exact h
  · refine ⟨_, ?_, haccepted.below o ho⟩
    rw [← hreads.root i hi, hinputs, getD_map_toBytes]
  · have h := congrArg (List.map Fr.toBytes) haccepted.leaves
    rw [List.map_map, List.map_map] at h
    rw [← hreads.leaves, hinputs]
    simp only [getD_map_toBytes]
    exact h

end Kakure
