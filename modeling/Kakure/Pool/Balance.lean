import Kakure.Pool.Notes

/-!
# The ledger of notes behind the pool

If what is accepted has a witness and nothing that is hashed collides, a run of the pool is a run of a ledger of notes: its
coins are the leaves, what was taken from it are the nullifiers, and every proof is one of its transactions.

* `Mirrors` — a ledger of notes stands for a state of the pool;
* `note_at` — a note that is opened below a root of the ring is the one inserted at its index;
* `Mirrors.executed` — a statement with notes behind it is a transaction of the ledger;
* `exists_backed` — there are notes behind every successful instruction with a proof.
-/

namespace Kakure

open Slices Guarded Runs LeanTree Circuit

/-! ## Coins -/

/-- What a leaf of the tree stands for. -/
inductive Coin where
  | genesis (leaf : Bytes 32)
  | note (n : Circuit.Note)

namespace Coin

/-- The leaf it is inserted as. -/
def leaf (poseidon2 : List Fr → Fr) : Coin → Bytes 32
  | genesis leaf => leaf
  | note n => (n.leaf poseidon2).toBytes

/-- What it is worth, asset by asset. -/
def value : Coin → Fr → ℕ
  | genesis _ => 0
  | note n => Pi.single n.1.assetId n.1.value

/-- The nullifier that spends it at an index. -/
def nullifier (poseidon2 : List Fr → Fr) (i : ℕ) : Coin → Option (Bytes 32)
  | genesis _ => none
  | note n => some (Notes.computeNullifier poseidon2 n.1.psi (i : Fr)).toBytes

end Coin

/-- The transaction of a witness. -/
def Circuit.Witness.tx (w : Witness) : Coins.Tx Coin (Fr → ℕ) where
  inputs := w.opened.map fun o => o.index.val
  outputs := w.minted.map .note
  paidIn := Pi.single w.asset w.paidIn
  paidOut := Pi.single w.asset w.paidOut

/-- The genesis leaf as a transaction: it is worth nothing. -/
def genesisTx (leaf : Bytes 32) : Coins.Tx Coin (Fr → ℕ) := ⟨[], [.genesis leaf], 0, 0⟩

/-- What a transaction of the ledger of notes is. -/
inductive Stands : Coins.Tx Coin (Fr → ℕ) → Prop
  | genesis (leaf : Bytes 32) : Stands (genesisTx leaf)
  | witness (w : Witness) (hlineage : Lineage w.opened w.minted) : Stands w.tx

/-- The values of one asset add up. -/
theorem sum_single {ι : Type*} (asset : Fr) (xs : List ι) (f : ι → ℕ) :
    (xs.map fun x => (Pi.single asset (f x) : Fr → ℕ)).sum = Pi.single asset (xs.map f).sum := by
  induction xs with
  | nil => rw [List.map_nil, List.map_nil, List.sum_nil, List.sum_nil, Pi.single_zero]
  | cons x xs ih => rw [List.map_cons, List.map_cons, List.sum_cons, List.sum_cons, ih, Pi.single_add]

variable {env : Env} {call : Call} {poseidon2 : List Fr → Fr} {H : Hashed}

/-- A note is the only one with its leaf. -/
theorem Hashed.Free.eq_of_leaf {poseidon : Fr → Fr → Fr → Fr} (h : H.Free poseidon poseidon2) {n n' : Circuit.Note}
    (hn : n ∈ H.notes) (hn' : n' ∈ H.notes) (hleaf : n.leaf poseidon2 = n'.leaf poseidon2) : n = n' := by
  have hpreimage := h.lists ⟨n, hn, Or.inl rfl⟩ ⟨n', hn', Or.inl rfl⟩ hleaf
  exact Subtype.ext (Notes.preimage_injective n.2 n'.2 hpreimage)

/-! ## States and ledgers -/

/-- A ledger of notes stands for a state: its coins are the leaves, what was taken are the nullifiers. -/
structure Mirrors (env : Env) (poseidon2 : List Fr → Fr) (H : Hashed) (m : Machine) (L : Coins.Ledger Coin) : Prop where
  leaves : (noteEvents m.log).map NoteInserted.leaf = L.coins.map (Coin.leaf poseidon2)
  spent : (spentEvents m.log).map some = L.spent.map fun i => (L.coins[i]?).bind (Coin.nullifier poseidon2 i)
  shape : L.coins = [] ∨ ∃ (leaf : Bytes 32) (ns : List Circuit.Note), L.coins = .genesis leaf :: ns.map .note ∧
    H.Genesis env.poseidon poseidon2 leaf ∧ ∀ n ∈ ns, n ∈ H.notes
  opened : ∀ key, env.IsPool key → (m.ledger key).owner = env.programId → L.coins ≠ []
  size : L.coins.length ≤ 2 ^ 32

namespace Mirrors

variable {m m' : Machine} {L : Coins.Ledger Coin}

theorem empty (hfresh : Fresh env m) : Mirrors env poseidon2 H m Coins.Ledger.empty where
  leaves := by rw [hfresh.log]; rfl
  spent := by rw [hfresh.log]; rfl
  shape := Or.inl rfl
  opened key hkey hown := by
    obtain ⟨bump, hpda⟩ := hkey
    have hsystem := (hfresh.derived key (isPda_of_pda env hpda)).1
    exact absurd (hown.symm.trans hsystem) env.programId_ne_system
  size := Nat.zero_le _

theorem note_mem (h : Mirrors env poseidon2 H m L) {n : Circuit.Note} (hn : Coin.note n ∈ L.coins) : n ∈ H.notes := by
  rcases h.shape with hnil | ⟨leaf, ns, hcoins, -, hnotes⟩
  · rw [hnil] at hn
    cases hn
  · rw [hcoins] at hn
    rcases List.mem_cons.1 hn with hhead | htail
    · cases hhead
    · obtain ⟨n', hn', heq⟩ := List.mem_map.1 htail
      cases heq
      exact hnotes n hn'

theorem genesis_mem (h : Mirrors env poseidon2 H m L) {leaf : Bytes 32} (hleaf : Coin.genesis leaf ∈ L.coins) :
    H.Genesis env.poseidon poseidon2 leaf := by
  rcases h.shape with hnil | ⟨leaf', ns, hcoins, hgenesis, -⟩
  · rw [hnil] at hleaf
    cases hleaf
  · rw [hcoins] at hleaf
    rcases List.mem_cons.1 hleaf with hhead | htail
    · cases hhead
      exact hgenesis
    · obtain ⟨n', -, heq⟩ := List.mem_map.1 htail
      cases heq

/-- A leaf that is the one of a hashed note is that note. -/
theorem coin_of_leaf (h : Mirrors env poseidon2 H m L) (hfree : H.Free env.poseidon poseidon2) {i : ℕ}
    {n : Circuit.Note} (hn : n ∈ H.notes)
    (hi : ((noteEvents m.log).map NoteInserted.leaf)[i]? = some (n.leaf poseidon2).toBytes) :
    L.coins[i]? = some (.note n) := by
  rw [h.leaves, List.getElem?_map, Option.map_eq_some_iff] at hi
  obtain ⟨c, hc, hleaf⟩ := hi
  have hmem := List.mem_of_getElem? hc
  cases c with
  | genesis leaf => exact absurd hleaf ((h.genesis_mem hmem).note n hn)
  | note n' =>
    have heq := hfree.eq_of_leaf (h.note_mem hmem) hn (toBytes_injective hleaf)
    rw [hc, heq]

end Mirrors

/-! ## The note at an index -/

/-- The hash calls of the tree over every number of leaves are among those hashed. -/
def Hashed.CoversTree (H : Hashed) (poseidon : Fr → Fr → Fr → Fr) (leaves : List (Bytes 32)) : Prop :=
  ∀ k, treeQueries (nodeHash poseidon) 0 ((leaves.take k).filterMap Fr.ofBytes?) ⊆ H.nodes

theorem Hashed.CoversTree.earlier {poseidon : Fr → Fr → Fr → Fr} {leaves leaves' : List (Bytes 32)}
    (h : H.CoversTree poseidon leaves') (hinit : leaves <+: leaves') : H.CoversTree poseidon leaves := by
  intro k
  have hmin : leaves.take k = leaves'.take (min k leaves.length) := by
    rw [← List.take_take, ← List.prefix_iff_eq_take.1 hinit]
  rw [hmin]
  exact h _

/-- A root in the ring is the root after some of the inserts. -/
theorem History.insertAll_of_rootAt {poseidon : Fr → Fr → Fr → Fr} {pool : Pool} {evs : List NoteInserted}
    (h : History poseidon pool evs) {i : UInt8} (hne : pool.rootAt i ≠ Bytes.zero 32) :
    ∃ k p, insertAll poseidon Pool.empty ((evs.map NoteInserted.leaf).take k) = .ok (p, some (pool.rootAt i)) := by
  have hshows : Ring.Holds rootRing (Bytes.zero 32) (fun j => pool.rootAt (UInt8.ofNat j)) pool.rootCursor.toNat
    (evs.map NoteInserted.root) := h.shows
  rcases hshows.slot_cases rootRing_pos (toNat_lt_rootRing i) with ⟨-, hblank⟩ | ⟨k, root, -, hk, -, hslot⟩
  · rw [UInt8.ofNat_toNat] at hblank
    exact absurd hblank hne
  · rw [UInt8.ofNat_toNat] at hslot
    obtain ⟨ev, hev, hroot⟩ := Option.map_eq_some_iff.1 ((List.getElem?_map ..).symm.trans hk)
    obtain ⟨q, p, hgrows, -⟩ := h.take (k + 1)
    -- the last of these inserts reported this root
    have hlast : (evs.take (k + 1)).getLast? = some ev := by
      have hlt := (List.getElem?_eq_some_iff.1 hev).1
      rw [List.getLast?_eq_getElem?, List.length_take, Nat.min_eq_left hlt, Nat.succ_sub_one,
        List.getElem?_take_of_lt (Nat.lt_succ_self k), hev]
    have hrun := hgrows.insertAll
    rw [hlast, Option.map_some, hroot, ← hslot, List.map_take] at hrun
    exact ⟨k + 1, p, hrun⟩

/-- A note that is opened below a root of the ring is the one inserted at its index. -/
theorem note_at {m : Machine} {L : Coins.Ledger Coin} {pool : Pool} {i : UInt8} {root : Fr} {o : Opening}
    (hmirrors : Mirrors env poseidon2 H m L) (hfree : H.Free env.poseidon poseidon2)
    (htree : H.CoversTree env.poseidon ((noteEvents m.log).map NoteInserted.leaf))
    (hhistory : History env.poseidon pool (noteEvents m.log)) (hne : pool.rootAt i ≠ Bytes.zero 32)
    (hroot : pool.rootAt i = root.toBytes) (hbelow : o.Below env.poseidon poseidon2 root) (hnote : o.note ∈ H.notes)
    (hpath : pathQueries (nodeHash env.poseidon) 0 32 (siblingAt o.path) o.index.val (o.note.leaf poseidon2) ⊆ H.nodes) :
    L.coins[o.index.val]? = some (.note o.note) := by
  obtain ⟨k, p, hrun⟩ := hhistory.insertAll_of_rootAt hne
  rw [hroot] at hrun
  have hcalls : inclusionCalls env.poseidon (((noteEvents m.log).map NoteInserted.leaf).take k) (o.note.leaf poseidon2)
      o.index o.path ⊆ H.nodes := Set.union_subset (htree k) hpath
  have hleaves : ∀ y ∈ o.note.leaf poseidon2 :: (((noteEvents m.log).map NoteInserted.leaf).take k).filterMap Fr.ofBytes?,
      ∀ q ∈ H.nodes, y ≠ nodeOf env.poseidon q := by
    intro y hy q hq
    rcases List.mem_cons.1 hy with rfl | hy
    · exact hfree.leaves _ hnote q hq
    · obtain ⟨b, hb, hy⟩ := List.mem_filterMap.1 hy
      rw [ofBytes?_eq_some_iff] at hy
      have hmem := List.mem_of_mem_take hb
      rw [hmirrors.leaves] at hmem
      obtain ⟨c, hc, rfl⟩ := List.mem_map.1 hmem
      cases c with
      | genesis leaf =>
        rintro rfl
        exact (hmirrors.genesis_mem hc).node q hq hy
      | note n =>
        rw [← toBytes_injective hy]
        exact hfree.leaves n (hmirrors.note_mem hc) q hq
  obtain ⟨-, hget⟩ := inclusion_sound env.poseidon hrun hbelow (hfree.nodes.mono hcalls)
    fun y hy q hq => hleaves y hy q (hcalls hq)
  refine hmirrors.coin_of_leaf hfree hnote ?_
  rw [List.getElem?_take] at hget
  split at hget
  · exact hget
  · cases hget

/-! ## A proof is a transaction -/

theorem valueAt_of_coin {L : Coins.Ledger Coin} {i : ℕ} {n : Circuit.Note} (h : L.coins[i]? = some (.note n)) :
    L.valueAt Coin.value i = Pi.single n.1.assetId n.1.value := by
  rw [Coins.Ledger.valueAt, h]
  rfl

/-- What a witness conserves, as the balance of its transaction. -/
theorem balanced_of_accepted {w : Witness} {flat : List Fr} {L : Coins.Ledger Coin}
    (h : Accepted env.poseidon poseidon2 w flat) (hcoins : ∀ o ∈ w.opened, L.coins[o.index.val]? = some (.note o.note)) :
    (w.tx.inputs.map (L.valueAt Coin.value)).sum + w.tx.paidIn = (w.tx.outputs.map Coin.value).sum + w.tx.paidOut := by
  have hinputs : w.tx.inputs.map (L.valueAt Coin.value) =
      w.opened.map fun o => (Pi.single w.asset o.note.1.value : Fr → ℕ) := by
    show (w.opened.map fun o => o.index.val).map _ = _
    rw [List.map_map]
    refine List.map_congr_left fun o ho => ?_
    rw [Function.comp_apply, valueAt_of_coin (hcoins o ho), h.openedAsset o ho]
  have houtputs : w.tx.outputs.map Coin.value = w.minted.map fun n => (Pi.single w.asset n.1.value : Fr → ℕ) := by
    show (w.minted.map Coin.note).map _ = _
    rw [List.map_map]
    refine List.map_congr_left fun n hn => ?_
    rw [Function.comp_apply, Coin.value, h.mintedAsset n hn]
  rw [hinputs, houtputs, sum_single, sum_single]
  show _ + (Pi.single w.asset w.paidIn : Fr → ℕ) = _ + (Pi.single w.asset w.paidOut : Fr → ℕ)
  rw [← Pi.single_add, ← Pi.single_add, h.conserved]

/-- Different nullifiers are those of different indices. -/
theorem nodup_inputs {w : Witness} {L : Coins.Ledger Coin}
    (hcoins : ∀ o ∈ w.opened, L.coins[o.index.val]? = some (.note o.note))
    (h : (w.opened.map fun o => (o.nullifier poseidon2).toBytes).Nodup) : w.tx.inputs.Nodup := by
  refine List.pairwise_map.2 ((List.pairwise_map.1 h).imp_of_mem fun {o o'} ho ho' hne heq => hne ?_)
  have hindex : o.index = o'.index := ZMod.val_injective _ heq
  have hnote := (hcoins o ho).symm.trans (heq ▸ hcoins o' ho')
  rw [Option.some_inj, Coin.note.injEq] at hnote
  rw [Opening.nullifier, Opening.nullifier, hnote, hindex]

/-- The nullifier of a note that is opened, as the one of the coin at its index. -/
theorem nullifier_at {o : Opening} {L : Coins.Ledger Coin} (h : L.coins[o.index.val]? = some (.note o.note)) :
    (L.coins[o.index.val]?).bind (Coin.nullifier poseidon2 o.index.val) = some (o.nullifier poseidon2).toBytes := by
  rw [h, Option.bind_some, Coin.nullifier, ZMod.natCast_zmod_val]
  rfl

/-- The nullifiers of a statement are those of the coins its transaction takes. -/
theorem inputs_nullifiers {w : Witness} {L : Coins.Ledger Coin} {nullifiers : List (Bytes 32)}
    (hcoins : ∀ o ∈ w.opened, L.coins[o.index.val]? = some (.note o.note))
    (h : nullifiers = w.opened.map fun o => (o.nullifier poseidon2).toBytes) :
    (w.tx.inputs.map fun i => (L.coins[i]?).bind (Coin.nullifier poseidon2 i)) = nullifiers.map some := by
  rw [h]
  show (w.opened.map fun o => o.index.val).map _ = _
  rw [List.map_map, List.map_map]
  exact List.map_congr_left fun o ho => nullifier_at (hcoins o ho)

theorem getElem?_bind_append {coins coins' : List Coin} {is : List ℕ} (h : ∀ i ∈ is, i < coins.length) :
    (is.map fun i => ((coins ++ coins')[i]?).bind (Coin.nullifier poseidon2 i)) =
      is.map fun i => (coins[i]?).bind (Coin.nullifier poseidon2 i) :=
  List.map_congr_left fun i hi => by rw [List.getElem?_append_left (h i hi)]

/-- The execution of a statement with notes behind it is a transaction of the ledger. -/
theorem Mirrors.executed {m m' : Machine} {L : Coins.Ledger Coin} {s : Statement} {w : Witness} {flat : List Fr}
    {evs : List NoteInserted} (hmirrors : Mirrors env poseidon2 H m L) (hkept : L.Kept) (hne : L.coins ≠ [])
    (hcoins : ∀ o ∈ w.opened, L.coins[o.index.val]? = some (.note o.note))
    (hnullifiers : s.nullifiers = w.opened.map fun o => (o.nullifier poseidon2).toBytes)
    (hleaves : s.outputs.map NoteOutput.leaf = w.minted.map fun n => (n.leaf poseidon2).toBytes)
    (haccepted : Accepted env.poseidon poseidon2 w flat) (hminted : ∀ n ∈ w.minted, n ∈ H.notes)
    (hevs : evs.map NoteInserted.output = s.outputs) (hnotes : noteEvents m'.log = noteEvents m.log ++ evs)
    (hspent : spentEvents m'.log = spentEvents m.log ++ s.nullifiers) (hnodup : (spentEvents m'.log).Nodup)
    (hsize : (noteEvents m'.log).length ≤ 2 ^ 32) :
    Coins.Valid Coin.value L w.tx ∧ Mirrors env poseidon2 H m' (L.apply w.tx) := by
  have hmade : ∀ i ∈ w.tx.inputs, i < L.coins.length := by
    intro i hi
    obtain ⟨o, ho, rfl⟩ := List.mem_map.1 hi
    exact (List.getElem?_eq_some_iff.1 (hcoins o ho)).1
  have hinputs := inputs_nullifiers hcoins hnullifiers
  rw [hspent] at hnodup
  obtain ⟨-, hdistinct, hfresh⟩ := List.nodup_append.1 hnodup
  have hleaves' : (noteEvents m'.log).map NoteInserted.leaf = (L.apply w.tx).coins.map (Coin.leaf poseidon2) := by
    have hout : evs.map NoteInserted.leaf = s.outputs.map NoteOutput.leaf := by
      rw [← hevs, List.map_map]
      rfl
    rw [hnotes, List.map_append, hmirrors.leaves, Coins.Ledger.coins_apply, List.map_append, hout, hleaves]
    show _ = _ ++ (w.minted.map Coin.note).map _
    rw [List.map_map]
    rfl
  refine ⟨⟨nodup_inputs hcoins (hnullifiers ▸ hdistinct), hmade, fun i hi hold => ?_,
    balanced_of_accepted haccepted hcoins⟩, ⟨hleaves', ?_, ?_, ?_, ?_⟩⟩
  · -- the nullifier of a coin that was taken is not taken again
    obtain ⟨n, hn, heq⟩ := List.mem_map.1 (hinputs ▸ List.mem_map_of_mem hi :
      (L.coins[i]?).bind (Coin.nullifier poseidon2 i) ∈ s.nullifiers.map some)
    obtain ⟨n', hn', heq'⟩ := List.mem_map.1 (hmirrors.spent ▸ List.mem_map_of_mem hold :
      (L.coins[i]?).bind (Coin.nullifier poseidon2 i) ∈ (spentEvents m.log).map some)
    exact hfresh n' hn' n hn (Option.some_inj.1 (heq'.trans heq.symm))
  · rw [hspent, List.map_append, Coins.Ledger.spent_apply, List.map_append, Coins.Ledger.coins_apply,
      getElem?_bind_append hkept.made, getElem?_bind_append hmade, hmirrors.spent, hinputs]
  · right
    rcases hmirrors.shape with hnil | ⟨leaf, ns, hlist, hgenesis, hmem⟩
    · exact absurd hnil hne
    · refine ⟨leaf, ns ++ w.minted, ?_, hgenesis, fun n hn => ?_⟩
      · rw [Coins.Ledger.coins_apply, hlist, List.map_append]
        rfl
      · exact (List.mem_append.1 hn).elim (hmem n) (hminted n)
  · intro _ _ _ hnil
    exact hne (List.append_eq_nil_iff.1 hnil).1
  · have hlength := congrArg List.length hleaves'
    rw [List.length_map, List.length_map] at hlength
    rwa [← hlength]

/-! ## What is paid -/

/-- The asset of a mint. -/
def assetOf (env : Env) (mint : Pubkey) : Fr := (beNat (assetIdBytes env mint).val : Fr)

theorem assetOf_lt (env : Env) (mint : Pubkey) : (assetOf env mint).val < 256 ^ 20 := by
  have hlt := beNat_lt (assetIdBytes env mint).val
  rw [(assetIdBytes env mint).2] at hlt
  rwa [assetOf, val_natCast_of_lt (lt_trans (lt_trans hlt (by norm_num : 256 ^ 20 < 2 ^ 161)) (by norm_num [bn254ScalarFieldModulus]))]

/-- What an instruction pays into the pool, asset by asset. -/
def PoolInstruction.paidIn (env : Env) (call : Call) : PoolInstruction → Fr → ℕ
  | .deposit _ _ amount => (call.accounts[3]?).elim 0 fun mint => Pi.single (assetOf env mint) amount.toNat
  | _ => 0

/-- What it pays out of it. -/
def PoolInstruction.paidOut (env : Env) (call : Call) : PoolInstruction → Fr → ℕ
  | .withdraw _ _ amount _ => (call.accounts[4]?).elim 0 fun mint => Pi.single (assetOf env mint) amount.toNat
  | .withdrawMultisig _ _ amount _ => (call.accounts[4]?).elim 0 fun mint => Pi.single (assetOf env mint) amount.toNat
  | _ => 0

theorem beNat_replicate_zero_append (k : ℕ) (l : List UInt8) : beNat (List.replicate k 0 ++ l) = beNat l := by
  rw [beNat, List.reverse_append, leNat_append, List.reverse_replicate, leNat_replicate_zero, Nat.mul_zero, Nat.add_zero,
    beNat]

/-- A number in fewer bytes than a field element has is a field element. -/
theorem eq_toBytes_of_padded {b : Bytes 32} {k : ℕ} {l : List UInt8} (hb : b.val = List.replicate k 0 ++ l)
    (hl : l.length ≤ 20) : b = ((beNat l : ℕ) : Fr).toBytes := by
  refine ofBytes?_eq_some_iff.1 ?_
  have hlt : beNat l < bn254ScalarFieldModulus :=
    lt_of_lt_of_le (beNat_lt l) (le_trans (Nat.pow_le_pow_right (by norm_num) hl) (by norm_num [bn254ScalarFieldModulus]))
  rw [Fr.ofBytes?, hb, beNat_replicate_zero_append, if_pos hlt]

theorem assetIdField_eq (env : Env) (mint : Pubkey) : assetIdField env mint = (assetOf env mint).toBytes :=
  eq_toBytes_of_padded (l := (assetIdBytes env mint).val) rfl (assetIdBytes env mint).2.le

theorem amountField_eq (amount : UInt64) : amountField amount = ((amount.toNat : ℕ) : Fr).toBytes := by
  have hfield := eq_toBytes_of_padded (b := amountField amount) (l := (beBytes 8 amount.toNat).val) rfl
    ((beBytes 8 amount.toNat).2.trans_le (by norm_num))
  rwa [beNat_beBytes amount.toNat_lt] at hfield

/-- The amounts of a witness are below `2 ^ 128`, and it does not both pay in and pay out. -/
theorem Circuit.Witness.paid_lt (w : Witness) : w.paidIn < 2 ^ 128 ∧ w.paidOut < 2 ^ 128 := by
  have hpos : 0 < 2 ^ 128 := by norm_num
  cases w with
  | deposit out => exact ⟨out.note.2, hpos⟩
  | transfer => exact ⟨hpos, hpos⟩
  | withdraw value => exact ⟨hpos, value.2⟩
  | multisig w =>
    cases w with
    | withdraw value => exact ⟨hpos, value.2⟩
    | _ => exact ⟨hpos, hpos⟩

/-- Only a deposit pays in. -/
theorem Circuit.Witness.paidIn_eq_zero {w : Witness} (h : w.circuitId ≠ .deposit) : w.paidIn = 0 := by
  cases w with
  | deposit out => exact absurd rfl h
  | _ => rfl

/-- Only a withdrawal pays out. -/
theorem Circuit.Witness.paidOut_eq_zero {w : Witness} (h : w.circuitId ≠ .withdraw ∧ w.circuitId ≠ .withdrawMultisig) :
    w.paidOut = 0 := by
  cases w with
  | withdraw => exact absurd rfl h.1
  | multisig w =>
    cases w with
    | withdraw => exact absurd rfl h.2
    | _ => rfl
  | _ => rfl

/-- An amount that is made public is the one of the witness. -/
theorem amount_of_field {n : ℕ} {amount : UInt64} (hn : n < 2 ^ 128)
    (h : amountField amount = ((n : ℕ) : Fr).toBytes) : n = amount.toNat := by
  rw [amountField_eq] at h
  have hval := congrArg ZMod.val (toBytes_injective h)
  have hamount : amount.toNat < 2 ^ 128 := lt_trans amount.toNat_lt (by norm_num)
  rw [val_natCast_of_lt (lt_trans hamount two_pow_128_lt_modulus),
    val_natCast_of_lt (lt_trans hn two_pow_128_lt_modulus)] at hval
  exact hval.symm

/-- The amount and the asset that a statement has in these slots are those of the witness. -/
theorem amount_of_slots {w : Witness} {flat : List Fr} {inputs : List (Bytes 32)} {amount : UInt64} {mint : Pubkey}
    {i j : ℕ} (haccepted : Accepted env.poseidon poseidon2 w flat) (hinputs : inputs = flat.map Fr.toBytes)
    (hslots : (layout w.circuitId).amount = some (i, j)) (hi : inputs.getD i (Bytes.zero 32) = amountField amount)
    (hj : inputs.getD j (Bytes.zero 32) = assetIdField env mint) (hlt : w.paidIn + w.paidOut < 2 ^ 128) :
    w.paidIn + w.paidOut = amount.toNat ∧ w.asset = assetOf env mint := by
  obtain ⟨hamount, hasset⟩ := haccepted.amount (i, j) hslots
  rw [hinputs, getD_map_toBytes] at hi hj
  rw [hamount] at hi
  rw [hasset, assetIdField_eq] at hj
  exact ⟨amount_of_field hlt hi.symm, toBytes_injective hj⟩

/-! ## The notes behind an instruction -/

/-- The notes behind a successful instruction with a proof: they have its nullifiers and its leaves, and they are worth
what it moves. -/
structure Backed (env : Env) (poseidon2 : List Fr → Fr) (H : Hashed) (call : Call) (ix : PoolInstruction) (s : Statement)
    (m m' : Machine) (w : Witness) : Prop where
  executed : ∃ poolKey pool pool' m₁, Verified env s pool ∧ Executed env poolKey s pool pool' m m₁ ∧ m'.log = m₁.log ∧
    NotesBehind env poseidon2 s pool w
  accepted : ∃ flat, Accepted env.poseidon poseidon2 w flat
  covers : H.Covers env.poseidon poseidon2 w
  root : s.rootIndex = none → s.nullifiers = []
  paidIn : ix.paidIn env call = Pi.single w.asset w.paidIn
  paidOut : ix.paidOut env call = Pi.single w.asset w.paidOut

/-- What the verifier of the pool account of a state accepts for this statement has a witness. -/
def SoundAt (env : Env) (poseidon2 : List Fr → Fr) (H : Hashed) (m : Machine) (s : Statement) : Prop :=
  ∀ pool, PoolAt env m pool → SoundFor env poseidon2 H s pool

section Instructions

variable {S : Set Seeds} {seen : Pubkey → Pubkey → Prop} {m m' m₁ : Machine} {s : Statement} {ix : PoolInstruction}
  {poolKey : Pubkey} {pool pool' : Pool}

/-- The notes behind an executed statement, whatever its instruction moves. -/
theorem exists_notes {id : CircuitId} (hkept : Kept env S seen m) (hsound : SoundAt env poseidon2 H m s)
    (hreads : Reads s pool id) (hverified : Verified env s pool)
    (hexecuted : Executed env poolKey s pool pool' m m₁) :
    ∃ w flat, w.circuitId = id ∧ Accepted env.poseidon poseidon2 w flat ∧ s.inputs pool = flat.map Fr.toBytes ∧
      NotesBehind env poseidon2 s pool w ∧ H.Covers env.poseidon poseidon2 w := by
  obtain ⟨hpool, -⟩ := hkept.isPool hverified hexecuted
  exact proves_of_verified hreads hverified
    (hsound pool ⟨poolKey, hpool, hexecuted.owner_before, hexecuted.pool_before.symm⟩)

/-- An instruction that moves no tokens. -/
theorem backed_of_still {id : CircuitId} (hkept : Kept env S seen m) (hsound : SoundAt env poseidon2 H m s)
    (hreads : Reads s pool id) (hverified : Verified env s pool) (hexecuted : Executed env poolKey s pool pool' m m')
    (hroot : s.rootIndex = none → s.nullifiers = []) (hin : id ≠ .deposit)
    (hout : id ≠ .withdraw ∧ id ≠ .withdrawMultisig) (hix : ix.paidIn env call = 0 ∧ ix.paidOut env call = 0) :
    ∃ w, Backed env poseidon2 H call ix s m m' w := by
  obtain ⟨w, flat, rfl, haccepted, -, hproves, hcovers⟩ := exists_notes hkept hsound hreads hverified hexecuted
  refine ⟨w, ⟨poolKey, pool, pool', m', hverified, hexecuted, rfl, hproves⟩, ⟨flat, haccepted⟩, hcovers, hroot, ?_, ?_⟩
  · rw [w.paidIn_eq_zero hin, Pi.single_zero, hix.1]
  · rw [w.paidOut_eq_zero hout, Pi.single_zero, hix.2]

theorem backed_of_transferLike {proof : Bytes 192} {publicInputs : List (Bytes 32)} {rootIndex circuitId : UInt8}
    {id : CircuitId} {u : Unit} (hkept : Kept env S seen m)
    (hsound : SoundAt env poseidon2 H m (transferStatement publicInputs rootIndex circuitId))
    (hid : id = .transfer ∧ circuitId = 1 ∨ id = .transferMultisig ∧ circuitId = 3)
    (hix : ix.paidIn env call = 0 ∧ ix.paidOut env call = 0)
    (h : transferLike env call proof publicInputs rootIndex circuitId 21 m = .ok (u, m')) :
    ∃ w, Backed env poseidon2 H call ix (transferStatement publicInputs rootIndex circuitId) m m' w := by
  obtain ⟨hcount, poolKey, bump, pool, pool', hpda, hverified, hexecuted⟩ := transferLike_ok h
  refine backed_of_still hkept hsound (reads_transfer hid hcount pool) hverified hexecuted nofun ?_ ?_ hix
  · rcases hid with ⟨rfl, -⟩ | ⟨rfl, -⟩ <;> decide
  · rcases hid with ⟨rfl, -⟩ | ⟨rfl, -⟩ <;> decide

theorem backed_of_withdrawLike {proof : Bytes 192} {publicInputs : List (Bytes 32)} {amount : UInt64}
    {rootIndex circuitId : UInt8} {id : CircuitId} {u : Unit} (hkept : Kept env S seen m)
    (hsound : SoundAt env poseidon2 H m (withdrawStatement publicInputs rootIndex circuitId))
    (hid : id = .withdraw ∧ circuitId = 2 ∨ id = .withdrawMultisig ∧ circuitId = 6)
    (hin : ix.paidIn env call = 0) (hout : ix.paidOut env call =
      (call.accounts[4]?).elim 0 fun mint => Pi.single (assetOf env mint) amount.toNat)
    (h : withdrawLike env call proof publicInputs amount rootIndex circuitId m = .ok (u, m')) :
    ∃ w, Backed env poseidon2 H call ix (withdrawStatement publicInputs rootIndex circuitId) m m' w := by
  obtain ⟨hcount, poolKey, bump, assetKey, mint, vault, destination, tokenProgram, -, -, hmint, -, -, -, hpda, -, hamount,
    -, -, hasset, -, pool, pool', m₁, hverified, hexecuted, htransferred⟩ := withdrawLike_ok h
  obtain ⟨w, flat, rfl, haccepted, hinputs, hproves, hcovers⟩ :=
    exists_notes hkept hsound (reads_withdraw hid hcount pool) hverified hexecuted
  have hslots : (layout w.circuitId).amount = some (0, 7) := by
    rcases hid with ⟨hw, -⟩ | ⟨hw, -⟩ <;> rw [hw] <;> rfl
  have hzero : w.paidIn = 0 := by
    refine w.paidIn_eq_zero ?_
    rcases hid with ⟨hw, -⟩ | ⟨hw, -⟩ <;> rw [hw] <;> decide
  have hsecond : ((withdrawStatement publicInputs rootIndex circuitId).inputs pool).getD 7 (Bytes.zero 32) =
      assetIdField env mint :=
    (getD_append_drop [input publicInputs 0, input publicInputs 1, input publicInputs 2, pool.compliancePkX,
      pool.compliancePkY, input publicInputs 3, pool.rootAt rootIndex] publicInputs 4 0).trans hasset
  obtain ⟨hsum, hw⟩ := amount_of_slots haccepted hinputs hslots hamount hsecond
    (by rw [hzero, Nat.zero_add]; exact w.paid_lt.2)
  rw [hzero, Nat.zero_add] at hsum
  refine ⟨w, ⟨poolKey, pool, pool', m₁, hverified, hexecuted, htransferred.log, hproves⟩, ⟨flat, haccepted⟩, hcovers,
    nofun, ?_, ?_⟩
  · rw [hin, hzero, Pi.single_zero]
  · rw [hout, hmint, hw, hsum]
    rfl

theorem backed_of_deposit {proof : Bytes 192} {publicInputs : List (Bytes 32)} {amount : UInt64} {u : Unit}
    (hkept : Kept env S seen m) (hsound : SoundAt env poseidon2 H m (depositStatement publicInputs))
    (h : deposit env call proof publicInputs amount m = .ok (u, m')) :
    ∃ w, Backed env poseidon2 H call (.deposit proof publicInputs amount) (depositStatement publicInputs) m m' w := by
  obtain ⟨hcount, depositor, poolKey, assetKey, mint, vault, depositorToken, tokenProgram, assetBump, -, -, -, hmint, -, -,
    -, -, -, -, hamount, hasset, -, -, pool, pool', asset, m₁, m₂, m₃, hverified, hexecuted, hregistered, hopened,
    htransferred⟩ := deposit_ok h
  obtain ⟨w, flat, hid, haccepted, hinputs, hproves, hcovers⟩ :=
    exists_notes hkept hsound (reads_deposit hcount pool) hverified hexecuted
  have hslots : (layout w.circuitId).amount = some (4, 5) := by
    rw [hid]
    rfl
  have hzero : w.paidOut = 0 := w.paidOut_eq_zero (by rw [hid]; decide)
  have hget := getD_append_drop [pool.compliancePkX, pool.compliancePkY] publicInputs 0
  obtain ⟨hsum, hw⟩ := amount_of_slots haccepted hinputs hslots ((hget 2).trans hamount) ((hget 3).trans hasset)
    (by rw [hzero]; exact w.paid_lt.1)
  rw [hzero, Nat.add_zero] at hsum
  refine ⟨w, ⟨poolKey, pool, pool', m₁, hverified, hexecuted, ?_, hproves⟩, ⟨flat, haccepted⟩, hcovers, fun _ => rfl,
    ?_, ?_⟩
  · rw [htransferred.log, hopened.log, hregistered.log]
  · rw [PoolInstruction.paidIn, hmint, hw, hsum]
    rfl
  · rw [hzero, Pi.single_zero]
    rfl

/-- There are notes behind every successful instruction with a proof. -/
theorem exists_backed {u : Unit} (hkept : Kept env S seen m) (hsound : SoundAt env poseidon2 H m s)
    (hs : ix.statement = some s) (h : process env call ix m = .ok (u, m')) :
    ∃ w, Backed env poseidon2 H call ix s m m' w := by
  cases ix with
  | deposit proof publicInputs amount =>
    cases hs
    exact backed_of_deposit hkept hsound h
  | transfer proof publicInputs rootIndex =>
    cases hs
    exact backed_of_transferLike hkept hsound (Or.inl ⟨rfl, rfl⟩) ⟨rfl, rfl⟩ h
  | transferMultisig proof publicInputs rootIndex =>
    cases hs
    exact backed_of_transferLike hkept hsound (Or.inr ⟨rfl, rfl⟩) ⟨rfl, rfl⟩ h
  | splitMultisig proof publicInputs rootIndex =>
    cases hs
    obtain ⟨hcount, poolKey, bump, pool, pool', hpda, hverified, hexecuted⟩ := splitMultisig_ok h
    exact backed_of_still hkept hsound (reads_split hcount pool) hverified hexecuted nofun (by decide) (by decide)
      ⟨rfl, rfl⟩
  | joinMultisig proof publicInputs rootIndex =>
    cases hs
    obtain ⟨hcount, poolKey, bump, pool, pool', hpda, hverified, hexecuted⟩ := joinMultisig_ok h
    exact backed_of_still hkept hsound (reads_join hcount pool) hverified hexecuted nofun (by decide) (by decide)
      ⟨rfl, rfl⟩
  | withdraw proof publicInputs amount rootIndex =>
    cases hs
    exact backed_of_withdrawLike hkept hsound (Or.inl ⟨rfl, rfl⟩) rfl rfl h
  | withdrawMultisig proof publicInputs amount rootIndex =>
    cases hs
    exact backed_of_withdrawLike hkept hsound (Or.inr ⟨rfl, rfl⟩) rfl rfl h
  | _ => cases hs

end Instructions

end Kakure
