import Kakure.Pool.Inflation
import Kakure.Threshold.ChainTrace

/-!
# What a trace shows

A note is spent by the transaction that makes others.  The tracer follows this relation: forward it finds what was made
of a note, backward what the note was made of.

* `Parentage`, `exists_parentage` — the parents that a note names are the coins its transaction takes;
* `forwardStep_note`, `backwardStep_note` — a note is expanded to its neighbours, if the chain state is faithful;
* `chain_trace_exact` — every trace of every run of the pool ends with exactly the true graph;
* `chain_trace_sound` — whatever the decryption answers, no trace has an edge that is not there.
-/

namespace Kakure.Threshold

open Slices Guarded Runs LeanTree Loops Traverse Fallible
open Coins (Feeds Within total)
open Notes (computePsi computeNullifier)
open Tss (newFr)

/-! ## The ledger under a trace -/

/-- A run of the ledger of notes, as the pool has it: the first coin is no note and is never taken. -/
structure Traceable (txs : List (Coins.Tx Coin (Fr → ℕ))) (L : Coins.Ledger Coin) : Prop where
  run : Run (Coins.Step Coin.value) Coins.Ledger.empty txs L
  stands : ∀ tx ∈ txs, Stands tx
  first : ∀ n, L.coins[0]? ≠ some (.note n)
  notes : ∀ i, 1 ≤ i → i < L.coins.length → ∃ n, L.coins[i]? = some (.note n)
  taken : 0 ∉ L.spent
  size : L.coins.length ≤ 2 ^ 32

/-- The parents that a note names, and where they are. -/
inductive Parentage (L : Coins.Ledger Coin) (inputs : List ℕ) (j : ℕ) (n : Circuit.Note) : Prop
  | none (hinputs : inputs = []) (hparents : n.1.parents = 0)
  | named (a b : ℕ) (ha : a ≠ 0) (hlt : a < 2 ^ 32 ∧ b < 2 ^ 32) (hinputs : inputs = parentsOf a b)
      (hparents : n.1.parents = Circuit.packParents a b)
  | hidden (a : ℕ) (change : Circuit.Note) (ha : a ≠ 0) (hlt : a < 2 ^ 32) (hinputs : inputs = [a])
      (hparents : n.1.parents = Circuit.parentsHidden) (hchange : L.coins[j + 1]? = some (.note change))
      (hnext : change.1.parents = Circuit.packParents a 0)

section Ledger

variable {txs : List (Coins.Tx Coin (Fr → ℕ))} {L : Coins.Ledger Coin} {hash : List Fr → Fr} {decrypt : DecryptNote}
  {chain : ChainState} {i j k : ℕ} {n : Circuit.Note}

theorem Traceable.input {tx : Coins.Tx Coin (Fr → ℕ)} (h : Traceable txs L) (hk : txs[k]? = some tx)
    (hi : i ∈ tx.inputs) :
    i ≠ 0 ∧ i < L.coins.length := by
  have hspent := (Coins.mem_spent_iff h.run).2 ⟨k, tx, hk, hi⟩
  refine ⟨?_, (Coins.run_kept h.run).made i hspent⟩
  rintro rfl
  exact h.taken hspent

/-- The coins of a transaction are numbered with few bits. -/
theorem asU32_of_mem {w : Circuit.Witness} {o : Circuit.Opening} (h : Traceable txs L) (hk : txs[k]? = some w.tx)
    (ho : o ∈ w.opened) : Circuit.asU32 o.index = o.index.val ∧ o.index.val < 2 ^ 32 ∧ o.index.val ≠ 0 := by
  have hmem : o.index.val ∈ w.tx.inputs := List.mem_map_of_mem (f := fun o : Circuit.Opening => o.index.val) ho
  have hlt := lt_of_lt_of_le (h.input hk hmem).2 h.size
  exact ⟨Nat.mod_eq_of_lt hlt, hlt, (h.input hk hmem).1⟩

/-- What a note names that a witness makes. -/
theorem parentage_of_lineage {opened : List Circuit.Opening} {minted : List Circuit.Note} {pos : ℕ}
    (hlineage : Circuit.Lineage opened minted) (hnote : minted[pos]? = some n)
    (hindex : ∀ o ∈ opened, Circuit.asU32 o.index = o.index.val ∧ o.index.val < 2 ^ 32 ∧ o.index.val ≠ 0)
    (hnext : ∀ c, minted[pos + 1]? = some c → L.coins[j + 1]? = some (.note c)) :
    Parentage L (opened.map fun o => o.index.val) j n := by
  cases hlineage with
  | deposit hparents =>
    obtain rfl := List.mem_singleton.1 (List.mem_of_getElem? hnote)
    exact .none rfl hparents
  | @transfer o memo change hmemo hchange =>
    obtain ⟨has, hlt, hne⟩ := hindex o (List.mem_singleton_self o)
    rw [has] at hchange
    rcases List.mem_pair.1 (List.mem_of_getElem? hnote) with rfl | rfl
    · cases pos with
      | zero => exact .hidden _ change hne hlt rfl hmemo (hnext change rfl) hchange
      | succ pos =>
        -- the memo is in the second place only if both notes are the same
        cases pos with
        | zero =>
          obtain rfl := Option.some.inj hnote
          exact .named _ 0 hne ⟨hlt, by norm_num⟩ rfl hchange
        | succ pos => cases hnote
    · exact .named _ 0 hne ⟨hlt, by norm_num⟩ rfl hchange
  | @withdraw o change hchange =>
    obtain ⟨has, hlt, hne⟩ := hindex o (List.mem_singleton_self o)
    rw [has] at hchange
    obtain rfl := List.mem_singleton.1 (List.mem_of_getElem? hnote)
    exact .named _ 0 hne ⟨hlt, by norm_num⟩ rfl hchange
  | @split o n₁ n₂ hfirst hsecond =>
    obtain ⟨has, hlt, hne⟩ := hindex o (List.mem_singleton_self o)
    rw [has] at hfirst hsecond
    rcases List.mem_pair.1 (List.mem_of_getElem? hnote) with rfl | rfl
    · exact .named _ 0 hne ⟨hlt, by norm_num⟩ rfl hfirst
    · exact .named _ 0 hne ⟨hlt, by norm_num⟩ rfl hsecond
  | @join o o' n' hless hparents =>
    obtain ⟨has, hlt, hne⟩ := hindex o List.mem_cons_self
    obtain ⟨has', hlt', -⟩ := hindex o' (List.mem_cons_of_mem _ (List.mem_singleton_self o'))
    rw [has, has'] at hparents hless
    obtain rfl := List.mem_singleton.1 (List.mem_of_getElem? hnote)
    refine .named _ _ hne ⟨hlt, hlt'⟩ ?_ hparents
    rw [parentsOf, if_neg (by omega)]
    rfl

/-- A note names the coins that its transaction takes. -/
theorem exists_parentage (h : Traceable txs L) (hn : L.coins[j]? = some (.note n)) :
    ∃ inputs, (∀ i, Feeds txs i j ↔ i ∈ inputs) ∧ Parentage L inputs j n := by
  obtain ⟨k, tx, pos, hk, hwithin, hj, hpos⟩ := Coins.exists_made h.run hn
  refine ⟨tx.inputs, fun i => Coins.feeds_iff_of_made hk hwithin, ?_⟩
  cases h.stands tx (List.mem_of_getElem? hk) with
  | genesis leaf =>
    have hmem := List.mem_of_getElem? hpos
    rw [genesisTx, List.mem_singleton] at hmem
    cases hmem
  | witness w hlineage =>
    have houtputs : w.tx.outputs = w.minted.map Coin.note := rfl
    have hnote : w.minted[pos]? = some n := by
      obtain ⟨n', hn', heq⟩ := Option.map_eq_some_iff.1 ((List.getElem?_map ..).symm.trans hpos)
      rwa [← Coin.note.inj heq]
    refine parentage_of_lineage hlineage hnote (fun o ho => asU32_of_mem h hk ho) fun c hc => ?_
    have hlt : pos + 1 < w.tx.outputs.length := by
      rw [houtputs, List.length_map]
      exact (List.getElem?_eq_some_iff.1 hc).1
    rw [hj, Nat.add_assoc, Coins.getElem?_coins h.run hk hlt, houtputs, List.getElem?_map, hc]
    rfl

/-! ## Faithful chain states -/

/-- The nullifier of a note at an index. -/
def nullifierAt (hash : List Fr → Fr) (n : Circuit.Note) (i : ℕ) : Fr := computeNullifier hash n.1.psi (i : Fr)

/-- A chain state that serves the ledger, and a decryption that opens its notes. -/
structure Serves (hash : List Fr → Fr) (decrypt : DecryptNote) (chain : ChainState)
    (txs : List (Coins.Tx Coin (Fr → ℕ))) (L : Coins.Ledger Coin) : Prop where
  next : chain.nextLeafIndex = L.coins.length
  opens : ∀ (i : ℕ) n, L.coins[i]? = some (.note n) → ∃ data cek, chain.getLeaf i = some data ∧
    data.leaf = n.leaf hash ∧ decrypt data.ephPub data.ciphertext = .ok (n.1.transmitted, cek) ∧
    computePsi hash cek = n.1.psi
  spent : ∀ (i : ℕ) n, L.coins[i]? = some (.note n) →
    (chain.isNullifierSpent (nullifierAt hash n i) = true ↔ i ∈ L.spent)
  children : ∀ (i : ℕ) n, L.coins[i]? = some (.note n) → ∀ v, v ∈ chain.childrenOfSpend (nullifierAt hash n i) ↔
    ∃ j : ℕ, v = j ∧ Feeds txs i j

theorem Serves.opened (h : Serves hash decrypt chain txs L) (hn : L.coins[i]? = some (.note n)) :
    ∃ data, chain.getLeaf i = some data ∧ openLeaf hash decrypt data = .ok (some (n.1.transmitted, n.1.psi)) := by
  obtain ⟨data, cek, hdata, hleaf, hdecrypt, hpsi⟩ := h.opens i n hn
  exact ⟨data, hdata, openLeaf_note n.2 hdecrypt hpsi hleaf.symm⟩

theorem newFr_index (h : i < 2 ^ 32) : newFr (i : ℤ) = .ok (i : Fr) := by
  rw [Tss.newFr_eq (Int.natCast_nonneg i), Int.cast_natCast]
  exact Int.ofNat_lt.2 (lt_trans (lt_trans h (by norm_num)) two_pow_128_lt_modulus)

theorem Traceable.index_lt (h : Traceable txs L) (hn : L.coins[i]? = some (.note n)) : i < 2 ^ 32 :=
  lt_of_lt_of_le (List.getElem?_eq_some_iff.1 hn).1 h.size

/-- The indices of the notes. -/
noncomputable def noteRange (L : Coins.Ledger Coin) : Finset ℤ := Finset.Ico 1 L.coins.length

theorem Traceable.exists_note (h : Traceable txs L) {v : ℤ} (hv : v ∈ noteRange L) :
    ∃ i n, v = (i : ℕ) ∧ L.coins[i]? = some (.note n) := by
  obtain ⟨hlow, hhigh⟩ := Finset.mem_Ico.1 hv
  obtain ⟨i, rfl⟩ := Int.eq_ofNat_of_zero_le (by omega : 0 ≤ v)
  obtain ⟨n, hn⟩ := h.notes i (by omega) (by omega)
  exact ⟨i, n, rfl, hn⟩

theorem Traceable.mem_noteRange (h : Traceable txs L) (hn : L.coins[i]? = some (.note n)) : (i : ℤ) ∈ noteRange L := by
  refine Finset.mem_Ico.2 ⟨?_, Int.ofNat_lt.2 (List.getElem?_eq_some_iff.1 hn).1⟩
  have hne : i ≠ 0 := by
    rintro rfl
    exact h.first n hn
  omega

/-- From a note to those that were made of it. -/
def Forward (txs : List (Coins.Tx Coin (Fr → ℕ))) (v w : ℤ) : Prop := ∃ i j : ℕ, v = i ∧ w = j ∧ Feeds txs i j

/-- From a note to those it was made of. -/
def Backward (txs : List (Coins.Tx Coin (Fr → ℕ))) (v w : ℤ) : Prop := Forward txs w v

theorem forward_cast : Forward txs i j ↔ Feeds txs i j := by
  refine ⟨?_, fun h => ⟨i, j, rfl, rfl, h⟩⟩
  rintro ⟨i', j', hi, hj, h⟩
  rwa [Int.ofNat_inj.1 hi, Int.ofNat_inj.1 hj]

theorem Traceable.forward_mem (h : Traceable txs L) {v w : ℤ} (hvw : Forward txs v w) :
    v ∈ noteRange L ∧ w ∈ noteRange L := by
  obtain ⟨i, j, rfl, rfl, hfeeds⟩ := hvw
  have hlt := hfeeds.lt h.run
  have hj := hfeeds.lt_length h.run
  obtain ⟨k, tx, hk, hi, -⟩ := hfeeds
  have hne := (h.input hk hi).1
  constructor
  · exact Finset.mem_Ico.2 ⟨by omega, by omega⟩
  · exact Finset.mem_Ico.2 ⟨by omega, by omega⟩

/-- Every transaction that takes a coin makes one. -/
theorem Traceable.exists_child (h : Traceable txs L) (hi : i ∈ L.spent) : ∃ j, Feeds txs i j := by
  obtain ⟨k, tx, hk, hmem⟩ := (Coins.mem_spent_iff h.run).1 hi
  have hpos : 0 < tx.size := by
    cases h.stands tx (List.mem_of_getElem? hk) with
    | genesis leaf => cases hmem
    | witness w hlineage =>
      show 0 < (w.minted.map Coin.note).length
      rw [List.length_map]
      generalize w.opened = opened, w.minted = minted at hlineage
      cases hlineage <;> exact Nat.succ_pos _
  refine ⟨total Coins.Tx.size (txs.take k), k, tx, hk, hmem, le_rfl, ?_⟩
  rw [Coins.total_take_succ hk]
  exact Nat.lt_add_of_pos_right hpos

/-- What is read of the chain state once a leaf is opened. -/
theorem forwardStep_of_opened {data : LeafData} {fields : List Fr} {psi : Fr} (hi : i < 2 ^ 32)
    (hdata : chain.getLeaf i = some data) (hopened : openLeaf hash decrypt data = .ok (some (fields, psi))) :
    forwardStep hash decrypt chain i =
      if chain.isNullifierSpent (computeNullifier hash psi i) = false then .ok ⟨[], false⟩
      else if (chain.childrenOfSpend (computeNullifier hash psi i)).any fun c => c < 0 ∨ chain.nextLeafIndex ≤ c then
        .ok ⟨[], true⟩
      else .ok ⟨(chain.childrenOfSpend (computeNullifier hash psi i)).map fun child => (child, ((i : ℤ), child)),
        (chain.childrenOfSpend (computeNullifier hash psi i)).isEmpty⟩ := by
  have hindex : newFr (i : ℤ) = .ok (i : Fr) := newFr_index hi
  unfold forwardStep
  rw [hdata, Option.elim_some, bind_of_ok hopened, Option.elim_some, hindex]
  rfl

/-- A note is expanded to what was made of it. -/
theorem forwardStep_note (h : Traceable txs L) (hserves : Serves hash decrypt chain txs L)
    (hn : L.coins[i]? = some (.note n)) :
    ∃ f, forwardStep hash decrypt chain i = .ok f ∧ f.truncated = false ∧
      ∀ x, x ∈ f.expansions ↔ Forward txs i x.1 ∧ x.2 = ((i : ℤ), x.1) := by
  obtain ⟨data, hdata, hopened⟩ := hserves.opened hn
  have hchildren := hserves.children i n hn
  rw [forwardStep_of_opened (h.index_lt hn) hdata hopened, ← nullifierAt]
  by_cases hspent : i ∈ L.spent
  · have htrue := (hserves.spent i n hn).2 hspent
    have hrange : ¬ ((chain.childrenOfSpend (nullifierAt hash n i)).any fun c =>
        c < 0 ∨ chain.nextLeafIndex ≤ c) = true := by
      rw [List.any_eq_true]
      rintro ⟨c, hc, hout⟩
      obtain ⟨j, rfl, hfeeds⟩ := (hchildren c).1 hc
      have hlt := hfeeds.lt_length h.run
      rw [hserves.next] at hout
      have := of_decide_eq_true hout
      omega
    have hnonempty : (chain.childrenOfSpend (nullifierAt hash n i)).isEmpty = false := by
      obtain ⟨j, hj⟩ := h.exists_child hspent
      exact List.isEmpty_eq_false_iff_exists_mem.2 ⟨(j : ℤ), (hchildren j).2 ⟨j, rfl, hj⟩⟩
    rw [if_neg (by rw [htrue]; exact Bool.noConfusion), if_neg hrange, hnonempty]
    refine ⟨_, rfl, rfl, fun x => ?_⟩
    rw [List.mem_map]
    constructor
    · rintro ⟨c, hc, rfl⟩
      obtain ⟨j, rfl, hfeeds⟩ := (hchildren c).1 hc
      exact ⟨forward_cast.2 hfeeds, rfl⟩
    · rintro ⟨⟨i', j, hi', hj, hfeeds⟩, hx⟩
      rw [← Int.ofNat_inj.1 hi'] at hfeeds
      exact ⟨x.1, (hchildren x.1).2 ⟨j, hj, hfeeds⟩, Prod.ext rfl hx.symm⟩
  · have hfalse : chain.isNullifierSpent (nullifierAt hash n i) = false :=
      Bool.eq_false_iff.2 (mt (hserves.spent i n hn).1 hspent)
    rw [if_pos hfalse]
    refine ⟨_, rfl, rfl, fun x => ⟨fun hx => absurd hx List.not_mem_nil, fun hx => ?_⟩⟩
    obtain ⟨⟨i', j, hi', -, k, tx, hk, hmem, -⟩, -⟩ := hx
    rw [← Int.ofNat_inj.1 hi'] at hmem
    exact absurd ((Coins.mem_spent_iff h.run).2 ⟨k, tx, hk, hmem⟩) hspent

/-- The parents of a packed pair are expanded to themselves. -/
theorem expandParents_pack {a b : ℕ} (hlt : a < 2 ^ 32 ∧ b < 2 ^ 32)
    (hrange : ∀ i ∈ parentsOf a b, (i : ℤ) < chain.nextLeafIndex) (v : ℤ) :
    expandParents chain v (Circuit.packParents a b) =
      .ok ⟨(parentsOf a b).map fun p : ℕ => ((p : ℤ), ((p : ℤ), v)), false⟩ := by
  unfold expandParents
  rw [bind_of_ok (consumedLeaves_of_lt hlt.1 hlt.2 hrange), Option.elim_some, List.map_map]
  rfl

theorem parentsHidden_eq : Tx.parentsHidden = Circuit.parentsHidden := Tx.parentsHidden_eq

theorem parentsHidden_ne : Circuit.parentsHidden ≠ 0 := by decide +kernel

/-- The spend of a parent is found to have made its note. -/
theorem spendsInto_note (h : Traceable txs L) (hserves : Serves hash decrypt chain txs L)
    (hn : L.coins[i]? = some (.note n)) (hfeeds : Feeds txs i j) : spendsInto hash decrypt chain j i = .ok true := by
  obtain ⟨data, hdata, hopened⟩ := hserves.opened hn
  have hindex : newFr (i : ℤ) = .ok (i : Fr) := newFr_index (h.index_lt hn)
  have hmem : (j : ℤ) ∈ chain.childrenOfSpend (nullifierAt hash n i) :=
    (hserves.children i n hn j).2 ⟨j, rfl, hfeeds⟩
  unfold spendsInto
  rw [hdata, Option.elim_some, bind_of_ok hopened, Option.elim_some, hindex]
  exact congrArg Except.ok (List.contains_iff_mem.2 hmem)

/-- The parents of a memo are those of the change note behind it. -/
theorem bridgeHiddenParents_note {a : ℕ} {change : Circuit.Note} (h : Traceable txs L)
    (hserves : Serves hash decrypt chain txs L) (ha : a ≠ 0) (hlt : a < 2 ^ 32) (hfeeds : Feeds txs a j)
    (hchange : L.coins[j + 1]? = some (.note change)) (hnext : change.1.parents = Circuit.packParents a 0) :
    bridgeHiddenParents hash decrypt chain j = .ok (some (Circuit.packParents a 0)) := by
  obtain ⟨data, hdata, hopened⟩ := hserves.opened hchange
  obtain ⟨hnone, hhidden⟩ := packParents_ne hlt (by norm_num : 0 < 2 ^ 32) ha
  have halt : a < L.coins.length := lt_trans (hfeeds.lt h.run) (hfeeds.lt_length h.run)
  obtain ⟨na, hna⟩ := h.notes a (Nat.pos_of_ne_zero ha) halt
  have hconsumed : consumedLeaves chain (Circuit.packParents a 0) = .ok (some [(a : ℤ)]) := by
    refine consumedLeaves_of_lt hlt (by norm_num) fun i hi => ?_
    rw [List.mem_singleton.1 hi, hserves.next]
    exact Int.ofNat_lt.2 halt
  have hlinked : [(a : ℤ)].allM (spendsInto hash decrypt chain j) = .ok true := by
    rw [List.allM, spendsInto_note h hserves hna hfeeds]
    rfl
  have hsibling : chain.getLeaf ((j : ℤ) + 1) = some data := by
    rw [← hdata]
    push_cast
    rfl
  unfold bridgeHiddenParents
  rw [hsibling, Option.elim_some, bind_of_ok hopened, Option.elim_some]
  dsimp only
  rw [transmitted_parents, hnext, if_neg (not_or.2 ⟨hnone, hhidden⟩), bind_of_ok hconsumed, Option.elim_some,
    bind_of_ok hlinked, if_pos rfl]

/-- A note is expanded to what it was made of. -/
theorem backwardStep_note (h : Traceable txs L) (hserves : Serves hash decrypt chain txs L)
    (hn : L.coins[j]? = some (.note n)) :
    ∃ f, backwardStep hash decrypt chain j = .ok f ∧ f.truncated = false ∧
      ∀ x, x ∈ f.expansions ↔ Backward txs j x.1 ∧ x.2 = (x.1, (j : ℤ)) := by
  obtain ⟨data, hdata, hopened⟩ := hserves.opened hn
  obtain ⟨inputs, hinputs, hparentage⟩ := exists_parentage h hn
  have hrange : ∀ i ∈ inputs, (i : ℤ) < chain.nextLeafIndex := by
    intro i hi
    have hfeeds := (hinputs i).2 hi
    rw [hserves.next]
    exact Int.ofNat_lt.2 (lt_trans (hfeeds.lt h.run) (hfeeds.lt_length h.run))
  -- the step finds the inputs of the transaction
  suffices hstep : backwardStep hash decrypt chain j =
      .ok ⟨inputs.map fun p : ℕ => ((p : ℤ), ((p : ℤ), (j : ℤ))), false⟩ by
    refine ⟨_, hstep, rfl, fun x => ?_⟩
    rw [List.mem_map]
    constructor
    · rintro ⟨p, hp, rfl⟩
      exact ⟨forward_cast.2 ((hinputs p).2 hp), rfl⟩
    · rintro ⟨⟨p, j', hp, hj, hfeeds⟩, hx⟩
      rw [← Int.ofNat_inj.1 hj] at hfeeds
      refine ⟨p, (hinputs p).1 hfeeds, Prod.ext hp.symm ?_⟩
      rw [hx, hp]
  unfold backwardStep
  rw [hdata, Option.elim_some, bind_of_ok hopened, Option.elim_some]
  dsimp only
  rw [transmitted_parents]
  cases hparentage with
  | none hempty hparents =>
    rw [if_pos hparents, hempty]
    rfl
  | named a b ha hlt heq hparents =>
    obtain ⟨hnone, hhidden⟩ := packParents_ne hlt.1 hlt.2 ha
    rw [hparents, if_neg hnone, if_neg hhidden, expandParents_pack hlt (heq ▸ hrange), heq]
  | hidden a change ha hlt heq hparents hchange hnext =>
    have hfeeds : Feeds txs a j := (hinputs a).2 (heq ▸ List.mem_singleton_self a)
    have hbridge := bridgeHiddenParents_note h hserves ha hlt hfeeds hchange hnext
    have hlist : inputs = parentsOf a 0 := heq
    rw [hparents, if_neg parentsHidden_ne, if_pos parentsHidden_eq.symm, bind_of_ok hbridge, Option.elim_some,
      expandParents_pack ⟨hlt, by norm_num⟩ (hlist ▸ hrange), hlist]

/-! ## Exact traces -/

/-- The indices, as the tracer has them. -/
def indices (is : Set ℕ) : Set ℤ := Nat.cast '' is

/-- The edges, as the tracer has them. -/
def indexPairs (es : Set (ℕ × ℕ)) : Set (ℤ × ℤ) := (fun e : ℕ × ℕ => ((e.1 : ℤ), (e.2 : ℤ))) '' es

/-- What is reached along a relation of indices. -/
theorem reached_eq {r : ℕ → ℕ → Prop} {next : ℤ → ℤ → Prop} (hnext : ∀ (i : ℕ) w, next i w ↔ ∃ j : ℕ, w = j ∧ r i j)
    (i : ℕ) : {v | Relation.ReflTransGen next i v} = indices {j | Relation.ReflTransGen r i j} := by
  refine Set.ext fun v => ⟨fun hv => ?_, ?_⟩
  · rw [Set.mem_ofPred_eq] at hv
    induction hv with
    | refl => exact ⟨i, .refl, rfl⟩
    | tail _ hlast ih =>
      obtain ⟨j, hj, rfl⟩ := ih
      obtain ⟨j', rfl, hr⟩ := (hnext j _).1 hlast
      exact ⟨j', hj.tail hr, rfl⟩
  · rintro ⟨j, hj, rfl⟩
    rw [Set.mem_ofPred_eq] at hj ⊢
    induction hj with
    | refl => exact .refl
    | tail _ hlast ih => exact ih.tail ((hnext _ _).2 ⟨_, rfl, hlast⟩)

theorem Serves.range (hserves : Serves hash decrypt chain txs L) :
    ∀ v ∈ noteRange L, 0 ≤ v ∧ v < chain.nextLeafIndex := by
  intro v hv
  obtain ⟨hlow, hhigh⟩ := Finset.mem_Ico.1 hv
  rw [hserves.next]
  exact ⟨by omega, hhigh⟩

theorem forward_iff (txs : List (Coins.Tx Coin (Fr → ℕ))) (i : ℕ) (w : ℤ) :
    Forward txs i w ↔ ∃ j : ℕ, w = j ∧ Feeds txs i j := by
  constructor
  · rintro ⟨i', j, hi, rfl, hfeeds⟩
    rw [← Int.ofNat_inj.1 hi] at hfeeds
    exact ⟨j, rfl, hfeeds⟩
  · rintro ⟨j, rfl, hfeeds⟩
    exact forward_cast.2 hfeeds

theorem backward_iff (txs : List (Coins.Tx Coin (Fr → ℕ))) (j : ℕ) (w : ℤ) :
    Backward txs j w ↔ ∃ i : ℕ, w = i ∧ Function.swap (Feeds txs) j i := by
  constructor
  · rintro ⟨i, j', rfl, hj, hfeeds⟩
    rw [← Int.ofNat_inj.1 hj] at hfeeds
    exact ⟨i, rfl, hfeeds⟩
  · rintro ⟨i, rfl, hfeeds⟩
    exact forward_cast.2 hfeeds

/-- The trace of a note forward shows what was made of it. -/
theorem forwardTrace_shows (h : Traceable txs L) (hserves : Serves hash decrypt chain txs L)
    (hn : L.coins[i]? = some (.note n)) :
    ∃ bound, ∀ turns > bound, Answers (forwardTrace hash decrypt chain i turns) fun g =>
      g.Shows (indices {j | Relation.ReflTransGen (Feeds txs) i j})
        (indexPairs {e | Relation.ReflTransGen (Feeds txs) i e.1 ∧ Feeds txs e.1 e.2}) := by
  have hsearch : ∃ bound, ∀ turns > bound, Answers (forwardTrace hash decrypt chain i turns) _ :=
    traverse_shows (Forward txs) (fun v w => (v, w)) (h.mem_noteRange hn) hserves.range
      (fun v _ w hw => (h.forward_mem hw).2) fun v hv => by
        obtain ⟨i', n', rfl, hn'⟩ := h.exists_note hv
        exact forwardStep_note h hserves hn'
  have hreached := reached_eq (forward_iff txs) i
  have hedges : {e : ℤ × ℤ | ∃ v w, Relation.ReflTransGen (Forward txs) i v ∧ Forward txs v w ∧ e = (v, w)} =
      indexPairs {e | Relation.ReflTransGen (Feeds txs) i e.1 ∧ Feeds txs e.1 e.2} := by
    refine Set.ext fun e => ⟨?_, ?_⟩
    · rintro ⟨v, w, hv, ⟨a, b, rfl, rfl, hfeeds⟩, rfl⟩
      obtain ⟨a', ha', heq⟩ := hreached ▸ (show (a : ℤ) ∈ {v | Relation.ReflTransGen (Forward txs) i v} from hv)
      rw [Int.ofNat_inj.1 heq] at ha'
      exact ⟨(a, b), ⟨ha', hfeeds⟩, rfl⟩
    · rintro ⟨⟨a, b⟩, ⟨ha, hfeeds⟩, rfl⟩
      have hv : (a : ℤ) ∈ {v | Relation.ReflTransGen (Forward txs) i v} := hreached ▸ ⟨a, ha, rfl⟩
      exact ⟨a, b, hv, forward_cast.2 hfeeds, rfl⟩
  rwa [hreached, hedges] at hsearch

/-- The trace of a note backward shows what it was made of. -/
theorem backwardTrace_shows (h : Traceable txs L) (hserves : Serves hash decrypt chain txs L)
    (hn : L.coins[j]? = some (.note n)) :
    ∃ bound, ∀ turns > bound, Answers (backwardTrace hash decrypt chain j turns) fun g =>
      g.Shows (indices {i | Relation.ReflTransGen (Feeds txs) i j})
        (indexPairs {e | Feeds txs e.1 e.2 ∧ Relation.ReflTransGen (Feeds txs) e.2 j}) := by
  have hsearch : ∃ bound, ∀ turns > bound, Answers (backwardTrace hash decrypt chain j turns) _ :=
    traverse_shows (Backward txs) (fun v w => (w, v)) (h.mem_noteRange hn) hserves.range
      (fun v _ w hw => (h.forward_mem hw).1) fun v hv => by
        obtain ⟨i', n', rfl, hn'⟩ := h.exists_note hv
        exact backwardStep_note h hserves hn'
  have hswap : ∀ i, Relation.ReflTransGen (Function.swap (Feeds txs)) j i ↔ Relation.ReflTransGen (Feeds txs) i j :=
    fun i => Relation.reflTransGen_swap
  have hreached := reached_eq (backward_iff txs) j
  simp only [hswap] at hreached
  have hedges : {e : ℤ × ℤ | ∃ v w, Relation.ReflTransGen (Backward txs) j v ∧ Backward txs v w ∧ e = (w, v)} =
      indexPairs {e | Feeds txs e.1 e.2 ∧ Relation.ReflTransGen (Feeds txs) e.2 j} := by
    refine Set.ext fun e => ⟨?_, ?_⟩
    · rintro ⟨v, w, hv, ⟨a, b, rfl, rfl, hfeeds⟩, rfl⟩
      obtain ⟨b', hb', heq⟩ := hreached ▸ (show (b : ℤ) ∈ {v | Relation.ReflTransGen (Backward txs) j v} from hv)
      rw [Int.ofNat_inj.1 heq] at hb'
      exact ⟨(a, b), ⟨hfeeds, hb'⟩, rfl⟩
    · rintro ⟨⟨a, b⟩, ⟨hfeeds, hb⟩, rfl⟩
      have hv : (b : ℤ) ∈ {v | Relation.ReflTransGen (Backward txs) j v} := hreached ▸ ⟨b, hb, rfl⟩
      exact ⟨b, a, hv, forward_cast.2 hfeeds, rfl⟩
  rwa [hreached, hedges] at hsearch

end Ledger

/-! ## Traces of a run of the pool -/

/-- The note behind a leaf; the first leaf is the genesis leaf. -/
def noteAt (ns : List Circuit.Note) (i : ℕ) : Option Circuit.Note := if i = 0 then none else ns[i - 1]?

/-- A step consumes this nullifier and inserts the leaf at this index. -/
def SpentInto (ls : List Label) (nullifier : Bytes 32) (j : ℕ) : Prop :=
  ∃ k l, ls[k]? = some l ∧ nullifier ∈ l.consumed ∧ Within (fun l : Label => l.leaves.length) ls k j

/-- The true graph: a note is spent by the step that inserts another. -/
def SpendEdge (poseidon2 : List Fr → Fr) (ns : List Circuit.Note) (ls : List Label) (i j : ℕ) : Prop :=
  ∃ n, noteAt ns i = some n ∧ SpentInto ls (nullifierAt poseidon2 n i).toBytes j

/-- A chain state that answers as the chain is, and a decryption that opens every note. -/
structure Faithful (poseidon2 : List Fr → Fr) (decrypt : DecryptNote) (chain : ChainState) (ns : List Circuit.Note)
    (ls : List Label) (m : Machine) : Prop where
  next : chain.nextLeafIndex = (noteEvents m.log).length
  opens : ∀ (i : ℕ) n, noteAt ns i = some n → ∃ data cek, chain.getLeaf i = some data ∧ data.leaf = n.leaf poseidon2 ∧
    decrypt data.ephPub data.ciphertext = .ok (n.1.transmitted, cek) ∧ computePsi poseidon2 cek = n.1.psi
  spent : ∀ (i : ℕ) n, noteAt ns i = some n →
    (chain.isNullifierSpent (nullifierAt poseidon2 n i) = true ↔ (nullifierAt poseidon2 n i).toBytes ∈ consumed ls)
  children : ∀ (i : ℕ) n, noteAt ns i = some n → ∀ v, v ∈ chain.childrenOfSpend (nullifierAt poseidon2 n i) ↔
    ∃ j : ℕ, v = j ∧ SpentInto ls (nullifierAt poseidon2 n i).toBytes j

section Pool

variable {env : Env} {poseidon2 : List Fr → Fr} {H : Hashed} {ls : List Label} {m : Machine}
  {txs : List (Coins.Tx Coin (Fr → ℕ))} {L : Coins.Ledger Coin} {ns : List Circuit.Note} {leaf : Bytes 32}

/-- The transactions of an aligned run make the coins that its steps insert. -/
theorem feeds_iff_spentInto {coins : List Coin} (h : Aligned poseidon2 coins ls txs) {i j : ℕ} {b : Bytes 32}
    (hi : (coins[i]?).bind (Coin.nullifier poseidon2 i) = some b)
    (hinj : ∀ i', (coins[i']?).bind (Coin.nullifier poseidon2 i') = some b → i' = i) :
    (Feeds txs i j ↔ SpentInto ls b j) ∧ total Coins.Tx.size txs = total (fun l : Label => l.leaves.length) ls := by
  have hmem : ∀ {l : Label} {tx : Coins.Tx Coin (Fr → ℕ)}, (l.consumed.map some =
      tx.inputs.map fun i => (coins[i]?).bind (Coin.nullifier poseidon2 i)) → (i ∈ tx.inputs ↔ b ∈ l.consumed) := by
    intro l tx hconsumed
    constructor
    · intro hmem
      have hb := List.mem_map_of_mem (f := fun i => (coins[i]?).bind (Coin.nullifier poseidon2 i)) hmem
      rw [hi, ← hconsumed] at hb
      obtain ⟨b', hb', heq⟩ := List.mem_map.1 hb
      rwa [← Option.some.inj heq]
    · intro hb
      have hmem := List.mem_map_of_mem (f := some) hb
      rw [hconsumed] at hmem
      obtain ⟨i', hi', heq⟩ := List.mem_map.1 hmem
      rwa [← hinj i' heq]
  induction h with
  | start =>
    refine ⟨⟨?_, ?_⟩, rfl⟩
    · rintro ⟨k, tx, hk, -⟩
      cases hk
    · rintro ⟨k, l, hk, -⟩
      cases hk
  | still _ hleaves hconsumed ih =>
    obtain ⟨hiff, htotal⟩ := ih
    refine ⟨?_, by rw [Coins.total_snoc, hleaves, htotal]; rfl⟩
    unfold SpentInto
    rw [Coins.within_snoc, hiff, hconsumed]
    exact ⟨Or.inl, fun h => h.resolve_right fun hlast => absurd hlast.1 List.not_mem_nil⟩
  | moves _ hleaves hconsumed ih =>
    obtain ⟨hiff, htotal⟩ := ih
    refine ⟨?_, by rw [Coins.total_snoc, Coins.total_snoc, htotal, hleaves]; rfl⟩
    unfold Feeds SpentInto
    rw [Coins.within_snoc, Coins.within_snoc, htotal, hleaves, hmem hconsumed]
    exact or_congr_left hiff

theorem getElem?_coins_iff (hcoins : L.coins = .genesis leaf :: ns.map .note) (i : ℕ) (n : Circuit.Note) :
    L.coins[i]? = some (.note n) ↔ noteAt ns i = some n := by
  rw [hcoins, noteAt]
  cases i with
  | zero => exact ⟨nofun, nofun⟩
  | succ i =>
    rw [List.getElem?_cons_succ, List.getElem?_map, if_neg (Nat.succ_ne_zero i), Nat.add_sub_cancel,
      Option.map_eq_some_iff]
    refine ⟨?_, fun h => ⟨n, h, rfl⟩⟩
    rintro ⟨n', hn', heq⟩
    rwa [← Coin.note.inj heq]

/-- The nullifier at an index is that of the note there. -/
theorem bind_nullifier_iff {i : ℕ} {b : Bytes 32} : (L.coins[i]?).bind (Coin.nullifier poseidon2 i) = some b ↔
    ∃ n, L.coins[i]? = some (.note n) ∧ (nullifierAt poseidon2 n i).toBytes = b := by
  rw [Option.bind_eq_some_iff]
  constructor
  · rintro ⟨c, hc, hb⟩
    cases c with
    | genesis leaf => cases hb
    | note n => exact ⟨n, hc, Option.some.inj hb⟩
  · rintro ⟨n, hn, rfl⟩
    exact ⟨_, hn, rfl⟩

/-- The ledger behind a run of the pool, for its traces. -/
theorem traceable_of_explained (h : Explained env poseidon2 H ls m txs L)
    (hcoins : L.coins = .genesis leaf :: ns.map .note) : Traceable txs L where
  run := h.run
  stands := h.stands
  first n hn := by
    rw [hcoins] at hn
    cases hn
  notes i hpos hlt := by
    rw [hcoins] at hlt ⊢
    obtain ⟨i, rfl⟩ := Nat.exists_eq_succ_of_ne_zero (Nat.pos_iff_ne_zero.1 hpos)
    have hi : i < ns.length := by simpa using hlt
    refine ⟨ns[i], ?_⟩
    rw [List.getElem?_cons_succ, List.getElem?_map, List.getElem?_eq_getElem hi]
    rfl
  taken hmem := by
    have hnull := h.mirrors.spent ▸
      List.mem_map_of_mem (f := fun i => (L.coins[i]?).bind (Coin.nullifier poseidon2 i)) hmem
    rw [hcoins] at hnull
    obtain ⟨b, -, hb⟩ := List.mem_map.1 hnull
    cases hb
  size := h.mirrors.size

/-- The edges of the true graph are those of the ledger. -/
theorem feeds_iff_spendEdge (h : Explained env poseidon2 H ls m txs L) (hfree : H.Free env.poseidon poseidon2)
    (hcoins : L.coins = .genesis leaf :: ns.map .note) (i j : ℕ) : Feeds txs i j ↔ SpendEdge poseidon2 ns ls i j := by
  have htraceable := traceable_of_explained h hcoins
  have hiff : ∀ {n}, L.coins[i]? = some (.note n) →
      (Feeds txs i j ↔ SpentInto ls (nullifierAt poseidon2 n i).toBytes j) := by
    intro n hn
    refine (feeds_iff_spentInto h.aligned (bind_nullifier_iff.2 ⟨n, hn, rfl⟩) fun i' hi' => ?_).1
    obtain ⟨n', hn', heq⟩ := bind_nullifier_iff.1 hi'
    exact h.mirrors.eq_of_nullifier hfree hn hn' (toBytes_injective heq)
  constructor
  · intro hfeeds
    obtain ⟨n, hn⟩ := htraceable.notes i (by
      obtain ⟨k, tx, hk, hi, -⟩ := hfeeds
      exact Nat.pos_of_ne_zero (htraceable.input hk hi).1) (lt_trans (hfeeds.lt h.run) (hfeeds.lt_length h.run))
    exact ⟨n, (getElem?_coins_iff hcoins i n).1 hn, (hiff hn).1 hfeeds⟩
  · rintro ⟨n, hn, hspent⟩
    exact (hiff ((getElem?_coins_iff hcoins i n).2 hn)).2 hspent

/-- A faithful chain state serves the ledger behind the run. -/
theorem Faithful.serves {decrypt : DecryptNote} {chain : ChainState}
    (hfaithful : Faithful poseidon2 decrypt chain ns ls m) (h : Explained env poseidon2 H ls m txs L)
    (hfree : H.Free env.poseidon poseidon2) (hspent : spentEvents m.log = consumed ls)
    (hcoins : L.coins = .genesis leaf :: ns.map .note) : Serves poseidon2 decrypt chain txs L where
  next := by
    have hlength := congrArg List.length h.mirrors.leaves
    rw [List.length_map, List.length_map] at hlength
    rw [hfaithful.next, hlength]
  opens i n hn := hfaithful.opens i n ((getElem?_coins_iff hcoins i n).1 hn)
  spent i n hn := by
    rw [hfaithful.spent i n ((getElem?_coins_iff hcoins i n).1 hn), ← hspent]
    exact (h.mirrors.mem_spent_iff (Coins.run_kept h.run) hfree hn).symm
  children i n hn v := by
    have hnote := (getElem?_coins_iff hcoins i n).1 hn
    rw [hfaithful.children i n hnote v]
    refine exists_congr fun j => and_congr_right fun _ => ?_
    rw [feeds_iff_spendEdge h hfree hcoins]
    refine ⟨fun hs => ⟨n, hnote, hs⟩, ?_⟩
    rintro ⟨n', hn', hs⟩
    rw [hnote] at hn'
    rwa [Option.some.inj hn']

/-- The traces of every run of the pool are exact: with a faithful chain state, both searches from any note end, forward
with what was made of it and backward with what it was made of, and nothing is cut off. -/
theorem chain_trace_exact {m₀ : Machine} (hfresh : Fresh env m₀)
    (hrun : Run (SoundStep env poseidon2 H) m₀ ls m) (h : Assumes env poseidon2 H ls m) :
    ∃ ns : List Circuit.Note, (∀ n ∈ ns, n ∈ H.notes) ∧
      ((noteEvents m.log).map NoteInserted.leaf).tail = ns.map (fun n => (n.leaf poseidon2).toBytes) ∧
      ∀ decrypt chain, Faithful poseidon2 decrypt chain ns ls m → ∀ i, (noteAt ns i).isSome →
        ∃ bound, ∀ turns > bound,
          Answers (forwardTrace poseidon2 decrypt chain i turns) (fun g =>
            g.Shows (indices {j | Relation.ReflTransGen (SpendEdge poseidon2 ns ls) i j})
              (indexPairs {e | Relation.ReflTransGen (SpendEdge poseidon2 ns ls) i e.1 ∧
                SpendEdge poseidon2 ns ls e.1 e.2})) ∧
          Answers (backwardTrace poseidon2 decrypt chain i turns) (fun g =>
            g.Shows (indices {j | Relation.ReflTransGen (SpendEdge poseidon2 ns ls) j i})
              (indexPairs {e | SpendEdge poseidon2 ns ls e.1 e.2 ∧
                Relation.ReflTransGen (SpendEdge poseidon2 ns ls) e.2 i})) := by
  obtain ⟨txs, L, hexplained⟩ := run_explained hfresh hrun h
  have hspent := (run_consumed hfresh (run_of_soundStep hrun)).1
  rcases hexplained.mirrors.shape with hnil | ⟨leaf, ns, hcoins, -, hnotes⟩
  · refine ⟨[], fun n hn => absurd hn List.not_mem_nil, ?_, fun decrypt chain _ i hi => ?_⟩
    · rw [hexplained.mirrors.leaves, hnil]
      rfl
    · unfold noteAt at hi
      split at hi <;> cases hi
  · refine ⟨ns, hnotes, ?_, fun decrypt chain hfaithful i hi => ?_⟩
    · rw [hexplained.mirrors.leaves, hcoins, List.map_cons, List.tail_cons, List.map_map]
      rfl
    · obtain ⟨n, hn⟩ := Option.isSome_iff_exists.1 hi
      have htraceable := traceable_of_explained hexplained hcoins
      have hserves := hfaithful.serves hexplained h.free hspent hcoins
      have hedge : Feeds txs = SpendEdge poseidon2 ns ls := by
        funext a b
        exact propext (feeds_iff_spendEdge hexplained h.free hcoins a b)
      have hcoin := (getElem?_coins_iff hcoins i n).2 hn
      obtain ⟨forward, hforward⟩ := forwardTrace_shows htraceable hserves hcoin
      obtain ⟨backward, hbackward⟩ := backwardTrace_shows htraceable hserves hcoin
      rw [hedge] at hforward hbackward
      exact ⟨max forward backward, fun turns hturns =>
        ⟨hforward turns (lt_of_le_of_lt (le_max_left _ _) hturns),
          hbackward turns (lt_of_le_of_lt (le_max_right _ _) hturns)⟩⟩

/-! ## Hooks that are not trusted -/

/-- The leaves that a chain state answers are those of the chain, at their indices. -/
def Genuine (chain : ChainState) (m : Machine) : Prop :=
  ∀ v data, chain.getLeaf v = some data →
    ∃ i : ℕ, v = i ∧ ((noteEvents m.log).map NoteInserted.leaf)[i]? = some data.leaf.toBytes

/-- The notes that are rebuilt from what the decryption answers are among those hashed. -/
def Rebuilds (H : Hashed) (poseidon2 : List Fr → Fr) (decrypt : DecryptNote) (chain : ChainState) : Prop :=
  ∀ v data fields cek, chain.getLeaf v = some data → decrypt data.ephPub data.ciphertext = .ok (fields, cek) →
    ∀ hvalue : (Notes.noteOf fields (computePsi poseidon2 cek)).value < 2 ^ 128,
      (⟨Notes.noteOf fields (computePsi poseidon2 cek), hvalue⟩ : Circuit.Note) ∈ H.notes

section Untrusted

variable {decrypt : DecryptNote} {chain : ChainState} {v : ℤ} {data : LeafData} {f : Found ℤ (ℤ × ℤ)}

/-- Whatever the decryption answers, a note that is opened is the one at its index. -/
theorem opened_note {fields : List Fr} {psi : Fr} (h : Explained env poseidon2 H ls m txs L)
    (hfree : H.Free env.poseidon poseidon2) (hgenuine : Genuine chain m) (hrebuilds : Rebuilds H poseidon2 decrypt chain)
    (hdata : chain.getLeaf v = some data) (hopen : openLeaf poseidon2 decrypt data = .ok (some (fields, psi))) :
    ∃ (i : ℕ) (n : Circuit.Note), v = i ∧ L.coins[i]? = some (.note n) ∧ fields.getD parentsFieldIndex 0 = n.1.parents ∧
      psi = n.1.psi := by
  obtain ⟨cek, hdecrypt, -, hvalue, rfl, hleaf⟩ := openLeaf_ok hopen
  obtain ⟨i, rfl, hi⟩ := hgenuine v data hdata
  have hmem := hrebuilds _ data fields cek hdata hdecrypt hvalue
  rw [← hleaf] at hi
  exact ⟨i, _, rfl, h.mirrors.coin_of_leaf hfree hmem hi, rfl, rfl⟩

theorem expandParents_sound {a b : ℕ} (hlt : a < 2 ^ 32 ∧ b < 2 ^ 32)
    (hf : expandParents chain v (Circuit.packParents a b) = .ok f) :
    ∀ x ∈ f.expansions, ∃ p ∈ parentsOf a b, x = ((p : ℤ), ((p : ℤ), v)) := by
  obtain ⟨parents, hparents, hf⟩ := bind_eq_ok.1 hf
  cases parents with
  | none =>
    cases hf
    exact fun x hx => absurd hx List.not_mem_nil
  | some indexes =>
    cases hf
    rw [eq_of_consumedLeaves hlt.1 hlt.2 hparents]
    intro x hx
    obtain ⟨w, hw, rfl⟩ := List.mem_map.1 hx
    obtain ⟨p, hp, rfl⟩ := List.mem_map.1 hw
    exact ⟨p, hp, rfl⟩

/-- What bridges a memo are the parents of its change note. -/
theorem bridgeHiddenParents_sound {j : ℕ} {change : Circuit.Note} {packed : Fr}
    (h : Explained env poseidon2 H ls m txs L) (hfree : H.Free env.poseidon poseidon2) (hgenuine : Genuine chain m)
    (hrebuilds : Rebuilds H poseidon2 decrypt chain) (hchange : L.coins[j + 1]? = some (.note change))
    (hbridge : bridgeHiddenParents poseidon2 decrypt chain j = .ok (some packed)) : packed = change.1.parents := by
  unfold bridgeHiddenParents at hbridge
  cases hdata : chain.getLeaf ((j : ℤ) + 1) with
  | none =>
    rw [hdata] at hbridge
    cases hbridge
  | some sibling =>
    rw [hdata, Option.elim_some] at hbridge
    obtain ⟨opened, hopened, hbridge⟩ := bind_eq_ok.1 hbridge
    cases opened with
    | none => cases hbridge
    | some note =>
      obtain ⟨i, n, hi, hn, hparents, -⟩ := opened_note h hfree hgenuine hrebuilds hdata hopened
      have hindex : j + 1 = i := by omega
      rw [← hindex, hchange, Option.some_inj, Coin.note.injEq] at hn
      rw [Option.elim_some] at hbridge
      dsimp only at hbridge
      split at hbridge
      · cases hbridge
      · obtain ⟨parents, -, hbridge⟩ := bind_eq_ok.1 hbridge
        cases parents with
        | none => cases hbridge
        | some parents =>
          obtain ⟨linked, -, hbridge⟩ := bind_eq_ok.1 hbridge
          rw [Except.ok.injEq] at hbridge
          rw [← Option.some.inj (Option.ite_none_right_eq_some.1 hbridge).2, hparents, hn]

/-- Whatever the decryption answers, a note is expanded backward to what it was made of. -/
theorem backwardStep_sound (h : Explained env poseidon2 H ls m txs L) (hfree : H.Free env.poseidon poseidon2)
    (hgenuine : Genuine chain m) (hrebuilds : Rebuilds H poseidon2 decrypt chain) (htraceable : Traceable txs L)
    (hf : backwardStep poseidon2 decrypt chain v = .ok f) :
    ∀ x ∈ f.expansions, Backward txs v x.1 ∧ x.2 = (x.1, v) := by
  unfold backwardStep at hf
  cases hdata : chain.getLeaf v with
  | none =>
    rw [hdata] at hf
    cases hf
    exact fun x hx => absurd hx List.not_mem_nil
  | some data =>
    rw [hdata, Option.elim_some] at hf
    obtain ⟨opened, hopened, hf⟩ := bind_eq_ok.1 hf
    cases opened with
    | none =>
      cases hf
      exact fun x hx => absurd hx List.not_mem_nil
    | some note =>
      obtain ⟨j, n, rfl, hn, hparents, -⟩ := opened_note h hfree hgenuine hrebuilds hdata hopened
      obtain ⟨inputs, hinputs, hparentage⟩ := exists_parentage htraceable hn
      have hlist : ∀ {a b : ℕ}, inputs = parentsOf a b →
          (∀ x ∈ f.expansions, ∃ p ∈ parentsOf a b, x = ((p : ℤ), ((p : ℤ), (j : ℤ)))) →
          ∀ x ∈ f.expansions, Backward txs j x.1 ∧ x.2 = (x.1, (j : ℤ)) := by
        intro a b heq hx x hmem
        obtain ⟨p, hp, rfl⟩ := hx x hmem
        exact ⟨forward_cast.2 ((hinputs p).2 (heq ▸ hp)), rfl⟩
      rw [Option.elim_some] at hf
      dsimp only at hf
      rw [hparents] at hf
      cases hparentage with
      | none hempty hzero =>
        rw [if_pos hzero] at hf
        cases hf
        exact fun x hx => absurd hx List.not_mem_nil
      | named a b ha hlt heq hpacked =>
        obtain ⟨hnone, hhidden⟩ := packParents_ne hlt.1 hlt.2 ha
        rw [hpacked, if_neg hnone, if_neg hhidden] at hf
        exact hlist heq (expandParents_sound hlt hf)
      | hidden a change ha hlt heq hhidden hchange hnext =>
        rw [hhidden, if_neg parentsHidden_ne, if_pos parentsHidden_eq.symm] at hf
        obtain ⟨bridged, hbridge, hf⟩ := bind_eq_ok.1 hf
        cases bridged with
        | none =>
          cases hf
          exact fun x hx => absurd hx List.not_mem_nil
        | some packed =>
          rw [bridgeHiddenParents_sound h hfree hgenuine hrebuilds hchange hbridge, hnext] at hf
          exact hlist (b := 0) heq (expandParents_sound ⟨hlt, by norm_num⟩ hf)

/-- If the outputs of spends are those of the chain, a note is expanded forward to what was made of it. -/
theorem forwardStep_sound (h : Explained env poseidon2 H ls m txs L) (hfree : H.Free env.poseidon poseidon2)
    (hgenuine : Genuine chain m) (hrebuilds : Rebuilds H poseidon2 decrypt chain)
    (hcoins : L.coins = .genesis leaf :: ns.map .note)
    (hchildren : ∀ (i : ℕ) n, noteAt ns i = some n → ∀ v ∈ chain.childrenOfSpend (nullifierAt poseidon2 n i),
      ∃ j : ℕ, v = j ∧ SpentInto ls (nullifierAt poseidon2 n i).toBytes j)
    (hf : forwardStep poseidon2 decrypt chain v = .ok f) :
    ∀ x ∈ f.expansions, Forward txs v x.1 ∧ x.2 = (v, x.1) := by
  have hstep := hf
  unfold forwardStep at hf
  cases hdata : chain.getLeaf v with
  | none =>
    rw [hdata] at hf
    cases hf
    exact fun x hx => absurd hx List.not_mem_nil
  | some data =>
    rw [hdata, Option.elim_some] at hf
    obtain ⟨opened, hopened, hf⟩ := bind_eq_ok.1 hf
    cases opened with
    | none =>
      cases hf
      exact fun x hx => absurd hx List.not_mem_nil
    | some note =>
      obtain ⟨i, n, rfl, hn, -, hpsi⟩ := opened_note h hfree hgenuine hrebuilds hdata hopened
      have hi : i < 2 ^ 32 := (traceable_of_explained h hcoins).index_lt hn
      rw [forwardStep_of_opened hi hdata hopened, hpsi, ← nullifierAt] at hstep
      split at hstep
      · cases hstep
        exact fun x hx => absurd hx List.not_mem_nil
      · split at hstep
        · cases hstep
          exact fun x hx => absurd hx List.not_mem_nil
        · cases hstep
          intro x hx
          obtain ⟨c, hc, rfl⟩ := List.mem_map.1 hx
          have hnote := (getElem?_coins_iff hcoins i n).1 hn
          obtain ⟨j, rfl, hspent⟩ := hchildren i n hnote c hc
          exact ⟨forward_cast.2 ((feeds_iff_spendEdge h hfree hcoins i j).2 ⟨n, hnote, hspent⟩), rfl⟩

end Untrusted

/-- Whatever the decryption answers, a trace invents nothing: if the leaves are those of the chain, every node of a
backward trace is an ancestor and every edge is there; and so for a forward trace, if the outputs of spends are those of
the chain. -/
theorem chain_trace_sound {m₀ : Machine} (hfresh : Fresh env m₀)
    (hrun : Run (SoundStep env poseidon2 H) m₀ ls m) (h : Assumes env poseidon2 H ls m) :
    ∃ ns : List Circuit.Note, (∀ n ∈ ns, n ∈ H.notes) ∧
      ((noteEvents m.log).map NoteInserted.leaf).tail = ns.map (fun n => (n.leaf poseidon2).toBytes) ∧
      ∀ decrypt chain, Genuine chain m → Rebuilds H poseidon2 decrypt chain → ∀ (i turns : ℕ) g,
        (backwardTrace poseidon2 decrypt chain i turns = pure g →
          (∀ v ∈ g.nodes, v ∈ indices {j | Relation.ReflTransGen (SpendEdge poseidon2 ns ls) j i}) ∧
          ∀ e ∈ g.edges, e ∈ indexPairs {e | SpendEdge poseidon2 ns ls e.1 e.2 ∧
            Relation.ReflTransGen (SpendEdge poseidon2 ns ls) e.2 i}) ∧
        ((∀ (i : ℕ) n, noteAt ns i = some n → ∀ v ∈ chain.childrenOfSpend (nullifierAt poseidon2 n i),
            ∃ j : ℕ, v = j ∧ SpentInto ls (nullifierAt poseidon2 n i).toBytes j) →
          forwardTrace poseidon2 decrypt chain i turns = pure g →
          (∀ v ∈ g.nodes, v ∈ indices {j | Relation.ReflTransGen (SpendEdge poseidon2 ns ls) i j}) ∧
          ∀ e ∈ g.edges, e ∈ indexPairs {e | Relation.ReflTransGen (SpendEdge poseidon2 ns ls) i e.1 ∧
            SpendEdge poseidon2 ns ls e.1 e.2}) := by
  obtain ⟨txs, L, hexplained⟩ := run_explained hfresh hrun h
  rcases hexplained.mirrors.shape with hnil | ⟨leaf, ns, hcoins, -, hnotes⟩
  · -- without leaves nothing is opened
    have hleaves : (noteEvents m.log).map NoteInserted.leaf = [] := by
      rw [hexplained.mirrors.leaves, hnil]
      rfl
    refine ⟨[], fun n hn => absurd hn List.not_mem_nil, by rw [hleaves]; rfl,
      fun decrypt chain hgenuine _ i turns g => ?_⟩
    have hnone : ∀ v, chain.getLeaf v = none := by
      refine fun v => Option.eq_none_iff_forall_ne_some.2 fun data hdata => ?_
      obtain ⟨i, -, hi⟩ := hgenuine v data hdata
      rw [hleaves] at hi
      cases hi
    refine ⟨fun htrace => traverse_sound ⟨i, .refl, rfl⟩ ?_ htrace,
      fun _ htrace => traverse_sound ⟨i, .refl, rfl⟩ ?_ htrace⟩
    · intro v f _ hf x hx
      unfold backwardStep at hf
      rw [hnone v] at hf
      cases hf
      cases hx
    · intro v f _ hf x hx
      unfold forwardStep at hf
      rw [hnone v] at hf
      cases hf
      cases hx
  · refine ⟨ns, hnotes, ?_, fun decrypt chain hgenuine hrebuilds i turns g =>
      ⟨fun htrace => ?_, fun hchildren htrace => ?_⟩⟩
    · rw [hexplained.mirrors.leaves, hcoins, List.map_cons, List.tail_cons, List.map_map]
      rfl
    · have htraceable := traceable_of_explained hexplained hcoins
      refine traverse_sound ⟨i, .refl, rfl⟩ ?_ htrace
      rintro v f ⟨b, hb, rfl⟩ hf x hx
      obtain ⟨⟨a, b', ha, hb', hfeeds⟩, hedge⟩ :=
        backwardStep_sound hexplained h.free hgenuine hrebuilds htraceable hf x hx
      rw [← Int.ofNat_inj.1 hb', feeds_iff_spendEdge hexplained h.free hcoins] at hfeeds
      rw [hedge, ha]
      exact ⟨⟨a, .head hfeeds hb, rfl⟩, ⟨(a, b), ⟨hfeeds, hb⟩, rfl⟩⟩
    · refine traverse_sound ⟨i, .refl, rfl⟩ ?_ htrace
      rintro v f ⟨a, ha, rfl⟩ hf x hx
      obtain ⟨⟨a', b, ha', hb, hfeeds⟩, hedge⟩ :=
        forwardStep_sound hexplained h.free hgenuine hrebuilds hcoins hchildren hf x hx
      rw [← Int.ofNat_inj.1 ha', feeds_iff_spendEdge hexplained h.free hcoins] at hfeeds
      rw [hedge, hb]
      exact ⟨⟨b, .tail ha hfeeds, rfl⟩, ⟨(a, b), ⟨ha, hfeeds⟩, rfl⟩⟩

end Pool

/-! ## The traces of a transfer -/

namespace Sample

open Kakure.Sample (soundEnv noteHash note memo change hashed nullifierSound labels leaves machine exists_run eq_notes
  assumes noteHash_nullifier mem_note consumed_labels)

/-- The notes behind the genesis leaf. -/
def notes : List Circuit.Note := [note, memo, change]

/-- A chain state after the transfer; the ciphertext of a note is its index here. -/
def chain : ChainState where
  getLeaf v := (noteAt notes v.toNat).map fun n => ⟨(0, 0), [(v.toNat : Fr)], n.leaf noteHash⟩
  nextLeafIndex := 4
  isNullifierSpent nf := nf = ((1001 : ℕ) : Fr)
  childrenOfSpend nf := if nf = ((1001 : ℕ) : Fr) then [2, 3] else []

/-- A decryption that knows the notes. -/
def decrypt : DecryptNote := fun _ ciphertext =>
  (noteAt notes (ciphertext.headD 0).val).elim (.error "not a note") fun n =>
    .ok (n.1.transmitted, ((100 : ℕ) : Fr))

theorem psi_note (cek : Fr) : computePsi noteHash cek = note.1.psi := by
  rw [computePsi, noteHash_nullifier]
  rfl

/-- The notes are those behind the genesis leaf, by their indices. -/
theorem noteAt_notes {i : ℕ} {n : Circuit.Note} (h : noteAt notes i = some n) :
    (i = 1 ∧ n = note ∨ i = 2 ∧ n = memo ∨ i = 3 ∧ n = change) := by
  rcases i with _ | _ | _ | _ | i
  · cases h
  · exact Or.inl ⟨rfl, (Option.some.inj h).symm⟩
  · exact Or.inr (Or.inl ⟨rfl, (Option.some.inj h).symm⟩)
  · exact Or.inr (Or.inr ⟨rfl, (Option.some.inj h).symm⟩)
  · cases h

theorem psi_eq {i : ℕ} {n : Circuit.Note} (h : noteAt notes i = some n) : n.1.psi = note.1.psi := by
  rcases noteAt_notes h with ⟨-, rfl⟩ | ⟨-, rfl⟩ | ⟨-, rfl⟩ <;> rfl

theorem index_lt {i : ℕ} {n : Circuit.Note} (h : noteAt notes i = some n) : i < 4 := by
  rcases noteAt_notes h with ⟨rfl, -⟩ | ⟨rfl, -⟩ | ⟨rfl, -⟩ <;> norm_num

theorem nullifierAt_eq (n : Circuit.Note) (i : ℕ) : nullifierAt noteHash n i = ((i + 1000 : ℕ) : Fr) := by
  rw [nullifierAt, computeNullifier, noteHash_nullifier, Nat.cast_add]

/-- Only the first note has the nullifier of the transfer. -/
theorem nullifierAt_iff {i : ℕ} {n : Circuit.Note} (h : noteAt notes i = some n) :
    (nullifierAt noteHash n i = ((1001 : ℕ) : Fr) ↔ i = 1) ∧
      ((nullifierAt noteHash n i).toBytes = nullifierSound ↔ i = 1) := by
  have hall : ∀ i < 4, (((i + 1000 : ℕ) : Fr) = ((1001 : ℕ) : Fr) ↔ i = 1) ∧
      (((i + 1000 : ℕ) : Fr).toBytes = nullifierSound ↔ i = 1) := by decide
  rw [nullifierAt_eq]
  exact hall i (index_lt h)

/-- The transfer is the step that spends a note, into the memo and the change. -/
theorem spentInto_iff {b : Bytes 32} {j : ℕ} : SpentInto labels b j ↔ b = nullifierSound ∧ (j = 2 ∨ j = 3) := by
  constructor
  · rintro ⟨k, l, hk, hmem, hlow, hhigh⟩
    rcases k with _ | _ | _ | k
    · cases hk
      cases hmem
    · cases hk
      cases hmem
    · cases hk
      have hlow' : 2 ≤ j := hlow
      have hhigh' : j < 4 := hhigh
      exact ⟨List.mem_singleton.1 hmem, by omega⟩
    · cases hk
  · rintro ⟨rfl, hj⟩
    refine ⟨2, _, rfl, List.mem_singleton_self _, ?_⟩
    show 2 ≤ j ∧ j < 4
    omega

theorem edge_iff {i j : ℕ} : SpendEdge noteHash notes labels i j ↔ i = 1 ∧ (j = 2 ∨ j = 3) := by
  constructor
  · rintro ⟨n, hn, hspent⟩
    obtain ⟨hb, hj⟩ := spentInto_iff.1 hspent
    exact ⟨(nullifierAt_iff hn).2.1 hb, hj⟩
  · rintro ⟨rfl, hj⟩
    exact ⟨note, rfl, spentInto_iff.2 ⟨(nullifierAt_iff rfl).2.2 rfl, hj⟩⟩

theorem getLeaf_eq {i : ℕ} {n : Circuit.Note} (h : noteAt notes i = some n) :
    chain.getLeaf i = some ⟨(0, 0), [(i : Fr)], n.leaf noteHash⟩ ∧
      decrypt (0, 0) [(i : Fr)] = .ok (n.1.transmitted, ((100 : ℕ) : Fr)) := by
  have hval : (i : Fr).val = i :=
    val_natCast_of_lt (lt_trans (lt_trans (index_lt h) (by norm_num)) two_pow_128_lt_modulus)
  constructor
  · show (noteAt notes (i : ℤ).toNat).map _ = _
    rw [Int.toNat_natCast, h]
    rfl
  · show (noteAt notes (i : Fr).val).elim _ _ = _
    rw [hval, h]
    rfl

theorem isNullifierSpent_iff (nf : Fr) : chain.isNullifierSpent nf = true ↔ nf = ((1001 : ℕ) : Fr) := decide_eq_true_iff

theorem mem_childrenOfSpend (nf : Fr) (v : ℤ) :
    v ∈ chain.childrenOfSpend nf ↔ nf = ((1001 : ℕ) : Fr) ∧ ∃ j : ℕ, v = j ∧ (j = 2 ∨ j = 3) := by
  show v ∈ (if nf = ((1001 : ℕ) : Fr) then [2, 3] else []) ↔ _
  by_cases hnf : nf = ((1001 : ℕ) : Fr)
  · rw [if_pos hnf, List.mem_pair]
    constructor
    · rintro (rfl | rfl)
      · exact ⟨hnf, 2, rfl, Or.inl rfl⟩
      · exact ⟨hnf, 3, rfl, Or.inr rfl⟩
    · rintro ⟨-, j, rfl, rfl | rfl⟩
      · exact Or.inl rfl
      · exact Or.inr rfl
  · rw [if_neg hnf]
    exact ⟨fun h => absurd h List.not_mem_nil, fun h => absurd h.1 hnf⟩

theorem faithful {m : Machine} (hlength : (noteEvents m.log).length = 4) :
    Faithful noteHash decrypt chain notes labels m where
  next := by rw [hlength]; rfl
  opens i n hn := ⟨_, _, (getLeaf_eq hn).1, rfl, (getLeaf_eq hn).2, (psi_note _).trans (psi_eq hn).symm⟩
  spent i n hn := by
    rw [consumed_labels, List.mem_singleton, (nullifierAt_iff hn).2, ← (nullifierAt_iff hn).1]
    exact isNullifierSpent_iff _
  children i n hn v := by
    rw [mem_childrenOfSpend, (nullifierAt_iff hn).1, ← (nullifierAt_iff hn).2]
    simp only [spentInto_iff]
    constructor
    · rintro ⟨hb, j, hv, hj⟩
      exact ⟨j, hv, hb, hj⟩
    · rintro ⟨j, hv, hb, hj⟩
      exact ⟨hb, j, hv, hj⟩

/-- Forward from the deposited note a trace shows the memo and the change; backward from the memo, whose parents are
hidden, it shows the deposited note by way of the change. -/
theorem chain_trace_exact_sample : ∃ bound, ∀ turns > bound,
    Answers (forwardTrace noteHash decrypt chain 1 turns)
      (fun g => (1, 2) ∈ g.edges ∧ (1, 3) ∈ g.edges ∧ g.truncated = []) ∧
    Answers (backwardTrace noteHash decrypt chain 2 turns) (fun g => (1, 2) ∈ g.edges ∧ g.truncated = []) := by
  obtain ⟨m, hfresh, hrun, hleaves⟩ := exists_run
  obtain ⟨ns, hnotes, htail, hexact⟩ := chain_trace_exact hfresh hrun (assumes hleaves)
  obtain rfl := eq_notes hleaves hnotes htail
  have hlength : (noteEvents m.log).length = 4 := by
    rw [← List.length_map (f := NoteInserted.leaf), hleaves]
    rfl
  have hedges : SpendEdge noteHash notes labels 1 2 ∧ SpendEdge noteHash notes labels 1 3 :=
    ⟨edge_iff.2 ⟨rfl, Or.inl rfl⟩, edge_iff.2 ⟨rfl, Or.inr rfl⟩⟩
  obtain ⟨forward, hforward⟩ := hexact decrypt chain (faithful hlength) 1 rfl
  obtain ⟨backward, hbackward⟩ := hexact decrypt chain (faithful hlength) 2 rfl
  refine ⟨max forward backward, fun turns hturns => ?_⟩
  obtain ⟨⟨g, hg, hshows⟩, -⟩ := hforward turns (lt_of_le_of_lt (le_max_left _ _) hturns)
  obtain ⟨-, g', hg', hshows'⟩ := hbackward turns (lt_of_le_of_lt (le_max_right _ _) hturns)
  refine ⟨⟨g, hg, ?_, ?_, hshows.truncated⟩, g', hg', ?_, hshows'.truncated⟩
  · exact (hshows.mem_edges _).2 ⟨(1, 2), ⟨.refl, hedges.1⟩, rfl⟩
  · exact (hshows.mem_edges _).2 ⟨(1, 3), ⟨.refl, hedges.2⟩, rfl⟩
  · exact (hshows'.mem_edges _).2 ⟨(1, 2), ⟨hedges.1, .refl⟩, rfl⟩

/-- What the backward trace of the memo computes, and that its edge is there. -/
theorem chain_trace_sound_sample :
    ∃ g, backwardTrace noteHash decrypt chain 2 5 = pure g ∧ g.nodes = [1, 2] ∧ g.edges = [(1, 2)] ∧
      ∀ e ∈ g.edges, e ∈ indexPairs {e | SpendEdge noteHash notes labels e.1 e.2} := by
  have htrace : backwardTrace noteHash decrypt chain 2 5 = pure ⟨[1, 2], [(1, 2)], []⟩ := by
    have hrun : Option.map Except.toOption (backwardTrace noteHash decrypt chain 2 5) =
        some (some ⟨[1, 2], [(1, 2)], []⟩) := by
      decide +kernel
    obtain ⟨r, hr, hgraph⟩ := Option.map_eq_some_iff.1 hrun
    cases r with
    | error e => cases hgraph
    | ok g =>
      cases hgraph
      exact hr
  refine ⟨_, htrace, rfl, rfl, ?_⟩
  obtain ⟨m, hfresh, hrun, hleaves⟩ := exists_run
  obtain ⟨ns, hnotes, htail, hsound⟩ := chain_trace_sound hfresh hrun (assumes hleaves)
  obtain rfl := eq_notes hleaves hnotes htail
  have hleaf : ∀ v data, chain.getLeaf v = some data →
      ∃ i n, v = (i : ℕ) ∧ noteAt notes i = some n ∧ data = ⟨(0, 0), [(i : Fr)], n.leaf noteHash⟩ := by
    intro v data hdata
    obtain ⟨n, hn, rfl⟩ := Option.map_eq_some_iff.1 hdata
    have hpos : v.toNat ≠ 0 := fun h => by rw [h] at hn; cases hn
    exact ⟨v.toNat, n, by omega, hn, rfl⟩
  have hgenuine : Genuine chain m := by
    intro v data hdata
    obtain ⟨i, n, rfl, hn, rfl⟩ := hleaf v data hdata
    refine ⟨i, rfl, ?_⟩
    rw [hleaves]
    rcases noteAt_notes hn with ⟨rfl, rfl⟩ | ⟨rfl, rfl⟩ | ⟨rfl, rfl⟩ <;> rfl
  have hrebuilds : Rebuilds hashed noteHash decrypt chain := by
    intro v data fields cek hdata hdecrypt hvalue
    obtain ⟨i, n, rfl, hn, rfl⟩ := hleaf v data hdata
    rw [(getLeaf_eq hn).2] at hdecrypt
    cases hdecrypt
    have heq : (⟨Notes.noteOf n.1.transmitted (computePsi noteHash ((100 : ℕ) : Fr)), hvalue⟩ : Circuit.Note) = n := by
      refine Subtype.ext ?_
      show Notes.noteOf n.1.transmitted (computePsi noteHash ((100 : ℕ) : Fr)) = n.1
      rw [psi_note, ← psi_eq hn, Notes.noteOf_transmitted n.2]
    rw [heq]
    rcases noteAt_notes hn with ⟨-, rfl⟩ | ⟨-, rfl⟩ | ⟨-, rfl⟩
    · exact mem_note.1
    · exact mem_note.2.1
    · exact mem_note.2.2
  intro e he
  obtain ⟨e', ⟨hedge, -⟩, heq⟩ := ((hsound decrypt chain hgenuine hrebuilds 2 5 _).1 htrace).2 e he
  exact ⟨e', hedge, heq⟩

end Sample

end Kakure.Threshold
