import Kakure.Lib.Runs

/-!
# Coins

Transactions over coins that are numbered in the order they are made.  A transaction takes coins by their numbers
and makes new ones; a coin is anything that has a value.

* `Ledger.Kept`, `run_kept` — no coin is taken twice, or before it is made;
* `unspentValue_add` — a coin is either taken or left;
* `run_balance` — what came in is what went out and the coins that are left;
* `Within` — items that lie one after the other, such as the coins that transactions make;
* `Feeds` — a coin is taken by the transaction that makes another, with `Feeds.lt`: it was made before.
-/

namespace Coins

open Runs

variable {κ M : Type*}

/-- A transaction: the coins it takes, those it makes, what is paid in and what is paid out. -/
structure Tx (κ M : Type*) where
  inputs : List ℕ
  outputs : List κ
  paidIn : M
  paidOut : M

/-- The coins that were made, and the numbers of those that were taken. -/
structure Ledger (κ : Type*) where
  coins : List κ
  spent : List ℕ

namespace Ledger

/-- Nothing was made yet. -/
def empty : Ledger κ := ⟨[], []⟩

/-- The effect of a transaction. -/
def apply (L : Ledger κ) (tx : Tx κ M) : Ledger κ := ⟨L.coins ++ tx.outputs, L.spent ++ tx.inputs⟩

@[simp] theorem coins_apply (L : Ledger κ) (tx : Tx κ M) : (L.apply tx).coins = L.coins ++ tx.outputs := rfl

@[simp] theorem spent_apply (L : Ledger κ) (tx : Tx κ M) : (L.apply tx).spent = L.spent ++ tx.inputs := rfl

/-- No coin was taken twice, or before it was made. -/
structure Kept (L : Ledger κ) : Prop where
  nodup : L.spent.Nodup
  made : ∀ i ∈ L.spent, i < L.coins.length

theorem kept_empty : (empty : Ledger κ).Kept := ⟨List.nodup_nil, fun _ h => absurd h List.not_mem_nil⟩

end Ledger

section Values

variable [AddCancelCommMonoid M] (value : κ → M)

/-- The value of a coin, none before it is made. -/
def Ledger.valueAt (L : Ledger κ) (i : ℕ) : M := (L.coins[i]?).elim 0 value

/-- The value of the coins that are left. -/
def Ledger.unspentValue (L : Ledger κ) : M :=
  ∑ i ∈ Finset.range L.coins.length with i ∉ L.spent, L.valueAt value i

/-- A transaction that takes coins which are there, each once, and loses no value. -/
structure Valid (L : Ledger κ) (tx : Tx κ M) : Prop where
  distinct : tx.inputs.Nodup
  made : ∀ i ∈ tx.inputs, i < L.coins.length
  unspent : ∀ i ∈ tx.inputs, i ∉ L.spent
  balanced : (tx.inputs.map (L.valueAt value)).sum + tx.paidIn = (tx.outputs.map value).sum + tx.paidOut

/-- A ledger takes up a valid transaction. -/
inductive Step : Ledger κ → Tx κ M → Ledger κ → Prop
  | mk {L : Ledger κ} {tx : Tx κ M} (h : Valid value L tx) : Step L tx (L.apply tx)

variable {value} {L L' : Ledger κ} {tx : Tx κ M} {txs : List (Tx κ M)}

theorem Valid.kept (h : Valid value L tx) (hkept : L.Kept) : (L.apply tx).Kept where
  nodup := by
    refine List.nodup_append.2 ⟨hkept.nodup, h.distinct, fun i hi j hj => ?_⟩
    rintro rfl
    exact h.unspent i hj hi
  made i hi := by
    rw [Ledger.coins_apply, List.length_append]
    rcases List.mem_append.1 hi with hold | hnew
    · exact Nat.lt_add_right _ (hkept.made i hold)
    · exact Nat.lt_add_right _ (h.made i hnew)

theorem run_kept (h : Run (Step value) Ledger.empty txs L) : L.Kept := by
  refine h.invariant (P := fun _ L => L.Kept) Ledger.kept_empty ?_
  rintro _ L tx _ - ih ⟨hvalid⟩
  exact hvalid.kept ih

/-- A coin keeps its value. -/
theorem Ledger.valueAt_apply (L : Ledger κ) (tx : Tx κ M) {i : ℕ} (h : i < L.coins.length) :
    (L.apply tx).valueAt value i = L.valueAt value i := by
  unfold Ledger.valueAt
  rw [coins_apply, List.getElem?_append_left h]

theorem Ledger.map_valueAt_apply (value : κ → M) (L : Ledger κ) (tx : Tx κ M) {is : List ℕ}
    (h : ∀ i ∈ is, i < L.coins.length) :
    is.map ((L.apply tx).valueAt value) = is.map (L.valueAt value) :=
  List.map_congr_left fun i hi => L.valueAt_apply tx (h i hi)

/-- The values of all coins that were made. -/
theorem Ledger.sum_valueAt (L : Ledger κ) :
    ∑ i ∈ Finset.range L.coins.length, L.valueAt value i = (L.coins.map value).sum := by
  obtain ⟨coins, spent⟩ := L
  show ∑ i ∈ Finset.range coins.length, (coins[i]?).elim 0 value = (coins.map value).sum
  induction coins with
  | nil => rfl
  | cons c coins ih =>
    rw [List.length_cons, Finset.sum_range_succ', List.map_cons, List.sum_cons, ← ih, add_comm]
    rfl

/-- A coin is either left or taken. -/
theorem Ledger.Kept.unspentValue_add (h : L.Kept) :
    L.unspentValue value + (L.spent.map (L.valueAt value)).sum = (L.coins.map value).sum := by
  classical
  have hspent : (L.spent.map (L.valueAt value)).sum =
      ∑ i ∈ Finset.range L.coins.length with ¬ i ∉ L.spent, L.valueAt value i := by
    rw [← List.sum_toFinset _ h.nodup]
    refine Finset.sum_congr (Finset.ext fun i => ?_) fun _ _ => rfl
    rw [List.mem_toFinset, Finset.mem_filter, Finset.mem_range, not_not]
    exact ⟨fun hi => ⟨h.made i hi, hi⟩, And.right⟩
  rw [hspent, Ledger.unspentValue, Finset.sum_filter_add_sum_filter_not, L.sum_valueAt]

/-- Over a run, what was made and paid out is what was taken and paid in. -/
theorem run_totals (h : Run (Step value) Ledger.empty txs L) :
    (L.coins.map value).sum + (txs.map Tx.paidOut).sum =
      (L.spent.map (L.valueAt value)).sum + (txs.map Tx.paidIn).sum := by
  refine h.invariant (P := fun txs L => (L.coins.map value).sum + (txs.map Tx.paidOut).sum =
    (L.spent.map (L.valueAt value)).sum + (txs.map Tx.paidIn).sum) rfl ?_
  rintro txs L tx _ hrun ih ⟨hvalid⟩
  have hkept := run_kept hrun
  have hspent := L.map_valueAt_apply value tx hkept.made
  have hinputs := L.map_valueAt_apply value tx hvalid.made
  simp only [Ledger.coins_apply, Ledger.spent_apply, List.map_append, List.sum_append, List.map_singleton,
    List.sum_singleton, hspent, hinputs]
  calc (L.coins.map value).sum + (tx.outputs.map value).sum + ((txs.map Tx.paidOut).sum + tx.paidOut)
      = ((L.coins.map value).sum + (txs.map Tx.paidOut).sum) + ((tx.outputs.map value).sum + tx.paidOut) := by abel
    _ = ((L.spent.map (L.valueAt value)).sum + (txs.map Tx.paidIn).sum) +
          ((tx.inputs.map (L.valueAt value)).sum + tx.paidIn) := by rw [ih, hvalid.balanced]
    _ = _ := by abel

/-- Over a run, what was paid in is what was paid out and the value of the coins that are left. -/
theorem run_balance (h : Run (Step value) Ledger.empty txs L) :
    (txs.map Tx.paidIn).sum = (txs.map Tx.paidOut).sum + L.unspentValue value := by
  have htotals := run_totals h
  rw [← (run_kept h).unspentValue_add] at htotals
  refine add_left_cancel (a := (L.spent.map (L.valueAt value)).sum) ?_
  rw [← htotals]
  abel

end Values

/-! ## Items one after the other -/

section Layout

variable {α : Type*} (size : α → ℕ)

/-- The places that items take up. -/
def total (xs : List α) : ℕ := (xs.map size).sum

/-- A place is one of the item with this number, if the items lie one after the other. -/
def Within (xs : List α) (k j : ℕ) : Prop := total size (xs.take k) ≤ j ∧ j < total size (xs.take (k + 1))

variable {size} {xs : List α} {x : α} {j k k' : ℕ}

theorem total_append (xs xs' : List α) : total size (xs ++ xs') = total size xs + total size xs' := by
  rw [total, List.map_append, List.sum_append, total, total]

theorem total_snoc (xs : List α) (x : α) : total size (xs ++ [x]) = total size xs + size x := by
  rw [total_append]
  simp [total]

theorem total_take_mono (size : α → ℕ) (xs : List α) (h : k ≤ k') : total size (xs.take k) ≤ total size (xs.take k') := by
  obtain ⟨rest, hrest⟩ := List.take_prefix_take_left h (l := xs)
  rw [← hrest, total_append]
  exact Nat.le_add_right _ _

theorem total_take_succ (h : xs[k]? = some x) :
    total size (xs.take (k + 1)) = total size (xs.take k) + size x := by
  rw [List.take_add_one, h, total_append]
  simp [total]

/-- A place is one of a single item. -/
theorem Within.unique (h : Within size xs k j) (h' : Within size xs k' j) : k = k' := by
  obtain ⟨hle, hlt⟩ := h
  obtain ⟨hle', hlt'⟩ := h'
  rcases Nat.lt_trichotomy k k' with hk | rfl | hk
  · have := total_take_mono size xs (show k + 1 ≤ k' from hk)
    omega
  · rfl
  · have := total_take_mono size xs (show k' + 1 ≤ k from hk)
    omega

theorem Within.lt_total (h : Within size xs k j) : j < total size xs := by
  refine lt_of_lt_of_le h.2 ?_
  have hle := total_take_mono size xs (le_max_left (k + 1) xs.length)
  rwa [List.take_of_length_le (le_max_right (k + 1) xs.length)] at hle

theorem Within.exists_item (h : Within size xs k j) : ∃ x, xs[k]? = some x ∧ j < total size (xs.take k) + size x := by
  obtain ⟨hle, hlt⟩ := h
  cases hk : xs[k]? with
  | none =>
    have hlen := List.getElem?_eq_none_iff.1 hk
    rw [List.take_of_length_le (le_trans hlen (Nat.le_succ k))] at hlt
    rw [List.take_of_length_le hlen] at hle
    omega
  | some x => exact ⟨x, rfl, total_take_succ hk ▸ hlt⟩

/-- A place is one of an item before the last one or of the last one. -/
theorem within_snoc {P : α → Prop} : (∃ k y, (xs ++ [x])[k]? = some y ∧ P y ∧ Within size (xs ++ [x]) k j) ↔
    (∃ k y, xs[k]? = some y ∧ P y ∧ Within size xs k j) ∨
      P x ∧ total size xs ≤ j ∧ j < total size xs + size x := by
  have htake : ∀ k, k ≤ xs.length → (xs ++ [x]).take k = xs.take k := fun k hk => List.take_append_of_le_length hk
  constructor
  · rintro ⟨k, y, hk, hP, hle, hlt⟩
    rcases Nat.lt_or_ge k xs.length with hlast | hlast
    · rw [List.getElem?_append_left hlast] at hk
      rw [htake k hlast.le] at hle
      rw [htake (k + 1) hlast] at hlt
      exact Or.inl ⟨k, y, hk, hP, hle, hlt⟩
    · rw [List.getElem?_append_right hlast] at hk
      obtain ⟨hzero, hy⟩ := List.getElem?_singleton.symm.trans hk |> Option.ite_none_right_eq_some.1
      obtain rfl : k = xs.length := by omega
      cases hy
      rw [htake _ le_rfl, List.take_length] at hle
      rw [List.take_of_length_le (by simp), total_snoc] at hlt
      exact Or.inr ⟨hP, hle, hlt⟩
  · rintro (⟨k, y, hk, hP, hle, hlt⟩ | ⟨hP, hle, hlt⟩)
    · have hlast := (List.getElem?_eq_some_iff.1 hk).1
      refine ⟨k, y, (List.getElem?_append_left hlast).trans hk, hP, ?_, ?_⟩
      · rwa [htake k hlast.le]
      · rwa [htake (k + 1) hlast]
    · refine ⟨xs.length, x, List.getElem?_concat_length, hP, ?_, ?_⟩
      · rwa [htake _ le_rfl, List.take_length]
      · rwa [List.take_of_length_le (by simp), total_snoc]

/-- Every place that is taken up is one of an item. -/
theorem exists_within (h : j < total size xs) : ∃ k, Within size xs k j := by
  induction xs using List.reverseRecOn with
  | nil => exact absurd h (Nat.not_lt_zero j)
  | append_singleton xs x ih =>
    have hcases : (∃ k y, (xs ++ [x])[k]? = some y ∧ True ∧ Within size (xs ++ [x]) k j) := by
      refine within_snoc.2 ?_
      by_cases hj : j < total size xs
      · obtain ⟨k, hk⟩ := ih hj
        obtain ⟨y, hy, -⟩ := hk.exists_item
        exact Or.inl ⟨k, y, hy, trivial, hk⟩
      · exact Or.inr ⟨trivial, not_lt.1 hj, total_snoc xs x ▸ h⟩
    obtain ⟨k, -, -, -, hk⟩ := hcases
    exact ⟨k, hk⟩

end Layout

/-! ## Where coins come from -/

/-- The coins a transaction makes. -/
def Tx.size (tx : Tx κ M) : ℕ := tx.outputs.length

/-- A coin is taken by the transaction that makes another. -/
def Feeds (txs : List (Tx κ M)) (i j : ℕ) : Prop := ∃ k tx, txs[k]? = some tx ∧ i ∈ tx.inputs ∧ Within Tx.size txs k j

section Order

variable {txs : List (Tx κ M)} {tx tx' : Tx κ M} {i j k k' : ℕ}

theorem length_outputs (txs : List (Tx κ M)) : (txs.flatMap Tx.outputs).length = total Tx.size txs := by
  rw [List.length_flatMap]
  rfl

theorem take_append_drop (hk : txs[k]? = some tx) : txs = txs.take k ++ tx :: txs.drop (k + 1) := by
  obtain ⟨hlt, rfl⟩ := List.getElem?_eq_some_iff.1 hk
  rw [← List.drop_eq_getElem_cons hlt, List.take_append_drop]

/-- What feeds a coin is taken by the transaction that makes it. -/
theorem feeds_iff_of_made (hk : txs[k]? = some tx) (hj : Within Tx.size txs k j) : Feeds txs i j ↔ i ∈ tx.inputs := by
  constructor
  · rintro ⟨k', tx', hk', hi, hj'⟩
    obtain rfl := hj.unique hj'
    rw [hk] at hk'
    cases hk'
    exact hi
  · exact fun hi => ⟨k, tx, hk, hi, hj⟩

variable [AddCancelCommMonoid M] {value : κ → M} {L : Ledger κ}

/-- The coins of a run are those its transactions make, and the taken ones those they take. -/
theorem run_eq (h : Run (Step value) Ledger.empty txs L) :
    L.coins = txs.flatMap Tx.outputs ∧ L.spent = txs.flatMap Tx.inputs := by
  refine h.invariant (P := fun txs L => L.coins = txs.flatMap Tx.outputs ∧ L.spent = txs.flatMap Tx.inputs)
    ⟨rfl, rfl⟩ ?_
  rintro txs L tx _ - ⟨hcoins, hspent⟩ ⟨-⟩
  rw [Ledger.coins_apply, Ledger.spent_apply, hcoins, hspent, List.flatMap_append, List.flatMap_append]
  simp

theorem length_coins (h : Run (Step value) Ledger.empty txs L) : L.coins.length = total Tx.size txs := by
  rw [(run_eq h).1, length_outputs]

/-- A coin was taken exactly if some transaction takes it. -/
theorem mem_spent_iff (h : Run (Step value) Ledger.empty txs L) :
    i ∈ L.spent ↔ ∃ (k : ℕ) (tx : Tx κ M), txs[k]? = some tx ∧ i ∈ tx.inputs := by
  rw [(run_eq h).2, List.mem_flatMap]
  constructor
  · rintro ⟨tx, htx, hi⟩
    obtain ⟨k, hk⟩ := List.mem_iff_getElem?.1 htx
    exact ⟨k, tx, hk, hi⟩
  · rintro ⟨k, tx, hk, hi⟩
    exact ⟨tx, List.mem_of_getElem? hk, hi⟩

/-- The coins before a transaction are those it can take. -/
theorem taken_lt (hrun : Run (Step value) Ledger.empty txs L) (hk : txs[k]? = some tx) (hi : i ∈ tx.inputs) :
    i < total Tx.size (txs.take k) := by
  rw [take_append_drop hk] at hrun
  obtain ⟨L₁, hbefore, hafter⟩ := hrun.exists_of_append
  obtain ⟨L₂, ⟨hvalid⟩, -⟩ := hafter.exists_of_cons
  rw [← length_coins hbefore]
  exact hvalid.made i hi

/-- A coin that feeds another was made before it. -/
theorem Feeds.lt (hrun : Run (Step value) Ledger.empty txs L) (h : Feeds txs i j) : i < j := by
  obtain ⟨k, tx, hk, hi, hmade⟩ := h
  exact lt_of_lt_of_le (taken_lt hrun hk hi) hmade.1

theorem Feeds.lt_length (hrun : Run (Step value) Ledger.empty txs L) (h : Feeds txs i j) : j < L.coins.length := by
  obtain ⟨k, tx, -, -, hmade⟩ := h
  rw [length_coins hrun]
  exact hmade.lt_total

/-- The coin at a place is the output of the transaction that makes it. -/
theorem getElem?_coins (hrun : Run (Step value) Ledger.empty txs L) (hk : txs[k]? = some tx) {pos : ℕ}
    (hpos : pos < tx.outputs.length) : L.coins[total Tx.size (txs.take k) + pos]? = tx.outputs[pos]? := by
  rw [(run_eq hrun).1]
  conv_lhs => rw [take_append_drop hk, List.flatMap_append, List.flatMap_cons]
  rw [← take_append_drop hk, List.getElem?_append_right (by rw [length_outputs]; exact Nat.le_add_right _ _),
    length_outputs, Nat.add_sub_cancel_left, List.getElem?_append_left hpos]

/-- Every coin is an output of a transaction. -/
theorem exists_made (hrun : Run (Step value) Ledger.empty txs L) {c : κ} (hc : L.coins[j]? = some c) :
    ∃ k tx pos, txs[k]? = some tx ∧ Within Tx.size txs k j ∧ j = total Tx.size (txs.take k) + pos ∧
      tx.outputs[pos]? = some c := by
  obtain ⟨k, hk⟩ := exists_within (length_coins hrun ▸ (List.getElem?_eq_some_iff.1 hc).1)
  obtain ⟨tx, htx, hlt⟩ := hk.exists_item
  obtain ⟨pos, rfl⟩ := Nat.exists_eq_add_of_le hk.1
  have hpos : pos < tx.outputs.length := Nat.add_lt_add_iff_left.1 hlt
  exact ⟨k, tx, pos, htx, hk, rfl, by rw [← getElem?_coins hrun htx hpos, hc]⟩

end Order

end Coins
