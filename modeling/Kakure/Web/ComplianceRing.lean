import Kakure.Indexer.Chain
import Kakure.Lib.Fallible
import Kakure.Lib.Numerals
import Kakure.Sdk.ComplianceKeys
import Kakure.Sdk.PoolAccounts

/-!
# The compliance ring of the web application

`fetchComplianceRing` of `apps/web/src/lib/complianceRing.ts`: the keys `GET /compliance`
lists, or the key of the pool account when it lists none.

* `listComplianceKeys_mirrorStore` — the indexer lists the rotated keys, and no other;
* `fetchComplianceRing_keys` — so the ring has the keys from version 1 on, or the one of
  version 0;
* `complianceRing_complete_iff` — it has every key that was in force exactly before the
  first rotation.
-/

namespace Kakure.Web

open Slices Hex Numerals Runs Sdk Indexer

/-- One entry of the answer of `GET /compliance`. -/
structure ComplianceEpochResponse where
  version : ℤ
  x : String
  y : String
  from_slot : Option ℤ

/-- The status and the body of an answer of `GET /compliance`. -/
structure ComplianceAnswer where
  status : ℕ
  body : List ComplianceEpochResponse

/-- The handler of `GET /compliance`. -/
def serveCompliance (store : IndexerStore) : ComplianceAnswer :=
  ⟨200, store.listComplianceKeys.map fun k => ⟨k.version, k.x, k.y, some k.fromSlot⟩⟩

def hexToBigInt (hex : String) : Except String ℤ :=
  let text := if ['0', 'x'] <+: hex.toList then hex.toList else '0' :: 'x' :: hex.toList
  match bigInt text with
  | some n => .ok n
  | none => .error ("Cannot convert " ++ String.ofList text ++ " to a BigInt")

/-- `ComplianceKeyRing.from`, whose error is a thrown one. -/
def ringFrom (epochs : List ComplianceKeyEpoch) : Except String ComplianceKeyRing :=
  match ComplianceKeyRing.new epochs with
  | .ok ring => .ok ring
  | .error e => .error e.message

/-- `ringFromPoolAccount`, of the data of the pool account if there is one. -/
def ringFromPoolAccount (info : Option (List UInt8)) : Except String ComplianceKeyRing := do
  match info with
  | none => .error "fetchComplianceRing: pool account not found on-chain"
  | some data =>
    let pool ← decodePool data
    ringFrom [⟨pool.complianceVersion, bigPoint (pool.compliancePkX, pool.compliancePkY), none⟩]

/-- The epoch of an entry. -/
def ComplianceEpochResponse.epoch (e : ComplianceEpochResponse) : Except String ComplianceKeyEpoch := do
  let x ← hexToBigInt e.x
  let y ← hexToBigInt e.y
  .ok ⟨e.version, (x, y), e.from_slot⟩

/-- `fetchComplianceRing`; a fallback is the account its RPC reads. -/
def fetchComplianceRing (res : ComplianceAnswer) (fallback : Option (Option (List UInt8))) :
    Except String ComplianceKeyRing :=
  if ¬ (200 ≤ res.status ∧ res.status < 300) then
    .error ("fetchComplianceRing: GET /compliance -> HTTP " ++ toString res.status)
  else if res.body = [] then
    match fallback with
    | some info => ringFromPoolAccount info
    | none => .error "fetchComplianceRing: indexer returned no compliance key epochs"
  else do
    let epochs ← res.body.mapM ComplianceEpochResponse.epoch
    ringFrom epochs

/-! ## What the indexer lists -/

/-- The row of a rotation. -/
def keyRow (slot : ℕ) (r : ℕ × ℕ × Bytes 32 × Bytes 32) : ComplianceKeyRow :=
  ⟨r.2.1, toHex r.2.2.1.val, toHex r.2.2.2.val, slot⟩

/-- The rows of a store are these rotations, each from some slot. -/
def HoldsKeys (s : IndexerStore) (rotations : List (ℕ × ℕ × Bytes 32 × Bytes 32)) : Prop :=
  List.Forall₂ (fun row r => ∃ slot, row = keyRow slot r) s.complianceKeys.rows rotations

theorem HoldsKeys.versions {s : IndexerStore} {rotations : List (ℕ × ℕ × Bytes 32 × Bytes 32)}
    (h : HoldsKeys s rotations) :
    s.complianceKeys.rows.map ComplianceKeyRow.version = rotations.map fun r => r.2.1 := by
  unfold HoldsKeys at h
  generalize s.complianceKeys.rows = rows at h
  induction h with
  | nil => rfl
  | cons hrow _ ih =>
    obtain ⟨slot, rfl⟩ := hrow
    rw [List.map_cons, List.map_cons, ih]
    rfl

/-- A rotation to a version beyond all others appends its row. -/
theorem HoldsKeys.append {s : IndexerStore} {rotations : List (ℕ × ℕ × Bytes 32 × Bytes 32)}
    (h : HoldsKeys s rotations) {r : ℕ × ℕ × Bytes 32 × Bytes 32} (slot : ℕ)
    (hbelow : ∀ r' ∈ rotations, r'.2.1 < r.2.1) :
    HoldsKeys (s.insertComplianceKey (keyRow slot r)) (rotations ++ [r]) := by
  have hrows : ∀ row ∈ s.complianceKeys, row.version < (keyRow slot r).version := by
    intro row hrow
    have hmem : row.version ∈ s.complianceKeys.rows.map ComplianceKeyRow.version := List.mem_map_of_mem hrow
    rw [h.versions] at hmem
    obtain ⟨r', hr', heq⟩ := List.mem_map.1 hmem
    rw [← heq]
    exact hbelow r' hr'
  unfold HoldsKeys IndexerStore.insertComplianceKey
  rw [Table.insertOrReplace_of_lt hrows]
  exact List.rel_append h (List.forall₂_cons.2 ⟨⟨slot, rfl⟩, List.Forall₂.nil⟩)

/-- The events of a log, each in some slot, append the rotations among them. -/
theorem HoldsKeys.execAll {s : IndexerStore} {done : List Event} (h : HoldsKeys s (rotationEvents done))
    {events : List (ℕ × Event)}
    (hversions : ∀ k r, (rotationEvents (done ++ events.map Prod.snd))[k]? = some r → r.2.1 = k + 1) :
    HoldsKeys (s.execAll (events.flatMap fun p => eventStatements p.1 p.2))
      (rotationEvents (done ++ events.map Prod.snd)) := by
  induction events generalizing s done with
  | nil => simpa using h
  | cons p events ih =>
    obtain ⟨slot, ev⟩ := p
    rw [List.flatMap_cons, IndexerStore.execAll_append]
    rw [List.map_cons, List.append_cons] at hversions ⊢
    refine ih ?_ hversions
    rw [rotationEvents_append]
    cases ev with
    | noteInserted ev =>
      rw [show rotationEvents [(slot, Event.noteInserted ev).2] = [] from rfl, List.append_nil]
      exact h
    | nullifierSpent nullifier =>
      rw [show rotationEvents [(slot, Event.nullifierSpent nullifier).2] = [] from rfl, List.append_nil]
      exact h
    | complianceKeyRotated old new x y =>
      refine h.append (r := (old, new, x, y)) slot fun r' hr' => ?_
      obtain ⟨k, hk⟩ := List.mem_iff_getElem?.1 hr'
      have hklt : k < (rotationEvents done).length := (List.getElem?_eq_some_iff.1 hk).1
      have hall : rotationEvents (done ++ [(slot, Event.complianceKeyRotated old new x y).2] ++
          events.map Prod.snd) = rotationEvents done ++ (old, new, x, y) :: rotationEvents
            (events.map Prod.snd) := by
        rw [rotationEvents_append, rotationEvents_append, List.append_assoc]
        rfl
      have hold := hversions k r' (by
        rw [hall, List.getElem?_append_left hklt]
        exact hk)
      have hnew := hversions (rotationEvents done).length (old, new, x, y) (by rw [hall]; simp)
      rw [hold, hnew]
      exact Nat.succ_lt_succ hklt

/-- The indexer lists the rotated keys in order, and no other. -/
theorem listComplianceKeys_mirrorStore {txs : List PoolTx} {store : IndexerStore}
    (hstore : SameData store (mirrorStore txs))
    (hversions : ∀ k r, (rotationEvents (txs.flatMap PoolTx.events))[k]? = some r → r.2.1 = k + 1) :
    List.Forall₂ (fun row r => ∃ slot, row = keyRow slot r) store.listComplianceKeys
      (rotationEvents (txs.flatMap PoolTx.events)) := by
  have hevents : (txs.flatMap fun tx => tx.events.map (Prod.mk tx.slot)).map Prod.snd =
      txs.flatMap PoolTx.events := by
    rw [List.map_flatMap]
    simp
  have hstatements : (txs.flatMap fun tx => tx.events.map (Prod.mk tx.slot)).flatMap
      (fun p => eventStatements p.1 p.2) = txs.flatMap PoolTx.statements := by
    rw [List.flatMap_assoc]
    simp only [List.flatMap_map]
    rfl
  have hrun := @HoldsKeys.execAll IndexerStore.empty [] List.Forall₂.nil
    (txs.flatMap fun tx => tx.events.map (Prod.mk tx.slot)) (by rwa [List.nil_append, hevents])
  rw [List.nil_append, hevents, hstatements] at hrun
  unfold IndexerStore.listComplianceKeys
  rw [hstore.complianceKeys]
  exact hrun

/-! ## What the client makes of the list -/

/-- A stored coordinate reads as the number its bytes are. -/
theorem hexToBigInt_toHex (b : Bytes 32) : hexToBigInt (toHex b.val) = .ok (beNat b.val : ℤ) := by
  have hne : b.val ≠ [] := List.ne_nil_of_length_pos (by rw [b.property]; norm_num)
  have htext : (toHex b.val).toList = '0' :: 'x' :: hexDigits b.val := by
    unfold toHex
    rw [String.toList_ofList]
  have hread : bigInt ('0' :: 'x' :: hexDigits b.val) = some (beNat b.val : ℤ) := bigInt_hexDigits hne
  unfold hexToBigInt
  rw [htext, if_pos (by simp)]
  simp only [hread]

/-- The epoch a client makes of a rotation, as the indexer saw it in some slot. -/
def rotatedEpoch (slot : ℕ) (r : ℕ × ℕ × Bytes 32 × Bytes 32) : ComplianceKeyEpoch :=
  ⟨r.2.1, bigPoint r.2.2, some slot⟩

theorem epoch_keyRow (slot : ℕ) (r : ℕ × ℕ × Bytes 32 × Bytes 32) :
    ComplianceEpochResponse.epoch ⟨(keyRow slot r).version, (keyRow slot r).x, (keyRow slot r).y,
      some (keyRow slot r).fromSlot⟩ = .ok (rotatedEpoch slot r) := by
  unfold ComplianceEpochResponse.epoch keyRow
  simp only [hexToBigInt_toHex]
  rfl

/-- The epochs of a served list of rotations. -/
theorem mapM_epoch {store : IndexerStore} {rotations : List (ℕ × ℕ × Bytes 32 × Bytes 32)}
    (h : HoldsKeys store rotations) : ∃ epochs,
      (serveCompliance store).body.mapM ComplianceEpochResponse.epoch = .ok epochs ∧
      epochs.map (fun e => (e.version, e.pk)) = rotations.map fun r => ((r.2.1 : ℤ), bigPoint r.2.2) := by
  unfold serveCompliance IndexerStore.listComplianceKeys
  unfold HoldsKeys at h
  generalize store.complianceKeys.rows = rows at h
  induction h with
  | nil => exact ⟨[], rfl, rfl⟩
  | @cons row r rows rotations hrow _ ih =>
    obtain ⟨slot, rfl⟩ := hrow
    obtain ⟨epochs, hepochs, hkeys⟩ := ih
    refine ⟨rotatedEpoch slot r :: epochs, ?_, ?_⟩
    · rw [List.map_cons, List.mapM_cons, epoch_keyRow, hepochs]
      rfl
    · rw [List.map_cons, List.map_cons, hkeys]
      rfl

theorem firstDuplicate_eq_none {epochs : List ComplianceKeyEpoch} {seen : List ℤ}
    (h : (epochs.map ComplianceKeyEpoch.version).Nodup)
    (hseen : ∀ e ∈ epochs, e.version ∉ seen) : firstDuplicate seen epochs = none := by
  induction epochs generalizing seen with
  | nil => rfl
  | cons e epochs ih =>
    rw [List.map_cons, List.nodup_cons] at h
    rw [firstDuplicate, if_neg (hseen e List.mem_cons_self)]
    refine ih h.2 fun e' he' hmem => ?_
    rcases List.mem_cons.1 hmem with heq | hmem
    · exact h.1 (heq ▸ List.mem_map_of_mem he')
    · exact hseen e' (List.mem_cons_of_mem _ he') hmem

/-- Epochs with different versions make a ring of their keys. -/
theorem ringFrom_ok {epochs : List ComplianceKeyEpoch} (hne : epochs ≠ [])
    (h : (epochs.map ComplianceKeyEpoch.version).Nodup) :
    ∃ ring, ringFrom epochs = .ok ring ∧ ring.keys.Perm (epochs.map fun e => (e.version, e.pk)) := by
  have hnew : ComplianceKeyRing.new epochs = .ok ⟨epochs.mergeSort fun a b => a.version ≤ b.version⟩ := by
    rw [ComplianceKeyRing.new, if_neg hne, firstDuplicate_eq_none h (by simp)]
  refine ⟨_, by rw [ringFrom, hnew], ?_⟩
  exact (List.mergeSort_perm _ _).map _

section Pool

variable {env : Env} {m : Machine} {txs : List PoolTx} {store : IndexerStore} {pool : Pool}
  {genesis : Bytes 32 × Bytes 32} {key : Pubkey}

/-- The ring of a pool whose log the indexer has ingested: the rotated keys, or before the first
rotation the one of the account. -/
theorem fetchComplianceRing_keys (htxs : txs.flatMap PoolTx.events = m.log)
    (hstore : SameData store (mirrorStore txs)) (hpool : PoolAt env m pool) (hkey : env.IsPool key)
    (hhistory : KeyHistory genesis m.log pool) :
    ∃ ring, fetchComplianceRing (serveCompliance store) (some (some (m.ledger key).data)) = .ok ring ∧
      ring.keys.Perm (if rotationEvents m.log = [] then chainEpochs genesis m.log
        else (chainEpochs genesis m.log).tail) := by
  have hholds : HoldsKeys store (rotationEvents m.log) := by
    rw [← htxs]
    refine listComplianceKeys_mirrorStore hstore fun k r hr => ?_
    rw [htxs] at hr
    exact (hhistory.versions k r hr).2
  unfold fetchComplianceRing
  rw [if_neg (by simp [serveCompliance])]
  by_cases hnone : rotationEvents m.log = []
  · -- nothing is listed, and the account has the first key
    rw [hnone] at hholds
    have hbody : (serveCompliance store).body = [] := by
      unfold serveCompliance IndexerStore.listComplianceKeys
      rw [List.forall₂_nil_right_iff.1 hholds]
      rfl
    obtain ⟨key', hkey', -, hdata⟩ := hpool
    obtain ⟨a, ha, -, -, hversion, hx, hy, -⟩ := decodePool_data pool
    have hzero : a.complianceVersion = 0 := by rw [hversion, hhistory.version, hnone]; rfl
    have hgenesis : (a.compliancePkX, a.compliancePkY) = genesis := by
      rw [hx, hy, hhistory.key, hnone]
      rfl
    obtain ⟨ring, hring, hkeys⟩ := @ringFrom_ok
      [⟨a.complianceVersion, bigPoint (a.compliancePkX, a.compliancePkY), none⟩]
      (by simp) (by simp)
    rw [if_pos hbody, if_pos hnone]
    refine ⟨ring, ?_, ?_⟩
    · rw [hkey.eq hkey', hdata]
      show (decodePool pool.data).bind _ = _
      rw [ha]
      exact hring
    · refine hkeys.trans (List.Perm.of_eq ?_)
      rw [chainEpochs, hnone, hgenesis, hzero]
      rfl
  · obtain ⟨epochs, hepochs, hkeys⟩ := mapM_epoch hholds
    have hversions : epochs.map ComplianceKeyEpoch.version =
        (rotationEvents m.log).map fun r => ((r.2.1 : ℕ) : ℤ) := by
      have := congrArg (List.map Prod.fst) hkeys
      simpa [Function.comp_def] using this
    have hnodup : (epochs.map ComplianceKeyEpoch.version).Nodup := by
      rw [hversions, List.nodup_iff_injective_getElem]
      intro i j hij
      have hi := (hhistory.versions i _ (List.getElem?_eq_getElem (by simpa using i.2))).2
      have hj := (hhistory.versions j _ (List.getElem?_eq_getElem (by simpa using j.2))).2
      simp only [List.getElem_map, Nat.cast_inj] at hij
      rw [hi, hj] at hij
      exact Fin.ext (Nat.succ_injective hij)
    have hlen : epochs ≠ [] := by
      rintro rfl
      rw [List.map_nil, eq_comm, List.map_eq_nil_iff] at hkeys
      exact hnone hkeys
    have hbody : (serveCompliance store).body ≠ [] := by
      intro hbody
      rw [hbody] at hepochs
      cases hepochs
      exact hlen rfl
    obtain ⟨ring, hring, hperm⟩ := ringFrom_ok hlen hnodup
    rw [if_neg hbody, if_neg hnone]
    refine ⟨ring, ?_, hperm.trans (List.Perm.of_eq hkeys)⟩
    rw [hepochs]
    exact hring

/-- The first key has version 0, and every other one a later one. -/
theorem genesis_not_mem_tail (hhistory : KeyHistory genesis m.log pool) :
    (0, bigPoint genesis) ∉ (chainEpochs genesis m.log).tail := by
  intro hmem
  obtain ⟨r, hr, heq⟩ := List.mem_map.1 hmem
  obtain ⟨k, hk⟩ := List.mem_iff_getElem?.1 hr
  have hversion := (hhistory.versions k r hk).2
  have hzero : ((r.2.1 : ℕ) : ℤ) = 0 := congrArg Prod.fst heq
  omega

end Pool

/-- In every state after an `initialize`, with any number of rotations between other calls, and with
all events of the run ingested: the client gets a ring, and it has every key that was in force
under its version exactly if there was no rotation. -/
theorem complianceRing_complete_iff {env : Env} {call : Call} {m₀ m₁ m₂ m : Machine} {ls ks : List Label}
    {x y : Bytes 32} {verifiers : Fin 7 → Pubkey} {genesisLeaf : Bytes 32} (hfresh : Fresh env m₀)
    (hbefore : Run (Step env) m₀ ls m₁)
    (hinit : Step env m₁ (.success call (.initializePool x y verifiers genesisLeaf)) m₂)
    (hafter : Run (Step env) m₂ ks m) {txs : List PoolTx} (htxs : txs.flatMap PoolTx.events = m.log)
    {store : IndexerStore} (hstore : SameData store (mirrorStore txs)) {key : Pubkey}
    (hkey : env.IsPool key) :
    ∃ ring, fetchComplianceRing (serveCompliance store) (some (some (m.ledger key).data)) = .ok ring ∧
      ((∀ k ∈ chainEpochs (x, y) m.log, k ∈ ring.keys) ↔ rotationEvents m.log = []) := by
  obtain ⟨pool, hpool, hhistory⟩ := keyHistory_of_run hfresh hbefore hinit hafter
  obtain ⟨ring, hring, hkeys⟩ := fetchComplianceRing_keys htxs hstore hpool hkey hhistory
  refine ⟨ring, hring, ?_⟩
  constructor
  · intro hall
    by_contra hnone
    rw [if_neg hnone] at hkeys
    exact genesis_not_mem_tail hhistory (hkeys.mem_iff.1 (hall _ List.mem_cons_self))
  · intro hnone k hk
    rw [if_pos hnone] at hkeys
    exact hkeys.mem_iff.2 hk

/-- The sample deployment right after `initialize`: the key of the account is the one key. -/
theorem complianceRing_complete_sample : ∃ (m : Machine) (txs : List PoolTx) (key : Pubkey)
    (ring : ComplianceKeyRing),
    Run (Step Sample.env) Sample.machine ([Sample.initializePool (beBytes 32 9)].map
      fun c => .success c.1 c.2) m ∧ txs.flatMap PoolTx.events = m.log ∧
    fetchComplianceRing (serveCompliance (mirrorStore txs)) (some (some (m.ledger key).data)) = .ok ring ∧
    ∀ k ∈ chainEpochs (beBytes 32 1, beBytes 32 2) m.log, k ∈ ring.keys := by
  have hexec : (execAll Sample.env [Sample.initializePool (beBytes 32 9)]
      Sample.machine).map (fun m => (rotationEvents m.log).length) = some 0 := by decide +kernel
  obtain ⟨m, hm, hlen⟩ := Option.map_eq_some_iff.1 hexec
  have hrun := run_of_execAll (by simp [Sample.initializePool, Sample.admissible]) hm
  obtain ⟨m₁, hinit, hafter⟩ := hrun.exists_of_cons
  obtain ⟨-, ⟨key, hkey, -, -⟩, -⟩ := keyHistory_of_run Sample.fresh Run.start hinit hafter
  obtain ⟨ring, hring, hall⟩ := @complianceRing_complete_iff _ _ _ _ _ _ _ _ _ _ _ _ Sample.fresh
    Run.start hinit hafter [⟨"1", 1, false, [], .nil, m.log⟩] (List.flatMap_singleton _ _) _ (SameData.refl _) _ hkey
  exact ⟨m, _, key, ring, hrun, List.flatMap_singleton _ _, hring,
    hall.2 (List.length_eq_zero_iff.1 hlen)⟩

/-- The sample deployment after one rotation: the ring lacks the key `initialize` set up. -/
theorem genesis_key_missing : ∃ (m : Machine) (txs : List PoolTx) (key : Pubkey)
    (ring : ComplianceKeyRing),
    Run (Step Sample.env) Sample.machine ([Sample.initializePool (beBytes 32 9),
      (Sample.call [Sample.user, Sample.poolKey], .rotateComplianceKey (beBytes 32 3) (beBytes 32 4))].map
        fun c => .success c.1 c.2) m ∧ txs.flatMap PoolTx.events = m.log ∧
    fetchComplianceRing (serveCompliance (mirrorStore txs)) (some (some (m.ledger key).data)) = .ok ring ∧
    ¬ ∀ k ∈ chainEpochs (beBytes 32 1, beBytes 32 2) m.log, k ∈ ring.keys := by
  have hexec : (execAll Sample.env [Sample.initializePool (beBytes 32 9),
      (Sample.call [Sample.user, Sample.poolKey], .rotateComplianceKey (beBytes 32 3) (beBytes 32 4))]
      Sample.machine).map (fun m => (rotationEvents m.log).length) = some 1 := by decide +kernel
  obtain ⟨m, hm, hlen⟩ := Option.map_eq_some_iff.1 hexec
  have hrun := run_of_execAll (by simp [Sample.initializePool, Sample.admissible]) hm
  obtain ⟨m₁, hinit, hafter⟩ := hrun.exists_of_cons
  obtain ⟨pool, hpool, hhistory⟩ := keyHistory_of_run Sample.fresh Run.start hinit hafter
  obtain ⟨key, hkey, -⟩ := id hpool
  obtain ⟨ring, hring, hkeys⟩ := @fetchComplianceRing_keys _ _ [⟨"1", 1, false, [], .nil, m.log⟩] _ _ _ _
    (List.flatMap_singleton _ _) (SameData.refl _) hpool hkey hhistory
  have hsome : rotationEvents m.log ≠ [] := by
    rw [ne_eq, ← List.length_eq_zero_iff, hlen]
    exact one_ne_zero
  refine ⟨m, _, key, ring, hrun, List.flatMap_singleton _ _, hring, fun hall => ?_⟩
  rw [if_neg hsome] at hkeys
  exact genesis_not_mem_tail hhistory (hkeys.mem_iff.1 (hall _ List.mem_cons_self))

end Kakure.Web
