import Kakure.Pool.Run

/-!
# The asset registry over whole runs

`deposit` never checks the address of the pool account it is given.  That is still safe:
the only accounts of the program a caller can bring along beside the real ones are
zero-filled, and a zero-filled pool names no verifier.

* `Kept.entry` — every account at an asset's address is a registry entry in good order;
* `asset_registry` — the entries of every reachable state, and that they never change.
-/

namespace Kakure

open Slices Runs

/-- No two of these seeds lead to one address. -/
def CollisionFree (env : Env) (S : Set Seeds) : Prop :=
  ∀ s ∈ S, ∀ s' ∈ S, ∀ key bump bump', env.pda s = some (key, bump) →
    env.pda s' = some (key, bump') → s = s'

variable {env : Env} {S : Set Seeds} {seen : Pubkey → Pubkey → Prop}

/-- For a list of seeds it is a computation. -/
theorem collisionFree_of_list {l : List Seeds} (h : ∀ s ∈ l, ∀ s' ∈ l,
    (env.pda s).map Prod.fst = (env.pda s').map Prod.fst → s = s') :
    CollisionFree env {s | s ∈ l} := by
  intro s hs s' hs' key bump bump' hkey hkey'
  apply h s hs s' hs'
  rw [hkey, hkey']
  rfl

/-- An account of the program at an asset's address is the entry of that asset. -/
theorem Kept.entry {m : Machine} (h : Kept env S seen m) (hpool : .pool ∈ S)
    (hfree : CollisionFree env S) {id : Bytes 20} {key : Pubkey} {bump : UInt8} (hid : .asset id ∈ S)
    (hpda : env.pda (.asset id) = some (key, bump)) (hown : (m.ledger key).owner = env.programId) :
    ∃ asset : Asset, asset.data = (m.ledger key).data ∧ GoodEntry env seen id asset := by
  cases h.role key hown with
  | pool _ hpda' _ _ =>
    obtain ⟨bump', hpda'⟩ := hpda'
    cases hfree _ hid _ hpool _ _ _ hpda hpda'
  | asset id' bump' asset hmem hpda' hdata hentry =>
    cases hfree _ hid _ hmem _ _ _ hpda hpda'
    exact ⟨asset, hdata.symm, hentry⟩
  | nullifier n bump' hmem hpda' _ _ => cases hfree _ hid _ hmem _ _ _ hpda hpda'
  | foreign _ hnot _ => exact absurd (isPda_of_pda env hpda) hnot

/-- An address of an asset is not the pool's. -/
theorem CollisionFree.not_isPool (hfree : CollisionFree env S) (hpool : .pool ∈ S) {id : Bytes 20}
    {key : Pubkey} {bump : UInt8} (hid : .asset id ∈ S)
    (hpda : env.pda (.asset id) = some (key, bump)) : ¬ env.IsPool key := by
  rintro ⟨bump', hpda'⟩
  cases hfree _ hid _ hpool _ _ _ hpda hpda'

/-- In every reachable state, whatever accounts were passed to the program: every asset account it
owns names a mint that hashes to the asset id of its address and the real pool's associated token
account for this mint, under a token program that owned the mint; no later step changes it; and
no `deposit` succeeds on anything but the real pool account. -/
theorem asset_registry {m₀ m : Machine} {ls : List Label} (hpool : .pool ∈ S)
    (hfree : CollisionFree env S) (hfresh : Fresh env m₀) (hrun : Run (Step env) m₀ ls m)
    (hS : ∀ l ∈ ls, l.seeds env ⊆ S) :
    (∀ id key bump, .asset id ∈ S → env.pda (.asset id) = some (key, bump) →
      (m.ledger key).owner = env.programId →
      ∃ asset : Asset, asset.data = (m.ledger key).data ∧
        GoodEntry env (SeenOwner env m₀ ls) id asset ∧
        ∀ ks m', Run (Step env) m ks m' →
          (m'.ledger key).owner = env.programId ∧ (m'.ledger key).data = asset.data) ∧
    ∀ call proof publicInputs amount m',
      process env call (.deposit proof publicInputs amount) m = .ok ((), m') →
      ∃ key, call.accounts[1]? = some key ∧ env.IsPool key := by
  have hkept := run_kept hfresh hrun hS
  constructor
  · intro id key bump hid hpda hown
    obtain ⟨asset, hdata, hentry⟩ := hkept.entry hpool hfree hid hpda hown
    refine ⟨asset, hdata, hentry, fun ks m' hrun' => ⟨run_keeps_owner hrun' hown, ?_⟩⟩
    rw [hdata]
    exact run_keeps_data hfresh hrun hrun' hown (hfree.not_isPool hpool hid hpda)
  · intro call proof publicInputs amount m' hprocess
    cases effect_of_process hprocess with
    | @deposited _ _ _ poolKey _ _ _ _ _ _ _ _ _ _ _ _ hpoolKey _ _ _ _ _ _ hverified hexecuted _
        _ _ _ => exact ⟨poolKey, hpoolKey, (hkept.isPool hverified hexecuted).1⟩
    | administered _ hchange _ => exact hchange.elim
    | spent hs hspend =>
      cases hs
      cases hspend

/-- After `initialize` and a first deposit the registry has the entry of the deposited mint. -/
theorem asset_registry_sample : ∃ m asset, Run (Step Sample.env) Sample.machine
      ([Sample.initializePool (beBytes 32 9), Sample.deposit].map fun c => .success c.1 c.2) m ∧
    asset.data = (m.ledger Sample.assetKey).data ∧
    assetIdBytes Sample.env (Asset.mint asset) = assetIdBytes Sample.env Sample.mint ∧
    ∃ poolKey tokenProgram, Sample.env.IsPool poolKey ∧
      Sample.env.getAssociatedTokenAddress poolKey asset.mint tokenProgram = some asset.vault := by
  have hexec : (execAll Sample.env [Sample.initializePool (beBytes 32 9), Sample.deposit]
      Sample.machine).map (fun m => (m.ledger Sample.assetKey).owner) = some Sample.programId := by
    decide +kernel
  obtain ⟨m, hm, hown⟩ := Option.map_eq_some_iff.1 hexec
  have hrun := run_of_execAll (by simp [Sample.initializePool, Sample.deposit, Sample.admissible]) hm
  have hpda : Sample.env.pda (.asset (assetIdBytes Sample.env Sample.mint)) =
      some (Sample.assetKey, 255) := by decide +kernel
  let seeds := [Seeds.pool, .asset (assetIdBytes Sample.env Sample.mint)]
  have hfree : CollisionFree Sample.env {s | s ∈ seeds} := collisionFree_of_list (by decide +kernel)
  have hS : ∀ l ∈ [Sample.initializePool (beBytes 32 9), Sample.deposit].map
      (fun c => Label.success c.1 c.2), l.seeds Sample.env ⊆ {s | s ∈ seeds} := by
    intro l hl s hs
    simp only [List.map_cons, List.map_nil, List.mem_cons, List.not_mem_nil, or_false] at hl
    rcases hl with rfl | rfl
    · obtain ⟨st, hst, -⟩ := hs
      cases hst
    · obtain ⟨mint, hmint, rfl⟩ := hs
      cases hmint
      exact List.mem_cons_of_mem _ List.mem_cons_self
  obtain ⟨asset, hdata, hentry, -⟩ := (asset_registry List.mem_cons_self hfree Sample.fresh
    hrun hS).1 _ _ _ (List.mem_cons_of_mem _ List.mem_cons_self) hpda hown
  obtain ⟨poolKey, tokenProgram, hpool, -, -, hata⟩ := hentry.vault
  exact ⟨m, asset, hrun, hdata, hentry.mint, poolKey, tokenProgram, hpool, hata⟩

end Kakure
