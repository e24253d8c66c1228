import Kakure.Pool.Reachable

/-!
# The compliance keys of a pool

Which keys were in force, and under which version, as the account and the log of the
program have it.

* `KeyHistory` — the log numbers the rotations from 0 on, and the account has the last key
  and the number of rotations;
* `keyHistory_of_run` — so it is in every state after `initialize`.
-/

namespace Kakure

open Slices Guarded Runs

variable {env : Env} {call : Call}

/-- What an instruction adds to the rotations of the log. -/
def PoolInstruction.rotations (pool : Pool) :
    PoolInstruction → List (ℕ × ℕ × Bytes 32 × Bytes 32)
  | .rotateComplianceKey x y => [(pool.complianceVersion, pool.complianceVersion + 1, x, y)]
  | _ => []

/-- The keys in force since a pool was set up with a key: the log numbers the rotations from 0 on, the
account has the last key and, as its version, the number of rotations. -/
structure KeyHistory (genesis : Bytes 32 × Bytes 32) (log : List Event) (pool : Pool) : Prop where
  versions : ∀ k r, (rotationEvents log)[k]? = some r → r.1 = k ∧ r.2.1 = k + 1
  version : pool.complianceVersion = (rotationEvents log).length
  key : (pool.compliancePkX, pool.compliancePkY) =
    ((rotationEvents log).getLast?.map fun r => r.2.2).getD genesis

/-- The rotations a successful instruction logs. -/
theorem Effect.rotations {ix : PoolInstruction} {pool : Pool} {m m' : Machine}
    (h : Effect env call ix m m') (hpool : PoolAt env m pool) :
    rotationEvents m'.log = rotationEvents m.log ++ ix.rotations pool := by
  obtain ⟨key, hkey, hown, hdata⟩ := hpool
  cases h with
  | initialized h => exact absurd hown (hkey.eq h.pda ▸ h.owner_before)
  | @administered ix _ pool₀ pool' _ _ _ h hchange hlog =>
    cases hkey.eq h.pda
    have heq : pool₀ = pool := by
      cases pool
      cases pool₀
      cases h.pool_before.trans hdata
      rfl
    subst heq
    rw [hlog, rotationEvents_append]
    congr 1
    cases ix with
    | rotateComplianceKey x y =>
      rw [hchange.2.2]
      rfl
    | setVerifier circuitId program =>
      rw [hchange.2]
      rfl
    | setPaused paused =>
      rw [hchange.2]
      rfl
    | _ => exact hchange.elim
  | deposited _ _ _ _ _ _ _ _ hexecuted hregistered _ hlog _ =>
    rw [hlog, hregistered.log, hexecuted.rotations]
    exact (List.append_nil _).symm
  | spent hs _ _ _ hexecuted _ hlog _ =>
    rw [hlog, hexecuted.rotations]
    cases ix with
    | rotateComplianceKey => cases hs
    | _ => exact (List.append_nil _).symm

/-- An instruction other than `rotate_compliance_key` leaves the key and its version. -/
theorem PoolInstruction.Frames.compliance {ix : PoolInstruction} {pool pool' : Pool}
    (h : ix.Frames call pool pool') (hix : ix.rotations pool = []) :
    pool'.complianceVersion = pool.complianceVersion ∧ pool'.compliancePkX = pool.compliancePkX ∧
      pool'.compliancePkY = pool.compliancePkY := by
  have hkeep : ∀ fields, OnlyChanged fields pool pool' → .complianceVersion ∉ fields →
      .compliancePkX ∉ fields → .compliancePkY ∉ fields →
      pool'.complianceVersion = pool.complianceVersion ∧ pool'.compliancePkX = pool.compliancePkX ∧
        pool'.compliancePkY = pool.compliancePkY := by
    intro fields hframe hversion hx hy
    exact ⟨congrArg (fun b : Bytes 4 => leNat b.val) (hframe _ hversion), hframe _ hx, hframe _ hy⟩
  cases ix with
  | initializePool => exact h.elim
  | setVerifier circuitId program =>
    obtain ⟨-, _, hframe, -⟩ := h
    exact hkeep _ hframe (by simp) (by simp) (by simp)
  | setPaused paused =>
    obtain ⟨-, hframe, -⟩ := h
    exact hkeep _ hframe (by simp) (by simp) (by simp)
  | rotateComplianceKey x y => cases hix
  | _ =>
    exact hkeep _ h (by simp [PoolField.isTree]) (by simp [PoolField.isTree])
      (by simp [PoolField.isTree])

/-- Every step keeps the history of the keys. -/
theorem KeyHistory.step {genesis : Bytes 32 × Bytes 32} {pool : Pool} {m m' : Machine} {l : Label}
    (h : KeyHistory genesis m.log pool) (hpool : PoolAt env m pool) (hstep : Step env m l m') :
    ∃ pool', PoolAt env m' pool' ∧ KeyHistory genesis m'.log pool' := by
  obtain ⟨pool', hpool', hframe⟩ := step_frames hstep hpool
  refine ⟨pool', hpool', ?_⟩
  cases hstep with
  | failure _ _ => rwa [show pool' = pool from hframe]
  | outside _ => rwa [show pool' = pool from hframe]
  | @success call ix _ _ _ hprocess =>
    have hlog := (effect_of_process hprocess).rotations hpool
    by_cases hix : ix.rotations pool = []
    · obtain ⟨hversion, hx, hy⟩ := PoolInstruction.Frames.compliance hframe hix
      rw [hix, List.append_nil] at hlog
      refine ⟨?_, ?_, ?_⟩
      · rw [hlog]
        exact h.versions
      · rw [hlog, hversion]
        exact h.version
      · rw [hlog, hx, hy]
        exact h.key
    · -- the one instruction that rotates
      cases ix with
      | rotateComplianceKey x y =>
        obtain ⟨-, -, hversion, hx, hy⟩ := hframe
        have hnew : PoolInstruction.rotations pool (.rotateComplianceKey x y) =
            [((rotationEvents m.log).length, (rotationEvents m.log).length + 1, x, y)] := by
          rw [← h.version]
          rfl
        rw [hnew] at hlog
        refine ⟨fun k r hk => ?_, ?_, ?_⟩
        · rw [hlog] at hk
          rcases Nat.lt_trichotomy k (rotationEvents m.log).length with hlt | rfl | hgt
          · rw [List.getElem?_append_left hlt] at hk
            exact h.versions k r hk
          · rw [List.getElem?_append_right le_rfl, Nat.sub_self, List.getElem?_cons_zero] at hk
            cases hk
            exact ⟨rfl, rfl⟩
          · rw [List.getElem?_eq_none (by simp; omega)] at hk
            cases hk
        · rw [hlog, hversion, h.version, List.length_append, List.length_singleton]
        · rw [hlog, List.getLast?_concat, hx, hy]
          rfl
      | _ => exact absurd rfl hix

/-- The account `initialize` writes has the fields it sets. -/
theorem get_genesisPool (authority : Pubkey) (x y : Bytes 32) (verifiers : Fin 7 → Pubkey) {f : PoolField}
    (hnext : f ≠ .nextLeafIndex) (hverifier : ∀ i, f ≠ .verifier i) :
    (genesisPool authority x y verifiers).get f =
      ((((Pool.empty.setAuthority authority).setPaused false).setComplianceVersion 0).setCompliancePk
        x y).get f := by
  have hall : ∀ (ids : List (Fin 7)) (p : Pool),
      (ids.foldl (fun p i => p.set (.verifier i) (verifiers i)) p).get f = p.get f := by
    intro ids
    induction ids with
    | nil => simp
    | cons i ids ih =>
      intro p
      rw [List.foldl_cons, ih, Pool.get_set_of_ne _ _ (hverifier i)]
  unfold genesisPool Pool.setNextLeafIndex Pool.setAllVerifiers
  rw [Pool.get_set_of_ne _ _ hnext, hall]

/-- `initialize` sets the key up as version 0. -/
theorem Initialized.keyHistory {x y : Bytes 32} {verifiers : Fin 7 → Pubkey} {genesisLeaf : Bytes 32}
    {authority poolKey : Pubkey} {pool : Pool} {m m' : Machine}
    (h : Initialized env call x y verifiers genesisLeaf authority poolKey pool m m')
    (hnone : rotationEvents m.log = []) : KeyHistory (x, y) m'.log pool := by
  obtain ⟨index, root, hinsert, hlog⟩ := h.inserted
  have hrotations : rotationEvents m'.log = [] := by
    rw [hlog, rotationEvents_append, hnone]
    rfl
  have hget : ∀ f, f.isTree = false → f ≠ .nextLeafIndex → (∀ i, f ≠ .verifier i) → pool.get f =
      ((((Pool.empty.setAuthority authority).setPaused false).setComplianceVersion 0).setCompliancePk
        x y).get f := by
    intro f htree hnext hverifier
    rw [get_insert_of_not_tree env.poseidon hinsert htree]
    exact get_genesisPool authority x y verifiers hnext hverifier
  refine ⟨?_, ?_, ?_⟩
  · rw [hrotations]
    simp
  · rw [hrotations]
    unfold Pool.complianceVersion
    rw [hget _ rfl (by simp) (by simp)]
    unfold Pool.setCompliancePk Pool.setComplianceVersion
    rw [Pool.get_set_of_ne _ _ (by simp), Pool.get_set_of_ne _ _ (by simp), Pool.get_set_same]
    rfl
  · rw [hrotations]
    unfold Pool.compliancePkX Pool.compliancePkY
    rw [hget _ rfl (by simp) (by simp), hget _ rfl (by simp) (by simp)]
    unfold Pool.setCompliancePk
    rw [Pool.get_set_of_ne _ _ (by simp), Pool.get_set_same, Pool.get_set_same]
    rfl

/-- Without a pool account no key was rotated. -/
theorem run_no_rotation {m₀ m : Machine} {ls : List Label} (hfresh : Fresh env m₀)
    (hrun : Run (Step env) m₀ ls m) : (∃ pool, PoolAt env m pool) ∨ rotationEvents m.log = [] := by
  refine hrun.invariant (P := fun _ m => (∃ pool, PoolAt env m pool) ∨ rotationEvents m.log = []) ?_ ?_
  · right
    rw [hfresh.log]
    rfl
  · rintro ls m l m' - (⟨pool, hpool⟩ | hnone) hstep
    · obtain ⟨pool', hpool', -⟩ := step_frames hstep hpool
      exact Or.inl ⟨pool', hpool'⟩
    · cases hstep with
      | failure _ _ => exact Or.inr hnone
      | outside _ => exact Or.inr hnone
      | success _ hprocess =>
        cases effect_of_process hprocess with
        | initialized h => exact Or.inl ⟨_, h.poolAt.1⟩
        | administered h _ _ => exact Or.inl ⟨_, _, h.pda, h.owner_after, h.pool_after⟩
        | deposited _ _ _ _ _ _ _ _ hexecuted hregistered _ hlog _ =>
          right
          rw [hlog, hregistered.log, hexecuted.rotations, hnone]
        | spent _ _ _ _ hexecuted _ hlog _ =>
          right
          rw [hlog, hexecuted.rotations, hnone]

/-- The keys in force in every state after an `initialize`. -/
theorem keyHistory_of_run {m₀ m₁ m₂ m : Machine} {ls ks : List Label} {x y : Bytes 32}
    {verifiers : Fin 7 → Pubkey} {genesisLeaf : Bytes 32} (hfresh : Fresh env m₀)
    (hbefore : Run (Step env) m₀ ls m₁)
    (hinit : Step env m₁ (.success call (.initializePool x y verifiers genesisLeaf)) m₂)
    (hafter : Run (Step env) m₂ ks m) : ∃ pool, PoolAt env m pool ∧ KeyHistory (x, y) m.log pool := by
  refine hafter.invariant (P := fun _ m => ∃ pool, PoolAt env m pool ∧ KeyHistory (x, y) m.log pool) ?_ ?_
  · cases hinit with
    | success hcall hprocess =>
      cases effect_of_process hprocess with
      | administered _ hchange _ => exact hchange.elim
      | spent hs => cases hs
      | initialized h =>
        have hnone : rotationEvents m₁.log = [] := by
          rcases run_no_rotation hfresh hbefore with ⟨pool, key, hkey, hown, -⟩ | hnone
          · exact absurd hown (hkey.eq h.pda ▸ h.owner_before)
          · exact hnone
        exact ⟨_, h.poolAt.1, h.keyHistory hnone⟩
  · rintro ks m l m' - ⟨pool, hpool, hhistory⟩ hstep
    exact hhistory.step hpool hstep

end Kakure
