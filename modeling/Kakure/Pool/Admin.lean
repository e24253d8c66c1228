import Kakure.Pool.Run
import Kakure.Sdk.PoolAccounts

/-!
# Administration over whole runs

Who may change which field of the pool account, from its creation on.

* `PoolInstruction.Frames` — the fields each instruction may change, and whose signature
  it takes;
* `step_frames` — every step stays within its frame;
* `admin_frame` — one `initialize` at most, by the upgrade authority, and the frames of
  everything that follows it.
-/

namespace Kakure

open Slices Guarded Runs

variable {env : Env} {call : Call}

/-! ## Frames -/

/-- The pool account of a state. -/
def PoolAt (env : Env) (m : Machine) (pool : Pool) : Prop :=
  ∃ key, env.IsPool key ∧ (m.ledger key).owner = env.programId ∧ (m.ledger key).data = pool.data

/-- Every other field is the same. -/
def OnlyChanged (fields : Set PoolField) (pool pool' : Pool) : Prop :=
  ∀ f, f ∉ fields → pool'.get f = pool.get f

/-- The pool's authority is the first account of the call and has signed it. -/
def SignedByAuthority (call : Call) (pool : Pool) : Prop :=
  call.accounts[0]? = some pool.authority ∧ call.isSigner pool.authority

/-- What an instruction may do to an existing pool account. -/
def PoolInstruction.Frames (call : Call) : PoolInstruction → Pool → Pool → Prop
  | .initializePool _ _ _ _, _, _ => False
  | .setVerifier circuitId program, pool, pool' => SignedByAuthority call pool ∧
    ∃ h : circuitId.toNat < 7, OnlyChanged {.verifier ⟨circuitId.toNat, h⟩} pool pool' ∧
      pool'.verifier circuitId = .ok program
  | .rotateComplianceKey x y, pool, pool' => SignedByAuthority call pool ∧
    OnlyChanged {.complianceVersion, .compliancePkX, .compliancePkY} pool pool' ∧
    pool'.complianceVersion = pool.complianceVersion + 1 ∧ pool'.compliancePkX = x ∧
    pool'.compliancePkY = y
  | .setPaused paused, pool, pool' => SignedByAuthority call pool ∧
    OnlyChanged {.paused} pool pool' ∧ pool'.paused = paused
  | _, pool, pool' => OnlyChanged {f | f.isTree} pool pool'

/-- What a step may do to an existing pool account. -/
def Label.Frames : Label → Pool → Pool → Prop
  | .success call ix, pool, pool' => ix.Frames call pool pool'
  | _, pool, pool' => pool' = pool

def Label.isInitialize : Label → Bool
  | .success _ (.initializePool _ _ _ _) => true
  | _ => false

theorem OnlyChanged.refl (fields : Set PoolField) (pool : Pool) : OnlyChanged fields pool pool :=
  fun _ _ => rfl

theorem onlyChanged_set (pool : Pool) (f : PoolField) (v : Bytes f.width) :
    OnlyChanged {f} pool (pool.set f v) := fun _ hg => Pool.get_set_of_ne pool v hg

theorem OnlyChanged.trans {fields fields' : Set PoolField} {p q r : Pool}
    (h : OnlyChanged fields p q) (h' : OnlyChanged fields' q r) :
    OnlyChanged (fields ∪ fields') p r := by
  intro f hf
  rw [Set.mem_union, not_or] at hf
  exact (h' f hf.2).trans (h f hf.1)

theorem OnlyChanged.mono {fields fields' : Set PoolField} {p q : Pool} (h : OnlyChanged fields p q)
    (hsub : fields ⊆ fields') : OnlyChanged fields' p q := fun f hf => h f fun hf' => hf (hsub hf')

/-- Inserts change the tree fields only. -/
theorem Grows.onlyChanged {p q : Pool} {evs : List NoteInserted} (h : Grows env.poseidon p evs q) :
    OnlyChanged {f | f.isTree} p q := by
  intro f hf
  simp only [Set.mem_ofPred_eq, Bool.not_eq_true] at hf
  exact h.get_of_not_tree hf

/-! ## The administration instructions -/

theorem frames_setVerifier {pool pool' : Pool} {circuitId : UInt8} {program : Pubkey}
    (h : pool.setVerifier circuitId program = .ok pool') :
    ∃ h : circuitId.toNat < 7, OnlyChanged {.verifier ⟨circuitId.toNat, h⟩} pool pool' ∧
      pool'.verifier circuitId = .ok program := by
  unfold Pool.setVerifier at h
  split at h
  · cases h
  · rename_i hlt
    cases h
    refine ⟨not_le.1 hlt, onlyChanged_set _ _ _, ?_⟩
    unfold Pool.verifier
    rw [dif_neg hlt, Pool.get_set_same]

theorem frames_rotateComplianceKey (pool : Pool) (x y : Bytes 32)
    (hroom : pool.complianceVersion + 1 < 2 ^ 32) :
    let pool' := (pool.setCompliancePk x y).setComplianceVersion (pool.complianceVersion + 1)
    OnlyChanged {.complianceVersion, .compliancePkX, .compliancePkY} pool pool' ∧
      pool'.complianceVersion = pool.complianceVersion + 1 ∧ pool'.compliancePkX = x ∧
      pool'.compliancePkY = y := by
  intro pool'
  refine ⟨?_, ?_, ?_, ?_⟩
  · refine (((onlyChanged_set _ _ _).trans (onlyChanged_set _ _ _)).trans
      (onlyChanged_set _ _ _)).mono ?_
    rintro f ((hf | hf) | hf) <;> simp only [Set.mem_singleton_iff] at hf <;> simp [hf]
  · simp only [pool', Pool.setComplianceVersion, Pool.complianceVersion, Pool.get_set_same]
    refine leNat_leBytes 4 _ ?_
    norm_num [Pool.complianceVersion] at hroom ⊢
    exact hroom
  · simp only [pool', Pool.setComplianceVersion, Pool.compliancePkX, Pool.setCompliancePk]
    rw [Pool.get_set_of_ne _ _ (by simp), Pool.get_set_of_ne _ _ (by simp), Pool.get_set_same]
  · simp only [pool', Pool.setComplianceVersion, Pool.compliancePkY, Pool.setCompliancePk]
    rw [Pool.get_set_of_ne _ _ (by simp), Pool.get_set_same]

theorem frames_setPaused (pool : Pool) (paused : Bool) :
    OnlyChanged {.paused} pool (pool.setPaused paused) ∧ (pool.setPaused paused).paused = paused := by
  refine ⟨onlyChanged_set _ _ _, ?_⟩
  unfold Pool.setPaused Pool.paused
  rw [Pool.get_set_same]
  cases paused <;> rfl

/-- An administration instruction stays within its frame. -/
theorem AdminChange.frames {ix : PoolInstruction} {pool pool' : Pool} {evs : List Event}
    (h : AdminChange ix pool pool' evs) (hsigned : SignedByAuthority call pool) :
    ix.Frames call pool pool' := by
  cases ix with
  | setVerifier circuitId program => exact ⟨hsigned, frames_setVerifier h.1⟩
  | rotateComplianceKey x y =>
    obtain ⟨hroom, rfl, -⟩ := h
    exact ⟨hsigned, frames_rotateComplianceKey pool x y hroom⟩
  | setPaused paused =>
    obtain ⟨rfl, -⟩ := h
    exact ⟨hsigned, frames_setPaused pool paused⟩
  | _ => exact h.elim

/-! ## Steps and runs -/

/-- After the execution of a statement on any pool account the real one differs in its tree fields
only. -/
theorem Executed.onlyChanged {poolKey key : Pubkey} {s : Statement} {p pool pool' : Pool}
    {m m' : Machine} (h : Executed env poolKey s pool pool' m m')
    (hown : (m.ledger key).owner = env.programId) (hdata : (m.ledger key).data = p.data) :
    ∃ p' : Pool, (m'.ledger key).data = p'.data ∧ OnlyChanged {f | f.isTree} p p' := by
  by_cases hkey : key = poolKey
  · subst hkey
    obtain ⟨evs, hgrows, -⟩ := h.inserted
    have heq : pool = p := by
      cases pool
      cases p
      cases h.pool_before.trans hdata
      rfl
    exact ⟨pool', h.pool_after, heq ▸ hgrows.onlyChanged⟩
  · exact ⟨p, ((h.keeps hown).2 hkey).trans hdata, OnlyChanged.refl _ p⟩

/-- A successful instruction stays within its frame. -/
theorem Effect.frames {ix : PoolInstruction} {pool : Pool} {m m' : Machine}
    (h : Effect env call ix m m') (hpool : PoolAt env m pool) :
    ∃ pool', PoolAt env m' pool' ∧ ix.Frames call pool pool' := by
  obtain ⟨key, hkey, hown, hdata⟩ := hpool
  cases h with
  | initialized h => exact absurd hown (hkey.eq h.pda ▸ h.owner_before)
  | @administered _ _ pool₀ pool' _ _ _ h hchange _ =>
    cases hkey.eq h.pda
    have heq : pool₀ = pool := by
      cases pool
      cases pool₀
      cases h.pool_before.trans hdata
      rfl
    subst heq
    exact ⟨pool', ⟨_, hkey, h.owner_after, h.pool_after⟩, hchange.frames ⟨h.account, h.signer⟩⟩
  | @deposited _ _ _ poolKey _ _ _ _ _ _ _ _ _ _ _ _ _ _ _ _ _ _ _ _ hexecuted hregistered htail
      _ _ =>
    obtain ⟨pool', hdata₁, hframe⟩ := hexecuted.onlyChanged hown hdata
    obtain ⟨howner₁, -⟩ := hexecuted.keeps hown
    obtain ⟨howner₂, hdata₂⟩ := hregistered.keeps howner₁
    obtain ⟨howner₃, hdata₃⟩ := htail.keeps howner₂
    exact ⟨pool', ⟨key, hkey, howner₃, hdata₃.trans (hdata₂.trans hdata₁)⟩, hframe⟩
  | @spent _ _ poolKey _ _ _ _ _ hs _ _ _ hexecuted htail _ _ =>
    obtain ⟨pool', hdata₁, hframe⟩ := hexecuted.onlyChanged hown hdata
    obtain ⟨howner₁, -⟩ := hexecuted.keeps hown
    obtain ⟨howner₂, hdata₂⟩ := htail.keeps howner₁
    refine ⟨pool', ⟨key, hkey, howner₂, hdata₂.trans hdata₁⟩, ?_⟩
    -- the instructions without a statement are not spends
    cases ix with
    | initializePool => cases hs
    | setVerifier => cases hs
    | rotateComplianceKey => cases hs
    | setPaused => cases hs
    | _ => exact hframe

/-- Every step stays within its frame. -/
theorem step_frames {l : Label} {pool : Pool} {m m' : Machine} (hstep : Step env m l m')
    (hpool : PoolAt env m pool) : ∃ pool', PoolAt env m' pool' ∧ l.Frames pool pool' := by
  cases hstep with
  | success _ h => exact (effect_of_process h).frames hpool
  | failure _ _ => exact ⟨pool, hpool, rfl⟩
  | outside hout =>
    obtain ⟨key, hkey, hown, hdata⟩ := hpool
    obtain ⟨howner', hdata'⟩ := hout.owned key hown
    exact ⟨pool, ⟨key, hkey, howner', hdata'.trans hdata⟩, rfl⟩

/-- No frame touches the authority. -/
theorem Label.Frames.authority {l : Label} {pool pool' : Pool} (h : l.Frames pool pool') :
    pool'.authority = pool.authority := by
  cases l with
  | success call ix =>
    cases ix with
    | initializePool => exact h.elim
    | setVerifier circuitId program =>
      obtain ⟨-, _, hframe, -⟩ := h
      exact hframe .authority (by simp)
    | rotateComplianceKey x y =>
      obtain ⟨-, hframe, -⟩ := h
      exact hframe .authority (by simp)
    | setPaused paused =>
      obtain ⟨-, hframe, -⟩ := h
      exact hframe .authority (by simp)
    | _ => exact h .authority (by simp [PoolField.isTree])
  | _ => rw [show pool' = pool from h]

/-- Once there is a pool no `initialize` succeeds. -/
theorem not_initialize_of_poolAt {l : Label} {pool : Pool} {m m' : Machine}
    (hstep : Step env m l m') (hpool : PoolAt env m pool) : l.isInitialize = false := by
  obtain ⟨pool', -, hframe⟩ := step_frames hstep hpool
  cases l with
  | success call ix =>
    cases ix with
    | initializePool => exact hframe.elim
    | _ => rfl
  | _ => rfl

/-- Along a run from a state with a pool account there is one, with the same authority. -/
theorem run_poolAt {ks : List Label} {pool : Pool} {m m' : Machine} (hpool : PoolAt env m pool)
    (hrun : Run (Step env) m ks m') :
    (∃ pool', PoolAt env m' pool' ∧ pool'.authority = pool.authority) ∧
      ∀ l ∈ ks, l.isInitialize = false := by
  refine hrun.invariant (P := fun ks m' => (∃ pool', PoolAt env m' pool' ∧
    pool'.authority = pool.authority) ∧ ∀ l ∈ ks, l.isInitialize = false)
    ⟨⟨pool, hpool, rfl⟩, by simp⟩ ?_
  rintro ks m l m' - ⟨⟨pool₁, hpool₁, hauthority⟩, hnone⟩ hstep
  obtain ⟨pool₂, hpool₂, hframe⟩ := step_frames hstep hpool₁
  refine ⟨⟨pool₂, hpool₂, hframe.authority.trans hauthority⟩, fun l' hl' => ?_⟩
  rcases List.mem_append.1 hl' with hold | hnew
  · exact hnone l' hold
  · rw [List.mem_singleton.1 hnew]
    exact not_initialize_of_poolAt hstep hpool₁

/-- The writes of `initialize` leave the authority in its field. -/
theorem authority_genesisPool (authority : Pubkey) (x y : Bytes 32) (verifiers : Fin 7 → Pubkey) :
    (genesisPool authority x y verifiers).authority = authority := by
  have hverifiers : ∀ (ids : List (Fin 7)) (p : Pool),
      (ids.foldl (fun p i => p.set (.verifier i) (verifiers i)) p).get .authority =
        p.get .authority := by
    intro ids
    induction ids with
    | nil => simp
    | cons i ids ih =>
      intro p
      rw [List.foldl_cons, ih, Pool.get_set_of_ne _ _ (by simp)]
  unfold genesisPool Pool.setNextLeafIndex Pool.setAllVerifiers Pool.authority
  rw [Pool.get_set_of_ne _ _ (by simp), hverifiers]
  unfold Pool.setCompliancePk Pool.setComplianceVersion Pool.setPaused Pool.setAuthority
  rw [Pool.get_set_of_ne _ _ (by simp), Pool.get_set_of_ne _ _ (by simp),
    Pool.get_set_of_ne _ _ (by simp), Pool.get_set_of_ne _ _ (by simp), Pool.get_set_same]

theorem Initialized.poolAt {x y : Bytes 32} {verifiers : Fin 7 → Pubkey} {genesisLeaf : Bytes 32}
    {authority poolKey : Pubkey} {pool : Pool} {m m' : Machine}
    (h : Initialized env call x y verifiers genesisLeaf authority poolKey pool m m') :
    PoolAt env m' pool ∧ pool.authority = authority := by
  refine ⟨⟨poolKey, h.pda, h.owner_after, h.pool_after⟩, ?_⟩
  obtain ⟨index, root, hinsert, -⟩ := h.inserted
  unfold Pool.authority
  rw [get_insert_of_not_tree env.poseidon hinsert rfl]
  exact authority_genesisPool authority x y verifiers

/-- After a run there is a pool account, or no `initialize` has succeeded. -/
theorem run_initialize {ls : List Label} {m₀ m : Machine} (hrun : Run (Step env) m₀ ls m) :
    (∃ pool, PoolAt env m pool) ∨ ∀ l ∈ ls, l.isInitialize = false := by
  refine hrun.invariant (P := fun ls m => (∃ pool, PoolAt env m pool) ∨
    ∀ l ∈ ls, l.isInitialize = false) (Or.inr (by simp)) ?_
  rintro ls m l m' - (⟨pool, hpool⟩ | hnone) hstep
  · obtain ⟨pool', hpool', -⟩ := step_frames hstep hpool
    exact Or.inl ⟨pool', hpool'⟩
  · by_cases hl : l.isInitialize = true
    · left
      cases hstep with
      | @success _ ix _ _ _ hprocess =>
        cases effect_of_process hprocess with
        | initialized h => exact ⟨_, h.poolAt.1⟩
        | @administered ix _ _ _ _ _ _ _ hchange _ =>
          cases ix with
          | initializePool => exact hchange.elim
          | _ => cases hl
        | deposited => cases hl
        | @spent ix _ _ _ _ _ _ _ hs =>
          cases ix with
          | initializePool => cases hs
          | _ => cases hl
      | failure => cases hl
      | outside => cases hl
    · right
      intro l' hl'
      rcases List.mem_append.1 hl' with hold | hnew
      · exact hnone l' hold
      · rw [List.mem_singleton.1 hnew]
        simpa using hl

/-- In every run: an `initialize` that succeeds was signed by the program's upgrade authority and is
the only one that does; in every state after it there is a pool account with this authority, which
the client decodes to what the program's getters return, and every step from there stays within
its frame. -/
theorem admin_frame {m₀ m₁ m₂ m : Machine} {ls ks : List Label} {x y : Bytes 32}
    {verifiers : Fin 7 → Pubkey} {genesisLeaf : Bytes 32} (hbefore : Run (Step env) m₀ ls m₁)
    (hinit : Step env m₁ (.success call (.initializePool x y verifiers genesisLeaf)) m₂)
    (hafter : Run (Step env) m₂ ks m) :
    ∃ authority, call.accounts[0]? = some authority ∧ call.isSigner authority ∧
      IsUpgradeAuthority env m₁.ledger authority ∧
      (∀ l ∈ ls ++ ks, l.isInitialize = false) ∧
      ∃ pool, PoolAt env m pool ∧ pool.authority = authority ∧
        (∃ a, Sdk.decodePool pool.data = .ok a ∧ a.authority = pool.authority ∧
          a.paused = pool.paused ∧ a.complianceVersion = pool.complianceVersion ∧
          a.compliancePkX = pool.compliancePkX ∧ a.compliancePkY = pool.compliancePkY ∧
          a.verifiers.length = 7 ∧
          (∀ i : Fin 7, pool.verifier (UInt8.ofNat i) = .ok (a.verifiers.getD i Pubkey.default)) ∧
          a.nextLeafIndex = pool.nextLeafIndex ∧ a.sideNodes.length = 32 ∧
          (∀ level : Fin 32, a.sideNodes[(level : ℕ)]? = some (pool.sideNode level)) ∧
          a.rootCursor = pool.rootCursor.toNat ∧ a.roots.length = 256 ∧
          ∀ idx : UInt8, a.roots[idx.toNat]? = some (pool.rootAt idx)) ∧
        ∀ l m', Step env m l m' → ∃ pool', PoolAt env m' pool' ∧ l.Frames pool pool' := by
  cases hinit with
  | success hcall hprocess =>
    cases effect_of_process hprocess with
    | administered _ hchange _ => exact hchange.elim
    | spent hs => cases hs
    | @initialized _ _ _ _ authority poolKey pool₀ _ _ h =>
      obtain ⟨hpool₀, hauthority⟩ := h.poolAt
      obtain ⟨⟨pool, hpool, hsame⟩, hlater⟩ := run_poolAt hpool₀ hafter
      refine ⟨authority, h.account, h.signer, h.upgrade, fun l hl => ?_, pool, hpool,
        hsame.trans hauthority, Sdk.decodePool_data pool, fun l m' hstep => step_frames hstep hpool⟩
      rcases List.mem_append.1 hl with hl | hl
      · rcases run_initialize hbefore with ⟨pool₁, key, hkey, hown, -⟩ | hnone
        · exact absurd hown (hkey.eq h.pda ▸ h.owner_before)
        · exact hnone l hl
      · exact hlater l hl

/-- The sample deployment: its authority sets up the pool and then pauses it. -/
theorem admin_frame_sample : ∃ m pool, Run (Step Sample.env) Sample.machine
      ([Sample.initializePool (beBytes 32 9), Sample.setPaused true].map
        fun c => .success c.1 c.2) m ∧
    PoolAt Sample.env m pool ∧ pool.authority = Sample.user := by
  have hexec : (execAll Sample.env [Sample.initializePool (beBytes 32 9), Sample.setPaused true]
      Sample.machine).isSome := by decide +kernel
  obtain ⟨m, hm⟩ := Option.isSome_iff_exists.1 hexec
  have hrun := run_of_execAll (by simp [Sample.initializePool, Sample.setPaused, Sample.admissible]) hm
  obtain ⟨m₂, hinit, hsecond⟩ := hrun.exists_of_cons
  obtain ⟨authority, haccount, -, -, -, pool, hpool, hauthority, -⟩ :=
    admin_frame Run.start hinit hsecond
  cases haccount
  exact ⟨m, pool, hrun, hpool, hauthority⟩

end Kakure
