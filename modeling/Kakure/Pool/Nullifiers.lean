import Kakure.Pool.Registry

/-!
# Spent nullifiers over whole runs

A nullifier is spent when the program owns the account at its address.  Anyone can send
lamports to that address beforehand, and no more.

* `run_consumed` — the nullifiers of the successful spends, each once, are the ones whose
  accounts the program owns;
* `createNullifier_ne_error`, `createNullifier_live` — an address no one has taken is never
  refused as spent, and is taken if the payer can pay;
* `spent_set_exact` — both, in every reachable state.
-/

namespace Kakure

open Slices Guarded Runs

variable {env : Env} {call : Call} {S : Set Seeds} {seen : Pubkey → Pubkey → Prop}

/-! ## The consumed nullifiers of a run -/

/-- The nullifiers a step consumes. -/
def Label.consumed : Label → List (Bytes 32)
  | .success _ ix => ix.statement.elim [] Statement.nullifiers
  | _ => []

def consumed (ls : List Label) : List (Bytes 32) := ls.flatMap Label.consumed

/-- The account of a nullifier is the program's. -/
def IsSpent (env : Env) (m : Machine) (n : Bytes 32) : Prop :=
  ∃ key bump, env.pda (.nullifier n) = some (key, bump) ∧ (m.ledger key).owner = env.programId

/-- A successful instruction logs the nullifiers of its statement; their accounts were not the
program's and now are. -/
theorem Effect.consumes {ix : PoolInstruction} {m m' : Machine} (h : Effect env call ix m m') :
    let ns := (Label.success call ix).consumed
    spentEvents m'.log = spentEvents m.log ++ ns ∧ ns.Nodup ∧
      ∀ n ∈ ns, IsSpent env m' n ∧ ¬ IsSpent env m n := by
  intro ns
  cases h with
  | initialized h =>
    obtain ⟨root, hlog, -⟩ := h.history
    refine ⟨?_, List.nodup_nil, fun n hn => absurd hn List.not_mem_nil⟩
    rw [hlog, spentEvents_append]
    rfl
  | @administered ix _ _ _ _ _ _ _ hchange hlog =>
    have hns : ns = [] := by
      cases ix with
      | setVerifier => rfl
      | rotateComplianceKey => rfl
      | setPaused => rfl
      | _ => exact hchange.elim
    rw [hlog, spentEvents_append, hchange.noteEvents.2, hns]
    exact ⟨rfl, List.nodup_nil, fun n hn => absurd hn List.not_mem_nil⟩
  | deposited _ _ _ _ _ _ _ _ hexecuted hregistered _ hlog _ =>
    refine ⟨?_, List.nodup_nil, fun n hn => absurd hn List.not_mem_nil⟩
    rw [hlog, hregistered.log, hexecuted.spent]
    rfl
  | @spent _ s _ _ _ _ m₁ _ hs _ _ _ hexecuted htail hlog _ =>
    have hns : ns = s.nullifiers := by
      show ix.statement.elim [] Statement.nullifiers = s.nullifiers
      rw [hs]
      rfl
    rw [hns]
    refine ⟨by rw [hlog, hexecuted.spent], hexecuted.distinct, fun n hn => ?_⟩
    obtain ⟨key, bump, hpda, hbefore, -, hafter, -⟩ := hexecuted.fresh n hn
    refine ⟨⟨key, bump, hpda, (htail.keeps hafter).1⟩, ?_⟩
    rintro ⟨key', bump', hpda', hown⟩
    rw [hpda] at hpda'
    cases hpda'
    exact hbefore hown

theorem IsSpent.step {l : Label} {n : Bytes 32} {m m' : Machine} (h : IsSpent env m n)
    (hstep : Step env m l m') : IsSpent env m' n := by
  obtain ⟨key, bump, hpda, hown⟩ := h
  exact ⟨key, bump, hpda, hstep.keeps_owner hown⟩

/-- In every run each nullifier is consumed once at most, the consumed ones are those the log
reports, and their accounts are the program's. -/
theorem run_consumed {ls : List Label} {m₀ m : Machine} (hfresh : Fresh env m₀)
    (hrun : Run (Step env) m₀ ls m) :
    spentEvents m.log = consumed ls ∧ (consumed ls).Nodup ∧ ∀ n ∈ consumed ls, IsSpent env m n := by
  refine hrun.invariant (P := fun ls m => spentEvents m.log = consumed ls ∧ (consumed ls).Nodup ∧
    ∀ n ∈ consumed ls, IsSpent env m n) ?_ ?_
  · rw [hfresh.log]
    exact ⟨rfl, List.nodup_nil, fun n hn => absurd hn List.not_mem_nil⟩
  · rintro ls m l m' - ⟨hlog, hnodup, hspent⟩ hstep
    have hconsumed : consumed (ls ++ [l]) = consumed ls ++ l.consumed := by
      simp [consumed]
    have hkeep : ∀ n ∈ consumed ls, IsSpent env m' n := fun n hn => (hspent n hn).step hstep
    rw [hconsumed]
    cases hstep with
    | success _ hprocess =>
      obtain ⟨hlog', hnodup', hspent'⟩ := (effect_of_process hprocess).consumes
      refine ⟨by rw [hlog', hlog], ?_, fun n hn => ?_⟩
      · rw [List.nodup_append]
        refine ⟨hnodup, hnodup', fun a ha b hb => ?_⟩
        -- a nullifier consumed before is spent, one consumed now was not
        rintro rfl
        exact (hspent' a hb).2 (hspent a ha)
      · rcases List.mem_append.1 hn with hold | hnew
        · exact hkeep n hold
        · exact (hspent' n hnew).1
    | failure _ _ =>
      rw [show (Label.failure _ _).consumed = [] from rfl, List.append_nil]
      exact ⟨hlog, hnodup, hspent⟩
    | outside _ =>
      rw [show Label.outside.consumed = [] from rfl, List.append_nil]
      exact ⟨hlog, hnodup, hkeep⟩

/-- The account of a nullifier is the program's only if the log reports the nullifier. -/
theorem Kept.spent {m : Machine} (h : Kept env S seen m) (hpool : .pool ∈ S)
    (hfree : CollisionFree env S) {n : Bytes 32} (hn : .nullifier n ∈ S) (hspent : IsSpent env m n) :
    n ∈ spentEvents m.log := by
  obtain ⟨key, bump, hpda, hown⟩ := hspent
  cases h.role key hown with
  | pool _ hpda' _ _ =>
    obtain ⟨bump', hpda'⟩ := hpda'
    cases hfree _ hn _ hpool _ _ _ hpda hpda'
  | asset id bump' asset hmem hpda' _ _ => cases hfree _ hn _ hmem _ _ _ hpda hpda'
  | nullifier n' bump' hmem hpda' _ hlog =>
    cases hfree _ hn _ hmem _ _ _ hpda hpda'
    exact hlog
  | foreign _ hnot _ => exact absurd (isPda_of_pda env hpda) hnot

/-! ## Untaken addresses -/

/-- The program has taken the address, or no one has. -/
def OwnedOrIdle (env : Env) (L : Ledger) (key : Pubkey) : Prop :=
  (L key).owner = env.programId ∨ ((L key).owner = systemProgramId ∧ (L key).data = [])

/-- The vaults a step may create. -/
def Label.vaults : Label → Set Pubkey
  | .success call (.deposit _ _ _) => {key | call.accounts[4]? = some key}
  | _ => ∅

theorem Executed.ownedOrIdle {poolKey key : Pubkey} {s : Statement} {pool pool' : Pool}
    {m m' : Machine} (h : Executed env poolKey s pool pool' m m')
    (hkey : OwnedOrIdle env m.ledger key) : OwnedOrIdle env m'.ledger key := by
  by_cases hmem : key ∈ ({poolKey} ∪ nullifierKeys env s.nullifiers : Set Pubkey)
  · left
    rcases hmem with hpool | ⟨n, hn, bump, hpda⟩
    · rw [Set.mem_singleton_iff.1 hpool]
      exact h.owner_after
    · obtain ⟨key', bump', hpda', -, -, hafter, -⟩ := h.fresh n hn
      rw [hpda] at hpda'
      cases hpda'
      exact hafter
  · rcases hkey with hown | ⟨howner, hdata⟩
    · exact Or.inl (h.keeps hown).1
    · exact Or.inr (h.same.idle key hmem howner hdata)

theorem Registered.ownedOrIdle {assetKey mint vault key : Pubkey} {asset : Asset} {m m' : Machine}
    (h : Registered env assetKey mint vault asset m m') (hkey : OwnedOrIdle env m.ledger key) :
    OwnedOrIdle env m'.ledger key := by
  by_cases hmem : key = assetKey
  · subst hmem
    rcases h.kept_or_created with rfl | ⟨-, -, hafter, -⟩
    · exact hkey
    · exact Or.inl hafter
  · rcases hkey with hown | ⟨howner, hdata⟩
    · exact Or.inl (h.keeps hown).1
    · exact Or.inr (h.same.idle key hmem howner hdata)

theorem ownedOrIdle_of_tail {keys : Set Pubkey} {key : Pubkey} {L L' : Ledger}
    (htail : SameOwned env ∅ L L') (hidle : Idle keys L L') (hmem : key ∉ keys)
    (hkey : OwnedOrIdle env L key) : OwnedOrIdle env L' key := by
  rcases hkey with hown | ⟨howner, hdata⟩
  · exact Or.inl (htail.keeps hown).1
  · exact Or.inr (hidle key hmem howner hdata)

theorem ownedOrIdle_of_same {poolKey key : Pubkey} {L L' : Ledger} (hsame : SameOutside {poolKey} L L')
    (hafter : (L' poolKey).owner = env.programId) (hkey : OwnedOrIdle env L key) : OwnedOrIdle env L' key := by
  by_cases hmem : key = poolKey
  · subst hmem
    exact Or.inl hafter
  · rcases hkey with hown | ⟨howner, hdata⟩
    · exact Or.inl ((hsame key hmem).1.trans hown)
    · exact Or.inr (hsame.idle key hmem howner hdata)

/-- In a step no one but the program takes a derived address that is not a vault. -/
theorem Step.ownedOrIdle {l : Label} {key : Pubkey} {m m' : Machine} (hstep : Step env m l m')
    (hpda : env.IsPda key) (hvault : key ∉ l.vaults) (hkey : OwnedOrIdle env m.ledger key) :
    OwnedOrIdle env m'.ledger key := by
  cases hstep with
  | failure _ _ => exact hkey
  | outside hout =>
    rcases hkey with hown | ⟨howner, hdata⟩
    · exact Or.inl (hout.owned key hown).1
    · exact Or.inr (hout.derived key hpda howner hdata)
  | success _ hprocess =>
    cases effect_of_process hprocess with
    | initialized h => exact ownedOrIdle_of_same h.same h.owner_after hkey
    | administered h _ _ => exact ownedOrIdle_of_same h.same h.owner_after hkey
    | deposited _ _ hvaultSlot _ _ _ _ _ hexecuted hregistered htail _ hidle =>
      refine ownedOrIdle_of_tail htail hidle ?_ (hregistered.ownedOrIdle (hexecuted.ownedOrIdle hkey))
      rintro rfl
      exact hvault hvaultSlot
    | spent _ _ _ _ hexecuted htail _ hidle =>
      exact ownedOrIdle_of_tail htail hidle (Set.notMem_empty key) (hexecuted.ownedOrIdle hkey)

theorem run_ownedOrIdle {ls : List Label} {key : Pubkey} {m₀ m : Machine} (hfresh : Fresh env m₀)
    (hrun : Run (Step env) m₀ ls m) (hpda : env.IsPda key) (hvaults : ∀ l ∈ ls, key ∉ l.vaults) :
    OwnedOrIdle env m.ledger key := by
  refine hrun.invariant (P := fun ls m => (∀ l ∈ ls, key ∉ l.vaults) → OwnedOrIdle env m.ledger key)
    (fun _ => Or.inr (hfresh.derived key hpda)) ?_ hvaults
  intro ls m l m' _ ih hstep hvaults
  exact hstep.ownedOrIdle hpda (hvaults l (by simp))
    (ih fun l' hl' => hvaults l' (List.mem_append_left _ hl'))

/-! ## Creating a nullifier at an untaken address -/

theorem checkCall_eq_error {signer : Pubkey → Bool} {program : Pubkey} {metas : List AccountMeta}
    {e : ProgramError} {m : Machine} (h : checkCall call signer program metas m = .error e) :
    e = .runtime := (require_eq_error.1 h).2.symm

theorem account_ne_error {key : Pubkey} {e : ProgramError} {m : Machine} :
    ¬ account key m = .error e := nofun

theorem setAccount_ne_error {key : Pubkey} {a : Account} {e : ProgramError} {m : Machine} :
    ¬ setAccount key a m = .error e := nofun

/-- The errors of the runtime and of the system program. -/
def IsOutsideError (e : ProgramError) : Prop := e = .runtime ∨ e = .callee

theorem systemTransfer_eq_error {source target : Pubkey} {lamports : ℕ} {e : ProgramError}
    {m : Machine} (h : systemTransfer call source target lamports m = .error e) :
    IsOutsideError e := by
  simp only [systemTransfer, bind_eq_error, account_eq_ok, checkCall_eq_ok, require_eq_ok,
    setAccount_eq_ok, require_eq_error, account_ne_error, setAccount_ne_error, false_or, or_false,
    and_false, exists_const, exists_false] at h
  rcases h with h | ⟨_, -, _, _, -, -, h⟩
  · exact Or.inl (checkCall_eq_error h)
  · exact Or.inr h.symm

theorem systemAllocate_eq_error {seeds : List (List UInt8)} {target : Pubkey} {space : ℕ}
    {e : ProgramError} {m : Machine} (h : systemAllocate env call seeds target space m = .error e) :
    IsOutsideError e := by
  simp only [systemAllocate, bind_eq_error, account_eq_ok, checkCall_eq_ok, require_eq_ok,
    require_eq_error, account_ne_error, setAccount_ne_error, false_or, or_false,
    and_false, exists_const, exists_false] at h
  rcases h with h | ⟨_, -, _, _, -, -, h⟩
  · exact Or.inl (checkCall_eq_error h)
  · exact Or.inr h.symm

theorem systemAssign_eq_error {seeds : List (List UInt8)} {target : Pubkey}
    {e : ProgramError} {m : Machine} (h : systemAssign env call seeds target m = .error e) :
    IsOutsideError e := by
  simp only [systemAssign, bind_eq_error, account_eq_ok, checkCall_eq_ok, require_eq_ok,
    require_eq_error, account_ne_error, setAccount_ne_error, false_or, or_false,
    and_false, exists_const, exists_false] at h
  rcases h with h | ⟨_, -, _, _, -, -, h⟩
  · exact Or.inl (checkCall_eq_error h)
  · exact Or.inr h.symm

theorem writeData_eq_error {key : Pubkey} {data : List UInt8} {e : ProgramError} {m : Machine}
    (h : writeData env call key data m = .error e) : e = .runtime := by
  simp only [writeData, bind_eq_error, account_eq_ok, account_ne_error, false_or] at h
  obtain ⟨a, _, ⟨rfl, rfl⟩, h⟩ := h
  split at h
  · cases h
  · rcases bind_eq_error.1 h with h | ⟨_, _, -, h⟩
    · exact (require_eq_error.1 h).2.symm
    · exact absurd h setAccount_ne_error

/-- At an address no one has taken `create_nullifier` fails in called programs only. -/
theorem createNullifier_eq_error {payer key : Pubkey} {n : Bytes 32} {bump : UInt8}
    {e : ProgramError} {m : Machine} (hpda : env.pda (.nullifier n) = some (key, bump))
    (howner : (m.ledger key).owner = systemProgramId) (hdata : (m.ledger key).data = [])
    (h : createNullifier env call payer key n m = .error e) : IsOutsideError e := by
  have hne : (m.ledger key).owner ≠ env.programId := by
    rw [howner]
    exact env.programId_ne_system.symm
  have hcreate : ∀ {e : ProgramError} {space : ℕ} {seeds : List (List UInt8)},
      createPdaIfNeeded env call payer key space seeds m = .error e → IsOutsideError e := by
    intro e space seeds h
    simp only [createPdaIfNeeded, bind_eq_error, account_eq_ok, require_eq_ok, require_eq_error,
      account_ne_error, whenever_eq_error, false_or] at h
    obtain ⟨a, _, ⟨rfl, rfl⟩, hguard | ⟨_, _, -, htransfer | ⟨_, m₁, -, halloc | ⟨_, m₂, -, hassign⟩⟩⟩⟩ :=
      h
    · exact absurd ⟨hne, hdata⟩ hguard.1
    · exact systemTransfer_eq_error htransfer.2
    · exact systemAllocate_eq_error halloc
    · exact systemAssign_eq_error hassign
  simp only [createNullifier, findPda, bind_eq_error, ofOption_eq_error, ofOption_eq_ok,
    account_eq_ok, require_eq_ok, require_eq_error, account_ne_error, false_or] at h
  rcases h with ⟨hnone, -⟩ | ⟨⟨expected, bump'⟩, _, ⟨hpda', rfl⟩, h⟩
  · rw [hpda] at hnone
    cases hnone
  rw [hpda] at hpda'
  cases hpda'
  obtain ⟨habsurd, -⟩ | ⟨_, _, ⟨-, rfl⟩, a, _, ⟨rfl, rfl⟩, h⟩ := h
  · exact absurd rfl habsurd
  obtain ⟨habsurd, -⟩ | ⟨_, _, ⟨-, rfl⟩, h | ⟨_, m₁, hcreated, b, _, -, h⟩⟩ := h
  · exact absurd hne habsurd
  · exact hcreate h
  · rcases h with hwrite | ⟨_, _, -, hemit⟩
    · exact Or.inl (writeData_eq_error hwrite)
    · cases hemit

/-- What a payer has to bring to create an account of the program. -/
structure CanPay (env : Env) (call : Call) (payer target : Pubkey) (space : ℕ) (L : Ledger) : Prop where
  accounts : systemProgramId ∈ call.accounts ∧ payer ∈ call.accounts ∧ target ∈ call.accounts
  signer : call.isSigner payer
  writable : call.isWritable payer ∧ call.isWritable target
  wallet : (L payer).owner = systemProgramId ∧ (L payer).data = []
  covers : env.minimumBalance space - (L target).lamports ≤ (L payer).lamports

theorem systemTransfer_of {source target : Pubkey} {lamports : ℕ} {m : Machine}
    (haccounts : systemProgramId ∈ call.accounts ∧ source ∈ call.accounts ∧ target ∈ call.accounts)
    (hsigner : call.isSigner source) (hwritable : call.isWritable source ∧ call.isWritable target)
    (hwallet : (m.ledger source).owner = systemProgramId ∧ (m.ledger source).data = [])
    (hcovers : lamports ≤ (m.ledger source).lamports) :
    ∃ m', systemTransfer call source target lamports m = .ok ((), m') := by
  have hcall : checkCall call (fun _ => false) systemProgramId
      [⟨source, true, true⟩, ⟨target, false, true⟩] m = .ok ((), m) :=
    require_of (by simp [haccounts, hsigner, hwritable]) _ _
  unfold systemTransfer
  rw [bind_of_ok hcall, bind_of_ok (account_eq_ok.2 ⟨rfl, rfl⟩),
    bind_of_ok (require_of ⟨hwallet.2, hwallet.1, hcovers⟩ _ _)]
  exact ⟨_, rfl⟩

/-- The system program allocates and assigns an untaken address the program signs for. -/
theorem systemAllocate_of {seeds : List (List UInt8)} {target : Pubkey} {space : ℕ} {m : Machine}
    (haccounts : systemProgramId ∈ call.accounts ∧ target ∈ call.accounts)
    (hwritable : call.isWritable target)
    (hseeds : env.createProgramAddress seeds env.programId = some target)
    (hidle : (m.ledger target).owner = systemProgramId ∧ (m.ledger target).data = []) :
    systemAllocate env call seeds target space m = .ok ((), { m with
      ledger := Function.update m.ledger target
        { m.ledger target with data := List.replicate space 0 } }) := by
  have hcall : checkCall call (signedBy env seeds) systemProgramId [⟨target, true, true⟩] m =
      .ok ((), m) :=
    require_of (by simp [haccounts, hwritable, signedBy_iff.2 hseeds]) _ _
  unfold systemAllocate
  rw [bind_of_ok hcall, bind_of_ok (account_eq_ok.2 ⟨rfl, rfl⟩), bind_of_ok (require_of ⟨hidle.2, hidle.1⟩ _ _)]
  rfl

theorem systemAssign_of {seeds : List (List UInt8)} {target : Pubkey} {m : Machine}
    (haccounts : systemProgramId ∈ call.accounts ∧ target ∈ call.accounts)
    (hwritable : call.isWritable target)
    (hseeds : env.createProgramAddress seeds env.programId = some target)
    (howner : (m.ledger target).owner = systemProgramId) :
    systemAssign env call seeds target m = .ok ((), { m with
      ledger := Function.update m.ledger target
        { m.ledger target with owner := env.programId } }) := by
  have hcall : checkCall call (signedBy env seeds) systemProgramId [⟨target, true, true⟩] m =
      .ok ((), m) :=
    require_of (by simp [haccounts, hwritable, signedBy_iff.2 hseeds]) _ _
  unfold systemAssign
  rw [bind_of_ok hcall, bind_of_ok (account_eq_ok.2 ⟨rfl, rfl⟩), bind_of_ok (require_of howner _ _)]
  rfl

/-- Creating an account at an untaken address succeeds if the payer can pay, whatever lamports the
address holds. -/
theorem createPdaIfNeeded_of {payer target : Pubkey} {space : ℕ} {seeds : List (List UInt8)}
    {m : Machine} (hpay : CanPay env call payer target space m.ledger)
    (hseeds : env.createProgramAddress seeds env.programId = some target)
    (hidle : (m.ledger target).owner = systemProgramId ∧ (m.ledger target).data = []) :
    ∃ m', createPdaIfNeeded env call payer target space seeds m = .ok ((), m') := by
  have hne : (m.ledger target).owner ≠ env.programId := by
    rw [hidle.1]
    exact env.programId_ne_system.symm
  obtain ⟨⟨hsystem, hpayer, htarget⟩, hsigner, hwritable, hwallet, hcovers⟩ := hpay
  -- the top-up, if one is needed
  obtain ⟨m₁, htop, hidle₁⟩ : ∃ m₁, whenever ((m.ledger target).lamports < env.minimumBalance space)
      (systemTransfer call payer target (env.minimumBalance space - (m.ledger target).lamports)) m =
        .ok ((), m₁) ∧ (m₁.ledger target).owner = systemProgramId ∧ (m₁.ledger target).data = [] := by
    by_cases hlow : (m.ledger target).lamports < env.minimumBalance space
    · obtain ⟨m₁, hm₁⟩ := systemTransfer_of ⟨hsystem, hpayer, htarget⟩ hsigner hwritable hwallet hcovers
      obtain ⟨howner, hdata⟩ := (systemTransfer_ok hm₁).1 target (Set.notMem_empty target)
      exact ⟨m₁, whenever_eq_ok.2 (Or.inl ⟨hlow, hm₁⟩), howner.trans hidle.1, hdata.trans hidle.2⟩
    · exact ⟨m, whenever_eq_ok.2 (Or.inr ⟨hlow, rfl⟩), hidle⟩
  have halloc : systemAllocate env call seeds target space m₁ = .ok ((), _) :=
    systemAllocate_of ⟨hsystem, htarget⟩ hwritable.2 hseeds hidle₁
  have hassign : systemAssign env call seeds target { m₁ with
      ledger := Function.update m₁.ledger target
        { m₁.ledger target with data := List.replicate space 0 } } = .ok ((), _) :=
    systemAssign_of ⟨hsystem, htarget⟩ hwritable.2 hseeds (by simp [hidle₁.1])
  unfold createPdaIfNeeded
  rw [bind_of_ok (account_eq_ok.2 ⟨rfl, rfl⟩), bind_of_ok (require_of ⟨hne, hidle.2⟩ _ _)]
  rw [bind_of_ok htop, bind_of_ok halloc]
  exact ⟨_, hassign⟩

/-- At an untaken address `create_nullifier` succeeds if the payer can pay. -/
theorem createNullifier_live {payer key : Pubkey} {n : Bytes 32} {bump : UInt8} {m : Machine}
    (hpda : env.pda (.nullifier n) = some (key, bump))
    (hidle : (m.ledger key).owner = systemProgramId ∧ (m.ledger key).data = [])
    (hpay : CanPay env call payer key nullifierLen m.ledger) :
    ∃ m', createNullifier env call payer key n m = .ok ((), m') := by
  have hne : (m.ledger key).owner ≠ env.programId := by
    rw [hidle.1]
    exact env.programId_ne_system.symm
  obtain ⟨m₁, hcreate⟩ : ∃ m₁, createPdaIfNeeded env call payer key nullifierLen
      [nullifierSeed, n.val, [bump]] m = .ok ((), m₁) :=
    createPdaIfNeeded_of hpay (createProgramAddress_of_pda env hpda) hidle
  obtain ⟨-, -, howner, hdata, -, -⟩ := createPdaIfNeeded_ok hcreate
  -- the program owns the account it writes the bump to
  obtain ⟨m₂, hwrite⟩ : ∃ m₂, writeData env call key (writeAt (m₁.ledger key).data 0 [bump]) m₁ =
      .ok ((), m₂) := by
    unfold writeData
    rw [bind_of_ok (account_eq_ok.2 ⟨rfl, rfl⟩)]
    split
    · exact ⟨_, rfl⟩
    · rw [bind_of_ok (require_of ⟨howner, hpay.writable.2⟩ _ _)]
      exact ⟨_, rfl⟩
  unfold createNullifier
  rw [bind_of_ok (findPda_eq_ok.2 ⟨hpda, rfl⟩)]
  dsimp only
  rw [bind_of_ok (require_of rfl _ _), bind_of_ok (account_eq_ok.2 ⟨rfl, rfl⟩),
    bind_of_ok (require_of hne _ _), bind_of_ok hcreate, bind_of_ok (account_eq_ok.2 ⟨rfl, rfl⟩),
    bind_of_ok hwrite]
  exact ⟨_, rfl⟩

/-! ## The spent set -/

/-- In every reachable state: the nullifiers whose accounts the program owns are those of the
successful spends; none was consumed twice; and a nullifier no one has consumed is never refused
as spent or already initialized, and is accepted if the payer can pay, at any point of an
instruction where its account is as it was in that state but for its lamports. -/
theorem spent_set_exact {m₀ m : Machine} {ls : List Label} (hpool : .pool ∈ S)
    (hfree : CollisionFree env S) (hfresh : Fresh env m₀) (hrun : Run (Step env) m₀ ls m)
    (hS : ∀ l ∈ ls, l.seeds env ⊆ S)
    (hvaults : ∀ l ∈ ls, ∀ key ∈ l.vaults, ∀ n, .nullifier n ∈ S → ∀ bump,
      env.pda (.nullifier n) ≠ some (key, bump)) :
    (∀ n, .nullifier n ∈ S → (IsSpent env m n ↔ n ∈ consumed ls)) ∧ (consumed ls).Nodup ∧
    ∀ n key bump, .nullifier n ∈ S → n ∉ consumed ls → env.pda (.nullifier n) = some (key, bump) →
      ∀ (call : Call) (payer : Pubkey) (s : Machine),
        (s.ledger key).owner = (m.ledger key).owner → (s.ledger key).data = (m.ledger key).data →
        createNullifier env call payer key n s ≠ .error PoolError.nullifierSpent.into ∧
        createNullifier env call payer key n s ≠ .error .accountAlreadyInitialized ∧
        (CanPay env call payer key nullifierLen s.ledger →
          ∃ s', createNullifier env call payer key n s = .ok ((), s')) := by
  obtain ⟨hlog, hnodup, hspent⟩ := run_consumed hfresh hrun
  have hkept := run_kept hfresh hrun hS
  have hexact : ∀ n, .nullifier n ∈ S → (IsSpent env m n ↔ n ∈ consumed ls) := by
    intro n hn
    constructor
    · intro h
      rw [← hlog]
      exact hkept.spent hpool hfree hn h
    · exact hspent n
  refine ⟨hexact, hnodup, ?_⟩
  intro n key bump hn hunspent hpda call payer s howner hdata
  have hidle : (s.ledger key).owner = systemProgramId ∧ (s.ledger key).data = [] := by
    rcases run_ownedOrIdle hfresh hrun (isPda_of_pda env hpda)
      (fun l hl hkey => hvaults l hl key hkey n hn bump hpda) with hown | ⟨howner', hdata'⟩
    · exact absurd ((hexact n hn).1 ⟨key, bump, hpda, hown⟩) hunspent
    · exact ⟨howner.trans howner', hdata.trans hdata'⟩
  have herror : ∀ e, createNullifier env call payer key n s = .error e → IsOutsideError e :=
    fun e => createNullifier_eq_error hpda hidle.1 hidle.2
  refine ⟨fun h => ?_, fun h => ?_, createNullifier_live hpda hidle⟩
  · rcases herror _ h with h | h <;> cases h
  · rcases herror _ h with h | h <;> cases h

/-- The sample deployment after a transfer that consumes the nullifier 77: it is spent, and the
nullifier 78 is not refused. -/
theorem spent_set_exact_sample : ∃ m, Run (Step Sample.env) Sample.machine
      ([Sample.initializePool (beBytes 32 9), Sample.transfer].map fun c => .success c.1 c.2) m ∧
    IsSpent Sample.env m (beBytes 32 77) ∧
    createNullifier Sample.env Sample.transfer.1 Sample.user (Sample.nullifierKey (beBytes 32 78))
      (beBytes 32 78) m ≠ .error PoolError.nullifierSpent.into := by
  have hexec : (execAll Sample.env [Sample.initializePool (beBytes 32 9), Sample.transfer]
      Sample.machine).isSome := by decide +kernel
  obtain ⟨m, hm⟩ := Option.isSome_iff_exists.1 hexec
  have hrun := run_of_execAll (by simp [Sample.initializePool, Sample.transfer, Sample.admissible]) hm
  have h78 : Sample.env.pda (.nullifier (beBytes 32 78)) =
      some (Sample.nullifierKey (beBytes 32 78), 255) := by decide +kernel
  let seeds := [Seeds.pool, .nullifier (beBytes 32 77), .nullifier (beBytes 32 78)]
  have hfree : CollisionFree Sample.env {s | s ∈ seeds} := collisionFree_of_list (by decide +kernel)
  have hS : ∀ l ∈ [Sample.initializePool (beBytes 32 9), Sample.transfer].map
      (fun c => Label.success c.1 c.2), l.seeds Sample.env ⊆ {s | s ∈ seeds} := by
    intro l hl s hs
    simp only [List.map_cons, List.map_nil, List.mem_cons, List.not_mem_nil, or_false] at hl
    rcases hl with rfl | rfl
    · obtain ⟨st, hst, -⟩ := hs
      cases hst
    · obtain ⟨st, hst, n, hn, rfl⟩ := hs
      cases hst
      rw [List.mem_singleton.1 hn]
      exact List.mem_cons_of_mem _ List.mem_cons_self
  have hvaults : ∀ l ∈ [Sample.initializePool (beBytes 32 9), Sample.transfer].map
      (fun c => Label.success c.1 c.2), l.vaults = ∅ := by
    intro l hl
    simp only [List.map_cons, List.map_nil, List.mem_cons, List.not_mem_nil, or_false] at hl
    rcases hl with rfl | rfl
    · rfl
    · rfl
  obtain ⟨hexact, -, hlive⟩ := spent_set_exact (by simp [seeds]) hfree Sample.fresh hrun hS
    fun l hl key hkey => absurd hkey (by rw [hvaults l hl]; exact Set.notMem_empty key)
  have hunspent : beBytes 32 78 ∉ [beBytes 32 77] := by decide +kernel
  refine ⟨m, hrun, (hexact _ (by simp [seeds])).2 (List.mem_singleton_self _), ?_⟩
  exact (hlive _ _ _ (by simp [seeds]) hunspent h78 _ _ m rfl rfl).1

end Kakure
