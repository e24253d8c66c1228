import Kakure.Pool.Processor

/-!
# What a successful instruction has done

One lemma for each part of the handlers, saying what a run of it that ended well has
checked and which accounts it changed, and from these one description of each
handler.

* `createNullifier_ok` — the nullifier's account was not the program's and now is;
* `registerAsset_ok` — the registry entry is new, or was there with this mint and vault;
* `Executed` — the common effect of every proof-carrying instruction on the program's
  own accounts, with `deposit_ok`, `transferLike_ok`, `splitMultisig_ok`,
  `joinMultisig_ok` and `withdrawLike_ok`.
-/

namespace Kakure

open Slices Guarded

variable {env : Env} {call : Call}

/-! ## The parts of the handlers -/

theorem nextAccount_eq_ok {i : ℕ} {key : Pubkey} {m m' : Machine} :
    nextAccount call i m = .ok (key, m') ↔ call.accounts[i]? = some key ∧ m = m' :=
  ofOption_eq_ok

theorem findPda_eq_ok {s : Seeds} {r : Pubkey × UInt8} {m m' : Machine} :
    findPda env s m = .ok (r, m') ↔ env.pda s = some r ∧ m = m' :=
  ofOption_eq_ok

theorem loadPool_eq_ok {key : Pubkey} {pool : Pool} {m m' : Machine} :
    loadPool key m = .ok (pool, m') ↔ pool.data = (m.ledger key).data ∧ m = m' := by
  unfold loadPool
  simp only [bind_eq_ok, account_eq_ok, ofResult_eq_ok, Pool.new_eq_ok_iff]
  constructor
  · rintro ⟨a, _, ⟨rfl, rfl⟩, hdata, rfl⟩
    exact ⟨hdata, rfl⟩
  · rintro ⟨hdata, rfl⟩
    exact ⟨_, _, ⟨rfl, rfl⟩, hdata, rfl⟩

theorem expectPoolPda_eq_ok {poolKey : Pubkey} {bump : UInt8} {m m' : Machine} :
    expectPoolPda env poolKey m = .ok (bump, m') ↔
      env.pda .pool = some (poolKey, bump) ∧ (m.ledger poolKey).owner = env.programId ∧ m = m' := by
  unfold expectPoolPda
  simp only [bind_eq_ok, findPda_eq_ok, account_eq_ok, require_eq_ok, pure_eq_ok]
  constructor
  · rintro ⟨⟨k, b⟩, _, ⟨hpda, rfl⟩, a, _, ⟨rfl, rfl⟩, -, _, ⟨⟨rfl, howner⟩, rfl⟩, rfl, rfl⟩
    exact ⟨hpda, howner, rfl⟩
  · rintro ⟨hpda, howner, rfl⟩
    exact ⟨_, _, ⟨hpda, rfl⟩, _, _, ⟨rfl, rfl⟩, (), _, ⟨⟨rfl, howner⟩, rfl⟩, rfl, rfl⟩

/-- The administration handlers' header. -/
theorem loadPoolAuthority_ok {r : Pubkey × Pubkey} {m m' : Machine}
    (h : loadPoolAuthority env call m = .ok (r, m')) :
    call.accounts[0]? = some r.1 ∧ call.isSigner r.1 ∧
      (∃ bump, env.pda .pool = some (r.2, bump)) ∧ (m.ledger r.2).owner = env.programId ∧ m' = m := by
  unfold loadPoolAuthority at h
  simp only [bind_eq_ok, nextAccount_eq_ok, require_eq_ok, expectPoolPda_eq_ok, pure_eq_ok] at h
  obtain ⟨authority, _, ⟨haccount, rfl⟩, poolKey, _, ⟨-, rfl⟩, _, _, ⟨hsigner, rfl⟩, bump, _,
    ⟨hpda, howner, rfl⟩, rfl, rfl⟩ := h
  exact ⟨haccount, hsigner, ⟨bump, hpda⟩, howner, rfl⟩

/-- A created account was neither the program's nor in use; now it is the program's and zero. -/
theorem createPdaIfNeeded_ok {payer target : Pubkey} {space : ℕ} {seeds : List (List UInt8)}
    {u : Unit} {m m' : Machine}
    (h : createPdaIfNeeded env call payer target space seeds m = .ok (u, m')) :
    (m.ledger target).owner ≠ env.programId ∧ (m.ledger target).data = [] ∧
      (m'.ledger target).owner = env.programId ∧
      (m'.ledger target).data = List.replicate space 0 ∧
      SameOutside {target} m.ledger m'.ledger ∧ m'.log = m.log := by
  unfold createPdaIfNeeded at h
  simp only [bind_eq_ok, account_eq_ok, require_eq_ok, whenever_eq_ok] at h
  obtain ⟨a, _, ⟨rfl, rfl⟩, _, _, ⟨⟨howner, hdata⟩, rfl⟩, _, m₁, htop, _, m₂, halloc, hassign⟩ := h
  have htop' : SameOutside ∅ m.ledger m₁.ledger ∧ m₁.log = m.log := by
    rcases htop with ⟨-, htransfer⟩ | ⟨-, rfl⟩
    · exact systemTransfer_ok htransfer
    · exact ⟨SameOutside.refl _ _, rfl⟩
  obtain ⟨-, -, hzero, hsame₂, hlog₂⟩ := systemAllocate_ok halloc
  obtain ⟨howner', hdata', hsame₃, hlog₃⟩ := systemAssign_ok hassign
  refine ⟨howner, hdata, howner', hdata'.trans hzero, ?_, hlog₃.trans (hlog₂.trans htop'.2)⟩
  exact ((htop'.1.mono (by simp)).trans hsame₂).trans hsame₃

/-- The account of a nullifier was not the program's; now it is, and holds the bump. -/
structure NullifierCreated (env : Env) (nullifier : Bytes 32) (key : Pubkey) (bump : UInt8)
    (m m' : Machine) : Prop where
  pda : env.pda (.nullifier nullifier) = some (key, bump)
  owner_before : (m.ledger key).owner ≠ env.programId
  data_before : (m.ledger key).data = []
  owner_after : (m'.ledger key).owner = env.programId
  data_after : (m'.ledger key).data = [bump]
  same : SameOutside {key} m.ledger m'.ledger
  log : m'.log = m.log ++ [.nullifierSpent nullifier]

theorem createNullifier_ok {payer nullifierKey : Pubkey} {nullifier : Bytes 32} {u : Unit}
    {m m' : Machine}
    (h : createNullifier env call payer nullifierKey nullifier m = .ok (u, m')) :
    ∃ bump, NullifierCreated env nullifier nullifierKey bump m m' := by
  unfold createNullifier at h
  simp only [bind_eq_ok, findPda_eq_ok, account_eq_ok, require_eq_ok, emit_eq_ok] at h
  obtain ⟨⟨key, bump⟩, _, ⟨hpda, rfl⟩, _, _, ⟨rfl, rfl⟩, a, _, ⟨rfl, rfl⟩, _, _, ⟨-, rfl⟩, _, m₁,
    hcreate, b, _, ⟨rfl, rfl⟩, _, m₂, hwrite, rfl⟩ := h
  obtain ⟨howner, hdata, howner₁, hdata₁, hsame₁, hlog₁⟩ := createPdaIfNeeded_ok hcreate
  obtain ⟨hdata₂, howner₂, -, hsame₂, hlog₂, -⟩ := writeData_ok hwrite
  rw [hdata₁] at hdata₂
  refine ⟨bump, hpda, howner, hdata, howner₂.trans howner₁, hdata₂, hsame₁.trans hsame₂, ?_⟩
  show m₂.log ++ _ = _
  rw [hlog₂, hlog₁]

theorem insertAndEmit_ok {pool pool' : Pool} {leaf ephPubX : Bytes 32} {tag cekWrap : Option (Bytes 32)}
    {ciphertext : List (Bytes 32)} {m m' : Machine}
    (h : insertAndEmit env pool leaf ephPubX tag cekWrap ciphertext m = .ok (pool', m')) :
    ∃ leafIndex root, insert env.poseidon pool leaf = .ok (pool', leafIndex, root) ∧
      m' = { m with log := m.log ++
        [.noteInserted { leafIndex, leaf, ephPubX, tag, cekWrap, ciphertext, root }] } := by
  unfold insertAndEmit at h
  simp only [bind_eq_ok, ofResult_eq_ok, emit_eq_ok, pure_eq_ok] at h
  obtain ⟨⟨p, leafIndex, root⟩, _, ⟨hins, rfl⟩, -, _, rfl, rfl, rfl⟩ := h
  exact ⟨leafIndex, root, hins, rfl⟩

theorem resolveRoot_eq_ok {pool : Pool} {rootIndex : UInt8} {root : Bytes 32} {m m' : Machine} :
    resolveRoot pool rootIndex m = .ok (root, m') ↔
      pool.rootAt rootIndex = root ∧ root ≠ Bytes.zero 32 ∧ m = m' := by
  unfold resolveRoot
  simp only [bind_eq_ok, require_eq_ok, pure_eq_ok]
  constructor
  · rintro ⟨-, _, ⟨hne, rfl⟩, rfl, rfl⟩
    exact ⟨rfl, hne, rfl⟩
  · rintro ⟨rfl, hne, rfl⟩
    exact ⟨(), _, ⟨hne, rfl⟩, rfl, rfl⟩

theorem checkCount_eq_ok {publicInputs : List (Bytes 32)} {expected : ℕ} {u : Unit} {m m' : Machine} :
    checkCount publicInputs expected m = .ok (u, m') ↔ publicInputs.length = expected ∧ m = m' :=
  require_eq_ok

theorem mintDecimals_ok {mint tokenProgram : Pubkey} {decimals : UInt8} {m m' : Machine}
    (h : mintDecimals mint tokenProgram m = .ok (decimals, m')) :
    (m.ledger mint).owner = tokenProgram ∧ decimals = decimalsOf (m.ledger mint).data ∧ m' = m := by
  unfold mintDecimals at h
  simp only [bind_eq_ok, account_eq_ok, require_eq_ok, pure_eq_ok] at h
  obtain ⟨a, _, ⟨rfl, rfl⟩, -, _, ⟨⟨howner, -⟩, rfl⟩, -, _, ⟨-, rfl⟩, rfl, rfl⟩ := h
  exact ⟨howner, rfl, rfl⟩

theorem invokeTransferChecked_ok {signer : Pubkey → Bool}
    {tokenProgram source mint destination authority : Pubkey} {amount : UInt64} {decimals : UInt8}
    {u : Unit} {m m' : Machine}
    (h : invokeTransferChecked env call signer tokenProgram source mint destination authority amount
      decimals m = .ok (u, m')) :
    tokenProgramSupported tokenProgram ∧
      Transferred env call tokenProgram source mint destination authority amount.toNat m m' ∧
      (call.isSigner authority ∨ signer authority) := by
  unfold invokeTransferChecked at h
  simp only [bind_eq_ok, require_eq_ok] at h
  obtain ⟨-, _, ⟨hsupported, rfl⟩, h⟩ := h
  exact ⟨hsupported, transferChecked_ok h⟩

theorem checkAsset_ok {assetKey mint vault : Pubkey} {assetIdInput : Bytes 32} {u : Unit}
    {m m' : Machine} (h : checkAsset env assetKey mint vault assetIdInput m = .ok (u, m')) :
    ∃ asset : Asset, asset.data = (m.ledger assetKey).data ∧ asset.mint = mint ∧
      asset.vault = vault ∧ assetIdInput = assetIdField env mint ∧ m' = m := by
  unfold checkAsset at h
  simp only [bind_eq_ok, account_eq_ok, ofResult_eq_ok, Asset.new_eq_ok_iff, require_eq_ok] at h
  obtain ⟨a, _, ⟨rfl, rfl⟩, asset, _, ⟨hdata, rfl⟩, -, _, ⟨hmint, rfl⟩, -, _, ⟨hid, rfl⟩, hvault, rfl⟩ := h
  exact ⟨asset, hdata, hmint, hvault, hid, rfl⟩

/-- The registry entry is there afterwards with this mint and vault; it was there already, or
was created from a fresh account. -/
structure Registered (env : Env) (assetKey mint vault : Pubkey) (asset : Asset) (m m' : Machine) :
    Prop where
  entry : (m'.ledger assetKey).data = asset.data
  asset_mint : asset.mint = mint
  asset_vault : asset.vault = vault
  log : m'.log = m.log
  same : SameOutside {assetKey} m.ledger m'.ledger
  kept_or_created : m' = m ∨ ((m.ledger assetKey).owner ≠ env.programId ∧
    (m.ledger assetKey).data = [] ∧ (m'.ledger assetKey).owner = env.programId ∧
    asset.assetId = assetIdBytes env mint)

theorem registerAsset_ok {depositor assetKey mint vault : Pubkey} {assetBump : UInt8} {u : Unit}
    {m m' : Machine}
    (h : registerAsset env call depositor assetKey mint vault assetBump m = .ok (u, m')) :
    ∃ asset, Registered env assetKey mint vault asset m m' := by
  unfold registerAsset at h
  simp only [bind_eq_ok, account_eq_ok] at h
  obtain ⟨a, _, ⟨rfl, rfl⟩, h⟩ := h
  split at h
  · simp only [bind_eq_ok, account_eq_ok, ofResult_eq_ok, Asset.new_eq_ok_iff] at h
    obtain ⟨_, m₁, hcreate, b, _, ⟨rfl, rfl⟩, asset, _, ⟨-, rfl⟩, hwrite⟩ := h
    obtain ⟨howner, hdata, howner₁, -, hsame₁, hlog₁⟩ := createPdaIfNeeded_ok hcreate
    obtain ⟨hdata₂, howner₂, -, hsame₂, hlog₂, -⟩ := writeData_ok hwrite
    obtain ⟨hmint, hvault, hid, -⟩ := asset.fields_write mint vault (assetIdBytes env mint) assetBump
    exact ⟨_, hdata₂, hmint, hvault, hlog₂.trans hlog₁, hsame₁.trans hsame₂,
      Or.inr ⟨howner, hdata, howner₂.trans howner₁, hid⟩⟩
  · simp only [bind_eq_ok, ofResult_eq_ok, Asset.new_eq_ok_iff, require_eq_ok] at h
    obtain ⟨asset, _, ⟨hdata, rfl⟩, -, _, ⟨hmint, rfl⟩, hvault, rfl⟩ := h
    exact ⟨asset, hdata.symm, hmint, hvault, rfl, SameOutside.refl _ _, Or.inl rfl⟩

/-! ## Events -/

/-- What an instruction asks the tree to insert: the arguments of `insert_and_emit`. -/
structure NoteOutput where
  leaf : Bytes 32
  ephPubX : Bytes 32
  tag : Option (Bytes 32)
  cekWrap : Option (Bytes 32)
  ciphertext : List (Bytes 32)

def NoteInserted.output (ev : NoteInserted) : NoteOutput :=
  ⟨ev.leaf, ev.ephPubX, ev.tag, ev.cekWrap, ev.ciphertext⟩

/-- The inserts of a log, in order. -/
def noteEvents (log : List Event) : List NoteInserted :=
  log.filterMap fun
    | .noteInserted ev => some ev
    | _ => none

/-- The nullifiers a log reports, in order. -/
def spentEvents (log : List Event) : List (Bytes 32) :=
  log.filterMap fun
    | .nullifierSpent n => some n
    | _ => none

/-- The key rotations a log reports, in order: both versions and the new key. -/
def rotationEvents (log : List Event) : List (ℕ × ℕ × Bytes 32 × Bytes 32) :=
  log.filterMap fun
    | .complianceKeyRotated oldVersion newVersion x y => some (oldVersion, newVersion, x, y)
    | _ => none

@[simp] theorem noteEvents_append (log log' : List Event) :
    noteEvents (log ++ log') = noteEvents log ++ noteEvents log' := List.filterMap_append

@[simp] theorem spentEvents_append (log log' : List Event) :
    spentEvents (log ++ log') = spentEvents log ++ spentEvents log' := List.filterMap_append

@[simp] theorem rotationEvents_append (log log' : List Event) :
    rotationEvents (log ++ log') = rotationEvents log ++ rotationEvents log' :=
  List.filterMap_append

@[simp] theorem noteEvents_map (evs : List NoteInserted) :
    noteEvents (evs.map .noteInserted) = evs := by
  induction evs with
  | nil => rfl
  | cons ev evs ih => exact congrArg (ev :: ·) ih

@[simp] theorem spentEvents_map (evs : List NoteInserted) :
    spentEvents (evs.map .noteInserted) = [] := by
  induction evs with
  | nil => rfl
  | cons ev evs ih => exact ih

@[simp] theorem rotationEvents_map (evs : List NoteInserted) :
    rotationEvents (evs.map .noteInserted) = [] := by
  induction evs with
  | nil => rfl
  | cons ev evs ih => exact ih

/-- The inserts these events report lead from one pool to another. -/
def Grows (poseidon : Fr → Fr → Fr → Fr) : Pool → List NoteInserted → Pool → Prop
  | p, [], p' => p = p'
  | p, ev :: evs, p' =>
    ∃ q, insert poseidon p ev.leaf = .ok (q, ev.leafIndex, ev.root) ∧ Grows poseidon q evs p'

theorem Grows.single {p q : Pool} {ev : NoteInserted}
    (h : insert env.poseidon p ev.leaf = .ok (q, ev.leafIndex, ev.root)) :
    Grows env.poseidon p [ev] q := ⟨q, h, rfl⟩

theorem Grows.append {p q r : Pool} {evs evs' : List NoteInserted} (h : Grows env.poseidon p evs q)
    (h' : Grows env.poseidon q evs' r) : Grows env.poseidon p (evs ++ evs') r := by
  induction evs generalizing p with
  | nil =>
    cases h
    exact h'
  | cons ev evs ih =>
    obtain ⟨p', hins, hrest⟩ := h
    exact ⟨p', hins, ih hrest⟩

/-- The leaf count advances by the number of events. -/
theorem Grows.nextLeafIndex {p q : Pool} {evs : List NoteInserted} (h : Grows env.poseidon p evs q) :
    q.nextLeafIndex = p.nextLeafIndex + evs.length := by
  induction evs generalizing p with
  | nil =>
    cases h
    rfl
  | cons ev evs ih =>
    obtain ⟨p', hins, hrest⟩ := h
    rw [ih hrest, nextLeafIndex_insert env.poseidon hins, List.length_cons]
    omega

/-- Fields outside the tree stay as they are. -/
theorem Grows.get_of_not_tree {p q : Pool} {evs : List NoteInserted}
    (h : Grows env.poseidon p evs q) {f : PoolField} (hf : f.isTree = false) :
    q.get f = p.get f := by
  induction evs generalizing p with
  | nil =>
    cases h
    rfl
  | cons ev evs ih =>
    obtain ⟨p', hins, hrest⟩ := h
    rw [ih hrest, get_insert_of_not_tree env.poseidon hins hf]

/-! ## Proof-carrying instructions -/

/-- What an instruction asks a proof for: its circuit, the slot of its root if it spends, the
nullifiers it consumes, the notes it inserts and the public inputs of the proof. -/
structure Statement where
  circuitId : UInt8
  rootIndex : Option UInt8
  nullifiers : List (Bytes 32)
  outputs : List NoteOutput
  inputs : Pool → List (Bytes 32)

/-- The addresses of these nullifiers' accounts. -/
def nullifierKeys (env : Env) (nullifiers : List (Bytes 32)) : Set Pubkey :=
  {k | ∃ n ∈ nullifiers, ∃ bump, env.pda (.nullifier n) = some (k, bump)}

/-- The effect of a proven statement on the program's accounts and its log: the notes were
inserted and the nullifiers' accounts are new. -/
structure Executed (env : Env) (poolKey : Pubkey) (s : Statement) (pool pool' : Pool)
    (m m' : Machine) : Prop where
  pool_before : pool.data = (m.ledger poolKey).data
  pool_after : (m'.ledger poolKey).data = pool'.data
  owner_before : (m.ledger poolKey).owner = env.programId
  owner_after : (m'.ledger poolKey).owner = env.programId
  inserted : ∃ evs, Grows env.poseidon pool evs pool' ∧
    evs.map NoteInserted.output = s.outputs ∧ noteEvents m'.log = noteEvents m.log ++ evs
  spent : spentEvents m'.log = spentEvents m.log ++ s.nullifiers
  rotations : rotationEvents m'.log = rotationEvents m.log
  fresh : ∀ n ∈ s.nullifiers, ∃ key bump, env.pda (.nullifier n) = some (key, bump) ∧
    (m.ledger key).owner ≠ env.programId ∧ (m.ledger key).data = [] ∧
    (m'.ledger key).owner = env.programId ∧ (m'.ledger key).data = [bump]
  distinct : s.nullifiers.Nodup
  same : SameOutside ({poolKey} ∪ nullifierKeys env s.nullifiers) m.ledger m'.ledger

/-- What was checked before: the pool is live, the root slot is used, and the registered verifier
accepts the public inputs. -/
structure Verified (env : Env) (s : Statement) (pool : Pool) : Prop where
  paused : pool.paused = false
  root : ∀ i ∈ s.rootIndex, pool.rootAt i ≠ Bytes.zero 32
  accepted : ∃ key proof, pool.verifier s.circuitId = .ok key ∧ key ≠ Pubkey.default ∧
    env.accepts key (proof ++ publicWitness (s.inputs pool))

/-- The pool part of a handler: after at least one insert the changed account is written back,
which only the program's own account allows. -/
theorem executed_of_write {poolKey : Pubkey} {s : Statement} {pool pool' : Pool} {m m₀ m₁ : Machine}
    {evs : List NoteInserted} {u : Unit} (hnone : s.nullifiers = []) (hevs : evs ≠ [])
    (hpool : pool.data = (m.ledger poolKey).data) (hgrows : Grows env.poseidon pool evs pool')
    (houtputs : evs.map NoteInserted.output = s.outputs)
    (hwrite : writeData env call poolKey pool'.data m₀ = .ok (u, m₁)) (hledger : m₀.ledger = m.ledger)
    (hlog : m₀.log = m.log ++ evs.map .noteInserted) :
    Executed env poolKey s pool pool' m m₁ := by
  obtain ⟨hdata, howner, hown, hsame, hlog₁, -⟩ := writeData_ok hwrite
  rw [hledger] at howner hown hsame
  have hchanged : (m.ledger poolKey).data ≠ pool'.data := by
    intro heq
    have hsamePool : pool = pool' := by
      cases pool
      cases pool'
      cases hpool.trans heq
      rfl
    have hcount := hgrows.nextLeafIndex
    rw [← hsamePool] at hcount
    have := List.length_pos_of_ne_nil hevs
    omega
  have hprogram := (hown hchanged).1
  refine ⟨hpool, hdata, hprogram, howner.trans hprogram, ⟨evs, hgrows, houtputs, ?_⟩, ?_, ?_, ?_, ?_, ?_⟩
  · rw [hlog₁, hlog, noteEvents_append, noteEvents_map]
  · rw [hlog₁, hlog, spentEvents_append, spentEvents_map, hnone]
  · rw [hlog₁, hlog, rotationEvents_append, rotationEvents_map, List.append_nil]
  · rw [hnone]
    simp
  · rw [hnone]
    exact List.nodup_nil
  · exact hsame.mono (by simp)

/-- A nullifier created after the effect of a statement joins its nullifiers. -/
theorem Executed.nullify {poolKey : Pubkey} {s : Statement} {pool pool' : Pool} {m m₁ m₂ : Machine}
    {n : Bytes 32} {key : Pubkey} {bump : UInt8} (h : Executed env poolKey s pool pool' m m₁)
    (hn : NullifierCreated env n key bump m₁ m₂) :
    Executed env poolKey { s with nullifiers := s.nullifiers ++ [n] } pool pool' m m₂ := by
  -- the new account is neither the pool nor one of the nullifiers before it
  have hpoolKey : poolKey ≠ key := by
    rintro rfl
    exact hn.owner_before h.owner_after
  have hother : ∀ n' ∈ s.nullifiers, ∀ k b, env.pda (.nullifier n') = some (k, b) → k ≠ key := by
    rintro n' hn' k b hk rfl
    obtain ⟨k', b', hk', -, -, howner, -⟩ := h.fresh n' hn'
    rw [hk] at hk'
    cases hk'
    exact hn.owner_before howner
  have hkey : key ∉ ({poolKey} ∪ nullifierKeys env s.nullifiers : Set Pubkey) := by
    rintro (hk | ⟨n', hn', b, hk⟩)
    · exact hpoolKey hk.symm
    · exact hother n' hn' key b hk rfl
  obtain ⟨hownerEq, hdataEq⟩ := h.same key hkey
  have hpool := hn.same poolKey hpoolKey
  obtain ⟨evs, hgrows, houtputs, hnotes⟩ := h.inserted
  refine ⟨h.pool_before, hpool.2.trans h.pool_after, h.owner_before, hpool.1.trans h.owner_after,
    ⟨evs, hgrows, houtputs, ?_⟩, ?_, ?_, ?_, ?_, ?_⟩
  · rw [hn.log, noteEvents_append, hnotes]
    exact List.append_nil _
  · rw [hn.log, spentEvents_append, h.spent, List.append_assoc]
    rfl
  · rw [hn.log, rotationEvents_append, h.rotations]
    exact List.append_nil _
  · intro n' hn'
    rcases List.mem_append.1 hn' with hold | hnew
    · obtain ⟨k, b, hk, howner, hdata, howner', hdata'⟩ := h.fresh n' hold
      have hsame := hn.same k (hother n' hold k b hk)
      exact ⟨k, b, hk, howner, hdata, hsame.1.trans howner', hsame.2.trans hdata'⟩
    · rw [List.mem_singleton.1 hnew]
      exact ⟨key, bump, hn.pda, fun ho => hn.owner_before (hownerEq.trans ho),
        hdataEq.symm.trans hn.data_before, hn.owner_after, hn.data_after⟩
  · rw [List.nodup_append]
    refine ⟨h.distinct, List.nodup_singleton n, fun a ha b hb => ?_⟩
    rw [List.mem_singleton.1 hb]
    rintro rfl
    exact hother a ha key bump hn.pda rfl
  · refine (h.same.mono ?_).trans (hn.same.mono ?_)
    · rintro k (hk | ⟨n', hn', b, hk⟩)
      · exact Or.inl hk
      · exact Or.inr ⟨n', List.mem_append_left _ hn', b, hk⟩
    · rintro k rfl
      exact Or.inr ⟨n, by simp, bump, hn.pda⟩

/-! ### The statements of the handlers -/

def depositStatement (publicInputs : List (Bytes 32)) : Statement where
  circuitId := 0
  rootIndex := none
  nullifiers := []
  outputs := [⟨input publicInputs 0, input publicInputs 1, none, none, ct7 publicInputs 4⟩]
  inputs pool := [pool.compliancePkX, pool.compliancePkY] ++ publicInputs

def transferStatement (publicInputs : List (Bytes 32)) (rootIndex circuitId : UInt8) :
    Statement where
  circuitId := circuitId
  rootIndex := some rootIndex
  nullifiers := [input publicInputs 0]
  outputs := [⟨input publicInputs 1, input publicInputs 2, some (input publicInputs 3),
    some (input publicInputs 4), ct7 publicInputs 5⟩,
    ⟨input publicInputs 12, input publicInputs 13, none, none, ct7 publicInputs 14⟩]
  inputs pool := [pool.compliancePkX, pool.compliancePkY, input publicInputs 0,
    pool.rootAt rootIndex] ++ publicInputs.drop 1

def splitStatement (publicInputs : List (Bytes 32)) (rootIndex : UInt8) : Statement where
  circuitId := 4
  rootIndex := some rootIndex
  nullifiers := [input publicInputs 0]
  outputs := [⟨input publicInputs 1, input publicInputs 2, none, none, ct7 publicInputs 3⟩,
    ⟨input publicInputs 10, input publicInputs 11, none, none, ct7 publicInputs 12⟩]
  inputs pool := [pool.compliancePkX, pool.compliancePkY, input publicInputs 0,
    pool.rootAt rootIndex] ++ publicInputs.drop 1

def joinStatement (publicInputs : List (Bytes 32)) (rootIndex : UInt8) : Statement where
  circuitId := 5
  rootIndex := some rootIndex
  nullifiers := [input publicInputs 0, input publicInputs 1]
  outputs := [⟨input publicInputs 2, input publicInputs 3, none, none, ct7 publicInputs 4⟩]
  inputs pool := [pool.compliancePkX, pool.compliancePkY, input publicInputs 0,
    input publicInputs 1, pool.rootAt rootIndex] ++ publicInputs.drop 2

def withdrawStatement (publicInputs : List (Bytes 32)) (rootIndex circuitId : UInt8) :
    Statement where
  circuitId := circuitId
  rootIndex := some rootIndex
  nullifiers := [input publicInputs 3]
  outputs := [⟨input publicInputs 5, input publicInputs 6, none, none, ct7 publicInputs 7⟩]
  inputs pool := [input publicInputs 0, input publicInputs 1, input publicInputs 2,
    pool.compliancePkX, pool.compliancePkY, input publicInputs 3, pool.rootAt rootIndex] ++
    publicInputs.drop 4

/-- A successful `transfer` or `transfer_multisig`. -/
theorem transferLike_ok {proof : Bytes 192} {publicInputs : List (Bytes 32)}
    {rootIndex circuitId : UInt8} {expectedCount : ℕ} {u : Unit} {m m' : Machine}
    (h : transferLike env call proof publicInputs rootIndex circuitId expectedCount m = .ok (u, m')) :
    publicInputs.length = expectedCount ∧
      ∃ poolKey bump pool pool', env.pda .pool = some (poolKey, bump) ∧
        Verified env (transferStatement publicInputs rootIndex circuitId) pool ∧
        Executed env poolKey (transferStatement publicInputs rootIndex circuitId) pool pool' m m' := by
  unfold transferLike at h
  simp only [bind_eq_ok, nextAccount_eq_ok, require_eq_ok, expectPoolPda_eq_ok, checkCount_eq_ok,
    loadPool_eq_ok, resolveRoot_eq_ok, ofResult_eq_ok, and_assoc, exists_and_left, exists_eq_left',
    exists_const] at h
  obtain ⟨payer, -, poolKey, -, nullifierKey, -, _, -, verifierKey, -, -, bump, hpda, -, hcount, pool,
    hpool, hpaused, hroot, registered, hverifier, pool₁, m₁, hins₁, pool₂, m₂, hins₂, _, m₃, hwrite, _,
    m₄, hnull, proof', -, hverify⟩ := h
  obtain ⟨i, ra, ha, rfl⟩ := insertAndEmit_ok hins₁
  obtain ⟨j, rb, hb, rfl⟩ := insertAndEmit_ok hins₂
  obtain ⟨b, hnull⟩ := createNullifier_ok hnull
  obtain ⟨hset, haccepts, rfl⟩ := verifyCpi_ok hverify
  have hexec := executed_of_write
    (s := { transferStatement publicInputs rootIndex circuitId with nullifiers := [] }) rfl
    (List.cons_ne_nil _ _) hpool (.append (.single ha) (.single hb)) rfl hwrite rfl
    (List.append_assoc _ _ _)
  refine ⟨hcount, poolKey, bump, pool, pool₂, hpda, ⟨hpaused, ?_, ?_⟩, hexec.nullify hnull⟩
  · rintro i ⟨⟩
    exact hroot
  · exact ⟨registered, proof', hverifier, hset, haccepts⟩

/-- A successful `split_multisig`. -/
theorem splitMultisig_ok {proof : Bytes 192} {publicInputs : List (Bytes 32)} {rootIndex : UInt8}
    {u : Unit} {m m' : Machine}
    (h : splitMultisig env call proof publicInputs rootIndex m = .ok (u, m')) :
    publicInputs.length = 19 ∧
      ∃ poolKey bump pool pool', env.pda .pool = some (poolKey, bump) ∧
        Verified env (splitStatement publicInputs rootIndex) pool ∧
        Executed env poolKey (splitStatement publicInputs rootIndex) pool pool' m m' := by
  unfold splitMultisig at h
  simp only [bind_eq_ok, nextAccount_eq_ok, require_eq_ok, expectPoolPda_eq_ok, checkCount_eq_ok,
    loadPool_eq_ok, resolveRoot_eq_ok, ofResult_eq_ok, and_assoc, exists_and_left, exists_eq_left',
    exists_const] at h
  obtain ⟨payer, -, poolKey, -, nullifierKey, -, _, -, verifierKey, -, -, bump, hpda, -, hcount, pool,
    hpool, hpaused, hroot, registered, hverifier, pool₁, m₁, hins₁, pool₂, m₂, hins₂, _, m₃, hwrite, _,
    m₄, hnull, proof', -, hverify⟩ := h
  obtain ⟨i, ra, ha, rfl⟩ := insertAndEmit_ok hins₁
  obtain ⟨j, rb, hb, rfl⟩ := insertAndEmit_ok hins₂
  obtain ⟨b, hnull⟩ := createNullifier_ok hnull
  obtain ⟨hset, haccepts, rfl⟩ := verifyCpi_ok hverify
  have hexec := executed_of_write (s := { splitStatement publicInputs rootIndex with nullifiers := [] })
    rfl (List.cons_ne_nil _ _) hpool (.append (.single ha) (.single hb)) rfl hwrite rfl
    (List.append_assoc _ _ _)
  refine ⟨hcount, poolKey, bump, pool, pool₂, hpda, ⟨hpaused, ?_, ?_⟩, hexec.nullify hnull⟩
  · rintro i ⟨⟩
    exact hroot
  · exact ⟨registered, proof', hverifier, hset, haccepts⟩

/-- A successful `join_multisig`: the two nullifiers are different. -/
theorem joinMultisig_ok {proof : Bytes 192} {publicInputs : List (Bytes 32)} {rootIndex : UInt8}
    {u : Unit} {m m' : Machine}
    (h : joinMultisig env call proof publicInputs rootIndex m = .ok (u, m')) :
    publicInputs.length = 11 ∧
      ∃ poolKey bump pool pool', env.pda .pool = some (poolKey, bump) ∧
        Verified env (joinStatement publicInputs rootIndex) pool ∧
        Executed env poolKey (joinStatement publicInputs rootIndex) pool pool' m m' := by
  unfold joinMultisig at h
  simp only [bind_eq_ok, nextAccount_eq_ok, require_eq_ok, expectPoolPda_eq_ok, checkCount_eq_ok,
    loadPool_eq_ok, resolveRoot_eq_ok, ofResult_eq_ok, and_assoc, exists_and_left, exists_eq_left',
    exists_const] at h
  obtain ⟨payer, -, poolKey, -, keyA, -, keyB, -, _, -, verifierKey, -, -, bump, hpda, -, hcount, pool,
    hpool, hpaused, hroot, registered, hverifier, pool₁, m₁, hins₁, _, m₂, hwrite, _, m₃, hnullA, _, m₄,
    hnullB, proof', -, hverify⟩ := h
  obtain ⟨i, ra, ha, rfl⟩ := insertAndEmit_ok hins₁
  obtain ⟨a, hnullA⟩ := createNullifier_ok hnullA
  obtain ⟨b, hnullB⟩ := createNullifier_ok hnullB
  obtain ⟨hset, haccepts, rfl⟩ := verifyCpi_ok hverify
  have hexec := executed_of_write (s := { joinStatement publicInputs rootIndex with nullifiers := [] })
    rfl (List.cons_ne_nil _ _) hpool (.single ha) rfl hwrite rfl rfl
  refine ⟨hcount, poolKey, bump, pool, pool₁, hpda, ⟨hpaused, ?_, ?_⟩,
    (hexec.nullify hnullA).nullify hnullB⟩
  · rintro i ⟨⟩
    exact hroot
  · exact ⟨registered, proof', hverifier, hset, haccepts⟩

/-- The transfer a successful `withdraw` or `withdraw_multisig` ends with. -/
theorem withdrawLike_calls {proof : Bytes 192} {publicInputs : List (Bytes 32)} {amount : UInt64}
    {rootIndex circuitId : UInt8} {u : Unit} {m m' : Machine}
    (h : withdrawLike env call proof publicInputs amount rootIndex circuitId m = .ok (u, m')) :
    publicInputs.length = 14 ∧
      ∃ poolKey bump assetKey mint vault destination tokenProgram decimals,
        call.accounts[1]? = some poolKey ∧ call.accounts[3]? = some assetKey ∧
        call.accounts[4]? = some mint ∧ call.accounts[5]? = some vault ∧
        call.accounts[6]? = some destination ∧ call.accounts[7]? = some tokenProgram ∧
        env.pda .pool = some (poolKey, bump) ∧ tokenProgramSupported tokenProgram ∧
        input publicInputs 0 = amountField amount ∧
        input publicInputs 1 = recipientField env destination ∧
        input publicInputs 2 = Bytes.zero 32 ∧ input publicInputs 4 = assetIdField env mint ∧
        (∃ asset : Asset, asset.data = (m.ledger assetKey).data ∧ asset.mint = mint ∧
          asset.vault = vault) ∧
        ∃ pool pool' m₁, Verified env (withdrawStatement publicInputs rootIndex circuitId) pool ∧
          Executed env poolKey (withdrawStatement publicInputs rootIndex circuitId) pool pool' m m₁ ∧
          invokeTransferChecked env call (signedBy env [poolSeed, [bump]]) tokenProgram vault mint destination poolKey
            amount decimals m₁ = .ok (u, m') := by
  unfold withdrawLike at h
  simp only [bind_eq_ok, nextAccount_eq_ok, require_eq_ok, account_eq_ok, expectPoolPda_eq_ok,
    checkCount_eq_ok, loadPool_eq_ok, resolveRoot_eq_ok, ofResult_eq_ok, and_assoc, exists_and_left, exists_eq_left',
    exists_const] at h
  obtain ⟨payer, -, poolKey, hpoolKey, nullifierKey, -, assetKey, hassetKey, mint, hmint, vault, hvault,
    destination, hdest, tokenProgram, htoken, _, -, verifierKey, -, -, hsupported, -, hcount, bump, hpda,
    -, hintent, hvalue, hrecipient, _, mAsset, hasset, pool, hpool, hpaused, hroot, registered, hverifier,
    pool₁, m₁, hins₁, _, m₂, hwrite, _, m₃, hnull, proof', -, _, m₄, hverify, decimals, m₅, hdecimals,
    htransfer⟩ := h
  obtain ⟨asset, hdata, hassetMint, hassetVault, hid, rfl⟩ := checkAsset_ok hasset
  obtain ⟨i, ra, ha, rfl⟩ := insertAndEmit_ok hins₁
  obtain ⟨b, hnull⟩ := createNullifier_ok hnull
  obtain ⟨hset, haccepts, rfl⟩ := verifyCpi_ok hverify
  obtain ⟨-, -, rfl⟩ := mintDecimals_ok hdecimals
  have hexec := executed_of_write
    (s := { withdrawStatement publicInputs rootIndex circuitId with nullifiers := [] }) rfl
    (List.cons_ne_nil _ _) hpool (.single ha) rfl hwrite rfl rfl
  refine ⟨hcount, poolKey, bump, assetKey, mint, vault, destination, tokenProgram, decimals, hpoolKey,
    hassetKey, hmint, hvault, hdest, htoken, hpda, hsupported, hvalue, hrecipient, hintent, hid,
    ⟨asset, hdata, hassetMint, hassetVault⟩, pool, pool₁, _, ⟨hpaused, ?_, ?_⟩, hexec.nullify hnull,
    htransfer⟩
  · rintro i ⟨⟩
    exact hroot
  · exact ⟨registered, proof', hverifier, hset, haccepts⟩

/-- A successful `withdraw` or `withdraw_multisig`: the pool pays from the passed vault, which the
passed asset account names, and that account is not checked further. -/
theorem withdrawLike_ok {proof : Bytes 192} {publicInputs : List (Bytes 32)} {amount : UInt64}
    {rootIndex circuitId : UInt8} {u : Unit} {m m' : Machine}
    (h : withdrawLike env call proof publicInputs amount rootIndex circuitId m = .ok (u, m')) :
    publicInputs.length = 14 ∧
      ∃ poolKey bump assetKey mint vault destination tokenProgram,
        call.accounts[1]? = some poolKey ∧ call.accounts[3]? = some assetKey ∧
        call.accounts[4]? = some mint ∧ call.accounts[5]? = some vault ∧
        call.accounts[6]? = some destination ∧ call.accounts[7]? = some tokenProgram ∧
        env.pda .pool = some (poolKey, bump) ∧ tokenProgramSupported tokenProgram ∧
        input publicInputs 0 = amountField amount ∧
        input publicInputs 1 = recipientField env destination ∧
        input publicInputs 2 = Bytes.zero 32 ∧ input publicInputs 4 = assetIdField env mint ∧
        (∃ asset : Asset, asset.data = (m.ledger assetKey).data ∧ asset.mint = mint ∧
          asset.vault = vault) ∧
        ∃ pool pool' m₁, Verified env (withdrawStatement publicInputs rootIndex circuitId) pool ∧
          Executed env poolKey (withdrawStatement publicInputs rootIndex circuitId) pool pool' m m₁ ∧
          Transferred env call tokenProgram vault mint destination poolKey amount.toNat m₁ m' := by
  obtain ⟨hcount, poolKey, bump, assetKey, mint, vault, destination, tokenProgram, decimals, hpoolKey, hassetKey, hmint,
    hvault, hdest, htoken, hpda, hsupported, hvalue, hrecipient, hintent, hid, hasset, pool, pool', m₁, hverified,
    hexecuted, htransfer⟩ := withdrawLike_calls h
  obtain ⟨-, htransferred, -⟩ := invokeTransferChecked_ok htransfer
  exact ⟨hcount, poolKey, bump, assetKey, mint, vault, destination, tokenProgram, hpoolKey, hassetKey, hmint, hvault,
    hdest, htoken, hpda, hsupported, hvalue, hrecipient, hintent, hid, hasset, pool, pool', m₁, hverified, hexecuted,
    htransferred⟩

/-- The vault has data: it had, or the associated token program has just created it. -/
structure VaultOpened (env : Env) (wallet mint tokenProgram vault : Pubkey) (m m' : Machine) :
    Prop where
  same : SameOutside {vault} m.ledger m'.ledger
  log : m'.log = m.log
  kept_or_created : (m' = m ∧ (m.ledger vault).data ≠ []) ∨
    ((m.ledger vault).owner = systemProgramId ∧ (m.ledger vault).data = [] ∧
      ∃ lamports, m'.ledger vault =
        ⟨lamports, tokenProgram, env.newTokenAccount mint (m.ledger mint).data wallet lamports⟩)

/-- The transfer a successful `deposit` ends with. -/
theorem deposit_calls {proof : Bytes 192} {publicInputs : List (Bytes 32)} {amount : UInt64} {u : Unit}
    {m m' : Machine} (h : deposit env call proof publicInputs amount m = .ok (u, m')) :
    publicInputs.length = 11 ∧
      ∃ depositor poolKey assetKey mint vault depositorToken tokenProgram assetBump decimals,
        call.accounts[0]? = some depositor ∧ call.accounts[1]? = some poolKey ∧
        call.accounts[2]? = some assetKey ∧ call.accounts[3]? = some mint ∧
        call.accounts[4]? = some vault ∧ call.accounts[5]? = some depositorToken ∧
        call.accounts[6]? = some tokenProgram ∧
        call.isSigner depositor ∧ tokenProgramSupported tokenProgram ∧
        (m.ledger mint).owner = tokenProgram ∧
        input publicInputs 2 = amountField amount ∧ input publicInputs 3 = assetIdField env mint ∧
        env.pda (.asset (assetIdBytes env mint)) = some (assetKey, assetBump) ∧
        env.getAssociatedTokenAddress poolKey mint tokenProgram = some vault ∧
        ∃ pool pool' asset m₁ m₂ m₃, Verified env (depositStatement publicInputs) pool ∧
          Executed env poolKey (depositStatement publicInputs) pool pool' m m₁ ∧
          Registered env assetKey mint vault asset m₁ m₂ ∧
          VaultOpened env poolKey mint tokenProgram vault m₂ m₃ ∧
          invokeTransferChecked env call (fun _ => false) tokenProgram depositorToken mint vault depositor amount decimals
            m₃ = .ok (u, m') := by
  unfold deposit at h
  simp only [bind_eq_ok, nextAccount_eq_ok, require_eq_ok, account_eq_ok, checkCount_eq_ok,
    loadPool_eq_ok, ofResult_eq_ok, findPda_eq_ok, ofOption_eq_ok, and_assoc, exists_and_left,
    exists_eq_left', exists_const] at h
  obtain ⟨depositor, hdepositor, poolKey, hpoolKey, assetKey, hassetKey, mint, hmint, vault, hvault,
    depositorToken, hdepositorToken, tokenProgram, htoken, ataProgram, -, _, -, verifierKey, -, hsigner,
    hsupported, -, hcount, hmintOwner, hamount, hid, pool, hpool, hpaused, registered, hverifier, pool₁,
    m₁, hins₁, _, m₂, hwrite, proof', -, _, m₃, hverify, ⟨expected, assetBump⟩, hpda, hexpected,
    expectedVault, hata, hvaultEq, _, m₄, hregister, _, m₅, hopen, decimals, m₆, hdecimals,
    htransfer⟩ := h
  subst hexpected
  subst hvaultEq
  obtain ⟨i, ra, ha, rfl⟩ := insertAndEmit_ok hins₁
  obtain ⟨hset, haccepts, rfl⟩ := verifyCpi_ok hverify
  obtain ⟨asset, hregistered⟩ := registerAsset_ok hregister
  obtain ⟨-, -, rfl⟩ := mintDecimals_ok hdecimals
  have hexec := executed_of_write (s := depositStatement publicInputs) rfl (List.cons_ne_nil _ _)
    hpool (.single ha) rfl hwrite rfl rfl
  have hopened : VaultOpened env poolKey mint tokenProgram vault m₄ m₆ := by
    rcases whenever_eq_ok.1 hopen with ⟨hempty, hcreate⟩ | ⟨hused, rfl⟩
    · obtain ⟨ata, hata', howner, hdata, -, hlamports, hsame, hlog⟩ :=
        createAssociatedTokenAccount_ok hcreate
      rw [hata, Option.some_inj] at hata'
      subst hata'
      exact ⟨hsame, hlog, Or.inr ⟨howner, hdata, hlamports⟩⟩
    · exact ⟨SameOutside.refl _ _, rfl, Or.inl ⟨rfl, hused⟩⟩
  refine ⟨hcount, depositor, poolKey, assetKey, mint, vault, depositorToken, tokenProgram, assetBump, decimals,
    hdepositor, hpoolKey, hassetKey, hmint, hvault, hdepositorToken, htoken, hsigner, hsupported,
    hmintOwner, hamount, hid, hpda, hata, pool, pool₁, asset, _, _, _, ⟨hpaused, ?_, ?_⟩, hexec,
    hregistered, hopened, htransfer⟩
  · rintro i ⟨⟩
  · exact ⟨registered, proof', hverifier, hset, haccepts⟩

/-- A successful `deposit`: the statement is executed on the passed pool account, the asset is
registered with the pool's associated vault, the vault is opened and the tokens are moved into it. -/
theorem deposit_ok {proof : Bytes 192} {publicInputs : List (Bytes 32)} {amount : UInt64} {u : Unit}
    {m m' : Machine} (h : deposit env call proof publicInputs amount m = .ok (u, m')) :
    publicInputs.length = 11 ∧
      ∃ depositor poolKey assetKey mint vault depositorToken tokenProgram assetBump,
        call.accounts[0]? = some depositor ∧ call.accounts[1]? = some poolKey ∧
        call.accounts[2]? = some assetKey ∧ call.accounts[3]? = some mint ∧
        call.accounts[4]? = some vault ∧ call.accounts[5]? = some depositorToken ∧
        call.accounts[6]? = some tokenProgram ∧
        call.isSigner depositor ∧ tokenProgramSupported tokenProgram ∧
        (m.ledger mint).owner = tokenProgram ∧
        input publicInputs 2 = amountField amount ∧ input publicInputs 3 = assetIdField env mint ∧
        env.pda (.asset (assetIdBytes env mint)) = some (assetKey, assetBump) ∧
        env.getAssociatedTokenAddress poolKey mint tokenProgram = some vault ∧
        ∃ pool pool' asset m₁ m₂ m₃, Verified env (depositStatement publicInputs) pool ∧
          Executed env poolKey (depositStatement publicInputs) pool pool' m m₁ ∧
          Registered env assetKey mint vault asset m₁ m₂ ∧
          VaultOpened env poolKey mint tokenProgram vault m₂ m₃ ∧
          Transferred env call tokenProgram depositorToken mint vault depositor amount.toNat m₃ m' := by
  obtain ⟨hcount, depositor, poolKey, assetKey, mint, vault, depositorToken, tokenProgram, assetBump, decimals, hdepositor,
    hpoolKey, hassetKey, hmint, hvault, hdepositorToken, htoken, hsigner, hsupported, hmintOwner, hamount, hid, hpda, hata,
    pool, pool', asset, m₁, m₂, m₃, hverified, hexecuted, hregistered, hopened, htransfer⟩ := deposit_calls h
  obtain ⟨-, htransferred, -⟩ := invokeTransferChecked_ok htransfer
  exact ⟨hcount, depositor, poolKey, assetKey, mint, vault, depositorToken, tokenProgram, assetBump, hdepositor, hpoolKey,
    hassetKey, hmint, hvault, hdepositorToken, htoken, hsigner, hsupported, hmintOwner, hamount, hid, hpda, hata, pool,
    pool', asset, m₁, m₂, m₃, hverified, hexecuted, hregistered, hopened, htransferred⟩

/-! ## Administration -/

/-- The authority's signed change of the pool account. -/
structure Administered (env : Env) (call : Call) (poolKey : Pubkey) (pool pool' : Pool)
    (m m' : Machine) : Prop where
  pda : ∃ bump, env.pda .pool = some (poolKey, bump)
  account : call.accounts[0]? = some pool.authority
  signer : call.isSigner pool.authority
  pool_before : pool.data = (m.ledger poolKey).data
  pool_after : (m'.ledger poolKey).data = pool'.data
  owner_before : (m.ledger poolKey).owner = env.programId
  owner_after : (m'.ledger poolKey).owner = env.programId
  same : SameOutside {poolKey} m.ledger m'.ledger

/-- The administration handlers' common end. -/
theorem administered_of_write {poolKey authority : Pubkey} {pool pool' : Pool} {m m₀ m' : Machine}
    {u : Unit} (hpda : ∃ bump, env.pda .pool = some (poolKey, bump)) (hsigner : call.isSigner authority)
    (howner : (m.ledger poolKey).owner = env.programId) (hpool : pool.data = (m.ledger poolKey).data)
    (hauthority : pool.authority = authority) (haccount : call.accounts[0]? = some authority)
    (hwrite : writeData env call poolKey pool'.data m₀ = .ok (u, m')) (hledger : m₀.ledger = m.ledger) :
    Administered env call poolKey pool pool' m m' ∧ m'.log = m₀.log := by
  obtain ⟨hdata, howner', -, hsame, hlog, -⟩ := writeData_ok hwrite
  rw [hledger] at howner' hsame
  subst hauthority
  exact ⟨⟨hpda, haccount, hsigner, hpool, hdata, howner, howner'.trans howner, hsame⟩, hlog⟩

/-- A successful `set_verifier`. -/
theorem setVerifier_ok {circuitId : UInt8} {program : Pubkey} {u : Unit} {m m' : Machine}
    (h : setVerifier env call circuitId program m = .ok (u, m')) :
    ∃ poolKey pool pool', Administered env call poolKey pool pool' m m' ∧
      pool.setVerifier circuitId program = .ok pool' ∧ m'.log = m.log := by
  unfold setVerifier at h
  simp only [bind_eq_ok, loadPool_eq_ok, require_eq_ok, ofResult_eq_ok] at h
  obtain ⟨⟨authority, poolKey⟩, _, hload, pool, _, ⟨hpool, rfl⟩, _, _, ⟨hauthority, rfl⟩, pool', _,
    ⟨hset, rfl⟩, hwrite⟩ := h
  obtain ⟨haccount, hsigner, hpda, howner, rfl⟩ := loadPoolAuthority_ok hload
  obtain ⟨hadmin, hlog⟩ := administered_of_write hpda hsigner howner hpool hauthority haccount hwrite rfl
  exact ⟨poolKey, pool, pool', hadmin, hset, hlog⟩

/-- A successful `rotate_compliance_key`. -/
theorem rotateComplianceKey_ok {x y : Bytes 32} {u : Unit} {m m' : Machine}
    (h : rotateComplianceKey env call x y m = .ok (u, m')) :
    ∃ poolKey pool, pool.complianceVersion + 1 < 2 ^ 32 ∧
      Administered env call poolKey pool
        ((pool.setCompliancePk x y).setComplianceVersion (pool.complianceVersion + 1)) m m' ∧
      m'.log = m.log ++
        [.complianceKeyRotated pool.complianceVersion (pool.complianceVersion + 1) x y] := by
  unfold rotateComplianceKey at h
  simp only [bind_eq_ok, loadPool_eq_ok, require_eq_ok, emit_eq_ok] at h
  obtain ⟨⟨authority, poolKey⟩, _, hload, pool, _, ⟨hpool, rfl⟩, _, _, ⟨hauthority, rfl⟩, _, _,
    ⟨hroom, rfl⟩, _, _, rfl, hwrite⟩ := h
  obtain ⟨haccount, hsigner, hpda, howner, rfl⟩ := loadPoolAuthority_ok hload
  obtain ⟨hadmin, hlog⟩ := administered_of_write hpda hsigner howner hpool hauthority haccount hwrite rfl
  exact ⟨poolKey, pool, hroom, hadmin, hlog⟩

/-- A successful `set_paused`. -/
theorem setPaused_ok {paused : Bool} {u : Unit} {m m' : Machine}
    (h : setPaused env call paused m = .ok (u, m')) :
    ∃ poolKey pool, Administered env call poolKey pool (pool.setPaused paused) m m' ∧
      m'.log = m.log := by
  unfold setPaused at h
  simp only [bind_eq_ok, loadPool_eq_ok, require_eq_ok] at h
  obtain ⟨⟨authority, poolKey⟩, _, hload, pool, _, ⟨hpool, rfl⟩, _, _, ⟨hauthority, rfl⟩, hwrite⟩ := h
  obtain ⟨haccount, hsigner, hpda, howner, rfl⟩ := loadPoolAuthority_ok hload
  obtain ⟨hadmin, hlog⟩ := administered_of_write hpda hsigner howner hpool hauthority haccount hwrite rfl
  exact ⟨poolKey, pool, hadmin, hlog⟩

/-- The upgrade authority that the program's `ProgramData` account records. -/
def IsUpgradeAuthority (env : Env) (L : Ledger) (authority : Pubkey) : Prop :=
  ∃ key bump, env.findProgramAddress [env.programId.val] bpfLoaderUpgradeableProgramId =
      some (key, bump) ∧ (L key).owner = bpfLoaderUpgradeableProgramId ∧
    upgradeAuthority (L key).data = .ok (some authority)

theorem requireUpgradeAuthority_ok {authority programData : Pubkey} {u : Unit} {m m' : Machine}
    (h : requireUpgradeAuthority env authority programData m = .ok (u, m')) :
    IsUpgradeAuthority env m.ledger authority ∧ m' = m := by
  unfold requireUpgradeAuthority at h
  simp only [bind_eq_ok, ofOption_eq_ok, require_eq_ok, account_eq_ok, ofResult_eq_ok] at h
  obtain ⟨⟨key, bump⟩, _, ⟨hfind, rfl⟩, _, _, ⟨rfl, rfl⟩, a, _, ⟨rfl, rfl⟩, _, _, ⟨howner, rfl⟩, upgrade,
    _, ⟨hupgrade, rfl⟩, rfl, rfl⟩ := h
  exact ⟨⟨_, bump, hfind, howner, hupgrade⟩, rfl⟩

/-- The pool `initialize` writes before it inserts the genesis leaf. -/
def genesisPool (authority : Pubkey) (compliancePkX compliancePkY : Bytes 32)
    (verifiers : Fin 7 → Pubkey) : Pool :=
  (((((Pool.empty.setAuthority authority).setPaused false).setComplianceVersion 0).setCompliancePk
    compliancePkX compliancePkY).setAllVerifiers verifiers).setNextLeafIndex 0

/-- The insert event of the genesis leaf. -/
def genesisEvent (genesisLeaf root : Bytes 32) : NoteInserted :=
  ⟨0, genesisLeaf, Bytes.zero 32, none, none, List.replicate 7 (Bytes.zero 32), root⟩

/-- The effect of a successful `initialize`: the pool account is new and holds one leaf. -/
structure Initialized (env : Env) (call : Call) (compliancePkX compliancePkY : Bytes 32)
    (verifiers : Fin 7 → Pubkey) (genesisLeaf : Bytes 32) (authority poolKey : Pubkey) (pool : Pool)
    (m m' : Machine) : Prop where
  pda : ∃ bump, env.pda .pool = some (poolKey, bump)
  account : call.accounts[0]? = some authority
  signer : call.isSigner authority
  upgrade : IsUpgradeAuthority env m.ledger authority
  owner_before : (m.ledger poolKey).owner ≠ env.programId
  data_before : (m.ledger poolKey).data = []
  owner_after : (m'.ledger poolKey).owner = env.programId
  pool_after : (m'.ledger poolKey).data = pool.data
  inserted : ∃ index root, insert env.poseidon
      (genesisPool authority compliancePkX compliancePkY verifiers) genesisLeaf =
        .ok (pool, index, root) ∧
    m'.log = m.log ++ [.noteInserted { genesisEvent genesisLeaf root with leafIndex := index }]
  same : SameOutside {poolKey} m.ledger m'.ledger

theorem initializePool_ok {compliancePkX compliancePkY : Bytes 32} {verifiers : Fin 7 → Pubkey}
    {genesisLeaf : Bytes 32} {u : Unit} {m m' : Machine}
    (h : initializePool env call compliancePkX compliancePkY verifiers genesisLeaf m = .ok (u, m')) :
    ∃ authority poolKey pool, Initialized env call compliancePkX compliancePkY verifiers genesisLeaf
      authority poolKey pool m m' := by
  unfold initializePool at h
  simp only [bind_eq_ok, nextAccount_eq_ok, require_eq_ok, findPda_eq_ok, loadPool_eq_ok, and_assoc,
    exists_and_left, exists_eq_left', exists_const] at h
  obtain ⟨authority, haccount, poolKey, -, programData, -, _, -, hsigner, _, m₁, hupgrade, ⟨key, bump⟩, hpda,
    rfl, _, m₂, hcreate, pool₀, hpool₀, pool, m₃, hins, hwrite⟩ := h
  obtain ⟨hauthority, rfl⟩ := requireUpgradeAuthority_ok hupgrade
  obtain ⟨howner, hdata, howner₂, hdata₂, hsame₂, hlog₂⟩ := createPdaIfNeeded_ok hcreate
  obtain ⟨index, root, hinsert, rfl⟩ := insertAndEmit_ok hins
  obtain ⟨hdata₃, howner₃, -, hsame₃, hlog₃, -⟩ := writeData_ok hwrite
  have hfresh : pool₀ = Pool.empty := by
    cases pool₀
    cases hpool₀.trans hdata₂
    rfl
  subst hfresh
  refine ⟨authority, _, pool, ⟨bump, hpda⟩, haccount, hsigner, hauthority, howner, hdata,
    howner₃.trans howner₂, hdata₃, ⟨index, root, hinsert, ?_⟩, hsame₂.trans hsame₃⟩
  rw [hlog₃]
  show m₂.log ++ _ = _
  rw [hlog₂]
  rfl

end Kakure
