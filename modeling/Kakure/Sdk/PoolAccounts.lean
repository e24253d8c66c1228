import Kakure.Pool.Ring

/-!
# The client's view of the pool account

`decodePool` and `rootIndexFor` of `packages/sdk/src/solana/poolAccounts.ts`, with the
offsets as that file has them.

* `decodePool_data` — the decoder reads what the program's getters return;
* `rootIndexFor_eq_some_iff`, `rootIndexFor_eq_none_iff` — the backward search finds the
  slot of a root's latest push, if the ring still shows it.
-/

namespace Kakure.Sdk

open Slices

/-! ## The decoder -/

def OFF_AUTHORITY : ℕ := 0
def OFF_PAUSED : ℕ := 32
def OFF_COMPLIANCE_VERSION : ℕ := 33
def OFF_COMPLIANCE_PK_X : ℕ := 37
def OFF_COMPLIANCE_PK_Y : ℕ := 69
def OFF_VERIFIERS : ℕ := 101
def OFF_NEXT_LEAF_INDEX : ℕ := OFF_VERIFIERS + 7 * 32
def OFF_SIDE_NODES : ℕ := OFF_NEXT_LEAF_INDEX + 8
def OFF_ROOT_CURSOR : ℕ := OFF_SIDE_NODES + 32 * 32
def OFF_ROOTS : ℕ := OFF_ROOT_CURSOR + 1
def POOL_LEN : ℕ := OFF_ROOTS + 256 * 32

/-- `PoolAccount`. -/
structure PoolAccount where
  authority : Pubkey
  paused : Bool
  complianceVersion : ℕ
  compliancePkX : Bytes 32
  compliancePkY : Bytes 32
  verifiers : List Pubkey
  nextLeafIndex : ℕ
  sideNodes : List (Bytes 32)
  rootCursor : ℕ
  roots : List (Bytes 32)

/-- `slice32`. -/
def slice32 (data : List UInt8) (offset : ℕ) : Bytes 32 := readAt 32 data offset

/-- `decodePool`. -/
def decodePool (data : List UInt8) : Except String PoolAccount :=
  if data.length ≠ POOL_LEN then .error ("decodePool: expected 9550 bytes, got " ++ toString data.length)
  else .ok {
    authority := slice32 data OFF_AUTHORITY
    paused := data.getD OFF_PAUSED 0 != 0
    complianceVersion := leNat (readAt 4 data OFF_COMPLIANCE_VERSION).val
    compliancePkX := slice32 data OFF_COMPLIANCE_PK_X
    compliancePkY := slice32 data OFF_COMPLIANCE_PK_Y
    verifiers := (List.range 7).map fun i => slice32 data (OFF_VERIFIERS + i * 32)
    nextLeafIndex := leNat (readAt 8 data OFF_NEXT_LEAF_INDEX).val
    sideNodes := (List.range 32).map fun level => slice32 data (OFF_SIDE_NODES + level * 32)
    rootCursor := (data.getD OFF_ROOT_CURSOR 0).toNat
    roots := (List.range 256).map fun i => slice32 data (OFF_ROOTS + i * 32) }

theorem readAt_one {data : List UInt8} {off : ℕ} (h : off < data.length) :
    (readAt 1 data off).val = [data.getD off 0] := by
  rw [readAt_of_le (by omega), List.drop_eq_getElem_cons h, List.take_succ_cons, List.take_zero,
    List.getD_eq_getElem _ _ h]

/-- What the decoder reads from a pool account is what the program's getters return. -/
theorem decodePool_data (p : Pool) :
    ∃ a, decodePool p.data = .ok a ∧ a.authority = p.authority ∧ a.paused = p.paused ∧
      a.complianceVersion = p.complianceVersion ∧ a.compliancePkX = p.compliancePkX ∧
      a.compliancePkY = p.compliancePkY ∧ a.verifiers.length = 7 ∧
      (∀ i : Fin 7, p.verifier (UInt8.ofNat i) = .ok (a.verifiers.getD i Pubkey.default)) ∧
      a.nextLeafIndex = p.nextLeafIndex ∧ a.sideNodes.length = 32 ∧
      (∀ level : Fin 32, a.sideNodes[(level : ℕ)]? = some (p.sideNode level)) ∧
      a.rootCursor = p.rootCursor.toNat ∧ a.roots.length = 256 ∧
      ∀ idx : UInt8, a.roots[idx.toNat]? = some (p.rootAt idx) := by
  have hlen : p.data.length = POOL_LEN := p.length_data
  have hlen' : p.data.length = 9550 := hlen
  refine ⟨_, if_neg (not_not.2 hlen), rfl, ?_, rfl, rfl, rfl, by simp, ?_, rfl, by simp, ?_, ?_,
    by simp, ?_⟩
  · -- one byte compared with zero
    have hbyte : (p.get .paused).val = [p.data.getD OFF_PAUSED 0] :=
      readAt_one (by rw [hlen']; decide)
    unfold Pool.paused
    rw [hbyte]
    show (p.data.getD OFF_PAUSED 0 != 0) = ([p.data.getD OFF_PAUSED 0] != [0])
    generalize p.data.getD OFF_PAUSED 0 = b
    simp [bne]
  · intro i
    have hi : (UInt8.ofNat i).toNat = i := toNat_ofNat_of_lt (lt_trans i.isLt (by decide))
    have hlt : ¬ (UInt8.ofNat (i : ℕ)).toNat ≥ numVerifiers := by
      rw [hi]
      exact not_le.2 i.isLt
    have hfin : (⟨(UInt8.ofNat (i : ℕ)).toNat, not_le.1 hlt⟩ : Fin 7) = i := Fin.ext hi
    unfold Pool.verifier
    rw [dif_neg hlt, hfin, List.getD_eq_getElem?_getD, List.getElem?_map, List.getElem?_range i.isLt]
    rfl
  · intro level
    rw [List.getElem?_map, List.getElem?_range level.isLt]
    rfl
  · have hbyte : (p.get .rootCursor).val = [p.data.getD OFF_ROOT_CURSOR 0] :=
      readAt_one (by rw [hlen']; decide)
    unfold Pool.rootCursor
    rw [hbyte]
    rfl
  · intro idx
    rw [List.getElem?_map, List.getElem?_range idx.toNat_lt]
    rfl

/-! ## Finding a root in the ring -/

/-- The slot looked at in a step of the search, walking backward from the cursor. -/
def searchSlot (pool : PoolAccount) (step : ℕ) : ℕ :=
  (((pool.rootCursor : ℤ) - 1 - step + 256 * 2) % 256).toNat

/-- `rootIndexFor`. -/
def rootIndexFor (pool : PoolAccount) (root : List UInt8) : Except String (Option ℕ) :=
  if root.length ≠ 32 then .error ("rootIndexFor: root must be 32 bytes, got " ++ toString root.length)
  else .ok (((List.range 256).find? fun step =>
    (pool.roots[searchSlot pool step]?.map Subtype.val) = some root).map (searchSlot pool))

section Search

variable {p : Pool} {a : PoolAccount} {pushed : List (Bytes 32)}
  (hshows : p.Shows pushed) (hcursor : a.rootCursor = p.rootCursor.toNat)
  (hroots : ∀ idx : UInt8, a.roots[idx.toNat]? = some (p.rootAt idx))

include hshows hcursor hroots

/-- Step `step` of the search looks at the push `step` before the last one. -/
theorem searchSlot_of_lt {step : ℕ} (h : step < pushed.length) (hstep : step < 256) :
    searchSlot a step = (pushed.length - 1 - step) % 256 ∧
      a.roots[searchSlot a step]? = pushed[pushed.length - 1 - step]? := by
  have hc := hshows.cursor
  have hslot : searchSlot a step = (pushed.length - 1 - step) % 256 := by
    have hring : rootRing = 256 := rfl
    rw [hring] at hc
    unfold searchSlot
    rw [hcursor, hc]
    omega
  have hk : pushed.length - 1 - step < pushed.length := by omega
  refine ⟨hslot, ?_⟩
  have hget := hroots (UInt8.ofNat (pushed.length - 1 - step))
  have hle : pushed.length ≤ pushed.length - 1 - step + 256 := by omega
  rw [rootAt_of_shows hshows (List.getElem?_eq_getElem hk) hle, UInt8.toNat_ofNat'] at hget
  rw [hslot, hget, List.getElem?_eq_getElem hk]

/-- Beyond the first push the search looks at blank slots. -/
theorem searchSlot_of_ge {step : ℕ} (h : pushed.length ≤ step) (hstep : step < 256) :
    a.roots[searchSlot a step]? = some (Bytes.zero 32) := by
  have hc := hshows.cursor
  have hring : rootRing = 256 := rfl
  rw [hring] at hc
  have hslot : searchSlot a step = 255 + pushed.length - step := by
    unfold searchSlot
    rw [hcursor, hc]
    omega
  have hlt : searchSlot a step < 256 := by omega
  have hget := hroots (UInt8.ofNat (searchSlot a step))
  rw [toNat_ofNat_of_lt hlt] at hget
  rw [hget, rootAt_of_length_le hshows]
  rw [toNat_ofNat_of_lt hlt]
  omega

/-- A nonzero root is found in a step exactly where the push looked at is that root. -/
theorem found_iff {root : Bytes 32} (hroot : root ≠ Bytes.zero 32) {step : ℕ} (hstep : step < 256) :
    a.roots[searchSlot a step]?.map Subtype.val = some root.val ↔
      step < pushed.length ∧ pushed[pushed.length - 1 - step]? = some root := by
  have hval : ∀ o : Option (Bytes 32), o.map Subtype.val = some root.val ↔ o = some root := by
    intro o
    cases o with
    | none => simp
    | some b => simp [Subtype.ext_iff]
  rw [hval]
  rcases Nat.lt_or_ge step pushed.length with hlt | hge
  · rw [(searchSlot_of_lt hshows hcursor hroots hlt hstep).2]
    simp [hlt]
  · rw [searchSlot_of_ge hshows hcursor hroots hge hstep]
    constructor
    · intro h
      exact absurd (Option.some_inj.1 h).symm hroot
    · rintro ⟨hlt, -⟩
      omega

/-- The search returns the slot of the latest push of a root, if that is one of the last 256. -/
theorem rootIndexFor_eq_some_iff {root : Bytes 32} (hroot : root ≠ Bytes.zero 32) {idx : ℕ} :
    rootIndexFor a root.val = .ok (some idx) ↔
      ∃ k, pushed[k]? = some root ∧ (∀ k', k < k' → pushed[k']? ≠ some root) ∧
        pushed.length ≤ k + 256 ∧ idx = k % 256 := by
  unfold rootIndexFor
  rw [if_neg (not_not.2 root.2), Except.ok.injEq, Option.map_eq_some_iff]
  simp only [List.find?_range_eq_some, List.mem_range, decide_eq_true_eq, Bool.not_eq_true',
    decide_eq_false_iff_not]
  constructor
  · rintro ⟨step, ⟨hfound, hstep, hbefore⟩, rfl⟩
    obtain ⟨hlt, hpush⟩ := (found_iff hshows hcursor hroots hroot hstep).1 hfound
    refine ⟨pushed.length - 1 - step, hpush, fun k' hk' hroot' => ?_, by omega,
      (searchSlot_of_lt hshows hcursor hroots hlt hstep).1⟩
    -- a later push would have been met in an earlier step
    have hk'lt : k' < pushed.length := by
      by_contra hge
      rw [List.getElem?_eq_none (not_lt.1 hge)] at hroot'
      cases hroot'
    have hearlier : pushed.length - 1 - k' < step := by omega
    refine hbefore _ hearlier ((found_iff hshows hcursor hroots hroot (by omega)).2 ⟨by omega, ?_⟩)
    rwa [show pushed.length - 1 - (pushed.length - 1 - k') = k' by omega]
  · rintro ⟨k, hk, hlatest, hle, rfl⟩
    have hklt : k < pushed.length := by
      by_contra hge
      rw [List.getElem?_eq_none (not_lt.1 hge)] at hk
      cases hk
    have hback : pushed.length - 1 - (pushed.length - 1 - k) = k := by omega
    refine ⟨pushed.length - 1 - k, ⟨?_, by omega, fun step hstep hfound => ?_⟩, ?_⟩
    · refine (found_iff hshows hcursor hroots hroot (by omega)).2 ⟨by omega, ?_⟩
      rwa [hback]
    · obtain ⟨hlt, hpush⟩ := (found_iff hshows hcursor hroots hroot (by omega)).1 hfound
      exact hlatest (pushed.length - 1 - step) (by omega) hpush
    · rw [(searchSlot_of_lt hshows hcursor hroots (by omega) (by omega)).1, hback]

/-- The search finds nothing exactly where no slot of the ring shows the root. -/
theorem rootIndexFor_eq_none_iff {root : Bytes 32} (hroot : root ≠ Bytes.zero 32) :
    rootIndexFor a root.val = .ok none ↔ ∀ idx, p.rootAt idx ≠ root := by
  unfold rootIndexFor
  rw [if_neg (not_not.2 root.2), Except.ok.injEq, Option.map_eq_none_iff, List.find?_eq_none]
  simp only [List.mem_range, decide_eq_true_eq]
  constructor
  · intro h idx hidx
    have hne : pushed.length ≤ idx.toNat → False := fun hge =>
      hroot (hidx.symm.trans (rootAt_of_length_le hshows hge))
    obtain ⟨k, x, hmod, hk, hle, hx⟩ := (Ring.Holds.slot_cases rootRing_pos hshows
      (toNat_lt_rootRing idx)).resolve_left fun hblank => hne hblank.1
    rw [UInt8.ofNat_toNat, hidx] at hx
    subst hx
    have hklt : k < pushed.length := (List.getElem?_eq_some_iff.1 hk).1
    have hring : rootRing = 256 := rfl
    rw [hring] at hle
    refine h (pushed.length - 1 - k) (by omega)
      ((found_iff hshows hcursor hroots hroot (by omega)).2 ⟨by omega, ?_⟩)
    rwa [show pushed.length - 1 - (pushed.length - 1 - k) = k by omega]
  · intro h step hstep hfound
    obtain ⟨hlt, hpush⟩ := (found_iff hshows hcursor hroots hroot hstep).1 hfound
    have hle : pushed.length ≤ pushed.length - 1 - step + 256 := by omega
    exact h _ (rootAt_of_shows hshows hpush hle)

end Search

end Kakure.Sdk
