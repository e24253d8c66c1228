import Kakure.Curve.Primes
import Kakure.Pool.Error

/-!
# The pool account

The fixed-offset layout of `state.rs`.  `Pool` is a buffer of exactly `POOL_LEN`
bytes; `PoolField` lists its fields with their offsets and widths, and every
getter and setter of the source reads or overwrites one of them.

* `PoolField.disjoint` — different fields do not overlap, and all of them lie
  inside the buffer (`PoolField.end_le`);
* `get_set_same`, `get_set_of_ne` — hence a setter changes its own field and
  nothing else;
* `pushRoot` — the ring write, with `rootAt_pushRoot` for what it leaves in
  every slot.
-/

namespace Kakure

open Slices

/-- A Solana address. -/
abbrev Pubkey := Bytes 32

/-- `Pubkey::default()`: the all-zero address, which is also the system program's. -/
def Pubkey.default : Pubkey := Bytes.zero 32

def treeDepth : ℕ := 32
def rootRing : ℕ := 256
def numVerifiers : ℕ := 7

/-! ## Layout -/

/-- `POOL_SEED = b"pool"`. -/
def poolSeed : List UInt8 := [112, 111, 111, 108]

def offAuthority : ℕ := 0
def offPaused : ℕ := 32
def offComplianceVersion : ℕ := 33
def offCompliancePkX : ℕ := 37
def offCompliancePkY : ℕ := 69
def offVerifiers : ℕ := 101
def offNextLeafIndex : ℕ := offVerifiers + numVerifiers * 32
def offSideNodes : ℕ := offNextLeafIndex + 8
def offRootCursor : ℕ := offSideNodes + treeDepth * 32
def offRoots : ℕ := offRootCursor + 1
def poolLen : ℕ := offRoots + rootRing * 32

/-- The fields of the pool account, the slots of a table one by one. -/
inductive PoolField where
  | authority
  | paused
  | complianceVersion
  | compliancePkX
  | compliancePkY
  | verifier (circuitId : Fin 7)
  | nextLeafIndex
  | sideNode (level : Fin 32)
  | rootCursor
  | root (idx : UInt8)
  deriving DecidableEq

namespace PoolField

def off : PoolField → ℕ
  | authority => offAuthority
  | paused => offPaused
  | complianceVersion => offComplianceVersion
  | compliancePkX => offCompliancePkX
  | compliancePkY => offCompliancePkY
  | verifier circuitId => offVerifiers + circuitId.val * 32
  | nextLeafIndex => offNextLeafIndex
  | sideNode level => offSideNodes + level.val * 32
  | rootCursor => offRootCursor
  | root idx => offRoots + idx.toNat * 32

@[reducible] def width : PoolField → ℕ
  | paused | rootCursor => 1
  | complianceVersion => 4
  | nextLeafIndex => 8
  | _ => 32

/-- The part of the account `merkle::insert` writes. -/
def isTree : PoolField → Bool
  | nextLeafIndex | sideNode _ | rootCursor | root _ => true
  | _ => false

/-- Every field lies inside the account. -/
theorem end_le (f : PoolField) : f.off + f.width ≤ poolLen := by
  cases f with
  | root idx =>
    have := idx.toNat_lt
    simp only [off, width, poolLen, rootRing]
    omega
  | _ => simp only [off, width, poolLen, offAuthority, offPaused, offComplianceVersion,
      offCompliancePkX, offCompliancePkY, offVerifiers, offNextLeafIndex, offSideNodes, offRootCursor,
      offRoots, rootRing, treeDepth, numVerifiers]; omega

/-- The fields in the order of their offsets. -/
theorem off_lt_or_of_ne {f g : PoolField} (h : f ≠ g) :
    f.off + f.width ≤ g.off ∨ g.off + g.width ≤ f.off := by
  cases f <;> cases g <;>
    simp only [off, width, offAuthority, offPaused, offComplianceVersion, offCompliancePkX,
      offCompliancePkY, offVerifiers, offNextLeafIndex, offSideNodes, offRootCursor, offRoots,
      treeDepth, numVerifiers, ne_eq, not_true_eq_false, verifier.injEq, sideNode.injEq, root.injEq,
      Fin.ext_iff, ← UInt8.toNat_inj] at h ⊢ <;>
    omega

end PoolField

/-! ## Getters and setters -/

/-- The pool account's data. -/
structure Pool where
  data : List UInt8
  length_data : data.length = poolLen

namespace Pool

/-- `Pool::new`: only the length is checked. -/
def new (data : List UInt8) : Except ProgramError Pool :=
  if h : data.length = poolLen then .ok ⟨data, h⟩ else .error .invalidAccountData

theorem new_eq_ok_iff {data : List UInt8} {p : Pool} : new data = .ok p ↔ p.data = data := by
  unfold new
  constructor
  · intro h
    split at h
    · cases h
      rfl
    · cases h
  · intro h
    obtain ⟨d, hd⟩ := p
    cases h
    exact dif_pos hd

/-- A freshly allocated account: all zero. -/
def empty : Pool := ⟨List.replicate poolLen 0, List.length_replicate⟩

/-- Read one field. -/
def get (p : Pool) (f : PoolField) : Bytes f.width := readAt f.width p.data f.off

/-- Overwrite one field. -/
def set (p : Pool) (f : PoolField) (v : Bytes f.width) : Pool :=
  ⟨writeAt p.data f.off v.val, (length_writeAt _ _ _).trans p.length_data⟩

/-- The field just written is read back. -/
@[simp] theorem get_set_same (p : Pool) (f : PoolField) (v : Bytes f.width) :
    (p.set f v).get f = v :=
  readAt_writeAt_same v (by rw [p.length_data]; exact f.end_le)

/-- Every other field is unchanged. -/
theorem get_set_of_ne (p : Pool) {f g : PoolField} (v : Bytes f.width) (h : g ≠ f) :
    (p.set f v).get g = p.get g := by
  have hf := f.end_le
  have hg := g.end_le
  refine readAt_writeAt_disjoint ?_ ?_ ?_
  · rw [p.length_data, v.2]
    exact hf
  · rw [p.length_data]
    exact hg
  · rw [v.2]
    exact PoolField.off_lt_or_of_ne h

/-- Every field of a fresh account reads as zero. -/
@[simp] theorem get_empty (f : PoolField) : empty.get f = Bytes.zero f.width := by
  refine Subtype.ext ?_
  simp [get, empty, readAt, Bytes.zero]

def authority (p : Pool) : Pubkey := p.get .authority
def setAuthority (p : Pool) (k : Pubkey) : Pool := p.set .authority k

def paused (p : Pool) : Bool := (p.get .paused).val != [0]
def setPaused (p : Pool) (v : Bool) : Pool := p.set .paused ⟨[if v then 1 else 0], rfl⟩

def complianceVersion (p : Pool) : ℕ := leNat (p.get .complianceVersion).val
def setComplianceVersion (p : Pool) (v : ℕ) : Pool := p.set .complianceVersion (leBytes 4 v)

def compliancePkX (p : Pool) : Bytes 32 := p.get .compliancePkX
def compliancePkY (p : Pool) : Bytes 32 := p.get .compliancePkY
def setCompliancePk (p : Pool) (x y : Bytes 32) : Pool :=
  (p.set .compliancePkX x).set .compliancePkY y

def verifier (p : Pool) (circuitId : UInt8) : Except ProgramError Pubkey :=
  if h : circuitId.toNat ≥ numVerifiers then .error .invalidArgument
  else .ok (p.get (.verifier ⟨circuitId.toNat, not_le.1 h⟩))

def setVerifier (p : Pool) (circuitId : UInt8) (program : Pubkey) : Except ProgramError Pool :=
  if h : circuitId.toNat ≥ numVerifiers then .error .invalidArgument
  else .ok (p.set (.verifier ⟨circuitId.toNat, not_le.1 h⟩) program)

def setAllVerifiers (p : Pool) (verifiers : Fin 7 → Pubkey) : Pool :=
  (List.finRange 7).foldl (fun p i => p.set (.verifier i) (verifiers i)) p

def nextLeafIndex (p : Pool) : ℕ := leNat (p.get .nextLeafIndex).val
def setNextLeafIndex (p : Pool) (v : ℕ) : Pool := p.set .nextLeafIndex (leBytes 8 v)

def sideNode (p : Pool) (level : Fin 32) : Bytes 32 := p.get (.sideNode level)
def setSideNode (p : Pool) (level : Fin 32) (v : Bytes 32) : Pool := p.set (.sideNode level) v

def rootCursor (p : Pool) : UInt8 := (p.get .rootCursor).val.headD 0
def setRootCursor (p : Pool) (v : UInt8) : Pool := p.set .rootCursor ⟨[v], rfl⟩

def rootAt (p : Pool) (idx : UInt8) : Bytes 32 := p.get (.root idx)
def setRootAt (p : Pool) (idx : UInt8) (v : Bytes 32) : Pool := p.set (.root idx) v

/-- Push a new root into the 256-slot ring buffer, advancing the cursor. -/
def pushRoot (p : Pool) (root : Bytes 32) : Pool :=
  (p.setRootAt p.rootCursor root).setRootCursor (p.rootCursor + 1)

/-! ## What a root push leaves -/

@[simp] theorem rootCursor_pushRoot (p : Pool) (root : Bytes 32) :
    (p.pushRoot root).rootCursor = p.rootCursor + 1 := by
  unfold pushRoot setRootCursor
  rw [rootCursor, get_set_same]
  rfl

/-- The slot under the cursor holds the new root, every other slot what it held. -/
theorem rootAt_pushRoot (p : Pool) (root : Bytes 32) (idx : UInt8) :
    (p.pushRoot root).rootAt idx = if idx = p.rootCursor then root else p.rootAt idx := by
  unfold pushRoot setRootCursor setRootAt
  rw [rootAt, get_set_of_ne _ _ (by simp)]
  split
  · rename_i h
    subst h
    exact get_set_same _ _ _
  · rename_i h
    exact get_set_of_ne _ _ (by simpa using h)

theorem get_pushRoot_of_not_ring (p : Pool) (root : Bytes 32) {f : PoolField}
    (hcur : f ≠ .rootCursor) (hroot : ∀ idx, f ≠ .root idx) : (p.pushRoot root).get f = p.get f := by
  unfold pushRoot setRootCursor setRootAt
  exact (get_set_of_ne _ _ hcur).trans (get_set_of_ne _ _ (hroot _))

end Pool

end Kakure
