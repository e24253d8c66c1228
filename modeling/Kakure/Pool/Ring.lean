import Kakure.Lib.Ring
import Kakure.Pool.Merkle

/-!
# The root ring of the pool

`push_root` against the list of every root ever pushed: slot `k mod 256` shows the
latest root pushed there, zero where nothing was.

* `Pool.Shows` — the ring fields of a pool show a list of roots;
* `shows_pushRoot` and `shows_insert` — a push, and so an insert, appends one.
-/

namespace Kakure

open Slices

/-- The ring fields of the pool show the roots pushed so far, the latest last. -/
def Pool.Shows (p : Pool) (roots : List (Bytes 32)) : Prop :=
  Ring.Holds rootRing (Bytes.zero 32) (fun j => p.rootAt (UInt8.ofNat j)) p.rootCursor.toNat roots

theorem toNat_ofNat_of_lt {j : ℕ} (h : j < rootRing) : (UInt8.ofNat j).toNat = j := by
  rw [UInt8.toNat_ofNat']
  exact Nat.mod_eq_of_lt h

theorem toNat_lt_rootRing (j : UInt8) : j.toNat < rootRing := j.toNat_lt

theorem rootRing_pos : 0 < rootRing := by decide

theorem ofNat_mod_rootRing (k : ℕ) : UInt8.ofNat (k % rootRing) = UInt8.ofNat k := by
  rw [← UInt8.toNat_inj, UInt8.toNat_ofNat', UInt8.toNat_ofNat']
  exact Nat.mod_mod _ _

/-- The ring of a fresh account is blank. -/
theorem shows_empty : Pool.empty.Shows [] := by
  have hcursor : Pool.empty.rootCursor = 0 := by
    unfold Pool.rootCursor
    rw [Pool.get_empty]
    rfl
  unfold Pool.Shows
  rw [hcursor]
  refine Ring.holds_nil fun j _ => ?_
  exact Pool.get_empty _

/-- One push appends a root. -/
theorem shows_pushRoot {p : Pool} {roots : List (Bytes 32)} (h : p.Shows roots) (root : Bytes 32) :
    (p.pushRoot root).Shows (roots ++ [root]) := by
  refine Ring.Holds.push rootRing_pos h ?_ fun j hj => ?_
  · rw [Pool.rootCursor_pushRoot, UInt8.toNat_add]
    rfl
  · simp only [Pool.rootAt_pushRoot, ← UInt8.toNat_inj, toNat_ofNat_of_lt hj]

/-- The ring is read from the ring fields alone. -/
theorem Pool.Shows.congr {p q : Pool} {roots : List (Bytes 32)} (h : p.Shows roots)
    (hcursor : q.rootCursor = p.rootCursor) (hroot : ∀ j, q.rootAt j = p.rootAt j) :
    q.Shows roots := by
  unfold Pool.Shows
  simp only [hcursor, hroot]
  exact h

/-- An insert appends the root it returns. -/
theorem shows_insert {poseidon : Fr → Fr → Fr → Fr} {pool p : Pool} {roots : List (Bytes 32)}
    {leaf root : Bytes 32} {index : ℕ} (hshows : pool.Shows roots)
    (h : insert poseidon pool leaf = .ok (p, index, root)) : p.Shows (roots ++ [root]) := by
  refine (shows_pushRoot hshows root).congr ?_ fun j => ?_
  · rw [rootCursor_insert poseidon h, Pool.rootCursor_pushRoot]
  · rw [rootAt_insert poseidon h, Pool.rootAt_pushRoot]

/-- The slot of the latest push to it. -/
theorem rootAt_of_shows {p : Pool} {roots : List (Bytes 32)} (h : p.Shows roots) {k : ℕ}
    {root : Bytes 32} (hk : roots[k]? = some root) (hle : roots.length ≤ k + rootRing) :
    p.rootAt (UInt8.ofNat k) = root := by
  have := h.latest k root hk hle
  rwa [ofNat_mod_rootRing] at this

/-- A slot that was never reached. -/
theorem rootAt_of_length_le {p : Pool} {roots : List (Bytes 32)} (h : p.Shows roots) {j : UInt8}
    (hj : roots.length ≤ j.toNat) : p.rootAt j = Bytes.zero 32 := by
  have := h.blank j.toNat (toNat_lt_rootRing j) hj
  rwa [UInt8.ofNat_toNat] at this

/-- Two pools that show the same roots have the same slots. -/
theorem rootAt_eq_of_shows {p q : Pool} {roots : List (Bytes 32)} (h : p.Shows roots)
    (h' : q.Shows roots) (j : UInt8) : p.rootAt j = q.rootAt j := by
  have := Ring.Holds.slot_eq rootRing_pos h h' (toNat_lt_rootRing j)
  simpa only [UInt8.ofNat_toNat] using this

end Kakure
