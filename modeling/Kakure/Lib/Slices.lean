import Mathlib

/-!
# Fixed-offset byte layouts

Programs that keep their state in a flat byte buffer read and write fields at
fixed offsets.  This file has the buffer side of that: fixed-width byte arrays,
reading a field, overwriting a field, and the two laws every layout proof needs.

* **read after write** — `readAt_writeAt_same` (the field just written is read
  back) and `readAt_writeAt_disjoint` (a field that does not overlap it is
  unchanged);
* **little-endian words** — `leNat_leBytes`: a word that fits its width is read
  back from its encoding;
* **big-endian words** — `beNat_beBytes`, `beNat_lt` and `beNat_injective`: the
  big-endian value determines a fixed-width array and conversely.
-/

namespace Slices

/-! ## Fixed-width byte arrays -/

/-- A byte array of `n` bytes. -/
abbrev Bytes (n : ℕ) := {l : List UInt8 // l.length = n}

/-- The all-zero array. -/
def Bytes.zero (n : ℕ) : Bytes n := ⟨List.replicate n 0, List.length_replicate⟩

@[simp] theorem Bytes.length_val {n : ℕ} (b : Bytes n) : b.val.length = n := b.2

/-- The bytes `off, …, off + n - 1` of a buffer, read as zero past its end. -/
def readAt (n : ℕ) (d : List UInt8) (off : ℕ) : Bytes n :=
  ⟨(d.drop off ++ List.replicate n 0).take n, by simp⟩

/-- Overwrite the bytes of a buffer from `off` on; a write that does not fit is not made. -/
def writeAt (d : List UInt8) (off : ℕ) (v : List UInt8) : List UInt8 :=
  if off + v.length ≤ d.length then d.take off ++ v ++ d.drop (off + v.length) else d

theorem writeAt_of_le {d : List UInt8} {off : ℕ} {v : List UInt8} (h : off + v.length ≤ d.length) :
    writeAt d off v = d.take off ++ v ++ d.drop (off + v.length) := if_pos h

@[simp] theorem length_writeAt (d : List UInt8) (off : ℕ) (v : List UInt8) :
    (writeAt d off v).length = d.length := by
  rw [writeAt]
  split
  · simp only [List.length_append, List.length_take, List.length_drop]
    omega
  · rfl

theorem readAt_of_le {n : ℕ} {d : List UInt8} {off : ℕ} (h : off + n ≤ d.length) :
    (readAt n d off).val = (d.drop off).take n := by
  have hlen : n ≤ (d.drop off).length := by rw [List.length_drop]; omega
  exact List.take_append_of_le_length hlen

/-- The field just written is read back. -/
theorem readAt_writeAt_same {n : ℕ} {d : List UInt8} {off : ℕ} (v : Bytes n)
    (h : off + n ≤ d.length) : readAt n (writeAt d off v.val) off = v := by
  have hv : v.val.length = n := v.2
  have htake : (d.take off).length = off := by rw [List.length_take]; omega
  refine Subtype.ext ?_
  rw [readAt_of_le (by rw [length_writeAt]; omega), writeAt_of_le (by omega), List.append_assoc,
    List.drop_append_of_le_length (by omega), List.drop_of_length_le (by omega),
    List.nil_append, List.take_left' hv]

/-- The field behind `off` bytes is read at `off`. -/
theorem readAt_append {n : ℕ} {front back : List UInt8} {mid : Bytes n} {off : ℕ}
    (h : front.length = off) : readAt n (front ++ (mid.val ++ back)) off = mid := by
  refine Subtype.ext ?_
  rw [readAt_of_le (by simp [h]), List.drop_left' h, List.take_left' mid.2]

/-- A field that does not overlap the one written is unchanged. -/
theorem readAt_writeAt_disjoint {n : ℕ} {d v : List UInt8} {off off' : ℕ}
    (h : off + v.length ≤ d.length) (h' : off' + n ≤ d.length)
    (hd : off' + n ≤ off ∨ off + v.length ≤ off') :
    readAt n (writeAt d off v) off' = readAt n d off' := by
  refine Subtype.ext ?_
  rw [readAt_of_le (by rw [length_writeAt]; exact h'), readAt_of_le h', writeAt_of_le h]
  refine List.ext_getElem? fun i => ?_
  by_cases hi : i < n
  · rw [List.getElem?_take_of_lt hi, List.getElem?_take_of_lt hi, List.getElem?_drop,
      List.getElem?_drop]
    rcases hd with hbefore | hafter
    · rw [List.append_assoc, List.getElem?_append_left (by rw [List.length_take]; omega),
        List.getElem?_take_of_lt (by omega)]
    · rw [List.getElem?_append_right (by
          rw [List.length_append, List.length_take]; omega), List.getElem?_drop,
        List.length_append, List.length_take]
      congr 1
      omega
  · rw [List.getElem?_take_eq_none (by omega), List.getElem?_take_eq_none (by omega)]

/-- Writing behind what was written to a buffer of zeros. -/
theorem writeAt_zeros {front v : List UInt8} {off n : ℕ} (h : front.length = off) (hv : v.length ≤ n) :
    writeAt (front ++ List.replicate n 0) off v = front ++ v ++ List.replicate (n - v.length) 0 := by
  rw [writeAt_of_le (by simp [h, hv]), List.take_left' h, List.drop_append, List.drop_of_length_le (by omega), h,
    Nat.add_sub_cancel_left, List.drop_replicate, List.nil_append]

/-! ## Consecutive fields -/

/-- A buffer as consecutive fields of these widths. -/
def split : List ℕ → List UInt8 → List (List UInt8)
  | [], _ => []
  | width :: widths, d => d.take width :: split widths (d.drop width)

/-- Fields that fill the buffer make it up. -/
theorem flatten_split {widths : List ℕ} {d : List UInt8} (h : d.length = widths.sum) :
    (split widths d).flatten = d := by
  induction widths generalizing d with
  | nil =>
    rw [List.sum_nil, List.length_eq_zero_iff] at h
    rw [h]
    rfl
  | cons width widths ih =>
    rw [List.sum_cons] at h
    rw [split, List.flatten_cons, ih (by rw [List.length_drop]; omega), List.take_append_drop]

/-- Fields that fill the buffer have their widths. -/
theorem lengths_split {widths : List ℕ} {d : List UInt8} (h : d.length = widths.sum) :
    (split widths d).map List.length = widths := by
  induction widths generalizing d with
  | nil => rfl
  | cons width widths ih =>
    rw [List.sum_cons] at h
    rw [split, List.map_cons, ih (by rw [List.length_drop]; omega), List.length_take_of_le (by omega)]

/-- Fields put behind each other are found there. -/
theorem split_flatten (fields : List (List UInt8)) : split (fields.map List.length) fields.flatten = fields := by
  induction fields with
  | nil => rfl
  | cons field fields ih => rw [List.map_cons, List.flatten_cons, split, List.take_left, List.drop_left, ih]

/-- Fields written one behind the other. -/
def writeFields (d : List UInt8) (off : ℕ) : List (List UInt8) → List UInt8
  | [] => d
  | field :: fields => writeFields (writeAt d off field) (off + field.length) fields

/-- Fields written to a buffer of zeros stand behind each other. -/
theorem writeFields_zeros {fields : List (List UInt8)} {front : List UInt8} {n : ℕ} (h : fields.flatten.length ≤ n) :
    writeFields (front ++ List.replicate n 0) front.length fields =
      front ++ fields.flatten ++ List.replicate (n - fields.flatten.length) 0 := by
  induction fields generalizing front n with
  | nil => simp [writeFields]
  | cons field fields ih =>
    rw [List.flatten_cons, List.length_append] at h
    rw [writeFields, writeAt_zeros rfl (by omega), ← List.length_append, ih (by omega), List.flatten_cons,
      List.length_append, ← List.append_assoc, Nat.sub_sub]

/-! ## Little-endian words -/

/-- The `n` low bytes of a number, least significant first. -/
def leBytes : (n : ℕ) → ℕ → Bytes n
  | 0, _ => ⟨[], rfl⟩
  | n + 1, v => ⟨UInt8.ofNat v :: (leBytes n (v / 256)).val, by simp⟩

/-- The number a byte list stands for, least significant byte first. -/
def leNat : List UInt8 → ℕ
  | [] => 0
  | b :: bs => b.toNat + 256 * leNat bs

/-- A word that fits its width is read back from its encoding. -/
theorem leNat_leBytes : ∀ (n v : ℕ), v < 256 ^ n → leNat (leBytes n v).val = v := by
  intro n
  induction n with
  | zero => intro v h; simp [leBytes, leNat]; omega
  | succ n ih =>
    intro v h
    rw [leBytes, leNat, ih (v / 256) (by rw [pow_succ] at h; omega), UInt8.toNat_ofNat']
    omega

theorem leNat_lt (l : List UInt8) : leNat l < 256 ^ l.length := by
  induction l with
  | nil => simp [leNat]
  | cons b bs ih =>
    rw [leNat, List.length_cons, pow_succ]
    have := b.toNat_lt
    omega

theorem leNat_injective : ∀ {l l' : List UInt8}, l.length = l'.length → leNat l = leNat l' →
    l = l' := by
  intro l
  induction l with
  | nil => intro l' hlen _; exact (List.length_eq_zero_iff.1 hlen.symm).symm
  | cons b bs ih =>
    intro l' hlen h
    cases l' with
    | nil => simp at hlen
    | cons b' bs' =>
      simp only [leNat] at h
      have hb := b.toNat_lt
      have hb' := b'.toNat_lt
      rw [UInt8.toNat_inj.1 (by omega : b.toNat = b'.toNat),
        ih (by simpa using hlen) (by omega)]

/-! ## Big-endian words -/

/-- The `n` low bytes of a number, most significant first. -/
def beBytes (n v : ℕ) : Bytes n := ⟨(leBytes n v).val.reverse, by simp⟩

/-- The number a byte list stands for, most significant byte first. -/
def beNat (l : List UInt8) : ℕ := leNat l.reverse

theorem leNat_append (l l' : List UInt8) : leNat (l ++ l') = leNat l + 256 ^ l.length * leNat l' := by
  induction l with
  | nil => simp [leNat]
  | cons b bs ih =>
    rw [List.cons_append, leNat, leNat, ih, List.length_cons, pow_succ]
    ring

theorem beNat_cons (b : UInt8) (bs : List UInt8) :
    beNat (b :: bs) = 256 ^ bs.length * b.toNat + beNat bs := by
  unfold beNat
  rw [List.reverse_cons, leNat_append, List.length_reverse]
  simp [leNat, Nat.add_comm]

theorem beNat_beBytes {n v : ℕ} (h : v < 256 ^ n) : beNat (beBytes n v).val = v := by
  rw [beNat, beBytes, List.reverse_reverse, leNat_leBytes n v h]

theorem beNat_lt (l : List UInt8) : beNat l < 256 ^ l.length := by
  simpa [beNat] using leNat_lt l.reverse

/-- The big-endian value determines an array of fixed width. -/
theorem beNat_injective {n : ℕ} {b b' : Bytes n} (h : beNat b.val = beNat b'.val) : b = b' := by
  refine Subtype.ext (List.reverse_injective ?_)
  exact leNat_injective (by simp) h

theorem beBytes_beNat {n : ℕ} (b : Bytes n) : beBytes n (beNat b.val) = b := by
  refine beNat_injective (beNat_beBytes ?_)
  simpa using beNat_lt b.val

/-- The word a field stands for is the one it is the encoding of. -/
theorem eq_beBytes_iff {n v : ℕ} {b : List UInt8} (h : b.length = n) :
    v < 256 ^ n ∧ b = (beBytes n v).val ↔ v = beNat b := by
  constructor
  · rintro ⟨hlt, rfl⟩
    exact (beNat_beBytes hlt).symm
  · rintro rfl
    have hbytes := congrArg Subtype.val (beBytes_beNat (⟨b, h⟩ : Bytes n))
    exact ⟨h ▸ beNat_lt b, hbytes.symm⟩

theorem leNat_replicate_zero (n : ℕ) : leNat (List.replicate n 0) = 0 := by
  induction n with
  | zero => rfl
  | succ n ih => simp [List.replicate_succ, leNat, ih]

theorem beNat_eq_zero_iff {n : ℕ} (b : Bytes n) : beNat b.val = 0 ↔ b = Bytes.zero n := by
  have hzero : beNat (Bytes.zero n).val = 0 := by
    simp [Bytes.zero, beNat, leNat_replicate_zero]
  constructor
  · intro h
    exact beNat_injective (h.trans hzero.symm)
  · rintro rfl
    exact hzero

end Slices
