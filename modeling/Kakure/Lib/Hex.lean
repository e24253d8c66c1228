import Kakure.Lib.Slices

/-!
# Hexadecimal text

Bytes written as `0x` and two lowercase digits each, and such text read as a number.

* `parseHex_hexDigits` — the digits of a byte list read as its big-endian value;
* `toHex_injective` — different arrays of one width have different texts.
-/

namespace Hex

open Slices

/-- The value of a hexadecimal digit, in either case. -/
def digitValue (c : Char) : Option ℕ :=
  if '0' ≤ c ∧ c ≤ '9' then some (c.toNat - 48)
  else if 'a' ≤ c ∧ c ≤ 'f' then some (c.toNat - 87)
  else if 'A' ≤ c ∧ c ≤ 'F' then some (c.toNat - 55)
  else none

theorem digitValue_digitChar {d : ℕ} (h : d < 16) : digitValue d.digitChar = some d := by
  interval_cases d <;> decide

/-- The number a digit text stands for, most significant digit first. -/
def parseHex (text : List Char) : Option ℕ :=
  text.foldlM (fun acc c => (digitValue c).map fun d => 16 * acc + d) 0

/-- The two digits of a byte. -/
def byteDigits (b : UInt8) : List Char := [(b.toNat / 16).digitChar, (b.toNat % 16).digitChar]

/-- The digits of a byte list. -/
def hexDigits (bytes : List UInt8) : List Char := bytes.flatMap byteDigits

/-- `0x` and the digits. -/
def toHex (bytes : List UInt8) : String := String.ofList ('0' :: 'x' :: hexDigits bytes)

/-- Reading on after a number the digits of a byte list gives the number followed by the bytes. -/
theorem foldlM_hexDigits (bytes : List UInt8) (acc : ℕ) :
    (hexDigits bytes).foldlM (fun acc c => (digitValue c).map fun d => 16 * acc + d) acc =
      some (256 ^ bytes.length * acc + beNat bytes) := by
  induction bytes generalizing acc with
  | nil => simp [hexDigits, beNat, leNat]
  | cons b bytes ih =>
    have hb := b.toNat_lt
    have hhigh : digitValue (b.toNat / 16).digitChar = some (b.toNat / 16) :=
      digitValue_digitChar (by omega)
    have hlow : digitValue (b.toNat % 16).digitChar = some (b.toNat % 16) :=
      digitValue_digitChar (by omega)
    have hbyte : 16 * (16 * acc + b.toNat / 16) + b.toNat % 16 = 256 * acc + b.toNat := by omega
    have hcons : hexDigits (b :: bytes) = byteDigits b ++ hexDigits bytes := rfl
    rw [hcons, List.foldlM_append]
    simp only [byteDigits, List.foldlM_cons, List.foldlM_nil, hhigh, hlow, Option.map_some,
      Option.bind_eq_bind, Option.bind_some, hbyte, Option.pure_def, ih]
    rw [beNat_cons, List.length_cons, pow_succ]
    congr 1
    ring

/-- The digits of a byte list read as its big-endian value. -/
theorem parseHex_hexDigits (bytes : List UInt8) : parseHex (hexDigits bytes) = some (beNat bytes) := by
  unfold parseHex
  rw [foldlM_hexDigits, Nat.mul_zero, Nat.zero_add]

theorem hexDigits_injective {n : ℕ} {b b' : Bytes n} (h : hexDigits b.val = hexDigits b'.val) :
    b = b' := by
  have hparse := parseHex_hexDigits b.val
  rw [h, parseHex_hexDigits, Option.some_inj] at hparse
  exact beNat_injective hparse.symm

/-- Different arrays of one width have different texts. -/
theorem toHex_injective {n : ℕ} {b b' : Bytes n} (h : toHex b.val = toHex b'.val) : b = b' := by
  have hchars := congrArg String.toList h
  unfold toHex at hchars
  rw [String.toList_ofList, String.toList_ofList] at hchars
  simp only [List.cons.injEq, true_and] at hchars
  exact hexDigits_injective hchars

end Hex
