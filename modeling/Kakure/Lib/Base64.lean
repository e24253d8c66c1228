import Mathlib

/-!
# Base64 text

The standard encoding with padding, and the lenient decoder that takes both the standard
and the URL-safe digits and passes over every other character.

* `decode_encode` — an encoding decodes to its bytes;
* `mem_encode` — an encoding is printable text without blanks.
-/

namespace Base64

/-- The digits, in order. -/
def alphabet : List Char :=
  "ABCDEFGHIJKLMNOPQRSTUVWXYZabcdefghijklmnopqrstuvwxyz0123456789+/".toList

/-- The digit of a six-bit number. -/
def digitChar (d : ℕ) : Char := alphabet.getD d 'A'

/-- The six-bit number of a digit. -/
def digitValue (c : Char) : Option ℕ :=
  if 'A' ≤ c ∧ c ≤ 'Z' then some (c.toNat - 65)
  else if 'a' ≤ c ∧ c ≤ 'z' then some (c.toNat - 71)
  else if '0' ≤ c ∧ c ≤ '9' then some (c.toNat + 4)
  else if c = '+' ∨ c = '-' then some 62
  else if c = '/' ∨ c = '_' then some 63
  else none

/-- The text of a byte list. -/
def encode : List UInt8 → List Char
  | [] => []
  | [a] => [digitChar (a.toNat / 4), digitChar (a.toNat % 4 * 16), '=', '=']
  | [a, b] =>
    [digitChar (a.toNat / 4), digitChar (a.toNat % 4 * 16 + b.toNat / 16),
      digitChar (b.toNat % 16 * 4), '=']
  | a :: b :: c :: rest =>
    digitChar (a.toNat / 4) :: digitChar (a.toNat % 4 * 16 + b.toNat / 16) ::
      digitChar (b.toNat % 16 * 4 + c.toNat / 64) :: digitChar (c.toNat % 64) :: encode rest

/-- The bytes of a digit list; a last digit that makes no byte is dropped. -/
def fromDigits : List ℕ → List UInt8
  | w :: x :: y :: z :: rest =>
    UInt8.ofNat (w * 4 + x / 16) :: UInt8.ofNat (x % 16 * 16 + y / 4) ::
      UInt8.ofNat (y % 4 * 64 + z) :: fromDigits rest
  | [w, x, y] => [UInt8.ofNat (w * 4 + x / 16), UInt8.ofNat (x % 16 * 16 + y / 4)]
  | [w, x] => [UInt8.ofNat (w * 4 + x / 16)]
  | _ => []

/-- The bytes a text stands for. -/
def decode (text : List Char) : List UInt8 := fromDigits (text.filterMap digitValue)

/-! ## Round trip -/

theorem digitValue_digitChar {d : ℕ} (h : d < 64) : digitValue (digitChar d) = some d := by
  interval_cases d <;> decide

theorem digitValue_pad : digitValue '=' = none := by decide

theorem ofNat_eq {n : ℕ} {b : UInt8} (h : n % 256 = b.toNat) : UInt8.ofNat n = b := by
  apply UInt8.toNat_inj.1
  rw [UInt8.toNat_ofNat']
  exact h

/-- An encoding decodes to its bytes. -/
theorem decode_encode (bytes : List UInt8) : decode (encode bytes) = bytes := by
  unfold decode
  induction bytes using encode.induct with
  | case1 => rfl
  | case2 a =>
    have ha := a.toNat_lt
    have h₁ := digitValue_digitChar (show a.toNat / 4 < 64 by omega)
    have h₂ := digitValue_digitChar (show a.toNat % 4 * 16 < 64 by omega)
    simp only [encode, List.filterMap_cons, h₁, h₂, digitValue_pad, List.filterMap_nil, fromDigits,
      List.cons.injEq, and_true]
    exact ofNat_eq (by omega)
  | case3 a b =>
    have ha := a.toNat_lt
    have hb := b.toNat_lt
    have h₁ := digitValue_digitChar (show a.toNat / 4 < 64 by omega)
    have h₂ := digitValue_digitChar (show a.toNat % 4 * 16 + b.toNat / 16 < 64 by omega)
    have h₃ := digitValue_digitChar (show b.toNat % 16 * 4 < 64 by omega)
    simp only [encode, List.filterMap_cons, h₁, h₂, h₃, digitValue_pad, List.filterMap_nil, fromDigits,
      List.cons.injEq, and_true]
    exact ⟨ofNat_eq (by omega), ofNat_eq (by omega)⟩
  | case4 a b c rest ih =>
    have ha := a.toNat_lt
    have hb := b.toNat_lt
    have hc := c.toNat_lt
    have h₁ := digitValue_digitChar (show a.toNat / 4 < 64 by omega)
    have h₂ := digitValue_digitChar (show a.toNat % 4 * 16 + b.toNat / 16 < 64 by omega)
    have h₃ := digitValue_digitChar (show b.toNat % 16 * 4 + c.toNat / 64 < 64 by omega)
    have h₄ := digitValue_digitChar (show c.toNat % 64 < 64 by omega)
    simp only [encode, List.filterMap_cons, h₁, h₂, h₃, h₄, fromDigits, ih, List.cons.injEq, and_true]
    exact ⟨ofNat_eq (by omega), ofNat_eq (by omega), ofNat_eq (by omega)⟩

/-! ## The characters of an encoding -/

theorem digitChar_mem (d : ℕ) : digitChar d ∈ alphabet := by
  unfold digitChar
  by_cases h : d < alphabet.length
  · rw [List.getD_eq_getElem _ _ h]
    exact List.getElem_mem h
  · rw [List.getD_eq_default _ _ (not_lt.1 h)]
    decide

/-- An encoding is made of digits and padding. -/
theorem mem_encode {bytes : List UInt8} {c : Char} (h : c ∈ encode bytes) : c ∈ '=' :: alphabet := by
  induction bytes using encode.induct with
  | case1 => cases h
  | case2 a =>
    simp only [encode, List.mem_cons, List.not_mem_nil, or_false] at h
    rcases h with rfl | rfl | rfl | rfl <;> simp [digitChar_mem]
  | case3 a b =>
    simp only [encode, List.mem_cons, List.not_mem_nil, or_false] at h
    rcases h with rfl | rfl | rfl | rfl <;> simp [digitChar_mem]
  | case4 a b d rest ih =>
    simp only [encode, List.mem_cons] at h
    rcases h with rfl | rfl | rfl | rfl | h
    · simp [digitChar_mem]
    · simp [digitChar_mem]
    · simp [digitChar_mem]
    · simp [digitChar_mem]
    · exact ih h

theorem encode_ne_nil {bytes : List UInt8} (h : bytes ≠ []) : encode bytes ≠ [] := by
  intro hnil
  have := decode_encode bytes
  rw [hnil] at this
  exact h this.symm

end Base64
