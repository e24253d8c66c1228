import Mathlib

/-!
# Decimal numerals

Numerals with a whole part and maybe a fraction, the number one stands for, and its multiple by a power of ten
as a whole number.

* `parts_eq_some_iff` — the numerals that are read, and their parts;
* `scaled_eq` — the multiple is exact if the fraction is not too long.
-/

namespace Decimals

/-- Digits, at least one. -/
def IsDigits (text : List Char) : Prop := text ≠ [] ∧ text.all Char.isDigit = true

instance (text : List Char) : Decidable (IsDigits text) := inferInstanceAs (Decidable (_ ∧ _))

/-- The number some digits stand for. -/
def digitsValue (text : List Char) : ℕ := text.foldl (fun n c => 10 * n + (c.toNat - '0'.toNat)) 0

theorem foldl_digits (text : List Char) (n : ℕ) :
    text.foldl (fun n c => 10 * n + (c.toNat - '0'.toNat)) n = n * 10 ^ text.length + digitsValue text := by
  induction text generalizing n with
  | nil => simp [digitsValue]
  | cons c text ih =>
    rw [digitsValue, List.foldl_cons, List.foldl_cons, ih, ih, List.length_cons]
    ring

theorem digitsValue_append (front back : List Char) :
    digitsValue (front ++ back) = digitsValue front * 10 ^ back.length + digitsValue back := by
  rw [digitsValue, List.foldl_append, foldl_digits]
  rfl

theorem digitsValue_zeros (n : ℕ) : digitsValue (List.replicate n '0') = 0 := by
  induction n with
  | zero => rfl
  | succ n ih => rw [List.replicate_succ', digitsValue_append, ih]; rfl

/-- The parts of a numeral, `/^\d+(\.\d+)?$/`. -/
def parts (text : List Char) : Option (List Char × List Char) :=
  match text.splitOn '.' with
  | [whole] => if IsDigits whole then some (whole, []) else none
  | [whole, frac] => if IsDigits whole ∧ IsDigits frac then some (whole, frac) else none
  | _ => none

/-- A text with these parts. -/
def HasParts (text whole frac : List Char) : Prop :=
  IsDigits whole ∧ (text = whole ∧ frac = [] ∨ text = whole ++ '.' :: frac ∧ IsDigits frac)

theorem IsDigits.not_mem {text : List Char} (h : IsDigits text) {c : Char} (hc : c.isDigit = false) : c ∉ text := by
  intro hmem
  rw [List.all_eq_true.1 h.2 c hmem] at hc
  cases hc

theorem parts_eq_some_iff {text whole frac : List Char} : parts text = some (whole, frac) ↔ HasParts text whole frac := by
  constructor
  · intro h
    have hjoin : ['.'].intercalate (text.splitOn '.') = text := List.intercalate_splitOn '.'
    rw [parts] at h
    split at h
    · next front hsplit =>
      split at h
      · next hdigits =>
        cases h
        rw [hsplit] at hjoin
        exact ⟨hdigits, .inl ⟨by simpa using hjoin.symm, rfl⟩⟩
      · cases h
    · next front back hsplit =>
      split at h
      · next hdigits =>
        cases h
        rw [hsplit] at hjoin
        exact ⟨hdigits.1, .inr ⟨by simpa [List.intercalate] using hjoin.symm, hdigits.2⟩⟩
      · cases h
    · cases h
  · rintro ⟨hwhole, ⟨rfl, rfl⟩ | ⟨rfl, hfrac⟩⟩
    · rw [parts, List.splitOn_eq_singleton (hwhole.not_mem rfl)]
      exact if_pos hwhole
    · rw [parts, List.splitOn_append_cons_self_of_not_mem (hwhole.not_mem rfl),
        List.splitOn_eq_singleton (hfrac.not_mem rfl)]
      exact if_pos ⟨hwhole, hfrac⟩

/-- The number a numeral stands for. -/
def value (whole frac : List Char) : ℚ := digitsValue whole + digitsValue frac / 10 ^ frac.length

/-- Its multiple, the fraction filled up with zeros. -/
def scaled (decimals : ℕ) (whole frac : List Char) : ℕ :=
  digitsValue whole * 10 ^ decimals + digitsValue ((frac ++ List.replicate decimals '0').take decimals)

/-- The multiple is exact if the fraction is not too long. -/
theorem scaled_eq {decimals : ℕ} (whole : List Char) {frac : List Char} (h : frac.length ≤ decimals) :
    (scaled decimals whole frac : ℚ) = value whole frac * 10 ^ decimals := by
  have htake : (frac ++ List.replicate decimals '0').take decimals = frac ++ List.replicate (decimals - frac.length) '0' := by
    rw [List.take_append, List.take_of_length_le h, List.take_replicate, min_eq_left (by omega)]
  have hpow : (10 : ℚ) ^ decimals = 10 ^ frac.length * 10 ^ (decimals - frac.length) := by
    rw [← pow_add, Nat.add_sub_cancel' h]
  rw [scaled, htake, digitsValue_append, digitsValue_zeros, List.length_replicate, value]
  push_cast
  rw [hpow]
  field_simp
  ring

end Decimals
