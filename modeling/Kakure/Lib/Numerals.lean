import Kakure.Lib.Hex
import Kakure.Lib.Text

/-!
# Numerals

Integers written in a base, and the reader of integer literals between blanks: decimal with an optional
sign, or of base 16, 8 or 2 behind its mark.

* `readDigits_numeral` — the digits of a number read as the number;
* `bigInt_decimal`, `bigInt_hex` — what is written is read back.
-/

namespace Numerals

open Hex Slices Text

/-- The digits of a number, the most significant first. -/
def numeral (b n : ℕ) : List Char :=
  if n < b ∨ b < 2 then [n.digitChar] else numeral b (n / b) ++ [(n % b).digitChar]
termination_by n
decreasing_by
  rename_i h
  rw [not_or, not_lt, not_lt] at h
  exact Nat.div_lt_self (by omega) (by omega)

/-- `toString` of an integer, in a base. -/
def toText (b : ℕ) (x : ℤ) : List Char := if x < 0 then '-' :: numeral b x.natAbs else numeral b x.natAbs

/-- One more digit. -/
def readStep (b acc : ℕ) (c : Char) : Option ℕ :=
  match digitValue c with
  | none => none
  | some d => if d < b then some (b * acc + d) else none

/-- The number some digits stand for. -/
def readDigits (b : ℕ) (text : List Char) : Option ℕ :=
  if text = [] then none else text.foldlM (readStep b) 0

/-- The base that a mark stands for. -/
def baseOf (mark : List Char) : Option ℕ :=
  if mark = ['0', 'x'] ∨ mark = ['0', 'X'] then some 16
  else if mark = ['0', 'o'] ∨ mark = ['0', 'O'] then some 8
  else if mark = ['0', 'b'] ∨ mark = ['0', 'B'] then some 2
  else none

/-- The reader of literals. -/
def readLiteral (text : List Char) : Option ℤ :=
  match baseOf (text.take 2) with
  | some b => (readDigits b (text.drop 2)).map Int.ofNat
  | none =>
    if text.head? = some '-' then (readDigits 10 text.tail).map fun n : ℕ => -(n : ℤ)
    else if text.head? = some '+' then (readDigits 10 text.tail).map Int.ofNat
    else (readDigits 10 text).map Int.ofNat

/-- A literal between blanks, 0 if there is none. -/
def bigInt (text : List Char) : Option ℤ :=
  if trim isBlank text = [] then some 0 else readLiteral (trim isBlank text)

theorem numeral_ne_nil (b n : ℕ) : numeral b n ≠ [] := by
  rw [numeral]
  split_ifs <;> simp

theorem readStep_digitChar {b d : ℕ} (acc : ℕ) (hb : b ≤ 16) (hd : d < b) :
    readStep b acc d.digitChar = some (b * acc + d) := by
  rw [readStep, digitValue_digitChar (by omega)]
  simp [hd]

theorem foldlM_numeral {b : ℕ} (hb : 2 ≤ b) (hle : b ≤ 16) (n : ℕ) :
    (numeral b n).foldlM (readStep b) 0 = some n := by
  induction n using Nat.strong_induction_on with
  | _ n ih =>
    rw [numeral]
    by_cases hn : n < b
    · rw [if_pos (Or.inl hn), List.foldlM_cons, readStep_digitChar 0 hle hn]
      simp
    · rw [if_neg (by omega), List.foldlM_append, ih (n / b) (Nat.div_lt_self (by omega) (by omega))]
      simp only [Option.bind_eq_bind, Option.bind_some, List.foldlM_cons, List.foldlM_nil]
      rw [readStep_digitChar _ hle (Nat.mod_lt _ (by omega))]
      simp [Nat.div_add_mod]

/-- The digits of a number read as the number. -/
theorem readDigits_numeral {b : ℕ} (hb : 2 ≤ b) (hle : b ≤ 16) (n : ℕ) : readDigits b (numeral b n) = some n := by
  rw [readDigits, if_neg (numeral_ne_nil b n), foldlM_numeral hb hle]

/-- Zeros in front, up to a width. -/
def padStart (width : ℕ) (text : List Char) : List Char := List.replicate (width - text.length) '0' ++ text

/-- Zeros in front do not change the number. -/
theorem readDigits_padStart (width n : ℕ) : readDigits 16 (padStart width (numeral 16 n)) = some n := by
  have hzeros : ∀ k : ℕ, (List.replicate k '0').foldlM (readStep 16) 0 = some 0 := by
    intro k
    induction k with
    | zero => rfl
    | succ k ih => exact ih
  have hne : padStart width (numeral 16 n) ≠ [] := by simp [padStart, numeral_ne_nil]
  rw [readDigits, if_neg hne, padStart, List.foldlM_append, hzeros, Option.bind_eq_bind, Option.bind_some,
    foldlM_numeral (by norm_num) (le_refl 16)]

theorem padStart_injective (width : ℕ) : Function.Injective fun n => padStart width (numeral 16 n) := by
  intro n n' h
  have hread := congrArg (readDigits 16) h
  simp only [readDigits_padStart] at hread
  exact Option.some_inj.1 hread

theorem mem_hexDigits {bytes : List UInt8} : ∀ c ∈ hexDigits bytes, ∃ d < 16, c = d.digitChar := by
  intro c hc
  obtain ⟨b, -, hb⟩ := List.mem_flatMap.1 hc
  have hlt : b.toNat < 256 := b.toNat_lt
  rcases List.mem_pair.1 hb with rfl | rfl
  · exact ⟨b.toNat / 16, by omega, rfl⟩
  · exact ⟨b.toNat % 16, by omega, rfl⟩

/-- The digits of a byte list read on after a number. -/
theorem foldlM_readStep_hexDigits (bytes : List UInt8) (acc : ℕ) :
    (hexDigits bytes).foldlM (readStep 16) acc = some (256 ^ bytes.length * acc + beNat bytes) := by
  rw [← foldlM_hexDigits]
  have hdigits : ∀ c ∈ hexDigits bytes, ∃ d < 16, c = d.digitChar := mem_hexDigits
  generalize hexDigits bytes = text at hdigits
  induction text generalizing acc with
  | nil => rfl
  | cons c text ih =>
    obtain ⟨d, hd, rfl⟩ := hdigits c List.mem_cons_self
    rw [List.foldlM_cons, List.foldlM_cons, readStep_digitChar acc le_rfl hd, digitValue_digitChar hd]
    exact ih _ fun c hc => hdigits c (List.mem_cons_of_mem _ hc)

theorem mem_numeral {b : ℕ} (hb : 2 ≤ b) (n : ℕ) : ∀ c ∈ numeral b n, ∃ d < b, c = d.digitChar := by
  induction n using Nat.strong_induction_on with
  | _ n ih =>
    rw [numeral]
    by_cases hn : n < b
    · rw [if_pos (Or.inl hn)]
      intro c hc
      exact ⟨n, hn, List.mem_singleton.1 hc⟩
    · rw [if_neg (by omega)]
      intro c hc
      rcases List.mem_append.1 hc with hc | hc
      · exact ih (n / b) (Nat.div_lt_self (by omega) (by omega)) c hc
      · exact ⟨n % b, Nat.mod_lt _ (by omega), List.mem_singleton.1 hc⟩

theorem isBlank_digitChar {d : ℕ} (h : d < 16) : isBlank d.digitChar = false := by
  interval_cases d <;> decide

/-- A text without blanks is its literal. -/
theorem bigInt_of_not_blank {text : List Char} (hne : text ≠ []) (h : ∀ c ∈ text, isBlank c = false) :
    bigInt text = readLiteral text := by
  have htrim : trim isBlank text = text :=
    trim_eq isBlank (fun c hc => h c (List.mem_of_mem_head? hc)) fun c hc => h c (List.mem_of_mem_getLast? hc)
  rw [bigInt, htrim, if_neg hne]

/-- Hexadecimal digits behind their mark. -/
theorem bigInt_mark {digits : List Char} (h : ∀ c ∈ digits, ∃ d < 16, c = d.digitChar) :
    bigInt ('0' :: 'x' :: digits) = (readDigits 16 digits).map Int.ofNat := by
  refine bigInt_of_not_blank (List.cons_ne_nil _ _) fun c hc => ?_
  rcases List.mem_cons.1 hc with rfl | hc
  · decide
  · rcases List.mem_cons.1 hc with rfl | hc
    · decide
    · obtain ⟨d, hd, rfl⟩ := h c hc
      exact isBlank_digitChar hd

/-- The digits of bytes read as their number. -/
theorem bigInt_hexDigits {bytes : List UInt8} (hne : bytes ≠ []) :
    bigInt ('0' :: 'x' :: hexDigits bytes) = some (beNat bytes : ℤ) := by
  have hdigits : hexDigits bytes ≠ [] := by
    cases bytes with
    | nil => exact absurd rfl hne
    | cons b bytes => simp [hexDigits, byteDigits]
  rw [bigInt_mark mem_hexDigits, readDigits, if_neg hdigits, foldlM_readStep_hexDigits, Nat.mul_zero, Nat.zero_add]
  rfl

/-- A padded number is read back behind the mark. -/
theorem bigInt_padStart (width n : ℕ) : bigInt ('0' :: 'x' :: padStart width (numeral 16 n)) = some (n : ℤ) := by
  have hdigits : ∀ c ∈ padStart width (numeral 16 n), ∃ d < 16, c = d.digitChar := by
    intro c hc
    rcases List.mem_append.1 hc with hc | hc
    · exact ⟨0, by norm_num, List.eq_of_mem_replicate hc⟩
    · exact mem_numeral (by norm_num) n c hc
  rw [bigInt_mark hdigits, readDigits_padStart]
  rfl

/-- A decimal digit is no sign and no letter. -/
theorem isDigit_of_mem_numeral {n : ℕ} {c : Char} (h : c ∈ numeral 10 n) : c.isDigit = true := by
  obtain ⟨d, hd, rfl⟩ := mem_numeral (by norm_num) n c h
  have hdigits : ∀ d < 10, d.digitChar.isDigit = true := by decide
  exact hdigits d hd

/-- What has no letter has no mark. -/
theorem baseOf_eq_none {mark : List Char} (h : ∀ c ∈ mark, c.isAlpha = false) : baseOf mark = none := by
  have hnot : ∀ c : Char, c.isAlpha = true → ∀ d, mark ≠ [d, c] := by
    rintro c hc d rfl
    rw [h c (by simp)] at hc
    cases hc
  unfold baseOf
  rw [if_neg (not_or.2 ⟨hnot _ (by decide) _, hnot _ (by decide) _⟩),
    if_neg (not_or.2 ⟨hnot _ (by decide) _, hnot _ (by decide) _⟩),
    if_neg (not_or.2 ⟨hnot _ (by decide) _, hnot _ (by decide) _⟩)]

theorem isAlpha_of_isDigit {c : Char} (h : c.isDigit = true) : c.isAlpha = false := by
  simp only [Char.isDigit, Bool.and_eq_true, decide_eq_true_eq] at h
  have hval : c.val.toNat ≤ 57 := h.2
  have hupper : ¬ 65 ≤ c.val := fun hc => absurd (show 65 ≤ c.val.toNat from hc) (by omega)
  have hlower : ¬ 97 ≤ c.val := fun hc => absurd (show 97 ≤ c.val.toNat from hc) (by omega)
  simp [Char.isAlpha, Char.isUpper, Char.isLower, hupper, hlower]

/-- Decimal text is read back. -/
theorem bigInt_decimal (x : ℤ) : bigInt (toText 10 x) = some x := by
  have hblank : ∀ c ∈ numeral 10 x.natAbs, isBlank c = false := by
    intro c hc
    obtain ⟨d, hd, rfl⟩ := mem_numeral (by norm_num) _ c hc
    exact isBlank_digitChar (by omega)
  have hread : readDigits 10 (numeral 10 x.natAbs) = some x.natAbs := readDigits_numeral (by norm_num) (by norm_num) _
  have hletter : ∀ c ∈ numeral 10 x.natAbs, c.isAlpha = false := fun c hc => isAlpha_of_isDigit (isDigit_of_mem_numeral hc)
  have hsign : ∀ c : Char, c.isDigit = false → (numeral 10 x.natAbs).head? ≠ some c := by
    intro c hc hhead
    rw [isDigit_of_mem_numeral (List.mem_of_mem_head? hhead)] at hc
    cases hc
  by_cases hneg : x < 0
  · have hbase : baseOf (('-' :: numeral 10 x.natAbs).take 2) = none := by
      refine baseOf_eq_none fun c hc => ?_
      rcases List.mem_cons.1 (List.mem_of_mem_take hc) with rfl | hc
      · decide
      · exact hletter c hc
    have hwhole : ∀ c ∈ '-' :: numeral 10 x.natAbs, isBlank c = false := by
      intro c hc
      rcases List.mem_cons.1 hc with rfl | hc
      · decide
      · exact hblank c hc
    rw [toText, if_pos hneg, bigInt_of_not_blank (List.cons_ne_nil _ _) hwhole, readLiteral, hbase]
    dsimp only
    rw [List.head?_cons, if_pos rfl, List.tail_cons, hread, Option.map_some, Option.some_inj]
    omega
  · have hbase : baseOf ((numeral 10 x.natAbs).take 2) = none :=
      baseOf_eq_none fun c hc => hletter c (List.mem_of_mem_take hc)
    rw [toText, if_neg hneg, bigInt_of_not_blank (numeral_ne_nil _ _) hblank, readLiteral, hbase]
    dsimp only
    rw [if_neg (hsign _ (by decide)), if_neg (hsign _ (by decide)), hread, Option.map_some, Option.some_inj]
    change (x.natAbs : ℤ) = x
    omega

/-- Hexadecimal text is read back behind its mark. -/
theorem bigInt_hex {x : ℤ} (h : 0 ≤ x) : bigInt ('0' :: 'x' :: toText 16 x) = some x := by
  rw [toText, if_neg (not_lt.2 h), bigInt_mark (mem_numeral (by norm_num) _),
    readDigits_numeral (by norm_num) le_rfl, Option.map_some, Option.some_inj]
  change (x.natAbs : ℤ) = x
  omega

theorem numeral_injective {b : ℕ} (hb : 2 ≤ b) (hle : b ≤ 16) : Function.Injective (numeral b) := by
  intro n m h
  have hread := readDigits_numeral hb hle n
  rw [h, readDigits_numeral hb hle] at hread
  exact (Option.some_inj.1 hread).symm

/-- A sign is no hexadecimal digit. -/
theorem head?_numeral_ne (n : ℕ) : (numeral 16 n).head? ≠ some '-' := by
  intro h
  obtain ⟨d, hd, heq⟩ := mem_numeral (by norm_num) n '-' (List.mem_of_mem_head? h)
  have hdigits : ∀ d < 16, d.digitChar ≠ '-' := by decide
  exact hdigits d hd heq.symm

theorem toText_hex_injective : Function.Injective (toText 16) := by
  intro x y h
  unfold toText at h
  have hinj := numeral_injective (b := 16) (by norm_num) le_rfl
  split_ifs at h with hx hy hy
  · have := hinj (List.cons.inj h).2
    omega
  · exact absurd (by rw [← h]; rfl) (head?_numeral_ne y.natAbs)
  · exact absurd (by rw [h]; rfl) (head?_numeral_ne x.natAbs)
  · have := hinj h
    omega

theorem toText_injective : Function.Injective (toText 10) := by
  intro x y h
  have hread := bigInt_decimal x
  rw [h, bigInt_decimal] at hread
  exact (Option.some_inj.1 hread).symm

end Numerals
