import Kakure.Lib.Numerals

/-!
# Codes that are read in one way

Codes that are read from the front, and the texts of JSON as such codes.

* `PrefixFree` — what follows a code word never changes how it is read;
* `PrefixFree.pair`, `PrefixFree.flatMap`, `PrefixFree.closed`, `PrefixFree.separated` — codes of pairs and of lists;
* `prefixFree_text`, `prefixFree_array` — the texts and the arrays of JSON;
* `textBytes_injective` — the bytes of a text.
-/

namespace Codes

open Numerals

universe u v w

variable {α : Type u} {β : Type v} {κ : Type w}

/-! ## Reading from the front -/

/-- Whatever follows a code word, the word and what follows are told apart. -/
def PrefixFree (f : α → List κ) : Prop := ∀ ⦃x y r s⦄, f x ++ r = f y ++ s → x = y ∧ r = s

/-- What a reader reads back is read in one way. -/
theorem prefixFree_of_reader {f : α → List κ} {read : List κ → Option (α × List κ)}
    (h : ∀ x r, read (f x ++ r) = some (x, r)) : PrefixFree f := by
  intro x y r s heq
  have hread := h x r
  rw [heq, h y s, Option.some.injEq, Prod.mk.injEq] at hread
  exact ⟨hread.1.symm, hread.2.symm⟩

namespace PrefixFree

variable {f : α → List κ} {g : β → List κ}

theorem injective (h : PrefixFree f) : Function.Injective f := by
  intro x y heq
  exact (h (congrArg (· ++ []) heq)).1

theorem comp (h : PrefixFree f) {e : β → α} (he : Function.Injective e) : PrefixFree fun x => f (e x) := by
  intro x y r s heq
  obtain ⟨hcode, hrest⟩ := h heq
  exact ⟨he hcode, hrest⟩

/-- A code word after a fixed text. -/
theorem front (h : PrefixFree f) (text : List κ) : PrefixFree fun x => text ++ f x := by
  intro x y r s heq
  simp only [List.append_assoc, List.append_cancel_left_eq] at heq
  exact h heq

/-- A code word before a fixed text. -/
theorem back (h : PrefixFree f) (text : List κ) : PrefixFree fun x => f x ++ text := by
  intro x y r s heq
  simp only [List.append_assoc] at heq
  obtain ⟨rfl, hrest⟩ := h heq
  exact ⟨rfl, List.append_cancel_left hrest⟩

/-- One code word after the other. -/
theorem pair (hf : PrefixFree f) (hg : PrefixFree g) : PrefixFree fun x : α × β => f x.1 ++ g x.2 := by
  intro x y r s heq
  simp only [List.append_assoc] at heq
  obtain ⟨hfirst, hrest⟩ := hf heq
  obtain ⟨hsecond, hrest⟩ := hg hrest
  exact ⟨Prod.ext hfirst hsecond, hrest⟩

/-- A list of code words. -/
theorem flatMap (h : PrefixFree f) (hne : ∀ x, f x ≠ []) : Function.Injective fun xs : List α => xs.flatMap f := by
  intro xs
  induction xs with
  | nil =>
    intro ys heq
    cases ys with
    | nil => rfl
    | cons y ys => simp [hne y] at heq
  | cons x xs ih =>
    intro ys heq
    cases ys with
    | nil => simp [hne x] at heq
    | cons y ys =>
      simp only [List.flatMap_cons] at heq
      obtain ⟨rfl, htail⟩ := h heq
      rw [ih htail]

/-- A list up to a sign that no code word begins with. -/
theorem closed (h : PrefixFree f) {close : κ} (hclose : ∀ x r, (f x ++ r).head? ≠ some close) :
    PrefixFree fun xs : List α => xs.flatMap f ++ [close] := by
  intro xs
  induction xs with
  | nil =>
    intro ys r s heq
    cases ys with
    | nil => simpa using heq
    | cons y ys =>
      simp only [List.flatMap_cons, List.append_assoc] at heq
      exact absurd (congrArg List.head? heq).symm (hclose y _)
  | cons x xs ih =>
    intro ys r s heq
    cases ys with
    | nil =>
      simp only [List.flatMap_cons, List.append_assoc] at heq
      exact absurd (congrArg List.head? heq) (hclose x _)
    | cons y ys =>
      simp only [List.flatMap_cons, List.append_assoc] at heq
      obtain ⟨rfl, htail⟩ := h heq
      obtain ⟨rfl, hrest⟩ := ih (y := ys) (by simpa using htail)
      exact ⟨rfl, hrest⟩

/-- A list with a sign between its code words, up to another one that no code word begins with. -/
theorem separated (h : PrefixFree f) {sep close : κ} (hne : sep ≠ close)
    (hclose : ∀ x r, (f x ++ r).head? ≠ some close) :
    PrefixFree fun xs : List α => List.intercalate [sep] (xs.map f) ++ [close] := by
  -- after the first code word, each one follows its separator
  have htail : ∀ (x : α) (xs : List α), List.intercalate [sep] ((x :: xs).map f) =
      f x ++ xs.flatMap fun y => sep :: f y := by
    intro x xs
    induction xs generalizing x with
    | nil => simp
    | cons y ys ih =>
      rw [List.map_cons, List.map_cons, List.intercalate_cons_cons, ← List.map_cons, ih y, List.flatMap_cons]
      simp
  have hrest : PrefixFree fun xs : List α => (xs.flatMap fun y => sep :: f y) ++ [close] :=
    closed (front h [sep]) fun x r => by simpa using hne
  intro xs ys r s heq
  cases xs with
  | nil =>
    cases ys with
    | nil => simpa using heq
    | cons y ys =>
      simp only [htail, List.append_assoc] at heq
      exact absurd (congrArg List.head? heq).symm (hclose y _)
  | cons x xs =>
    cases ys with
    | nil =>
      simp only [htail, List.append_assoc] at heq
      exact absurd (congrArg List.head? heq) (hclose x _)
    | cons y ys =>
      simp only [htail, List.append_assoc] at heq
      obtain ⟨rfl, hitems⟩ := h heq
      obtain ⟨rfl, hfollows⟩ := hrest (x := xs) (y := ys) (by simpa using hitems)
      exact ⟨rfl, hfollows⟩

end PrefixFree

/-! ## Texts in JSON -/

/-- A character of a JSON text. -/
def jsonChar (c : Char) : List Char :=
  if c = '"' then ['\\', '"']
  else if c = '\\' then ['\\', '\\']
  else if c.toNat = 8 then ['\\', 'b']
  else if c.toNat = 12 then ['\\', 'f']
  else if c.toNat = 10 then ['\\', 'n']
  else if c.toNat = 13 then ['\\', 'r']
  else if c.toNat = 9 then ['\\', 't']
  else if c.toNat < 32 then '\\' :: 'u' :: padStart 4 (numeral 16 c.toNat)
  else [c]

/-- A text in JSON. -/
def jsonText (text : List Char) : List Char := '"' :: text.flatMap jsonChar ++ ['"']

/-- A field of an object in JSON. -/
def jsonField (name : String) (value : List Char) : List Char := jsonText name.toList ++ ':' :: value

/-- An object in JSON. -/
def jsonObject (fields : List (List Char)) : List Char := '{' :: List.intercalate [','] fields ++ ['}']

/-- An array in JSON. -/
def jsonArray (items : List (List Char)) : List Char := '[' :: List.intercalate [','] items ++ [']']

/-- The character after a backslash. -/
def escaped (c : Char) : Char :=
  if c = 'b' then Char.ofNat 8
  else if c = 'f' then Char.ofNat 12
  else if c = 'n' then Char.ofNat 10
  else if c = 'r' then Char.ofNat 13
  else if c = 't' then Char.ofNat 9
  else c

/-- Reads a character of a JSON text. -/
def readChar : List Char → Option (Char × List Char)
  | '\\' :: 'u' :: rest => (readDigits 16 (rest.take 4)).map fun n => (Char.ofNat n, rest.drop 4)
  | '\\' :: c :: rest => some (escaped c, rest)
  | c :: rest => some (c, rest)
  | [] => none

theorem ofNat_of_toNat {c : Char} {n : ℕ} (h : c.toNat = n) : Char.ofNat n = c := by
  rw [← h, Char.ofNat_toNat]

theorem length_padStart_numeral : ∀ n < 32, (padStart 4 (numeral 16 n)).length = 4 := by decide +kernel

theorem readChar_jsonChar (c : Char) (rest : List Char) : readChar (jsonChar c ++ rest) = some (c, rest) := by
  rw [jsonChar]
  split_ifs with hquote hslash h8 h12 h10 h13 h9 hcontrol
  · simp [readChar, escaped, hquote]
  · simp [readChar, escaped, hslash]
  · simpa [readChar, escaped] using ofNat_of_toNat h8
  · simpa [readChar, escaped] using ofNat_of_toNat h12
  · simpa [readChar, escaped] using ofNat_of_toNat h10
  · simpa [readChar, escaped] using ofNat_of_toNat h13
  · simpa [readChar, escaped] using ofNat_of_toNat h9
  · have hlength := length_padStart_numeral c.toNat hcontrol
    rw [List.cons_append, List.cons_append, readChar, List.take_left' hlength, List.drop_left' hlength,
      readDigits_padStart, Option.map_some, Char.ofNat_toNat]
  · unfold readChar
    split
    · rename_i heq
      simp only [List.cons_append, List.nil_append, List.cons.injEq] at heq
      exact absurd heq.1 hslash
    · rename_i heq
      simp only [List.cons_append, List.nil_append, List.cons.injEq] at heq
      exact absurd heq.1 hslash
    · rename_i heq
      simp only [List.cons_append, List.nil_append, List.cons.injEq] at heq
      rw [heq.1, heq.2]
    · rename_i heq
      simp at heq

theorem prefixFree_char : PrefixFree jsonChar := prefixFree_of_reader readChar_jsonChar

/-- No character is written with a quotation mark in front. -/
theorem head?_jsonChar (c : Char) (rest : List Char) : (jsonChar c ++ rest).head? ≠ some '"' := by
  rw [jsonChar]
  split_ifs with hquote
  all_goals simp_all

theorem prefixFree_text : PrefixFree jsonText := PrefixFree.front (prefixFree_char.closed head?_jsonChar) ['"']

/-- An array of what is read in one way. -/
theorem prefixFree_array {f : α → List Char} (h : PrefixFree f) (hclose : ∀ x r, (f x ++ r).head? ≠ some ']') :
    PrefixFree fun xs : List α => jsonArray (xs.map f) := by
  have hitems := PrefixFree.front (h.separated (show ',' ≠ ']' by decide) hclose) ['[']
  intro xs ys r s heq
  exact hitems (by simpa [jsonArray] using heq)

/-- A field of what is read in one way. -/
theorem prefixFree_field {f : α → List Char} (h : PrefixFree f) (name : String) :
    PrefixFree fun x => jsonField name (f x) := by
  have hfield := PrefixFree.front (PrefixFree.front h [':']) (jsonText name.toList)
  intro x y r s heq
  exact hfield (by simpa [jsonField] using heq)

/-! ## Bytes -/

/-- The bytes of `TextEncoder`. -/
def textBytes (text : List Char) : List UInt8 := text.flatMap String.utf8EncodeChar

theorem textBytes_append (a b : List Char) : textBytes (a ++ b) = textBytes a ++ textBytes b := List.flatMap_append

theorem textBytes_injective : Function.Injective textBytes := by
  intro a b h
  have hbytes : a.utf8Encode = b.utf8Encode := congrArg List.toByteArray h
  have hdecode := congrArg ByteArray.utf8Decode? hbytes
  rw [List.utf8Decode?_utf8Encode, List.utf8Decode?_utf8Encode, Option.some.injEq] at hdecode
  simpa using hdecode

end Codes
