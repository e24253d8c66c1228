import Mathlib

/-!
# Text

Text as a list of characters: the UTF-8 decoder that puts a replacement character for
what it cannot read, splitting at runs of blanks and at separators.

* `utf8Decode_ascii` — ASCII bytes decode to their characters;
* `splitRuns_two`, `trim_eq` — what is read back from two words joined by a blank;
* `map_trim_splitOn` — the words between separators do not depend on blanks around the text.
-/

namespace Text

/-! ## UTF-8 -/

/-- U+FFFD. -/
def replacement : Char := Char.ofNat 0xFFFD

/-- Where the decoder stands: the continuation bytes still owed, the bounds of the next one, and
the bits read so far. -/
structure Utf8State where
  needed : ℕ
  lower : ℕ
  upper : ℕ
  bits : ℕ

/-- Between two characters. -/
def Utf8State.between : Utf8State := ⟨0, 0x80, 0xBF, 0⟩

/-- The first byte of a character. -/
def firstByte (b : ℕ) : List Char × Utf8State :=
  if b ≤ 0x7F then ([Char.ofNat b], .between)
  else if 0xC2 ≤ b ∧ b ≤ 0xDF then ([], ⟨1, 0x80, 0xBF, b % 0x20⟩)
  else if 0xE0 ≤ b ∧ b ≤ 0xEF then
    ([], ⟨2, if b = 0xE0 then 0xA0 else 0x80, if b = 0xED then 0x9F else 0xBF, b % 0x10⟩)
  else if 0xF0 ≤ b ∧ b ≤ 0xF4 then
    ([], ⟨3, if b = 0xF0 then 0x90 else 0x80, if b = 0xF4 then 0x8F else 0xBF, b % 0x08⟩)
  else ([replacement], .between)

/-- One byte: the characters it completes, and the state after it. -/
def utf8Step (s : Utf8State) (b : ℕ) : List Char × Utf8State :=
  if s.needed = 0 then firstByte b
  else if s.lower ≤ b ∧ b ≤ s.upper then
    let bits := s.bits * 0x40 + b % 0x40
    if s.needed = 1 then ([Char.ofNat bits], .between)
    else ([], ⟨s.needed - 1, 0x80, 0xBF, bits⟩)
  else
    -- the character breaks off, and the byte starts a new one
    let next := firstByte b
    (replacement :: next.1, next.2)

/-- Decode from a state on. -/
def utf8From : Utf8State → List UInt8 → List Char
  | s, [] => if s.needed = 0 then [] else [replacement]
  | s, b :: bytes =>
    let next := utf8Step s b.toNat
    next.1 ++ utf8From next.2 bytes

/-- The text of a byte list. -/
def utf8Decode (bytes : List UInt8) : List Char := utf8From .between bytes

/-- The bytes of an ASCII text. -/
def asciiBytes (text : List Char) : List UInt8 := text.map fun c => UInt8.ofNat c.toNat

/-- ASCII bytes decode to their characters. -/
theorem utf8Decode_ascii {text : List Char} (h : ∀ c ∈ text, c.toNat < 128) :
    utf8Decode (asciiBytes text) = text := by
  unfold utf8Decode
  induction text with
  | nil => rfl
  | cons c text ih =>
    have hc : c.toNat < 128 := h c List.mem_cons_self
    have hbyte : (UInt8.ofNat c.toNat).toNat = c.toNat := by
      rw [UInt8.toNat_ofNat']
      omega
    have hfirst : firstByte c.toNat = ([c], .between) := by
      unfold firstByte
      rw [if_pos (by omega), Char.ofNat_toNat]
    have hstep : utf8Step .between c.toNat = ([c], .between) := hfirst
    show (utf8Step .between (UInt8.ofNat c.toNat).toNat).1 ++
      utf8From (utf8Step .between (UInt8.ofNat c.toNat).toNat).2 (asciiBytes text) = c :: text
    rw [hbyte, hstep, ih fun d hd => h d (List.mem_cons_of_mem _ hd)]
    rfl

/-! ## Blanks -/

/-- White space and line ends, as a regular expression's `\s` and `trim` have them. -/
def isBlank (c : Char) : Bool :=
  let n := c.toNat
  (9 ≤ n ∧ n ≤ 13) || n = 0x20 || n = 0xA0 || n = 0x1680 || (0x2000 ≤ n ∧ n ≤ 0x200A) ||
    n = 0x2028 || n = 0x2029 || n = 0x202F || n = 0x205F || n = 0x3000 || n = 0xFEFF

variable {α : Type} (p : α → Bool)

/-- Cut at every run of separators; a run at an end leaves an empty word there. -/
def splitRuns : List α → List (List α)
  | [] => [[]]
  | c :: text =>
    if p c then
      if text.head?.any p then splitRuns text else [] :: splitRuns text
    else
      match splitRuns text with
      | [] => [[c]]
      | word :: words => (c :: word) :: words

/-- Drop the separators at both ends. -/
def trim (text : List α) : List α := (text.dropWhile p).rdropWhile p

theorem splitRuns_word {word : List α} (h : ∀ c ∈ word, p c = false) : splitRuns p word = [word] := by
  induction word with
  | nil => rfl
  | cons c word ih =>
    have hc : p c = false := h c List.mem_cons_self
    rw [splitRuns, hc, ih fun d hd => h d (List.mem_cons_of_mem _ hd)]
    rfl

/-- Two words joined by a separator are cut there. -/
theorem splitRuns_two {first second : List α} {sep : α} (hsep : p sep = true)
    (hfirst : ∀ c ∈ first, p c = false) (hsecond : ∀ c ∈ second, p c = false) :
    splitRuns p (first ++ sep :: second) = [first, second] := by
  induction first with
  | nil =>
    have hhead : second.head?.any p = false := by
      cases second with
      | nil => rfl
      | cons c second => simpa using hsecond c List.mem_cons_self
    rw [List.nil_append, splitRuns, hsep, hhead, splitRuns_word p hsecond]
    rfl
  | cons c first ih =>
    have hc : p c = false := hfirst c List.mem_cons_self
    rw [List.cons_append, splitRuns, hc, ih fun d hd => hfirst d (List.mem_cons_of_mem _ hd)]
    rfl

/-- A text with no separator at its ends is not changed. -/
theorem trim_eq {text : List α} (hhead : ∀ c ∈ text.head?, p c = false)
    (hlast : ∀ c ∈ text.getLast?, p c = false) : trim p text = text := by
  have hdrop : text.dropWhile p = text := by
    cases text with
    | nil => rfl
    | cons c text => exact List.dropWhile_cons_of_neg (by simpa using hhead c rfl)
  unfold trim
  rw [hdrop, List.rdropWhile_eq_self_iff]
  intro hne
  have := hlast (text.getLast hne) (List.getLast?_eq_getLast_of_ne_nil hne)
  simp [this]

variable {p}

theorem trim_eq_nil_iff {text : List α} : trim p text = [] ↔ ∀ c ∈ text, p c = true := by
  rw [trim, List.rdropWhile_eq_nil_iff]
  constructor
  · intro h
    have hall : text.dropWhile p = [] := by
      by_contra hne
      exact absurd (h _ (List.head_mem hne)) (by simp [List.head_dropWhile_not])
    exact List.dropWhile_eq_nil_iff.1 hall
  · intro h
    rw [List.dropWhile_eq_nil_iff.2 h]
    simp

theorem trim_append_front {front : List α} (h : ∀ c ∈ front, p c = true) (text : List α) :
    trim p (front ++ text) = trim p text := by
  rw [trim, List.dropWhile_append_of_pos h, trim]

theorem trim_append_back {back : List α} (h : ∀ c ∈ back, p c = true) (text : List α) :
    trim p (text ++ back) = trim p text := by
  have hback : ∀ c ∈ back.reverse, p c = true := fun c hc => h c (List.mem_reverse.1 hc)
  rw [trim, trim, List.dropWhile_append]
  split
  · next hempty =>
    rw [List.isEmpty_iff.1 hempty, List.dropWhile_eq_nil_iff.2 h]
  · rw [List.rdropWhile, List.reverse_append, List.dropWhile_append_of_pos hback, ← List.rdropWhile]

/-- What was dropped at both ends. -/
theorem exists_trim (text : List α) : ∃ front back, (∀ c ∈ front, p c = true) ∧ (∀ c ∈ back, p c = true) ∧
    text = front ++ (trim p text ++ back) := by
  refine ⟨text.takeWhile p, (text.dropWhile p).rtakeWhile p, fun c hc => List.mem_takeWhile_imp hc, fun c hc => ?_, ?_⟩
  · exact List.mem_rtakeWhile_imp hc
  · rw [trim, List.rdropWhile_append_rtakeWhile, List.takeWhile_append_dropWhile]

@[simp] theorem trim_trim (text : List α) : trim p (trim p text) = trim p text := by
  obtain ⟨front, back, hfront, hback, htext⟩ := @exists_trim α p text
  conv_rhs => rw [htext, trim_append_front hfront, trim_append_back hback]

theorem mem_of_mem_trim {text : List α} {c : α} (h : c ∈ trim p text) : c ∈ text := by
  obtain ⟨front, back, -, -, htext⟩ := @exists_trim α p text
  rw [htext]
  simp [h]

/-- Dropping what is between the separators too leaves nothing for `trim` to drop. -/
theorem filter_trim {q : α → Bool} (h : ∀ c, p c = true → q c = false) (text : List α) :
    (trim p text).filter q = text.filter q := by
  have hnil : ∀ l : List α, (∀ c ∈ l, p c = true) → l.filter q = [] := by
    intro l hl
    rw [List.filter_eq_nil_iff]
    intro c hc
    rw [h c (hl c hc)]
    exact Bool.false_ne_true
  obtain ⟨front, back, hfront, hback, htext⟩ := @exists_trim α p text
  conv_rhs => rw [htext, List.filter_append, List.filter_append, hnil front hfront, hnil back hback]
  simp

/-! ## Cutting -/

section Cutting

variable [DecidableEq α] {sep : α}

theorem map_trim_splitOn_front (hsep : p sep = false) {front : List α} (h : ∀ c ∈ front, p c = true) (text : List α) :
    ((front ++ text).splitOn sep).map (trim p) = (text.splitOn sep).map (trim p) := by
  induction front with
  | nil => rfl
  | cons c front ih =>
    have hc := h c List.mem_cons_self
    have hne : c ≠ sep := by
      rintro rfl
      rw [hc] at hsep
      cases hsep
    rw [← ih fun d hd => h d (List.mem_cons_of_mem c hd), List.cons_append, List.splitOn_cons_eq_if_modifyHead, if_neg (by simpa using hne)]
    cases (front ++ text).splitOn sep with
    | nil => rfl
    | cons word words =>
      have hword : trim p (c :: word) = trim p word := @trim_append_front α p [c] (by simpa using hc) word
      rw [List.modifyHead_cons, List.map_cons, List.map_cons, hword]

/-- The first word goes to the first separator. -/
theorem exists_splitOn (text : List α) : ∃ words, text.splitOn sep = text.takeWhile (fun c => c ≠ sep) :: words := by
  induction text with
  | nil => exact ⟨[], rfl⟩
  | cons c text ih =>
    obtain ⟨words, hwords⟩ := ih
    by_cases hc : c = sep
    · exact ⟨text.splitOn sep, by simp [List.splitOn_cons_eq_if_modifyHead, hc]⟩
    · exact ⟨words, by simp [List.splitOn_cons_eq_if_modifyHead, hc, hwords]⟩

/-- The words have what is not a separator. -/
theorem mem_splitOn {text : List α} {c : α} : (∃ word ∈ text.splitOn sep, c ∈ word) ↔ c ∈ text ∧ c ≠ sep := by
  induction text with
  | nil => simp
  | cons d text ih =>
    rw [List.splitOn_cons_eq_if_modifyHead]
    by_cases hd : d = sep
    · rw [if_pos (by simpa using hd), List.mem_cons]
      simp only [List.mem_cons, exists_eq_or_imp, List.not_mem_nil, false_or, ih]
      constructor
      · rintro ⟨hmem, hne⟩
        exact ⟨.inr hmem, hne⟩
      · rintro ⟨rfl | hmem, hne⟩
        · exact absurd hd hne
        · exact ⟨hmem, hne⟩
    · rw [if_neg (by simpa using hd)]
      obtain ⟨word, words, hwords⟩ := List.exists_cons_of_ne_nil (List.splitOn_ne_nil sep text)
      rw [hwords] at ih ⊢
      simp only [List.modifyHead_cons, List.mem_cons, exists_eq_or_imp] at ih ⊢
      constructor
      · rintro ((rfl | hmem) | hmem)
        · exact ⟨.inl rfl, hd⟩
        · exact ⟨.inr (ih.1 (.inl hmem)).1, (ih.1 (.inl hmem)).2⟩
        · exact ⟨.inr (ih.1 (.inr hmem)).1, (ih.1 (.inr hmem)).2⟩
      · rintro ⟨rfl | hmem, hne⟩
        · exact .inl (.inl rfl)
        · exact (ih.2 ⟨hmem, hne⟩).imp_left .inr

/-- What is put behind a text is behind its last word. -/
theorem splitOn_append {back : List α} (h : sep ∉ back) (text : List α) : ∃ words last,
    text.splitOn sep = words ++ [last] ∧ (text ++ back).splitOn sep = words ++ [last ++ back] := by
  induction text with
  | nil => exact ⟨[], [], rfl, List.splitOn_eq_singleton h⟩
  | cons c text ih =>
    obtain ⟨words, last, htext, happend⟩ := ih
    rw [List.cons_append, List.splitOn_cons_eq_if_modifyHead, List.splitOn_cons_eq_if_modifyHead, htext, happend]
    by_cases hc : (c == sep) = true
    · rw [if_pos hc, if_pos hc]
      exact ⟨[] :: words, last, rfl, rfl⟩
    · rw [if_neg hc, if_neg hc]
      cases words with
      | nil => exact ⟨[], c :: last, rfl, rfl⟩
      | cons word words => exact ⟨(c :: word) :: words, last, rfl, rfl⟩

/-- The words of a text are those of the text without its ends. -/
theorem map_trim_splitOn (hsep : p sep = false) (text : List α) :
    ((trim p text).splitOn sep).map (trim p) = (text.splitOn sep).map (trim p) := by
  obtain ⟨front, back, hfront, hback, htext⟩ := @exists_trim α p text
  have hnot : sep ∉ back := by
    intro hmem
    rw [hback sep hmem] at hsep
    cases hsep
  obtain ⟨words, last, hwords, happend⟩ := splitOn_append hnot (trim p text)
  conv_rhs => rw [htext, map_trim_splitOn_front hsep hfront, happend]
  rw [hwords, List.map_append, List.map_append, List.map_cons, List.map_cons, trim_append_back hback]

end Cutting

end Text
