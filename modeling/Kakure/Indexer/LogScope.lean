import Kakure.Indexer.Ingest
import Kakure.Lib.Numerals

/-!
# Whose data lines they are

`programDataLinesFor` on the logs of a transaction: frames in frames, with texts, data and budget lines between
them.  `INVOKE_RE` and `END_RE` take a line `Program log: <text>` for a bracket of a program `log:`, if the text is
the rest of one.

* `scopedLines_lines` — what the loop makes of a trace, on any stack;
* `attributed_of_contained` — the data lines are those of the program's own frames, if no frame closes a bracket
  that an enclosing frame's text has opened;
* `attributed_fails` — else they can be lost, or taken from another program.
-/

namespace Kakure.Indexer

open Numerals

/-! ## Traces -/

/-- What a transaction logs, in order: the texts, data, budget and return lines of a frame, lines of the runtime
and of builtins, and the frames it calls. -/
inductive Trace where
  | nil
  | log (text : List Char) (rest : Trace)
  | data (fields : List (List UInt8)) (rest : Trace)
  | consumed (id text : List Char) (rest : Trace)
  | returned (id : List Char) (bytes : List UInt8) (rest : Trace)
  | plain (line : List Char) (rest : Trace)
  | frame (id : List Char) (body : Trace) (failed : Option (List Char)) (rest : Trace)

/-- The line of `msg!`. -/
def logLine (text : List Char) : List Char := "Program ".toList ++ "log:".toList ++ ' ' :: text

/-- The line of the compute budget. -/
def consumedLine (id text : List Char) : List Char := "Program ".toList ++ id ++ " consumed ".toList ++ text

/-- The line of the data a program returns. -/
def returnLine (id : List Char) (bytes : List UInt8) : List Char :=
  "Program ".toList ++ "return:".toList ++ ' ' :: (id ++ ' ' :: Base64.encode bytes)

/-- The line that opens a frame. -/
def invokeLine (id : List Char) (depth : ℕ) : List Char :=
  "Program ".toList ++ id ++ (" invoke [".toList ++ (numeral 10 depth ++ [']']))

/-- The line that closes a frame, which failed with a message or did not. -/
def endLine (id : List Char) : Option (List Char) → List Char
  | none => "Program ".toList ++ id ++ " success".toList
  | some message => "Program ".toList ++ id ++ (" failed".toList ++ (": ".toList ++ message))

namespace Trace

/-- The lines of a trace whose frames are at a depth. -/
def lines : ℕ → Trace → List (List Char)
  | _, nil => []
  | depth, log text rest => logLine text :: rest.lines depth
  | depth, data fields rest => solLogData fields :: rest.lines depth
  | depth, consumed id text rest => consumedLine id text :: rest.lines depth
  | depth, returned id bytes rest => returnLine id bytes :: rest.lines depth
  | depth, plain line rest => line :: rest.lines depth
  | depth, frame id body failed rest =>
    invokeLine id depth :: (body.lines (depth + 1) ++ endLine id failed :: rest.lines depth)

/-- The data lines that a program logs in its own frames. -/
def dataOf (programId : List Char) : Option (List Char) → Trace → List (List Char)
  | _, nil => []
  | running, log _ rest => rest.dataOf programId running
  | running, data fields rest =>
    if running = some programId then solLogData fields :: rest.dataOf programId running
    else rest.dataOf programId running
  | running, consumed _ _ rest => rest.dataOf programId running
  | running, returned _ _ rest => rest.dataOf programId running
  | running, plain _ rest => rest.dataOf programId running
  | running, frame id body _ rest => body.dataOf programId (some id) ++ rest.dataOf programId running

end Trace

/-- The text of a program id: letters and digits. -/
def ProgramText (id : List Char) : Prop := id ≠ [] ∧ ∀ c ∈ id, c.isAlphanum = true

/-- A text that reads as the opening of a frame. -/
def OpensFrame (text : List Char) : Prop := "invoke [".toList <+: text ∧ isDepth (text.drop 8) = true

/-- A text that reads as the end of a frame. -/
def EndsFrame (text : List Char) : Prop := "success".toList <+: text ∨ "failed".toList <+: text

instance (id : List Char) : Decidable (ProgramText id) := inferInstanceAs (Decidable (_ ∧ _))
instance (text : List Char) : Decidable (OpensFrame text) := inferInstanceAs (Decidable (_ ∧ _))
instance (text : List Char) : Decidable (EndsFrame text) := inferInstanceAs (Decidable (_ ∨ _))

/-- The text of a data line. -/
def dataText (fields : List (List UInt8)) : List Char := [' '].intercalate (fields.map Base64.encode)

namespace Trace

/-- The programs of a trace have ids, and a line that is no program's does not begin as one. -/
def Named : Trace → Prop
  | nil => True
  | log _ rest => rest.Named
  | data _ rest => rest.Named
  | consumed id _ rest => ProgramText id ∧ rest.Named
  | returned id _ rest => ProgramText id ∧ rest.Named
  | plain line rest => ¬ "Program ".toList <+: line ∧ rest.Named
  | frame id body _ rest => ProgramText id ∧ body.Named ∧ rest.Named

/-- A program's own frames log no text that opens a frame and no data that ends one. -/
def Quiet (programId : List Char) : Option (List Char) → Trace → Prop
  | _, nil => True
  | running, log text rest => (running = some programId → ¬ OpensFrame text) ∧ rest.Quiet programId running
  | running, data fields rest =>
    (running = some programId → ¬ EndsFrame (dataText fields)) ∧ rest.Quiet programId running
  | running, consumed _ _ rest => rest.Quiet programId running
  | running, returned _ _ rest => rest.Quiet programId running
  | running, plain _ rest => rest.Quiet programId running
  | running, frame id body _ rest => body.Quiet programId (some id) ∧ rest.Quiet programId running

/-- No frame logs a text that ends a frame while its own texts have opened none and those of a frame around it
have; `around` says that they have, `own` counts the frame's own ones that are open. -/
def Contained (around : Bool) : ℕ → Trace → Prop
  | _, nil => True
  | own, log text rest =>
    if OpensFrame text then rest.Contained around (own + 1)
    else if EndsFrame text then (own = 0 → around = false) ∧ rest.Contained around (own - 1)
    else rest.Contained around own
  | own, data _ rest => rest.Contained around own
  | own, consumed _ _ rest => rest.Contained around own
  | own, returned _ _ rest => rest.Contained around own
  | own, plain _ rest => rest.Contained around own
  | own, frame _ body _ rest => body.Contained (around || decide (0 < own)) 0 ∧ rest.Contained around own

/-- The function returns the data lines of the program's own frames. -/
def Attributed (t : Trace) (programId : List Char) : Prop :=
  programDataLinesFor (t.lines 1) programId = t.dataOf programId none

instance (t : Trace) (programId : List Char) : Decidable (t.Attributed programId) :=
  inferInstanceAs (Decidable (_ = _))

end Trace

/-! ## How the lines read -/

/-- What the brackets of log, data and return lines capture. -/
def logId : List Char := "log:".toList
def dataId : List Char := "data:".toList
def returnId : List Char := "return:".toList

theorem bracketLine_append {id rest : List Char} (hne : id ≠ [])
    (hid : ∀ c ∈ id, Text.isBlank c = false) (hrest : ∀ c ∈ rest.head?, Text.isBlank c = true) :
    bracketLine ("Program ".toList ++ id ++ rest) = some (id, rest) := by
  have htake : (id ++ rest).takeWhile (fun c => !Text.isBlank c) = id ∧
      (id ++ rest).dropWhile (fun c => !Text.isBlank c) = rest := by
    rw [List.takeWhile_append_of_pos (by simpa using hid), List.dropWhile_append_of_pos (by simpa using hid)]
    cases rest with
    | nil => simp
    | cons c rest => simp [hrest c rfl]
  have hdrop : ("Program ".toList ++ id ++ rest).drop 8 = id ++ rest := by
    rw [List.append_assoc]
    exact List.drop_left' (by decide)
  unfold bracketLine
  rw [if_pos (by rw [List.append_assoc]; exact List.prefix_append _ _)]
  simp only [hdrop, htake, if_neg hne]

theorem isBlank_of_isAlphanum {c : Char} (h : c.isAlphanum = true) : Text.isBlank c = false := by
  have hrange : (48 ≤ c.toNat ∧ c.toNat ≤ 57) ∨ (65 ≤ c.toNat ∧ c.toNat ≤ 90) ∨ 97 ≤ c.toNat ∧ c.toNat ≤ 122 := by
    simp only [Char.isAlphanum, Char.isAlpha, Char.isUpper, Char.isLower, Char.isDigit, Bool.or_eq_true,
      Bool.and_eq_true, decide_eq_true_eq, UInt32.le_iff_toNat_le, Char.reduceVal, UInt32.reduceToNat] at h
    simp only [Char.toNat]
    omega
  simp only [Text.isBlank, Bool.or_eq_false_iff, decide_eq_false_iff_not]
  omega

theorem ProgramText.not_blank {id : List Char} (h : ProgramText id) : ∀ c ∈ id, Text.isBlank c = false :=
  fun c hc => isBlank_of_isAlphanum (h.2 c hc)

theorem ProgramText.ne_of_mem {id other : List Char} (h : ProgramText id) (hother : ':' ∈ other) : id ≠ other := by
  rintro rfl
  exact absurd (h.2 _ hother) (by decide)

theorem ProgramText.ne_logId {id : List Char} (h : ProgramText id) : id ≠ logId := h.ne_of_mem (by decide)

theorem ProgramText.ne_dataId {id : List Char} (h : ProgramText id) : id ≠ dataId := h.ne_of_mem (by decide)

theorem ProgramText.ne_returnId {id : List Char} (h : ProgramText id) : id ≠ returnId := h.ne_of_mem (by decide)

/-- The line of a word with a colon is a bracket of the word. -/
theorem bracketLine_word {word : List Char} (hne : word ≠ []) (hall : (word.all fun c => !Text.isBlank c) = true)
    (text : List Char) : bracketLine ("Program ".toList ++ word ++ ' ' :: text) = some (word, ' ' :: text) :=
  bracketLine_append hne (fun c hc => by simpa using List.all_eq_true.1 hall c hc) (by simp; decide)

/-- The bracket of a text line. -/
theorem bracketLine_logLine_text (text : List Char) : bracketLine (logLine text) = some (logId, ' ' :: text) :=
  bracketLine_word (by decide) (by decide) text

theorem bracketLine_solLogData (fields : List (List UInt8)) :
    bracketLine (solLogData fields) = some (dataId, ' ' :: dataText fields) := by
  have hline : solLogData fields = "Program ".toList ++ "data:".toList ++ ' ' :: dataText fields := by
    have hdata : "Program data: ".toList = "Program ".toList ++ "data:".toList ++ [' '] := by decide
    unfold solLogData dataText
    rw [hdata, List.append_assoc _ [' '], List.singleton_append]
  rw [hline]
  exact bracketLine_word (by decide) (by decide) _

theorem bracketLine_program {id rest : List Char} (h : ProgramText id) (hrest : rest.head? = some ' ') :
    bracketLine ("Program ".toList ++ id ++ rest) = some (id, rest) := by
  refine bracketLine_append h.1 h.not_blank ?_
  rw [hrest]
  simp
  decide

/-- A line with the prefix of data has the bracket of data. -/
theorem bracketLine_of_dataPrefix {line : List Char} (h : programDataPrefix <+: line) :
    ∃ rest, bracketLine line = some (dataId, rest) := by
  obtain ⟨more, rfl⟩ := h
  have hline : programDataPrefix ++ more = "Program ".toList ++ "data:".toList ++ ' ' :: more := by
    have hdata : programDataPrefix = "Program ".toList ++ "data:".toList ++ [' '] := by decide
    rw [hdata, List.append_assoc _ [' '], List.singleton_append]
  rw [hline]
  exact ⟨_, bracketLine_word (by decide) (by decide) more⟩

/-- A text opens a frame behind a blank as it does alone. -/
theorem opensFrame_iff (text : List Char) :
    (" invoke [".toList <+: ' ' :: text ∧ isDepth ((' ' :: text).drop 9) = true) ↔ OpensFrame text := by
  have hpre : " invoke [".toList = ' ' :: "invoke [".toList := by decide
  rw [hpre, List.cons_prefix_cons, List.drop_succ_cons]
  simp [OpensFrame]

theorem endsFrame_iff (text : List Char) :
    (" success".toList <+: ' ' :: text ∨ " failed".toList <+: ' ' :: text) ↔ EndsFrame text := by
  have hsuccess : " success".toList = ' ' :: "success".toList := by decide
  have hfailed : " failed".toList = ' ' :: "failed".toList := by decide
  rw [hsuccess, hfailed, List.cons_prefix_cons, List.cons_prefix_cons]
  simp [EndsFrame]

theorem invokeRe_log (text : List Char) : invokeRe (logLine text) = if OpensFrame text then some logId else none := by
  unfold invokeRe
  rw [bracketLine_logLine_text]
  simp only [opensFrame_iff]

theorem endRe_log (text : List Char) : endRe (logLine text) = if EndsFrame text then some logId else none := by
  unfold endRe
  rw [bracketLine_logLine_text]
  simp only [endsFrame_iff]

/-- The characters of data are no brackets. -/
theorem not_mem_dataText (fields : List (List UInt8)) : '[' ∉ dataText fields := by
  unfold dataText
  induction fields with
  | nil => simp
  | cons field fields ih =>
    have hfield : '[' ∉ Base64.encode field := fun h => absurd (Base64.mem_encode h) (by decide)
    cases fields with
    | nil => simpa using hfield
    | cons next fields =>
      rw [List.map_cons, List.map_cons, List.intercalate_cons_cons]
      simp only [List.mem_append, List.mem_singleton, not_or]
      exact ⟨⟨hfield, by decide⟩, ih⟩

theorem invokeRe_data (fields : List (List UInt8)) : invokeRe (solLogData fields) = none := by
  unfold invokeRe
  rw [bracketLine_solLogData]
  refine if_neg ?_
  rw [opensFrame_iff]
  rintro ⟨hpre, -⟩
  exact not_mem_dataText fields (hpre.subset (by decide))

theorem endRe_data (fields : List (List UInt8)) :
    endRe (solLogData fields) = if EndsFrame (dataText fields) then some dataId else none := by
  unfold endRe
  rw [bracketLine_solLogData]
  simp only [endsFrame_iff]

theorem brackets_consumed {id : List Char} (h : ProgramText id) (text : List Char) :
    invokeRe (consumedLine id text) = none ∧ endRe (consumedLine id text) = none ∧
      ¬ programDataPrefix <+: consumedLine id text := by
  have hbracket : bracketLine (consumedLine id text) = some (id, " consumed ".toList ++ text) := by
    unfold consumedLine
    rw [List.append_assoc ("Program ".toList ++ id)]
    exact bracketLine_program h rfl
  refine ⟨?_, ?_, ?_⟩
  · unfold invokeRe
    rw [hbracket]
    simp
  · unfold endRe
    rw [hbracket]
    simp
  · intro hpre
    obtain ⟨rest, hrest⟩ := bracketLine_of_dataPrefix hpre
    rw [hbracket, Option.some_inj, Prod.mk.injEq] at hrest
    exact h.ne_dataId hrest.1

/-- A line of returned bytes opens nothing; what it may seem to close is no program. -/
theorem brackets_returned {id : List Char} (h : ProgramText id) (bytes : List UInt8) :
    invokeRe (returnLine id bytes) = none ∧
      (endRe (returnLine id bytes) = none ∨ endRe (returnLine id bytes) = some returnId) ∧
      ¬ programDataPrefix <+: returnLine id bytes := by
  have hbracket : bracketLine (returnLine id bytes) = some (returnId, ' ' :: (id ++ ' ' :: Base64.encode bytes)) :=
    bracketLine_word (by decide) (by decide) _
  refine ⟨?_, ?_, ?_⟩
  · -- neither an id nor bytes has a square bracket
    have hmem : '[' ∉ id ++ ' ' :: Base64.encode bytes := by
      rw [List.mem_append, List.mem_cons, not_or, not_or]
      exact ⟨fun hid => absurd (h.2 _ hid) (by decide), by decide,
        fun hdata => absurd (Base64.mem_encode hdata) (by decide)⟩
    unfold invokeRe
    rw [hbracket]
    refine if_neg ?_
    rw [opensFrame_iff]
    rintro ⟨hpre, -⟩
    exact hmem (hpre.subset (by decide))
  · unfold endRe
    rw [hbracket]
    dsimp only
    split
    · exact Or.inr rfl
    · exact Or.inl rfl
  · intro hpre
    obtain ⟨rest, hrest⟩ := bracketLine_of_dataPrefix hpre
    rw [hbracket, Option.some_inj, Prod.mk.injEq] at hrest
    exact absurd hrest.1 (by decide)

/-- A line that does not begin as a program's is none of the three. -/
theorem brackets_plain {line : List Char} (h : ¬ "Program ".toList <+: line) :
    invokeRe line = none ∧ endRe line = none ∧ ¬ programDataPrefix <+: line := by
  have hbracket : bracketLine line = none := if_neg h
  refine ⟨?_, ?_, fun hpre => ?_⟩
  · unfold invokeRe
    rw [hbracket]
  · unfold endRe
    rw [hbracket]
  · obtain ⟨rest, hrest⟩ := bracketLine_of_dataPrefix hpre
    rw [hbracket] at hrest
    cases hrest

theorem isDepth_numeral (n : ℕ) : isDepth (numeral 10 n ++ [']']) = true := by
  have hdigit : ∀ c ∈ numeral 10 n, c.isDigit = true := by
    intro c hc
    obtain ⟨d, hd, rfl⟩ := mem_numeral (by norm_num) n c hc
    have hall : ∀ d < 10, d.digitChar.isDigit = true := by decide
    exact hall d hd
  unfold isDepth
  rw [List.takeWhile_append_of_pos hdigit, List.dropWhile_append_of_pos hdigit]
  have hend : (']' : Char).isDigit = false := by decide
  simp [hend, numeral_ne_nil]

theorem invokeRe_invoke {id : List Char} (h : ProgramText id) (depth : ℕ) :
    invokeRe (invokeLine id depth) = some id := by
  unfold invokeRe invokeLine
  rw [bracketLine_program h rfl]
  refine if_pos ⟨List.prefix_append _ _, ?_⟩
  rw [List.drop_left' (by decide)]
  exact isDepth_numeral depth

theorem brackets_end {id : List Char} (h : ProgramText id) (failed : Option (List Char)) :
    invokeRe (endLine id failed) = none ∧ endRe (endLine id failed) = some id := by
  cases failed with
  | none =>
    unfold endLine invokeRe endRe
    rw [bracketLine_program h rfl]
    simp
  | some message =>
    unfold endLine invokeRe endRe
    rw [bracketLine_program h rfl]
    simp

/-! ## The loop -/

/-- The stack after a closing line. -/
def closed (id : List Char) (stack : List (List Char)) : List (List Char) :=
  if id ∈ stack then (stack.dropWhile fun id' => id' ≠ id).tail else stack

theorem closed_of_not_mem {id : List Char} {stack : List (List Char)} (h : id ∉ stack) : closed id stack = stack :=
  if_neg h

theorem closed_cons (id : List Char) (stack : List (List Char)) : closed id (id :: stack) = stack := by
  simp [closed]

/-- A frame is closed with the texts it has open. -/
theorem closed_frame {id : List Char} (hne : id ≠ logId) (own : ℕ) (stack : List (List Char)) :
    closed id (List.replicate own logId ++ id :: stack) = stack := by
  have hdrop : (List.replicate own logId ++ id :: stack).dropWhile (fun id' => id' ≠ id) = id :: stack := by
    induction own with
    | zero => simp
    | succ own ih =>
      rw [List.replicate_succ, List.cons_append, List.dropWhile_cons_of_pos (by simpa using hne.symm)]
      exact ih
  rw [closed, if_pos (by simp), hdrop]
  rfl

section Loop

variable (programId : List Char) (stack lines : List (List Char))

theorem scopedLines_cons (line : List Char) :
    scopedLines programId stack (line :: lines) =
      match invokeRe line, endRe line with
      | some id, _ => scopedLines programId (id :: stack) lines
      | none, some id => scopedLines programId (closed id stack) lines
      | none, none =>
        if programDataPrefix <+: line ∧ stack.head? = some programId then line :: scopedLines programId stack lines
        else scopedLines programId stack lines := by
  rw [scopedLines]
  cases invokeRe line <;> cases endRe line <;> rfl

theorem scopedLines_log (text : List Char) :
    scopedLines programId stack (logLine text :: lines) =
      if OpensFrame text then scopedLines programId (logId :: stack) lines
      else if EndsFrame text then scopedLines programId (closed logId stack) lines
      else scopedLines programId stack lines := by
  have hpre : ¬ programDataPrefix <+: logLine text := by
    intro h
    obtain ⟨rest, hrest⟩ := bracketLine_of_dataPrefix h
    rw [bracketLine_logLine_text, Option.some_inj, Prod.mk.injEq] at hrest
    exact absurd hrest.1 (by decide)
  rw [scopedLines_cons, invokeRe_log, endRe_log]
  by_cases hopens : OpensFrame text
  · simp only [if_pos hopens]
  · by_cases hends : EndsFrame text
    · simp only [if_neg hopens, if_pos hends]
    · simp only [if_neg hopens, if_neg hends, hpre, false_and, if_false]

theorem scopedLines_data (fields : List (List UInt8)) :
    scopedLines programId stack (solLogData fields :: lines) =
      if EndsFrame (dataText fields) then scopedLines programId (closed dataId stack) lines
      else if stack.head? = some programId then solLogData fields :: scopedLines programId stack lines
      else scopedLines programId stack lines := by
  have hpre : programDataPrefix <+: solLogData fields := List.prefix_append _ _
  rw [scopedLines_cons, invokeRe_data, endRe_data]
  by_cases hends : EndsFrame (dataText fields)
  · simp only [if_pos hends]
  · simp only [if_neg hends, hpre, true_and]

theorem scopedLines_consumed {id : List Char} (h : ProgramText id) (text : List Char) :
    scopedLines programId stack (consumedLine id text :: lines) = scopedLines programId stack lines := by
  obtain ⟨hinvoke, hend, hpre⟩ := brackets_consumed h text
  rw [scopedLines_cons, hinvoke]
  simp only [hend, hpre, false_and, if_false]

theorem scopedLines_returned {id : List Char} (h : ProgramText id) (bytes : List UInt8) (hstack : returnId ∉ stack) :
    scopedLines programId stack (returnLine id bytes :: lines) = scopedLines programId stack lines := by
  obtain ⟨hinvoke, hend, hpre⟩ := brackets_returned h bytes
  rw [scopedLines_cons, hinvoke]
  rcases hend with hend | hend
  · simp only [hend, hpre, false_and, if_false]
  · simp only [hend, closed_of_not_mem hstack]

theorem scopedLines_plain {line : List Char} (h : ¬ "Program ".toList <+: line) :
    scopedLines programId stack (line :: lines) = scopedLines programId stack lines := by
  obtain ⟨hinvoke, hend, hpre⟩ := brackets_plain h
  rw [scopedLines_cons, hinvoke]
  simp only [hend, hpre, false_and, if_false]

theorem scopedLines_invoke {id : List Char} (h : ProgramText id) (depth : ℕ) :
    scopedLines programId stack (invokeLine id depth :: lines) = scopedLines programId (id :: stack) lines := by
  rw [scopedLines_cons, invokeRe_invoke h]

theorem scopedLines_end {id : List Char} (h : ProgramText id) (failed : Option (List Char)) :
    scopedLines programId stack (endLine id failed :: lines) = scopedLines programId (closed id stack) lines := by
  obtain ⟨hinvoke, hend⟩ := brackets_end h failed
  rw [scopedLines_cons, hinvoke]
  simp only [hend]

end Loop

/-- The stack of a loop that has not lost a frame: the frames that run, and below each the openings its texts have
left; `around` says whether those below the last frame have any. -/
structure StackOf (programId : List Char) (running : Option (List Char)) (around : Bool) (own : ℕ)
    (base : List (List Char)) : Prop where
  head : base.head? = running
  around : around = false → logId ∉ base
  data : dataId ∉ base
  returned : returnId ∉ base
  own : running = some programId → own = 0

/-- What is neither on the stack nor the id of a text is not there with texts open either. -/
theorem not_mem_replicate_append {id : List Char} (hne : id ≠ logId) {base : List (List Char)} (h : id ∉ base)
    {own : ℕ} : id ∉ List.replicate own logId ++ base := by
  rw [List.mem_append, not_or]
  exact ⟨fun hmem => hne (List.eq_of_mem_replicate hmem), h⟩

/-- On such a stack the loop keeps the data lines of the program's own frames, and leaves the frames as they were. -/
theorem scopedLines_lines {programId : List Char} (hprogram : ProgramText programId) (t : Trace) :
    ∀ {running : Option (List Char)} {around : Bool} {own : ℕ} {base : List (List Char)} (depth : ℕ)
      (lines : List (List Char)), StackOf programId running around own base → t.Named →
      t.Quiet programId running → t.Contained around own →
      ∃ own', scopedLines programId (List.replicate own logId ++ base) (t.lines depth ++ lines) =
        t.dataOf programId running ++ scopedLines programId (List.replicate own' logId ++ base) lines := by
  induction t with
  | nil =>
    intro running around own base depth lines _ _ _ _
    exact ⟨own, rfl⟩
  | log text rest ih =>
    intro running around own base depth lines hstack hnamed hquiet hcontained
    rw [Trace.lines, List.cons_append, scopedLines_log, Trace.dataOf]
    rw [Trace.Contained] at hcontained
    by_cases hopens : OpensFrame text
    · -- another opening of the frame's own; the program itself logs none
      rw [if_pos hopens] at hcontained ⊢
      have hother : running ≠ some programId := fun h => hquiet.1 h hopens
      exact ih depth lines ⟨hstack.head, hstack.around, hstack.data, hstack.returned, fun h => absurd h hother⟩
        hnamed hquiet.2 hcontained
    · rw [if_neg hopens] at hcontained ⊢
      by_cases hends : EndsFrame text
      · rw [if_pos hends] at hcontained ⊢
        have hown : running = some programId → own - 1 = 0 := fun h => by rw [hstack.own h]
        have hrest := ih depth lines ⟨hstack.head, hstack.around, hstack.data, hstack.returned, hown⟩ hnamed
          hquiet.2 hcontained.2
        cases own with
        | zero =>
          have hmem : logId ∉ base := hstack.around (hcontained.1 rfl)
          rw [List.replicate_zero, List.nil_append, closed_of_not_mem hmem]
          exact hrest
        | succ own =>
          rw [List.replicate_succ, List.cons_append, closed_cons]
          exact hrest
      · rw [if_neg hends] at hcontained ⊢
        exact ih depth lines hstack hnamed hquiet.2 hcontained
  | data fields rest ih =>
    intro running around own base depth lines hstack hnamed hquiet hcontained
    obtain ⟨own', hrest⟩ := ih depth lines hstack hnamed hquiet.2 hcontained
    refine ⟨own', ?_⟩
    rw [Trace.lines, List.cons_append, scopedLines_data, Trace.dataOf]
    by_cases hrunning : running = some programId
    · have hhead : (List.replicate own logId ++ base).head? = some programId := by
        rw [hstack.own hrunning, List.replicate_zero, List.nil_append, hstack.head, hrunning]
      rw [if_neg (hquiet.1 hrunning), if_pos hhead, if_pos hrunning, hrest, List.cons_append]
    · have hhead : (List.replicate own logId ++ base).head? ≠ some programId := by
        cases own with
        | zero =>
          rw [List.replicate_zero, List.nil_append, hstack.head]
          exact hrunning
        | succ own =>
          rw [List.replicate_succ, List.cons_append, List.head?_cons]
          intro h
          exact hprogram.ne_logId (Option.some_inj.1 h).symm
      rw [if_neg hhead, if_neg hrunning]
      by_cases hends : EndsFrame (dataText fields)
      · rw [if_pos hends, closed_of_not_mem (not_mem_replicate_append (by decide) hstack.data), hrest]
      · rw [if_neg hends, hrest]
  | consumed id text rest ih =>
    intro running around own base depth lines hstack hnamed hquiet hcontained
    rw [Trace.lines, List.cons_append, scopedLines_consumed _ _ _ hnamed.1, Trace.dataOf]
    exact ih depth lines hstack hnamed.2 hquiet hcontained
  | returned id bytes rest ih =>
    intro running around own base depth lines hstack hnamed hquiet hcontained
    rw [Trace.lines, List.cons_append, Trace.dataOf,
      scopedLines_returned _ _ _ hnamed.1 _ (not_mem_replicate_append (by decide) hstack.returned)]
    exact ih depth lines hstack hnamed.2 hquiet hcontained
  | plain line rest ih =>
    intro running around own base depth lines hstack hnamed hquiet hcontained
    rw [Trace.lines, List.cons_append, scopedLines_plain _ _ _ hnamed.1, Trace.dataOf]
    exact ih depth lines hstack hnamed.2 hquiet hcontained
  | frame id body failed rest ihBody ihRest =>
    intro running around own base depth lines hstack hnamed hquiet hcontained
    have hid := hnamed.1
    have hbody : StackOf programId (some id) (around || decide (0 < own)) 0
        (id :: (List.replicate own logId ++ base)) := by
      refine ⟨rfl, fun haround => ?_, ?_, ?_, fun _ => rfl⟩
      · rw [Bool.or_eq_false_iff, decide_eq_false_iff_not] at haround
        have hzero : own = 0 := by omega
        rw [hzero, List.replicate_zero, List.nil_append, List.mem_cons, not_or]
        exact ⟨hid.ne_logId.symm, hstack.around haround.1⟩
      · rw [List.mem_cons, not_or]
        exact ⟨hid.ne_dataId.symm, not_mem_replicate_append (by decide) hstack.data⟩
      · rw [List.mem_cons, not_or]
        exact ⟨hid.ne_returnId.symm, not_mem_replicate_append (by decide) hstack.returned⟩
    obtain ⟨own', hrest⟩ := ihRest depth lines hstack hnamed.2.2 hquiet.2 hcontained.2
    obtain ⟨left, hleft⟩ := ihBody (depth + 1) (endLine id failed :: (rest.lines depth ++ lines)) hbody hnamed.2.1
      hquiet.1 hcontained.1
    refine ⟨own', ?_⟩
    rw [Trace.lines, List.cons_append, List.append_assoc, List.cons_append, scopedLines_invoke _ _ _ hid,
      Trace.dataOf, List.append_assoc, ← hrest]
    rw [List.replicate_zero, List.nil_append] at hleft
    rw [hleft, scopedLines_end _ _ _ hid, closed_frame hid.ne_logId]

/-- The data lines of a program's own frames, whatever the other programs log: if the program is as quiet as it is
known to be, and no frame closes what the texts of a frame around it have opened. -/
theorem attributed_of_contained (t : Trace) (programId : List Char) (hprogram : ProgramText programId)
    (hnamed : t.Named) (hquiet : t.Quiet programId none) (hcontained : t.Contained false 0) :
    t.Attributed programId := by
  have hstack : StackOf programId none false 0 [] :=
    ⟨rfl, fun _ => List.not_mem_nil, List.not_mem_nil, List.not_mem_nil, fun h => nomatch h⟩
  obtain ⟨own, hlines⟩ := scopedLines_lines hprogram t 1 [] hstack hnamed hquiet hcontained
  unfold Trace.Attributed programDataLinesFor
  rw [List.append_nil, List.replicate_zero, List.append_nil] at hlines
  rw [hlines, scopedLines, List.append_nil]

/-! ## Texts that close a frame -/

theorem programText_of_all {id : List Char} (hne : id ≠ []) (h : id.all Char.isAlphanum = true) : ProgramText id :=
  ⟨hne, List.all_eq_true.1 h⟩

/-- A caller opens a bracket of its own in its texts and closes it, before it calls the pool. -/
def containedTrace : Trace :=
  .frame "Out1".toList
    (.log "invoke [7]".toList
      (.log "success".toList
        (.frame "Poo1".toList (.data [[1, 2, 3]] (.log "success".toList .nil)) none
          (.data [[4, 5, 6]] (.consumed "Out1".toList "9 of 10".toList .nil)))))
    (some "custom program error: 0x1".toList) .nil

theorem attributed_of_contained_sample : containedTrace.Attributed "Poo1".toList := by
  have hids : ProgramText "Poo1".toList ∧ ProgramText "Out1".toList :=
    ⟨programText_of_all (by decide) (by decide), programText_of_all (by decide) (by decide)⟩
  have hopens : OpensFrame "invoke [7]".toList ∧ ¬ OpensFrame "success".toList := by decide
  have hends : EndsFrame "success".toList := by decide
  refine attributed_of_contained containedTrace _ hids.1 ?_ ?_ ?_
  · simp only [containedTrace, Trace.Named, hids, and_self]
  · simp only [containedTrace, Trace.Quiet]
    decide
  · simp only [containedTrace, Trace.Contained, if_pos hopens.1, if_neg hopens.2, if_pos hends]
    simp

/-- A caller opens a bracket, and a program that the pool calls closes it, with the pool. -/
def hiddenTrace : Trace :=
  .frame "Out1".toList
    (.log "invoke [7]".toList
      (.frame "Poo1".toList
        (.frame "Inn1".toList (.log "success".toList .nil) none (.data [[1, 2, 3]] .nil)) none .nil))
    none .nil

/-- A program that the pool calls opens a bracket, calls itself and closes the outer call in the inner one. -/
def forgedTrace : Trace :=
  .frame "Poo1".toList
    (.frame "Inn1".toList
      (.log "invoke [7]".toList
        (.frame "Inn1".toList (.log "success".toList .nil) none (.data [[1, 2, 3]] .nil))) none .nil)
    none .nil

/-- So the pool's data is lost, and other data is taken for the pool's. -/
theorem attributed_fails :
    (hiddenTrace.Named ∧ hiddenTrace.Quiet "Poo1".toList none ∧ ¬ hiddenTrace.Attributed "Poo1".toList) ∧
      forgedTrace.Named ∧ forgedTrace.Quiet "Poo1".toList none ∧ ¬ forgedTrace.Attributed "Poo1".toList := by
  have hids : ProgramText "Poo1".toList ∧ ProgramText "Out1".toList ∧ ProgramText "Inn1".toList :=
    ⟨programText_of_all (by decide) (by decide), programText_of_all (by decide) (by decide),
      programText_of_all (by decide) (by decide)⟩
  refine ⟨⟨?_, ?_, by decide +kernel⟩, ?_, ?_, by decide +kernel⟩
  · simp only [hiddenTrace, Trace.Named, hids, and_self]
  · simp only [hiddenTrace, Trace.Quiet]
    decide
  · simp only [forgedTrace, Trace.Named, hids, and_self]
  · simp only [forgedTrace, Trace.Quiet]
    decide

end Kakure.Indexer
