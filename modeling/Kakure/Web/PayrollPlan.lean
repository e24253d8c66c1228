import Kakure.Lib.Base64
import Kakure.Lib.Decimals
import Kakure.Lib.Fallible
import Kakure.Lib.Numerals
import Kakure.Lib.Text

/-!
# The payroll table

`payrollPlan.ts` and the pay addresses of `receiveAddress.ts`: the text of a table of payments, read line by line
into rows.  What `JSON.parse` and `BigInt` make of the bytes of an address is a parameter.

* `parseHumanAmount_eq_some_iff` — the amounts that are read, and that they are exact;
* `faithful_iff` — no line is lost but a header, unless the first line is taken for one;
* `roundTrip_iff` — the payments that are read as they were written.
-/

namespace Kakure.Web

open Text Decimals Fallible

/-! ## Pay addresses -/

/-- `ReceiveAddress`. -/
structure ReceiveAddress where
  index : ℤ
  pubX : ℤ
  pubY : ℤ
  deriving DecidableEq

/-- What `JSON.stringify` makes of an address. -/
def ReceiveAddress.json (addr : ReceiveAddress) : List Char :=
  "\x7b\"index\":\"".toList ++ Numerals.toText 10 addr.index ++ "\",\"pubX\":\"".toList ++ Numerals.toText 10 addr.pubX ++
    "\",\"pubY\":\"".toList ++ Numerals.toText 10 addr.pubY ++ "\"\x7d".toList

/-- `encodeReceiveAddress`. -/
def encodeReceiveAddress (addr : ReceiveAddress) : List Char :=
  ((Base64.encode (asciiBytes addr.json)).map fun c => if c = '+' then '-' else if c = '/' then '_' else c).rdropWhile
    fun c => c = '='

/-- The blanks that `atob` passes over. -/
def isAsciiBlank (c : Char) : Bool := c = '\t' || c = '\n' || c = '\x0c' || c = '\r' || c = ' '

/-- The last padding character of a text is dropped. -/
def dropPad (text : List Char) : List Char := if text.getLast? = some '=' then text.dropLast else text

/-- `atob`. -/
def atob (text : List Char) : Option (List UInt8) :=
  let text := text.filter fun c => !isAsciiBlank c
  let text := if text.length % 4 = 0 then dropPad (dropPad text) else text
  if text.length % 4 ≠ 1 ∧ text.all (fun c => c ∈ Base64.alphabet) = true then some (Base64.decode text) else none

section Addresses

variable (readJson : List UInt8 → Option ReceiveAddress)

/-- `decodeReceiveAddress`. -/
def decodeReceiveAddress (encoded : List Char) : Option ReceiveAddress :=
  (atob (encoded.map fun c => if c = '-' then '+' else if c = '_' then '/' else c)).bind readJson

/-- `isValidAddress`. -/
def isValidAddress (raw : List Char) : Bool := (decodeReceiveAddress readJson (trim isBlank raw)).isSome

end Addresses

/-! ## Amounts -/

/-- The characters that are dropped from an amount. -/
def isMark (c : Char) : Bool := c = ',' || c = '_' || isBlank c

/-- `parseHumanAmount`. -/
def parseHumanAmount (raw : List Char) (decimals : ℕ) : Option ℕ :=
  match parts ((trim isBlank raw).filter fun c => !isMark c) with
  | none => none
  | some (whole, frac) =>
    if decimals < frac.length then none
    else
      let value := scaled decimals whole frac
      if 0 < value then some value else none

/-- `parseAmount`. -/
def parseAmount (raw : List Char) : Option ℕ :=
  let trimmed := trim isBlank raw
  if IsDigits trimmed then
    let value := digitsValue trimmed
    if 0 < value then some value else none
  else none

/-- The amount of a cell, `decimals` being an option of the call. -/
def readAmount (decimals : Option ℕ) (raw : List Char) : Option ℕ :=
  match decimals with
  | none => parseAmount raw
  | some decimals => parseHumanAmount raw decimals

/-! ## The table -/

/-- `PayrollRowStatus`. -/
inductive PayrollRowStatus where
  | pending
  | proving
  | awaitingSignatures
  | submitting
  | confirmed
  | failed
  deriving DecidableEq

/-- `PayrollRow`, as it is read. -/
structure PlannedRow where
  address : List Char
  amount : ℕ
  memo : List Char
  status : PayrollRowStatus
  deriving DecidableEq

/-- An entry of `lineErrors`. -/
structure LineError where
  line : ℕ
  message : String
  deriving DecidableEq

/-- `PayrollParseError`. -/
structure PayrollParseError where
  lineErrors : List LineError
  deriving DecidableEq

def PayrollParseError.message (error : PayrollParseError) : String :=
  "payroll CSV has " ++ toString error.lineErrors.length ++ " invalid row(s)"

/-- The carriage return before a line end belongs to the line end. -/
def dropReturn (line : List Char) : List Char := if line.getLast? = some '\r' then line.dropLast else line

/-- `split(/\r?\n/)`. -/
def splitLines (text : List Char) : List (List Char) :=
  let lines := text.splitOn '\n'
  lines.dropLast.map dropReturn ++ lines.drop (lines.length - 1)

/-- The lines of a table that are not empty. -/
def csvLines (csv : List Char) : List (List Char) :=
  ((splitLines csv).map (trim isBlank)).filter fun line => line ≠ []

/-- The cells of a line. -/
def cells (line : List Char) : List (List Char) := (line.splitOn ',').map (trim isBlank)

/-- What is said of a cell that is no amount. -/
def amountMessage (decimals : Option ℕ) (amountRaw : List Char) : String :=
  match decimals with
  | none => "\"" ++ String.ofList amountRaw ++ "\" is not a positive whole number"
  | some _ => "\"" ++ String.ofList amountRaw ++ "\" is not a positive amount"

/-- What is made of a line. -/
inductive LineResult where
  | skipped
  | error (error : LineError)
  | row (row : PlannedRow)

section Table

variable (readJson : List UInt8 → Option ReceiveAddress) (decimals : Option ℕ)

/-- The test for a header. -/
def LooksLikeHeader (line : List Char) : Prop :=
  (∃ address ∈ (cells line)[0]?, isValidAddress readJson address = false) ∧ parseAmount ((cells line)[1]?.getD []) = none

instance (line : List Char) : Decidable (LooksLikeHeader readJson line) := inferInstanceAs (Decidable (_ ∧ _))

/-- The body of the loop of `parsePayrollCsv`. -/
def parseLine (idx : ℕ) (line : List Char) : LineResult :=
  if idx = 0 ∧ LooksLikeHeader readJson line then .skipped
  else
    match (cells line)[0]?, (cells line)[1]? with
    | some address, some amountRaw =>
      if isValidAddress readJson address = false then
        .error ⟨idx + 1, "\"" ++ String.ofList address ++ "\" is not a valid Kakure pay address"⟩
      else
        match readAmount decimals amountRaw with
        | none =>
          .error ⟨idx + 1, amountMessage decimals amountRaw⟩
        | some amount =>
          .row ⟨address, amount, trim isBlank ([','].intercalate ((cells line).drop 2)), .pending⟩
    | _, _ => .error ⟨idx + 1, "expected address,amount[,memo]"⟩

/-- One turn of the loop: the errors and the rows so far. -/
def collect (acc : List LineError × List PlannedRow) (line : List Char × ℕ) : List LineError × List PlannedRow :=
  match parseLine readJson decimals line.2 line.1 with
  | .skipped => acc
  | .error error => (acc.1 ++ [error], acc.2)
  | .row row => (acc.1, acc.2 ++ [row])

/-- `parsePayrollCsv`. -/
def parsePayrollCsv (csv : List Char) : Except PayrollParseError (List PlannedRow) :=
  let (errors, rows) := (csvLines csv).zipIdx.foldl (collect readJson decimals) ([], [])
  if 0 < errors.length then .error ⟨errors⟩ else .ok rows

end Table

/-! ## What a table says -/

/-- A cell is written for this amount in base units. -/
def Denotes : Option ℕ → List Char → ℕ → Prop
  | none, cell, amount => IsDigits (trim isBlank cell) ∧ amount = digitsValue (trim isBlank cell) ∧ 0 < amount
  | some decimals, cell, amount => ∃ whole frac, HasParts (cell.filter fun c => !isMark c) whole frac ∧
      frac.length ≤ decimals ∧ (amount : ℚ) = value whole frac * 10 ^ decimals ∧ 0 < amount

section Lines

variable (readJson : List UInt8 → Option ReceiveAddress) (decimals : Option ℕ)

/-- A line that is a payment, as a row. -/
def IsRow (line : List Char) (row : PlannedRow) : Prop :=
  ∃ amountCell memoCells, cells line = row.address :: amountCell :: memoCells ∧
    isValidAddress readJson row.address = true ∧ Denotes decimals amountCell row.amount ∧
    row.memo = trim isBlank ([','].intercalate memoCells) ∧ row.status = .pending

/-- A line that has no address and no amount. -/
def IsHeader (line : List Char) : Prop :=
  ∀ cell ∈ cells line, isValidAddress readJson cell = false ∧ ∀ amount, ¬ Denotes decimals cell amount

/-- No line is lost but a header: either every line that is none and no payment is listed, or there is a row for each
of the others. -/
def Faithful (csv : List Char) : Prop :=
  match parsePayrollCsv readJson decimals csv with
  | .error error => error.lineErrors ≠ [] ∧ ∀ i line, (csvLines csv)[i]? = some line →
      (i + 1 ∈ error.lineErrors.map LineError.line ↔
        ¬ (i = 0 ∧ IsHeader readJson decimals line) ∧ ¬ ∃ row, IsRow readJson decimals line row)
  | .ok rows => ∃ body, (csvLines csv = body ∨ ∃ header, IsHeader readJson decimals header ∧ csvLines csv = header :: body) ∧
      List.Forall₂ (IsRow readJson decimals) body rows

end Lines

/-! ## Amounts that are read -/

theorem filter_mark_trim (raw : List Char) :
    (trim isBlank raw).filter (fun c => !isMark c) = raw.filter fun c => !isMark c := by
  refine filter_trim (fun c hc => ?_) raw
  simp [isMark, hc]

theorem parseHumanAmount_eq_some_iff {raw : List Char} {decimals amount : ℕ} :
    parseHumanAmount raw decimals = some amount ↔ Denotes (some decimals) raw amount := by
  rw [parseHumanAmount, filter_mark_trim]
  constructor
  · intro h
    split at h
    · cases h
    · next whole frac hparts =>
      split at h
      · cases h
      · next hlength =>
        dsimp only at h
        split at h
        · next hpos =>
          cases h
          exact ⟨whole, frac, parts_eq_some_iff.1 hparts, by omega, scaled_eq whole (by omega), hpos⟩
        · cases h
  · rintro ⟨whole, frac, hparts, hlength, hvalue, hpos⟩
    rw [← scaled_eq whole hlength, Nat.cast_inj] at hvalue
    rw [parts_eq_some_iff.2 hparts]
    dsimp only
    rw [if_neg (by omega), ← hvalue, if_pos hpos]

theorem readAmount_eq_some_iff {decimals : Option ℕ} {raw : List Char} {amount : ℕ} :
    readAmount decimals raw = some amount ↔ Denotes decimals raw amount := by
  cases decimals with
  | some decimals => exact parseHumanAmount_eq_some_iff
  | none =>
    rw [readAmount, parseAmount, Denotes]
    dsimp only
    split_ifs with hdigits hpos
    · rw [Option.some_inj]
      constructor
      · rintro rfl
        exact ⟨hdigits, rfl, hpos⟩
      · rintro ⟨-, hvalue, -⟩
        exact hvalue.symm
    · constructor
      · intro h
        cases h
      · rintro ⟨-, rfl, hpos'⟩
        exact absurd hpos' hpos
    · constructor
      · intro h
        cases h
      · rintro ⟨hdigits', -⟩
        exact absurd hdigits' hdigits

theorem not_isMark_of_isDigit {c : Char} (h : c.isDigit = true) : isMark c = false := by
  rw [Char.isDigit, Bool.and_eq_true, decide_eq_true_iff, decide_eq_true_iff] at h
  have hlow : 48 ≤ c.toNat := UInt32.le_iff_toNat_le.1 h.1
  have hhigh : c.toNat ≤ 57 := UInt32.le_iff_toNat_le.1 h.2
  have hcomma : c ≠ ',' := by
    rintro rfl
    revert hlow
    decide
  have hunderscore : c ≠ '_' := by
    rintro rfl
    revert hhigh
    decide
  have hblank : isBlank c = false := by
    simp [isBlank]
    omega
  simp [isMark, hcomma, hunderscore, hblank]

/-- A plain whole number is an amount however many decimals there are. -/
theorem exists_denotes_of_parseAmount {raw : List Char} {n : ℕ} (h : parseAmount raw = some n) (decimals : Option ℕ) :
    ∃ amount, Denotes decimals raw amount := by
  obtain ⟨hdigits, hvalue, hpos⟩ := (@readAmount_eq_some_iff none raw n).1 h
  cases decimals with
  | none => exact ⟨n, hdigits, hvalue, hpos⟩
  | some decimals =>
    have hmarks : (trim isBlank raw).filter (fun c => !isMark c) = trim isBlank raw := by
      rw [List.filter_eq_self]
      intro c hc
      rw [not_isMark_of_isDigit (List.all_eq_true.1 hdigits.2 c hc)]
      rfl
    have hparts : HasParts (raw.filter fun c => !isMark c) (trim isBlank raw) [] := by
      rw [← filter_mark_trim, hmarks]
      exact ⟨hdigits, .inl ⟨rfl, rfl⟩⟩
    refine ⟨n * 10 ^ decimals, _, [], hparts, Nat.zero_le _, ?_, Nat.mul_pos hpos (by positivity)⟩
    rw [value, hvalue]
    simp [digitsValue]

/-! ## The loop -/

section Loop

variable {readJson : List UInt8 → Option ReceiveAddress} {decimals : Option ℕ}

/-- A line that is a payment is not taken for a header. -/
theorem IsRow.not_looksLikeHeader {line : List Char} {row : PlannedRow} (h : IsRow readJson decimals line row) :
    ¬ LooksLikeHeader readJson line := by
  obtain ⟨amountCell, memoCells, hcells, hvalid, -⟩ := h
  rintro ⟨⟨address, haddress, hinvalid⟩, -⟩
  rw [hcells] at haddress
  cases haddress
  rw [hvalid] at hinvalid
  cases hinvalid

/-- A header is taken for one. -/
theorem IsHeader.looksLikeHeader {line : List Char} (h : IsHeader readJson decimals line) :
    LooksLikeHeader readJson line := by
  obtain ⟨first, rest, hcells⟩ : ∃ first rest, cells line = first :: rest := by
    refine List.exists_cons_of_ne_nil ?_
    rw [cells, Ne, List.map_eq_nil_iff]
    exact List.splitOn_ne_nil ',' line
  rw [IsHeader, hcells] at h
  rw [LooksLikeHeader, hcells]
  refine ⟨⟨first, rfl, (h first List.mem_cons_self).1⟩, ?_⟩
  cases rest with
  | nil => rfl
  | cons second rest =>
    rw [Option.eq_none_iff_forall_ne_some]
    intro amount hamount
    obtain ⟨amount', hdenotes⟩ := exists_denotes_of_parseAmount hamount decimals
    exact (h second (by simp)).2 amount' hdenotes

/-- A line is one row at most. -/
theorem IsRow.unique {line : List Char} {row row' : PlannedRow} (h : IsRow readJson decimals line row)
    (h' : IsRow readJson decimals line row') : row = row' := by
  obtain ⟨amountCell, memoCells, hcells, -, hamount, hmemo, hstatus⟩ := h
  obtain ⟨amountCell', memoCells', hcells', -, hamount', hmemo', hstatus'⟩ := h'
  rw [hcells] at hcells'
  simp only [List.cons.injEq] at hcells'
  obtain ⟨haddress, rfl, rfl⟩ := hcells'
  rw [← readAmount_eq_some_iff] at hamount hamount'
  obtain ⟨address, amount, memo, status⟩ := row
  obtain ⟨address', amount', memo', status'⟩ := row'
  simp only at haddress hamount hamount' hmemo hmemo' hstatus hstatus'
  rw [hamount, Option.some_inj] at hamount'
  rw [haddress, hamount', hmemo, hmemo', hstatus, hstatus']

/-- A line is passed over, is a row, or is an error. -/
theorem parseLine_cases (idx : ℕ) (line : List Char) :
    (parseLine readJson decimals idx line = .skipped ∧ idx = 0 ∧ LooksLikeHeader readJson line) ∨
    (∃ row, parseLine readJson decimals idx line = .row row ∧ IsRow readJson decimals line row) ∨
    ∃ error, parseLine readJson decimals idx line = .error error ∧ error.line = idx + 1 ∧
      ¬ (idx = 0 ∧ LooksLikeHeader readJson line) ∧ ¬ ∃ row, IsRow readJson decimals line row := by
  by_cases hheader : idx = 0 ∧ LooksLikeHeader readJson line
  · exact .inl ⟨if_pos hheader, hheader⟩
  refine .inr ?_
  rw [parseLine, if_neg hheader]
  cases hcells : cells line with
  | nil =>
    refine .inr ⟨_, rfl, rfl, hheader, ?_⟩
    rintro ⟨row, amountCell, memoCells, hrow, -⟩
    rw [hcells] at hrow
    cases hrow
  | cons address rest =>
    cases rest with
    | nil =>
      refine .inr ⟨_, rfl, rfl, hheader, ?_⟩
      rintro ⟨row, amountCell, memoCells, hrow, -⟩
      rw [hcells] at hrow
      cases hrow
    | cons amountRaw memoParts =>
      dsimp only [List.getElem?_cons_zero, List.getElem?_cons_succ]
      by_cases hvalid : isValidAddress readJson address = false
      · rw [if_pos hvalid]
        refine .inr ⟨_, rfl, rfl, hheader, ?_⟩
        rintro ⟨row, amountCell, memoCells, hrow, hvalid', -⟩
        rw [hcells] at hrow
        cases hrow
        rw [hvalid] at hvalid'
        cases hvalid'
      · rw [if_neg hvalid]
        cases hread : readAmount decimals amountRaw with
        | none =>
          refine .inr ⟨_, rfl, rfl, hheader, ?_⟩
          rintro ⟨row, amountCell, memoCells, hrow, -, hamount, -⟩
          rw [hcells] at hrow
          cases hrow
          rw [← readAmount_eq_some_iff, hread] at hamount
          cases hamount
        | some amount =>
          exact .inl ⟨_, rfl, amountRaw, memoParts, hcells, by simpa using hvalid, readAmount_eq_some_iff.1 hread, rfl, rfl⟩

/-- A line that is neither a payment nor taken for a header is an error. -/
theorem exists_error_iff {idx : ℕ} {line : List Char} :
    (∃ error, parseLine readJson decimals idx line = .error error) ↔
      ¬ (idx = 0 ∧ LooksLikeHeader readJson line) ∧ ¬ ∃ row, IsRow readJson decimals line row := by
  rcases @parseLine_cases readJson decimals idx line with ⟨hresult, hidx, hheader⟩ | ⟨row, hresult, hrow⟩ |
    ⟨error, hresult, -, hnone⟩
  · simp only [hresult, reduceCtorEq, exists_false, false_iff]
    rintro ⟨hnone, -⟩
    exact hnone ⟨hidx, hheader⟩
  · simp only [hresult, reduceCtorEq, exists_false, false_iff]
    rintro ⟨-, hnone⟩
    exact hnone ⟨row, hrow⟩
  · simp only [hresult, LineResult.error.injEq, exists_eq', true_iff]
    exact hnone

theorem line_of_parseLine {idx : ℕ} {line : List Char} {error : LineError}
    (h : parseLine readJson decimals idx line = .error error) : error.line = idx + 1 := by
  rcases @parseLine_cases readJson decimals idx line with ⟨hresult, -⟩ | ⟨row, hresult, -⟩ | ⟨error', hresult, hline, -⟩
  · rw [hresult] at h
    cases h
  · rw [hresult] at h
    cases h
  · rw [hresult] at h
    cases h
    exact hline

/-- The error of a line, if it is one. -/
def LineResult.error? : LineResult → Option LineError
  | .error e => some e
  | _ => none

/-- The row of a line, if it is one. -/
def LineResult.row? : LineResult → Option PlannedRow
  | .row r => some r
  | _ => none

variable (readJson decimals) in
/-- What the loop makes of the lines, one by one. -/
def results (lines : List (List Char)) (k : ℕ) : List LineResult :=
  (lines.zipIdx k).map fun line => parseLine readJson decimals line.2 line.1

theorem results_cons (line : List Char) (lines : List (List Char)) (k : ℕ) :
    results readJson decimals (line :: lines) k =
      parseLine readJson decimals k line :: results readJson decimals lines (k + 1) := rfl

/-- The loop puts the errors and the rows behind each other. -/
theorem foldl_collect (lines : List (List Char)) (k : ℕ) (acc : List LineError × List PlannedRow) :
    (lines.zipIdx k).foldl (collect readJson decimals) acc =
      (acc.1 ++ (results readJson decimals lines k).filterMap LineResult.error?,
        acc.2 ++ (results readJson decimals lines k).filterMap LineResult.row?) := by
  induction lines generalizing k acc with
  | nil => simp [results]
  | cons line lines ih =>
    rw [List.zipIdx_cons, List.foldl_cons, ih, results_cons, collect]
    cases parseLine readJson decimals k line with
    | skipped => rfl
    | error error => simp [List.filterMap_cons, LineResult.error?, LineResult.row?]
    | row row => simp [List.filterMap_cons, LineResult.error?, LineResult.row?]

theorem parsePayrollCsv_eq (csv : List Char) : parsePayrollCsv readJson decimals csv =
    if (results readJson decimals (csvLines csv) 0).filterMap LineResult.error? ≠ [] then
      .error ⟨(results readJson decimals (csvLines csv) 0).filterMap LineResult.error?⟩
    else .ok ((results readJson decimals (csvLines csv) 0).filterMap LineResult.row?) := by
  rw [parsePayrollCsv, foldl_collect]
  simp only [List.nil_append, List.length_pos_iff]

/-- Lines of which none is taken for a header are read without an error if each is a payment. -/
theorem results_iff {lines : List (List Char)} {k : ℕ}
    (hk : k = 0 → ∀ line, lines.head? = some line → ¬ LooksLikeHeader readJson line) {rows : List PlannedRow} :
    (results readJson decimals lines k).filterMap LineResult.error? = [] ∧
      (results readJson decimals lines k).filterMap LineResult.row? = rows ↔
    List.Forall₂ (IsRow readJson decimals) lines rows := by
  induction lines generalizing k rows with
  | nil => simp [results, eq_comm]
  | cons line lines ih =>
    have hrest := fun rows' => @ih (k + 1) (fun h => absurd h (Nat.succ_ne_zero k)) rows'
    rw [results_cons, List.forall₂_cons_left_iff]
    rcases @parseLine_cases readJson decimals k line with ⟨-, hzero, hheader⟩ | ⟨row, hresult, hrow⟩ |
      ⟨error, hresult, -, -, hnone⟩
    · exact absurd hheader (hk hzero line rfl)
    · simp only [hresult, List.filterMap_cons, LineResult.error?, LineResult.row?]
      constructor
      · rintro ⟨herrors, rfl⟩
        exact ⟨row, _, hrow, (hrest _).1 ⟨herrors, rfl⟩, rfl⟩
      · rintro ⟨row', rows', hrow', hrows, rfl⟩
        obtain ⟨herrors, hrows⟩ := (hrest rows').2 hrows
        exact ⟨herrors, by rw [hrows, hrow.unique hrow']⟩
    · simp only [hresult, List.filterMap_cons, LineResult.error?, LineResult.row?]
      constructor
      · rintro ⟨herrors, -⟩
        cases herrors
      · rintro ⟨row, -, hrow, -⟩
        exact absurd ⟨row, hrow⟩ hnone

variable (readJson) in
/-- The lines that are not taken for a header. -/
def bodyLines : List (List Char) → List (List Char)
  | [] => []
  | line :: lines => if LooksLikeHeader readJson line then lines else line :: lines

/-- A table is read if each line is a payment, but one that is taken for a header. -/
theorem parsePayrollCsv_eq_ok_iff {csv : List Char} {rows : List PlannedRow} :
    parsePayrollCsv readJson decimals csv = .ok rows ↔
      List.Forall₂ (IsRow readJson decimals) (bodyLines readJson (csvLines csv)) rows := by
  have hok : parsePayrollCsv readJson decimals csv = .ok rows ↔
      (results readJson decimals (csvLines csv) 0).filterMap LineResult.error? = [] ∧
        (results readJson decimals (csvLines csv) 0).filterMap LineResult.row? = rows := by
    rw [parsePayrollCsv_eq]
    split_ifs with h
    · simp [h]
    · simp [not_not.1 h]
  rw [hok]
  cases hlines : csvLines csv with
  | nil => simp [results, bodyLines, eq_comm]
  | cons line lines =>
    by_cases hheader : LooksLikeHeader readJson line
    · have hskip : parseLine readJson decimals 0 line = .skipped := if_pos ⟨rfl, hheader⟩
      rw [results_cons, hskip, List.filterMap_cons_none rfl, List.filterMap_cons_none rfl, bodyLines, if_pos hheader]
      exact results_iff fun h => absurd h (Nat.succ_ne_zero 0)
    · rw [bodyLines, if_neg hheader]
      refine results_iff fun _ first hfirst => ?_
      cases hfirst
      exact hheader

/-- The lines that are listed. -/
theorem parsePayrollCsv_eq_error {csv : List Char} {error : PayrollParseError}
    (h : parsePayrollCsv readJson decimals csv = .error error) : error.lineErrors ≠ [] ∧
      ∀ i line, (csvLines csv)[i]? = some line → (i + 1 ∈ error.lineErrors.map LineError.line ↔
        ¬ (i = 0 ∧ LooksLikeHeader readJson line) ∧ ¬ ∃ row, IsRow readJson decimals line row) := by
  rw [parsePayrollCsv_eq] at h
  split_ifs at h with hne
  cases h
  refine ⟨hne, fun i line hline => ?_⟩
  rw [← exists_error_iff, List.mem_map]
  constructor
  · rintro ⟨error, herror, hi⟩
    obtain ⟨result, hresult, herror⟩ := List.mem_filterMap.1 herror
    obtain ⟨⟨line', j⟩, hmem, rfl⟩ := List.mem_map.1 hresult
    have hline' := List.mk_mem_zipIdx_iff_getElem?.1 hmem
    cases hparse : parseLine readJson decimals j line' with
    | skipped => simp [hparse, LineResult.error?] at herror
    | row row => simp [hparse, LineResult.error?] at herror
    | error error' =>
      rw [hparse] at herror
      cases herror
      rw [line_of_parseLine hparse, Nat.add_right_cancel_iff] at hi
      rw [hi, hline, Option.some_inj] at hline'
      exact ⟨error, by rw [hline', ← hi, hparse]⟩
  · rintro ⟨error, herror⟩
    have hmem := List.mk_mem_zipIdx_iff_getElem?.2 hline
    refine ⟨error, List.mem_filterMap.2 ⟨_, List.mem_map.2 ⟨_, hmem, rfl⟩, ?_⟩, ?_⟩
    · rw [herror]
      rfl
    · exact line_of_parseLine herror

/-- No line is lost but a header exactly if the first line is one where it is taken for one. -/
theorem faithful_iff (csv : List Char) : Faithful readJson decimals csv ↔
    ∀ line, (csvLines csv).head? = some line → LooksLikeHeader readJson line → IsHeader readJson decimals line := by
  rw [Faithful]
  constructor
  · intro h line hhead hheader
    have hnone : ∀ row, ¬ IsRow readJson decimals line row := fun row hrow => hrow.not_looksLikeHeader hheader
    split at h
    · next error hparse =>
      by_contra hnot
      have hline : (csvLines csv)[0]? = some line := by rw [← List.head?_eq_getElem?, hhead]
      -- the line is not listed, although it is neither a header nor a payment
      have hlisted := (h.2 0 line hline).2 ⟨fun hzero => hnot hzero.2, fun ⟨row, hrow⟩ => hnone row hrow⟩
      exact (((parsePayrollCsv_eq_error hparse).2 0 line hline).1 hlisted).1 ⟨rfl, hheader⟩
    · obtain ⟨body, hbody | ⟨header, hisHeader, hbody⟩, hrows⟩ := h
      · rw [hbody] at hhead
        cases hrows with
        | nil => cases hhead
        | cons hrow _ =>
          cases hhead
          exact absurd hrow (hnone _)
      · rw [hbody] at hhead
        cases hhead
        exact hisHeader
  · intro h
    have hfirst : ∀ i line, (csvLines csv)[i]? = some line →
        (i = 0 ∧ LooksLikeHeader readJson line ↔ i = 0 ∧ IsHeader readJson decimals line) := by
      intro i line hline
      constructor
      · rintro ⟨rfl, hheader⟩
        exact ⟨rfl, h line (by rw [List.head?_eq_getElem?, hline]) hheader⟩
      · rintro ⟨rfl, hheader⟩
        exact ⟨rfl, hheader.looksLikeHeader⟩
    split
    · next error hparse =>
      obtain ⟨hne, hlisted⟩ := parsePayrollCsv_eq_error hparse
      refine ⟨hne, fun i line hline => ?_⟩
      rw [hlisted i line hline, hfirst i line hline]
    · next rows hparse =>
      rw [parsePayrollCsv_eq_ok_iff] at hparse
      cases hlines : csvLines csv with
      | nil =>
        rw [hlines, bodyLines] at hparse
        exact ⟨[], .inl rfl, hparse⟩
      | cons line lines =>
        rw [hlines, bodyLines] at hparse
        by_cases hheader : LooksLikeHeader readJson line
        · rw [if_pos hheader] at hparse
          exact ⟨lines, .inr ⟨line, h line (by rw [hlines]; rfl) hheader, rfl⟩, hparse⟩
        · rw [if_neg hheader] at hparse
          exact ⟨line :: lines, .inl rfl, hparse⟩

end Loop

/-! ## The lines of a table -/

theorem trim_dropReturn (line : List Char) : trim isBlank (dropReturn line) = trim isBlank line := by
  rw [dropReturn]
  split
  · next hlast =>
    have hreturn : ∀ c ∈ ['\r'], isBlank c = true := by simp [isBlank]
    conv_rhs => rw [← List.dropLast_append_getLast? '\r' hlast, trim_append_back hreturn]
  · rfl

theorem csvLines_eq (csv : List Char) :
    csvLines csv = ((csv.splitOn '\n').map (trim isBlank)).filter fun line => line ≠ [] := by
  have hreturn : trim isBlank ∘ dropReturn = trim isBlank := funext trim_dropReturn
  rw [csvLines, splitLines]
  rw [List.map_append, List.map_map, hreturn, ← List.map_append, List.dropLast_eq_take, List.take_append_drop]

@[simp] theorem csvLines_nil : csvLines [] = [] := rfl

theorem csvLines_append (front back : List Char) : csvLines (front ++ '\n' :: back) = csvLines front ++ csvLines back := by
  rw [csvLines_eq, csvLines_eq, csvLines_eq, List.splitOn_append_cons_self, List.map_append, List.filter_append]

/-- A table has the lines of its lines. -/
theorem csvLines_intercalate (texts : List (List Char)) :
    csvLines (['\n'].intercalate texts) = texts.flatMap csvLines := by
  induction texts with
  | nil => rfl
  | cons text texts ih =>
    cases texts with
    | nil => simp
    | cons next texts =>
      rw [List.intercalate_cons_cons, List.append_assoc, List.singleton_append, csvLines_append, ih]
      rfl

theorem csvLines_of_not_mem {text : List Char} (h : '\n' ∉ text) (hne : trim isBlank text ≠ []) :
    csvLines text = [trim isBlank text] := by
  rw [csvLines_eq, List.splitOn_eq_singleton h, List.map_singleton]
  exact List.filter_eq_self.2 (by simpa using hne)

/-- A text has no line exactly if it is blank. -/
theorem csvLines_eq_nil_iff {text : List Char} : csvLines text = [] ↔ ∀ c ∈ text, isBlank c = true := by
  rw [csvLines_eq, List.filter_eq_nil_iff, List.forall_mem_map]
  simp only [ne_eq, decide_not, Bool.not_eq_true', decide_eq_false_iff_not, not_not, trim_eq_nil_iff]
  constructor
  · intro h c hc
    by_cases hline : c = '\n'
    · rw [hline]
      decide
    · obtain ⟨word, hword, hmem⟩ := mem_splitOn.2 ⟨hc, hline⟩
      exact h word hword c hmem
  · intro h word hword c hc
    exact h c (mem_splitOn.1 ⟨word, hword, hc⟩).1

theorem not_mem_of_mem_csvLines {csv line : List Char} (h : line ∈ csvLines csv) : '\n' ∉ line := by
  rw [csvLines_eq] at h
  obtain ⟨word, hword, rfl⟩ := List.mem_map.1 (List.mem_of_mem_filter h)
  intro hmem
  exact (mem_splitOn.1 ⟨word, hword, mem_of_mem_trim hmem⟩).2 rfl

theorem cells_trim (line : List Char) : cells (trim isBlank line) = cells line := map_trim_splitOn (by decide) line

/-- A cell has no blanks around it and no line break in it. -/
theorem clean_of_mem_cells {csv line cell : List Char} (hline : line ∈ csvLines csv) (hcell : cell ∈ cells line) :
    trim isBlank cell = cell ∧ '\n' ∉ cell := by
  obtain ⟨word, hword, rfl⟩ := List.mem_map.1 hcell
  refine ⟨trim_trim word, fun hmem => not_mem_of_mem_csvLines hline ?_⟩
  exact (mem_splitOn.1 ⟨word, hword, mem_of_mem_trim hmem⟩).1

/-! ## Addresses that are written -/

theorem mem_dropPad {text : List Char} {c : Char} (hc : c ≠ '=') (h : c ∈ text) : c ∈ dropPad text := by
  rw [dropPad]
  split
  · next hlast =>
    rw [← List.dropLast_append_getLast? '=' hlast, List.mem_append, List.mem_singleton] at h
    exact h.resolve_right hc
  · exact h

/-- A text with a character that is no digit and no blank is not decoded. -/
theorem atob_eq_none {text : List Char} {c : Char} (hc : c ∈ text) (hblank : isAsciiBlank c = false) (hpad : c ≠ '=')
    (hdigit : c ∉ Base64.alphabet) : atob text = none := by
  rw [atob, if_neg]
  rintro ⟨-, hall⟩
  refine hdigit ?_
  have hmem : c ∈ text.filter fun c => !isAsciiBlank c := List.mem_filter.2 ⟨hc, by rw [hblank]; rfl⟩
  rw [List.all_eq_true] at hall
  simpa using hall c (by split; exacts [mem_dropPad hpad (mem_dropPad hpad hmem), hmem])

/-- A valid address without blanks around it has no separator in it. -/
theorem not_mem_of_isValidAddress {readJson : List UInt8 → Option ReceiveAddress} {address : List Char}
    (h : isValidAddress readJson address = true) (htrim : trim isBlank address = address) : ',' ∉ address := by
  intro hmem
  rw [isValidAddress, htrim, decodeReceiveAddress,
    atob_eq_none (List.mem_map.2 ⟨',', hmem, rfl⟩) (by decide) (by decide) (by decide)] at h
  cases h

/-! ## What is written -/

/-- A payment, with the text its amount is written as. -/
structure WrittenPayment where
  address : List Char
  amount : ℕ
  written : List Char
  memo : Option (List Char)

/-- What is written behind the address. -/
def WrittenPayment.tail (p : WrittenPayment) : List Char :=
  match p.memo with
  | none => p.written
  | some memo => p.written ++ ',' :: memo

/-- The line of a payment. -/
def WrittenPayment.text (p : WrittenPayment) : List Char := p.address ++ ',' :: p.tail

/-- The table of some payments, a line each. -/
def csvOf (payments : List WrittenPayment) : List Char := ['\n'].intercalate (payments.map WrittenPayment.text)

section Written

variable (readJson : List UInt8 → Option ReceiveAddress) (decimals : ℕ)

/-- The address is valid, and the amount is written in a notation that is accepted for it. -/
def WrittenPayment.Accepted (p : WrittenPayment) : Prop :=
  isValidAddress readJson p.address = true ∧ parseHumanAmount p.written decimals = some p.amount

/-- The addresses and the amounts are read back. -/
def RoundTrips (payments : List WrittenPayment) : Prop :=
  ∃ rows, parsePayrollCsv readJson (some decimals) (csvOf payments) = .ok rows ∧
    rows.map (fun row => (row.address, row.amount)) = payments.map fun p => (p.address, p.amount)

/-- An address without blanks around it and line breaks in it. -/
def CleanAddress (address : List Char) : Prop := trim isBlank address = address ∧ '\n' ∉ address

/-- What stands before the first comma and the first line break is accepted for the amount, and behind the first line
break there are blanks. -/
def WrittenPayment.AmountUncut (p : WrittenPayment) : Prop :=
  parseHumanAmount ((p.tail.takeWhile fun c => c ≠ '\n').takeWhile fun c => c ≠ ',') decimals = some p.amount ∧
    ∀ c ∈ p.tail.dropWhile fun c => c ≠ '\n', isBlank c = true

end Written

/-- The line that is read of a payment. -/
def WrittenPayment.first (p : WrittenPayment) : List Char :=
  trim isBlank (p.address ++ ',' :: p.tail.takeWhile fun c => c ≠ '\n')

/-- The lines behind the first line break. -/
def WrittenPayment.further (p : WrittenPayment) : List (List Char) := csvLines (p.tail.dropWhile fun c => c ≠ '\n')

/-- What is written is that line and those. -/
theorem csvLines_text {p : WrittenPayment} (h : '\n' ∉ p.address) : csvLines p.text = p.first :: p.further := by
  have hline : '\n' ∉ p.address ++ ',' :: p.tail.takeWhile fun c => c ≠ '\n' := by
    simp only [List.mem_append, List.mem_cons, not_or]
    refine ⟨h, by decide, fun hmem => ?_⟩
    simpa using List.mem_takeWhile_imp hmem
  have hne : trim isBlank (p.address ++ ',' :: p.tail.takeWhile fun c => c ≠ '\n') ≠ [] := by
    rw [Ne, trim_eq_nil_iff]
    intro hall
    exact absurd (hall ',' (by simp)) (by decide)
  have hsplit : p.text = (p.address ++ ',' :: p.tail.takeWhile fun c => c ≠ '\n') ++
      p.tail.dropWhile fun c => c ≠ '\n' := by
    rw [WrittenPayment.text, List.append_assoc, List.cons_append, List.takeWhile_append_dropWhile]
  rw [hsplit, WrittenPayment.further]
  cases hdrop : p.tail.dropWhile fun c => c ≠ '\n' with
  | nil => rw [List.append_nil, csvLines_of_not_mem hline hne, csvLines_nil, WrittenPayment.first]
  | cons c rest =>
    obtain rfl : c = '\n' := by
      have hhead := List.head?_dropWhile_not (fun c : Char => decide (c ≠ '\n')) p.tail
      rw [hdrop] at hhead
      simpa using hhead
    have hrest := csvLines_append [] rest
    rw [List.nil_append, csvLines_nil, List.nil_append] at hrest
    rw [csvLines_append, csvLines_of_not_mem hline hne, hrest, WrittenPayment.first]
    rfl

/-- The cells of that line. -/
theorem exists_cells_first {p : WrittenPayment} (hclean : trim isBlank p.address = p.address) (hcomma : ',' ∉ p.address) :
    ∃ memoCells, cells p.first = p.address ::
      trim isBlank ((p.tail.takeWhile fun c => c ≠ '\n').takeWhile fun c => c ≠ ',') :: memoCells := by
  obtain ⟨words, hwords⟩ := @exists_splitOn Char _ ',' (p.tail.takeWhile fun c => c ≠ '\n')
  rw [WrittenPayment.first, cells_trim, cells, List.splitOn_append_cons_self_of_not_mem hcomma, hwords]
  exact ⟨words.map (trim isBlank), by rw [List.map_cons, List.map_cons, hclean]⟩

theorem parseHumanAmount_trim (raw : List Char) (decimals : ℕ) :
    parseHumanAmount (trim isBlank raw) decimals = parseHumanAmount raw decimals := by
  rw [parseHumanAmount, trim_trim, ← parseHumanAmount]

section RoundTrip

variable {readJson : List UInt8 → Option ReceiveAddress} {decimals : ℕ}

/-- The row of a payment has its address, and the amount of what stands before the first comma. -/
theorem isRow_first {p : WrittenPayment} {row : PlannedRow} (hvalid : isValidAddress readJson p.address = true)
    (hclean : CleanAddress p.address) (h : IsRow readJson (some decimals) p.first row) :
    parseHumanAmount ((p.tail.takeWhile fun c => c ≠ '\n').takeWhile fun c => c ≠ ',') decimals = some row.amount := by
  obtain ⟨memoCells, hcells⟩ := exists_cells_first hclean.1 (not_mem_of_isValidAddress hvalid hclean.1)
  obtain ⟨amountCell, memoCells', hcells', -, hamount, -⟩ := h
  rw [hcells] at hcells'
  simp only [List.cons.injEq] at hcells'
  rw [← hcells'.2.1, ← parseHumanAmount_eq_some_iff, parseHumanAmount_trim] at hamount
  exact hamount

theorem exists_isRow_first {p : WrittenPayment} {amount : ℕ} (hvalid : isValidAddress readJson p.address = true)
    (hclean : CleanAddress p.address)
    (h : parseHumanAmount ((p.tail.takeWhile fun c => c ≠ '\n').takeWhile fun c => c ≠ ',') decimals = some amount) :
    ∃ row, IsRow readJson (some decimals) p.first row ∧ row.address = p.address ∧ row.amount = amount := by
  obtain ⟨memoCells, hcells⟩ := exists_cells_first hclean.1 (not_mem_of_isValidAddress hvalid hclean.1)
  rw [← parseHumanAmount_trim, parseHumanAmount_eq_some_iff] at h
  exact ⟨⟨p.address, amount, _, .pending⟩, ⟨_, memoCells, hcells, hvalid, h, rfl, rfl⟩, rfl, rfl⟩

theorem mem_of_mem_bodyLines {lines : List (List Char)} {line : List Char} (h : line ∈ bodyLines readJson lines) :
    line ∈ lines := by
  cases lines with
  | nil => exact h
  | cons first rest =>
    rw [bodyLines] at h
    split at h
    · exact List.mem_cons_of_mem first h
    · exact h

/-- The lines of a table of payments with clean addresses. -/
theorem csvLines_csvOf {payments : List WrittenPayment} (h : ∀ p ∈ payments, CleanAddress p.address) :
    csvLines (csvOf payments) = payments.flatMap fun p => p.first :: p.further := by
  rw [csvOf, csvLines_intercalate, List.flatMap_map]
  exact List.flatMap_congr fun p hp => csvLines_text (h p hp).2

/-- None of them is taken for a header. -/
theorem bodyLines_csvOf {payments : List WrittenPayment} (hvalid : ∀ p ∈ payments, isValidAddress readJson p.address = true)
    (hclean : ∀ p ∈ payments, CleanAddress p.address) :
    bodyLines readJson (csvLines (csvOf payments)) = csvLines (csvOf payments) := by
  rw [csvLines_csvOf hclean]
  cases payments with
  | nil => rfl
  | cons p payments =>
    have hp := hvalid p List.mem_cons_self
    have hp' := hclean p List.mem_cons_self
    obtain ⟨memoCells, hcells⟩ := exists_cells_first hp'.1 (not_mem_of_isValidAddress hp hp'.1)
    rw [List.flatMap_cons, List.cons_append, bodyLines, if_neg]
    rintro ⟨⟨address, haddress, hinvalid⟩, -⟩
    rw [hcells] at haddress
    cases haddress
    rw [hp] at hinvalid
    cases hinvalid

/-- The addresses that are read back are clean. -/
theorem RoundTrips.cleanAddress {payments : List WrittenPayment} (h : RoundTrips readJson decimals payments) :
    ∀ p ∈ payments, CleanAddress p.address := by
  obtain ⟨rows, hparse, hsame⟩ := h
  rw [parsePayrollCsv_eq_ok_iff] at hparse
  intro p hp
  have hmem : (p.address, p.amount) ∈ rows.map fun row => (row.address, row.amount) := by
    rw [hsame]
    exact List.mem_map.2 ⟨p, hp, rfl⟩
  obtain ⟨row, hrow, heq⟩ := List.mem_map.1 hmem
  obtain ⟨line, hline, amountCell, memoCells, hcells, -⟩ := exists_mem_of_forall₂ hparse hrow
  have hcell : row.address ∈ cells line := by rw [hcells]; exact List.mem_cons_self
  have hclean := clean_of_mem_cells (mem_of_mem_bodyLines hline) hcell
  rw [Prod.mk.injEq] at heq
  rwa [heq.1] at hclean

theorem length_flatMap_cons {payments : List WrittenPayment} :
    (payments.flatMap fun p => p.first :: p.further).length =
      payments.length + (payments.flatMap WrittenPayment.further).length := by
  induction payments with
  | nil => rfl
  | cons p payments ih =>
    rw [List.flatMap_cons, List.flatMap_cons, List.length_append, List.length_append, ih, List.length_cons,
      List.length_cons]
    omega

theorem flatMap_first {payments : List WrittenPayment} (h : ∀ p ∈ payments, p.further = []) :
    (payments.flatMap fun p => p.first :: p.further) = payments.map WrittenPayment.first := by
  rw [← List.flatMap_pure_eq_map]
  exact List.flatMap_congr fun p hp => by rw [h p hp]; rfl

/-- Each payment is read from its first line. -/
theorem exists_row_of_same {payments : List WrittenPayment} {rows : List PlannedRow}
    (hrows : List.Forall₂ (IsRow readJson (some decimals)) (payments.map WrittenPayment.first) rows)
    (hsame : rows.map (fun row => (row.address, row.amount)) = payments.map fun p => (p.address, p.amount)) :
    ∀ p ∈ payments, ∃ row, IsRow readJson (some decimals) p.first row ∧ row.amount = p.amount := by
  induction payments generalizing rows with
  | nil => simp
  | cons p payments ih =>
    cases hrows with
    | cons hrow hrows =>
      rw [List.map_cons, List.map_cons, List.cons.injEq, Prod.mk.injEq] at hsame
      exact List.forall_mem_cons.2 ⟨⟨_, hrow, hsame.1.2⟩, ih hrows hsame.2⟩

/-- The payments are read back as they were written exactly if no address has a blank at an end or a line break, and
no amount is cut. -/
theorem roundTrip_iff {payments : List WrittenPayment} (h : ∀ p ∈ payments, p.Accepted readJson decimals) :
    RoundTrips readJson decimals payments ↔ ∀ p ∈ payments, CleanAddress p.address ∧ p.AmountUncut decimals := by
  have hvalid : ∀ p ∈ payments, isValidAddress readJson p.address = true := fun p hp => (h p hp).1
  constructor
  · intro hround
    have hclean := hround.cleanAddress
    obtain ⟨rows, hparse, hsame⟩ := hround
    rw [parsePayrollCsv_eq_ok_iff, bodyLines_csvOf hvalid hclean, csvLines_csvOf hclean] at hparse
    -- there are as many rows as payments, so no payment has a second line
    have hlength := hparse.length_eq
    have hsameLength := congrArg List.length hsame
    rw [List.length_map, List.length_map] at hsameLength
    rw [length_flatMap_cons, ← hsameLength, Nat.add_eq_left, List.length_eq_zero_iff, List.flatMap_eq_nil_iff] at hlength
    rw [flatMap_first hlength] at hparse
    intro p hp
    obtain ⟨row, hrow, hamount⟩ := exists_row_of_same hparse hsame p hp
    have hread := isRow_first (hvalid p hp) (hclean p hp) hrow
    rw [hamount] at hread
    exact ⟨hclean p hp, hread, csvLines_eq_nil_iff.1 (hlength p hp)⟩
  · intro huncut
    have hclean : ∀ p ∈ payments, CleanAddress p.address := fun p hp => (huncut p hp).1
    have hfurther : ∀ p ∈ payments, p.further = [] := fun p hp => csvLines_eq_nil_iff.2 (huncut p hp).2.2
    have hrows : ∀ p ∈ payments, ∃ row, IsRow readJson (some decimals) p.first row ∧ row.address = p.address ∧
        row.amount = p.amount := fun p hp => exists_isRow_first (hvalid p hp) (hclean p hp) (huncut p hp).2.1
    rw [RoundTrips]
    simp only [parsePayrollCsv_eq_ok_iff]
    rw [bodyLines_csvOf hvalid hclean, csvLines_csvOf hclean, flatMap_first hfurther]
    clear h hvalid huncut hclean hfurther
    induction payments with
    | nil => exact ⟨[], .nil, rfl⟩
    | cons p payments ih =>
      obtain ⟨row, hrow, haddress, hamount⟩ := hrows p List.mem_cons_self
      obtain ⟨rows, hforall, hsame⟩ := ih fun q hq => hrows q (List.mem_cons_of_mem p hq)
      refine ⟨row :: rows, .cons hrow hforall, ?_⟩
      rw [List.map_cons, List.map_cons, hsame, haddress, hamount]

end RoundTrip

/-- An address that the app hands out is clean. -/
theorem cleanAddress_encodeReceiveAddress (addr : ReceiveAddress) : CleanAddress (encodeReceiveAddress addr) := by
  have halphabet : ('=' :: Base64.alphabet).all
      (fun c => !isBlank (if c = '+' then '-' else if c = '/' then '_' else c)) = true := by decide
  have hblank : ∀ c ∈ encodeReceiveAddress addr, isBlank c = false := by
    intro c hc
    rw [encodeReceiveAddress] at hc
    obtain ⟨d, hd, rfl⟩ := List.mem_map.1 ((List.rdropWhile_prefix _ _).subset hc)
    have hd' := List.all_eq_true.1 halphabet d (Base64.mem_encode hd)
    rwa [Bool.not_eq_true'] at hd'
  refine ⟨trim_eq isBlank (fun c hc => hblank c (List.mem_of_mem_head? hc)) fun c hc => hblank c (List.mem_of_getLast? hc), ?_⟩
  intro hmem
  exact absurd (hblank '\n' hmem) (by decide)

/-- When a table is read as it is written: no line is lost but a header, and the payments are read back. -/
theorem parsePayrollCsv_faithful_iff (readJson : List UInt8 → Option ReceiveAddress) :
    (∀ decimals csv, Faithful readJson decimals csv ↔ ∀ line, (csvLines csv).head? = some line →
      LooksLikeHeader readJson line → IsHeader readJson decimals line) ∧
    ∀ decimals payments, (∀ p ∈ payments, p.Accepted readJson decimals) →
      (RoundTrips readJson decimals payments ↔ ∀ p ∈ payments, CleanAddress p.address ∧ p.AmountUncut decimals) :=
  ⟨fun _ csv => faithful_iff csv, fun _ _ h => roundTrip_iff h⟩

/-! ## Two tables -/

/-- The address with index 0 and coordinates 1 and 2. -/
def sampleEncoded : List Char := "eyJpbmRleCI6IjAiLCJwdWJYIjoiMSIsInB1YlkiOiIyIn0".toList

/-- What `JSON.parse` makes of its bytes; other bytes are not read. -/
def readSample (bytes : List UInt8) : Option ReceiveAddress :=
  if bytes = asciiBytes "\x7b\"index\":\"0\",\"pubX\":\"1\",\"pubY\":\"2\"\x7d".toList then some ⟨0, 1, 2⟩ else none

/-- A payment with a mark that is not a comma. -/
def samplePayment : WrittenPayment := ⟨sampleEncoded, 1500250000, "1_500.25".toList, some "rent".toList⟩

theorem parsePayrollCsv_faithful_sample : RoundTrips readSample 6 [samplePayment] := by
  refine ((parsePayrollCsv_faithful_iff readSample).2 6 [samplePayment] ?_).2 ?_
  · exact List.forall_mem_singleton.2 ⟨by decide, by decide⟩
  · have htail : (samplePayment.tail.dropWhile fun c => c ≠ '\n') = [] := by decide
    refine List.forall_mem_singleton.2 ⟨⟨by decide, by decide⟩, by decide, ?_⟩
    rw [htail]
    simp

/-- A first line with a mistyped address is dropped although its amount is one, and a comma cuts an amount. -/
theorem parsePayrollCsv_unfaithful :
    (parsePayrollCsv readSample (some 6) ("bob,1500.25\n".toList ++ sampleEncoded ++ ",7".toList) =
        .ok [⟨sampleEncoded, 7000000, [], .pending⟩] ∧
      ¬ Faithful readSample (some 6) ("bob,1500.25\n".toList ++ sampleEncoded ++ ",7".toList)) ∧
    (parsePayrollCsv readSample (some 6) (sampleEncoded ++ ",1,500".toList) =
        .ok [⟨sampleEncoded, 1000000, "500".toList, .pending⟩] ∧
      WrittenPayment.Accepted readSample 6 ⟨sampleEncoded, 1500000000, "1,500".toList, none⟩ ∧
      ¬ RoundTrips readSample 6 [⟨sampleEncoded, 1500000000, "1,500".toList, none⟩]) := by
  have hcut : parsePayrollCsv readSample (some 6) (sampleEncoded ++ ",1,500".toList) =
      .ok [⟨sampleEncoded, 1000000, "500".toList, .pending⟩] := by decide
  refine ⟨⟨by decide, ?_⟩, hcut, ⟨by decide, by decide⟩, ?_⟩
  · rw [faithful_iff]
    intro h
    have hheader := h "bob,1500.25".toList (by decide) (by decide)
    have hamount : parseHumanAmount "1500.25".toList 6 = some 1500250000 := by decide
    exact (hheader "1500.25".toList (by decide)).2 _ (parseHumanAmount_eq_some_iff.1 hamount)
  · rintro ⟨rows, hparse, hsame⟩
    have hcsv : csvOf [⟨sampleEncoded, 1500000000, "1,500".toList, none⟩] = sampleEncoded ++ ",1,500".toList := by
      decide
    rw [hcsv, hcut] at hparse
    cases hparse
    simp at hsame

end Kakure.Web
