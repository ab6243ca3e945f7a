import TurboUtils.Csv.Lexer
import TurboUtils.Dsv.Filter
import TurboUtils.Lib.BinarySearch
import TurboUtils.Lib.Coalesce

/-! The sidecar index of dsv_index.c: how it is built, opened and searched. A `double` is an exact
decimal. -/
namespace Dsv

open Csv (Lexer fieldText)

/-- `DSV_INDEX_MAX_TEXT_KEY`. -/
def maxTextKey : ℕ := 64

/-- `DSV_INDEX_DEFAULT_MAX_ENTRIES`. -/
def defaultMaxEntries : ℕ := 1000000

/-- `DSV_INDEX_MAX_QUERY_RANGES`. -/
def maxQueryRanges : ℕ := 32

/-! ## Numbers -/

def decimal (negative : Bool) (mantissa fractionDigits : ℕ) : ℚ :=
  let result : ℚ := mantissa / 10 ^ fractionDigits
  if negative then -result else result

def readSign : List Char → Bool × List Char
  | '-' :: rest => (true, rest)
  | '+' :: rest => (false, rest)
  | text => (false, text)

def isDecimalDigit (c : Char) : Bool := '0' ≤ c && c ≤ '9'

def digit (c : Char) : ℕ := c.toNat - '0'.toNat

/-- A loop of `dsv_index_parse_double` and of `dsv_index_parse_int64` over digits, which a `uint64_t`
or its part up to `limit` holds: the number, how many digits there are, and what follows. -/
def readDigits (limit mantissa : ℕ) : List Char → Option (ℕ × ℕ × List Char)
  | [] => some (mantissa, 0, [])
  | c :: rest =>
      if isDecimalDigit c then
        if (limit - digit c) / 10 < mantissa then none
        else (readDigits limit (mantissa * 10 + digit c) rest).map
          fun (mantissa, digits, rest) => (mantissa, digits + 1, rest)
      else some (mantissa, 0, c :: rest)

/-- `dsv_index_parse_double`. -/
def parseDouble (text : List Char) : Option ℚ :=
  let (negative, text) := readSign text
  (readDigits (2 ^ 64 - 1) 0 text).bind fun (mantissa, digits, rest) =>
    match rest with
    | '.' :: rest =>
        (readDigits (2 ^ 64 - 1) mantissa rest).bind fun (mantissa, fractionDigits, rest) =>
          if digits + fractionDigits = 0 ∨ rest ≠ [] then none
          else some (decimal negative mantissa fractionDigits)
    | rest => if digits = 0 ∨ rest ≠ [] then none else some (decimal negative mantissa 0)

/-- `dsv_index_parse_int64`. -/
def parseInt64 (text : List Char) : Option ℤ :=
  let (negative, text) := readSign text
  if text = [] then none
  else
    (readDigits (if negative then 2 ^ 63 else 2 ^ 63 - 1) 0 text).bind fun (magnitude, _, rest) =>
      if rest ≠ [] then none else some (if negative then -(magnitude : ℤ) else magnitude)

/-- A loop of `dsv_fast_atof` over digits. -/
def foldDigits (mantissa : ℕ) : List Char → ℕ × ℕ × List Char
  | [] => (mantissa, 0, [])
  | c :: rest =>
      if isDecimalDigit c then
        let (mantissa, digits, rest) := foldDigits ((mantissa * 10 + digit c) % 2 ^ 64) rest
        (mantissa, digits + 1, rest)
      else (mantissa, 0, c :: rest)

/-- `dsv_fast_atof`. -/
def fastAtof (text : List Char) : ℚ :=
  let (negative, text) := readSign text
  let (mantissa, _, rest) := foldDigits 0 text
  match rest with
  | '.' :: rest =>
      let (mantissa, fractionDigits, _) := foldDigits mantissa rest
      decimal negative mantissa fractionDigits
  | _ => decimal negative mantissa 0

/-- The operations on numbers, with exact decimals for `double`. -/
def exact : Numbers ℚ where
  zero := 0
  add := (· + ·)
  sub := (· - ·)
  mul := (· * ·)
  div := (· / ·)
  neg := (-·)
  compare op a b := op.holds (Ord.compare a b)
  nonzero a := a ≠ 0
  atof := fastAtof

/-! ## Building -/

/-- `dsv_index_config_t`; `DSV_INDEX_NO_COLUMN` is no column. -/
structure IndexConfig where
  textColumn : ℕ
  numberColumn : ℕ
  coveringInt64Column : Option ℕ
  maxEntries : ℕ
  hasHeader : Bool
  deriving DecidableEq, Repr

/-- `dsv_index_file_entry_t`; the covering integer stands for its flag, too. -/
structure Entry where
  textKey : List Char
  numberKey : ℚ
  rowOffset : ℕ
  rowLength : ℕ
  coveringInt64 : Option ℤ
  deriving DecidableEq

/-- `dsv_index_row_builder_t`. -/
structure RowBuilder where
  text : Option (List Char)
  number : Option ℚ
  cover : Option ℤ

/-- The loop of `dsv_index_copy_text_key`. -/
def copyTextKey (needsUnescape : Bool) (output : ℕ) : List Char → Option (List Char)
  | [] => some []
  | c :: rest =>
      if maxTextKey ≤ output then none
      else
        match rest with
        | [] => some [c]
        | d :: after =>
            if needsUnescape ∧ c = '"' ∧ d = '"' then
              (copyTextKey needsUnescape (output + 1) after).map (c :: ·)
            else (copyTextKey needsUnescape (output + 1) (d :: after)).map (c :: ·)

/-- `dsv_index_entry_compare`. -/
def entryCompare (left right : Entry) : Ordering :=
  (cmpBytes left.textKey right.textKey).then <|
    (Ord.compare left.numberKey right.numberKey).then (Ord.compare left.rowOffset right.rowOffset)

/-- `qsort` by a comparison: the rows in some order in which none is after a greater one. -/
structure Qsort {α : Type} (compare : α → α → Ordering) where
  sort : List α → List α
  perm : ∀ rows, (sort rows).Perm rows
  pairwise : ∀ rows, (sort rows).Pairwise fun a b => (compare a b).isLE

/-- The variables of `dsv_index_build_internal`. -/
structure Build where
  entries : List Entry
  row : RowBuilder
  rowStart : ℕ
  column : ℕ
  hasField : Bool
  skipHeader : Bool

def Build.init (config : IndexConfig) : Build :=
  ⟨[], ⟨none, none, none⟩, 0, 0, false, config.hasHeader⟩

section Builder

variable (config : IndexConfig)

namespace RowBuilder

variable (row : RowBuilder) (column : ℕ) (value : List Char) (needsUnescape : Bool)

def textField : Except String RowBuilder :=
  if column = config.textColumn then
    match copyTextKey needsUnescape 0 value with
    | none => .error "text index key exceeds DSV_INDEX_MAX_TEXT_KEY"
    | some text => .ok { row with text := some text }
  else .ok row

def numberField : Except String RowBuilder :=
  if column = config.numberColumn then
    match if needsUnescape then none else parseDouble value with
    | none => .error "numeric index key is invalid"
    | some number => .ok { row with number := some number }
  else .ok row

def coverField : Except String RowBuilder :=
  if some column = config.coveringInt64Column then
    match if needsUnescape then none else parseInt64 value with
    | none => .error "covering integer value is invalid"
    | some cover => .ok { row with cover := some cover }
  else .ok row

def field : Except String RowBuilder := do
  let row ← row.textField config column value needsUnescape
  let row ← row.numberField config column value needsUnescape
  row.coverField config column value needsUnescape

end RowBuilder

/-- A field token in the loop of `dsv_index_build_internal`. -/
def Build.field (b : Build) (value : List Char) (needsUnescape : Bool) : Except String Build :=
  let row := if b.skipHeader then .ok b.row else b.row.field config b.column value needsUnescape
  row.map fun row => { b with row := row, column := b.column + 1, hasField := true }

/-- `dsv_index_finish_row`. -/
def Build.finishRow (b : Build) (rowEnd : ℕ) : Except String Build :=
  if b.skipHeader then .ok { b with skipHeader := false }
  else
    match b.row.text, b.row.number with
    | some text, some number =>
        if config.coveringInt64Column.isSome ∧ b.row.cover = none then
          .error "indexed row is missing a configured column"
        else if (if config.maxEntries ≠ 0 then config.maxEntries else defaultMaxEntries) ≤
            b.entries.length then .error "DSV index entry capacity exceeded"
        else if rowEnd < b.rowStart then .error "invalid row bounds"
        else if 2 ^ 32 - 1 < rowEnd - b.rowStart then
          .error "CSV row offset or length exceeds index format"
        else
          let entry := ⟨text, number, b.rowStart, rowEnd - b.rowStart, b.row.cover⟩
          .ok { b with entries := b.entries ++ [entry] }
    | _, _ => .error "indexed row is missing a configured column"

/-- The loop of `dsv_index_build_internal`, and the row that is left at the end. -/
def buildLoop (len : ℕ) : ℕ → Lexer → Build → Except String Build
  | 0, _, _ => .error ""
  | fuel + 1, l, b =>
      match l.next with
      | (l, .token (.field value needsUnescape)) => do
          let b ← b.field config value needsUnescape
          buildLoop len fuel l b
      | (l, .token .comma) => buildLoop len fuel l b
      | (l, .token .newline) =>
          if b.hasField then do
            let cursor := len - l.rest.length
            let b ← b.finishRow config cursor
            buildLoop len fuel l
              { b with row := ⟨none, none, none⟩, column := 0, hasField := false, rowStart := cursor }
          else buildLoop len fuel l b
      | (_, .done) => if b.hasField then b.finishRow config len else .ok b
      | (_, .error message) => .error message

/-- What the sidecar holds: `dsv_index_file_header_t` and the entries. -/
structure Index where
  sourceSize : ℕ
  sourceMtime : ℕ
  sourceHash : ℕ
  textColumn : ℕ
  numberColumn : ℕ
  coveringColumn : Option ℕ
  entries : List Entry

/-- `dsv_index_checked_size`. -/
def checkedSize (count : ℕ) : Bool := count ≤ (2 ^ 64 - 1 - 96) / 104

def sortEntries (qsort : Qsort entryCompare) (entries : List Entry) : List Entry :=
  if 1 < entries.length then qsort.sort entries else entries

/-- `dsv_index_build_internal`: the sidecar that is written. -/
def buildInternal (hash : List Char → ℕ) (qsort : Qsort entryCompare) (content : List Char)
    (sourceMtime : ℕ) : Except String Index :=
  if 2 ^ 32 - 1 < config.textColumn ∨ 2 ^ 32 - 1 < config.numberColumn ∨
      config.textColumn = config.numberColumn ∨
      config.coveringInt64Column.any (2 ^ 32 - 1 < ·) then
    .error "invalid DSV index build configuration"
  else do
    let l := Lexer.init content
    let b ← buildLoop config content.length l.budget l (.init config)
    let entries := sortEntries qsort b.entries
    if checkedSize entries.length then
      .ok ⟨content.length, sourceMtime, hash content, config.textColumn, config.numberColumn,
        config.coveringInt64Column, entries⟩
    else .error "DSV index file size overflow"

end Builder

/-! ## Opening -/

/-- `dsv_index_validate_entries`, from the entry before the others. -/
def validateEntries (sourceLength : ℕ) : Option Entry → List Entry → Except String Unit
  | _, [] => .ok ()
  | last, entry :: entries =>
      if maxTextKey < entry.textKey.length ∨ sourceLength < entry.rowOffset ∨
          sourceLength - entry.rowOffset < entry.rowLength then
        .error "DSV index contains invalid entry bounds"
      else if last.any fun last => entryCompare last entry = .gt then
        .error "DSV index entries are not sorted"
      else validateEntries sourceLength (some entry) entries

/-- `dsv_index_open_internal` of a sidecar that is written as above. -/
def openInternal (hash : List Char → ℕ) (sidecar : Index) (content : List Char)
    (expectedMtime : ℕ) : Except String Index :=
  if checkedSize sidecar.entries.length = false then .error "DSV index format validation failed"
  else if sidecar.sourceSize ≠ content.length then .error "DSV index source size mismatch"
  else if expectedMtime ≠ 0 ∧ sidecar.sourceMtime ≠ expectedMtime then
    .error "DSV index source mtime mismatch"
  else if expectedMtime = 0 ∧ sidecar.sourceHash ≠ hash content then
    .error "DSV index source hash mismatch"
  else (validateEntries content.length none sidecar.entries).map fun _ => sidecar

/-! ## Searching -/

/-- A number of a `dsv_index_query_t` that rows are not below, or not above. -/
structure Bound where
  number : ℚ
  inclusive : Bool
  deriving DecidableEq

/-- `dsv_index_query_t`; without a text, `text_equals` has no data. -/
structure Query where
  textEquals : Option (List Char)
  lower : Option Bound
  upper : Option Bound
  deriving DecidableEq

/-- `dsv_index_range_cursor_t`. -/
structure RangeCursor where
  text : List Char
  lower : Option Bound
  upper : Option Bound
  position : ℕ
  finished : Bool
  deriving DecidableEq

/-- `dsv_index_cursor_t`: the ranges from `_range_index` on. -/
abbrev Cursor := List RangeCursor

/-- `dsv_index_row_t`. -/
structure IndexRow where
  rowOffset : ℕ
  rowLength : ℕ
  coveringInt64 : Option ℤ
  deriving DecidableEq

def Query.isEmpty (query : Query) : Bool :=
  match query.lower, query.upper with
  | some lower, some upper =>
      lower.number > upper.number ||
        (lower.number = upper.number && (!lower.inclusive || !upper.inclusive))
  | _, _ => false

namespace RangeCursor

/-- `dsv_index_range_compare`; of two ranges from one number on, the one with that number is
first. -/
def compare (left right : RangeCursor) : Ordering :=
  (cmpBytes left.text right.text).then <|
    match left.lower, right.lower with
    | none, none => .eq
    | none, some _ => .lt
    | some _, none => .gt
    | some left, some right =>
        (Ord.compare left.number right.number).then <|
          if left.inclusive = right.inclusive then .eq
          else if left.inclusive then .lt else .gt

/-- `dsv_index_ranges_overlap`. -/
def overlaps (left right : RangeCursor) : Bool :=
  if left.text ≠ right.text then false
  else
    match left.upper, right.lower with
    | some upper, some lower =>
        lower.number < upper.number ||
          (lower.number = upper.number && (lower.inclusive || upper.inclusive))
    | _, _ => true

/-- `dsv_index_merge_range`. -/
def mergeRange (left right : RangeCursor) : RangeCursor :=
  match left.upper, right.upper with
  | none, _ => left
  | some _, none => { left with upper := none }
  | some a, some b =>
      if b.number < a.number then left
      else if b.number > a.number then { left with upper := some b }
      else { left with upper := some { a with inclusive := a.inclusive || b.inclusive } }

variable (range : RangeCursor)

def isBelow (entry : Entry) : Bool :=
  match range.lower with
  | some lower =>
      entry.numberKey < lower.number || (entry.numberKey = lower.number && !lower.inclusive)
  | none => false

def isAbove (entry : Entry) : Bool :=
  match range.upper with
  | some upper =>
      entry.numberKey > upper.number || (entry.numberKey = upper.number && !upper.inclusive)
  | none => false

/-- What is searched for in `dsv_index_range_position`. -/
def isBefore (entry : Entry) : Bool :=
  match cmpBytes entry.textKey range.text with
  | .lt => true
  | .eq => range.isBelow entry
  | .gt => false

/-- `dsv_index_range_position`. -/
def setPosition (entries : List Entry) : RangeCursor :=
  let before := fun middle => (entries[middle]?).any range.isBefore
  { range with position := BinarySearch.lowerBound before entries.length 0 entries.length }

/-- The inner loop of `dsv_index_cursor_next` over the entries from the position on. -/
def scan (range : RangeCursor) : List Entry → RangeCursor × Option Entry
  | [] => (range, none)
  | entry :: entries =>
      let range := { range with position := range.position + 1 }
      if cmpBytes entry.textKey range.text ≠ .eq then ({ range with finished := true }, none)
      else if range.isBelow entry then range.scan entries
      else if range.isAbove entry then ({ range with finished := true }, none)
      else (range, some entry)

end RangeCursor

def Query.toRange (query : Query) : Option RangeCursor :=
  if query.isEmpty then none
  else some ⟨query.textEquals.getD [], query.lower, query.upper, 0, false⟩

def mergedRanges (qsort : Qsort RangeCursor.compare) (queries : List Query) : List RangeCursor :=
  Coalesce.merge RangeCursor.overlaps RangeCursor.mergeRange
    (qsort.sort (queries.filterMap Query.toRange))

/-- `dsv_index_seek_many`. -/
def seekMany (qsort : Qsort RangeCursor.compare) (index : Index) (queries : List Query) :
    Option Cursor :=
  if queries = [] ∨ maxQueryRanges < queries.length then none
  else if queries.any fun query => query.textEquals.all (maxTextKey < ·.length) then none
  else some ((mergedRanges qsort queries).map (·.setPosition index.entries))

/-- `dsv_index_cursor_next`. -/
def cursorNext (index : Index) : Cursor → Cursor × Option IndexRow
  | [] => ([], none)
  | range :: ranges =>
      let scanned := if range.finished then (range, none)
        else range.scan (index.entries.drop range.position)
      match scanned with
      | (range, some entry) =>
          (range :: ranges, some ⟨entry.rowOffset, entry.rowLength, entry.coveringInt64⟩)
      | (_, none) => cursorNext index ranges

/-- The rows until `dsv_index_cursor_next` has none. -/
def cursorRows (index : Index) : ℕ → Cursor → List IndexRow
  | 0, _ => []
  | fuel + 1, cursor =>
      match cursorNext index cursor with
      | (cursor, some row) => row :: cursorRows index fuel cursor
      | (_, none) => []

end Dsv
