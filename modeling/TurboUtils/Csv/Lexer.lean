import Mathlib.Data.List.TakeWhile
import Mathlib.Tactic

/-! The lexer of csv_lexer.re and what csv_parser.c reads with it: whole documents, and rows one by
one. Bytes are characters. -/
namespace Csv

/-- `lexer_state_t`. -/
inductive LexerState where
  | rowStart
  | afterField
  | afterComma
  deriving DecidableEq, Repr

/-- `csv_token_t`. -/
inductive Token where
  | field (value : List Char) (needsUnescape : Bool)
  | comma
  | newline
  deriving DecidableEq, Repr

/-- `csv_lexer_t` with the state of its thread; the cursor is what is left of the input. -/
structure Lexer where
  rest : List Char
  line : ℕ
  column : ℕ
  state : LexerState

/-- What `csv_lexer_next` returns. -/
inductive Lexed where
  | token (token : Token)
  | done
  | error (message : String)
  deriving DecidableEq, Repr

/-- `csv_lexer_init` and `csv_lexer_reset_state`. -/
def Lexer.init (input : List Char) : Lexer := ⟨input, 1, 1, .rowStart⟩

/-- `has_escaped_quote`. -/
def hasEscapedQuote : List Char → Bool
  | c :: d :: rest => (c = '"' && d = '"') || hasEscapedQuote (d :: rest)
  | _ => false

/-- The bytes at which `csv_find_unquoted_field_end_simde` stops. -/
def isSpecial (c : Char) : Bool := c = '\x00' || c = ',' || c = '"' || c = '\r' || c = '\n'

/-- The rest of the longest quoted field, after its opening quote: its text as it stands, and what
follows it. -/
def quoted : List Char → Option (List Char × List Char)
  | [] => none
  | c :: rest =>
      if c = '"' then
        match rest with
        | d :: after =>
            if d = '"' then
              match quoted after with
              | some (value, after) => some ('"' :: '"' :: value, after)
              | none => some ([], d :: after)
            else some ([], d :: after)
        | [] => some ([], [])
      else if c = '\x00' then none
      else (quoted rest).map fun (value, after) => (c :: value, after)

def position (line column : ℕ) (bytes : List Char) : ℕ × ℕ :=
  bytes.foldl (fun (line, column) c => if c = '\n' then (line + 1, 1) else (line, column + 1))
    (line, column)

/-- `%02X`. -/
def hexByte (c : Char) : String :=
  let digits := (Nat.toDigits 16 c.toNat).map Char.toUpper
  String.ofList (if digits.length < 2 then '0' :: digits else digits)

namespace Lexer

variable (l : Lexer)

def synthetic : Lexer × Lexed := ({ l with state := .afterField }, .token (.field [] false))

/-- The rules of re2c. -/
def rules : Lexer × Lexed :=
  let error (c : Char) (rest : List Char) : Lexer × Lexed :=
    ({ l with rest := rest },
      .error s!"Unexpected character 0x{hexByte c} at line {l.line}, column {l.column}")
  let newline (rest : List Char) : Lexer × Lexed :=
    (⟨rest, l.line + 1, 1, .rowStart⟩, .token .newline)
  match l.rest with
  | [] => ({ l with state := .rowStart }, .done)
  | ',' :: rest => (⟨rest, l.line, l.column + 1, .afterComma⟩, .token .comma)
  | '\n' :: rest => newline rest
  | '\r' :: '\n' :: rest => newline rest
  | '"' :: rest =>
      match quoted rest with
      | some (value, after) =>
          let place := position l.line l.column ('"' :: value ++ ['"'])
          (⟨after, place.1, place.2, .afterField⟩, .token (.field value (hasEscapedQuote value)))
      | none => error '"' rest
  | c :: rest => error c rest

/-- `csv_lexer_next`. -/
def next : Lexer × Lexed :=
  if l.state = .afterComma ∧ (l.rest = [] ∨ l.rest.head? = some ',' ∨ l.rest.head? = some '\n' ∨
      l.rest.head? = some '\r') then l.synthetic
  else if l.state = .rowStart ∧ l.rest.head? = some ',' then l.synthetic
  else if l.rest = [] then
    if l.state = .afterComma then
      ({ l with state := .rowStart }, .token (.field [] false))
    else ({ l with state := .rowStart }, .done)
  else
    let run := l.rest.takeWhile fun c => !isSpecial c
    if run ≠ [] then
      (⟨l.rest.drop run.length, l.line, l.column + run.length, .afterField⟩,
        .token (.field run false))
    else l.rules

/-- Tokens that are left at most. -/
def budget : ℕ := 2 * l.rest.length + if l.state = .afterField then 1 else 2

end Lexer

abbrev Row := List (List Char)

/-- `unescape_quotes_impl`. -/
def unescape : List Char → List Char
  | [] => []
  | c :: rest =>
      if c = '"' then
        match rest with
        | d :: after => if d = '"' then '"' :: unescape after else c :: unescape (d :: after)
        | [] => [c]
      else c :: unescape rest

def fieldText (value : List Char) (needsUnescape : Bool) : List Char :=
  if needsUnescape then unescape value else value

def pushRow (rows : List Row) (row : Row) : List Row := if row = [] then rows else rows ++ [row]

/-- The loop of `csv_parse_opts` over the tokens. -/
def parseTokens : ℕ → Lexer → Row → List Row → Except String (List Row)
  | 0, _, _, _ => .error ""
  | fuel + 1, l, row, rows =>
      match l.next with
      | (l, .token (.field value needsUnescape)) =>
          parseTokens fuel l (row ++ [fieldText value needsUnescape]) rows
      | (l, .token .comma) => parseTokens fuel l row rows
      | (l, .token .newline) => parseTokens fuel l [] (pushRow rows row)
      | (_, .done) => .ok (pushRow rows row)
      | (_, .error message) => .error message

/-! ## Rows one by one -/

/-- `csv_iter_next`: the row, if there is one. -/
def iterNext : ℕ → Lexer → Row → Lexer × Option Row
  | 0, l, _ => (l, none)
  | fuel + 1, l, row =>
      match l.next with
      | (l, .token (.field value needsUnescape)) =>
          iterNext fuel l (row ++ [fieldText value needsUnescape])
      | (l, .token .comma) => iterNext fuel l (if row = [] then [[]] else row)
      | (l, .token .newline) => if row = [] then iterNext fuel l [] else (l, some row)
      | (l, .done) => (l, if row = [] then none else some row)
      | (l, .error _) => (l, if row = [] then none else some row)

/-- The rows until `csv_iter_next` has none. -/
def iterRows : ℕ → Lexer → List Row
  | 0, _ => []
  | fuel + 1, l =>
      match iterNext (l.budget + 1) l [] with
      | (l, some row) => row :: iterRows fuel l
      | (_, none) => []

def csvIter (content : List Char) : List Row :=
  iterRows ((Lexer.init content).budget + 2) (.init content)

end Csv
