import Mathlib.Data.List.TakeWhile
import Mathlib.Tactic

/-! The scanners of the SAX parser of json_parser.c. Bytes are characters. -/
namespace Json

/-- `JSON_TOKEN_*`, with the bytes of a string between its quotes, and of a number. -/
inductive Token where
  | lbrace
  | rbrace
  | lbracket
  | rbracket
  | colon
  | comma
  | string (value : List Char) (hasEscape : Bool)
  | number (lexeme : List Char)
  | true
  | false
  | null
  deriving DecidableEq, Repr

/-- What a scanner returns: 0 while it waits for more bytes, -1 with a message, or 1. -/
inductive Scan (α : Type) where
  | wait
  | error (message : String)
  | ok (value : α)
  deriving DecidableEq, Repr

namespace Scan

variable {α β : Type}

def bind (s : Scan α) (f : α → Scan β) : Scan β :=
  match s with
  | wait => wait
  | error message => error message
  | ok a => f a

def map (f : α → β) (s : Scan α) : Scan β := s.bind fun a => ok (f a)

theorem bind_eq_ok {s : Scan α} {f : α → Scan β} {b : β} :
    s.bind f = ok b ↔ ∃ a, s = ok a ∧ f a = ok b := by
  cases s <;> simp [bind]

theorem map_eq_ok {s : Scan α} {f : α → β} {b : β} : s.map f = ok b ↔ ∃ a, s = ok a ∧ f a = b := by
  cases s <;> simp [map, bind]

end Scan

def atEnd {α : Type} (final : Bool) (message : String) : Scan α :=
  if final then .error message else .wait

/-! ## Bytes -/

/-- `json_sax_is_ws`, and the bytes of `json_skip_rfc_whitespace_simde`. -/
def isWs (c : Char) : Bool := c = ' ' || c = '\t' || c = '\n' || c = '\r'

/-- `json_sax_is_delim`. -/
def isDelim (c : Char) : Bool := isWs c || c = ',' || c = ']' || c = '}'

def isDigit (c : Char) : Bool := '0' ≤ c && c ≤ '9'

/-- A digit of `json_sax_is_hex4`. -/
def isHex (c : Char) : Bool := isDigit c || ('a' ≤ c && c ≤ 'f') || ('A' ≤ c && c ≤ 'F')

/-- The bytes that stand after a backslash, apart from the `u`. -/
def isSimpleEscape (c : Char) : Bool :=
  c = '"' || c = '\\' || c = '/' || c = 'b' || c = 'f' || c = 'n' || c = 'r' || c = 't'

/-! ## Numbers -/

/-- What follows some digits. -/
def digits (input : List Char) : List Char := input.dropWhile isDigit

section Scanners

variable (final : Bool)

def someDigits : List Char → Scan (List Char)
  | [] => atEnd final "Invalid number"
  | c :: rest => if isDigit c then .ok (digits rest) else .error "Invalid number"

def integerPart (input : List Char) : Scan (List Char) :=
  match (if input.head? = some '-' then input.tail else input) with
  | [] => atEnd final "Invalid number"
  | c :: rest =>
      if c = '0' then if rest.head?.any isDigit then .error "Invalid number" else .ok rest
      else if '1' ≤ c && c ≤ '9' then .ok (digits rest)
      else .error "Invalid number"

def fractionPart (input : List Char) : Scan (List Char) :=
  if input.head? = some '.' then someDigits final input.tail else .ok input

def exponentPart (input : List Char) : Scan (List Char) :=
  if input.head? = some 'e' ∨ input.head? = some 'E' then
    let rest := input.tail
    someDigits final (if rest.head? = some '+' ∨ rest.head? = some '-' then rest.tail else rest)
  else .ok input

def numberEnd (input : List Char) : Scan (List Char) :=
  (integerPart final input).bind fun rest =>
    (fractionPart final rest).bind fun rest => exponentPart final rest

/-- `json_sax_scan_number`. `reads` says that `strtod` takes all of a lexeme. -/
def scanNumber (reads : List Char → Bool) (input : List Char) : Scan (Token × List Char) :=
  (numberEnd final input).bind fun rest =>
    if rest = [] ∧ !final then .wait
    else if rest.head?.any fun c => !isDelim c then .error "Invalid number terminator"
    else
      let lexeme := input.take (input.length - rest.length)
      if reads lexeme then .ok (.number lexeme, rest) else .error "Invalid number"

/-! ## Strings -/

def prepend (bytes : List Char) (escape : Bool) (s : Scan ((List Char × Bool) × List Char)) :
    Scan ((List Char × Bool) × List Char) :=
  s.map fun ((value, hasEscape), rest) => ((bytes ++ value, escape || hasEscape), rest)

/-- `json_sax_scan_string` after the opening quote: the bytes up to the closing one, whether there is
an escape among them, and what follows. -/
def scanChars : List Char → Scan ((List Char × Bool) × List Char)
  | [] => atEnd final "Unterminated string"
  | c :: rest =>
      if c = '"' then .ok (([], false), rest)
      else if c = '\\' then
        match rest with
        | [] => atEnd final "Incomplete escape sequence"
        | e :: rest =>
            if isSimpleEscape e then prepend ['\\', e] true (scanChars rest)
            else if e = 'u' then
              match rest with
              | h₁ :: h₂ :: h₃ :: h₄ :: rest =>
                  if isHex h₁ && isHex h₂ && isHex h₃ && isHex h₄ then
                    prepend ['\\', 'u', h₁, h₂, h₃, h₄] true (scanChars rest)
                  else .error "Invalid unicode escape"
              | _ => atEnd final "Incomplete unicode escape"
            else .error "Invalid escape sequence"
      else if c < ' ' then .error "Invalid control character in string"
      else prepend [c] false (scanChars rest)

example : scanChars true ['\\', 'n', '"', 'a'] = .ok ((['\\', 'n'], true), ['a']) := by
  rw [scanChars.eq_def]
  rfl

def scanString (input : List Char) : Scan (Token × List Char) :=
  (scanChars final input).map fun ((value, hasEscape), rest) => (.string value hasEscape, rest)

/-! ## Tokens -/

/-- `json_sax_scan_literal`. -/
def scanLiteral (literal : List Char) (token : Token) (input : List Char) :
    Scan (Token × List Char) :=
  let available := min input.length literal.length
  if input.take available ≠ literal.take available then
    .error ("Unexpected character '" ++ String.ofList (input.take 1) ++ "'")
  else if input.length < literal.length then atEnd final "Incomplete literal"
  else if (input.drop literal.length).head?.any fun c => !isDelim c then
    .error "Invalid literal terminator"
  else .ok (token, input.drop literal.length)

def structural (c : Char) : Option Token :=
  if c = '{' then some .lbrace
  else if c = '}' then some .rbrace
  else if c = '[' then some .lbracket
  else if c = ']' then some .rbracket
  else if c = ':' then some .colon
  else if c = ',' then some .comma
  else none

def literal (c : Char) : Option (List Char × Token) :=
  if c = 't' then some ("true".toList, .true)
  else if c = 'f' then some ("false".toList, .false)
  else if c = 'n' then some ("null".toList, .null)
  else none

/-- `json_sax_next_token` after the white space. -/
def scanToken (reads : List Char → Bool) (input : List Char) : Scan (Token × List Char) :=
  match input with
  | [] => .wait
  | c :: rest =>
      match structural c with
      | some token => .ok (token, rest)
      | none =>
          if c = '"' then scanString final rest
          else
            match literal c with
            | some (bytes, token) => scanLiteral final bytes token input
            | none =>
                if c = '-' || isDigit c then scanNumber final reads input
                else .error ("Unexpected character '" ++ String.ofList [c] ++ "'")

end Scanners

end Json
