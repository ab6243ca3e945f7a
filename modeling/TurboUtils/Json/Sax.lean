import TurboUtils.Json.Scanner

/-! The SAX parser of json_parser.c: its states, and the bytes that it keeps between two calls. -/
namespace Json

/-! ## Escapes -/

/-- `json_unicode_hex`. -/
def hexValue (c : Char) : ℕ :=
  if isDigit c then c.toNat - '0'.toNat
  else if 'a' ≤ c && c ≤ 'f' then c.toNat - 'a'.toNat + 10
  else c.toNat - 'A'.toNat + 10

/-- `json_unicode_hex4`. -/
def hex4 : List Char → Option (ℕ × List Char)
  | h₁ :: h₂ :: h₃ :: h₄ :: rest =>
      if isHex h₁ && isHex h₂ && isHex h₃ && isHex h₄ then
        some (16 * (16 * (16 * hexValue h₁ + hexValue h₂) + hexValue h₃) + hexValue h₄, rest)
      else none
  | _ => none

/-- `json_unicode_decode_escape` after the first backslash and its `u`. -/
def decodeEscape (input : List Char) : Option (ℕ × List Char) :=
  (hex4 input).bind fun (high, rest) =>
    if 0xD800 ≤ high ∧ high ≤ 0xDBFF then
      match rest with
      | b :: u :: rest =>
          if b = '\\' ∧ u = 'u' then
            (hex4 rest).bind fun (low, rest) =>
              if low < 0xDC00 ∨ 0xDFFF < low then none
              else some (0x10000 + (high - 0xD800) * 0x400 + (low - 0xDC00), rest)
          else none
      | _ => none
    else if 0xDC00 ≤ high ∧ high ≤ 0xDFFF then none
    else some (high, rest)

/-- `json_unicode_append_utf8`. -/
def utf8 (codepoint : ℕ) : List Char :=
  if codepoint ≤ 0x7F then [Char.ofNat codepoint]
  else if codepoint ≤ 0x7FF then
    [Char.ofNat (0xC0 + codepoint / 0x40), Char.ofNat (0x80 + codepoint % 0x40)]
  else if codepoint ≤ 0xFFFF then
    [Char.ofNat (0xE0 + codepoint / 0x1000), Char.ofNat (0x80 + codepoint / 0x40 % 0x40),
      Char.ofNat (0x80 + codepoint % 0x40)]
  else
    [Char.ofNat (0xF0 + codepoint / 0x40000), Char.ofNat (0x80 + codepoint / 0x1000 % 0x40),
      Char.ofNat (0x80 + codepoint / 0x40 % 0x40), Char.ofNat (0x80 + codepoint % 0x40)]

def simpleEscape (c : Char) : Char :=
  if c = 'b' then '\x08'
  else if c = 'f' then '\x0c'
  else if c = 'n' then '\n'
  else if c = 'r' then '\r'
  else if c = 't' then '\t'
  else c

theorem hex4_length {input rest : List Char} {n : ℕ} (h : hex4 input = some (n, rest)) :
    rest.length < input.length := by
  match input with
  | h₁ :: h₂ :: h₃ :: h₄ :: tail =>
    rw [hex4] at h
    split_ifs at h
    cases h
    simp only [List.length_cons]
    omega

theorem decodeEscape_length {input rest : List Char} {n : ℕ}
    (h : decodeEscape input = some (n, rest)) : rest.length < input.length := by
  obtain ⟨⟨high, mid⟩, hhigh, h⟩ := Option.bind_eq_some_iff.1 h
  have hmid := hex4_length hhigh
  dsimp only at h
  split_ifs at h
  · split at h
    · split_ifs at h
      obtain ⟨⟨low, last⟩, hlow, h⟩ := Option.bind_eq_some_iff.1 h
      have hlast := hex4_length hlow
      dsimp only at h
      split_ifs at h
      obtain ⟨-, rfl⟩ := Prod.mk.inj (Option.some.inj h)
      simp only [List.length_cons] at hmid
      omega
    · cases h
  · obtain ⟨-, rfl⟩ := Prod.mk.inj (Option.some.inj h)
    exact hmid

/-- `sax_unescape_to_buffer`, and `json_unescape_arena`. -/
def unescape (input : List Char) : Option (List Char) :=
  match input with
  | [] => some []
  | c :: rest =>
      if c = '\\' then
        match rest with
        | [] => some [c]
        | e :: rest =>
            if e = 'u' then
              match _h : decodeEscape rest with
              | none => none
              | some (codepoint, rest) => (unescape rest).map (utf8 codepoint ++ ·)
            else (unescape rest).map (simpleEscape e :: ·)
      else (unescape rest).map (c :: ·)
  termination_by input.length
  decreasing_by
    · have := decodeEscape_length _h
      simp only [List.length_cons]
      omega
    · simp only [List.length_cons]
      omega
    · simp only [List.length_cons]
      omega

/-! ## The push-down machine -/

/-- `sax_state_t`. -/
inductive SaxState where
  | value
  | objectKey
  | objectColon
  | objectValue
  | objectComma
  | arrayValue
  | arrayComma
  deriving DecidableEq, Repr

/-- A call of a callback; that of a number has the bytes that are converted, or handed on raw. -/
inductive Event where
  | null
  | bool (value : Bool)
  | number (lexeme : List Char)
  | string (value : List Char)
  | objectStart
  | objectKey (key : List Char)
  | objectEnd
  | arrayStart
  | arrayEnd
  deriving DecidableEq, Repr

/-- The states of `json_sax_parser_t`, the stack with its last entry first, and the calls so far. -/
structure Machine where
  stack : List SaxState
  state : SaxState
  rootSeen : Bool
  done : Bool
  events : List Event
  deriving DecidableEq, Repr

/-- `SAX_MAX_DEPTH`. -/
def saxMaxDepth : ℕ := 256

namespace Machine

def init : Machine := ⟨[], .value, false, false, []⟩

variable (m : Machine)

def emit (event : Event) : Machine := { m with events := m.events ++ [event] }

/-- `json_sax_mark_value_complete`. -/
def markValueComplete : Machine :=
  if m.state = .objectValue then { m with state := .objectComma }
  else if m.state = .arrayValue then { m with state := .arrayComma }
  else { m with rootSeen := true, done := true }

/-- `json_sax_after_container_end`. -/
def afterContainerEnd : Machine :=
  let m := { m with stack := m.stack.tail, state := m.stack.headD .value }
  if m.stack = [] ∧ m.state = .value then { m with rootSeen := true, done := true } else m

/-- `json_sax_push_container`. -/
def pushContainer (next : SaxState) : Except String Machine :=
  if saxMaxDepth ≤ m.stack.length then .error "Max depth exceeded"
  else
    let outer : SaxState :=
      if m.state = .objectValue then .objectComma
      else if m.state = .arrayValue then .arrayComma
      else .value
    .ok { m with stack := outer :: m.stack, rootSeen := true, state := next }

/-- The bytes that `json_sax_emit_string` hands on. -/
def text (value : List Char) (hasEscape : Bool) : Except String (List Char) :=
  if hasEscape then
    match unescape value with
    | some value => .ok value
    | none => .error "Invalid Unicode surrogate pair"
  else .ok value

/-- `json_sax_process_token` where a value may stand. -/
def processValue (token : Token) : Except String Machine :=
  match token with
  | .null => .ok (m.emit .null).markValueComplete
  | .true => .ok (m.emit (.bool true)).markValueComplete
  | .false => .ok (m.emit (.bool false)).markValueComplete
  | .number lexeme => .ok (m.emit (.number lexeme)).markValueComplete
  | .string value hasEscape =>
      (text value hasEscape).map fun value => (m.emit (.string value)).markValueComplete
  | .lbrace => (m.emit .objectStart).pushContainer .objectKey
  | .lbracket => (m.emit .arrayStart).pushContainer .arrayValue
  | .rbracket =>
      if m.state = .arrayValue then .ok (m.emit .arrayEnd).afterContainerEnd
      else .error "Unexpected ]"
  | .rbrace =>
      if m.state = .objectValue then .error "Expected value before \x7d"
      else .error "Unexpected \x7d"
  | _ => .error "Unexpected token in value context"

/-- `json_sax_process_token`. -/
def processToken (token : Token) : Except String Machine :=
  if m.done then .error "Unexpected data after JSON value"
  else
    match m.state with
    | .value => m.processValue token
    | .objectValue => m.processValue token
    | .arrayValue => m.processValue token
    | .objectKey =>
        match token with
        | .string value hasEscape =>
            (text value hasEscape).map fun key =>
              { m.emit (.objectKey key) with state := .objectColon }
        | .rbrace => .ok (m.emit .objectEnd).afterContainerEnd
        | _ => .error "Expected string key or \x7d"
    | .objectColon =>
        if token = .colon then .ok { m with state := .objectValue } else .error "Expected :"
    | .objectComma =>
        match token with
        | .comma => .ok { m with state := .objectKey }
        | .rbrace => .ok (m.emit .objectEnd).afterContainerEnd
        | _ => .error "Expected , or \x7d"
    | .arrayComma =>
        match token with
        | .comma => .ok { m with state := .arrayValue }
        | .rbracket => .ok (m.emit .arrayEnd).afterContainerEnd
        | _ => .error "Expected , or ]"

end Machine

/-! ## The parser -/

/-- `json_sax_parser_t`; a parser that has failed is no more. -/
structure Sax where
  machine : Machine
  finished : Bool
  buffer : List Char
  pos : ℕ
  deriving DecidableEq, Repr

namespace Sax

/-- `json_sax_parser_create`. -/
def create : Sax := ⟨.init, false, [], 0⟩

variable (reads : List Char → Bool) (p : Sax)

def unread : List Char := p.buffer.drop p.pos

/-- `json_sax_next_token`. -/
def nextToken (final : Bool) : Sax × Scan Token :=
  let input := p.unread.dropWhile isWs
  match scanToken final reads input with
  | .wait => ({ p with pos := p.buffer.length - input.length }, .wait)
  | .error message => ({ p with pos := p.buffer.length - input.length }, .error message)
  | .ok (token, rest) => ({ p with pos := p.buffer.length - rest.length }, .ok token)

/-- `json_sax_compact_buffer`. -/
def compactBuffer : Sax :=
  if p.pos = 0 then p
  else if p.buffer.length ≤ p.pos then { p with buffer := [], pos := 0 }
  else { p with buffer := p.buffer.drop p.pos, pos := 0 }

/-- The loop of `json_sax_parser_run`; a round takes at least a byte. -/
def runLoop (final : Bool) : ℕ → Sax → Except String Sax
  | 0, _ => .error ""
  | fuel + 1, p =>
      match p.nextToken reads final with
      | (p, .wait) => .ok p
      | (_, .error message) => .error message
      | (p, .ok token) =>
          (p.machine.processToken token).bind fun machine =>
            runLoop final fuel { p with machine := machine }

/-- `json_sax_parser_run`. -/
def run (final : Bool) : Except String Sax :=
  (runLoop reads final (p.unread.length + 1) p).map compactBuffer

/-- `json_sax_parser_feed`. -/
def feed (data : List Char) : Except String Sax :=
  if p.finished then .error "Parser already finished"
  else if data = [] then .ok p
  else { p with buffer := p.buffer ++ data }.run reads false

/-- `json_sax_parser_finish`. -/
def finish : Except String Sax :=
  if p.finished then .error "Parser already finished"
  else
    ({ p with finished := true }.run reads true).bind fun p =>
      if p.machine.done then .ok p
      else if p.machine.rootSeen then .error "Unclosed object or array"
      else .error "Expected JSON value"

end Sax

def feedPieces (reads : List Char → Bool) (pieces : List (List Char)) :
    Except String (List Event) :=
  (pieces.foldlM (fun p piece => Sax.feed reads p piece) .create).bind fun p =>
    (p.finish reads).map fun p => p.machine.events

/-- `json_parse_sax`. -/
def jsonParseSax (reads : List Char → Bool) (content : List Char) : Except String (List Event) :=
  if content = [] then .error "Invalid arguments" else feedPieces reads [content]

end Json
