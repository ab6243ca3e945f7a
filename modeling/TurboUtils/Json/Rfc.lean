import TurboUtils.Json.Sax

/-! JSON texts as RFC 8259 has them, on tokens and on bytes, and texts that may have a comma before a
closing bracket. -/
namespace Json

/-! ## Strings and numbers -/

/-- The production `char`, any number of times: what stands between two quotes. -/
inductive RawChars : List Char → Prop
  | nil : RawChars []
  | plain {c : Char} {raw : List Char} (hquote : c ≠ '"') (hslash : c ≠ '\\') (hcontrol : ¬c < ' ')
      (h : RawChars raw) : RawChars (c :: raw)
  | escape {e : Char} {raw : List Char} (he : isSimpleEscape e = true) (h : RawChars raw) :
      RawChars ('\\' :: e :: raw)
  | unicode {h₁ h₂ h₃ h₄ : Char} {raw : List Char}
      (hhex : (isHex h₁ && isHex h₂ && isHex h₃ && isHex h₄) = true) (h : RawChars raw) :
      RawChars ('\\' :: 'u' :: h₁ :: h₂ :: h₃ :: h₄ :: raw)

def hexCode (h₁ h₂ h₃ h₄ : Char) : ℕ :=
  16 * (16 * (16 * hexValue h₁ + hexValue h₂) + hexValue h₃) + hexValue h₄

def IsHighSurrogate (n : ℕ) : Prop := 0xD800 ≤ n ∧ n ≤ 0xDBFF

def IsLowSurrogate (n : ℕ) : Prop := 0xDC00 ≤ n ∧ n ≤ 0xDFFF

/-- What a string with paired surrogates stands for, in UTF-8. -/
inductive Decodes : List Char → List Char → Prop
  | nil : Decodes [] []
  | plain {c : Char} {raw s : List Char} (hquote : c ≠ '"') (hslash : c ≠ '\\')
      (hcontrol : ¬c < ' ') (h : Decodes raw s) : Decodes (c :: raw) (c :: s)
  | escape {e : Char} {raw s : List Char} (he : isSimpleEscape e = true) (h : Decodes raw s) :
      Decodes ('\\' :: e :: raw) (simpleEscape e :: s)
  | unicode {h₁ h₂ h₃ h₄ : Char} {raw s : List Char}
      (hhex : (isHex h₁ && isHex h₂ && isHex h₃ && isHex h₄) = true)
      (hhigh : ¬IsHighSurrogate (hexCode h₁ h₂ h₃ h₄)) (hlow : ¬IsLowSurrogate (hexCode h₁ h₂ h₃ h₄))
      (h : Decodes raw s) :
      Decodes ('\\' :: 'u' :: h₁ :: h₂ :: h₃ :: h₄ :: raw) (utf8 (hexCode h₁ h₂ h₃ h₄) ++ s)
  | pair {h₁ h₂ h₃ h₄ l₁ l₂ l₃ l₄ : Char} {raw s : List Char}
      (hhex : (isHex h₁ && isHex h₂ && isHex h₃ && isHex h₄) = true)
      (lhex : (isHex l₁ && isHex l₂ && isHex l₃ && isHex l₄) = true)
      (hhigh : IsHighSurrogate (hexCode h₁ h₂ h₃ h₄)) (hlow : IsLowSurrogate (hexCode l₁ l₂ l₃ l₄))
      (h : Decodes raw s) :
      Decodes ('\\' :: 'u' :: h₁ :: h₂ :: h₃ :: h₄ :: '\\' :: 'u' :: l₁ :: l₂ :: l₃ :: l₄ :: raw)
        (utf8 (0x10000 + (hexCode h₁ h₂ h₃ h₄ - 0xD800) * 0x400 + (hexCode l₁ l₂ l₃ l₄ - 0xDC00)) ++ s)

/-- The production `int`. -/
def IsInt (l : List Char) : Prop :=
  l = ['0'] ∨ ∃ d ds, l = d :: ds ∧ ('1' ≤ d && d ≤ '9') = true ∧ ∀ c ∈ ds, isDigit c = true

/-- The production `frac`, which is optional. -/
def IsFrac (l : List Char) : Prop :=
  l = [] ∨ ∃ d ds, l = '.' :: d :: ds ∧ isDigit d = true ∧ ∀ c ∈ ds, isDigit c = true

/-- The production `exp`, which is optional. -/
def IsExp (l : List Char) : Prop :=
  l = [] ∨ ∃ e sign d ds, l = e :: (sign ++ d :: ds) ∧ (e = 'e' ∨ e = 'E') ∧
    (sign = [] ∨ sign = ['+'] ∨ sign = ['-']) ∧ isDigit d = true ∧ ∀ c ∈ ds, isDigit c = true

/-- The production `number`. -/
inductive IsNumber : List Char → Prop
  | mk {minus int frac exp : List Char} (hminus : minus = [] ∨ minus = ['-']) (hint : IsInt int)
      (hfrac : IsFrac frac) (hexp : IsExp exp) : IsNumber (minus ++ (int ++ (frac ++ exp)))

/-! ## Values -/

/-- A value; a number is its lexeme, and an object has its members in the order of the text. -/
inductive Value where
  | null
  | bool (value : Bool)
  | number (lexeme : List Char)
  | string (value : List Char)
  | array (elements : List Value)
  | object (members : List (List Char × Value))

mutual

/-- The calls of a traversal, depth first; `convert` has the bytes that a number is made from. -/
def Value.events (convert : List Char → List Char) : Value → List Event
  | .null => [.null]
  | .bool value => [.bool value]
  | .number lexeme => [.number (convert lexeme)]
  | .string value => [.string value]
  | .array elements => .arrayStart :: (elementsEvents convert elements ++ [.arrayEnd])
  | .object members => .objectStart :: (membersEvents convert members ++ [.objectEnd])

def elementsEvents (convert : List Char → List Char) : List Value → List Event
  | [] => []
  | value :: values => value.events convert ++ elementsEvents convert values

def membersEvents (convert : List Char → List Char) : List (List Char × Value) → List Event
  | [] => []
  | (key, value) :: members =>
      .objectKey key :: (value.events convert ++ membersEvents convert members)

end

mutual

def Value.depth : Value → ℕ
  | .array elements => elementsDepth elements + 1
  | .object members => membersDepth members + 1
  | _ => 0

def elementsDepth : List Value → ℕ
  | [] => 0
  | value :: values => max value.depth (elementsDepth values)

def membersDepth : List (List Char × Value) → ℕ
  | [] => 0
  | (_, value) :: members => max value.depth (membersDepth members)

end

mutual

def Value.numbers : Value → List (List Char)
  | .number lexeme => [lexeme]
  | .array elements => elementsNumbers elements
  | .object members => membersNumbers members
  | _ => []

def elementsNumbers : List Value → List (List Char)
  | [] => []
  | value :: values => value.numbers ++ elementsNumbers values

def membersNumbers : List (List Char × Value) → List (List Char)
  | [] => []
  | (_, value) :: members => value.numbers ++ membersNumbers members

end

/-! ## The grammar -/

section Grammar

variable (trailing : Bool)

mutual

/-- The tokens of a value; `trailing` says that a comma may stand before a closing bracket. -/
inductive ValueOf : List Token → Value → Prop
  | null : ValueOf [.null] .null
  | true : ValueOf [.true] (.bool true)
  | false : ValueOf [.false] (.bool false)
  | number (lexeme : List Char) : ValueOf [.number lexeme] (.number lexeme)
  | string {raw s : List Char} (hasEscape : Bool) (h : Decodes raw s) :
      ValueOf [.string raw hasEscape] (.string s)
  | emptyArray : ValueOf [.lbracket, .rbracket] (.array [])
  | array {ts : List Token} {values : List Value} (h : ElementsOf ts values) :
      ValueOf (.lbracket :: ts) (.array values)
  | emptyObject : ValueOf [.lbrace, .rbrace] (.object [])
  | object {ts : List Token} {members : List (List Char × Value)} (h : MembersOf ts members) :
      ValueOf (.lbrace :: ts) (.object members)

/-- The tokens of elements and the bracket that closes them. -/
inductive ElementsOf : List Token → List Value → Prop
  | last {ts : List Token} {value : Value} (h : ValueOf ts value) :
      ElementsOf (ts ++ [.rbracket]) [value]
  | trailing {ts : List Token} {value : Value} (hcomma : trailing = true) (h : ValueOf ts value) :
      ElementsOf (ts ++ [.comma, .rbracket]) [value]
  | next {ts rest : List Token} {value : Value} {values : List Value} (h : ValueOf ts value)
      (hrest : ElementsOf rest values) : ElementsOf (ts ++ .comma :: rest) (value :: values)

inductive MembersOf : List Token → List (List Char × Value) → Prop
  | last {raw key : List Char} {hasEscape : Bool} {ts : List Token} {value : Value}
      (hkey : Decodes raw key) (h : ValueOf ts value) :
      MembersOf (.string raw hasEscape :: .colon :: (ts ++ [.rbrace])) [(key, value)]
  | trailing {raw key : List Char} {hasEscape : Bool} {ts : List Token} {value : Value}
      (hcomma : trailing = true) (hkey : Decodes raw key) (h : ValueOf ts value) :
      MembersOf (.string raw hasEscape :: .colon :: (ts ++ [.comma, .rbrace])) [(key, value)]
  | next {raw key : List Char} {hasEscape : Bool} {ts rest : List Token} {value : Value}
      {members : List (List Char × Value)} (hkey : Decodes raw key) (h : ValueOf ts value)
      (hrest : MembersOf rest members) :
      MembersOf (.string raw hasEscape :: .colon :: (ts ++ .comma :: rest)) ((key, value) :: members)

end

end Grammar

/-! ## Bytes -/

inductive Spells : Token → List Char → Prop
  | structural {c : Char} {token : Token} (h : structural c = some token) : Spells token [c]
  | literal {c : Char} {token : Token} {bytes : List Char} (h : literal c = some (bytes, token)) :
      Spells token bytes
  | string {raw : List Char} (h : RawChars raw) :
      Spells (.string raw (raw.contains '\\')) ('"' :: (raw ++ ['"']))
  | number {lexeme : List Char} (h : IsNumber lexeme) : Spells (.number lexeme) lexeme

/-- Tokens with white space before them, between them and after them. -/
inductive Spread : List Token → List Char → Prop
  | nil {ws : List Char} (hws : ∀ c ∈ ws, isWs c = true) : Spread [] ws
  | cons {ws bytes input : List Char} {token : Token} {ts : List Token}
      (hws : ∀ c ∈ ws, isWs c = true) (h : Spells token bytes) (hrest : Spread ts input) :
      Spread (token :: ts) (ws ++ (bytes ++ input))

/-- A JSON text of RFC 8259 whose surrogates are paired, with `trailing` a text that may have a comma
before a closing bracket. -/
def Text (trailing : Bool) (input : List Char) (value : Value) : Prop :=
  ∃ ts, Spread ts input ∧ ValueOf trailing ts value

end Json
