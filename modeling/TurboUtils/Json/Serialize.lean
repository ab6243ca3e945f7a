import TurboUtils.Json.Agreement

/-! Printing a tree, compact or indented, and what the parser reads from the print. -/
namespace Json

/-! ## Strings -/

/-- `{:04x}`. -/
def fmtHex4 (n : ℕ) : List Char := (Nat.toDigits 16 n).leftpad 4 '0'

/-- The bytes that `json_serialize_string` appends for one, as the string branch of
`json_serialize_value` does. -/
def escapeByte (c : Char) : List Char :=
  if c = '"' then ['\\', '"']
  else if c = '\\' then ['\\', '\\']
  else if c = '\x08' then ['\\', 'b']
  else if c = '\x0c' then ['\\', 'f']
  else if c = '\n' then ['\\', 'n']
  else if c = '\r' then ['\\', 'r']
  else if c = '\t' then ['\\', 't']
  else if c.toNat < 32 then '\\' :: 'u' :: fmtHex4 c.toNat
  else [c]

def escape (s : List Char) : List Char := s.flatMap escapeByte

/-- `json_serialize_string`. -/
def serializeString (s : List Char) : List Char := '"' :: (escape s ++ ['"'])

/-! ## Values -/

def separator {α : Type} (rest : List α) : List Char := if rest.isEmpty then [] else [',']

mutual

/-- `json_serialize_value`. -/
def Value.serialize : Value → List Char
  | .null => ['n', 'u', 'l', 'l']
  | .bool value => if value then ['t', 'r', 'u', 'e'] else ['f', 'a', 'l', 's', 'e']
  | .number lexeme => lexeme
  | .string value => serializeString value
  | .array elements => '[' :: (elementsSerialize elements ++ [']'])
  | .object members => '{' :: (membersSerialize members ++ ['}'])

def elementsSerialize : List Value → List Char
  | [] => []
  | value :: values => value.serialize ++ (separator values ++ elementsSerialize values)

def membersSerialize : List (List Char × Value) → List Char
  | [] => []
  | (key, value) :: members =>
      serializeString key ++ ':' :: (value.serialize ++ (separator members ++ membersSerialize members))

end

/-- `json_serialize_indent`. -/
def indent (level : ℕ) : List Char := (List.replicate level [' ', ' ']).flatten

mutual

/-- `json_serialize_pretty_value_ex`. -/
def Value.pretty (newline : List Char) (level : ℕ) : Value → List Char
  | .array elements =>
      if elements.isEmpty then ['[', ']']
      else '[' :: (newline ++ (elementsPretty newline level elements ++ (indent level ++ [']'])))
  | .object members =>
      if members.isEmpty then ['{', '}']
      else '{' :: (newline ++ (membersPretty newline level members ++ (indent level ++ ['}'])))
  | value => value.serialize

def elementsPretty (newline : List Char) (level : ℕ) : List Value → List Char
  | [] => []
  | value :: values => indent (level + 1) ++ (value.pretty newline (level + 1) ++
      (separator values ++ (newline ++ elementsPretty newline level values)))

def membersPretty (newline : List Char) (level : ℕ) : List (List Char × Value) → List Char
  | [] => []
  | (key, value) :: members => indent (level + 1) ++ (serializeString key ++
      ':' :: ' ' :: (value.pretty newline (level + 1) ++
        (separator members ++ (newline ++ membersPretty newline level members))))

end

/-- `json_serialize`. -/
def jsonSerialize (value : Value) : List Char := value.serialize

/-- `json_serialize_pretty`. -/
def jsonSerializePretty (value : Value) : List Char := value.pretty ['\n'] 0

/-- `json_serialize_pretty_crlf`. -/
def jsonSerializePrettyCrlf (value : Value) : List Char := value.pretty ['\r', '\n'] 0

/-! ## A string is read back -/

theorem fmtHex4_digits : ∀ n < 32, ∃ h₁ h₂ h₃ h₄, fmtHex4 n = [h₁, h₂, h₃, h₄] ∧
    (isHex h₁ && isHex h₂ && isHex h₃ && isHex h₄) = true ∧ hexCode h₁ h₂ h₃ h₄ = n := by
  have hdigits : ∀ n < 32, fmtHex4 n = ['0', '0', Nat.digitChar (n / 16), Nat.digitChar (n % 16)] ∧
      (isHex (Nat.digitChar (n / 16)) && isHex (Nat.digitChar (n % 16))) = true ∧
      hexCode '0' '0' (Nat.digitChar (n / 16)) (Nat.digitChar (n % 16)) = n := by decide
  intro n hn
  obtain ⟨hprint, hhex, hcode⟩ := hdigits n hn
  refine ⟨_, _, _, _, hprint, ?_, hcode⟩
  rw [Bool.and_eq_true] at hhex
  simp [hhex.1, hhex.2, show isHex '0' = true by decide]

theorem Decodes.escapeByte {raw s : List Char} (h : Decodes raw s) (c : Char) :
    Decodes (Json.escapeByte c ++ raw) (c :: s) := by
  have hsimple {e : Char} (he : isSimpleEscape e = true) (hc : simpleEscape e = c) :
      Decodes (['\\', e] ++ raw) (c :: s) := hc ▸ Decodes.escape he h
  unfold Json.escapeByte
  split_ifs with hquote hslash hb hf hn hr ht hcontrol
  · exact hsimple (by decide) (by rw [hquote]; decide)
  · exact hsimple (by decide) (by rw [hslash]; decide)
  · exact hsimple (by decide) (by rw [hb]; decide)
  · exact hsimple (by decide) (by rw [hf]; decide)
  · exact hsimple (by decide) (by rw [hn]; decide)
  · exact hsimple (by decide) (by rw [hr]; decide)
  · exact hsimple (by decide) (by rw [ht]; decide)
  · obtain ⟨h₁, h₂, h₃, h₄, hprint, hhex, hcode⟩ := fmtHex4_digits c.toNat hcontrol
    have hutf8 : utf8 c.toNat = [c] := by
      rw [utf8, if_pos (by omega), Char.ofNat_toNat]
    have hdecodes := Decodes.unicode hhex (by rw [hcode]; exact fun hhigh => by have := hhigh.1; omega)
      (by rw [hcode]; exact fun hlow => by have := hlow.1; omega) h
    rw [hcode, hutf8] at hdecodes
    simpa [hprint] using hdecodes
  · refine .plain hquote hslash (fun hlt => hcontrol ?_) h
    exact hlt

theorem decodes_escape (s : List Char) : Decodes (escape s) s := by
  induction s with
  | nil => exact .nil
  | cons c s ih => simpa [escape] using ih.escapeByte c

theorem Decodes.rawChars {raw s : List Char} (h : Decodes raw s) : RawChars raw := by
  induction h with
  | nil => exact .nil
  | plain hquote hslash hcontrol _ ih => exact .plain hquote hslash hcontrol ih
  | escape he _ ih => exact .escape he ih
  | unicode hhex _ _ _ ih => exact .unicode hhex ih
  | pair hhex lhex _ _ _ ih => exact .unicode hhex (.unicode lhex ih)

/-! ## The tokens that are printed -/

/-- The bytes spell the tokens, whatever comes after them. -/
structure Prints (ts : List Token) (w : List Char) : Prop where
  append_spread : ∀ {rest : List Token} {input : List Char}, Spread rest input →
    Spread (ts ++ rest) (w ++ input)

section Prints

variable {first second ts : List Token} {w w' ws : List Char}

theorem Prints.append (h : Prints first w) (h' : Prints second w') :
    Prints (first ++ second) (w ++ w') where
  append_spread hrest := by simpa using h.append_spread (h'.append_spread hrest)

theorem Prints.blank (hws : ∀ c ∈ ws, isWs c = true) : Prints [] ws := by
  refine ⟨fun hrest => ?_⟩
  cases hrest with
  | nil h => exact .nil fun c hc => (List.mem_append.1 hc).elim (hws c) (h c)
  | cons h hspells hrest =>
    simpa using Spread.cons (fun c hc => (List.mem_append.1 hc).elim (hws c) (h c)) hspells hrest

theorem Prints.token {token : Token} (h : Spells token w) : Prints [token] w where
  append_spread hrest := @Spread.cons [] _ _ _ _ nofun h hrest

theorem Prints.cons {token : Token} {c : Char} (h : structural c = some token) (h' : Prints ts w) :
    Prints (token :: ts) (c :: w) := (Prints.token (.structural h)).append h'

theorem Prints.blank_append (hws : ∀ c ∈ ws, isWs c = true) (h : Prints ts w) :
    Prints ts (ws ++ w) := (Prints.blank hws).append h

theorem Prints.spread (h : Prints ts w) : Spread ts w := by
  simpa using h.append_spread (@Spread.nil [] nofun)

end Prints

def comma {α : Type} (rest : List α) : List Token := if rest.isEmpty then [] else [.comma]

mutual

def Value.tokens : Value → List Token
  | .null => [.null]
  | .bool value => [if value then .true else .false]
  | .number lexeme => [.number lexeme]
  | .string value => [.string (escape value) ((escape value).contains '\\')]
  | .array elements => .lbracket :: elementsTokens elements
  | .object members => .lbrace :: membersTokens members

def elementsTokens : List Value → List Token
  | [] => [.rbracket]
  | value :: values => value.tokens ++ (comma values ++ elementsTokens values)

def membersTokens : List (List Char × Value) → List Token
  | [] => [.rbrace]
  | (key, value) :: members => .string (escape key) ((escape key).contains '\\') :: .colon ::
      (value.tokens ++ (comma members ++ membersTokens members))

end

mutual

theorem Value.tokens_valueOf (v : Value) : ValueOf false v.tokens v := by
  cases v with
  | null => exact .null
  | bool value => cases value with
    | false => exact .false
    | true => exact .true
  | number lexeme => exact .number lexeme
  | string value => exact .string _ (decodes_escape value)
  | array elements => cases elements with
    | nil => exact .emptyArray
    | cons value values => exact .array (elementsTokens_elementsOf (value :: values) nofun)
  | object members => cases members with
    | nil => exact .emptyObject
    | cons member members => exact .object (membersTokens_membersOf (member :: members) nofun)

theorem elementsTokens_elementsOf (values : List Value) (hne : values ≠ []) :
    ElementsOf false (elementsTokens values) values := by
  match values with
  | [value] => exact .last value.tokens_valueOf
  | value :: next :: values =>
    exact .next value.tokens_valueOf (elementsTokens_elementsOf (next :: values) nofun)

theorem membersTokens_membersOf (members : List (List Char × Value)) (hne : members ≠ []) :
    MembersOf false (membersTokens members) members := by
  match members with
  | [(key, value)] => exact .last (decodes_escape key) value.tokens_valueOf
  | (key, value) :: next :: members =>
    exact .next (decodes_escape key) value.tokens_valueOf
      (membersTokens_membersOf (next :: members) nofun)

end

theorem prints_separator {α : Type} (rest : List α) : Prints (comma rest) (separator rest) := by
  cases rest with
  | nil => exact .blank nofun
  | cons next rest => exact .token (.structural rfl)

theorem prints_string (s : List Char) :
    Prints [.string (escape s) ((escape s).contains '\\')] (serializeString s) :=
  .token (.string (decodes_escape s).rawChars)

mutual

theorem Value.serialize_prints (v : Value) (h : ∀ n ∈ v.numbers, IsNumber n) :
    Prints v.tokens v.serialize := by
  cases v with
  | null => exact .token (.literal (c := 'n') rfl)
  | bool value => cases value with
    | false => exact .token (.literal (c := 'f') rfl)
    | true => exact .token (.literal (c := 't') rfl)
  | number lexeme => exact .token (.number (h lexeme (List.mem_singleton_self _)))
  | string value => exact prints_string value
  | array elements => exact .cons rfl (elementsSerialize_prints elements h)
  | object members => exact .cons rfl (membersSerialize_prints members h)

theorem elementsSerialize_prints (values : List Value) (h : ∀ n ∈ elementsNumbers values, IsNumber n) :
    Prints (elementsTokens values) (elementsSerialize values ++ [']']) := by
  cases values with
  | nil => exact .token (.structural rfl)
  | cons value values =>
    have hvalue := value.serialize_prints fun n hn => h n (List.mem_append_left _ hn)
    have hvalues := elementsSerialize_prints values fun n hn => h n (List.mem_append_right _ hn)
    simpa [elementsTokens, elementsSerialize] using
      hvalue.append ((prints_separator values).append hvalues)

theorem membersSerialize_prints (members : List (List Char × Value))
    (h : ∀ n ∈ membersNumbers members, IsNumber n) :
    Prints (membersTokens members) (membersSerialize members ++ ['}']) := by
  match members with
  | [] => exact .token (.structural rfl)
  | (key, value) :: members =>
    have hvalue := value.serialize_prints fun n hn => h n (List.mem_append_left _ hn)
    have hmembers := membersSerialize_prints members fun n hn => h n (List.mem_append_right _ hn)
    simpa [membersTokens, membersSerialize] using (prints_string key).append
      (.cons (c := ':') rfl (hvalue.append ((prints_separator members).append hmembers)))

end

theorem indent_ws (level : ℕ) : ∀ c ∈ indent level, isWs c = true := by
  intro c hc
  simp only [indent, List.mem_flatten, List.mem_replicate] at hc
  obtain ⟨l, ⟨-, rfl⟩, hc⟩ := hc
  simp only [List.mem_cons, List.not_mem_nil, or_false, or_self] at hc
  rw [hc]
  decide

section Pretty

variable {newline : List Char} (hnewline : ∀ c ∈ newline, isWs c = true)
include hnewline

mutual

theorem Value.pretty_prints (v : Value) (level : ℕ) (h : ∀ n ∈ v.numbers, IsNumber n) :
    Prints v.tokens (v.pretty newline level) := by
  match v with
  | .null | .bool value | .number lexeme | .string value =>
    rw [Value.pretty]
    · exact Value.serialize_prints _ h
    all_goals nofun
  | .array [] => exact .cons rfl (.token (.structural rfl))
  | .object [] => exact .cons rfl (.token (.structural rfl))
  | .array (value :: values) =>
    rw [Value.pretty]
    exact .cons rfl (.blank_append hnewline (elementsPretty_prints (value :: values) level h))
  | .object (member :: members) =>
    rw [Value.pretty]
    exact .cons rfl (.blank_append hnewline (membersPretty_prints (member :: members) level h))

theorem elementsPretty_prints (values : List Value) (level : ℕ)
    (h : ∀ n ∈ elementsNumbers values, IsNumber n) :
    Prints (elementsTokens values) (elementsPretty newline level values ++ (indent level ++ [']'])) := by
  cases values with
  | nil =>
    have hclose : Prints [.rbracket] [']'] := .token (.structural rfl)
    simpa [elementsTokens, elementsPretty] using hclose.blank_append (indent_ws level)
  | cons value values =>
    have hvalue := value.pretty_prints (level + 1) fun n hn => h n (List.mem_append_left _ hn)
    have hvalues := elementsPretty_prints values level fun n hn => h n (List.mem_append_right _ hn)
    simpa [elementsTokens, elementsPretty] using (hvalue.append ((prints_separator values).append
      (hvalues.blank_append hnewline))).blank_append (indent_ws (level + 1))

theorem membersPretty_prints (members : List (List Char × Value)) (level : ℕ)
    (h : ∀ n ∈ membersNumbers members, IsNumber n) :
    Prints (membersTokens members) (membersPretty newline level members ++ (indent level ++ ['}'])) := by
  match members with
  | [] =>
    have hclose : Prints [.rbrace] ['}'] := .token (.structural rfl)
    simpa [membersTokens, membersPretty] using hclose.blank_append (indent_ws level)
  | (key, value) :: members =>
    have hvalue := value.pretty_prints (level + 1) fun n hn => h n (List.mem_append_left _ hn)
    have hmembers := membersPretty_prints members level fun n hn => h n (List.mem_append_right _ hn)
    have hbody := hvalue.append ((prints_separator members).append (hmembers.blank_append hnewline))
    have hcolon : Prints _ (':' :: ([' '] ++ _)) := .cons rfl (hbody.blank_append (by simp [isWs]))
    simpa [membersTokens, membersPretty] using
      ((prints_string key).append hcolon).blank_append (indent_ws (level + 1))

end

end Pretty

/-! ## The numbers of a text -/

section Numbers

variable {trailing : Bool}

mutual

theorem ValueOf.numbers_mem {ts : List Token} {v : Value} (h : ValueOf trailing ts v) :
    ∀ n ∈ v.numbers, Token.number n ∈ ts := by
  cases h with
  | null | true | false | string _ _ | emptyArray | emptyObject => nofun
  | number lexeme => simp [Value.numbers]
  | array h => exact fun n hn => List.mem_cons_of_mem _ (h.numbers_mem n hn)
  | object h => exact fun n hn => List.mem_cons_of_mem _ (h.numbers_mem n hn)

theorem ElementsOf.numbers_mem {ts : List Token} {vs : List Value} (h : ElementsOf trailing ts vs) :
    ∀ n ∈ elementsNumbers vs, Token.number n ∈ ts := by
  intro n hn
  cases h with
  | last h | trailing _ h =>
    have hmem := h.numbers_mem n (by simpa [elementsNumbers] using hn)
    simp [hmem]
  | next h hrest =>
    rcases List.mem_append.1 hn with hn | hn
    · simp [h.numbers_mem n hn]
    · simp [hrest.numbers_mem n hn]

theorem MembersOf.numbers_mem {ts : List Token} {members : List (List Char × Value)}
    (h : MembersOf trailing ts members) : ∀ n ∈ membersNumbers members, Token.number n ∈ ts := by
  intro n hn
  cases h with
  | last _ h | trailing _ _ h =>
    have hmem := h.numbers_mem n (by simpa [membersNumbers] using hn)
    simp [hmem]
  | next _ h hrest =>
    rcases List.mem_append.1 hn with hn | hn
    · simp [h.numbers_mem n hn]
    · simp [hrest.numbers_mem n hn]

end

theorem Spread.isNumber {ts : List Token} {w n : List Char} (h : Spread ts w)
    (hn : Token.number n ∈ ts) : IsNumber n := by
  induction h with
  | nil => cases hn
  | cons _ hspells _ ih =>
    rcases List.mem_cons.1 hn with rfl | hn
    · cases hspells with
      | structural h =>
        unfold structural at h
        split_ifs at h <;> cases h
      | literal h => rcases literal_token h with h | h | h <;> cases h
      | number h => exact h
    · exact ih hn

end Numbers

/-! ## No two values have the same tokens -/

theorem Decodes.unique {raw s s' : List Char} (h : Decodes raw s) (h' : Decodes raw s') : s = s' :=
  Option.some.inj (h.unescape.symm.trans h'.unescape)

mutual

/-- Where a value ends, and what it is, does not depend on what comes after it. -/
theorem ValueOf.unique {ts ts' rest rest' : List Token} {v v' : Value} (h : ValueOf false ts v)
    (h' : ValueOf false ts' v') (heq : ts ++ rest = ts' ++ rest') : ts = ts' ∧ v = v' := by
  cases h with
  | null => cases h' <;> simp_all
  | true => cases h' <;> simp_all
  | false => cases h' <;> simp_all
  | number lexeme => cases h' <;> simp_all
  | string hasEscape h =>
    cases h' with
    | string _ h' =>
      obtain ⟨⟨rfl, rfl⟩, rfl⟩ := by simpa using heq
      exact ⟨rfl, by rw [h.unique h']⟩
    | _ => simp at heq
  | emptyArray =>
    cases h' with
    | emptyArray => exact ⟨rfl, rfl⟩
    | array h' =>
      obtain ⟨token, tail, rfl, hne, -⟩ := h'.head
      simp [Ne.symm hne] at heq
    | _ => simp at heq
  | array h =>
    cases h' with
    | emptyArray =>
      obtain ⟨token, tail, rfl, hne, -⟩ := h.head
      simp [hne] at heq
    | array h' =>
      obtain ⟨rfl, rfl⟩ := h.unique h' (by simpa using heq)
      exact ⟨rfl, rfl⟩
    | _ => simp at heq
  | emptyObject =>
    cases h' with
    | emptyObject => exact ⟨rfl, rfl⟩
    | object h' =>
      obtain ⟨token, tail, rfl, -, hne⟩ := h'.head
      simp [Ne.symm hne] at heq
    | _ => simp at heq
  | object h =>
    cases h' with
    | emptyObject =>
      obtain ⟨token, tail, rfl, -, hne⟩ := h.head
      simp [hne] at heq
    | object h' =>
      obtain ⟨rfl, rfl⟩ := h.unique h' (by simpa using heq)
      exact ⟨rfl, rfl⟩
    | _ => simp at heq

theorem ElementsOf.unique {ts ts' rest rest' : List Token} {vs vs' : List Value}
    (h : ElementsOf false ts vs) (h' : ElementsOf false ts' vs') (heq : ts ++ rest = ts' ++ rest') :
    ts = ts' ∧ vs = vs' := by
  cases h with
  | trailing hcomma => cases hcomma
  | last h =>
    cases h' with
    | trailing hcomma => cases hcomma
    | last h' =>
      obtain ⟨rfl, rfl⟩ := h.unique h' (by simpa using heq)
      exact ⟨rfl, rfl⟩
    | next h' _ =>
      obtain ⟨rfl, rfl⟩ := h.unique h' (by simpa using heq)
      simp at heq
  | next h hnext =>
    cases h' with
    | trailing hcomma => cases hcomma
    | last h' =>
      obtain ⟨rfl, rfl⟩ := h.unique h' (by simpa using heq)
      simp at heq
    | next h' hnext' =>
      obtain ⟨rfl, rfl⟩ := h.unique h' (by simpa using heq)
      obtain ⟨rfl, rfl⟩ := hnext.unique hnext' (by simpa using heq)
      exact ⟨rfl, rfl⟩

theorem MembersOf.unique {ts ts' rest rest' : List Token} {members members' : List (List Char × Value)}
    (h : MembersOf false ts members) (h' : MembersOf false ts' members')
    (heq : ts ++ rest = ts' ++ rest') : ts = ts' ∧ members = members' := by
  cases h with
  | trailing hcomma => cases hcomma
  | last hkey h =>
    cases h' with
    | trailing hcomma => cases hcomma
    | last hkey' h' =>
      obtain ⟨⟨rfl, rfl⟩, htail⟩ := by simpa using heq
      obtain ⟨rfl, rfl⟩ := h.unique h' htail
      exact ⟨rfl, by rw [hkey.unique hkey']⟩
    | next _ h' _ =>
      obtain ⟨⟨rfl, rfl⟩, htail⟩ := by simpa using heq
      obtain ⟨rfl, rfl⟩ := h.unique h' htail
      simp at heq
  | next hkey h hnext =>
    cases h' with
    | trailing hcomma => cases hcomma
    | last _ h' =>
      obtain ⟨⟨rfl, rfl⟩, htail⟩ := by simpa using heq
      obtain ⟨rfl, rfl⟩ := h.unique h' htail
      simp at heq
    | next hkey' h' hnext' =>
      obtain ⟨⟨rfl, rfl⟩, htail⟩ := by simpa using heq
      obtain ⟨rfl, rfl⟩ := h.unique h' htail
      obtain ⟨rfl, rfl⟩ := hnext.unique hnext' (by simpa using heq)
      exact ⟨rfl, by rw [hkey.unique hkey']⟩

end

theorem Text.unique {w : List Char} {v v' : Value} (h : Text false w v) (h' : Text false w v') :
    v = v' := by
  obtain ⟨ts, hspread, hv⟩ := h
  obtain ⟨ts', hspread', hv'⟩ := h'
  obtain rfl := hspread.unique hv.follows hspread' hv'.follows
  exact (@ValueOf.unique ts ts [] [] v v' hv hv' rfl).2

/-! ## The round trip -/

theorem Prints.jsonParses_iff {w : List Char} {v v' : Value} (h : Prints v.tokens w) :
    JsonParses w v' ↔ v' = v := by
  have hspread := h.spread
  have htext : Text false w v := ⟨v.tokens, hspread, v.tokens_valueOf⟩
  have hne : w ≠ [] := by
    rintro rfl
    obtain ⟨token, tail, htokens, -⟩ := v.tokens_valueOf.head
    simpa [htokens] using hspread.length_le
  rw [Json.jsonParses_iff hne]
  constructor
  · exact fun htext' => htext'.unique htext
  · rintro rfl
    exact htext

theorem JsonParses.isNumber {w : List Char} {v : Value} (h : JsonParses w v) :
    ∀ n ∈ v.numbers, IsNumber n := by
  obtain ⟨ts, hspread, hv⟩ := (Json.jsonParses_iff h.1).1 h
  exact fun n hn => hspread.isNumber (hv.numbers_mem n hn)

/-- A tree that was parsed is what each of its prints is parsed to, and nothing else is. -/
theorem serialize_roundTrip {w : List Char} {v : Value} (h : JsonParses w v) :
    ∀ text ∈ [jsonSerialize v, jsonSerializePretty v, jsonSerializePrettyCrlf v],
      ∀ v', JsonParses text v' ↔ v' = v := by
  have hnumbers := h.isNumber
  simp only [List.forall_mem_cons, List.not_mem_nil, false_imp_iff, implies_true, and_true]
  refine ⟨fun v' => ?_, fun v' => ?_, fun v' => ?_⟩
  · exact (v.serialize_prints hnumbers).jsonParses_iff
  · exact (v.pretty_prints (by simp [isWs]) 0 hnumbers).jsonParses_iff
  · exact (v.pretty_prints (by simp [isWs]) 0 hnumbers).jsonParses_iff

/-- A member with an empty key and an escaped NUL comes back. -/
theorem serialize_roundTrip_nul :
    JsonParses (jsonSerialize (.object [([], .string ['\x00'])])) (.object [([], .string ['\x00'])]) ∧
      ∀ v', JsonParses (jsonSerializePretty (.object [([], .string ['\x00'])])) v' ↔
        v' = .object [([], .string ['\x00'])] := by
  have hparses : JsonParses (jsonSerialize (.object [([], .string ['\x00'])]))
      (.object [([], .string ['\x00'])]) := (Value.serialize_prints _ (by simp [Value.numbers, membersNumbers])).jsonParses_iff.2 rfl
  exact ⟨hparses, serialize_roundTrip hparses _ (by simp)⟩

end Json
