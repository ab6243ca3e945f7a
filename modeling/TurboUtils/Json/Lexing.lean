import TurboUtils.Json.Rfc
import TurboUtils.Json.Segmentation

/-! The DOM parser: the rules of json_lexer.re and the productions of json_grammar.y. The generated
code is taken to follow them, and the parser stack to be deep enough. -/
namespace Json

/-! ## The rules of the lexer -/

/-- `json_find_plain_ascii_string_end`: the bytes up to the closing quote, and what follows. -/
def plainAsciiString : List Char → Option (List Char × List Char)
  | [] => none
  | c :: rest =>
      if c = '"' then some ([], rest)
      else if c = '\\' || c < ' ' || '\x80' ≤ c then none
      else (plainAsciiString rest).map fun (raw, rest) => (c :: raw, rest)

/-- The rule `string` after its opening quote. -/
def stringRule : List Char → Option (List Char × List Char)
  | [] => none
  | c :: rest =>
      if c = '"' then some ([], rest)
      else if c = '\\' then
        match rest with
        | [] => none
        | e :: rest =>
            if isSimpleEscape e then
              (stringRule rest).map fun (raw, rest) => ('\\' :: e :: raw, rest)
            else if e = 'u' then
              match rest with
              | h₁ :: h₂ :: h₃ :: h₄ :: rest =>
                  if isHex h₁ && isHex h₂ && isHex h₃ && isHex h₄ then
                    (stringRule rest).map fun (raw, rest) =>
                      ('\\' :: 'u' :: h₁ :: h₂ :: h₃ :: h₄ :: raw, rest)
                  else none
              | _ => none
            else none
      else if c < ' ' then none
      else (stringRule rest).map fun (raw, rest) => (c :: raw, rest)

example : stringRule ['\\', 'n', '"', 'a'] = some (['\\', 'n'], ['a']) := by
  rw [stringRule.eq_def]
  rfl

/-- What follows the longest `int` at the start of some bytes. -/
def intRule (input : List Char) : Option (List Char) :=
  match (if input.head? = some '-' then input.tail else input) with
  | [] => none
  | c :: rest =>
      if c = '0' then some rest
      else if '1' ≤ c && c ≤ '9' then some (digits rest)
      else none

/-- What follows the longest optional `frac`. -/
def fracRule (input : List Char) : List Char :=
  match input with
  | '.' :: c :: rest => if isDigit c then digits rest else input
  | _ => input

/-- What follows the longest optional `exp`. -/
def expRule (input : List Char) : List Char :=
  match input with
  | e :: rest =>
      if e = 'e' || e = 'E' then
        match (if rest.head? = some '+' ∨ rest.head? = some '-' then rest.tail else rest) with
        | c :: rest => if isDigit c then digits rest else input
        | [] => input
      else input
  | [] => input

/-- What follows the longest `number`. -/
def numberRule (input : List Char) : Option (List Char) :=
  (intRule input).map fun rest => expRule (fracRule rest)

/-- `json_lexer_next` after the white space; at the end of the bytes there is no token. -/
def lexToken (input : List Char) : Option (Token × List Char) :=
  match input with
  | [] => none
  | c :: rest =>
      match structural c with
      | some token => some (token, rest)
      | none =>
          if c = '"' then
            match plainAsciiString rest with
            | some (raw, rest) => some (.string raw false, rest)
            | none =>
                (stringRule rest).map fun (raw, rest) => (.string raw (raw.contains '\\'), rest)
          else
            match literal c with
            | some (bytes, token) =>
                if bytes.isPrefixOf input then some (token, input.drop bytes.length) else none
            | none =>
                (numberRule input).map fun rest =>
                  (.number (input.take (input.length - rest.length)), rest)

/-- The tokens of `json_parse`; each takes at least a byte. -/
def lexTokens : ℕ → List Char → Option (List Token)
  | 0, _ => none
  | fuel + 1, input =>
      if input.dropWhile isWs = [] then some []
      else
        (lexToken (input.dropWhile isWs)).bind fun (token, rest) =>
          (lexTokens fuel rest).map (token :: ·)

/-- `parse_number` converts what fits its buffer. -/
def parseNumber (lexeme : List Char) : List Char := lexeme.take 63

/-! ## The productions -/

mutual

/-- `value`. An action that reports an error ends the parse, so a string has to be decoded. -/
inductive DomValue : List Token → Value → Prop
  | object {ts : List Token} {members : List (List Char × Value)} (h : DomObject ts members) :
      DomValue ts (.object members)
  | array {ts : List Token} {elements : List Value} (h : DomArray ts elements) :
      DomValue ts (.array elements)
  | string {raw s : List Char} {hasEscape : Bool} (h : Machine.text raw hasEscape = .ok s) :
      DomValue [.string raw hasEscape] (.string s)
  | number (lexeme : List Char) : DomValue [.number lexeme] (.number lexeme)
  | true : DomValue [.true] (.bool true)
  | false : DomValue [.false] (.bool false)
  | null : DomValue [.null] .null

/-- `object`. -/
inductive DomObject : List Token → List (List Char × Value) → Prop
  | empty : DomObject [.lbrace, .rbrace] []
  | members {ts : List Token} {members : List (List Char × Value)} (h : DomMembers ts members) :
      DomObject (.lbrace :: (ts ++ [.rbrace])) members

/-- `members`, which are linked one after the other. -/
inductive DomMembers : List Token → List (List Char × Value) → Prop
  | pair {ts : List Token} {member : List Char × Value} (h : DomPair ts member) :
      DomMembers ts [member]
  | comma {ts pair : List Token} {members : List (List Char × Value)} {member : List Char × Value}
      (h : DomMembers ts members) (hpair : DomPair pair member) :
      DomMembers (ts ++ .comma :: pair) (members ++ [member])

/-- `pair`. -/
inductive DomPair : List Token → List Char × Value → Prop
  | mk {raw key : List Char} {hasEscape : Bool} {ts : List Token} {value : Value}
      (hkey : Machine.text raw hasEscape = .ok key) (h : DomValue ts value) :
      DomPair (.string raw hasEscape :: .colon :: ts) (key, value)

/-- `array`. -/
inductive DomArray : List Token → List Value → Prop
  | empty : DomArray [.lbracket, .rbracket] []
  | elements {ts : List Token} {elements : List Value} (h : DomElements ts elements) :
      DomArray (.lbracket :: (ts ++ [.rbracket])) elements

/-- `elements`. -/
inductive DomElements : List Token → List Value → Prop
  | value {ts : List Token} {value : Value} (h : DomValue ts value) : DomElements ts [value]
  | comma {ts last : List Token} {elements : List Value} {value : Value}
      (h : DomElements ts elements) (hlast : DomValue last value) :
      DomElements (ts ++ .comma :: last) (elements ++ [value])

end

/-- `json_parse` succeeds with a document. -/
def JsonParses (content : List Char) (value : Value) : Prop :=
  content ≠ [] ∧ ∃ ts, lexTokens (content.length + 1) content = some ts ∧ DomValue ts value

/-! Both lexers find the tokens that some bytes spell. -/

/-! ## Strings -/

section Strings

variable {final : Bool} {input raw rest s : List Char}

theorem stringRule_sound (h : stringRule input = some (raw, rest)) :
    RawChars raw ∧ input = raw ++ '"' :: rest := by
  fun_induction stringRule input generalizing raw with
  | case1 => cases h
  | case2 tail =>
    cases h
    exact ⟨.nil, rfl⟩
  | case3 => cases h
  | case4 e tail he hquote ih =>
    obtain ⟨⟨raw', rest'⟩, hr, h⟩ := Option.map_eq_some_iff.1 h
    cases h
    obtain ⟨hraw, rfl⟩ := ih hr
    exact ⟨.escape he hraw, rfl⟩
  | case5 h₁ h₂ h₃ h₄ tail hhex hquote hu ih =>
    obtain ⟨⟨raw', rest'⟩, hr, h⟩ := Option.map_eq_some_iff.1 h
    cases h
    obtain ⟨hraw, rfl⟩ := ih hr
    exact ⟨.unicode hhex hraw, rfl⟩
  | case6 => cases h
  | case7 => cases h
  | case8 => cases h
  | case9 => cases h
  | case10 c tail hquote hslash hcontrol ih =>
    obtain ⟨⟨raw', rest'⟩, hr, h⟩ := Option.map_eq_some_iff.1 h
    cases h
    obtain ⟨hraw, rfl⟩ := ih hr
    exact ⟨.plain hquote hslash hcontrol hraw, rfl⟩

theorem stringRule_complete (h : RawChars raw) (rest : List Char) :
    stringRule (raw ++ '"' :: rest) = some (raw, rest) := by
  induction h with
  | nil => rw [List.nil_append, stringRule.eq_def]; exact if_pos rfl
  | plain hquote hslash hcontrol h ih =>
    rw [List.cons_append, stringRule.eq_def]
    simp only [if_neg hquote, if_neg hslash, if_neg hcontrol, ih, Option.map_some]
  | escape he h ih =>
    rw [List.cons_append, List.cons_append, stringRule.eq_def]
    simp only [show '\\' ≠ '"' by decide, if_false, if_true, if_pos he, ih, Option.map_some]
  | unicode hhex h ih =>
    simp only [List.cons_append]
    rw [stringRule.eq_def]
    simp only [show '\\' ≠ '"' by decide, if_false, if_true, show isSimpleEscape 'u' = false by decide,
      Bool.false_eq_true, if_pos hhex, ih, Option.map_some]

/-- The way for plain strings finds what the rule finds. -/
theorem plainAsciiString_sound (h : plainAsciiString input = some (raw, rest)) :
    RawChars raw ∧ input = raw ++ '"' :: rest ∧ raw.contains '\\' = false := by
  induction input generalizing raw with
  | nil => cases h
  | cons c input ih =>
    rw [plainAsciiString] at h
    split_ifs at h with hquote hplain
    · cases h
      exact ⟨.nil, by rw [hquote]; rfl, rfl⟩
    · obtain ⟨⟨raw', rest'⟩, hr, h⟩ := Option.map_eq_some_iff.1 h
      cases h
      obtain ⟨hraw, rfl, hslash⟩ := ih hr
      simp only [Bool.or_eq_true, decide_eq_true_eq, not_or] at hplain
      refine ⟨.plain hquote hplain.1.1 hplain.1.2 hraw, rfl, ?_⟩
      rw [List.contains_cons, hslash, Bool.or_false, beq_eq_false_iff_ne]
      exact Ne.symm hplain.1.1

theorem scanChars_complete (h : RawChars raw) (rest : List Char) :
    scanChars final (raw ++ '"' :: rest) = .ok ((raw, raw.contains '\\'), rest) := by
  induction h with
  | nil => rw [List.nil_append, scanChars.eq_def]; exact if_pos rfl
  | plain hquote hslash hcontrol h ih =>
    rw [List.cons_append, scanChars.eq_def]
    simp only [if_neg hquote, if_neg hslash, if_neg hcontrol, ih]
    simp [prepend, Scan.map, Scan.bind, Ne.symm hslash]
  | escape he h ih =>
    rw [List.cons_append, List.cons_append, scanChars.eq_def]
    simp only [show '\\' ≠ '"' by decide, if_false, if_true, if_pos he, ih]
    simp [prepend, Scan.map, Scan.bind]
  | unicode hhex h ih =>
    simp only [List.cons_append]
    rw [scanChars.eq_def]
    simp only [show '\\' ≠ '"' by decide, if_false, if_true, show isSimpleEscape 'u' = false by decide,
      Bool.false_eq_true, if_pos hhex, ih]
    simp [prepend, Scan.map, Scan.bind]

theorem scanChars_sound {r : (List Char × Bool) × List Char}
    (h : scanChars final input = .ok r) :
    RawChars r.1.1 ∧ input = r.1.1 ++ '"' :: r.2 ∧ r.1.2 = r.1.1.contains '\\' := by
  have hraw : RawChars r.1.1 ∧ input = r.1.1 ++ '"' :: r.2 := by
    fun_induction scanChars final input generalizing r with
    | case1 => cases final <;> cases h
    | case2 tail =>
      cases h
      exact ⟨.nil, rfl⟩
    | case3 => cases final <;> cases h
    | case4 e tail he hquote ih =>
      obtain ⟨value, hasEscape, hs, hr⟩ := prepend_eq_ok h
      obtain ⟨hraw, htail⟩ := ih hs
      rw [hr, htail]
      exact ⟨.escape he hraw, rfl⟩
    | case5 h₁ h₂ h₃ h₄ tail hhex hquote hu ih =>
      obtain ⟨value, hasEscape, hs, hr⟩ := prepend_eq_ok h
      obtain ⟨hraw, htail⟩ := ih hs
      rw [hr, htail]
      exact ⟨.unicode hhex hraw, rfl⟩
    | case6 => cases h
    | case7 => cases final <;> cases h
    | case8 => cases h
    | case9 => cases h
    | case10 c tail hquote hslash hcontrol ih =>
      obtain ⟨value, hasEscape, hs, hr⟩ := prepend_eq_ok h
      obtain ⟨hraw, htail⟩ := ih hs
      rw [hr, htail]
      exact ⟨.plain hquote hslash hcontrol hraw, rfl⟩
  obtain ⟨hraw, rfl⟩ := hraw
  have hcomplete := @scanChars_complete final _ hraw r.2
  rw [hcomplete] at h
  exact ⟨hraw, rfl, (congrArg (fun r => r.1.2) (Scan.ok.inj h)).symm⟩

end Strings

/-! ## Numbers -/

section Numbers

variable {final : Bool} {input rest : List Char}

def NoDigit (rest : List Char) : Prop := ∀ c ∈ rest.head?, isDigit c = false

theorem digits_run {ds : List Char} (hds : ∀ c ∈ ds, isDigit c = true) (h : NoDigit rest) :
    digits (ds ++ rest) = rest := by
  unfold digits
  rw [List.dropWhile_append_of_pos hds]
  cases rest with
  | nil => rfl
  | cons c rest => exact List.dropWhile_cons_of_neg (by rw [h c rfl]; decide)

theorem digits_split (input : List Char) :
    ∃ ds, input = ds ++ digits input ∧ ∀ c ∈ ds, isDigit c = true :=
  ⟨input.takeWhile isDigit, List.takeWhile_append_dropWhile.symm,
    fun _ hc => List.mem_takeWhile_imp hc⟩

theorem digit_ne {c : Char} (h : isDigit c = true) :
    c ≠ '-' ∧ c ≠ '+' ∧ c ≠ '.' ∧ c ≠ 'e' ∧ c ≠ 'E' := by
  refine ⟨?_, ?_, ?_, ?_, ?_⟩ <;> rintro rfl <;> revert h <;> decide

theorem nonzero_digit {c : Char} (h : ('1' ≤ c && c ≤ '9') = true) :
    isDigit c = true ∧ c ≠ '0' := by
  rw [Bool.and_eq_true, decide_eq_true_eq, decide_eq_true_eq] at h
  refine ⟨?_, ?_⟩
  · rw [isDigit, Bool.and_eq_true, decide_eq_true_eq, decide_eq_true_eq]
    exact ⟨Char.le_trans (show '0' ≤ '1' by decide) h.1, h.2⟩
  · rintro rfl
    exact absurd h.1 (by decide)

/-! ### Soundness -/

theorem someDigits_sound (h : someDigits final input = .ok rest) :
    ∃ d ds, input = d :: (ds ++ rest) ∧ isDigit d = true ∧ ∀ c ∈ ds, isDigit c = true := by
  cases input with
  | nil => cases final <;> cases h
  | cons c input =>
    rw [someDigits] at h
    split_ifs at h with hc
    cases h
    obtain ⟨ds, hsplit, hds⟩ := digits_split input
    exact ⟨c, ds, congrArg (c :: ·) hsplit, hc, hds⟩

theorem integerPart_sound (h : integerPart final input = .ok rest) :
    ∃ minus int, input = minus ++ (int ++ rest) ∧ (minus = [] ∨ minus = ['-']) ∧ IsInt int := by
  have hunsigned (l : List Char) (hl : (match l with
      | [] => atEnd final "Invalid number"
      | c :: rest =>
          if c = '0' then if rest.head?.any isDigit then .error "Invalid number" else .ok rest
          else if '1' ≤ c && c ≤ '9' then .ok (digits rest)
          else .error "Invalid number") = Scan.ok rest) : ∃ int, l = int ++ rest ∧ IsInt int := by
    cases l with
    | nil => cases final <;> cases hl
    | cons c tail =>
      dsimp only at hl
      split_ifs at hl with hzero hnext hdigit
      · cases hl
        exact ⟨['0'], by rw [hzero]; rfl, Or.inl rfl⟩
      · cases hl
        obtain ⟨ds, hsplit, hds⟩ := digits_split tail
        exact ⟨c :: ds, congrArg (c :: ·) hsplit, Or.inr ⟨c, ds, rfl, hdigit, hds⟩⟩
  obtain ⟨int, hl, hint⟩ := hunsigned _ h
  split_ifs at hl with hminus
  · obtain ⟨tail, rfl⟩ := List.head?_eq_some_iff.1 hminus
    rw [List.tail_cons] at hl
    exact ⟨['-'], int, by rw [hl]; rfl, Or.inr rfl, hint⟩
  · exact ⟨[], int, hl, Or.inl rfl, hint⟩

theorem fractionPart_sound (h : fractionPart final input = .ok rest) :
    ∃ frac, input = frac ++ rest ∧ IsFrac frac := by
  unfold fractionPart at h
  split_ifs at h with hdot
  · obtain ⟨tail, rfl⟩ := List.head?_eq_some_iff.1 hdot
    obtain ⟨d, ds, htail, hd, hds⟩ := someDigits_sound h
    rw [List.tail_cons] at htail
    exact ⟨'.' :: d :: ds, by rw [htail]; rfl, Or.inr ⟨d, ds, rfl, hd, hds⟩⟩
  · cases h
    exact ⟨[], rfl, Or.inl rfl⟩

theorem sign_split (input : List Char) : ∃ sign, input =
    sign ++ (if input.head? = some '+' ∨ input.head? = some '-' then input.tail else input) ∧
      (sign = [] ∨ sign = ['+'] ∨ sign = ['-']) := by
  split_ifs with hsign
  · rcases hsign with hsign | hsign <;> obtain ⟨tail, rfl⟩ := List.head?_eq_some_iff.1 hsign
    · exact ⟨['+'], rfl, Or.inr (Or.inl rfl)⟩
    · exact ⟨['-'], rfl, Or.inr (Or.inr rfl)⟩
  · exact ⟨[], rfl, Or.inl rfl⟩

theorem exponentPart_sound (h : exponentPart final input = .ok rest) :
    ∃ exp, input = exp ++ rest ∧ IsExp exp := by
  unfold exponentPart at h
  by_cases he : input.head? = some 'e' ∨ input.head? = some 'E'
  · rw [if_pos he] at h
    obtain ⟨e, tail, rfl, he'⟩ : ∃ e tail, input = e :: tail ∧ (e = 'e' ∨ e = 'E') := by
      rcases he with he | he <;> obtain ⟨tail, rfl⟩ := List.head?_eq_some_iff.1 he
      · exact ⟨_, tail, rfl, Or.inl rfl⟩
      · exact ⟨_, tail, rfl, Or.inr rfl⟩
    dsimp only [List.tail_cons] at h
    obtain ⟨sign, hsplit, hsign⟩ := sign_split tail
    obtain ⟨d, ds, htail, hd, hds⟩ := someDigits_sound h
    rw [htail] at hsplit
    exact ⟨e :: (sign ++ d :: ds), by rw [hsplit]; simp,
      Or.inr ⟨e, sign, d, ds, rfl, he', hsign, hd, hds⟩⟩
  · rw [if_neg he] at h
    cases h
    exact ⟨[], rfl, Or.inl rfl⟩

theorem numberEnd_sound (h : numberEnd final input = .ok rest) :
    ∃ lexeme, input = lexeme ++ rest ∧ IsNumber lexeme := by
  obtain ⟨r₁, h₁, hmid⟩ := Scan.bind_eq_ok.1 h
  obtain ⟨r₂, h₂, h₃⟩ := Scan.bind_eq_ok.1 hmid
  obtain ⟨minus, int, rfl, hminus, hint⟩ := integerPart_sound h₁
  obtain ⟨frac, rfl, hfrac⟩ := fractionPart_sound h₂
  obtain ⟨exp, rfl, hexp⟩ := exponentPart_sound h₃
  exact ⟨_, by simp, .mk hminus hint hfrac hexp⟩

theorem intRule_sound (h : intRule input = some rest) :
    ∃ minus int, input = minus ++ (int ++ rest) ∧ (minus = [] ∨ minus = ['-']) ∧ IsInt int := by
  have hunsigned (l : List Char) (hl : (match l with
      | [] => none
      | c :: rest =>
          if c = '0' then some rest
          else if '1' ≤ c && c ≤ '9' then some (digits rest)
          else none) = some rest) : ∃ int, l = int ++ rest ∧ IsInt int := by
    cases l with
    | nil => cases hl
    | cons c tail =>
      dsimp only at hl
      split_ifs at hl with hzero hdigit
      · cases hl
        exact ⟨['0'], by rw [hzero]; rfl, Or.inl rfl⟩
      · cases hl
        obtain ⟨ds, hsplit, hds⟩ := digits_split tail
        exact ⟨c :: ds, congrArg (c :: ·) hsplit, Or.inr ⟨c, ds, rfl, hdigit, hds⟩⟩
  obtain ⟨int, hl, hint⟩ := hunsigned _ h
  split_ifs at hl with hminus
  · obtain ⟨tail, rfl⟩ := List.head?_eq_some_iff.1 hminus
    rw [List.tail_cons] at hl
    exact ⟨['-'], int, by rw [hl]; rfl, Or.inr rfl, hint⟩
  · exact ⟨[], int, hl, Or.inl rfl, hint⟩

theorem fracRule_sound (input : List Char) : ∃ frac, input = frac ++ fracRule input ∧ IsFrac frac := by
  unfold fracRule
  split
  · rename_i c rest
    split_ifs with hc
    · obtain ⟨ds, hsplit, hds⟩ := digits_split rest
      exact ⟨'.' :: c :: ds, congrArg (fun l => '.' :: c :: l) hsplit, Or.inr ⟨c, ds, rfl, hc, hds⟩⟩
    · exact ⟨[], rfl, Or.inl rfl⟩
  · exact ⟨[], rfl, Or.inl rfl⟩

theorem expRule_sound (input : List Char) : ∃ exp, input = exp ++ expRule input ∧ IsExp exp := by
  cases input with
  | nil => exact ⟨[], rfl, Or.inl rfl⟩
  | cons e tail =>
    rw [expRule]
    by_cases he : (decide (e = 'e') || decide (e = 'E')) = true
    · rw [if_pos he]
      obtain ⟨sign, hsplit, hsign⟩ := sign_split tail
      split
      · rename_i c rest hrest
        rw [hrest] at hsplit
        split_ifs with hc
        · obtain ⟨ds, hds, hdigits⟩ := digits_split rest
          rw [Bool.or_eq_true, decide_eq_true_eq, decide_eq_true_eq] at he
          refine ⟨e :: (sign ++ c :: ds), ?_, Or.inr ⟨e, sign, c, ds, rfl, he, hsign, hc, hdigits⟩⟩
          rw [hsplit]
          conv_lhs => rw [hds]
          simp
        · exact ⟨[], rfl, Or.inl rfl⟩
      · exact ⟨[], rfl, Or.inl rfl⟩
    · rw [if_neg he]
      exact ⟨[], rfl, Or.inl rfl⟩

theorem numberRule_sound (h : numberRule input = some rest) :
    ∃ lexeme, input = lexeme ++ rest ∧ IsNumber lexeme := by
  obtain ⟨r₁, h₁, rfl⟩ := Option.map_eq_some_iff.1 h
  obtain ⟨minus, int, rfl, hminus, hint⟩ := intRule_sound h₁
  obtain ⟨frac, hr₁, hfrac⟩ := fracRule_sound r₁
  obtain ⟨exp, hr₂, hexp⟩ := expRule_sound (fracRule r₁)
  refine ⟨minus ++ (int ++ (frac ++ exp)), ?_, .mk hminus hint hfrac hexp⟩
  conv_lhs => rw [hr₁, hr₂]
  simp

/-! ### Completeness -/

def Stops (rest : List Char) : Prop :=
  ∀ c ∈ rest.head?, isDigit c = false ∧ c ≠ '.' ∧ c ≠ 'e' ∧ c ≠ 'E'

theorem Stops.noDigit (h : Stops rest) : NoDigit rest := fun c hc => (h c hc).1

theorem IsExp.noDigit {exp : List Char} (hexp : IsExp exp) (h : Stops rest) :
    NoDigit (exp ++ rest) ∧ (exp ++ rest).head? ≠ some '.' := by
  rcases hexp with rfl | ⟨e, sign, d, ds, rfl, rfl | rfl, -⟩
  · exact ⟨h.noDigit, fun hdot => (h _ hdot).2.1 rfl⟩
  all_goals exact ⟨fun c hc => by cases hc; decide, nofun⟩

theorem IsFrac.noDigit {frac : List Char} (hfrac : IsFrac frac) (h : NoDigit rest) :
    NoDigit (frac ++ rest) := by
  rcases hfrac with rfl | ⟨d, ds, rfl, -⟩
  · exact h
  · exact fun c hc => by cases hc; decide

theorem IsInt.cons {int : List Char} (h : IsInt int) : ∃ d ds, int = d :: ds ∧ isDigit d = true := by
  rcases h with rfl | ⟨d, ds, rfl, hd, -⟩
  · exact ⟨'0', [], rfl, by decide⟩
  · exact ⟨d, ds, rfl, (nonzero_digit hd).1⟩

theorem unsigned_eq {minus int : List Char} (hminus : minus = [] ∨ minus = ['-'])
    (hint : IsInt int) (rest : List Char) :
    (if (minus ++ (int ++ rest)).head? = some '-' then (minus ++ (int ++ rest)).tail
      else minus ++ (int ++ rest)) = int ++ rest := by
  rcases hminus with rfl | rfl
  · obtain ⟨d, ds, rfl, hd⟩ := hint.cons
    exact if_neg fun h => (digit_ne hd).1 (Option.some.inj h)
  · exact if_pos rfl

theorem integerPart_complete {minus int : List Char} (hminus : minus = [] ∨ minus = ['-'])
    (hint : IsInt int) (h : NoDigit rest) :
    integerPart final (minus ++ (int ++ rest)) = .ok rest := by
  rw [integerPart, unsigned_eq hminus hint]
  rcases hint with rfl | ⟨d, ds, rfl, hd, hds⟩
  · dsimp only [List.cons_append, List.nil_append]
    rw [if_pos rfl, if_neg]
    cases rest with
    | nil => nofun
    | cons c rest => simp [h c rfl]
  · dsimp only [List.cons_append]
    rw [if_neg (nonzero_digit hd).2, if_pos hd, digits_run hds h]

theorem intRule_complete {minus int : List Char} (hminus : minus = [] ∨ minus = ['-'])
    (hint : IsInt int) (h : NoDigit rest) : intRule (minus ++ (int ++ rest)) = some rest := by
  rw [intRule, unsigned_eq hminus hint]
  rcases hint with rfl | ⟨d, ds, rfl, hd, hds⟩
  · exact if_pos rfl
  · dsimp only [List.cons_append]
    rw [if_neg (nonzero_digit hd).2, if_pos hd, digits_run hds h]

theorem someDigits_complete {d : Char} {ds : List Char} (hd : isDigit d = true)
    (hds : ∀ c ∈ ds, isDigit c = true) (h : NoDigit rest) :
    someDigits final (d :: (ds ++ rest)) = .ok rest := by
  rw [someDigits, if_pos hd, digits_run hds h]

theorem fractionPart_complete {frac : List Char} (hfrac : IsFrac frac) (h : NoDigit rest)
    (hdot : rest.head? ≠ some '.') : fractionPart final (frac ++ rest) = .ok rest := by
  rcases hfrac with rfl | ⟨d, ds, rfl, hd, hds⟩
  · exact if_neg hdot
  · change someDigits final (d :: (ds ++ rest)) = .ok rest
    exact someDigits_complete hd hds h

theorem fracRule_complete {frac : List Char} (hfrac : IsFrac frac) (h : NoDigit rest)
    (hdot : rest.head? ≠ some '.') : fracRule (frac ++ rest) = rest := by
  rcases hfrac with rfl | ⟨d, ds, rfl, hd, hds⟩
  · unfold fracRule
    split
    · rename_i c tail hrest
      exact absurd (congrArg List.head? hrest) hdot
    · rfl
  · rw [List.cons_append, List.cons_append, fracRule, if_pos hd, digits_run hds h]

theorem unsignedExp_eq {sign : List Char} (hsign : sign = [] ∨ sign = ['+'] ∨ sign = ['-'])
    {d : Char} (hd : isDigit d = true) (tail : List Char) :
    (if (sign ++ d :: tail).head? = some '+' ∨ (sign ++ d :: tail).head? = some '-' then
      (sign ++ d :: tail).tail else sign ++ d :: tail) = d :: tail := by
  rcases hsign with rfl | rfl | rfl
  · refine if_neg ?_
    rintro (h | h)
    · exact (digit_ne hd).2.1 (Option.some.inj h)
    · exact (digit_ne hd).1 (Option.some.inj h)
  · exact if_pos (Or.inl rfl)
  · exact if_pos (Or.inr rfl)

theorem exponentPart_complete {exp : List Char} (hexp : IsExp exp) (h : Stops rest) :
    exponentPart final (exp ++ rest) = .ok rest := by
  rcases hexp with rfl | ⟨e, sign, d, ds, rfl, he, hsign, hd, hds⟩
  · refine if_neg ?_
    rintro (he | he)
    · exact (h _ he).2.2.1 rfl
    · exact (h _ he).2.2.2 rfl
  · have htail : sign ++ d :: ds ++ rest = sign ++ d :: (ds ++ rest) := by simp
    unfold exponentPart
    rw [List.cons_append, List.head?_cons, if_pos (by rcases he with rfl | rfl <;> simp),
      List.tail_cons, htail]
    dsimp only
    rw [unsignedExp_eq hsign hd]
    exact someDigits_complete hd hds h.noDigit

theorem expRule_complete {exp : List Char} (hexp : IsExp exp) (h : Stops rest) :
    expRule (exp ++ rest) = rest := by
  rcases hexp with rfl | ⟨e, sign, d, ds, rfl, he, hsign, hd, hds⟩
  · rw [List.nil_append, expRule.eq_def]
    split
    · rename_i e tail
      rw [if_neg]
      rw [Bool.or_eq_true, decide_eq_true_eq, decide_eq_true_eq]
      rintro (he | he)
      · exact (h _ rfl).2.2.1 he
      · exact (h _ rfl).2.2.2 he
    · rfl
  · have htail : sign ++ d :: ds ++ rest = sign ++ d :: (ds ++ rest) := by simp
    rw [List.cons_append, expRule, if_pos (by rcases he with rfl | rfl <;> decide), htail,
      unsignedExp_eq hsign hd]
    dsimp only
    rw [if_pos hd, digits_run hds h.noDigit]

theorem numberEnd_complete {lexeme : List Char} (h : IsNumber lexeme) (hstops : Stops rest) :
    numberEnd final (lexeme ++ rest) = .ok rest := by
  obtain ⟨hminus, hint, hfrac, hexp⟩ := h
  obtain ⟨hdigit, hdot⟩ := hexp.noDigit hstops
  simp only [List.append_assoc]
  rw [numberEnd, integerPart_complete hminus hint (hfrac.noDigit hdigit)]
  dsimp only [Scan.bind]
  rw [fractionPart_complete hfrac hdigit hdot]
  exact exponentPart_complete hexp hstops

theorem numberRule_complete {lexeme : List Char} (h : IsNumber lexeme) (hstops : Stops rest) :
    numberRule (lexeme ++ rest) = some rest := by
  obtain ⟨hminus, hint, hfrac, hexp⟩ := h
  obtain ⟨hdigit, hdot⟩ := hexp.noDigit hstops
  simp only [List.append_assoc]
  rw [numberRule, intRule_complete hminus hint (hfrac.noDigit hdigit), Option.map_some,
    fracRule_complete hfrac hdigit hdot, expRule_complete hexp hstops]

end Numbers

end Json
