import TurboUtils.Json.Lexing

/-! The tokens that some bytes spell are those that both lexers find. -/
namespace Json

section OneToken

variable {reads : List Char → Bool} {input rest bytes : List Char} {token : Token}

/-! ## What begins a token -/

theorem digit_ne_of {c x : Char} (h : isDigit c = true) (hx : isDigit x = false) : c ≠ x := by
  rintro rfl
  rw [h] at hx
  cases hx

theorem digit_ws {c : Char} (h : isDigit c = true) : isWs c = false := by
  simp only [isWs, decide_eq_false (digit_ne_of h (show isDigit ' ' = false by decide)),
    decide_eq_false (digit_ne_of h (show isDigit '\t' = false by decide)),
    decide_eq_false (digit_ne_of h (show isDigit '\n' = false by decide)),
    decide_eq_false (digit_ne_of h (show isDigit '\r' = false by decide)), Bool.or_false]

theorem IsNumber.cons (h : IsNumber bytes) : ∃ c tail, bytes = c :: tail ∧ structural c = none ∧
    c ≠ '"' ∧ literal c = none ∧ (decide (c = '-') || isDigit c) = true ∧ isWs c = false := by
  obtain ⟨hminus, hint, hfrac, hexp⟩ := h
  rcases hminus with rfl | rfl
  · obtain ⟨d, ds, rfl, hd⟩ := hint.cons
    have hne (x : Char) (hx : isDigit x = false) : d ≠ x := digit_ne_of hd hx
    have hstructural : structural d = none := by
      simp only [structural, if_neg (hne '{' (by decide)), if_neg (hne '}' (by decide)),
        if_neg (hne '[' (by decide)), if_neg (hne ']' (by decide)), if_neg (hne ':' (by decide)),
        if_neg (hne ',' (by decide))]
    have hliteral : literal d = none := by
      simp only [literal, if_neg (hne 't' (by decide)), if_neg (hne 'f' (by decide)),
        if_neg (hne 'n' (by decide))]
    exact ⟨d, _, rfl, hstructural, hne _ (by decide), hliteral, by simp [hd], digit_ws hd⟩
  · exact ⟨'-', _, rfl, by decide, by decide, by decide, by decide, by decide⟩

theorem literal_cons {c : Char} (h : literal c = some (bytes, token)) :
    ∃ tail, bytes = c :: tail ∧ structural c = none ∧ c ≠ '"' ∧ isWs c = false := by
  unfold literal at h
  split_ifs at h with ht hf hn <;> cases h
  · exact ⟨_, by rw [ht]; rfl, by rw [ht]; decide, by rw [ht]; decide, by rw [ht]; decide⟩
  · exact ⟨_, by rw [hf]; rfl, by rw [hf]; decide, by rw [hf]; decide, by rw [hf]; decide⟩
  · exact ⟨_, by rw [hn]; rfl, by rw [hn]; decide, by rw [hn]; decide, by rw [hn]; decide⟩

theorem structural_ws {c : Char} (h : structural c = some token) : isWs c = false := by
  unfold structural at h
  split_ifs at h with h₁ h₂ h₃ h₄ h₅ h₆
  · rw [h₁]; decide
  · rw [h₂]; decide
  · rw [h₃]; decide
  · rw [h₄]; decide
  · rw [h₅]; decide
  · rw [h₆]; decide

theorem Spells.cons (h : Spells token bytes) : ∃ c tail, bytes = c :: tail ∧ isWs c = false := by
  cases h with
  | structural h => exact ⟨_, [], rfl, structural_ws h⟩
  | literal h =>
    obtain ⟨tail, rfl, -, -, hws⟩ := literal_cons h
    exact ⟨_, tail, rfl, hws⟩
  | string h => exact ⟨'"', _, rfl, by decide⟩
  | number h =>
    obtain ⟨c, tail, rfl, -, -, -, -, hws⟩ := h.cons
    exact ⟨c, tail, rfl, hws⟩

/-! ## Soundness -/

theorem scanToken_sound {final : Bool} (h : scanToken final reads input = .ok (token, rest)) :
    ∃ bytes, Spells token bytes ∧ input = bytes ++ rest := by
  cases input with
  | nil => cases h
  | cons c tail =>
    rw [scanToken] at h
    split at h
    · rename_i t hstructural
      cases h
      exact ⟨[c], .structural hstructural, rfl⟩
    · by_cases hquote : c = '"'
      · rw [if_pos hquote] at h
        obtain ⟨r, hr, h⟩ := Scan.map_eq_ok.1 h
        obtain ⟨hraw, htail, hescape⟩ := scanChars_sound hr
        obtain ⟨⟨raw, hasEscape⟩, rest'⟩ := r
        dsimp only at hraw htail hescape
        cases h
        rw [hescape, htail, hquote]
        exact ⟨_, .string hraw, by simp⟩
      · rw [if_neg hquote] at h
        split at h
        · rename_i bytes t hliteral
          obtain ⟨rfl, happ, -⟩ := scanLiteral_some h
          exact ⟨bytes, .literal hliteral, happ⟩
        · by_cases hnumber : (decide (c = '-') || isDigit c) = true
          · rw [if_pos hnumber] at h
            obtain ⟨hend, -, -, rfl, -⟩ := scanNumber_some h
            obtain ⟨lexeme, happ, hlexeme⟩ := numberEnd_sound hend
            rw [happ, List.length_append, Nat.add_sub_cancel, List.take_left]
            exact ⟨lexeme, .number hlexeme, rfl⟩
          · rw [if_neg hnumber] at h
            cases h

theorem lexToken_sound (h : lexToken input = some (token, rest)) :
    ∃ bytes, Spells token bytes ∧ input = bytes ++ rest := by
  cases input with
  | nil => cases h
  | cons c tail =>
    rw [lexToken] at h
    split at h
    · rename_i t hstructural
      cases h
      exact ⟨[c], .structural hstructural, rfl⟩
    · by_cases hquote : c = '"'
      · rw [if_pos hquote] at h
        split at h
        · rename_i raw rest' hplain
          obtain ⟨hraw, htail, hescape⟩ := plainAsciiString_sound hplain
          cases h
          rw [← hescape, htail, hquote]
          exact ⟨_, .string hraw, by simp⟩
        · obtain ⟨⟨raw, rest'⟩, hr, h⟩ := Option.map_eq_some_iff.1 h
          obtain ⟨hraw, htail⟩ := stringRule_sound hr
          cases h
          rw [htail, hquote]
          exact ⟨_, .string hraw, by simp⟩
      · rw [if_neg hquote] at h
        split at h
        · rename_i bytes t hliteral
          split_ifs at h with hprefix
          cases h
          obtain ⟨more, hmore⟩ := List.isPrefixOf_iff_prefix.1 hprefix
          exact ⟨bytes, .literal hliteral, by rw [← hmore, List.drop_left]⟩
        · obtain ⟨rest', hr, h⟩ := Option.map_eq_some_iff.1 h
          cases h
          obtain ⟨lexeme, happ, hlexeme⟩ := numberRule_sound hr
          rw [happ, List.length_append, Nat.add_sub_cancel, List.take_left]
          exact ⟨lexeme, .number hlexeme, rfl⟩

/-! ## Completeness -/

def Token.isWord : Token → Bool
  | .number _ | .true | .false | .null => Bool.true
  | _ => Bool.false

def MayFollow (token : Token) (rest : List Char) : Prop :=
  token.isWord = true → ∀ c ∈ rest.head?, isDelim c = true

theorem stops_of_delim (h : ∀ c ∈ rest.head?, isDelim c = true) : Stops rest := by
  intro c hc
  have hdelim := h c hc
  refine ⟨?_, ?_, ?_, ?_⟩
  · by_contra hdigit
    rw [Bool.not_eq_false] at hdigit
    simp only [isDelim, digit_ws hdigit, Bool.false_or, Bool.or_eq_true, decide_eq_true_eq] at hdelim
    rcases hdelim with (rfl | rfl) | rfl <;> revert hdigit <;> decide
  all_goals
    rintro rfl
    revert hdelim
    decide

theorem scanToken_complete {final : Bool} (h : Spells token bytes) (hfollow : MayFollow token rest)
    (hreads : ∀ lexeme, IsNumber lexeme → reads lexeme = true) (hfinal : final = true) :
    scanToken final reads (bytes ++ rest) = .ok (token, rest) := by
  cases h with
  | structural h =>
    rw [List.singleton_append, scanToken, h]
  | literal h =>
    have hword : token.isWord = true := by
      rcases literal_token h with rfl | rfl | rfl <;> rfl
    obtain ⟨tail, rfl, hstructural, hquote, -⟩ := literal_cons h
    rw [List.cons_append, scanToken, hstructural]
    dsimp only
    rw [if_neg hquote, h]
    dsimp only
    rw [← List.cons_append, scanLiteral_there, if_neg]
    have hdelim := hfollow hword
    cases rest with
    | nil => simp
    | cons d rest => simp [hdelim d rfl]
  | string h =>
    rw [List.cons_append, scanToken]
    have hstructural : structural '"' = none := by decide
    rw [hstructural]
    dsimp only
    rw [if_pos rfl, scanString, List.append_assoc, List.singleton_append, scanChars_complete h]
    rfl
  | number h =>
    have hdelim := hfollow rfl
    obtain ⟨c, tail, hcons, hstructural, hquote, hliteral, hnumber, -⟩ := h.cons
    have hscan : scanToken final reads (bytes ++ rest) = scanNumber final reads (bytes ++ rest) := by
      rw [hcons, List.cons_append, scanToken, hstructural]
      dsimp only
      rw [if_neg hquote, hliteral]
      dsimp only
      rw [if_pos hnumber]
    rw [hscan, scanNumber, numberEnd_complete h (stops_of_delim hdelim)]
    dsimp only [Scan.bind]
    rw [if_neg (by simp [hfinal]), if_neg, List.length_append, Nat.add_sub_cancel, List.take_left,
      if_pos (hreads _ h)]
    cases rest with
    | nil => simp
    | cons d rest => simp [hdelim d rfl]

theorem lexToken_complete (h : Spells token bytes) (hfollow : MayFollow token rest) :
    lexToken (bytes ++ rest) = some (token, rest) := by
  cases h with
  | structural h =>
    rw [List.singleton_append, lexToken, h]
  | literal h =>
    obtain ⟨tail, rfl, hstructural, hquote, -⟩ := literal_cons h
    rw [List.cons_append, lexToken, hstructural]
    dsimp only
    rw [if_neg hquote, h]
    dsimp only
    rw [← List.cons_append, if_pos (List.isPrefixOf_iff_prefix.2 (List.prefix_append _ _)),
      List.drop_left]
  | @string raw h =>
    rw [List.cons_append, lexToken]
    have hstructural : structural '"' = none := by decide
    rw [hstructural]
    dsimp only
    rw [if_pos rfl, List.append_assoc, List.singleton_append]
    split
    · rename_i raw' rest' hplain
      obtain ⟨hraw', htail, hescape⟩ := plainAsciiString_sound hplain
      have hrule := stringRule_complete h rest
      rw [htail, stringRule_complete hraw'] at hrule
      obtain ⟨rfl, rfl⟩ := Prod.mk.inj (Option.some.inj hrule)
      rw [hescape]
    · rw [stringRule_complete h]
      rfl
  | number h =>
    obtain ⟨c, tail, hcons, hstructural, hquote, hliteral, -⟩ := h.cons
    have hlex : lexToken (bytes ++ rest) = (numberRule (bytes ++ rest)).map fun rest' =>
        (.number ((bytes ++ rest).take ((bytes ++ rest).length - rest'.length)), rest') := by
      rw [hcons, List.cons_append, lexToken, hstructural]
      dsimp only
      rw [if_neg hquote, hliteral]
    rw [hlex, numberRule_complete h (stops_of_delim (hfollow rfl)), Option.map_some,
      List.length_append, Nat.add_sub_cancel, List.take_left]

end OneToken

/-! ## All tokens -/

def Token.closes : Token → Bool
  | .comma | .rbracket | .rbrace => Bool.true
  | _ => Bool.false

def Follows (first second : Token) : Prop := first.isWord = true → second.closes = true

section AllTokens

variable {reads : List Char → Bool} {input : List Char} {token : Token} {ts : List Token}

/-- Before a token that may stand after a value there is a byte that may. -/
theorem Spread.mayFollow (h : Spread ts input) (hchain : List.IsChain Follows (token :: ts)) :
    MayFollow token input := by
  intro hword c hc
  have hws : ∀ {ws : List Char}, (∀ c ∈ ws, isWs c = true) → c ∈ ws.head? → isDelim c = true := by
    intro ws hws hc
    rw [isDelim, hws c (List.mem_of_mem_head? hc)]
    rfl
  cases h with
  | nil hall => exact hws hall hc
  | @cons ws bytes rest next ts hall hspells hrest =>
    cases ws with
    | cons w ws => exact hws hall hc
    | nil =>
      have hcloses : next.closes = true := (List.isChain_cons_cons.1 hchain).1 hword
      cases hspells with
      | structural hstructural =>
        obtain rfl := Option.some.inj hc
        revert hcloses
        unfold structural at hstructural
        split_ifs at hstructural with h₁ h₂ h₃ h₄ h₅ h₆ <;> cases hstructural
        · rintro ⟨⟩
        · rw [h₂]; decide
        · rintro ⟨⟩
        · rw [h₄]; decide
        · rintro ⟨⟩
        · rw [h₆]; decide
      | literal hliteral => rcases literal_token hliteral with rfl | rfl | rfl <;> cases hcloses
      | string => cases hcloses
      | number => cases hcloses

theorem dropWhile_token {ws bytes rest : List Char} (hws : ∀ c ∈ ws, isWs c = true)
    (h : Spells token bytes) : (ws ++ (bytes ++ rest)).dropWhile isWs = bytes ++ rest := by
  obtain ⟨c, tail, rfl, hc⟩ := h.cons
  rw [List.dropWhile_append_of_pos hws, List.cons_append,
    List.dropWhile_cons_of_neg (by rw [hc]; decide)]

theorem ws_of_dropWhile (h : input.dropWhile isWs = []) : ∀ c ∈ input, isWs c = true := by
  simpa using h

theorem spread_cons {bytes rest : List Char} (h : Spells token bytes)
    (hinput : input.dropWhile isWs = bytes ++ rest) (hrest : Spread ts rest) :
    Spread (token :: ts) input := by
  rw [← List.takeWhile_append_dropWhile (p := isWs) (l := input), hinput]
  exact .cons (fun _ hc => List.mem_takeWhile_imp hc) h hrest

theorem lexTokens_sound {fuel : ℕ} (h : lexTokens fuel input = some ts) : Spread ts input := by
  induction fuel generalizing input ts with
  | zero => cases h
  | succ fuel ih =>
    rw [lexTokens] at h
    by_cases hend : input.dropWhile isWs = []
    · rw [if_pos hend] at h
      cases h
      exact .nil (ws_of_dropWhile hend)
    · rw [if_neg hend] at h
      obtain ⟨⟨token, rest⟩, hlex, h⟩ := Option.bind_eq_some_iff.1 h
      obtain ⟨ts', hrest, rfl⟩ := Option.map_eq_some_iff.1 h
      obtain ⟨bytes, hspells, hinput⟩ := lexToken_sound hlex
      exact spread_cons hspells hinput (ih hrest)

theorem lexTokens_complete (h : Spread ts input) (hchain : List.IsChain Follows ts) {fuel : ℕ}
    (hfuel : input.length < fuel) : lexTokens fuel input = some ts := by
  induction h generalizing fuel with
  | nil hws =>
    obtain ⟨fuel, rfl⟩ := Nat.exists_eq_succ_of_ne_zero (Nat.ne_of_gt (Nat.zero_lt_of_lt hfuel))
    rw [lexTokens, if_pos (List.dropWhile_eq_nil_iff.2 hws)]
  | @cons ws bytes rest token ts hws hspells hrest ih =>
    obtain ⟨fuel, rfl⟩ := Nat.exists_eq_succ_of_ne_zero (Nat.ne_of_gt (Nat.zero_lt_of_lt hfuel))
    obtain ⟨c, tail, hcons, -⟩ := hspells.cons
    have hshorter : rest.length < fuel := by
      rw [hcons] at hfuel
      simp only [List.length_append, List.length_cons] at hfuel
      omega
    rw [lexTokens, dropWhile_token hws hspells, if_neg (by simp [hcons]),
      lexToken_complete hspells (hrest.mayFollow hchain), Option.bind_some]
    dsimp only
    rw [ih hchain.of_cons hshorter, Option.map_some]

theorem drive_sound {m m' : Machine} {rest : List Char}
    (h : drive reads true m input = .ok (m', rest)) :
    ∃ ts, Spread ts input ∧ ts.foldlM Machine.processToken m = .ok m' := by
  induction hlen : input.length using Nat.strong_induction_on generalizing m input with
  | _ n ih =>
    subst hlen
    cases hscan : scanToken true reads (input.dropWhile isWs) with
    | wait =>
      rw [drive_wait hscan] at h
      cases h
      have hend : input.dropWhile isWs = [] := by
        by_contra hne
        obtain ⟨c, tail, hcons⟩ := List.exists_cons_of_ne_nil hne
        rw [hcons] at hscan
        exact scanToken_final hscan
      exact ⟨[], .nil (ws_of_dropWhile hend), rfl⟩
    | error message =>
      rw [drive_error hscan] at h
      cases h
    | ok r =>
      obtain ⟨token, tail⟩ := r
      rw [drive_ok hscan] at h
      cases hprocess : m.processToken token with
      | error message =>
        rw [hprocess] at h
        cases h
      | ok m₁ =>
        rw [hprocess] at h
        obtain ⟨ts, hspread, hrun⟩ := ih tail.length (scanToken_dropWhile hscan).2 h rfl
        obtain ⟨bytes, hspells, hinput⟩ := scanToken_sound hscan
        refine ⟨token :: ts, spread_cons hspells hinput hspread, ?_⟩
        rw [List.foldlM_cons, hprocess]
        exact hrun

theorem drive_complete (hreads : ∀ lexeme, IsNumber lexeme → reads lexeme = true)
    (h : Spread ts input) (hchain : List.IsChain Follows ts) (m : Machine) :
    drive reads true m input = (ts.foldlM Machine.processToken m).map fun m => (m, []) := by
  induction h generalizing m with
  | nil hws =>
    have hend := List.dropWhile_eq_nil_iff.2 hws
    rw [drive_wait (by rw [hend]; rfl), hend]
    rfl
  | @cons ws bytes rest token ts hws hspells hrest ih =>
    rw [drive_ok (by
      rw [dropWhile_token hws hspells]
      exact scanToken_complete hspells (hrest.mayFollow hchain) hreads rfl), List.foldlM_cons]
    cases hprocess : m.processToken token with
    | error message => rfl
    | ok m₁ => exact ih hchain.of_cons m₁

end AllTokens

end Json
