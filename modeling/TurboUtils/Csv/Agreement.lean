import TurboUtils.Csv.Feeding

/-! Where quotes and line ends stand as they should, the lexer finds the rows that the scanner
finds. -/
namespace Csv

/-! ## Where quotes and line ends stand -/

/-- Where a byte stands: at the start of a field, in a field without quotes, in quotes, or after
those. -/
inductive Place where
  | start
  | plain
  | quoted
  | closed
  deriving DecidableEq, Repr

/-- Outside of quotes every carriage return is followed by a line feed, quotes only open fields, and
after the closing ones the field ends. -/
def tidy (place : Place) : List Char → Bool
  | [] => true
  | c :: rest =>
      if place = .quoted then
        if c = '"' then
          match rest with
          | d :: after => if d = '"' then tidy .quoted after else tidy .closed (d :: after)
          | [] => true
        else tidy .quoted rest
      else if c = ',' || c = '\n' then tidy .start rest
      else if c = '\r' then rest.head? = some '\n' && tidy .start rest
      else if c = '"' then place = .start && tidy .quoted rest
      else place ≠ .closed && tidy .plain rest

def closes : List Char → Option (List Char × List Char)
  | [] => none
  | c :: rest =>
      if c = '"' then
        match rest with
        | d :: after =>
            if d = '"' then (closes after).map fun (value, after) => ('"' :: '"' :: value, after)
            else some ([], d :: after)
        | [] => some ([], [])
      else (closes rest).map fun (value, after) => (c :: value, after)

theorem closes_cons {c : Char} (hc : c ≠ '"') (rest : List Char) : closes (c :: rest) =
    (closes rest).map fun (value, after) => (c :: value, after) := by
  rw [closes.eq_def]
  dsimp only
  rw [if_neg hc]

theorem quoted_cons {c : Char} (hc : c ≠ '"') (hnul : c ≠ '\x00') (rest : List Char) :
    quoted (c :: rest) = (quoted rest).map fun (value, after) => (c :: value, after) := by
  rw [quoted.eq_def]
  dsimp only
  rw [if_neg hc, if_neg hnul]

theorem tidy_quoted_cons {c : Char} (hc : c ≠ '"') (rest : List Char) :
    tidy .quoted (c :: rest) = tidy .quoted rest := by
  rw [tidy.eq_def]
  dsimp only
  rw [if_pos rfl, if_neg hc]

theorem tidy_of_closes {body value after : List Char} (h : closes body = some (value, after)) :
    tidy .quoted body = tidy .closed after := by
  induction body using closes.induct generalizing value with
  | case1 => cases h
  | case2 after ih =>
    simp only [closes, if_true] at h
    obtain ⟨⟨value', after'⟩, hclosed, heq⟩ := Option.map_eq_some_iff.1 h
    cases heq
    simpa [tidy] using ih hclosed
  | case3 d after hd =>
    simp only [closes, if_true, if_neg hd] at h
    cases h
    simp [tidy, hd]
  | case4 =>
    cases h
    rfl
  | case5 c rest hc ih =>
    rw [closes_cons hc] at h
    obtain ⟨⟨value', after'⟩, hclosed, heq⟩ := Option.map_eq_some_iff.1 h
    cases heq
    rw [tidy_quoted_cons hc]
    exact ih hclosed

theorem closes_after {body value after : List Char} (h : closes body = some (value, after)) :
    after <:+ body := by
  induction body using closes.induct generalizing value with
  | case1 => cases h
  | case2 rest ih =>
    simp only [closes, if_true] at h
    obtain ⟨⟨value', after'⟩, hclosed, heq⟩ := Option.map_eq_some_iff.1 h
    cases heq
    exact ((ih hclosed).trans (List.suffix_cons _ _)).trans (List.suffix_cons _ _)
  | case3 d rest hd =>
    simp only [closes, if_true, if_neg hd] at h
    cases h
    exact List.suffix_cons _ _
  | case4 =>
    cases h
    exact List.suffix_cons _ _
  | case5 c rest hc ih =>
    rw [closes_cons hc] at h
    obtain ⟨⟨value', after'⟩, hclosed, heq⟩ := Option.map_eq_some_iff.1 h
    cases heq
    exact (ih hclosed).trans (List.suffix_cons _ _)

/-- The longest quoted field ends where the scanner leaves the quotes. -/
theorem quoted_of_closes {body value after : List Char} (hnul : '\x00' ∉ body)
    (h : closes body = some (value, after)) : quoted body = some (value, after) := by
  induction body using closes.induct generalizing value with
  | case1 => cases h
  | case2 rest ih =>
    simp only [closes, if_true] at h
    obtain ⟨⟨value', after'⟩, hclosed, heq⟩ := Option.map_eq_some_iff.1 h
    cases heq
    simp only [List.mem_cons, not_or] at hnul
    simp [quoted, ih hnul.2.2 hclosed]
  | case3 d after hd =>
    simp only [closes, if_true, if_neg hd] at h
    cases h
    simp [quoted, hd]
  | case4 =>
    cases h
    rfl
  | case5 c rest hc ih =>
    rw [closes_cons hc] at h
    obtain ⟨⟨value', after'⟩, hclosed, heq⟩ := Option.map_eq_some_iff.1 h
    cases heq
    rw [List.mem_cons, not_or] at hnul
    rw [quoted_cons hc (Ne.symm hnul.1), ih hnul.2 hclosed]
    rfl

/-- Without a closing quote the lexer finds none either, or it goes back to one of a pair, after
which there is none. -/
theorem quoted_of_not_closes {body : List Char} (hnul : '\x00' ∉ body) (h : closes body = none) :
    quoted body = none ∨ ∃ value after, quoted body = some (value, '"' :: after) ∧
      quoted after = none := by
  induction body using closes.induct with
  | case1 => exact .inl rfl
  | case2 rest ih =>
    simp only [closes, if_true, Option.map_eq_none_iff] at h
    simp only [List.mem_cons, not_or] at hnul
    rcases ih hnul.2.2 h with hnone | ⟨value, after, hsome, hnone⟩
    · exact .inr ⟨[], rest, by simp [quoted, hnone], hnone⟩
    · exact .inr ⟨'"' :: '"' :: value, after, by simp [quoted, hsome], hnone⟩
  | case3 d after hd => simp [closes, hd] at h
  | case4 => cases h
  | case5 c rest hc ih =>
    rw [closes_cons hc, Option.map_eq_none_iff] at h
    rw [List.mem_cons, not_or] at hnul
    rw [quoted_cons hc (Ne.symm hnul.1)]
    rcases ih hnul.2 h with hnone | ⟨value, after, hsome, hnone⟩
    · exact .inl (by rw [hnone]; rfl)
    · exact .inr ⟨c :: value, after, by rw [hsome]; rfl, hnone⟩

theorem unescape_cons_cons {c d : Char} {after : List Char} (h : ¬(c = '"' ∧ d = '"')) :
    unescape (c :: d :: after) = c :: unescape (d :: after) := by
  rw [unescape.eq_def]
  dsimp only
  by_cases hc : c = '"'
  · rw [if_pos hc, if_neg fun hd => h ⟨hc, hd⟩]
  · rw [if_neg hc]

theorem unescape_of_not_escaped {value : List Char} (h : hasEscapedQuote value = false) :
    unescape value = value := by
  induction value using unescape.induct with
  | case1 => rfl
  | case2 after ih => simp [hasEscapedQuote] at h
  | case3 d after hd ih =>
    simp only [hasEscapedQuote, Bool.or_eq_false_iff] at h
    rw [unescape_cons_cons fun hq => hd hq.2, ih h.2]
  | case4 => rfl
  | case5 c rest hc ih =>
    cases rest with
    | nil => simp [unescape, hc]
    | cons d rest =>
      simp only [hasEscapedQuote, Bool.or_eq_false_iff] at h
      rw [unescape_cons_cons fun hq => hc hq.1, ih h.2]

theorem fieldText_escaped (value : List Char) :
    fieldText value (hasEscapedQuote value) = unescape value := by
  unfold fieldText
  cases h : hasEscapedQuote value with
  | true => rfl
  | false => exact (unescape_of_not_escaped h).symm

/-! ## The scanner over a field -/

section Scanner

variable {σ : Type} {cb : ScanCallbacks σ} {row col : ℕ} {ctx : σ}

theorem scanLoop_closes {body value after field : List Char}
    (h : closes body = some (value, after)) :
    scanLoop .default cb body ⟨field, true, true, true, row, col, ctx⟩ =
      scanLoop .default cb after ⟨field ++ unescape value, true, false, true, row, col, ctx⟩ := by
  induction body using closes.induct generalizing field value with
  | case1 => cases h
  | case2 rest ih =>
    simp only [closes, if_true] at h
    obtain ⟨⟨value', after'⟩, hclosed, heq⟩ := Option.map_eq_some_iff.1 h
    cases heq
    have hrest : scanLoop .default cb rest ⟨field ++ ['"'], true, true, true, row, col, ctx⟩ = _ :=
      ih hclosed
    rw [List.append_assoc] at hrest
    simpa [scanLoop, unescape, Options.default] using hrest
  | case3 d rest hd =>
    simp only [closes, if_true, if_neg hd] at h
    cases h
    have hd' : d ≠ Options.default.quote := hd
    rw [scanLoop.eq_def]
    dsimp only
    rw [if_pos rfl, if_pos (show '"' = Options.default.quote from rfl), if_neg hd', unescape,
      List.append_nil]
  | case4 =>
    cases h
    simp [scanLoop, unescape, Options.default]
  | case5 c rest hc ih =>
    rw [closes_cons hc] at h
    obtain ⟨⟨value', after'⟩, hclosed, heq⟩ := Option.map_eq_some_iff.1 h
    cases heq
    have hrest : scanLoop .default cb rest ⟨field ++ [c], true, true, true, row, col, ctx⟩ = _ :=
      ih hclosed
    rw [List.append_assoc] at hrest
    have hvalue : unescape (c :: value') = [c] ++ unescape value' := by
      rw [unescape.eq_def]
      dsimp only
      rw [if_neg hc]
      rfl
    have hc' : c ≠ Options.default.quote := hc
    rw [hvalue, scanLoop.eq_def]
    dsimp only
    rw [if_pos rfl, if_neg hc']
    exact hrest

theorem scanLoop_not_closes {body field : List Char} (h : closes body = none) :
    scanLoop .default cb body ⟨field, true, true, true, row, col, ctx⟩ =
      .error "Unterminated quoted field" := by
  induction body using closes.induct generalizing field with
  | case1 => rfl
  | case2 rest ih =>
    simp only [closes, if_true, Option.map_eq_none_iff] at h
    simpa [scanLoop, Options.default] using ih h
  | case3 d rest hd => simp [closes, hd] at h
  | case4 => cases h
  | case5 c rest hc ih =>
    rw [closes_cons hc, Option.map_eq_none_iff] at h
    have hc' : c ≠ Options.default.quote := hc
    rw [scanLoop.eq_def]
    dsimp only
    rw [if_pos rfl, if_neg hc']
    exact ih h

theorem scanLoop_ordinary {c : Char} (hc : isSpecial c = false) {rest field : List Char}
    {fieldStarted rowStarted : Bool} :
    scanLoop .default cb (c :: rest) ⟨field, fieldStarted, false, rowStarted, row, col, ctx⟩ =
      scanLoop .default cb rest ⟨field ++ [c], true, false, true, row, col, ctx⟩ := by
  simp only [isSpecial, Bool.or_eq_false_iff, decide_eq_false_iff_not] at hc
  obtain ⟨⟨⟨⟨-, hcomma⟩, hquote⟩, hcr⟩, hlf⟩ := hc
  rw [scanLoop.eq_def]
  simp [Options.default, hcomma, hquote, hcr, hlf]

theorem scanLoop_run {run : List Char} (hrun : ∀ c ∈ run, isSpecial c = false)
    {rest field : List Char} :
    scanLoop .default cb (run ++ rest) ⟨field, true, false, true, row, col, ctx⟩ =
      scanLoop .default cb rest ⟨field ++ run, true, false, true, row, col, ctx⟩ := by
  induction run generalizing field with
  | nil => rw [List.append_nil]; rfl
  | cons c run ih =>
    rw [List.forall_mem_cons] at hrun
    rw [List.cons_append, scanLoop_ordinary hrun.1, ih hrun.2, List.append_assoc]
    rfl

end Scanner

theorem tidy_ordinary {c : Char} (hc : isSpecial c = false) {place : Place} (hplace : place ≠ .quoted)
    {rest : List Char} (h : tidy place (c :: rest) = true) : tidy .plain rest = true := by
  simp only [isSpecial, Bool.or_eq_false_iff, decide_eq_false_iff_not] at hc
  obtain ⟨⟨⟨⟨-, hcomma⟩, hquote⟩, hcr⟩, hlf⟩ := hc
  rw [tidy.eq_def] at h
  simp [hplace, hcomma, hquote, hcr, hlf] at h
  exact h.2

theorem tidy_run {run rest : List Char} (hrun : ∀ c ∈ run, isSpecial c = false)
    (h : tidy .plain (run ++ rest) = true) : tidy .plain rest = true := by
  induction run with
  | nil => exact h
  | cons c run ih =>
    rw [List.forall_mem_cons] at hrun
    exact ih hrun.2 (tidy_ordinary hrun.1 (by decide : Place.plain ≠ .quoted) h)

/-- After a field without quotes comes what may come after one with quotes. -/
theorem tidy_closed {rest : List Char} (hnul : '\x00' ∉ rest)
    (hspecial : ∀ c ∈ rest.head?, isSpecial c = true) (h : tidy .plain rest = true) :
    tidy .closed rest = true := by
  cases rest with
  | nil => rfl
  | cons c rest =>
    have hc := hspecial c rfl
    have hne : c ≠ '\x00' := fun heq => hnul (heq ▸ List.mem_cons_self)
    rw [tidy.eq_def] at h ⊢
    simp only [isSpecial, Bool.or_eq_true, decide_eq_true_eq] at hc
    rcases hc with (((hc | rfl) | rfl) | rfl) | rfl
    · exact absurd hc hne
    · simpa using h
    · simp at h
    · simpa using h
    · simpa using h

/-! ## The lexer follows the scanner -/

/-- A lexer with the row and the rows so far, and the scanner at the same byte. -/
inductive Follows : Lexer → Row → List Row → Scan DomScan → Prop
  | rowStart {rest line column rows row col current} (htidy : tidy .start rest = true)
      (hcurrent : current.getD [] = []) :
      Follows ⟨rest, line, column, .rowStart⟩ [] rows
        ⟨[], false, false, false, row, col, ⟨rows, current⟩⟩
  | afterComma {rest line column fields rows row col current} (htidy : tidy .start rest = true)
      (hfields : fields ≠ []) (hcurrent : current.getD [] = fields) :
      Follows ⟨rest, line, column, .afterComma⟩ fields rows
        ⟨[], false, false, true, row, col, ⟨rows, current⟩⟩
  | afterField {rest line column fields rows row col current field fieldStarted rowStarted}
      (htidy : tidy .closed rest = true) (hrow : rowStarted = true ∨ rest.head? = some ',')
      (hcurrent : current.getD [] = fields) :
      Follows ⟨rest, line, column, .afterField⟩ (fields ++ [field]) rows
        ⟨field, fieldStarted, false, rowStarted, row, col, ⟨rows, current⟩⟩

def scanRest (rest : List Char) (s : Scan DomScan) : Except String (List Row) :=
  (scanLoop .default domScan rest s).map DomScan.rows

/-- The lexer and the scanner find the same rows from here on, or none of them finds any. -/
def Coincides (fuel : ℕ) (l : Lexer) (fields : Row) (rows : List Row) (s : Scan DomScan) : Prop :=
  (parseTokens fuel l fields rows).toOption = (scanRest l.rest s).toOption

section Next

variable {rest : List Char} {line column : ℕ} {state : LexerState}

theorem next_special {c : Char} (hc : isSpecial c = true) (hcomma : state = .afterComma → c = '"')
    (hstart : state = .rowStart → c ≠ ',') : Lexer.next ⟨c :: rest, line, column, state⟩ =
      Lexer.rules ⟨c :: rest, line, column, state⟩ := by
  unfold Lexer.next
  have h₁ : ¬(state = .afterComma ∧ (c :: rest = [] ∨ (c :: rest).head? = some ',' ∨
      (c :: rest).head? = some '\n' ∨ (c :: rest).head? = some '\r')) := by
    rintro ⟨hstate, h⟩
    rw [hcomma hstate] at h
    simp at h
  have h₂ : ¬(state = .rowStart ∧ (c :: rest).head? = some ',') := fun ⟨hstate, h⟩ =>
    hstart hstate (Option.some_inj.1 h)
  rw [if_neg h₁, if_neg h₂, if_neg (List.cons_ne_nil c rest)]
  dsimp only
  rw [List.takeWhile_cons, hc]
  exact if_neg (not_not.2 rfl)

variable (rest line column state)

theorem next_run {c : Char} (hc : isSpecial c = false) : ∃ run after,
    c :: rest = run ++ after ∧ run ≠ [] ∧ (∀ c ∈ run, isSpecial c = false) ∧
      (∀ c ∈ after.head?, isSpecial c = true) ∧ Lexer.next ⟨c :: rest, line, column, state⟩ =
        (⟨after, line, column + run.length, .afterField⟩, .token (.field run false)) := by
  have hsplit := List.takeWhile_append_dropWhile (p := fun c => !isSpecial c) (l := c :: rest)
  have hne : (c :: rest).takeWhile (fun c => !isSpecial c) ≠ [] := by
    rw [List.takeWhile_cons, hc]
    exact List.cons_ne_nil _ _
  have hdrop : ∀ run after, run ++ after = c :: rest → (c :: rest).drop run.length = after := by
    intro run after heq
    rw [← heq, List.drop_left]
  refine ⟨_, _, hsplit.symm, hne, fun d hd => ?_, fun d hd => ?_, ?_⟩
  · simpa using List.mem_takeWhile_imp hd
  · have hhead := List.head?_dropWhile_not (fun c => !isSpecial c) (c :: rest)
    rw [Option.mem_def.1 hd] at hhead
    simpa using hhead
  · have hordinary : c ≠ ',' ∧ c ≠ '\n' ∧ c ≠ '\r' := by
      simp only [isSpecial, Bool.or_eq_false_iff, decide_eq_false_iff_not] at hc
      exact ⟨hc.1.1.1.2, hc.2, hc.1.2⟩
    unfold Lexer.next
    simp only [List.head?_cons, Option.some.injEq, hordinary, reduceCtorEq, or_false, and_false,
      if_false, ne_eq, hne, not_false_eq_true, if_true]
    rw [hdrop _ _ hsplit]

theorem rules_quoted {body value after : List Char} (h : quoted body = some (value, after)) :
    ∃ line' column', Lexer.rules ⟨'"' :: body, line, column, state⟩ =
      (⟨after, line', column', .afterField⟩, .token (.field value (hasEscapedQuote value))) := by
  simp [Lexer.rules, h]

theorem rules_not_quoted {body : List Char} (h : quoted body = none) :
    ∃ l message, Lexer.rules ⟨'"' :: body, line, column, state⟩ = (l, .error message) := by
  simp [Lexer.rules, h]

end Next

section Steps

variable {fuel line column row col : ℕ} {fields : Row} {rows : List Row} {current : Option Row}
  {state : LexerState} {rowStarted : Bool}

def Continues (fuel : ℕ) : Prop :=
  ∀ l fields rows s, Follows l fields rows s → '\x00' ∉ l.rest → l.budget ≤ fuel →
    Coincides fuel l fields rows s

/-- A field without quotes. -/
theorem coincides_run (hcontinues : Continues fuel) {c : Char}
    {rest : List Char} (hc : isSpecial c = false) (htidy : tidy .start (c :: rest) = true)
    (hnul : '\x00' ∉ c :: rest) (hcurrent : current.getD [] = fields)
    (hbudget : 2 * (c :: rest).length + 2 ≤ fuel + 1) :
    Coincides (fuel + 1) ⟨c :: rest, line, column, state⟩ fields rows
      ⟨[], false, false, rowStarted, row, col, ⟨rows, current⟩⟩ := by
  obtain ⟨run, after, hsplit, hne, hrun, hspecial, hnext⟩ :=
    next_run rest line column state hc
  obtain ⟨d, run, rfl⟩ := List.exists_cons_of_ne_nil hne
  rw [List.cons_append, List.cons.injEq] at hsplit
  obtain ⟨rfl, rfl⟩ := hsplit
  have hnul' : '\x00' ∉ after := fun h => hnul (List.mem_cons_of_mem _ (List.mem_append_right _ h))
  have hplain := tidy_run (fun c h => hrun c (List.mem_cons_of_mem _ h))
    (tidy_ordinary hc (by decide : Place.start ≠ .quoted) htidy)
  have hfollows : Follows ⟨after, line, column + (c :: run).length, .afterField⟩
      (fields ++ [c :: run]) rows ⟨c :: run, true, false, true, row, col, ⟨rows, current⟩⟩ :=
    .afterField (tidy_closed hnul' hspecial hplain) (.inl rfl) hcurrent
  have hrest := hcontinues _ _ _ _ hfollows hnul' (by
    simp only [Lexer.budget, List.length_cons, List.length_append, if_true] at hbudget ⊢
    omega)
  unfold Coincides scanRest at hrest ⊢
  rw [parseTokens, hnext]
  dsimp only
  rw [scanLoop_ordinary hc, scanLoop_run fun c h => hrun c (List.mem_cons_of_mem _ h)]
  exact hrest

/-- A field with quotes. -/
theorem coincides_quoted (hcontinues : Continues fuel) {body : List Char} (htidy : tidy .start ('"' :: body) = true) (hnul : '\x00' ∉ '"' :: body)
    (hcurrent : current.getD [] = fields) (hbudget : 2 * ('"' :: body).length + 2 ≤ fuel + 1) :
    Coincides (fuel + 1) ⟨'"' :: body, line, column, state⟩ fields rows
      ⟨[], false, false, rowStarted, row, col, ⟨rows, current⟩⟩ := by
  have hnext : Lexer.next ⟨'"' :: body, line, column, state⟩ =
      Lexer.rules ⟨'"' :: body, line, column, state⟩ :=
    next_special rfl (fun _ => rfl) fun _ => by decide
  have hnul' : '\x00' ∉ body := fun h => hnul (List.mem_cons_of_mem _ h)
  have htidy' : tidy .quoted body = true := by
    rw [tidy.eq_def] at htidy
    simpa using htidy
  have hscan : scanLoop .default domScan ('"' :: body)
      ⟨[], false, false, rowStarted, row, col, ⟨rows, current⟩⟩ =
        scanLoop .default domScan body ⟨[], true, true, true, row, col, ⟨rows, current⟩⟩ := by
    rw [scanLoop.eq_def]
    rfl
  have hbudget' : 2 * body.length + 2 ≤ fuel := by
    rw [List.length_cons] at hbudget
    omega
  unfold Coincides scanRest
  rw [parseTokens, hnext, hscan]
  cases hcloses : closes body with
  | none =>
    rw [scanLoop_not_closes hcloses]
    rcases quoted_of_not_closes hnul' hcloses with hnone | ⟨value, after, hsome, hnone⟩
    · obtain ⟨l, message, hrules⟩ := rules_not_quoted line column state hnone
      rw [hrules]
      rfl
    · -- the lexer has gone back to a quote, where the next token begins
      obtain ⟨line', column', hrules⟩ := rules_quoted line column state hsome
      obtain ⟨fuel, rfl⟩ : ∃ n, fuel = n + 1 := ⟨fuel - 1, by omega⟩
      have hnext' : Lexer.next ⟨'"' :: after, line', column', .afterField⟩ =
          Lexer.rules ⟨'"' :: after, line', column', .afterField⟩ :=
        next_special rfl (by simp) (by simp)
      obtain ⟨l, message, hrules'⟩ := rules_not_quoted line' column' .afterField hnone
      rw [hrules]
      dsimp only
      rw [parseTokens, hnext', hrules']
      rfl
  | some found =>
    obtain ⟨value, after⟩ := found
    obtain ⟨line', column', hrules⟩ := rules_quoted line column state
      (quoted_of_closes hnul' hcloses)
    have hafter := closes_after hcloses
    have hfollows : Follows ⟨after, line', column', .afterField⟩ (fields ++ [unescape value]) rows
        ⟨unescape value, true, false, true, row, col, ⟨rows, current⟩⟩ :=
      .afterField (tidy_of_closes hcloses ▸ htidy') (.inl rfl) hcurrent
    have hrest := hcontinues _ _ _ _ hfollows (fun h => hnul' (hafter.subset h)) (by
      have hle := hafter.length_le
      simp only [Lexer.budget, if_true]
      omega)
    rw [scanLoop_closes hcloses, hrules]
    dsimp only
    rw [fieldText_escaped]
    exact hrest

/-- A field without bytes. -/
theorem coincides_synthetic (hcontinues : Continues fuel) {rest : List Char}
    (hnext : Lexer.next ⟨rest, line, column, state⟩ =
      (⟨rest, line, column, .afterField⟩, .token (.field [] false)))
    (htidy : tidy .closed rest = true) (hrow : rowStarted = true ∨ rest.head? = some ',')
    (hnul : '\x00' ∉ rest) (hcurrent : current.getD [] = fields)
    (hbudget : 2 * rest.length + 2 ≤ fuel + 1) :
    Coincides (fuel + 1) ⟨rest, line, column, state⟩ fields rows
      ⟨[], false, false, rowStarted, row, col, ⟨rows, current⟩⟩ := by
  have hfollows : Follows ⟨rest, line, column, .afterField⟩ (fields ++ [[]]) rows
      ⟨[], false, false, rowStarted, row, col, ⟨rows, current⟩⟩ := .afterField htidy hrow hcurrent
  have hrest := hcontinues _ _ _ _ hfollows hnul (by
    simp only [Lexer.budget, if_true]
    omega)
  unfold Coincides at hrest ⊢
  rw [parseTokens, hnext]
  exact hrest

theorem tidy_separator {place : Place} (hplace : place ≠ .quoted) {c : Char}
    (hc : c = ',' ∨ c = '\n') (rest : List Char) : tidy place (c :: rest) = tidy .start rest := by
  rw [tidy.eq_def]
  dsimp only
  rw [if_neg hplace, if_pos (by simpa using hc)]

theorem tidy_end {place place' : Place} (hplace : place ≠ .quoted) (hplace' : place' ≠ .quoted)
    {rest : List Char} (hrest : rest = [] ∨ rest.head? = some ',' ∨ rest.head? = some '\n' ∨
      rest.head? = some '\r') : tidy place rest = tidy place' rest := by
  cases rest with
  | nil => rfl
  | cons c rest =>
    simp only [List.cons_ne_nil, List.head?_cons, Option.some.injEq, false_or] at hrest
    rcases hrest with rfl | rfl | rfl
    · rw [tidy_separator hplace (.inl rfl), tidy_separator hplace' (.inl rfl)]
    · rw [tidy_separator hplace (.inr rfl), tidy_separator hplace' (.inr rfl)]
    · rw [tidy.eq_def, tidy.eq_def place']
      simp [hplace, hplace']

/-- The bytes that end a line. -/
theorem newline_cases {place : Place} (hplace : place ≠ .quoted) {c : Char} {rest : List Char}
    (hc : c = '\n' ∨ c = '\r') (h : tidy place (c :: rest) = true) :
    ∃ after, (c :: rest = '\n' :: after ∨ c :: rest = '\r' :: '\n' :: after) ∧
      after <:+ rest ∧ tidy .start after = true := by
  rcases hc with rfl | rfl
  · rw [tidy_separator hplace (.inr rfl)] at h
    exact ⟨rest, .inl rfl, List.suffix_rfl, h⟩
  · rw [tidy.eq_def] at h
    obtain ⟨hhead, hstart⟩ : rest.head? = some '\n' ∧ tidy .start rest = true := by
      simpa [hplace] using h
    cases rest with
    | nil => cases hhead
    | cons d after =>
      obtain rfl := Option.some_inj.1 hhead
      rw [tidy_separator (by decide) (.inr rfl)] at hstart
      exact ⟨after, .inr rfl, List.suffix_cons _ _, hstart⟩

theorem next_newline {rest after : List Char}
    (hrest : rest = '\n' :: after ∨ rest = '\r' :: '\n' :: after) (hstate : state ≠ .afterComma) :
    ∃ line' column', Lexer.next ⟨rest, line, column, state⟩ =
      (⟨after, line', column', .rowStart⟩, .token .newline) := by
  rcases hrest with rfl | rfl
  · exact ⟨_, _, next_special rfl (fun h => absurd h hstate) fun _ => by decide⟩
  · exact ⟨_, _, next_special rfl (fun h => absurd h hstate) fun _ => by decide⟩

def Scan.nextRow {σ : Type} (s : Scan σ) : Scan σ :=
  { s with col := 0, field := [], fieldStarted := false, rowStarted := false }

/-- The scanner at a line end. -/
theorem scanLoop_newline {rest after : List Char}
    (hrest : rest = '\n' :: after ∨ rest = '\r' :: '\n' :: after) {s s' : Scan DomScan}
    (hquote : s.inQuote = false) (hends : (if s.rowStarted || s.fieldStarted then
      s.endRow domScan else some s) = some s') :
    scanLoop .default domScan rest s = scanLoop .default domScan after s'.nextRow := by
  have hskip : (if s.rowStarted || s.fieldStarted || !Options.default.skipEmptyRows then
      s.endRow domScan else some s) = some s' := by
    rw [← hends, Options.default, Bool.not_true, Bool.or_false]
  have hquote' : ¬s.inQuote = true := by rw [hquote]; decide
  have hlf : ¬('\n' = Options.default.delimiter) := by decide
  have hcr : ¬('\r' = Options.default.delimiter) := by decide
  rcases hrest with rfl | rfl
  · rw [scanLoop.eq_def]
    dsimp only
    rw [if_neg hquote', if_neg (by simp [Options.default]), if_neg hlf, if_pos (by decide), hskip]
    cases after <;> rfl
  · rw [scanLoop.eq_def]
    dsimp only
    rw [if_neg hquote', if_neg (by simp [Options.default]), if_neg hcr, if_pos (by decide), hskip]
    rfl

theorem coincides_start (hcontinues : Continues fuel) {c : Char} {rest : List Char}
    (hseparator : ¬(c = ',' ∨ c = '\n' ∨ c = '\r')) (htidy : tidy .start (c :: rest) = true)
    (hnul : '\x00' ∉ c :: rest) (hcurrent : current.getD [] = fields)
    (hbudget : 2 * (c :: rest).length + 2 ≤ fuel + 1) :
    Coincides (fuel + 1) ⟨c :: rest, line, column, state⟩ fields rows
      ⟨[], false, false, rowStarted, row, col, ⟨rows, current⟩⟩ := by
  by_cases hquote : c = '"'
  · subst hquote
    exact coincides_quoted hcontinues htidy hnul hcurrent hbudget
  · have hne : c ≠ '\x00' := fun heq => hnul (heq ▸ List.mem_cons_self)
    have hc : isSpecial c = false := by
      rw [not_or, not_or] at hseparator
      simp [isSpecial, hquote, hne, hseparator]
    exact coincides_run hcontinues hc htidy hnul hcurrent hbudget

/-- A line end after which the scanner goes on with the rows that the lexer has. -/
theorem coincides_line (hcontinues : Continues fuel) {c : Char} {rest : List Char} {place : Place}
    (hplace : place ≠ .quoted) (hc : c = '\n' ∨ c = '\r') (htidy : tidy place (c :: rest) = true)
    (hnul : '\x00' ∉ c :: rest) (hstate : state ≠ .afterComma) {s s' : Scan DomScan}
    (hquote : s.inQuote = false) (hends : (if s.rowStarted || s.fieldStarted then
      s.endRow domScan else some s) = some s') (hquote' : s'.inQuote = false)
    (hrows : s'.ctx.rows = pushRow rows fields) (hcurrent : s'.ctx.currentRow.getD [] = [])
    (hbudget : 2 * (c :: rest).length ≤ fuel) :
    Coincides (fuel + 1) ⟨c :: rest, line, column, state⟩ fields rows s := by
  obtain ⟨after, hafter, hsuffix, hstart⟩ := newline_cases hplace hc htidy
  obtain ⟨line', column', hnext⟩ := next_newline hafter hstate
  have hfollows : Follows ⟨after, line', column', .rowStart⟩ [] (pushRow rows fields) s'.nextRow := by
    obtain ⟨field, fieldStarted, inQuote, rowStarted, row, col, ⟨rows', current'⟩⟩ := s'
    dsimp only at hquote' hrows hcurrent
    subst hquote' hrows
    exact .rowStart hstart hcurrent
  have hnul' : '\x00' ∉ after := fun h => hnul (List.mem_cons_of_mem _ (hsuffix.subset h))
  have hrest := hcontinues _ _ _ _ hfollows hnul' (by
    have hle := hsuffix.length_le
    simp only [Lexer.budget, List.length_cons, reduceCtorEq, if_false] at hbudget ⊢
    omega)
  unfold Coincides scanRest at hrest ⊢
  rw [parseTokens, hnext, scanLoop_newline hafter hquote hends]
  exact hrest

theorem continues (fuel : ℕ) : Continues fuel := by
  induction fuel with
  | zero =>
    intro l fields rows s hfollows hnul hbudget
    unfold Lexer.budget at hbudget
    split_ifs at hbudget <;> omega
  | succ fuel ih =>
    intro l fields rows s hfollows hnul hbudget
    cases hfollows with
    | @rowStart rest line column rows row col current htidy hcurrent =>
      match rest with
      | [] => rfl
      | c :: rest =>
        have hbudget' : 2 * (c :: rest).length + 2 ≤ fuel + 1 := hbudget
        by_cases hcomma : c = ','
        · subst hcomma
          rw [tidy_end (by decide) (by decide : Place.closed ≠ .quoted) (.inr (.inl rfl))] at htidy
          exact coincides_synthetic ih rfl htidy (.inr rfl) hnul hcurrent hbudget
        by_cases hnewline : c = '\n' ∨ c = '\r'
        · exact coincides_line ih (by decide) hnewline htidy hnul (by decide) rfl rfl rfl rfl hcurrent
            (by omega)
        · exact coincides_start ih (not_or.2 ⟨hcomma, hnewline⟩) htidy hnul hcurrent hbudget
    | @afterComma rest line column fields rows row col current htidy hfields hcurrent =>
      by_cases hend : rest = [] ∨ rest.head? = some ',' ∨ rest.head? = some '\n' ∨
          rest.head? = some '\r'
      · rw [tidy_end (by decide) (by decide : Place.closed ≠ .quoted) hend] at htidy
        exact coincides_synthetic ih (if_pos ⟨rfl, hend⟩) htidy (.inl rfl) hnul hcurrent hbudget
      · match rest with
        | [] => exact absurd (.inl rfl) hend
        | c :: rest =>
          simp only [List.cons_ne_nil, List.head?_cons, Option.some.injEq, false_or] at hend
          exact coincides_start ih hend htidy hnul hcurrent hbudget
    | @afterField rest line column fields rows row col current field fieldStarted rowStarted htidy
        hrow hcurrent =>
      subst hcurrent
      match rest with
      | [] =>
        obtain rfl : rowStarted = true := hrow.resolve_right nofun
        simp [Coincides, scanRest, parseTokens, Lexer.next, pushRow, scanLoop, Scan.endRow,
          Scan.emitField, domScan, orFail, Except.map]
      | c :: rest =>
        have hbudget' : 2 * (c :: rest).length + 1 ≤ fuel + 1 := hbudget
        by_cases hcomma : c = ','
        · subst hcomma
          rw [tidy_separator (by decide) (.inl rfl)] at htidy
          have hfollows : Follows ⟨rest, line, column + 1, .afterComma⟩ (current.getD [] ++ [field])
              rows ⟨[], false, false, true, row, col + 1,
                ⟨rows, some (current.getD [] ++ [field])⟩⟩ := .afterComma htidy (by simp) rfl
          have hrest := ih _ _ _ _ hfollows (fun h => hnul (List.mem_cons_of_mem _ h)) (by
            simp only [Lexer.budget, List.length_cons, reduceCtorEq, if_false] at hbudget' ⊢
            omega)
          have hscan : scanLoop .default domScan (',' :: rest)
              ⟨field, fieldStarted, false, rowStarted, row, col, ⟨rows, current⟩⟩ =
                scanLoop .default domScan rest ⟨[], false, false, true, row, col + 1,
                  ⟨rows, some (current.getD [] ++ [field])⟩⟩ := by
            rw [scanLoop.eq_def]
            cases fieldStarted <;> rfl
          have hnext : Lexer.next ⟨',' :: rest, line, column, .afterField⟩ =
              (⟨rest, line, column + 1, .afterComma⟩, .token .comma) :=
            next_special rfl nofun nofun
          unfold Coincides scanRest at hrest ⊢
          rw [parseTokens, hnext, hscan]
          exact hrest
        by_cases hnewline : c = '\n' ∨ c = '\r'
        · obtain rfl : rowStarted = true :=
            hrow.resolve_right fun h => hcomma (Option.some_inj.1 h)
          refine coincides_line ih (by decide) hnewline htidy hnul (by decide) rfl rfl rfl ?_ rfl
            (by omega)
          simp [pushRow]
        · rw [tidy.eq_def] at htidy
          rw [not_or] at hnewline
          simp [hcomma, hnewline] at htidy

end Steps

theorem parseTokens_scanRows {content : List Char} (hnul : '\x00' ∉ content)
    (htidy : tidy .start content = true) :
    (parseTokens (Lexer.init content).budget (.init content) [] []).toOption =
      (scanRows content none).toOption :=
  continues _ _ _ _ _ (.rowStart htidy rfl) hnul le_rfl

end Csv
