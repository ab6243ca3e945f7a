import TurboUtils.Csv.Agreement

/-! The iterator has the rows of the document, one by one. -/
namespace Csv

theorem length_quoted {body value after : List Char} (h : quoted body = some (value, after)) :
    after.length ≤ body.length := by
  induction body using quoted.induct generalizing value with
  | case1 => cases h
  | case2 rest value' after' hrest ih =>
    simp only [quoted, if_true, hrest] at h
    cases h
    have hle := ih hrest
    simp only [List.length_cons]
    omega
  | case3 rest hrest ih =>
    simp only [quoted, if_true, hrest] at h
    cases h
    simp
  | case4 d rest hd =>
    simp only [quoted, if_true, if_neg hd] at h
    cases h
    simp
  | case5 =>
    cases h
    simp
  | case6 rest hc =>
    rw [quoted.eq_def] at h
    simp at h
  | case7 c rest hc hnul ih =>
    rw [quoted_cons hc hnul] at h
    obtain ⟨⟨value', after'⟩, hrest, heq⟩ := Option.map_eq_some_iff.1 h
    cases heq
    exact (ih hrest).trans (Nat.le_succ _)

/-- What a token says about the lexer before it and after it. -/
structure Lexer.Advances (l l' : Lexer) (token : Token) : Prop where
  budget : l'.budget < l.budget
  comma : token = .comma → l.state ≠ .rowStart
  state : l'.state = .rowStart ↔ token = .newline

theorem rules_token {l l' : Lexer} {token : Token} (h : l.rules = (l', .token token))
    (hcomma : l.state = .rowStart → l.rest.head? ≠ some ',') : l.Advances l' token := by
  obtain ⟨rest, line, column, state⟩ := l
  unfold Lexer.rules at h
  dsimp only at h hcomma
  split at h
  · cases h
  · cases h
    refine ⟨?_, fun _ hstate => hcomma hstate rfl, by simp⟩
    simp only [Lexer.budget, List.length_cons, reduceCtorEq, if_false]
    split_ifs <;> omega
  · cases h
    refine ⟨?_, by simp, by simp⟩
    simp only [Lexer.budget, List.length_cons, reduceCtorEq, if_false]
    split_ifs <;> omega
  · cases h
    refine ⟨?_, by simp, by simp⟩
    simp only [Lexer.budget, List.length_cons, reduceCtorEq, if_false]
    split_ifs <;> omega
  · split at h
    next value after hquoted =>
      cases h
      have hle := length_quoted hquoted
      refine ⟨?_, by simp, by simp⟩
      simp only [Lexer.budget, List.length_cons, if_true]
      split_ifs <;> omega
    · cases h
  · cases h

theorem next_token {l l' : Lexer} {token : Token} (h : l.next = (l', .token token)) :
    l.Advances l' token := by
  unfold Lexer.next at h
  by_cases hcomma : l.state = .afterComma ∧ (l.rest = [] ∨ l.rest.head? = some ',' ∨
      l.rest.head? = some '\n' ∨ l.rest.head? = some '\r')
  · rw [if_pos hcomma] at h
    cases h
    refine ⟨?_, by simp, by simp⟩
    simp [Lexer.budget, hcomma.1]
  rw [if_neg hcomma] at h
  by_cases hstart : l.state = .rowStart ∧ l.rest.head? = some ','
  · rw [if_pos hstart] at h
    cases h
    refine ⟨?_, by simp, by simp⟩
    simp [Lexer.budget, hstart.1]
  rw [if_neg hstart] at h
  by_cases hrest : l.rest = []
  · rw [if_pos hrest] at h
    split_ifs at h with hstate
    · exact absurd ⟨hstate, .inl hrest⟩ hcomma
    · cases h
  rw [if_neg hrest] at h
  dsimp only at h
  split_ifs at h with hrun
  · cases h
    refine ⟨?_, by simp, by simp⟩
    have hle : (l.rest.takeWhile fun c => !isSpecial c).length ≤ l.rest.length :=
      (List.takeWhile_prefix _).length_le
    have hpos := List.length_pos_of_ne_nil hrun
    simp only [Lexer.budget, List.length_drop, if_true]
    split_ifs <;> omega
  · exact rules_token h fun hstate hhead => hstart ⟨hstate, hhead⟩

theorem rules_done {l l' : Lexer} (h : l.rules = (l', .done)) : l.rest = [] := by
  obtain ⟨rest, line, column, state⟩ := l
  unfold Lexer.rules at h
  dsimp only at h
  split at h
  · rfl
  · cases h
  · cases h
  · cases h
  · split at h <;> cases h
  · cases h

theorem next_done {l l' : Lexer} (h : l.next = (l', .done)) :
    l'.rest = [] ∧ l'.state = .rowStart := by
  unfold Lexer.next Lexer.synthetic at h
  split_ifs at h with hcomma hstart hrest hstate
  · cases h
  · cases h
  · cases h
  · cases h
    exact ⟨hrest, rfl⟩
  · dsimp only at h
    split_ifs at h
    · cases h
    · exact absurd (rules_done h) hrest

theorem next_end {l : Lexer} (hrest : l.rest = []) (hstate : l.state = .rowStart) :
    ∃ l', l.next = (l', .done) := by
  obtain ⟨rest, line, column, state⟩ := l
  dsimp only at hrest hstate
  subst hrest hstate
  exact ⟨_, rfl⟩

/-! ## Rows -/

theorem iterRows_end {l : Lexer} (hrest : l.rest = []) (hstate : l.state = .rowStart) (fuel : ℕ) :
    iterRows fuel l = [] := by
  obtain ⟨l', hnext⟩ := next_end hrest hstate
  cases fuel with
  | zero => rfl
  | succ fuel =>
    rw [iterRows, iterNext, hnext]
    rfl

/-- What a call of the iterator finds where the document has its rows. -/
inductive Yields (rows result : List Row) (l : Lexer) : Lexer × Option Row → Prop
  | row {l' row} (fuel : ℕ) (hbudget : l'.budget < l.budget) (hstate : l'.state = .rowStart)
      (hparse : parseTokens fuel l' [] (rows ++ [row]) = .ok result) :
      Yields rows result l (l', some row)
  | last {l' row} (hrest : l'.rest = []) (hstate : l'.state = .rowStart)
      (hresult : result = rows ++ [row]) : Yields rows result l (l', some row)
  | none {l'} (hresult : result = rows) : Yields rows result l (l', none)

theorem Yields.mono {rows result : List Row} {l l₁ : Lexer} {outcome : Lexer × Option Row}
    (h : Yields rows result l₁ outcome) (hbudget : l₁.budget < l.budget) :
    Yields rows result l outcome := by
  cases h with
  | row fuel hlt hstate hparse => exact .row fuel (hlt.trans hbudget) hstate hparse
  | last hrest hstate hresult => exact .last hrest hstate hresult
  | none hresult => exact .none hresult

theorem iterNext_yields {fuel fuel' : ℕ} {l : Lexer} {row : Row} {rows result : List Row}
    (h : parseTokens fuel l row rows = .ok result) (hstate : l.state = .rowStart ↔ row = [])
    (hfuel : l.budget < fuel') : Yields rows result l (iterNext fuel' l row) := by
  induction fuel generalizing l row fuel' with
  | zero => cases h
  | succ fuel ih =>
    obtain ⟨fuel', rfl⟩ : ∃ n, fuel' = n + 1 := ⟨fuel' - 1, by omega⟩
    rw [parseTokens] at h
    rw [iterNext]
    cases hnext : l.next with
    | mk l' lexed =>
      rw [hnext] at h
      cases lexed with
      | token token =>
        obtain ⟨hbudget, hcomma, hnewline⟩ := next_token hnext
        cases token with
        | field value needsUnescape =>
          exact (ih h (by simp [hnewline]) (by omega)).mono hbudget
        | comma =>
          have hrow : row ≠ [] := fun hnil => hcomma rfl (hstate.2 hnil)
          dsimp only
          rw [if_neg hrow]
          exact (ih h (by simp [hnewline, hrow]) (by omega)).mono hbudget
        | newline =>
          have hstart : l'.state = .rowStart := hnewline.2 rfl
          dsimp only at h ⊢
          unfold pushRow at h
          split_ifs with hrow
          · rw [if_pos hrow] at h
            exact (ih h (by simp [hstart]) (by omega)).mono hbudget
          · rw [if_neg hrow] at h
            exact .row fuel hbudget hstart h
      | done =>
        obtain ⟨hrest, hstart⟩ := next_done hnext
        dsimp only at h ⊢
        unfold pushRow at h
        split_ifs with hrow
        · rw [if_pos hrow] at h
          cases h
          exact .none rfl
        · rw [if_neg hrow] at h
          cases h
          exact .last hrest hstart rfl
      | error message => cases h

theorem iterRows_eq {fuel fuel' : ℕ} {l : Lexer} {rows result : List Row}
    (h : parseTokens fuel l [] rows = .ok result) (hstate : l.state = .rowStart)
    (hfuel : l.budget < fuel') : rows ++ iterRows fuel' l = result := by
  induction fuel' generalizing fuel l rows with
  | zero => exact absurd hfuel (Nat.not_lt_zero _)
  | succ fuel' ih =>
    have hyields := iterNext_yields h (by simp [hstate]) (Nat.lt_succ_self l.budget)
    rw [iterRows]
    cases hnext : iterNext (l.budget + 1) l [] with
    | mk l' found =>
      rw [hnext] at hyields
      cases hyields with
      | @row _ row fuel hbudget hstart hparse =>
        dsimp only
        rw [List.append_cons]
        exact ih hparse hstart (by omega)
      | @last _ row hrest hstart hresult =>
        dsimp only
        rw [iterRows_end hrest hstart, hresult]
      | none hresult =>
        dsimp only
        rw [List.append_nil, hresult]

theorem csvIter_eq {content : List Char} {rows : List Row}
    (h : parseTokens (Lexer.init content).budget (.init content) [] [] = .ok rows) :
    csvIter content = rows := by
  have heq := iterRows_eq h rfl (Nat.lt_add_of_pos_right Nat.two_pos)
  rwa [List.nil_append] at heq

/-! ## The readers -/

theorem csvParse_eq {content : List Char} (hcontent : content ≠ []) : csvParse content =
    (parseTokens (Lexer.init content).budget (.init content) [] []).map fun rows => ⟨none, rows⟩ :=
  if_neg hcontent

/-- Fed bytes are read as they are scanned; where quotes and line ends stand as they should, the
lexer reads the same rows; and the iterator has the rows of the document. -/
theorem readers_agree (content : List Char) :
    (∀ opts, streamRows content opts = scanRows content opts) ∧
      (content ≠ [] → '\x00' ∉ content → tidy .start content = true →
        (csvParse content).toOption =
          (scanRows content none).toOption.map fun rows => ⟨none, rows⟩) ∧
        ∀ doc, csvParse content = .ok doc → csvIter content = doc.rows := by
  refine ⟨fun opts => ?_, fun hcontent hnul htidy => ?_, fun doc h => ?_⟩
  · exact streamRows_eq content opts
  · rw [csvParse_eq hcontent, ← parseTokens_scanRows hnul htidy]
    cases parseTokens (Lexer.init content).budget (.init content) [] [] <;> rfl
  · have hcontent : content ≠ [] := by
      rintro rfl
      cases h
    rw [csvParse_eq hcontent] at h
    cases hparse : parseTokens (Lexer.init content).budget (.init content) [] [] with
    | error message =>
      rw [hparse] at h
      cases h
    | ok rows =>
      rw [hparse] at h
      cases h
      exact csvIter_eq hparse

theorem readers_agree_quoted :
    (csvParse "a,\"b\"\"\n\"\r\n,".toList).toOption =
      (scanRows "a,\"b\"\"\n\"\r\n,".toList none).toOption.map (fun rows => ⟨none, rows⟩) ∧
    ∃ doc, csvParse "a,\"b\"\"\n\"\r\n,".toList = .ok doc ∧
      csvIter "a,\"b\"\"\n\"\r\n,".toList = doc.rows := by
  obtain ⟨-, hscan, hiter⟩ := readers_agree "a,\"b\"\"\n\"\r\n,".toList
  refine ⟨hscan (by decide) (by decide +kernel) (by decide +kernel), ?_⟩
  have haccepted : (csvParse "a,\"b\"\"\n\"\r\n,".toList).isOk = true := by decide +kernel
  cases hparse : csvParse "a,\"b\"\"\n\"\r\n,".toList with
  | error message =>
    rw [hparse] at haccepted
    cases haccepted
  | ok doc => exact ⟨doc, rfl, hiter doc hparse⟩

/-- A carriage return alone, and no bytes at all, are scanned and fed, but not lexed; the iterator
goes on after what it cannot read. -/
theorem readers_differ :
    (csvParse "a\rb".toList).toOption = none ∧
      (scanRows "a\rb".toList none).toOption = some [["a".toList], ["b".toList]] ∧
        (streamRows "a\rb".toList none).toOption = some [["a".toList], ["b".toList]] ∧
          csvIter "a\rb".toList = [["a".toList], ["b".toList]] ∧
            (csvParse []).toOption = none ∧ (scanRows [] none).toOption = some [] ∧
              (streamRows [] none).toOption = some [] := by
  decide +kernel

end Csv
