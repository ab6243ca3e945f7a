import TurboUtils.Dsv.Arithmetic
import TurboUtils.Lib.Fallible

/-! What the compiler accepts: a join between any two clauses, and columns that exist. -/
namespace Dsv

variable {ν : Type}

/-- The columns of a left side are columns of the filter, and arithmetic has items. -/
def Lhs.InRange (columnCount : ℕ) : Lhs ν → Prop
  | .column index => index < columnCount
  | .arith items => items ≠ [] ∧ ∀ item ∈ items, item.InRange columnCount

def Clause.InRange (columnCount : ℕ) : Clause ν → Prop
  | .text column _ _ => column < columnCount
  | .number lhs _ _ => lhs.InRange columnCount

/-- Clauses that are in range, with a join between any two. -/
structure Plan.Proper (columnCount : ℕ) (plan : Plan ν) : Prop where
  joins : plan.joins.length + 1 = plan.clauses.length
  inRange : ∀ clause ∈ plan.clauses, clause.InRange columnCount

variable {N : Numbers ν} {columns : List Column} {exprParse : ExprParse ν}

theorem findCol_lt {name : List Char} {column : ℕ} (h : findCol columns name = some column) :
    column < columns.length :=
  (List.findIdx?_eq_some_iff_findIdx_eq.1 h).1

theorem resolveItem_ok {item : Item ν (List Char)} {resolved : Item ν ℕ}
    (h : resolveItem columns item = .ok resolved) : resolved.InRange columns.length := by
  cases item with
  | ident name =>
    unfold resolveItem at h
    dsimp only at h
    split at h
    · cases h
    next column hcolumn =>
      split_ifs at h
      cases h
      exact findCol_lt hcolumn
  | _ =>
    cases h
    trivial

theorem resolveItems_ok {items : List (Item ν (List Char))} {resolved : List (Item ν ℕ)}
    (h : resolveItems columns items = .ok resolved) :
    resolved.length = items.length ∧ ∀ item ∈ resolved, item.InRange columns.length := by
  induction items generalizing resolved with
  | nil =>
    cases h
    exact ⟨rfl, nofun⟩
  | cons item items ih =>
    obtain ⟨first, hfirst, h⟩ := Fallible.bind_eq_ok.1 h
    obtain ⟨rest, hrest, h⟩ := Fallible.bind_eq_ok.1 h
    cases h
    obtain ⟨hlength, hrange⟩ := ih hrest
    exact ⟨by rw [List.length_cons, List.length_cons, hlength],
      List.forall_mem_cons.2 ⟨resolveItem_ok hfirst, hrange⟩⟩

theorem parseLhsNumericExpr_ok {text : List Char} {items : List (Item ν ℕ)}
    (h : parseLhsNumericExpr columns exprParse text = .ok items) :
    items ≠ [] ∧ ∀ item ∈ items, item.InRange columns.length := by
  unfold parseLhsNumericExpr at h
  split at h
  · cases h
  · split at h
    · split_ifs at h
    next parsed _ =>
      by_cases hempty : parsed.length = 0
      · rw [if_pos hempty] at h
        cases h
      rw [if_neg hempty] at h
      split at h
      · cases h
      next resolved hresolved =>
        split_ifs at h
        cases h
        obtain ⟨hlength, hrange⟩ := resolveItems_ok hresolved
        refine ⟨fun hnil => hempty ?_, hrange⟩
        rw [← hlength, hnil]
        rfl

theorem parseLhs_ok {text : List Char} {lhs : Lhs ν} {type : ColumnType}
    (h : parseLhs columns exprParse text = .ok (lhs, type)) : lhs.InRange columns.length := by
  have harith : (parseLhsNumericExpr columns exprParse text).map
      (fun items => (Lhs.arith items, ColumnType.number)) = .ok (lhs, type) →
        lhs.InRange columns.length := by
    intro h
    cases hparse : parseLhsNumericExpr columns exprParse text with
    | error message =>
      rw [hparse] at h
      cases h
    | ok items =>
      rw [hparse] at h
      cases h
      exact parseLhsNumericExpr_ok hparse
  unfold parseLhs at h
  split at h
  · split_ifs at h
    · split at h
      · cases h
      next column hcolumn =>
        cases h
        exact findCol_lt hcolumn
    · exact harith h
  · exact harith h

/-! ## What is read is read once -/

theorem length_skipWs_le (text : List Char) : (skipWs text).length ≤ text.length :=
  (List.dropWhile_suffix isSpace).length_le

theorem length_findTopLevelCmp {text before after : List Char} {depth : ℕ} {op : Op}
    (h : findTopLevelCmp depth text = some (before, op, after)) : after.length < text.length := by
  have hop : ∀ {text : List Char} {op : Op} {after : List Char}, parseOp text = some (op, after) →
      after.length < text.length := by
    intro text op after h
    unfold parseOp at h
    split at h <;> cases h <;> simp only [List.length_cons] <;> omega
  induction text generalizing depth before with
  | nil => cases h
  | cons c rest ih =>
    have hlater : ∀ depth, (findTopLevelCmp depth rest).map
        (fun found => (c :: found.1, found.2)) = some (before, op, after) →
          after.length < (c :: rest).length := by
      intro depth h
      obtain ⟨⟨before', op', after'⟩, hfound, heq⟩ := Option.map_eq_some_iff.1 h
      cases heq
      exact (ih hfound).trans (Nat.lt_succ_self _)
    unfold findTopLevelCmp at h
    split_ifs at h
    · exact hlater _ h
    · exact hlater _ h
    · split at h
      next hfound =>
        cases h
        exact hop hfound
      · exact hlater _ h
    · exact hlater _ h

theorem length_stringBody (last : Char) (text : List Char) :
    (stringBody last text).2.1.length ≤ text.length := by
  induction last, text using stringBody.induct with
  | case1 last => simp [stringBody]
  | case2 last rest => simp [stringBody]
  | case3 last c rest body after last' hbody ih =>
    simp only [stringBody, List.length_cons]
    exact ih.trans (Nat.le_add_right _ 2)
  | case4 last c rest hquote hescape body after last' hbody ih =>
    simp only [stringBody, List.length_cons]
    exact ih.trans (Nat.le_succ _)

theorem length_parseStringLit {text body after : List Char}
    (h : parseStringLit text = some (body, after)) : after.length ≤ text.length := by
  unfold parseStringLit at h
  split at h
  next rest =>
    have hle := length_stringBody '"' rest
    dsimp only at h
    split_ifs at h
    cases h
    exact hle.trans (Nat.le_succ _)
  · cases h

theorem length_unsigned (text : List Char) : (match text with
    | '+' :: rest => (['+'], rest)
    | '-' :: rest => (['-'], rest)
    | _ => ([], text)).2.length ≤ text.length := by
  split
  · exact Nat.le_succ _
  · exact Nat.le_succ _
  · exact le_rfl

theorem length_parseNumberToken {text token after : List Char}
    (h : parseNumberToken text = some (token, after)) : after.length ≤ text.length := by
  have hdrop : ∀ text : List Char, (text.dropWhile isDigit).length ≤ text.length := fun text =>
    (List.dropWhile_suffix isDigit).length_le
  unfold parseNumberToken at h
  dsimp only at h
  split_ifs at h
  cases h
  refine le_trans ?_ ((hdrop _).trans (length_unsigned text))
  split
  next rest heq =>
    have hlength := congrArg List.length heq
    rw [List.length_cons] at hlength
    exact (hdrop rest).trans (hlength ▸ Nat.le_succ _)
  · exact le_rfl

theorem parseRhs_ok {lhs : Lhs ν} {type : ColumnType} {op : Op} {text rest : List Char}
    {clause : Clause ν} (hlhs : lhs.InRange columns.length)
    (h : parseRhs N lhs type op text = .ok (clause, rest)) :
    clause.InRange columns.length ∧ rest.length ≤ text.length := by
  unfold parseRhs at h
  by_cases hquote : text.head? = some '"'
  · rw [if_pos hquote] at h
    split at h
    · cases h
    next body after hliteral =>
      cases lhs with
      | arith items => cases h
      | column column =>
        dsimp only at h
        split_ifs at h
        cases h
        exact ⟨hlhs, length_parseStringLit hliteral⟩
  · rw [if_neg hquote] at h
    split at h
    · cases h
    next token after hnumber =>
      cases lhs with
      | arith items =>
        cases h
        exact ⟨hlhs, length_parseNumberToken hnumber⟩
      | column column =>
        dsimp only at h
        split_ifs at h
        cases h
        exact ⟨hlhs, length_parseNumberToken hnumber⟩

theorem parseClause_ok {text rest : List Char} {clause : Clause ν}
    (h : parseClause N columns exprParse text = .ok (clause, rest)) :
    clause.InRange columns.length ∧ rest.length < text.length := by
  unfold parseClause at h
  split at h
  · cases h
  next before op after hcmp =>
    dsimp only at h
    split_ifs at h
    split at h
    · cases h
    next lhs type hlhs =>
      obtain ⟨hrange, hle⟩ := parseRhs_ok (parseLhs_ok hlhs) h
      exact ⟨hrange, hle.trans_lt ((length_skipWs_le after).trans_lt (length_findTopLevelCmp hcmp))⟩

/-! ## The loop -/

/-- What holds of every clause that is parsed holds of the clauses of a plan. -/
theorem compileLoop_clauses {P : Clause ν → Prop} (hclause : ∀ {text rest clause},
      parseClause N columns exprParse text = .ok (clause, rest) → P clause)
    {fuel : ℕ} {text : List Char} {plan plan' : Plan ν} (hplan : ∀ clause ∈ plan.clauses, P clause)
    (h : compileLoop N columns exprParse fuel text plan = .ok plan') :
    ∀ clause ∈ plan'.clauses, P clause := by
  induction fuel generalizing text plan with
  | zero => cases h
  | succ fuel ih =>
    unfold compileLoop at h
    dsimp only at h
    by_cases htext : skipWs text = []
    · rw [if_pos htext] at h
      cases h
    rw [if_neg htext] at h
    split at h
    · cases h
    next clause rest hparse =>
      have hplan' : ∀ c ∈ plan.clauses ++ [clause], P c := by
        intro c hc
        rcases List.mem_append.1 hc with hc | hc
        · exact hplan c hc
        · rw [List.mem_singleton.1 hc]
          exact hclause hparse
      by_cases hrest : skipWs rest = []
      · rw [if_pos hrest] at h
        cases h
        exact hplan'
      rw [if_neg hrest] at h
      split at h
      · cases h
      next join rest' hjoin => exact ih hplan' h

theorem compileLoop_joins {fuel : ℕ} {text : List Char} {plan plan' : Plan ν}
    (hjoins : plan.joins.length = plan.clauses.length)
    (h : compileLoop N columns exprParse fuel text plan = .ok plan') :
    plan'.joins.length + 1 = plan'.clauses.length := by
  induction fuel generalizing text plan with
  | zero => cases h
  | succ fuel ih =>
    unfold compileLoop at h
    dsimp only at h
    by_cases htext : skipWs text = []
    · rw [if_pos htext] at h
      cases h
    rw [if_neg htext] at h
    split at h
    · cases h
    next clause rest hparse =>
      by_cases hrest : skipWs rest = []
      · rw [if_pos hrest] at h
        cases h
        rw [List.length_append, List.length_singleton, hjoins]
      rw [if_neg hrest] at h
      split at h
      · cases h
      next join rest' hjoin =>
        refine ih ?_ h
        rw [List.length_append, List.length_append, hjoins]
        rfl

theorem compile_proper {expression : List Char} {plan : Plan ν}
    (h : compile N columns exprParse expression = .ok plan) : plan.Proper columns.length where
  joins := compileLoop_joins rfl h
  inRange := compileLoop_clauses (fun hclause => (parseClause_ok hclause).1)
    (fun _ hmem => absurd hmem List.not_mem_nil) h

/-- A number on the right side is one that `dsv_fast_atof` has read. -/
def Clause.ReadRhs (N : Numbers ν) : Clause ν → Prop
  | .text _ _ _ => True
  | .number _ _ rhs => ∃ token, rhs = N.atof token

theorem parseRhs_readRhs {lhs : Lhs ν} {type : ColumnType} {op : Op} {text rest : List Char}
    {clause : Clause ν} (h : parseRhs N lhs type op text = .ok (clause, rest)) :
    clause.ReadRhs N := by
  unfold parseRhs at h
  by_cases hquote : text.head? = some '"'
  · rw [if_pos hquote] at h
    split at h
    · cases h
    · cases lhs with
      | arith items => cases h
      | column column =>
        dsimp only at h
        split_ifs at h
        cases h
        trivial
  · rw [if_neg hquote] at h
    split at h
    · cases h
    next token after hnumber =>
      cases lhs with
      | arith items =>
        cases h
        exact ⟨token, rfl⟩
      | column column =>
        dsimp only at h
        split_ifs at h
        cases h
        exact ⟨token, rfl⟩

theorem compile_readRhs {expression : List Char} {plan : Plan ν}
    (h : compile N columns exprParse expression = .ok plan) :
    ∀ clause ∈ plan.clauses, clause.ReadRhs N := by
  refine compileLoop_clauses (fun hclause => ?_) (fun _ hmem => absurd hmem List.not_mem_nil) h
  unfold parseClause at hclause
  split at hclause
  · cases hclause
  · dsimp only at hclause
    split_ifs at hclause
    split at hclause
    · cases hclause
    · exact parseRhs_readRhs hclause

end Dsv
