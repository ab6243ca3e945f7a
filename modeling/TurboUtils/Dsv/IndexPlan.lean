import TurboUtils.Dsv.Index

/-! `dsv_filter_index_seek`: the clauses of a filter become ranges of an index. A range that has no
text yet is a query without one. -/
namespace Dsv

namespace Query

variable (query : Query) (value : ℚ) (inclusive : Bool)

/-- `dsv_index_apply_lower`. -/
def applyLower : Query :=
  match query.lower with
  | none => { query with lower := some ⟨value, inclusive⟩ }
  | some lower =>
      if value > lower.number ∨ (value = lower.number ∧ inclusive = false ∧ lower.inclusive) then
        { query with lower := some ⟨value, inclusive⟩ }
      else query

/-- `dsv_index_apply_upper`. -/
def applyUpper : Query :=
  match query.upper with
  | none => { query with upper := some ⟨value, inclusive⟩ }
  | some upper =>
      if value < upper.number ∨ (value = upper.number ∧ inclusive = false ∧ upper.inclusive) then
        { query with upper := some ⟨value, inclusive⟩ }
      else query

def all : Query := ⟨none, none, none⟩

end Query

/-- `dsv_index_plan_append`. -/
def planAppend (ranges : List Query) (range : Query) : Except String (List Query) :=
  if range.isEmpty then .ok ranges
  else if maxQueryRanges ≤ ranges.length then
    .error "index predicate exceeds DSV_INDEX_MAX_QUERY_RANGES"
  else .ok (ranges ++ [range])

/-- A round of the loop of `dsv_index_plan_intersect_text`. -/
def planIntersectTextRange (op : Op) (value : List Char) (output : List Query) (range : Query) :
    Except String (List Query) :=
  match range.textEquals with
  | none =>
      if op = .ne then .error "text != requires an existing equality-constrained index prefix"
      else .ok (output ++ [{ range with textEquals := some value }])
  | some text =>
      if (op = .eq ∧ text = value) ∨ (op = .ne ∧ text ≠ value) then .ok (output ++ [range])
      else .ok output

/-- `dsv_index_plan_intersect_text`. -/
def planIntersectText (op : Op) (value : List Char) (ranges : List Query) :
    Except String (List Query) :=
  if op ≠ .eq ∧ op ≠ .ne then .error "text index predicates support only == and !="
  else ranges.foldlM (planIntersectTextRange op value) []

/-- A round of the loop of `dsv_index_plan_intersect_number`. -/
def planIntersectRange (op : Op) (value : ℚ) (next : List Query) (range : Query) :
    Except String (List Query) :=
  match op with
  | .eq => planAppend next ((range.applyLower value true).applyUpper value true)
  | .ne => do
      let next ← planAppend next (range.applyUpper value false)
      planAppend next (range.applyLower value false)
  | .gt => planAppend next (range.applyLower value false)
  | .ge => planAppend next (range.applyLower value true)
  | .lt => planAppend next (range.applyUpper value false)
  | .le => planAppend next (range.applyUpper value true)

/-- `dsv_index_plan_intersect_number`. -/
def planIntersectNumber (op : Op) (value : ℚ) (ranges : List Query) :
    Except String (List Query) :=
  ranges.foldlM (planIntersectRange op value) []

section Clauses

variable (textColumn numberColumn : ℕ)

/-- `dsv_index_plan_intersect_clause`. -/
def planIntersectClause (ranges : List Query) : Clause ℚ → Except String (List Query)
  | .text column op rhs =>
      if column = textColumn then planIntersectText op rhs ranges
      else .error "filter contains a predicate not covered by this index"
  | .number (.column column) op rhs =>
      if column = numberColumn then planIntersectNumber op rhs ranges
      else .error "filter contains a predicate not covered by this index"
  | .number (.arith _) _ _ => .error "index seek requires simple column predicates"

/-- `dsv_index_plan_union_clause`. -/
def planUnionClause (ranges : List Query) : Clause ℚ → Except String (List Query)
  | .text column op rhs =>
      if column = textColumn then
        if op ≠ .eq then .error "OR on the text index prefix requires equality"
        else planAppend ranges { Query.all with textEquals := some rhs }
      else .error "filter contains an OR predicate not covered by this index"
  | .number (.column column) op rhs =>
      if column = numberColumn then do
        let additions ← planIntersectNumber op rhs [.all]
        if maxQueryRanges - additions.length < ranges.length then
          .error "index predicate exceeds DSV_INDEX_MAX_QUERY_RANGES"
        else .ok (ranges ++ additions)
      else .error "filter contains an OR predicate not covered by this index"
  | .number (.arith _) _ _ => .error "index seek requires simple column predicates"

/-- The loop of `dsv_filter_index_seek` over the clauses. -/
def planLoop (joins : List Join) : List (Clause ℚ) → ℕ → List Query → Except String (List Query)
  | [], _, ranges => .ok ranges
  | clause :: clauses, i, ranges =>
      let planned := if i = 0 ∨ joins[i - 1]? = some .and then
          planIntersectClause textColumn numberColumn ranges clause
        else planUnionClause textColumn numberColumn ranges clause
      planned >>= planLoop joins clauses (i + 1)

end Clauses

/-- `dsv_filter_index_seek` of an index that is open. -/
def filterIndexSeek (qsort : Qsort RangeCursor.compare) (plan : Plan ℚ) (index : Index) :
    Except String Cursor := do
  let ranges ← planLoop index.textColumn index.numberColumn plan.joins plan.clauses 0 [.all]
  if ranges.any fun range => range.textEquals.isNone then
    .error "every OR range must constrain the leading text index column"
  else if ranges = [] then .ok []
  else
    match seekMany qsort index ranges with
    | none => .error "failed to seek DSV index"
    | some cursor => .ok cursor

end Dsv
