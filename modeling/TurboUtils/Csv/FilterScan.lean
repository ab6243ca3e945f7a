import TurboUtils.Csv.Lexer
import TurboUtils.Csv.Scan
import TurboUtils.Dsv.Double

/-! The loops over the tokens of a content, with the state in which they leave the lexer. -/
namespace Csv

section Tokens

variable {σ : Type}

/-- A loop over the tokens that ends with them, at an error of the lexer, or where it gives up: how
it leaves the lexer, and what it has found. -/
def readTokens (onToken : Lexer → σ → Token → Except String σ) (fail : String → String) :
    ℕ → Lexer → σ → Lexer × Except String σ
  | 0, l, _ => (l, .error "")
  | fuel + 1, l, s =>
      match l.next with
      | (l, .token token) =>
          match onToken l s token with
          | .ok s => readTokens onToken fail fuel l s
          | .error message => (l, .error message)
      | (l, .done) => (l, .ok s)
      | (l, .error message) => (l, .error (fail message))

def readContent (onToken : Lexer → σ → Token → Except String σ) (fail : String → String)
    (content : List Char) (s : σ) : Lexer × Except String σ :=
  readTokens onToken fail (Lexer.init content).budget (.init content) s

/-- Two loops over the same tokens, of which the first goes on where the second does, end alike. -/
theorem readTokens_related {τ : Type} {R : σ → τ → Prop}
    (onA : Lexer → σ → Token → Except String σ) (failA : String → String)
    {onB : Lexer → τ → Token → Except String τ}
    (hstep : ∀ {l a b token b'}, R a b → onB l b token = .ok b' →
      ∃ a', onA l a token = .ok a' ∧ R a' b')
    {failB : String → String} {fuel : ℕ} {l l' : Lexer} {a : σ} {b b' : τ}
    (h : readTokens onB failB fuel l b = (l', .ok b')) (hR : R a b) :
    ∃ a', readTokens onA failA fuel l a = (l', .ok a') ∧ R a' b' := by
  induction fuel generalizing l a b with
  | zero => cases h
  | succ fuel ih =>
    rw [readTokens] at h ⊢
    cases hnext : l.next with
    | mk l₁ lexed =>
      rw [hnext] at h
      cases lexed with
      | token token =>
        dsimp only at h ⊢
        cases hb : onB l₁ b token with
        | error message =>
          rw [hb] at h
          cases h
        | ok b₁ =>
          obtain ⟨a₁, ha, hR₁⟩ := hstep hR hb
          rw [hb] at h
          rw [ha]
          exact ih h hR₁
      | done =>
        cases h
        exact ⟨a, rfl, hR⟩
      | error message => cases h

end Tokens

/-- A token in the loop of `csv_parse_opts`. -/
def parseToken : List Row × Row → Token → List Row × Row
  | (rows, row), .field value needsUnescape => (rows, row ++ [fieldText value needsUnescape])
  | (rows, row), .comma => (rows, row)
  | (rows, row), .newline => (pushRow rows row, [])

/-- The loop of `csv_parse_opts`. -/
def parseContent (content : List Char) : Lexer × Except String (List Row × Row) :=
  readContent (fun _ s token => .ok (parseToken s token)) id content ([], [])

theorem parseTokens_readTokens (fuel : ℕ) (l : Lexer) (row : Row) (rows : List Row) :
    parseTokens fuel l row rows =
      (readTokens (fun _ s token => .ok (parseToken s token)) id fuel l (rows, row)).2.map
        fun (rows, row) => pushRow rows row := by
  induction fuel generalizing l row rows with
  | zero => rfl
  | succ fuel ih =>
    rw [parseTokens, readTokens]
    cases l.next with
    | mk l lexed =>
      cases lexed with
      | token token =>
        cases token with
        | field value needsUnescape => exact ih l _ rows
        | comma => exact ih l row rows
        | newline => exact ih l [] _
      | done => rfl
      | error message => rfl

/-! The direct scan of csv_parser.c: rows are filtered and projected while they are lexed. A `double`
is an exact decimal. -/

/-- `CSV_SCAN_MAX_COLUMNS`. -/
def scanMaxColumns : ℕ := 256

/-- `CSV_SCAN_MAX_PREDICATES`. -/
def scanMaxPredicates : ℕ := 64

/-- `csv_scan_value_type_t`, and what else an `int` may hold. -/
inductive ScanType where
  | text
  | int64
  | double
  | other (raw : ℤ)
  deriving DecidableEq, Repr

/-- `csv_scan_op_t`, and what else an `int` may hold. -/
inductive ScanOp where
  | known (op : Dsv.Op)
  | other (raw : ℤ)
  deriving DecidableEq, Repr

/-- `csv_scan_predicate_t`. -/
structure ScanPredicate where
  column : ℕ
  type : ScanType
  op : ScanOp
  integer : ℤ
  number : Dsv.Double
  text : Option (List Char)

/-- `csv_scan_projection_t`. -/
structure ScanProjection where
  column : ℕ
  type : ScanType

/-- `csv_scan_value_t`. -/
inductive ScanValue where
  | text (text : List Char)
  | int64 (integer : ℤ)
  | double (number : ℚ)

/-- `csv_scan_plan_t`; the callback answers with its context unless it fails. -/
structure ScanPlan (σ : Type) where
  predicates : List ScanPredicate
  projections : List ScanProjection
  onMatch : Option (σ → ℕ → List ScanValue → Option σ)

/-- `csv_scan_field_t`, of a field that is present. -/
structure ScanField where
  value : List Char
  needsUnescape : Bool

/-- What `csv_scan_finalize_row` makes of a field. -/
def ScanField.orEmpty (field : Option ScanField) : ScanField := field.getD ⟨[], false⟩

/-- `csv_scan_parse_int64`. -/
def scanParseInt64 (text : List Char) : Option ℤ := Dsv.parseInt64 text

/-- `csv_scan_parse_double`. -/
def scanParseDouble (text : List Char) : Option ℚ := Dsv.parseDouble text

/-- The loop of `csv_scan_text_compare` over a field with doubled quotes. -/
def compareUnescaped : List Char → List Char → Ordering
  | [], [] => .eq
  | [], _ :: _ => .lt
  | _ :: _, [] => .gt
  | source :: rest, c :: rhs =>
      if source ≠ c then if source.toNat < c.toNat then .lt else .gt
      else
        match rest with
        | d :: after =>
            if source = '"' ∧ d = '"' then compareUnescaped after rhs
            else compareUnescaped (d :: after) rhs
        | [] => compareUnescaped [] rhs

/-- `csv_scan_text_compare`. -/
def scanTextCompare (field : ScanField) (rhs : List Char) : Ordering :=
  if field.needsUnescape then compareUnescaped field.value rhs else Dsv.cmpBytes field.value rhs

/-- `csv_scan_compare_result`. -/
def ScanOp.holds : ScanOp → Ordering → Bool
  | .known op, comparison => op.holds comparison
  | .other _, _ => false

/-- The comparison of two numbers in `csv_scan_predicate_matches`. -/
def scanNumberCompare (number rhs : Dsv.Double) : Ordering :=
  if number.compare .eq rhs then .eq else if number.compare .lt rhs then .lt else .gt

/-- `csv_scan_predicate_matches`. -/
def ScanPredicate.matches (predicate : ScanPredicate) (field : ScanField) : Option Bool :=
  match predicate.type with
  | .int64 =>
      (if field.needsUnescape then none else scanParseInt64 field.value).map fun integer =>
        predicate.op.holds (Ord.compare integer predicate.integer)
  | .double =>
      (if field.needsUnescape then none else scanParseDouble field.value).map fun number =>
        predicate.op.holds (scanNumberCompare (.finite number) predicate.number)
  | .text => some (predicate.op.holds (scanTextCompare field (predicate.text.getD [])))
  | .other _ => none

/-- `csv_scan_decode`. -/
def scanDecode (field : ScanField) : List Char := fieldText field.value field.needsUnescape

/-- What `csv_scan_fail` leaves as the error. -/
def scanMessage (message : String) : String := s!"csv scan: {message}"

def scanFail {α : Type} (message : String) : Except String α := .error (scanMessage message)

/-- The loop of `csv_scan_finalize_row` over the predicates. -/
def predicatesMatch : List ScanPredicate → List (Option ScanField) → Except String Bool
  | predicate :: predicates, field :: fields =>
      match predicate.matches (.orEmpty field) with
      | none => scanFail "invalid integer predicate field"
      | some false => .ok false
      | some true => predicatesMatch predicates fields
  | _, _ => .ok true

/-- A projected value in `csv_scan_finalize_row`. -/
def ScanProjection.project (projection : ScanProjection) (field : ScanField) :
    Except String ScanValue :=
  match projection.type with
  | .int64 =>
      match if field.needsUnescape then none else scanParseInt64 field.value with
      | some integer => .ok (.int64 integer)
      | none => scanFail "invalid integer projection field"
  | .double =>
      match if field.needsUnescape then none else scanParseDouble field.value with
      | some number => .ok (.double number)
      | none => scanFail "invalid numeric projection field"
  | .text => .ok (.text (scanDecode field))
  | .other _ => scanFail "invalid projection type"

/-- The loop of `csv_scan_finalize_row` over the projections. -/
def projectAll : List ScanProjection → List (Option ScanField) → Except String (List ScanValue)
  | projection :: projections, field :: fields => do
      let value ← projection.project (.orEmpty field)
      let values ← projectAll projections fields
      .ok (value :: values)
  | _, _ => .ok []

/-- The checks of `csv_filter_scan_opts` on the predicates. -/
def checkPredicates (predicates : List ScanPredicate) : Except String Unit :=
  predicates.forM fun predicate =>
    if scanMaxColumns ≤ predicate.column ∨ (predicate.type = .text ∧ predicate.text = none) ∨
        predicate.type matches .other _ ∨ predicate.op matches .other _ then
      scanFail "invalid predicate"
    else .ok ()

/-- The checks of `csv_filter_scan_opts` on the projections, behind the columns that have one. -/
def checkProjections (columns : List ℕ) : List ScanProjection → Except String Unit
  | [] => .ok ()
  | projection :: projections =>
      if scanMaxColumns ≤ projection.column ∨ projection.column ∈ columns ∨
          projection.type matches .other _ then scanFail "invalid projection"
      else checkProjections (projection.column :: columns) projections

/-- The variables of the loop of `csv_filter_scan_opts`. -/
structure FilterScan (σ : Type) where
  column : ℕ
  rowIndex : ℕ
  matchCount : ℕ
  hasField : Bool
  skipHeader : Bool
  predicateFields : List (Option ScanField)
  projectionFields : List (Option ScanField)
  ctx : σ

section FilterScan

variable {σ : Type} (plan : ScanPlan σ)

namespace ScanPlan

def predicateColumns : List ℕ := plan.predicates.map ScanPredicate.column

def projectionColumns : List ℕ := plan.projections.map ScanProjection.column

/-- `max_selected_column`. -/
def maxSelectedColumn : ℕ := (plan.predicateColumns ++ plan.projectionColumns).foldl max 0

/-- `has_selected_columns`. -/
def hasSelectedColumns : Bool := !plan.predicates.isEmpty || !plan.projections.isEmpty

/-- The checks of `csv_filter_scan_opts`. -/
def check (opts : Option Options) : Except String Unit :=
  if scanMaxPredicates < plan.predicates.length ∨ scanMaxColumns < plan.projections.length ∨
      opts.any (fun o => (o.delimiter ≠ '\x00' && o.delimiter ≠ ',') ||
        (o.quote ≠ '\x00' && o.quote ≠ '"')) then
    scanFail "invalid plan or unsupported parser options"
  else do
    checkPredicates plan.predicates
    checkProjections [] plan.projections

end ScanPlan

namespace FilterScan

def init (opts : Option Options) (ctx : σ) : FilterScan σ where
  column := 0
  rowIndex := 0
  matchCount := 0
  hasField := false
  skipHeader := opts.any Options.hasHeader
  predicateFields := plan.predicates.map fun _ => none
  projectionFields := plan.projections.map fun _ => none
  ctx := ctx

variable (s : FilterScan σ)

def keep (columns : List ℕ) (field : ScanField) (fields : List (Option ScanField)) :
    List (Option ScanField) :=
  columns.zipWith (fun column old => if column = s.column then some field else old) fields

def field (field : ScanField) : FilterScan σ :=
  let kept := plan.hasSelectedColumns && s.column ≤ plan.maxSelectedColumn
  { s with
    predicateFields :=
      if kept then s.keep plan.predicateColumns field s.predicateFields else s.predicateFields
    projectionFields :=
      if kept then s.keep plan.projectionColumns field s.projectionFields else s.projectionFields
    column := s.column + 1
    hasField := true }

/-- `csv_scan_finalize_row`. -/
def finalizeRow : Except String (FilterScan σ) := do
  if ← predicatesMatch plan.predicates s.predicateFields then
    let values ← projectAll plan.projections s.projectionFields
    match plan.onMatch with
    | none => .ok { s with matchCount := s.matchCount + 1 }
    | some onMatch =>
        match onMatch s.ctx s.rowIndex values with
        | none => scanFail "match callback failed"
        | some ctx => .ok { s with matchCount := s.matchCount + 1, ctx := ctx }
  else .ok s

def newline : Except String (FilterScan σ) := do
  let s ← (if s.skipHeader then .ok { s with skipHeader := false }
    else do
      let s ← s.finalizeRow plan
      .ok { s with rowIndex := s.rowIndex + 1 })
  .ok { s with
    column := 0
    hasField := false
    predicateFields := plan.predicates.map fun _ => none
    projectionFields := plan.projections.map fun _ => none }

/-- A token in the loop of `csv_filter_scan_opts`. -/
def token : Token → Except String (FilterScan σ)
  | .field value needsUnescape => .ok (s.field plan ⟨value, needsUnescape⟩)
  | .comma => .ok s
  | .newline => if s.hasField then s.newline plan else .ok s

def finish : Except String (FilterScan σ) :=
  if s.hasField && !s.skipHeader then s.finalizeRow plan else .ok s

end FilterScan

end FilterScan

/-! ## The scan -/

section FilterScan

variable {σ : Type} (content : List Char) (opts : Option Options) (plan : ScanPlan σ) (ctx : σ)

/-- The loop of `csv_filter_scan_opts`. -/
def filterTokens : Lexer × Except String (FilterScan σ) :=
  readContent (fun _ s token => s.token plan token) scanMessage content (.init plan opts ctx)

/-- `csv_filter_scan_opts`: the number of matches, and the context that the callbacks leave. -/
def csvFilterScanOpts : Except String (ℕ × σ) := do
  plan.check opts
  let s ← (filterTokens content opts plan ctx).2
  let s ← s.finish plan
  .ok (s.matchCount, s.ctx)

end FilterScan

end Csv
