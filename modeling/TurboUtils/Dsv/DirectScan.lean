import TurboUtils.Csv.ScannedRows
import TurboUtils.Csv.Serialize
import TurboUtils.Dsv.Located
import TurboUtils.Dsv.Preservation

/-! The three ways in which dsv_filter.c reads a row: from a document, from its fields, and while it is
scanned. -/
namespace Dsv

open QueryVm
open Csv (ScanPredicate ScanProjection ScanValue callMatches)

/-- `csv_get_double`. -/
def getDouble (fields : Csv.Row) (column : ℕ) (default : Double) : Double :=
  match fields[column]? with
  | none => default
  | some value => if value = [] then default else strtod value

/-- The rows that `dsv_filter_check_row` reads. -/
def docRow (fields : Csv.Row) : Row Double where
  text column := fields.getD column []
  number column := getDouble fields column (.finite 0)

/-- A `dsv_filter_t` that is compiled, with its slice if the query VM can run it. -/
structure Filter where
  columnCount : ℕ
  plan : Plan Double
  slice : Option (Slice Double)
  limits : Limits

/-- `dsv_filter_compile_impl`, which `dsv_filter_compile_ex` asks for a slice. -/
def compileFilter (columns : List Column) (exprParse : ExprParse Double) (memory : Bool)
    (limits : Option Limits) (strict : Bool) (expression : List Char) : Option Filter :=
  (compile doubles columns exprParse expression).toOption.bind fun plan =>
    let limits := limits.getD defaultLimits
    let slice := lowerToQvm plan memory limits
    if slice.isNone && strict then none else some ⟨columns.length, plan, slice, limits⟩

namespace Filter

variable (filter : Filter)

/-- The answer of a filter, by the query VM or without it. -/
def check (row : Row Double) : ℤ :=
  match (match filter.slice with
    | some slice => checkQvm doubles row slice filter.limits
    | none => checkNative doubles row filter.columnCount filter.plan) with
  | none => -1
  | some ok => if ok then 1 else 0

/-- `dsv_filter_check_row`. -/
def checkRow (doc : Csv.Doc) (rowIndex : ℕ) : ℤ :=
  match doc.rows[rowIndex]? with
  | none => -1
  | some fields => filter.check (docRow fields)

/-- `dsv_filter_check_values`. -/
def checkValues (fields : Csv.Row) : ℤ := filter.check (valuesRow doubles fields)

end Filter

/-- A predicate of `build_direct_scan_plan`. -/
def Clause.scanPredicate : Clause Double → Option ScanPredicate
  | .text column op rhs => some ⟨column, .text, .known op, 0, .finite 0, some rhs⟩
  | .number (.column column) op rhs => some ⟨column, .double, .known op, 0, rhs, none⟩
  | .number (.arith _) _ _ => none

/-- `build_direct_scan_plan`: the predicates, if the plan is compatible. -/
def buildDirectScanPlan (plan : Plan Double) : Option (List ScanPredicate) :=
  if plan.clauses = [] then none
  else if (List.range (plan.clauses.length - 1)).all fun i => plan.joins[i]? = some .and then
    plan.clauses.mapM Clause.scanPredicate
  else none

/-- `dsv_filter_scan`. -/
def filterScan {σ : Type} (filter : Filter) (content : List Char) (opts : Option Csv.Options)
    (projections : List ScanProjection) (onMatch : Option (σ → ℕ → List ScanValue → Option σ))
    (ctx : σ) : Except String (ℕ × σ) :=
  match buildDirectScanPlan filter.plan with
  | none => .error "direct scan requires simple predicates joined only by AND"
  | some predicates => Csv.csvFilterScanOpts content opts ⟨predicates, projections, onMatch⟩ ctx

/-! ## Compiled filters -/

/-- What compiling makes: clauses in range, numbers that have been read, and the slice that they are
lowered to. -/
structure Filter.Made (filter : Filter) : Prop where
  proper : filter.plan.Proper filter.columnCount
  readRhs : ∀ clause ∈ filter.plan.clauses, clause.ReadRhs doubles
  slice : ∀ slice ∈ filter.slice, ∃ memory, lowerToQvm filter.plan memory filter.limits = some slice

section Compiled

variable {columns : List Column} {exprParse : ExprParse Double} {memory : Bool}
  {limits : Option Limits} {strict : Bool} {expression : List Char} {filter : Filter}

theorem compileFilter_eq_some
    (h : compileFilter columns exprParse memory limits strict expression = some filter) :
    compile doubles columns exprParse expression = .ok filter.plan ∧
      filter.columnCount = columns.length ∧ filter.limits = limits.getD defaultLimits ∧
        filter.slice = lowerToQvm filter.plan memory filter.limits := by
  unfold compileFilter at h
  obtain ⟨plan, hplan, h⟩ := Option.bind_eq_some_iff.1 h
  dsimp only at h
  split_ifs at h
  cases h
  refine ⟨?_, rfl, rfl, rfl⟩
  cases hcompile : compile doubles columns exprParse expression with
  | error message =>
    rw [hcompile] at hplan
    cases hplan
  | ok plan' =>
    rw [hcompile] at hplan
    cases hplan
    rfl

theorem compileFilter_made
    (h : compileFilter columns exprParse memory limits strict expression = some filter) :
    filter.Made := by
  obtain ⟨hcompile, hcount, -, hslice⟩ := compileFilter_eq_some h
  refine ⟨?_, compile_readRhs hcompile, fun slice hsome => ⟨memory, hslice.symm.trans hsome⟩⟩
  rw [hcount]
  exact compile_proper hcompile

/-- A run of the slice does not run out of steps. -/
def Filter.Covered (filter : Filter) : Prop :=
  ∀ slice ∈ filter.slice, slice.insns.length ≤ filter.limits.maxSteps

theorem compileFilter_covered
    (h : compileFilter columns exprParse memory none strict expression = some filter) :
    filter.Covered := by
  obtain ⟨hcompile, -, hlimits, hslice⟩ := compileFilter_eq_some h
  intro slice hsome
  have hlower : lowerToQvm filter.plan memory filter.limits = some slice := hslice.symm.trans hsome
  have hverify := (lowerToQvm_eq_some doubles ⟨fun _ => [], fun _ => .finite 0⟩
    (compile_proper hcompile).inRange hlower).1
  rw [hlimits] at hverify ⊢
  exact (verifySlice_within hverify).instructions

end Compiled

theorem Filter.check_eq {filter : Filter} (hmade : filter.Made) (hcovered : filter.Covered)
    (row : Row Double) : filter.check row =
      match checkNative doubles row filter.columnCount filter.plan with
      | none => -1
      | some ok => if ok then 1 else 0 := by
  unfold Filter.check
  cases hslice : filter.slice with
  | none => rfl
  | some slice =>
    obtain ⟨memory, hlower⟩ := hmade.slice slice hslice
    dsimp only
    rw [checkQvm_eq doubles row hmade.proper hlower (hcovered slice hslice)]

/-! ## Rows of a document and of fields -/

section Congr

variable {ν : Type} {N : Numbers ν} {row row' : Row ν} {columnCount : ℕ}

theorem evalClause_congr (htext : ∀ column, row.text column = row'.text column)
    (hnumber : ∀ column < columnCount, row.number column = row'.number column) (clause : Clause ν) :
    evalClause N row columnCount clause = evalClause N row' columnCount clause := by
  cases clause with
  | text column op rhs => rw [evalClause, evalClause, htext]
  | number lhs op rhs =>
    suffices h : evalLhs N row columnCount lhs = evalLhs N row' columnCount lhs by
      rw [evalClause, evalClause, h]
    cases lhs with
    | column column =>
      rw [evalLhs, evalLhs]
      split_ifs with hcolumn
      · rfl
      · rw [hnumber column (not_le.1 hcolumn)]
    | arith items =>
      have hitem : evalItem N row columnCount = evalItem N row' columnCount := by
        funext cap stack item
        cases item with
        | ident column =>
          rw [evalItem, evalItem]
          by_cases hcolumn : column < columnCount
          · rw [hnumber column hcolumn]
          · simp [not_lt.1 hcolumn]
        | _ => rfl
      rw [evalLhs, evalLhs, hitem]

/-- Rows with the same texts, and the same numbers in the columns of the filter, get one answer. -/
theorem checkNative_congr (htext : ∀ column, row.text column = row'.text column)
    (hnumber : ∀ column < columnCount, row.number column = row'.number column) (plan : Plan ν) :
    checkNative N row columnCount plan = checkNative N row' columnCount plan := by
  have hloop : ∀ (clauses : List (Clause ν)) (i : ℕ) (result : Bool),
      checkLoop N row columnCount plan.joins clauses i result =
        checkLoop N row' columnCount plan.joins clauses i result := by
    intro clauses
    induction clauses with
    | nil => exact fun _ _ => rfl
    | cons clause clauses ih =>
      intro i result
      rw [checkLoop, checkLoop, evalClause_congr htext hnumber clause]
      congr 1
      funext ok
      exact ih _ _
  exact hloop plan.clauses 0 false

end Congr

/-! ## Rows that are scanned -/

theorem Double.compare_finite (a : ℚ) (op : Op) (b : ℚ) :
    (finite a).compare op (finite b) = op.holds (Ord.compare a b) := rfl

theorem scanNumberCompare_finite (a b : ℚ) :
    Csv.scanNumberCompare (.finite a) (.finite b) = Ord.compare a b := by
  rw [Csv.scanNumberCompare, Double.compare_finite, Double.compare_finite]
  cases Ord.compare a b <;> rfl

/-- A predicate says of a row what its clause says. -/
theorem scanPredicate_holdsOf {clause : Clause Double} {predicate : ScanPredicate}
    (h : clause.scanPredicate = some predicate) {columnCount : ℕ}
    (hrange : clause.InRange columnCount) (hrhs : clause.ReadRhs doubles) (fields : Csv.Row) :
    evalClause doubles (valuesRow doubles fields) columnCount clause =
      some (predicate.holdsOf (fields.getD predicate.column [])) := by
  match clause with
  | .text column op rhs =>
    cases h
    rfl
  | .number (.column column) op rhs =>
    obtain ⟨token, rfl⟩ := hrhs
    cases h
    have hcolumn : ¬columnCount ≤ column := Nat.not_le.2 hrange
    rw [evalClause, evalLhs, if_neg hcolumn]
    unfold ScanPredicate.holdsOf
    dsimp only [doubles]
    rw [scanNumberCompare_finite]
    rfl
  | .number (.arith items) op rhs => cases h

/-- Clauses that are all joined by `and` hold together. -/
theorem checkLoop_and {ν : Type} {N : Numbers ν} {row : Row ν} {columnCount : ℕ} {joins : List Join}
    {clauses : List (Clause ν)} {oks : List Bool} {i : ℕ}
    (hjoins : ∀ k < clauses.length, joins[i + k]? = some .and)
    (hoks : List.Forall₂ (fun clause ok => evalClause N row columnCount clause = some ok) clauses oks)
    (result : Bool) : checkLoop N row columnCount joins clauses (i + 1) result =
      some (result && oks.all id) := by
  induction hoks generalizing i result with
  | nil =>
    rw [List.all_nil, Bool.and_true]
    rfl
  | @cons clause ok clauses oks hok hoks ih =>
    have hjoin : joinAt joins i = .and := if_pos (hjoins 0 (Nat.succ_pos _))
    have hrest : ∀ k < clauses.length, joins[i + 1 + k]? = some .and := by
      intro k hk
      rw [Nat.add_right_comm]
      exact hjoins (k + 1) (Nat.succ_lt_succ hk)
    rw [checkLoop_succ, hok, Option.bind_some, hjoin, ih hrest, List.all_cons, ← Bool.and_assoc]
    rfl

/-- A filter that can scan accepts the rows that its predicates select. -/
theorem checkValues_eq_one {filter : Filter} (hmade : filter.Made) (hcovered : filter.Covered)
    {predicates : List ScanPredicate} (h : buildDirectScanPlan filter.plan = some predicates)
    (fields : Csv.Row) : filter.checkValues fields = 1 ↔
      (predicates.all fun predicate => predicate.holdsOf (fields.getD predicate.column [])) = true := by
  unfold buildDirectScanPlan at h
  split_ifs at h with hnil hjoins
  have hoks : ∀ {clauses : List (Clause Double)} {predicates : List ScanPredicate},
      clauses ⊆ filter.plan.clauses → clauses.mapM Clause.scanPredicate = some predicates →
        List.Forall₂ (fun clause ok => evalClause doubles (valuesRow doubles fields)
          filter.columnCount clause = some ok) clauses
            (predicates.map fun predicate => predicate.holdsOf (fields.getD predicate.column [])) := by
    intro clauses
    induction clauses with
    | nil =>
      intro predicates _ hmap
      cases hmap
      exact .nil
    | cons clause clauses ih =>
      intro predicates hsub hmap
      rw [List.mapM_cons] at hmap
      obtain ⟨predicate, hpredicate, hmap⟩ := Option.bind_eq_some_iff.1 hmap
      obtain ⟨rest, hrest, hmap⟩ := Option.bind_eq_some_iff.1 hmap
      cases hmap
      obtain ⟨hmem, hsub⟩ := List.cons_subset.1 hsub
      exact .cons (scanPredicate_holdsOf hpredicate (hmade.proper.inRange clause hmem)
        (hmade.readRhs clause hmem) fields) (ih hsub hrest)
  have hclauses := hoks (List.Subset.refl _) h
  rw [Filter.checkValues, Filter.check_eq hmade hcovered]
  obtain ⟨first, clauses, hplan⟩ := List.exists_cons_of_ne_nil hnil
  rw [hplan] at hclauses hjoins
  obtain ⟨ok, oks, hok, hrest, hoks⟩ := List.forall₂_cons_left_iff.1 hclauses
  have hall : (predicates.all fun predicate =>
      predicate.holdsOf (fields.getD predicate.column [])) = (ok && oks.all id) := by
    have hmap : (predicates.map fun predicate =>
        predicate.holdsOf (fields.getD predicate.column [])).all id = (ok :: oks).all id := by
      rw [hoks]
    rwa [List.all_map] at hmap
  have hand : ∀ k < clauses.length, filter.plan.joins[0 + k]? = some .and := by
    intro k hk
    rw [Nat.zero_add]
    exact of_decide_eq_true (List.all_eq_true.1 hjoins k (List.mem_range.2 hk))
  rw [checkNative, hplan, checkLoop, hok, Option.bind_some, if_pos rfl, checkLoop_and hand hrest,
    hall]
  cases ok && oks.all id <;> decide

/-! ## One answer -/

/-- The numbers of the rows that `dsv_filter_check_values` accepts. -/
def Filter.accepted (filter : Filter) (rows : List Csv.Row) : List ℕ :=
  (rows.zipIdx.filter fun (fields, _) => filter.checkValues fields = 1).map Prod.snd

/-- A row gets the same answer from the document and from its fields, and a scan that succeeds has
counted and reported exactly the rows that are accepted. -/
structure OneAnswer (content : List Char) (doc : Csv.Doc) (filter : Filter) : Prop where
  rows : ∀ rowIndex fields, doc.rows[rowIndex]? = some fields →
    filter.checkRow doc rowIndex = filter.checkValues fields
  scanned : ∀ {σ : Type} (opts : Option Csv.Options) (projections : List ScanProjection)
    (onMatch : Option (σ → ℕ → List ScanValue → Option σ)) (ctx ctx' : σ) (matchCount : ℕ),
    filterScan filter content opts projections onMatch ctx = .ok (matchCount, ctx') →
      ∃ calls : List (ℕ × List ScanValue), calls.map Prod.fst =
          filter.accepted (Csv.dataRows (opts.any Csv.Options.hasHeader) doc.rows) ∧
        matchCount = calls.length ∧ callMatches onMatch ctx calls = some ctx'

/-- The number of a cell is the same through `strtod` and through `dsv_fast_atof`. -/
def SameNumber (fields : Csv.Row) (column : ℕ) : Prop :=
  getDouble fields column (.finite 0) = .finite (fastAtof (fields.getD column []))

instance (fields : Csv.Row) (column : ℕ) : Decidable (SameNumber fields column) :=
  inferInstanceAs (Decidable (_ = _))

theorem filterScan_accepted {content : List Char} {rows : List Csv.Row}
    (hrows : Csv.parseTokens (Csv.Lexer.init content).budget (.init content) [] [] = .ok rows)
    {filter : Filter} (hmade : filter.Made) (hcovered : filter.Covered) {σ : Type}
    {opts : Option Csv.Options} {projections : List ScanProjection}
    {onMatch : Option (σ → ℕ → List ScanValue → Option σ)} {ctx ctx' : σ} {matchCount : ℕ}
    (h : filterScan filter content opts projections onMatch ctx = .ok (matchCount, ctx')) :
    ∃ calls : List (ℕ × List ScanValue), calls.map Prod.fst =
        filter.accepted (Csv.dataRows (opts.any Csv.Options.hasHeader) rows) ∧
      matchCount = calls.length ∧ callMatches onMatch ctx calls = some ctx' := by
  unfold filterScan at h
  split at h
  · cases h
  next predicates hpredicates =>
    obtain ⟨rows', hrows', hreports⟩ := Csv.csvFilterScanOpts_reports h
    obtain rfl : rows = rows' := Except.ok.inj (hrows.symm.trans hrows')
    obtain ⟨calls, hcalls, hcount, hdeliver⟩ := hreports
    refine ⟨calls, hcalls.trans ?_, hcount, hdeliver⟩
    unfold Csv.ScanPlan.selected Filter.accepted
    congr 1
    refine List.filter_congr fun (fields, _) _ => ?_
    rw [Bool.eq_iff_iff, decide_eq_true_iff]
    exact (checkValues_eq_one hmade hcovered hpredicates fields).symm

theorem Double.compare_eq {a : Double} {b : ℚ} :
    a.compare .eq (.finite b) = true ↔ a = .finite b := by
  cases a with
  | finite a =>
    rw [Double.compare_finite, Double.finite.injEq, ← compare_eq_iff_eq (a := a)]
    exact beq_iff_eq
  | infinite s => cases s <;> simp [Double.compare, Double.order, Op.holds]
  | nan => simp [Double.compare, Double.order]

def equalFilter (columnCount column : ℕ) (token : List Char) : Filter :=
  let plan := ⟨[.number (.column column) .eq (doubles.atof token)], []⟩
  ⟨columnCount, plan, lowerToQvm plan true defaultLimits, defaultLimits⟩

theorem equalFilter_made {columnCount column : ℕ} (hcolumn : column < columnCount)
    (token : List Char) :
    (equalFilter columnCount column token).Made ∧ (equalFilter columnCount column token).Covered := by
  have hrange : ∀ clause ∈ (equalFilter columnCount column token).plan.clauses,
      clause.InRange columnCount := by
    intro clause hclause
    rw [List.mem_singleton.1 hclause]
    exact hcolumn
  refine ⟨⟨⟨rfl, hrange⟩, fun clause hclause => ?_, fun slice hslice => ⟨true, hslice⟩⟩,
    fun slice hslice => ?_⟩
  · rw [List.mem_singleton.1 hclause]
    exact ⟨token, rfl⟩
  · have hverify := (lowerToQvm_eq_some doubles ⟨fun _ => [], fun _ => .finite 0⟩ hrange hslice).1
    exact (verifySlice_within hverify).instructions

theorem equalFilter_check {columnCount column : ℕ} (hcolumn : column < columnCount)
    (token : List Char) (row : Row Double) :
    (equalFilter columnCount column token).check row =
      if row.number column = .finite (fastAtof token) then 1 else 0 := by
  obtain ⟨hmade, hcovered⟩ := equalFilter_made hcolumn token
  have hnative : checkNative doubles row columnCount (equalFilter columnCount column token).plan =
      some ((row.number column).compare .eq (.finite (fastAtof token))) := by
    unfold equalFilter checkNative checkLoop evalClause evalLhs
    dsimp only
    rw [if_neg (Nat.not_le.2 hcolumn)]
    rfl
  rw [Filter.check_eq hmade hcovered]
  rw [show (equalFilter columnCount column token).columnCount = columnCount from rfl, hnative]
  dsimp only
  simp only [Double.compare_eq]

/-- A filter compiled with the usual limits answers by its clauses from left to right, and no memory
for a slice, or asking for one, changes an answer. -/
theorem compiled_filter_answers {columns : List Column} {exprParse : ExprParse Double}
    {memory strict : Bool} {expression : List Char} {filter : Filter}
    (h : compileFilter columns exprParse memory none strict expression = some filter)
    (row : Row Double) :
    filter.check row = (filter.plan.clauses.mapM (evalClause doubles row columns.length)).elim (-1)
        (fun oks => if leftAssociative oks filter.plan.joins then 1 else 0) ∧
      ∀ memory' strict' filter', compileFilter columns exprParse memory' none strict' expression =
        some filter' → filter'.check row = filter.check row := by
  have hanswer : ∀ {memory strict filter},
      compileFilter columns exprParse memory none strict expression = some filter →
        filter.check row = (filter.plan.clauses.mapM (evalClause doubles row columns.length)).elim (-1)
          (fun oks => if leftAssociative oks filter.plan.joins then 1 else 0) := by
    intro memory strict filter h
    obtain ⟨hcompile, hcount, -, -⟩ := compileFilter_eq_some h
    rw [Filter.check_eq (compileFilter_made h) (compileFilter_covered h), hcount,
      checkNative_eq doubles row (compile_proper hcompile)]
    cases filter.plan.clauses.mapM (evalClause doubles row columns.length) <;> rfl
  refine ⟨hanswer h, fun memory' strict' filter' h' => ?_⟩
  have hplan := (compileFilter_eq_some h').1.symm.trans (compileFilter_eq_some h).1
  rw [hanswer h, hanswer h', Except.ok.inj hplan]

theorem compiled_filter_answers_plain : ∃ filter,
    compileFilter [⟨['n'], ['n'], .number⟩] (fun _ => .error "") true none true "n==1".toList =
      some filter ∧ ∀ filter', compileFilter [⟨['n'], ['n'], .number⟩] (fun _ => .error "") false none
        false "n==1".toList = some filter' → ∀ row, filter'.check row = filter.check row := by
  obtain ⟨filter, h⟩ := Option.isSome_iff_exists.1 (show (compileFilter [⟨['n'], ['n'], .number⟩]
    (fun _ => .error "") true none true "n==1".toList).isSome = true by decide +kernel)
  exact ⟨filter, h, fun filter' h' row => (compiled_filter_answers h row).2 _ _ _ h'⟩

end Dsv
