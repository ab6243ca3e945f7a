import TurboUtils.QueryVm.Runs

/-! Compiled filters of dsv_filter.c and their native evaluation. Bytes are characters; what is done
with numbers is a parameter, since nothing depends on it. -/
namespace Dsv

/-- `dsv_op_t`. -/
inductive Op where
  | eq
  | ne
  | gt
  | ge
  | lt
  | le
  deriving DecidableEq, Repr

/-- `dsv_join_t`. -/
inductive Join where
  | and
  | or
  deriving DecidableEq, Repr

/-- The items of an arithmetic expression in postfix order, over numbers and columns. -/
inductive Item (ν ι : Type) where
  | number (value : ν)
  | ident (column : ι)
  | add
  | sub
  | mul
  | div
  | neg
  deriving DecidableEq, Repr

/-- The operations on numbers: the arithmetic, the six comparisons, the truth of a number, and
`dsv_fast_atof`. -/
structure Numbers (ν : Type) where
  zero : ν
  add : ν → ν → ν
  sub : ν → ν → ν
  mul : ν → ν → ν
  div : ν → ν → ν
  neg : ν → ν
  compare : Op → ν → ν → Bool
  nonzero : ν → Bool
  atof : List Char → ν

inductive Lhs (ν : Type) where
  | column (column : ℕ)
  | arith (items : List (Item ν ℕ))
  deriving DecidableEq, Repr

/-- `dsv_clause_t`: a text column is compared with a string, or a number with a number. -/
inductive Clause (ν : Type) where
  | text (column : ℕ) (op : Op) (rhs : List Char)
  | number (lhs : Lhs ν) (op : Op) (rhs : ν)
  deriving DecidableEq, Repr

/-- The clauses of a `dsv_filter_t`, and the joins between them. -/
structure Plan (ν : Type) where
  clauses : List (Clause ν)
  joins : List Join

/-- What a row holds at a column: `csv_get_v` and `csv_get_double` of a document, or what
`dsv_value_at` and `dsv_value_double_at` find in a list of fields. -/
structure Row (ν : Type) where
  text : ℕ → List Char
  number : ℕ → ν

/-- `cmp_bytes`. -/
def cmpBytes : List Char → List Char → Ordering
  | [], [] => .eq
  | [], _ :: _ => .lt
  | _ :: _, [] => .gt
  | a :: as, b :: bs => (Ord.compare a.toNat b.toNat).then (cmpBytes as bs)

def Op.holds : Op → Ordering → Bool
  | .eq, c => c == .eq
  | .ne, c => c != .eq
  | .gt, c => c == .gt
  | .ge, c => c != .lt
  | .lt, c => c == .lt
  | .le, c => c != .gt

/-- `eval_str`. -/
def evalStr (op : Op) (lhs rhs : List Char) : Bool := op.holds (cmpBytes lhs rhs)

variable {ν : Type} (N : Numbers ν) (row : Row ν) (columnCount : ℕ)

/-- The rows that `dsv_filter_check_values` is given. -/
def valuesRow (fields : List (List Char)) : Row ν where
  text column := fields.getD column []
  number column := N.atof (fields.getD column [])

/-- A round of the loop of `eval_lhs_numeric_expr` and of `eval_lhs_numeric_expr_values`; the top of
the stack comes first. -/
def evalItem (cap : ℕ) (stack : List ν) : Item ν ℕ → Option (List ν)
  | .number value => if cap ≤ stack.length then none else some (value :: stack)
  | .ident column =>
      if columnCount ≤ column || cap ≤ stack.length then none
      else some (row.number column :: stack)
  | .neg =>
      match stack with
      | [] => none
      | value :: stack => some (N.neg value :: stack)
  | .add => evalBinary N.add stack
  | .sub => evalBinary N.sub stack
  | .mul => evalBinary N.mul stack
  | .div => evalBinary N.div stack
where
  /-- The two uppermost values are combined. -/
  evalBinary (f : ν → ν → ν) : List ν → Option (List ν)
    | rhs :: lhs :: stack => some (f lhs rhs :: stack)
    | _ => none

/-- `eval_lhs_numeric_expr` and `eval_lhs_numeric_expr_values`. -/
def evalLhs : Lhs ν → Option ν
  | .column column => if columnCount ≤ column then none else some (row.number column)
  | .arith items =>
      if items.length = 0 then none
      else
        let cap := if 64 < items.length then items.length else 64
        (items.foldlM (evalItem N row columnCount cap) []).bind fun
          | [value] => some value
          | _ => none

/-- One clause of `dsv_filter_check_row_native` and of `dsv_filter_check_values_native`. -/
def evalClause : Clause ν → Option Bool
  | .text column op rhs => some (evalStr op (row.text column) rhs)
  | .number lhs op rhs => (evalLhs N row columnCount lhs).map fun lhs => N.compare op lhs rhs

/-- The loop of `dsv_filter_check_row_native` and of `dsv_filter_check_values_native`. -/
def checkLoop (joins : List Join) : List (Clause ν) → ℕ → Bool → Option Bool
  | [], _, result => some result
  | clause :: clauses, i, result =>
      (evalClause N row columnCount clause).bind fun ok =>
        checkLoop joins clauses (i + 1) <|
          if i = 0 then ok
          else if joins[i - 1]? = some .and then result && ok
          else result || ok

/-- `dsv_filter_check_values_native`, and `dsv_filter_check_row_native` for a row that exists. -/
def checkNative (plan : Plan ν) : Option Bool :=
  checkLoop N row columnCount plan.joins plan.clauses 0 false

end Dsv
