import TurboUtils.Dsv.Filter

/-! `dsv_filter_compile`: the text of a filter becomes clauses and joins. -/
namespace Dsv

inductive ColumnType where
  | unused
  | number
  | string
  | dynamic
  deriving DecidableEq, Repr

/-- `dsv_col_t`. -/
structure Column where
  name : List Char
  rawName : List Char
  type : ColumnType

/-- `isspace` in the C locale. -/
def isSpace (c : Char) : Bool :=
  c = ' ' || c = '\t' || c = '\n' || c = '\x0b' || c = '\x0c' || c = '\r'

/-- `isalpha` in the C locale. -/
def isAlpha (c : Char) : Bool := ('a' ≤ c && c ≤ 'z') || ('A' ≤ c && c ≤ 'Z')

/-- `isdigit`. -/
def isDigit (c : Char) : Bool := '0' ≤ c && c ≤ '9'

/-- `tolower` in the C locale. -/
def toLower (c : Char) : Char := if 'A' ≤ c && c ≤ 'Z' then Char.ofNat (c.toNat + 32) else c

/-- `skip_ws`. -/
def skipWs (text : List Char) : List Char := text.dropWhile isSpace

/-- `trim_ws_range`. -/
def trimWsRange (text : List Char) : List Char :=
  (((skipWs text).reverse).dropWhile isSpace).reverse

/-- `parse_identifier`: the identifier, and what follows it. -/
def parseIdentifier : List Char → Option (List Char × List Char)
  | [] => none
  | c :: rest =>
      if isAlpha c || c = '_' then
        let more := fun d : Char => isAlpha d || isDigit d || d = '_'
        some (c :: rest.takeWhile more, rest.dropWhile more)
      else none

/-- `parse_number_token`. -/
def parseNumberToken (text : List Char) : Option (List Char × List Char) :=
  let (sign, unsigned) := match text with
    | '+' :: rest => (['+'], rest)
    | '-' :: rest => (['-'], rest)
    | _ => ([], text)
  let whole := unsigned.takeWhile isDigit
  let (fraction, rest) := match unsigned.dropWhile isDigit with
    | '.' :: rest => ('.' :: rest.takeWhile isDigit, rest.dropWhile isDigit)
    | rest => ([], rest)
  if whole.length + (fraction.length - 1) = 0 then none
  else some (sign ++ whole ++ fraction, rest)

/-- `parse_op`. -/
def parseOp : List Char → Option (Op × List Char)
  | '=' :: '=' :: rest => some (.eq, rest)
  | '!' :: '=' :: rest => some (.ne, rest)
  | '>' :: '=' :: rest => some (.ge, rest)
  | '<' :: '=' :: rest => some (.le, rest)
  | '>' :: rest => some (.gt, rest)
  | '<' :: rest => some (.lt, rest)
  | _ => none

/-- `parse_join`. -/
def parseJoin (text : List Char) : Option (Join × List Char) :=
  let word := (text.takeWhile isAlpha).map toLower
  if word = ['a', 'n', 'd'] then some (.and, text.dropWhile isAlpha)
  else if word = ['o', 'r'] then some (.or, text.dropWhile isAlpha)
  else none

/-- `find_top_level_cmp`: what stands before the comparison, its operator, and what follows. -/
def findTopLevelCmp (depth : ℕ) : List Char → Option (List Char × Op × List Char)
  | [] => none
  | c :: rest =>
      let later := fun depth =>
        (findTopLevelCmp depth rest).map fun found => (c :: found.1, found.2)
      if c = '(' then later (depth + 1)
      else if c = ')' then later (depth - 1)
      else if depth = 0 then
        match parseOp (c :: rest) with
        | some (op, after) => some ([], op, after)
        | none => later depth
      else later depth

/-- `check_lhs_parentheses`: the message when they do not match. -/
def checkLhsParentheses (depth : ℕ) : List Char → Option String
  | [] =>
      if depth ≠ 0 then some "invalid filter: unbalanced parentheses in arithmetic expression"
      else none
  | c :: rest =>
      if c = '(' then
        if (skipWs rest).head? = some ')' then
          some "invalid filter: empty parentheses in arithmetic expression"
        else checkLhsParentheses (depth + 1) rest
      else if c = ')' then
        if depth = 0 then some "invalid filter: unbalanced parentheses in arithmetic expression"
        else checkLhsParentheses (depth - 1) rest
      else checkLhsParentheses depth rest

/-- `has_trailing_arith_op`. -/
def hasTrailingArithOp (text : List Char) : Bool :=
  match text.reverse.dropWhile isSpace with
  | c :: _ => c = '+' || c = '-' || c = '*' || c = '/'
  | [] => false

/-- The loop of `parse_string_lit`: the string, what follows, and the last byte that was read. -/
def stringBody (last : Char) : List Char → List Char × List Char × Char
  | [] => ([], [], last)
  | '"' :: rest => ([], rest, '"')
  | '\\' :: c :: rest =>
      let (body, after, last) := stringBody c rest
      (if c = '"' || c = '\\' then c :: body else '\\' :: c :: body, after, last)
  | c :: rest =>
      let (body, after, last) := stringBody c rest
      (c :: body, after, last)

/-- `parse_string_lit`: the literal ends with the last byte that was read, if that is a quote. -/
def parseStringLit : List Char → Option (List Char × List Char)
  | '"' :: rest =>
      let (body, after, last) := stringBody '"' rest
      if last = '"' then some (body, after) else none
  | _ => none

variable {ν : Type} (N : Numbers ν) (columns : List Column)

/-- `find_col`. -/
def findCol (name : List Char) : Option ℕ :=
  columns.findIdx? fun column =>
    column.type ≠ .unused && (column.name = name || column.rawName = name)

/-- `dsv_expr_parse`: postfix items over the names of columns, or a message. -/
abbrev ExprParse (ν : Type) := List Char → Except String (List (Item ν (List Char)))

/-- A round of the loop of `parse_lhs_numeric_expr`. -/
def resolveItem : Item ν (List Char) → Except String (Item ν ℕ)
  | .ident name =>
      match findCol columns name with
      | none => .error "invalid filter: unknown column"
      | some column =>
          if (columns[column]?.map Column.type) ≠ some .number then
            .error "invalid filter: arithmetic requires numeric columns"
          else .ok (.ident column)
  | .number value => .ok (.number value)
  | .add => .ok .add
  | .sub => .ok .sub
  | .mul => .ok .mul
  | .div => .ok .div
  | .neg => .ok .neg

/-- The loop of `parse_lhs_numeric_expr` over the items. -/
def resolveItems : List (Item ν (List Char)) → Except String (List (Item ν ℕ))
  | [] => .ok []
  | item :: items => do
      let item ← resolveItem columns item
      let items ← resolveItems items
      .ok (item :: items)

def Item.isIdent {ν ι : Type} : Item ν ι → Bool
  | .ident _ => true
  | _ => false

/-- `strstr(text, part) != NULL`. -/
def contains (text part : List Char) : Bool := text.tails.any part.isPrefixOf

/-- `parse_lhs_numeric_expr`. -/
def parseLhsNumericExpr (exprParse : ExprParse ν) (text : List Char) :
    Except String (List (Item ν ℕ)) :=
  match checkLhsParentheses 0 text with
  | some message => .error message
  | none =>
      match exprParse text with
      | .error message =>
          if contains message.toList "invalid character".toList then
            .error "invalid filter: invalid character in arithmetic expression"
          else if hasTrailingArithOp text then
            .error "invalid filter: expected column or number after +/-"
          else .error "invalid filter: malformed arithmetic expression"
      | .ok items =>
          if items.length = 0 then .error "invalid filter: expected column"
          else
            match resolveItems columns items with
            | .error message => .error message
            | .ok resolved =>
                if items.any Item.isIdent then .ok resolved
                else .error "invalid filter: expected column"

def parseLhs (exprParse : ExprParse ν) (lhs : List Char) :
    Except String (Lhs ν × ColumnType) :=
  match parseIdentifier lhs with
  | some (name, after) =>
      if skipWs after = [] then
        match findCol columns name with
        | none => .error "invalid filter: unknown column"
        | some column =>
            .ok (.column column, ((columns[column]?.map Column.type).getD .unused))
      else if (findCol columns name).any fun column =>
          (columns[column]?.map Column.type) = some .string then
        .error "invalid filter: arithmetic on string column"
      else (parseLhsNumericExpr columns exprParse lhs).map fun items => (.arith items, .number)
  | none => (parseLhsNumericExpr columns exprParse lhs).map fun items => (.arith items, .number)

def parseRhs (lhs : Lhs ν) (type : ColumnType) (op : Op) (text : List Char) :
    Except String (Clause ν × List Char) :=
  if text.head? = some '"' then
    match parseStringLit text with
    | none => .error "invalid filter: bad string literal"
    | some (rhs, rest) =>
        match lhs with
        | .arith _ => .error "invalid filter: arithmetic cannot compare to string"
        | .column column =>
            if type ≠ .string && type ≠ .dynamic then
              .error "invalid filter: string on non-string column"
            else .ok (.text column op rhs, rest)
  else
    match parseNumberToken text with
    | none => .error "invalid filter: expected value"
    | some (token, rest) =>
        match lhs with
        | .column column =>
            if type = .string then .error "invalid filter: number on string column"
            else .ok (.number (.column column) op (N.atof token), rest)
        | .arith items => .ok (.number (.arith items) op (N.atof token), rest)

def parseClause (exprParse : ExprParse ν) (text : List Char) :
    Except String (Clause ν × List Char) :=
  match findTopLevelCmp 0 text with
  | none =>
      .error ((checkLhsParentheses 0 text).getD "invalid filter: expected operator")
  | some (before, op, after) =>
      let lhs := trimWsRange before
      if lhs = [] then .error "invalid filter: expected column"
      else
        match parseLhs columns exprParse lhs with
        | .error message => .error message
        | .ok (lhs, type) => parseRhs N lhs type op (skipWs after)

/-- The loop of `dsv_filter_compile_impl`; every round reads an operator at least, so the fuel that
it starts with is not used up. -/
def compileLoop (exprParse : ExprParse ν) : ℕ → List Char → Plan ν → Except String (Plan ν)
  | 0, _, _ => .error ""
  | fuel + 1, text, plan =>
      let text := skipWs text
      if text = [] then
        .error (if plan.clauses = [] then "invalid filter: empty expression"
          else "invalid filter: expected column")
      else
        match parseClause N columns exprParse text with
        | .error message => .error message
        | .ok (clause, rest) =>
            let clauses := plan.clauses ++ [clause]
            let rest := skipWs rest
            if rest = [] then .ok { plan with clauses := clauses }
            else
              match parseJoin rest with
              | none => .error "invalid filter: expected and/or"
              | some (join, rest) => compileLoop exprParse fuel rest ⟨clauses, plan.joins ++ [join]⟩

/-- `dsv_filter_compile_impl` up to the plan. -/
def compile (exprParse : ExprParse ν) (expression : List Char) : Except String (Plan ν) :=
  compileLoop N columns exprParse (expression.length + 1) expression ⟨[], []⟩

end Dsv
