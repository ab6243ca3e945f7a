import Mathlib.Data.List.Infix
import Mathlib.Order.Defs.LinearOrder
import TurboUtils.QueryVm.Execute

/-! The values that the filters of jsonpath.c compare, and the nodes that they come from. -/
namespace JsonPath

/-- `json_value_t`; the numbers are any linear order. -/
inductive Node (ν : Type) where
  | null
  | bool (value : Bool)
  | number (value : ν)
  | string (value : List UInt8)
  | array (elements : List (Node ν))
  | object (members : List (List UInt8 × Node ν))

/-- `qvm_value_t`: a value of a type that is compared, or of another one. -/
inductive Value (ν : Type) where
  | invalid
  | bool (value : Bool)
  | number (value : ν)
  | string (text : List UInt8)
  | regexp (pattern : List UInt8)
  | other
  deriving DecidableEq

def cString (bytes : List UInt8) : List UInt8 := bytes.takeWhile (· ≠ 0)

/-- `strcmp`. -/
def strcmp (s t : List UInt8) : Ordering := compareOfLessAndEq (cString s) (cString t)

/-- `jsonpath_utf8_length`. -/
def utf8Length (bytes : List UInt8) : ℕ := bytes.countP fun b => b &&& 0xC0 ≠ 0x80

inductive Comparison where
  | eq
  | ne
  | lt
  | le
  | gt
  | ge
  deriving DecidableEq, Repr

namespace Comparison

def code : Comparison → ℕ
  | eq => 4
  | ne => 5
  | gt => 6
  | ge => 7
  | lt => 8
  | le => 9

/-- `jsonpath_vm_reverse_op`. -/
def reverse : Comparison → Comparison
  | lt => gt
  | le => ge
  | gt => lt
  | ge => le
  | op => op

/-- `jsonpath_program_apply_cmp`. -/
def apply : Comparison → Ordering → Bool
  | eq, cmp => cmp = .eq
  | ne, cmp => cmp ≠ .eq
  | lt, cmp => cmp = .lt
  | le, cmp => cmp ≠ .gt
  | gt, cmp => cmp = .gt
  | ge, cmp => cmp ≠ .lt

def ofCode (code : ℕ) : Option Comparison :=
  if code = 4 then some eq
  else if code = 5 then some ne
  else if code = 6 then some gt
  else if code = 7 then some ge
  else if code = 8 then some lt
  else if code = 9 then some le
  else none

@[simp] theorem ofCode_code (op : Comparison) : ofCode op.code = some op := by cases op <;> rfl

@[simp] theorem apply_reverse (op : Comparison) (cmp : Ordering) :
    op.reverse.apply cmp.swap = op.apply cmp := by cases op <;> cases cmp <;> rfl

end Comparison

/-- `jsonpath_program_apply_cmp` for the argument of an instruction. -/
def applyCmp (cmp : Ordering) (opcode : ℕ) : Bool :=
  (Comparison.ofCode opcode).any fun op => op.apply cmp

/-- What is outside of the filters: conversions and formats of numbers, the regex engine, and the
walk along the segments of a path, to its first node or to count them all. -/
structure Backend (ν : Type) where
  ofInt : ℤ → ν
  format : ν → List UInt8
  regexMatch : ℕ → List UInt8 → Option (ℕ × ℕ)
  patternMatch : List UInt8 → List UInt8 → Option (ℕ × ℕ)
  matchNext : ℕ → Node ν → Node ν → Option (Node ν)
  matchCount : ℕ → Node ν → Node ν → ℕ

structure Candidate (ν : Type) where
  root : Node ν
  cur : Node ν
  arrayIndex : ℤ
  key : Option (List UInt8)

variable {ν : Type} [LinearOrder ν]

/-- `jsonpath_program_value_to_runtime`. -/
def Node.toRuntime : Node ν → Option (Value ν)
  | .bool value => some (.bool value)
  | .number value => some (.number value)
  | .string value => some (.string value)
  | _ => none

/-- The size that `jsonpath_qvm_length` finds. -/
def Node.size : Node ν → Option ℕ
  | .array elements => some elements.length
  | .object members => some members.length
  | .string value => some (utf8Length value)
  | _ => none

/-- `jsonpath_program_compare_values`. -/
def compareValues : Value ν → Value ν → ℕ → Bool
  | .bool l, .bool r, opcode => applyCmp (compareOfLessAndEq l r) opcode
  | .number l, .number r, opcode => applyCmp (compareOfLessAndEq l r) opcode
  | .string l, .string r, opcode => applyCmp (strcmp l r) opcode
  | _, _, _ => false

variable (backend : Backend ν)

/-- `jsonpath_vm_truthy`. -/
def truthy : Value ν → Bool
  | .bool value => value
  | .number value => value ≠ backend.ofInt 0
  | .string text => cString text ≠ []
  | _ => false

/-- `jsonpath_program_value_to_string`, into a buffer of 64 bytes. -/
def valueToString (value : Value ν) : List UInt8 :=
  List.take 63 <| match value with
    | .bool true => [0x74, 0x72, 0x75, 0x65]
    | .bool false => [0x66, 0x61, 0x6C, 0x73, 0x65]
    | .number value => backend.format value
    | .string text => cString text
    | .regexp pattern => cString pattern
    | _ => []

def haystack (value : Value ν) : List UInt8 :=
  match value with
  | .string text => cString text
  | _ => valueToString backend value

def pattern (value : Value ν) : List UInt8 :=
  match value with
  | .string text => cString text
  | .regexp pattern => cString pattern
  | _ => valueToString backend value

/-- `jsonpath_program_regex_values`. -/
def regexValues (regexIndex : ℕ) (left right : Value ν) (fullMatch : Bool) : Bool :=
  let (text, re) := match left with
    | .regexp re => (haystack backend right, cString re)
    | _ => (haystack backend left, pattern backend right)
  let found :=
    if regexIndex ≠ QueryVm.noOperand then backend.regexMatch regexIndex text
    else backend.patternMatch re text
  match found with
  | none => false
  | some (index, length) => if fullMatch then index = 0 && length = text.length else true

/-- `jsonpath_program_contains_values`. -/
def containsValues (left right : Value ν) : Bool :=
  (haystack backend left).tails.any (haystack backend right).isPrefixOf

def foldCase (b : UInt8) : UInt8 := if 65 ≤ b && b ≤ 90 then b + 32 else b

/-- `jsonpath_program_contains_ci_values`. -/
def containsCiValues (left right : Value ν) : Bool :=
  ((haystack backend left).map foldCase).tails.any
    ((haystack backend right).map foldCase).isPrefixOf

/-! Selector expressions as the grammar builds them, and what they mean. -/

inductive Matching where
  | match_
  | contains
  | containsCi
  | matchFunc
  | searchFunc
  deriving DecidableEq, Repr

/-- `JSONPATH_TOKEN_AND`, and `JSONPATH_TOKEN_OR`, which is compiled as a comma is. -/
inductive Junction where
  | and
  | or
  deriving DecidableEq, Repr

mutual

/-- The instructions below a selector, each with its index in the program: a path from the root or
from the current node, literals, functions and operators. -/
inductive Expr (ν : Type) where
  | path (index : ℕ) (fromRoot : Bool)
  | bool (index : ℕ) (value : Bool)
  | number (index : ℕ) (value : ν) (num : ℤ)
  | string (index : ℕ) (text : List UInt8)
  | regexp (index : ℕ) (pattern : List UInt8)
  | wildcard (index : ℕ)
  | lengthOfCurrent (index : ℕ)
  | length (index : ℕ) (arg : Expr ν)
  | count (index : ℕ) (arg : Expr ν)
  | compare (index : ℕ) (op : Comparison) (left right : Expr ν)
  | matching (index : ℕ) (op : Matching) (regexIndex : ℕ) (left right : Expr ν)
  | not (index : ℕ) (arg : Expr ν)
  | junction (index : ℕ) (op : Junction) (children : Children ν)

/-- The children of a junction: the grammar makes one of two or more. -/
inductive Children (ν : Type) where
  | two (first second : Expr ν)
  | more (first : Expr ν) (rest : Children ν)

end

def Expr.index {ν : Type} : Expr ν → ℕ
  | .path index _ | .bool index _ | .number index _ _ | .string index _ | .regexp index _
  | .wildcard index | .lengthOfCurrent index | .length index _ | .count index _
  | .compare index _ _ _ | .matching index _ _ _ _ | .not index _ | .junction index _ _ => index

mutual

def Expr.nodes {ν : Type} : Expr ν → List (Expr ν)
  | .length index arg => .length index arg :: arg.nodes
  | .count index arg => .count index arg :: arg.nodes
  | .compare index op left right => .compare index op left right :: (left.nodes ++ right.nodes)
  | .matching index op regexIndex left right =>
      .matching index op regexIndex left right :: (left.nodes ++ right.nodes)
  | .not index arg => .not index arg :: arg.nodes
  | .junction index op children => .junction index op children :: children.nodes
  | e => [e]

def Children.nodes {ν : Type} : Children ν → List (Expr ν)
  | .two first second => first.nodes ++ second.nodes
  | .more first rest => first.nodes ++ rest.nodes

end

namespace Expr

variable {ν : Type}

/-- `THIS` and `ROOT`. -/
def isPath : Expr ν → Bool
  | path .. => true
  | _ => false

/-- `BOOL`, `NUMBER` and `STRING`. -/
def isLiteral : Expr ν → Bool
  | bool .. | number .. | string .. => true
  | _ => false

def isNumber : Expr ν → Bool
  | number .. => true
  | _ => false

def measured : Expr ν → Option (QueryVm.Opcode × ℕ)
  | lengthOfCurrent _ => some (.cmpLengthLeaf, QueryVm.noOperand)
  | length _ arg => some (.cmpLengthLeaf, arg.index)
  | count _ arg => some (.cmpCountLeaf, arg.index)
  | _ => none

def regex : Expr ν → Option ℕ
  | matching _ _ regexIndex _ _ => some regexIndex
  | _ => none

/-- What `jsonpath_program_resolve` makes of an instruction that is no path. -/
def literal : Expr ν → Value ν
  | bool _ value => .bool value
  | number _ value _ => .number value
  | string _ text => .string text
  | regexp _ pattern => .regexp pattern
  | _ => .other

variable [LinearOrder ν] (backend : Backend ν) (candidate : Candidate ν)

/-- `jsonpath_program_eval_path`. -/
def evalPath : Expr ν → Option (Node ν)
  | path index fromRoot => backend.matchNext index candidate.root
      (if fromRoot then candidate.root else candidate.cur)
  | _ => none

/-- `jsonpath_program_count_path`, which starts a walk with its first node as the root. -/
def countPath : Expr ν → ℕ
  | path index fromRoot =>
      let start := if fromRoot then candidate.root else candidate.cur
      backend.matchCount index start start
  | _ => 0

/-- `jsonpath_program_resolve`. -/
def resolve (e : Expr ν) : Option (Value ν) :=
  if e.isPath then (e.evalPath backend candidate).bind Node.toRuntime else some e.literal

end Expr

section Meaning

variable {ν : Type} [LinearOrder ν] (backend : Backend ν) (candidate : Candidate ν)

def sizeValue (node : Option (Node ν)) : Value ν :=
  match node.bind Node.size with
  | some size => .number (backend.ofInt size)
  | none => .invalid

/-- What `QVM_OP_LOAD_KEY` loads. -/
def keyValue : Value ν :=
  match candidate.key with
  | some key => .string (cString key)
  | none => .invalid

/-- What `QVM_OP_LOAD_INDEX` loads. -/
def indexValue : Value ν :=
  if 0 ≤ candidate.arrayIndex then .number (backend.ofInt candidate.arrayIndex) else .invalid

/-- `jsonpath_qvm_binary`, less comparisons. -/
def matchValues (op : Matching) (regexIndex : ℕ) (left right : Value ν) : Bool :=
  match op with
  | .match_ | .searchFunc => regexValues backend regexIndex left right false
  | .matchFunc => regexValues backend regexIndex left right true
  | .contains => containsValues backend left right
  | .containsCi => containsCiValues backend left right

mutual

/-- The value of an expression, where a truth is asked for (`boolean`) and elsewhere; a junction has
the value of the child that decides it. -/
def Expr.value (boolean : Bool) : Expr ν → Value ν
  | .path index fromRoot =>
      if boolean then .bool ((Expr.path index fromRoot).evalPath backend candidate).isSome
      else ((Expr.path index fromRoot).resolve backend candidate).getD .invalid
  | .bool _ value => .bool value
  | .number _ value _ =>
      if boolean then .bool (compareValues (indexValue backend candidate) (.number value)
        Comparison.eq.code)
      else .number value
  | .string _ text =>
      if boolean then .bool (compareValues (keyValue candidate) (.string text) Comparison.eq.code)
      else .string text
  | .regexp _ pattern => .regexp pattern
  | .wildcard _ => if boolean then .bool true else .invalid
  | .lengthOfCurrent _ => sizeValue backend (some candidate.cur)
  | .length _ arg => sizeValue backend (arg.evalPath backend candidate)
  | .count _ arg => .number (backend.ofInt (arg.countPath backend candidate))
  | .compare _ op left right =>
      .bool (compareValues (left.value false) (right.value false) op.code)
  | .matching _ op regexIndex left right =>
      .bool (matchValues backend op regexIndex (left.value false) (right.value false))
  | .not _ arg => .bool !truthy backend (arg.value true)
  | .junction _ op children => children.value op

def Children.value (op : Junction) : Children ν → Value ν
  | .two first second =>
      if truthy backend (first.value true) = decide (op = .or) then first.value true
      else second.value true
  | .more first rest =>
      if truthy backend (first.value true) = decide (op = .or) then first.value true
      else rest.value op

end

mutual

/-- The truth of an expression: a junction is true as all or any of its children are, a path when it
selects a node, a string or a number alone when it is the key or the index. -/
def Expr.holds : Expr ν → Bool
  | .path index fromRoot => ((Expr.path index fromRoot).evalPath backend candidate).isSome
  | .not _ arg => !arg.holds
  | .junction _ .and children => children.all
  | .junction _ .or children => children.any
  | e => truthy backend (e.value backend candidate true)

def Children.all : Children ν → Bool
  | .two first second => first.holds && second.holds
  | .more first rest => first.holds && rest.all

def Children.any : Children ν → Bool
  | .two first second => first.holds || second.holds
  | .more first rest => first.holds || rest.any

end

mutual

theorem Expr.truthy_value (e : Expr ν) :
    truthy backend (e.value backend candidate true) = e.holds backend candidate := by
  cases e with
  | path index fromRoot => rfl
  | not index arg =>
    rw [Expr.holds, ← arg.truthy_value]
    rfl
  | junction index op children =>
    cases op with
    | and => exact children.truthy_and
    | or => exact children.truthy_or
  | _ => rfl

theorem Children.truthy_and (children : Children ν) :
    truthy backend (children.value backend candidate .and) = children.all backend candidate := by
  cases children with
  | two first second =>
    rw [Children.value, Children.all, ← first.truthy_value, ← second.truthy_value]
    cases htruth : truthy backend (first.value backend candidate true)
    · exact htruth
    · rfl
  | more first rest =>
    rw [Children.value, Children.all, ← first.truthy_value, ← rest.truthy_and]
    cases htruth : truthy backend (first.value backend candidate true)
    · exact htruth
    · rfl

theorem Children.truthy_or (children : Children ν) :
    truthy backend (children.value backend candidate .or) = children.any backend candidate := by
  cases children with
  | two first second =>
    rw [Children.value, Children.any, ← first.truthy_value, ← second.truthy_value]
    cases htruth : truthy backend (first.value backend candidate true)
    · rfl
    · exact htruth
  | more first rest =>
    rw [Children.value, Children.any, ← first.truthy_value, ← rest.truthy_or]
    cases htruth : truthy backend (first.value backend candidate true)
    · rfl
    · exact htruth

end

end Meaning

end JsonPath
