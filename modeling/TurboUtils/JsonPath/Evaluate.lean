import TurboUtils.JsonPath.Expression
import TurboUtils.QueryVm.Ends

/-! `jsonpath_vm_compile_node` and `jsonpath_vm_compile_root`: a selector expression becomes a slice of
the query VM. -/
namespace JsonPath

open QueryVm

/-- `JSONPATH_MAX_INSTRUCTIONS`. -/
def maxInstructions : ℕ := 1024 * 1024

/-- The flags of `jsonpath_vm_builder_t`. -/
inductive CompileError where
  | failed
  | overflow
  deriving DecidableEq, Repr

/-- `jsonpath_vm_emit`; the pool is doubled until it has the greatest size. -/
def emit (pool : List Instruction) (op : Opcode) (dst arg src1 src2 : ℕ) :
    Except CompileError (List Instruction) :=
  if maxInstructions ≤ pool.length then .error .failed
  else .ok (pool ++ [⟨op, 0, dst, arg, src1, src2⟩])

/-- The opcode of `jsonpath_vm_emit_cmp_leaf` for a literal. -/
def Expr.leafOpcode {ν : Type} : Expr ν → Opcode
  | .number .. => .cmpLeafNumber
  | .string .. => .cmpLeafString
  | _ => .cmpLeaf

def compareLeaf {ν : Type} (op : Comparison) (left right : Expr ν) :
    Option (Opcode × ℕ × ℕ × ℕ) :=
  if left.isPath && right.isLiteral then
    some (right.leafOpcode, op.code, left.index, right.index)
  else if right.isPath && left.isLiteral then
    some (left.leafOpcode, op.reverse.code, right.index, left.index)
  else if right.isNumber then
    left.measured.map fun (opcode, operand) => (opcode, op.code, operand, right.index)
  else if left.isNumber then
    right.measured.map fun (opcode, operand) => (opcode, op.reverse.code, operand, left.index)
  else none

def Matching.opcode : Matching → Opcode
  | .match_ => .match_
  | .contains => .contains
  | .containsCi => .containsCi
  | .matchFunc => .matchFull
  | .searchFunc => .search

def Matching.arg (op : Matching) (regexIndex : ℕ) : ℕ :=
  match op with
  | .contains | .containsCi => 0
  | _ => regexIndex

def Junction.jump : Junction → Opcode
  | .and => .jmpFalse
  | .or => .jmpTrue

def patch (op : Opcode) (target : ℕ) (insn : Instruction) : Instruction :=
  if insn.op = op then { insn with arg := target } else insn

def patchRange (op : Opcode) (first last target : ℕ) (pool : List Instruction) :
    List Instruction :=
  pool.mapIdx fun pos insn => if first ≤ pos ∧ pos ≤ last then patch op target insn else insn

section Compile

variable {ν : Type} (slots : ℕ)

mutual

/-- `jsonpath_vm_compile_node`, which appends to the pool. -/
def compileNode (boolean : Bool) (dst depth : ℕ) (pool : List Instruction) :
    Expr ν → Except CompileError (List Instruction)
  | .compare _ op left right =>
      match compareLeaf op left right with
      | some (opcode, arg, src1, src2) => emit pool opcode dst arg src1 src2
      | none =>
          if slots ≤ depth + 1 then .error .overflow
          else
            (compileNode false dst depth pool left).bind fun pool =>
              (compileNode false (1 + depth) (depth + 1) pool right).bind fun pool =>
                emit pool .cmp dst op.code dst (1 + depth)
  | .matching _ op regexIndex left right =>
      if slots ≤ depth + 1 then .error .overflow
      else
        (compileNode false dst depth pool left).bind fun pool =>
          (compileNode false (1 + depth) (depth + 1) pool right).bind fun pool =>
            emit pool op.opcode dst (op.arg regexIndex) dst (1 + depth)
  | .not _ arg =>
      if arg.isPath then emit pool .notExists dst 0 arg.index 0
      else (compileNode true dst depth pool arg).bind fun pool => emit pool .not dst 0 dst 0
  | .junction _ op children =>
      (compileChildren op dst depth 0 pool children).map fun (pool, first, last) =>
        if first ≠ 0 ∧ last ≠ 0 then patchRange op.jump first last pool.length pool else pool
  | .path index _ => emit pool (if boolean then .exists_ else .loadPath) dst 0 index 0
  | .lengthOfCurrent _ => emit pool .length dst 0 noOperand 0
  | .length _ arg => emit pool .length dst 0 arg.index 0
  | .count _ arg => emit pool .count dst 0 arg.index 0
  | .string index _ =>
      if boolean then
        if slots ≤ depth + 1 then .error .overflow
        else
          (emit pool .loadKey (1 + depth) 0 0 0).bind fun pool =>
            (emit pool .loadConst dst 0 index 0).bind fun pool =>
              emit pool .cmp dst Comparison.eq.code (1 + depth) dst
      else emit pool .loadConst dst 0 index 0
  | .number index _ _ =>
      if boolean then
        if slots ≤ depth + 1 then .error .overflow
        else
          (emit pool .loadIndex (1 + depth) 0 0 0).bind fun pool =>
            (emit pool .loadConst dst 0 index 0).bind fun pool =>
              emit pool .cmp dst Comparison.eq.code (1 + depth) dst
      else emit pool .loadConst dst 0 index 0
  | .bool index _ => emit pool .loadConst dst 0 index 0
  | .regexp index _ => emit pool .loadConst dst 0 index 0
  | .wildcard _ => emit pool (if boolean then .true else .loadInvalid) dst 0 0 0

/-- The loop over the children of a junction: the pool, its first jump and its last one. -/
def compileChildren (op : Junction) (dst depth first : ℕ) (pool : List Instruction) :
    Children ν → Except CompileError (List Instruction × ℕ × ℕ)
  | .two left right =>
      (compileNode true dst depth pool left).bind fun pool =>
        let jump := pool.length
        (emit pool op.jump 0 0 dst 0).bind fun pool =>
          (compileNode true dst depth pool right).map fun pool =>
            (pool, if first = 0 then jump else first, jump)
  | .more left rest =>
      (compileNode true dst depth pool left).bind fun pool =>
        let jump := pool.length
        (emit pool op.jump 0 0 dst 0).bind fun pool =>
          compileChildren op dst depth (if first = 0 then jump else first) pool rest

end

/-- `jsonpath_vm_compile_root`: the pool with the slice at its end, or without it when the registers
do not suffice. -/
def compileRoot (pool : List Instruction) (e : Expr ν) :
    Except CompileError (List Instruction × Option (ℕ × ℕ)) :=
  match compileNode slots true 0 0 pool e with
  | .error .overflow => .ok (pool, none)
  | .error .failed => .error .failed
  | .ok pool' =>
      if pool'.length - pool.length = 0 then .error .failed
      else .ok (pool', some (pool.length, pool'.length - pool.length))

end Compile

/-! The backend of the query VM in jsonpath.c, and the evaluator without the VM. -/

variable {ν : Type} [LinearOrder ν]

/-- `literal->number`. -/
def Expr.numberField (backend : Backend ν) : Expr ν → ν
  | .number _ value _ => value
  | _ => backend.ofInt 0

/-- `jsonpath_program_string`. -/
def Expr.stringField : Expr ν → Option (List UInt8)
  | .string _ text => some text
  | .regexp _ pattern => some pattern
  | _ => none

section Backend

variable (backend : Backend ν) (candidate : Candidate ν) (program : ℕ → Option (Expr ν))

/-- `jsonpath_qvm_resolve`. -/
def qvmResolve (operand : ℕ) : Option (Value ν) :=
  (program operand).bind fun e => e.resolve backend candidate

/-- `jsonpath_qvm_binary`. -/
def qvmBinary (op : Opcode) (arg : ℕ) (left right : Value ν) : Option (Value ν) :=
  match op with
  | .cmp => some (.bool (compareValues left right arg))
  | .match_ => some (.bool (matchValues backend .match_ arg left right))
  | .contains => some (.bool (matchValues backend .contains arg left right))
  | .containsCi => some (.bool (matchValues backend .containsCi arg left right))
  | .matchFull => some (.bool (matchValues backend .matchFunc arg left right))
  | .search => some (.bool (matchValues backend .searchFunc arg left right))
  | _ => none

/-- `jsonpath_program_eval_path` for an operand. -/
def qvmPath (operand : ℕ) : Option (Node ν) :=
  (program operand).bind fun e => e.evalPath backend candidate

/-- `jsonpath_qvm_length`. -/
def qvmLength (operand : ℕ) : Value ν :=
  sizeValue backend (if operand = noOperand then some candidate.cur
    else qvmPath backend candidate program operand)

/-- `jsonpath_qvm_count`. -/
def qvmCount (operand : ℕ) : Value ν :=
  .number (backend.ofInt (((program operand).map fun e => e.countPath backend candidate).getD 0))

/-- The end of `jsonpath_qvm_leaf`. -/
def compareMeasured (measured : Value ν) (arg literal : ℕ) : Bool :=
  match program literal, measured with
  | some literal, .number actual =>
      applyCmp (compareOfLessAndEq actual (literal.numberField backend)) arg
  | _, _ => false

/-- `jsonpath_qvm_leaf`. -/
def qvmLeaf (op : Opcode) (arg src1 src2 : ℕ) : Option (Value ν) :=
  match op with
  | .cmpLeaf => some (.bool (compareValues ((qvmResolve backend candidate program src1).getD .invalid)
      ((qvmResolve backend candidate program src2).getD .invalid) arg))
  | .cmpLeafNumber => some (.bool (
      match program src2, qvmResolve backend candidate program src1 with
      | some literal, some (.number left) =>
          applyCmp (compareOfLessAndEq left (literal.numberField backend)) arg
      | _, _ => false))
  | .cmpLeafString => some (.bool (
      match (program src2).bind Expr.stringField, qvmResolve backend candidate program src1 with
      | some right, some (.string left) => applyCmp (strcmp left right) arg
      | _, _ => false))
  | .cmpLengthLeaf => some (.bool (compareMeasured backend program
      (qvmLength backend candidate program src1) arg src2))
  | .cmpCountLeaf => some (.bool (compareMeasured backend program
      (qvmCount backend candidate program src1) arg src2))
  | _ => none

/-- A callback that has a result, or fails. -/
def answer (result : Option (Value ν)) (old : Value ν) : Answer Unit (Value ν) Bool :=
  match result with
  | some value => ⟨true, value, ()⟩
  | none => ⟨false, old, ()⟩

/-- `jsonpath_qvm_ops`. -/
def qvmOps : ExecOps Unit (Value ν) where
  zero := .other
  resolve _ operand old := answer (qvmResolve backend candidate program operand) old
  truthy _ value := (truthy backend value, ())
  binary _ op arg left right old := answer (qvmBinary backend op arg left right) old
  unary := none
  exists_ := some fun _ operand =>
    (true, if (qvmPath backend candidate program operand).isSome then 1 else 0, ())
  length := some fun _ operand old => answer (some (qvmLength backend candidate program operand)) old
  count := some fun _ operand old => answer (some (qvmCount backend candidate program operand)) old
  leaf := some fun _ op arg src1 src2 old =>
    answer (qvmLeaf backend candidate program op arg src1 src2) old
  makeInvalid _ _ := (.invalid, ())
  makeBool _ value _ := (.bool (value ≠ 0), ())
  makeNumber _ value _ := (.number (backend.ofInt value), ())
  makeString _ text _ := (.string text, ())

/-- The input of `jsonpath_vm_run`. -/
def qvmInput : ExecInput := ⟨candidate.arrayIndex, candidate.key.map cString⟩

def poolAt (pool : List Instruction) (pc : ℕ) : Instruction :=
  pool.getD pc ⟨.unknown 0, 0, 0, 0, 0, 0⟩

/-- `jsonpath_vm_run`. -/
def vmRun (pool : List Instruction) (offset len : ℕ) : Bool :=
  if pool.length ≤ offset then false
  else match (execute (poolAt pool) (qvmOps backend candidate program) (some (qvmInput candidate))
      pool.length offset len defaultLimits ()).2 with
    | .ok value => truthy backend value
    | .error _ => false

end Backend

section Recursive

variable (backend : Backend ν) (candidate : Candidate ν)

/-- The operands of `jsonpath_program_compare` and of the functions like it. -/
def resolveBoth (left right : Expr ν) (decide : Value ν → Value ν → Bool) : Bool :=
  match left.resolve backend candidate, right.resolve backend candidate with
  | some l, some r => decide l r
  | _, _ => false

mutual

/-- `jsonpath_program_expr_recursive`, for an expression whose children have no slices. -/
def Expr.recursive : Expr ν → Bool
  | .wildcard _ => true
  | .compare _ op left right => resolveBoth backend candidate left right fun l r =>
      compareValues l r op.code
  | .matching _ .match_ regexIndex left right => resolveBoth backend candidate left right fun l r =>
      regexValues backend regexIndex l r false
  | .matching _ .contains _ left right => resolveBoth backend candidate left right fun l r =>
      containsValues backend l r
  | .path index fromRoot => ((Expr.path index fromRoot).evalPath backend candidate).isSome
  | .not _ arg => !arg.recursive
  | .junction _ .and children => children.allRecursive
  | .junction _ .or children => children.anyRecursive
  | .string _ text => candidate.key.any fun key => text = cString key
  | .number _ _ num => candidate.arrayIndex = num
  | _ => false

def Children.allRecursive : Children ν → Bool
  | .two first second => first.recursive && second.recursive
  | .more first rest => first.recursive && rest.allRecursive

def Children.anyRecursive : Children ν → Bool
  | .two first second => first.recursive || second.recursive
  | .more first rest => first.recursive || rest.anyRecursive

end

end Recursive

end JsonPath
