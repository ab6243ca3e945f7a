import TurboUtils.Dsv.Compile

/-! The lowering of filters to the query VM, and filters that are run by it. -/
namespace Dsv

open QueryVm

/-- `dsv_operand_t`. -/
inductive Operand (ν : Type) where
  | column (column : ℕ) (asNumber : Bool)
  | number (value : ν)
  | string (text : List Char)

/-- `dsv_qvm_builder_t`; a builder that overflows is no more. -/
structure Builder (ν : Type) where
  insns : List Instruction
  capacity : ℕ
  operands : List (Operand ν)
  operandCapacity : ℕ

variable {ν : Type}

namespace Builder

def empty : Builder ν := ⟨[], 0, [], 0⟩

variable (b : Builder ν)

/-- `dsv_qvm_emit`. -/
def emit (insn : Instruction) : Option (Builder ν) :=
  if b.insns.length = b.capacity then
    let newCapacity := if b.capacity = 0 then 32 else b.capacity * 2
    if defaultLimits.maxInstructions < newCapacity then none
    else some { b with insns := b.insns ++ [insn], capacity := newCapacity }
  else some { b with insns := b.insns ++ [insn] }

/-- `dsv_qvm_add_operand`: the number of the operand. -/
def addOperand (operand : Operand ν) : Option (ℕ × Builder ν) :=
  if b.operands.length = b.operandCapacity then
    let newCapacity := if b.operandCapacity = 0 then 8 else b.operandCapacity * 2
    if defaultLimits.maxOperands < newCapacity then none
    else some (b.operands.length,
      { b with operands := b.operands ++ [operand], operandCapacity := newCapacity })
  else some (b.operands.length, { b with operands := b.operands ++ [operand] })

def patch (jump target : ℕ) : Builder ν :=
  { b with insns := b.insns.modify jump fun insn => { insn with arg := target } }

end Builder

/-- The registers of `dsv_qvm_lower_arith`: those of the values on the stack, those that are free
again, and the first one that has not been used. -/
structure Registers where
  regs : List ℕ
  free : List ℕ
  next : ℕ

namespace Registers

variable (registers : Registers)

def take : Option (ℕ × Registers) :=
  match registers.free with
  | reg :: free => some (reg, { registers with free := free })
  | [] =>
      if registers.next < maxRegisters then
        some (registers.next, { registers with next := registers.next + 1 })
      else none

end Registers

def lowerLoad (op : Opcode) (operand : Operand ν) (state : Builder ν × Registers) :
    Option (Builder ν × Registers) :=
  if maxRegisters ≤ state.2.regs.length then none
  else state.2.take.bind fun (reg, registers) =>
    (state.1.addOperand operand).bind fun (operand, b) =>
      (b.emit ⟨op, 0, reg, 0, operand, 0⟩).map fun b =>
        (b, { registers with regs := reg :: registers.regs })

/-- A binary operation into the register of its left side; that of the right side is free again. -/
def lowerBinary (op : Opcode) (state : Builder ν × Registers) : Option (Builder ν × Registers) :=
  match state.2.regs with
  | rhs :: lhs :: regs =>
      let free := if state.2.free.length < maxRegisters then rhs :: state.2.free
        else state.2.free
      (state.1.emit ⟨op, 0, lhs, 0, lhs, rhs⟩).map fun b =>
        (b, { state.2 with regs := lhs :: regs, free := free })
  | _ => none

/-- A round of the loop of `dsv_qvm_lower_arith`. -/
def lowerItem (state : Builder ν × Registers) : Item ν ℕ → Option (Builder ν × Registers)
  | .number value => lowerLoad .loadConst (.number value) state
  | .ident column => lowerLoad .loadPath (.column column true) state
  | .neg =>
      match state.2.regs with
      | [] => none
      | reg :: _ => (state.1.emit ⟨.neg, 0, reg, 0, reg, 0⟩).map fun b => (b, state.2)
  | .add => lowerBinary .add state
  | .sub => lowerBinary .sub state
  | .mul => lowerBinary .mul state
  | .div => lowerBinary .div state

def Op.code : Op → ℕ
  | .eq => 0
  | .ne => 1
  | .gt => 2
  | .ge => 3
  | .lt => 4
  | .le => 5

/-- `dsv_qvm_lower_arith`. -/
def lowerArith (b : Builder ν) (items : List (Item ν ℕ)) (op : Op) (rhs : ν) :
    Option (Builder ν) :=
  (items.foldlM lowerItem (b, ⟨[], [], 1⟩)).bind fun (b, registers) =>
    match registers.regs with
    | [lhs] =>
        (b.addOperand (.number rhs)).bind fun (operand, b) =>
          registers.take.bind fun (reg, _) =>
            (b.emit ⟨.loadConst, 0, reg, 0, operand, 0⟩).bind fun b =>
              b.emit ⟨.cmp, 0, 0, op.code, lhs, reg⟩
    | _ => none

/-- `dsv_qvm_lower_simple`, over the two operands. -/
def lowerLeaf (b : Builder ν) (op : Opcode) (lhs rhs : Operand ν) (arg : ℕ) :
    Option (Builder ν) :=
  (b.addOperand lhs).bind fun (lhs, b) =>
    (b.addOperand rhs).bind fun (rhs, b) => b.emit ⟨op, 0, 0, arg, lhs, rhs⟩

/-- One clause of `dsv_lower_to_qvm`. -/
def lowerClause (b : Builder ν) : Clause ν → Option (Builder ν)
  | .number (.arith items) op rhs => lowerArith b items op rhs
  | .number (.column column) op rhs =>
      lowerLeaf b .cmpLeafNumber (.column column true) (.number rhs) op.code
  | .text column op rhs =>
      lowerLeaf b .cmpLeafString (.column column false) (.string rhs) op.code

/-- The loop of `dsv_lower_to_qvm`, with the jump that waits for its target. -/
def lowerLoop (joins : List Join) : List (Clause ν) → ℕ → Builder ν → Option ℕ →
    Option (Builder ν × Option ℕ)
  | [], _, b, pending => some (b, pending)
  | clause :: clauses, i, b, pending =>
      (lowerClause b clause).bind fun b =>
        let b := match pending with
          | some jump => b.patch jump b.insns.length
          | none => b
        if clauses = [] then lowerLoop joins clauses (i + 1) b none
        else
          let op := if joins[i]? = some .and then Opcode.jmpFalse else .jmpTrue
          (b.emit ⟨op, 0, 0, 0, 0, 0⟩).bind fun b =>
            lowerLoop joins clauses (i + 1) b (some (b.insns.length - 1))

/-- A round of the loop of `dsv_qvm_register_count`. -/
def countRegisters (max : ℕ) (insn : Instruction) : ℕ :=
  let max := if insn.op ≠ .jmp ∧ insn.op ≠ .jmpFalse ∧ insn.op ≠ .jmpTrue ∧ max < insn.dst + 1
    then insn.dst + 1 else max
  let binary := insn.op = .cmp ∨ insn.op = .add ∨ insn.op = .sub ∨ insn.op = .mul ∨ insn.op = .div
  let max := if binary ∧ max < insn.src1 + 1 then insn.src1 + 1 else max
  let max := if binary ∧ max < insn.src2 + 1 then insn.src2 + 1 else max
  if (insn.op = .neg ∨ insn.op = .jmpFalse ∨ insn.op = .jmpTrue) ∧ max < insn.src1 + 1
    then insn.src1 + 1 else max

/-- `dsv_qvm_register_count`. -/
def registerCount (insns : List Instruction) : ℕ :=
  min (insns.foldl countRegisters 1) maxRegisters

def noInstruction : Instruction := ⟨.unknown 0, 0, 0, 0, 0, 0⟩

structure Slice (ν : Type) where
  insns : List Instruction
  operands : List (Operand ν)

def Slice.at {ν : Type} (slice : Slice ν) (pc : ℕ) : Instruction :=
  slice.insns.getD pc noInstruction

/-- What `qvm_verify_slice_ex` says about a slice. -/
def Slice.verify {ν : Type} (slice : Slice ν) (memory : Bool) (limits : Limits) :
    Except Diagnostic Unit :=
  verifySlice slice.at memory slice.insns.length 0 slice.insns.length (registerCount slice.insns)
    slice.operands.length 0 limits

/-- `dsv_lower_to_qvm`; the memory is that of the verifier. -/
def lowerToQvm (plan : Plan ν) (memory : Bool) (limits : Limits) : Option (Slice ν) :=
  if plan.clauses = [] then none
  else (lowerLoop plan.joins plan.clauses 0 .empty none).bind fun (b, pending) =>
    let b := match pending with
      | some jump => b.patch jump b.insns.length
      | none => b
    let slice : Slice ν := ⟨b.insns, b.operands⟩
    if b.insns = [] ∨ b.operands = [] then none
    else match slice.verify memory limits with
      | .ok () => some slice
      | .error _ => none

/-! ## The backend -/

/-- `qvm_value_t` with the tags of the filter. -/
inductive Value (ν : Type) where
  | invalid
  | number (value : ν)
  | string (text : List Char)
  | bool (value : Bool)

variable (N : Numbers ν) (row : Row ν) (operands : List (Operand ν))

/-- `dsv_qvm_resolve_value`. -/
def resolveValue (operand : ℕ) : Option (Value ν) :=
  operands[operand]?.map fun
    | .column column true => .number (row.number column)
    | .column column false => .string (row.text column)
    | .number value => .number value
    | .string text => .string text

/-- `dsv_qvm_truthy`. -/
def truthy : Value ν → Bool
  | .bool value => value
  | .number value => N.nonzero value
  | .string text => text ≠ []
  | .invalid => false

def opOf : ℕ → Option Op
  | 0 => some .eq
  | 1 => some .ne
  | 2 => some .gt
  | 3 => some .ge
  | 4 => some .lt
  | 5 => some .le
  | _ => none

/-- `eval_num`, which denies what it does not know. -/
def evalNum (arg : ℕ) (lhs rhs : ν) : Bool := (opOf arg).any fun op => N.compare op lhs rhs

/-- `eval_str` with the number of its operator. -/
def evalStrCode (arg : ℕ) (lhs rhs : List Char) : Bool :=
  (opOf arg).any fun op => evalStr op lhs rhs

/-- `dsv_qvm_binary`. -/
def binaryValue (op : Opcode) (arg : ℕ) : Value ν → Value ν → Option (Value ν)
  | .number lhs, .number rhs =>
      match op with
      | .add => some (.number (N.add lhs rhs))
      | .sub => some (.number (N.sub lhs rhs))
      | .mul => some (.number (N.mul lhs rhs))
      | .div => some (.number (N.div lhs rhs))
      | .cmp => some (.bool (evalNum N arg lhs rhs))
      | _ => none
  | .string lhs, .string rhs => if op = .cmp then some (.bool (evalStrCode arg lhs rhs)) else none
  | _, _ => none

/-- `dsv_qvm_leaf`. -/
def leafValue (op : Opcode) (arg src1 src2 : ℕ) : Option (Value ν) :=
  if op ≠ .cmpLeafNumber ∧ op ≠ .cmpLeafString then none
  else (resolveValue row operands src1).bind fun lhs =>
    (resolveValue row operands src2).bind fun rhs =>
      match op, lhs, rhs with
      | .cmpLeafNumber, .number lhs, .number rhs => some (.bool (evalNum N arg lhs rhs))
      | .cmpLeafString, .string lhs, .string rhs => some (.bool (evalStrCode arg lhs rhs))
      | _, _, _ => none

/-- A callback that leaves its result alone when it fails. -/
def answer (value : Option (Value ν)) (old : Value ν) : Answer Unit (Value ν) Bool :=
  ⟨value.isSome, value.getD old, ()⟩

/-- `dsv_qvm_ops`. -/
def qvmOps : ExecOps Unit (Value ν) where
  zero := .invalid
  resolve _ operand old := answer (resolveValue row operands operand) old
  truthy _ value := (truthy N value, ())
  binary _ op arg left right old := answer (binaryValue N op arg left right) old
  unary := some fun _ op value old => answer
    (match op, value with
      | .neg, .number value => some (.number (N.neg value))
      | _, _ => none) old
  exists_ := none
  length := none
  count := none
  leaf := some fun _ op arg src1 src2 old => answer (leafValue N row operands op arg src1 src2) old
  makeInvalid _ _ := (.invalid, ())
  makeBool _ value _ := (.bool (value ≠ 0), ())
  makeNumber _ _ _ := (.number N.zero, ())
  makeString _ _ _ := (.string [], ())

/-- `dsv_qvm_run`, and what `dsv_filter_check_row` and `dsv_filter_check_values` make of it; a run
that fails has no answer. -/
def checkQvm (slice : Slice ν) (limits : Limits) : Option Bool :=
  match (execute slice.at (qvmOps N row slice.operands) none slice.insns.length 0
    slice.insns.length limits ()).2 with
  | .ok value => some (truthy N value)
  | .error _ => none

end Dsv
