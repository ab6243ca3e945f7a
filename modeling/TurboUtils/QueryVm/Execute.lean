import TurboUtils.QueryVm.Program

/-! The loop of `qvm_execute_ex` over a backend that is a table of callbacks. -/
namespace QueryVm

/-- What a callback answers: its flag, what it has left in the result, and its context. -/
structure Answer (σ V α : Type) where
  flag : α
  value : V
  ctx : σ

/-- `qvm_exec_ops_t`: every callback gets its context, and what the result holds before. -/
structure ExecOps (σ V : Type) where
  zero : V
  resolve : σ → ℕ → V → Answer σ V Bool
  truthy : σ → V → Bool × σ
  binary : σ → Opcode → ℕ → V → V → V → Answer σ V Bool
  unary : Option (σ → Opcode → V → V → Answer σ V Bool)
  exists_ : Option (σ → ℕ → Bool × ℤ × σ)
  length : Option (σ → ℕ → V → Answer σ V Bool)
  count : Option (σ → ℕ → V → Answer σ V Bool)
  leaf : Option (σ → Opcode → ℕ → ℕ → ℕ → V → Answer σ V Bool)
  makeInvalid : σ → V → V × σ
  makeBool : σ → ℤ → V → V × σ
  makeNumber : σ → ℤ → V → V × σ
  makeString : σ → List UInt8 → V → V × σ

/-- `qvm_exec_input_t`. -/
structure ExecInput where
  arrayIndex : ℤ
  key : Option (List UInt8)

/-- What an instruction does to a register, or hands to the backend. -/
inductive Access where
  | read (register : ℕ)
  | write (register : ℕ)
  | operand (op : Opcode) (index : ℕ)
  | regex (index : ℕ)
  deriving DecidableEq, Repr

/-- The registers of a run, with the accesses so far and the number of instructions. -/
structure Machine (σ V : Type) where
  registers : ℕ → V
  ctx : σ
  steps : ℕ
  log : List Access

/-- Why an instruction fails: the status, the operand and the message. -/
abbrev Failure := Status × ℕ × String

namespace Instruction

variable (insn : Instruction)

/-- What `qvm_validate_exec_instruction` finds wrong. -/
def execProblem (pc stop : ℕ) : Option (ℕ × String) :=
  if insn.op.isUnknown then some (noOperand, "unknown QVM opcode")
  else if insn.reserved ≠ 0 then
    some (insn.reserved, "reserved instruction bits are nonzero")
  else if insn.op.writesRegister && maxRegisters ≤ insn.dst then
    some (insn.dst, "destination register is out of range")
  else if insn.op.isBinary && (maxRegisters ≤ insn.src1 || maxRegisters ≤ insn.src2) then
    some (if maxRegisters ≤ insn.src1 then insn.src1 else insn.src2,
      "source register is out of range")
  else if (insn.op = .not || insn.op = .neg || insn.op = .bnot || insn.op = .jmpFalse ||
      insn.op = .jmpTrue) && maxRegisters ≤ insn.src1 then
    some (insn.src1, "source register is out of range")
  else if insn.op = .select && (maxRegisters ≤ insn.src1 || maxRegisters ≤ insn.src2 ||
      maxRegisters ≤ insn.arg) then
    some (if maxRegisters ≤ insn.src1 then insn.src1 else insn.src2,
      "select source register is out of range")
  else if (insn.op = .jmpFalse || insn.op = .jmpTrue || insn.op = .jmp) &&
      (insn.arg ≤ pc || stop < insn.arg) then
    some (insn.arg, "jump target is not a forward in-range target")
  else none

end Instruction

variable {σ V : Type}

namespace Machine

variable (m : Machine σ V)

def note (accesses : List Access) : Machine σ V := { m with log := m.log ++ accesses }

def store (register : ℕ) (value : V) (ctx : σ) : Machine σ V :=
  { m with
    registers := Function.update m.registers register value
    ctx := ctx
    log := m.log ++ [.write register] }

variable (ops : ExecOps σ V) (input : Option ExecInput) (insn : Instruction)

def storeAnswer (register : ℕ) (answer : Answer σ V Bool) (failure : Failure) :
    Machine σ V × Option Failure :=
  if answer.flag then (m.store register answer.value answer.ctx, none)
  else ({ m with ctx := answer.ctx }, some failure)

def storeMade (register : ℕ) (make : σ → V → V × σ) : Machine σ V × Option Failure :=
  (m.store register (make m.ctx (m.registers register)).1 (make m.ctx (m.registers register)).2,
    none)

/-- `QVM_OP_LOAD_PATH` and `QVM_OP_LOAD_CONST`. -/
def load : Machine σ V × Option Failure :=
  let m := m.note [.operand insn.op insn.src1]
  let answer := ops.resolve m.ctx insn.src1 ops.zero
  if answer.flag then (m.store insn.dst answer.value answer.ctx, none)
  else
    let made := ops.makeInvalid answer.ctx answer.value
    (m.store insn.dst made.1 made.2, none)

/-- `QVM_OP_LOAD_KEY`. -/
def loadKey : Machine σ V × Option Failure :=
  match input.bind ExecInput.key with
  | some key => m.storeMade insn.dst fun ctx value => ops.makeString ctx key value
  | none => m.storeMade insn.dst ops.makeInvalid

/-- `QVM_OP_LOAD_INDEX`. -/
def loadIndex : Machine σ V × Option Failure :=
  match input with
  | some input =>
      if 0 ≤ input.arrayIndex then
        m.storeMade insn.dst fun ctx value => ops.makeNumber ctx input.arrayIndex value
      else m.storeMade insn.dst ops.makeInvalid
  | none => m.storeMade insn.dst ops.makeInvalid

/-- `qvm_store_exists`, into this register. -/
def storeExists (invert : Bool) (register : ℕ) : Machine σ V × Option Failure :=
  let failure := (.backendError, insn.src1, "QVM exists backend failed")
  match ops.exists_ with
  | none => (m, some failure)
  | some exists_ =>
      let m := m.note [.operand insn.op insn.src1]
      let answer := exists_ m.ctx insn.src1
      let m := { m with ctx := answer.2.2 }
      if answer.1 then
        m.storeMade register fun ctx value =>
          ops.makeBool ctx (if invert then if answer.2.1 = 0 then 1 else 0 else answer.2.1) value
      else (m, some failure)

/-- `QVM_OP_LENGTH` and `QVM_OP_COUNT`. -/
def measure (callback : Option (σ → ℕ → V → Answer σ V Bool)) (message : String) :
    Machine σ V × Option Failure :=
  let failure := (.backendError, insn.src1, message)
  match callback with
  | none => (m, some failure)
  | some callback =>
      let m := m.note [.operand insn.op insn.src1]
      m.storeAnswer insn.dst (callback m.ctx insn.src1 (m.registers insn.dst)) failure

/-- `qvm_exec_leaf`, into this register. -/
def execLeaf (register : ℕ) : Machine σ V × Option Failure :=
  match ops.leaf with
  | none => (m, some (.unsupported, insn.src1, "QVM leaf backend failed"))
  | some leaf =>
      let m := m.note [.operand insn.op insn.src1, .operand insn.op insn.src2]
      m.storeAnswer register
        (leaf m.ctx insn.op insn.arg insn.src1 insn.src2 (m.registers register))
        (.backendError, insn.src1, "QVM leaf backend failed")

def binary : Machine σ V × Option Failure :=
  let m := m.note (if insn.op = .match_ || insn.op = .matchFull || insn.op = .search then
    [.read insn.src1, .read insn.src2, .regex insn.arg] else [.read insn.src1, .read insn.src2])
  m.storeAnswer insn.dst
    (ops.binary m.ctx insn.op insn.arg (m.registers insn.src1) (m.registers insn.src2)
      (m.registers insn.dst))
    (.backendError, insn.arg, "QVM binary backend failed")

/-- `QVM_OP_NEG` and `QVM_OP_BNOT`. -/
def unary : Machine σ V × Option Failure :=
  let failure := (.backendError, insn.src1, "QVM unary backend failed")
  match ops.unary with
  | none => (m, some failure)
  | some unary =>
      let m := m.note [.read insn.src1]
      m.storeAnswer insn.dst
        (unary m.ctx insn.op (m.registers insn.src1) (m.registers insn.dst)) failure

/-- The truth of the first source. -/
def truth : Bool × Machine σ V :=
  let m := m.note [.read insn.src1]
  ((ops.truthy m.ctx (m.registers insn.src1)).1,
    { m with ctx := (ops.truthy m.ctx (m.registers insn.src1)).2 })

/-- `QVM_OP_SELECT`. -/
def select : Machine σ V × Option Failure :=
  let (chosen, m) := m.truth ops insn
  let source := if chosen then insn.src2 else insn.arg
  let m := m.note [.read source]
  (m.store insn.dst (m.registers source) m.ctx, none)

/-- `QVM_OP_NOT`. -/
def not : Machine σ V × Option Failure :=
  let (chosen, m) := m.truth ops insn
  m.storeMade insn.dst fun ctx value => ops.makeBool ctx (if chosen then 0 else 1) value

def operate : Machine σ V × Option Failure :=
  match insn.op with
  | .loadPath | .loadConst => m.load ops insn
  | .loadKey => m.loadKey ops input insn
  | .loadIndex => m.loadIndex ops input insn
  | .loadInvalid => m.storeMade insn.dst ops.makeInvalid
  | .exists_ => m.storeExists ops insn false insn.dst
  | .notExists => m.storeExists ops insn true insn.dst
  | .length => m.measure insn ops.length "QVM length backend failed"
  | .count => m.measure insn ops.count "QVM count backend failed"
  | .cmpLeaf | .cmpLeafNumber | .cmpLeafString | .cmpLengthLeaf | .cmpCountLeaf =>
      m.execLeaf ops insn insn.dst
  | .cmp | .match_ | .contains | .containsCi | .matchFull | .search | .add | .sub | .mul | .div
  | .mod | .union | .band | .bor | .bxor | .lshift | .rshift | .cat => m.binary ops insn
  | .neg | .bnot => m.unary ops insn
  | .select => m.select ops insn
  | .not => m.not ops insn
  | .true => m.storeMade insn.dst fun ctx value => ops.makeBool ctx 1 value
  | .false => m.storeMade insn.dst fun ctx value => ops.makeBool ctx 0 value
  | .jmpFalse | .jmpTrue | .jmp | .unknown _ =>
      (m, some (.invalidProgram, noOperand, "unknown QVM opcode"))

/-- One instruction: what has become of the machine, and the next counter or a failure. -/
def perform (pc : ℕ) : Machine σ V × Except Failure ℕ :=
  match insn.op with
  | .jmp => (m, .ok insn.arg)
  | .jmpFalse =>
      let (taken, m) := m.truth ops insn
      (m, .ok (if taken then pc + 1 else insn.arg))
  | .jmpTrue =>
      let (taken, m) := m.truth ops insn
      (m, .ok (if taken then insn.arg else pc + 1))
  | _ =>
      match m.operate ops input insn with
      | (m, none) => (m, .ok (pc + 1))
      | (m, some failure) => (m, .error failure)

end Machine

section Execution

variable (instructions : ℕ → Instruction) (ops : ExecOps σ V) (input : Option ExecInput)

def failAt (pc : ℕ) (failure : Failure) : Diagnostic :=
  ⟨failure.1, pc, (instructions pc).op, failure.2.1, failure.2.2⟩

/-- The loop of `qvm_execute_ex`; the budget is what is left of the steps. -/
def executeLoop (stop : ℕ) (budget pc : ℕ) (m : Machine σ V) :
    Machine σ V × Except Diagnostic V :=
  if stop ≤ pc then (m, .ok (m.registers 0))
  else match (instructions pc).execProblem pc stop with
    | some (operand, message) =>
        (m, .error (failAt instructions pc (.invalidProgram, operand, message)))
    | none =>
        match budget with
        | 0 => (m, .error (failAt instructions pc
            (.resourceLimit, m.steps, "QVM execution step limit exceeded")))
        | budget + 1 =>
            match Machine.perform { m with steps := m.steps + 1 } ops input (instructions pc)
              pc with
            | (m, .ok pc) => executeLoop stop budget pc m
            | (m, .error failure) => (m, .error (failAt instructions pc failure))

def executeSingle (offset maxSteps : ℕ) (m : Machine σ V) :
    Option (Machine σ V × Except Diagnostic V) :=
  let insn := instructions offset
  let entered := { m with steps := m.steps + 1 }
  let finish : Machine σ V × Option Failure → Machine σ V × Except Diagnostic V
    | (m, none) => (m, .ok (m.registers 0))
    | (m, some failure) => (m, .error (failAt instructions offset failure))
  match insn.execProblem offset (offset + 1) with
  | some (operand, message) =>
      some (m, .error (failAt instructions offset (.invalidProgram, operand, message)))
  | none =>
      if maxSteps = 0 then some (m, .error (failAt instructions offset
        (.resourceLimit, 0, "QVM execution step limit exceeded")))
      else if insn.op.isLeaf then some (finish (entered.execLeaf ops insn 0))
      else if insn.op = .exists_ || insn.op = .notExists then
        some (finish (entered.storeExists ops insn (insn.op = .notExists) 0))
      else if insn.op = .true || insn.op = .false then
        some (finish (entered.storeMade 0 fun ctx value =>
          ops.makeBool ctx (if insn.op = .true then 1 else 0) value))
      else none

/-- What is wrong with the arguments of `qvm_execute_ex`. -/
def executeArguments (instructionCount offset len : ℕ) (limits : Limits) : Option Diagnostic :=
  if len = 0 || instructionCount < offset || instructionCount - offset < len then
    some ⟨.invalidArgument, offset, none, noOperand, "invalid QVM execution arguments"⟩
  else if limits.maxInstructions < len then
    some ⟨.resourceLimit, offset, none, len, "QVM instruction limit exceeded"⟩
  else none

def Machine.start (zero : V) (ctx : σ) : Machine σ V := ⟨fun _ => zero, ctx, 0, []⟩

/-- `qvm_execute_ex` without its branches for a single instruction. -/
def executeGeneral (instructionCount offset len : ℕ) (limits : Limits) (ctx : σ) :
    Machine σ V × Except Diagnostic V :=
  match executeArguments instructionCount offset len limits with
  | some diagnostic => (.start ops.zero ctx, .error diagnostic)
  | none => executeLoop instructions ops input (offset + len) limits.maxSteps offset
      (.start ops.zero ctx)

/-- `qvm_execute_ex`. -/
def execute (instructionCount offset len : ℕ) (limits : Limits) (ctx : σ) :
    Machine σ V × Except Diagnostic V :=
  match executeArguments instructionCount offset len limits with
  | some diagnostic => (.start ops.zero ctx, .error diagnostic)
  | none =>
      let general := executeLoop instructions ops input (offset + len) limits.maxSteps offset
        (.start ops.zero ctx)
      if len = 1 then
        (executeSingle instructions ops offset limits.maxSteps (.start ops.zero ctx)).getD general
      else general

end Execution

end QueryVm
