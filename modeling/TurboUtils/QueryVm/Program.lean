import TurboUtils.Lib.ForwardFlow
import Mathlib.Data.Nat.Bitwise

/-! The instructions of the query VM, and the verifier of query_vm.c. -/
namespace QueryVm

/-- `qvm_opcode_t`; the other bytes are no opcodes. -/
inductive Opcode where
  | loadPath
  | loadConst
  | loadKey
  | loadIndex
  | loadInvalid
  | exists_
  | length
  | count
  | cmp
  | cmpLeaf
  | cmpLeafNumber
  | cmpLeafString
  | notExists
  | match_
  | contains
  | containsCi
  | matchFull
  | search
  | cmpLengthLeaf
  | cmpCountLeaf
  | add
  | sub
  | mul
  | div
  | mod
  | union
  | neg
  | not
  | jmpFalse
  | jmpTrue
  | jmp
  | true
  | false
  | band
  | bor
  | bxor
  | lshift
  | rshift
  | bnot
  | cat
  | select
  | unknown (byte : ℕ)
  deriving DecidableEq, Repr

/-- `qvm_instruction_t`. -/
structure Instruction where
  op : Opcode
  reserved : ℕ
  dst : ℕ
  arg : ℕ
  src1 : ℕ
  src2 : ℕ
  deriving DecidableEq, Repr

/-- `qvm_status_t`, less success. -/
inductive Status where
  | invalidArgument
  | invalidProgram
  | unsupported
  | backendError
  | noMemory
  | resourceLimit
  deriving DecidableEq, Repr

/-- `qvm_diagnostic_t` of a failure; a failure that is no instruction's has no opcode. -/
structure Diagnostic where
  status : Status
  instruction : ℕ
  opcode : Option Opcode
  operand : ℕ
  message : String
  deriving DecidableEq, Repr

/-- `qvm_limits_t`. -/
structure Limits where
  maxInstructions : ℕ
  maxOperands : ℕ
  maxRegexes : ℕ
  maxSteps : ℕ

/-- `QVM_MAX_REGISTERS`. -/
def maxRegisters : ℕ := 64

/-- `QVM_NO_OPERAND`. -/
def noOperand : ℕ := 2 ^ 32 - 1

/-- `SIZE_MAX`. -/
def sizeMax : ℕ := 2 ^ 64 - 1

/-- `qvm_default_limits`. -/
def defaultLimits : Limits := ⟨1048576, 1048576, 65536, 1048576⟩

namespace Opcode

/-- `qvm_writes_register`. -/
def writesRegister : Opcode → Bool
  | jmpFalse | jmpTrue | jmp => Bool.false
  | _ => Bool.true

/-- `qvm_is_binary`. -/
def isBinary : Opcode → Bool
  | cmp | match_ | contains | containsCi | matchFull | search | add | sub | mul | div | mod | union
  | band | bor | bxor | lshift | rshift | cat => Bool.true
  | _ => Bool.false

/-- `qvm_is_leaf`. -/
def isLeaf : Opcode → Bool
  | cmpLeaf | cmpLeafNumber | cmpLeafString | cmpLengthLeaf | cmpCountLeaf => Bool.true
  | _ => Bool.false

def isUnknown : Opcode → Bool
  | unknown _ => Bool.true
  | _ => Bool.false

end Opcode

namespace Instruction

variable (insn : Instruction)

/-- `qvm_reads_uninitialized`. -/
def readsUninitialized (initialized : ℕ) : Bool :=
  if insn.op.isBinary then !initialized.testBit insn.src1 || !initialized.testBit insn.src2
  else if insn.op = .not || insn.op = .neg || insn.op = .bnot || insn.op = .jmpFalse ||
      insn.op = .jmpTrue then !initialized.testBit insn.src1
  else if insn.op = .select then
    !initialized.testBit insn.src1 || !initialized.testBit insn.src2 ||
      !initialized.testBit insn.arg
  else false

/-- What the first loop of `qvm_verify_slice_ex` finds wrong with an instruction. -/
def problem (pc stop registerCount operandCount regexCount : ℕ) : Option (ℕ × String) :=
  if insn.op.isUnknown then some (noOperand, "unknown QVM opcode")
  else if insn.reserved ≠ 0 then
    some (insn.reserved, "reserved instruction bits are nonzero")
  else if insn.op.writesRegister && registerCount ≤ insn.dst then
    some (insn.dst, "destination register is out of range")
  else if insn.op.isBinary && (registerCount ≤ insn.src1 || registerCount ≤ insn.src2) then
    some (if registerCount ≤ insn.src1 then insn.src1 else insn.src2,
      "source register is out of range")
  else if (insn.op = .not || insn.op = .neg || insn.op = .bnot) && registerCount ≤ insn.src1 then
    some (insn.src1, "unary source register is out of range")
  else if insn.op = .select && (registerCount ≤ insn.src1 || registerCount ≤ insn.src2 ||
      registerCount ≤ insn.arg) then
    some (if registerCount ≤ insn.src1 then insn.src1 else insn.src2,
      "select source register is out of range")
  else if (insn.op = .loadPath || insn.op = .loadConst || insn.op = .exists_ ||
      insn.op = .count || insn.op = .notExists) && operandCount ≤ insn.src1 then
    some (insn.src1, "operand is out of range")
  else if insn.op = .length && insn.src1 ≠ noOperand && operandCount ≤ insn.src1 then
    some (insn.src1, "length operand is out of range")
  else if insn.op.isLeaf && (operandCount ≤ insn.src2 ||
      insn.op ≠ .cmpLengthLeaf && operandCount ≤ insn.src1 ||
      insn.op = .cmpLengthLeaf && insn.src1 ≠ noOperand && operandCount ≤ insn.src1) then
    some (if operandCount ≤ insn.src2 then insn.src2 else insn.src1,
      "leaf operand is out of range")
  else if (insn.op = .match_ || insn.op = .matchFull || insn.op = .search) &&
      insn.arg ≠ noOperand && regexCount ≤ insn.arg then
    some (insn.arg, "regex operand is out of range")
  else if insn.op = .jmpFalse || insn.op = .jmpTrue then
    if registerCount ≤ insn.src1 then
      some (insn.src1, "jump source register is out of range")
    else if insn.arg ≤ pc || stop < insn.arg then
      some (insn.arg, "jump target is not a forward in-range target")
    else none
  else if insn.op = .jmp && (insn.arg ≤ pc || stop < insn.arg) then
    some (insn.arg, "jump target is not a forward in-range target")
  else none

/-- The state after the instruction. -/
def initializes (state : ℕ) : ℕ :=
  if insn.op.writesRegister then state ||| 1 <<< insn.dst else state

def successors (offset relative : ℕ) : List ℕ :=
  if insn.op = .jmp then [insn.arg - offset]
  else if insn.op = .jmpFalse || insn.op = .jmpTrue then [relative + 1, insn.arg - offset]
  else [relative + 1]

end Instruction

section Verifier

variable (instructions : ℕ → Instruction)

/-- The first loop of `qvm_verify_slice_ex`. -/
def verifyFields (pcs : List ℕ) (stop registerCount operandCount regexCount : ℕ) :
    Except Diagnostic Unit :=
  match pcs with
  | [] => .ok ()
  | pc :: pcs =>
      match (instructions pc).problem pc stop registerCount operandCount regexCount with
      | some (operand, message) =>
          .error ⟨.invalidProgram, pc, (instructions pc).op, operand, message⟩
      | none => verifyFields pcs stop registerCount operandCount regexCount

/-- `qvm_merge_state`; a node is reachable when it has a state. -/
def mergeState (states : ℕ → Option ℕ) (state successor : ℕ) : ℕ → Option ℕ :=
  Function.update states successor (some (match states successor with
    | none => state
    | some old => old &&& state))

/-- The second loop of `qvm_verify_slice_ex`. -/
def verifyStates (offset : ℕ) (pcs : List ℕ) (states : ℕ → Option ℕ) :
    Except Diagnostic (ℕ → Option ℕ) :=
  match pcs with
  | [] => .ok states
  | relative :: pcs =>
      let insn := instructions (offset + relative)
      match states relative with
      | none => verifyStates offset pcs states
      | some state =>
          if insn.readsUninitialized state then
            .error ⟨.invalidProgram, offset + relative, insn.op, insn.src1,
              "source register is not initialized on every path"⟩
          else verifyStates offset pcs ((insn.successors offset relative).foldl
            (fun states successor => mergeState states (insn.initializes state) successor) states)

/-- `qvm_verify_slice_ex`; the memory is what the two allocations come to. -/
def verifySlice (memory : Bool) (instructionCount offset len registerCount operandCount
    regexCount : ℕ) (limits : Limits) : Except Diagnostic Unit :=
  if len = 0 || registerCount = 0 || maxRegisters < registerCount || instructionCount < offset ||
      instructionCount - offset < len then
    .error ⟨.invalidArgument, offset, none, noOperand, "invalid QVM program bounds"⟩
  else if limits.maxInstructions < len then
    .error ⟨.resourceLimit, offset, none, len, "QVM instruction limit exceeded"⟩
  else if limits.maxOperands < operandCount then
    .error ⟨.resourceLimit, offset, none, operandCount, "QVM operand limit exceeded"⟩
  else if limits.maxRegexes < regexCount then
    .error ⟨.resourceLimit, offset, none, regexCount, "QVM regex limit exceeded"⟩
  else match verifyFields instructions (List.range' offset len) (offset + len) registerCount
      operandCount regexCount with
    | .error diagnostic => .error diagnostic
    | .ok () =>
        if sizeMax ≤ len || sizeMax / 8 < len + 1 then
          .error ⟨.noMemory, offset, none, len, "QVM verifier state size overflows"⟩
        else if !memory then
          .error ⟨.noMemory, offset, none, len, "unable to allocate QVM verifier state"⟩
        else match verifyStates instructions offset (List.range len)
            (ForwardFlow.initial 0) with
          | .error diagnostic => .error diagnostic
          | .ok states =>
              match states len with
              | some state =>
                  if state.testBit 0 then .ok ()
                  else .error ⟨.invalidProgram, offset + len, none, 0,
                    "result register is not initialized on every exit"⟩
              | none => .error ⟨.invalidProgram, offset + len, none, 0,
                  "result register is not initialized on every exit"⟩

end Verifier

end QueryVm
