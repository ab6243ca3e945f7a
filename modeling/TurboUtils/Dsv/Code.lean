import TurboUtils.Dsv.Lower
import TurboUtils.QueryVm.Ends

/-! What the builder appends, and what the instructions of a filter do to the registers. -/
namespace Dsv

open QueryVm

variable {ν : Type}

/-! ## The builder -/

/-- A builder gets these instructions, and perhaps more operands. -/
structure Builder.Grows (b b' : Builder ν) (code : List Instruction) : Prop where
  insns : b'.insns = b.insns ++ code
  operands : b.operands <+: b'.operands

namespace Builder.Grows

theorem refl (b : Builder ν) : b.Grows b [] := ⟨(List.append_nil _).symm, List.prefix_rfl⟩

theorem trans {b b' b'' : Builder ν} {code code' : List Instruction} (h : b.Grows b' code)
    (h' : b'.Grows b'' code') : b.Grows b'' (code ++ code') :=
  ⟨by rw [h'.insns, h.insns, List.append_assoc], h.operands.trans h'.operands⟩

theorem length {b b' : Builder ν} {code : List Instruction} (h : b.Grows b' code) :
    b'.insns.length = b.insns.length + code.length := by
  rw [h.insns, List.length_append]

end Builder.Grows

theorem emit_eq_some {b b' : Builder ν} {insn : Instruction} (h : b.emit insn = some b') :
    b'.insns = b.insns ++ [insn] ∧ b'.operands = b.operands := by
  unfold Builder.emit at h
  dsimp only at h
  split_ifs at h <;> cases h <;> exact ⟨rfl, rfl⟩

theorem addOperand_eq_some {b b' : Builder ν} {operand : Operand ν} {i : ℕ}
    (h : b.addOperand operand = some (i, b')) :
    i = b.operands.length ∧ b'.insns = b.insns ∧ b'.operands = b.operands ++ [operand] := by
  unfold Builder.addOperand at h
  dsimp only at h
  split_ifs at h <;> cases h <;> exact ⟨rfl, rfl, rfl⟩

theorem grows_emit {b b' : Builder ν} {insn : Instruction} (h : b.emit insn = some b') :
    b.Grows b' [insn] :=
  ⟨(emit_eq_some h).1, (emit_eq_some h).2 ▸ List.prefix_rfl⟩

theorem grows_addOperand {b b' : Builder ν} {operand : Operand ν} {i : ℕ}
    (h : b.addOperand operand = some (i, b')) : b.Grows b' [] := by
  obtain ⟨-, hinsns, hoperands⟩ := addOperand_eq_some h
  exact ⟨by rw [hinsns, List.append_nil], by rw [hoperands]; exact List.prefix_append _ _⟩

/-! ## Slices -/

namespace Slice

variable (slice : Slice ν)

/-- The code stands at a counter. -/
def Has (pc : ℕ) (code : List Instruction) : Prop := code <+: slice.insns.drop pc

def Checked : Prop :=
  ∀ pc < slice.insns.length, (slice.at pc).execProblem pc slice.insns.length = none

variable {slice}

theorem has_append {pc : ℕ} {code code' : List Instruction} :
    slice.Has pc (code ++ code') ↔ slice.Has pc code ∧ slice.Has (pc + code.length) code' := by
  unfold Has
  rw [← List.drop_drop]
  constructor
  · rintro ⟨after, hafter⟩
    rw [← hafter, List.append_assoc, List.drop_left]
    exact ⟨List.prefix_append _ _, List.prefix_append _ _⟩
  · rintro ⟨⟨after, hafter⟩, hprefix⟩
    rw [← hafter, List.drop_left] at hprefix
    rw [← hafter]
    exact (List.prefix_append_right_inj code).2 hprefix

theorem has_of_append {init code : List Instruction} (h : init ++ code <+: slice.insns) :
    slice.Has init.length code := by
  obtain ⟨after, hafter⟩ := h
  unfold Has
  rw [← hafter, List.append_assoc, List.drop_left]
  exact List.prefix_append _ _

theorem Has.single {pc : ℕ} {insn : Instruction} (h : slice.Has pc [insn]) :
    pc < slice.insns.length ∧ slice.at pc = insn := by
  obtain ⟨after, hafter⟩ := h
  have hget : slice.insns[pc]? = some insn := by
    rw [← Nat.add_zero pc, ← List.getElem?_drop, ← hafter]
    rfl
  refine ⟨(List.getElem?_eq_some_iff.1 hget).1, ?_⟩
  rw [Slice.at, List.getD_eq_getElem?_getD, hget]
  rfl

variable (slice) (N : Numbers ν) (row : Row ν)

/-- From these registers at a counter, a run of the slice ends with a value. -/
abbrev Ends (pc : ℕ) (registers : ℕ → Value ν) (value : Value ν) : Prop :=
  QueryVm.Ends slice.at (qvmOps N row slice.operands) none slice.insns.length pc registers () value

/-- From a counter where the registers meet a condition, a run gets to a later counter where they
meet another one. -/
def Leads (pc : ℕ) (P : (ℕ → Value ν) → Prop) (pc' : ℕ) (Q : (ℕ → Value ν) → Prop) : Prop :=
  ∀ value, (∀ registers, Q registers → slice.Ends N row pc' registers value) →
    ∀ registers, P registers → slice.Ends N row pc registers value

variable {slice N row}

theorem Leads.refl {pc : ℕ} {P : (ℕ → Value ν) → Prop} : slice.Leads N row pc P pc P :=
  fun _ h => h

theorem Leads.trans {pc pc' pc'' : ℕ} {P Q R : (ℕ → Value ν) → Prop}
    (h : slice.Leads N row pc P pc' Q) (h' : slice.Leads N row pc' Q pc'' R) :
    slice.Leads N row pc P pc'' R :=
  fun value hvalue => h value (h' value hvalue)

theorem Leads.weaken {pc pc' : ℕ} {P P' Q : (ℕ → Value ν) → Prop}
    (h : slice.Leads N row pc P pc' Q) (himp : ∀ registers, P' registers → P registers) :
    slice.Leads N row pc P' pc' Q :=
  fun value hvalue registers hregisters => h value hvalue registers (himp registers hregisters)

/-! ## One instruction -/

section Instructions

variable {pc : ℕ} {P Q : (ℕ → Value ν) → Prop} (hchecked : slice.Checked)

include hchecked

theorem leads_store {insn : Instruction} {written : Value ν} (hhas : slice.Has pc [insn])
    (hwrites : insn.op.writesRegister = true)
    (hQ : ∀ registers, P registers → Q (Function.update registers insn.dst written))
    (hoperate : ∀ m : Machine Unit (Value ν), P m.registers →
      (m.operate (qvmOps N row slice.operands) none insn).2 = none ∧
        (m.operate (qvmOps N row slice.operands) none insn).1.registers =
          Function.update m.registers insn.dst written) :
    slice.Leads N row pc P (pc + 1) Q := by
  intro value hvalue registers hregisters
  obtain ⟨hpc, hinsn⟩ := hhas.single
  subst hinsn
  refine QueryVm.Ends.store hpc (hchecked pc hpc) hwrites (fun m hm _ => ?_)
    (hvalue _ (hQ registers hregisters))
  subst hm
  obtain ⟨hnone, hstored⟩ := hoperate m hregisters
  exact ⟨hnone, hstored, rfl⟩

theorem leads_load {op : Opcode} {reg operand : ℕ} {written : Value ν}
    (hop : op = .loadConst ∨ op = .loadPath) (hhas : slice.Has pc [⟨op, 0, reg, 0, operand, 0⟩])
    (hresolve : resolveValue row slice.operands operand = some written)
    (hQ : ∀ registers, P registers → Q (Function.update registers reg written)) :
    slice.Leads N row pc P (pc + 1) Q := by
  refine leads_store hchecked hhas (by rcases hop with rfl | rfl <;> rfl)
    hQ fun m hm => ?_
  rcases hop with rfl | rfl
  · simp [Machine.operate, Machine.load, Machine.note, Machine.store, qvmOps, answer, hresolve]
  · simp [Machine.operate, Machine.load, Machine.note, Machine.store, qvmOps, answer, hresolve]

theorem leads_neg {reg : ℕ} {value : ν} (hhas : slice.Has pc [⟨.neg, 0, reg, 0, reg, 0⟩])
    (hP : ∀ registers, P registers → registers reg = .number value)
    (hQ : ∀ registers, P registers → Q (Function.update registers reg (.number (N.neg value)))) :
    slice.Leads N row pc P (pc + 1) Q := by
  refine leads_store hchecked hhas rfl hQ fun m hm => ?_
  simp [Machine.operate, Machine.unary, Machine.storeAnswer, Machine.note, Machine.store, qvmOps,
    answer, hP m.registers hm]

/-- A binary operation on two numbers. -/
theorem leads_binary {op : Opcode} {dst arg src1 src2 : ℕ} {lhs rhs : ν} {written : Value ν}
    (hop : op = .add ∨ op = .sub ∨ op = .mul ∨ op = .div ∨ op = .cmp)
    (hhas : slice.Has pc [⟨op, 0, dst, arg, src1, src2⟩])
    (hP : ∀ registers, P registers → registers src1 = .number lhs ∧ registers src2 = .number rhs)
    (hwritten : binaryValue N op arg (.number lhs) (.number rhs) = some written)
    (hQ : ∀ registers, P registers → Q (Function.update registers dst written)) :
    slice.Leads N row pc P (pc + 1) Q := by
  have hwrites : op.writesRegister = true := by rcases hop with rfl | rfl | rfl | rfl | rfl <;> rfl
  refine leads_store hchecked hhas hwrites hQ fun m hm => ?_
  obtain ⟨hlhs, hrhs⟩ := hP m.registers hm
  have hoperate : m.operate (qvmOps N row slice.operands) none ⟨op, 0, dst, arg, src1, src2⟩ =
      m.binary (qvmOps N row slice.operands) ⟨op, 0, dst, arg, src1, src2⟩ := by
    rcases hop with rfl | rfl | rfl | rfl | rfl <;> rfl
  rw [hoperate]
  simp [Machine.binary, Machine.storeAnswer, Machine.note, Machine.store, qvmOps, answer, hlhs,
    hrhs, hwritten]

theorem leads_leaf {op : Opcode} {arg src1 src2 : ℕ} {written : Value ν}
    (hop : op = .cmpLeafNumber ∨ op = .cmpLeafString)
    (hhas : slice.Has pc [⟨op, 0, 0, arg, src1, src2⟩])
    (hwritten : leafValue N row slice.operands op arg src1 src2 = some written) :
    slice.Leads N row pc P (pc + 1) fun registers => registers 0 = written := by
  refine leads_store hchecked hhas (by rcases hop with rfl | rfl <;> rfl)
    (fun registers _ => Function.update_self ..) fun m _ => ?_
  rcases hop with rfl | rfl
  · simp [Machine.operate, Machine.execLeaf, Machine.storeAnswer, Machine.note, Machine.store,
      qvmOps, answer, hwritten]
  · simp [Machine.operate, Machine.execLeaf, Machine.storeAnswer, Machine.note, Machine.store,
      qvmOps, answer, hwritten]

end Instructions

end Slice

end Dsv
