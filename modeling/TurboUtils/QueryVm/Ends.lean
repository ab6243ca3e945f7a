import TurboUtils.QueryVm.Runs

/-! Rules for what the rest of a run makes of its registers, from the last instruction back to the
first one. -/
namespace QueryVm

variable {σ V : Type} (instructions : ℕ → Instruction) (ops : ExecOps σ V)
  (input : Option ExecInput) (stop : ℕ)

/-- From these registers at a counter, a run that has steps enough ends with a value. -/
def Ends (pc : ℕ) (registers : ℕ → V) (ctx : σ) (value : V) : Prop :=
  ∀ budget (m : Machine σ V), m.registers = registers → m.ctx = ctx → stop ≤ pc + budget →
    (executeLoop instructions ops input stop budget pc m).2 = .ok value

variable {instructions ops input stop} {pc : ℕ} {registers : ℕ → V} {ctx : σ} {value : V}

theorem Ends.done (h : stop ≤ pc) :
    Ends instructions ops input stop pc registers ctx (registers 0) := by
  intro budget m hregisters _ _
  rw [executeLoop.eq_def, if_pos h, hregisters]

/-- One instruction that goes on. -/
theorem Ends.step {next : ℕ} {registers' : ℕ → V} {ctx' : σ} (hpc : pc < stop)
    (hvalid : (instructions pc).execProblem pc stop = none) (hnext : pc < next)
    (hperform : ∀ m : Machine σ V, m.registers = registers → m.ctx = ctx →
      (m.perform ops input (instructions pc) pc).2 = .ok next ∧
        (m.perform ops input (instructions pc) pc).1.registers = registers' ∧
          (m.perform ops input (instructions pc) pc).1.ctx = ctx')
    (h : Ends instructions ops input stop next registers' ctx' value) :
    Ends instructions ops input stop pc registers ctx value := by
  intro budget m hregisters hctx hbudget
  obtain ⟨budget, rfl⟩ : ∃ b, budget = b + 1 := ⟨budget - 1, by omega⟩
  obtain ⟨hok, hregisters', hctx'⟩ := hperform { m with steps := m.steps + 1 } hregisters hctx
  rw [executeLoop.eq_def, if_neg (not_le.2 hpc), hvalid]
  dsimp only
  split
  next m' pc' heq =>
    rw [heq] at hok hregisters' hctx'
    cases hok
    exact h budget m' hregisters' hctx' (by omega)
  next m' failure heq =>
    rw [heq] at hok
    cases hok

theorem performs_store {insn : Instruction} {written : V} {ctx' : σ} (pc : ℕ)
    (hwrites : insn.op.writesRegister = true)
    (hoperate : ∀ m : Machine σ V, m.registers = registers → m.ctx = ctx →
      (m.operate ops input insn).2 = none ∧
        (m.operate ops input insn).1.registers = Function.update registers insn.dst written ∧
          (m.operate ops input insn).1.ctx = ctx') (m : Machine σ V)
    (hregisters : m.registers = registers) (hctx : m.ctx = ctx) :
    (m.perform ops input insn pc).2 = .ok (pc + 1) ∧
      (m.perform ops input insn pc).1.registers = Function.update registers insn.dst written ∧
        (m.perform ops input insn pc).1.ctx = ctx' := by
  obtain ⟨hnone, hregisters', hctx'⟩ := hoperate m hregisters hctx
  rw [perform_of_writes ops input hwrites, hnone]
  exact ⟨rfl, hregisters', hctx'⟩

theorem Ends.store {written : V} {ctx' : σ} (hpc : pc < stop)
    (hvalid : (instructions pc).execProblem pc stop = none)
    (hwrites : (instructions pc).op.writesRegister = true)
    (hoperate : ∀ m : Machine σ V, m.registers = registers → m.ctx = ctx →
      (m.operate ops input (instructions pc)).2 = none ∧
        (m.operate ops input (instructions pc)).1.registers =
          Function.update registers (instructions pc).dst written ∧
            (m.operate ops input (instructions pc)).1.ctx = ctx')
    (h : Ends instructions ops input stop (pc + 1)
      (Function.update registers (instructions pc).dst written) ctx' value) :
    Ends instructions ops input stop pc registers ctx value :=
  h.step hpc hvalid (Nat.lt_succ_self pc) (performs_store pc hwrites hoperate)

def Instruction.branch (insn : Instruction) (pc : ℕ) (taken : Bool) : ℕ :=
  if taken = decide (insn.op = .jmpTrue) then insn.arg else pc + 1

theorem Instruction.lt_branch {insn : Instruction} {taken : Bool} (htarget : pc < insn.arg) :
    pc < insn.branch pc taken := by
  unfold branch
  split_ifs
  · exact htarget
  · exact Nat.lt_succ_self pc

/-- A conditional jump changes no register. -/
theorem performs_branch {insn : Instruction} {taken : Bool} {ctx' : σ} (pc : ℕ)
    (hop : insn.op = .jmpFalse ∨ insn.op = .jmpTrue)
    (htruthy : ops.truthy ctx (registers insn.src1) = (taken, ctx')) (m : Machine σ V)
    (hregisters : m.registers = registers) (hctx : m.ctx = ctx) :
    (m.perform ops input insn pc).2 = .ok (insn.branch pc taken) ∧
      (m.perform ops input insn pc).1.registers = registers ∧
        (m.perform ops input insn pc).1.ctx = ctx' := by
  obtain ⟨op, reserved, dst, arg, src1, src2⟩ := insn
  subst hregisters hctx
  dsimp only at hop htruthy
  rcases hop with rfl | rfl
  · refine ⟨?_, rfl, congrArg Prod.snd htruthy⟩
    change Except.ok (if (ops.truthy m.ctx (m.registers src1)).1 then pc + 1 else arg) = _
    rw [htruthy]
    cases taken <;> rfl
  · refine ⟨?_, rfl, congrArg Prod.snd htruthy⟩
    change Except.ok (if (ops.truthy m.ctx (m.registers src1)).1 then arg else pc + 1) = _
    rw [htruthy]
    cases taken <;> rfl

theorem Ends.branch {taken : Bool} {ctx' : σ} (hpc : pc < stop)
    (hvalid : (instructions pc).execProblem pc stop = none)
    (hop : (instructions pc).op = .jmpFalse ∨ (instructions pc).op = .jmpTrue)
    (htarget : pc < (instructions pc).arg)
    (htruthy : ops.truthy ctx (registers (instructions pc).src1) = (taken, ctx'))
    (h : Ends instructions ops input stop ((instructions pc).branch pc taken) registers ctx' value) :
    Ends instructions ops input stop pc registers ctx value :=
  h.step hpc hvalid (Instruction.lt_branch htarget) (performs_branch pc hop htruthy)

theorem Ends.executeGeneral {offset len instructionCount : ℕ} {limits : Limits}
    (h : Ends instructions ops input (offset + len) offset (fun _ => ops.zero) ctx value)
    (hnonempty : 0 < len) (hslice : offset + len ≤ instructionCount)
    (hinstructions : len ≤ limits.maxInstructions) (hsteps : len ≤ limits.maxSteps) :
    (executeGeneral instructions ops input instructionCount offset len limits ctx).2 =
      .ok value := by
  unfold QueryVm.executeGeneral
  rw [executeArguments_eq_none hnonempty hslice hinstructions]
  exact h _ _ rfl rfl (by omega)

/-! Runs that are short of nothing: the registers of the VM are as many as the program asks for. -/

variable {σ V : Type} (instructions : ℕ → Instruction) (ops : ExecOps σ V)
  (input : Option ExecInput) (stop : ℕ)

/-- The loop of `qvm_execute_ex` without its checks. -/
def runLoop : ℕ → ℕ → Machine σ V → Option V
  | 0, pc, m => if stop ≤ pc then some (m.registers 0) else none
  | budget + 1, pc, m =>
      if stop ≤ pc then some (m.registers 0)
      else match m.perform ops input (instructions pc) pc with
        | (m, .ok pc) => runLoop budget pc m
        | (_, .error _) => none

/-- From these registers at a counter, steps that go forward lead to a value. -/
inductive Yields : ℕ → (ℕ → V) → σ → V → Prop
  | done {pc : ℕ} {registers : ℕ → V} {ctx : σ} (h : stop ≤ pc) :
      Yields pc registers ctx (registers 0)
  | step {pc next : ℕ} {registers registers' : ℕ → V} {ctx ctx' : σ} {value : V} (hpc : pc < stop)
      (hnext : pc < next)
      (hperform : ∀ m : Machine σ V, m.registers = registers → m.ctx = ctx →
        (m.perform ops input (instructions pc) pc).2 = .ok next ∧
          (m.perform ops input (instructions pc) pc).1.registers = registers' ∧
            (m.perform ops input (instructions pc) pc).1.ctx = ctx')
      (h : Yields next registers' ctx' value) : Yields pc registers ctx value

variable {instructions ops input stop} {pc : ℕ} {registers : ℕ → V} {ctx : σ} {value : V}

theorem Yields.ends (h : Yields instructions ops input stop pc registers ctx value)
    (hchecked : ∀ pc', pc ≤ pc' → pc' < stop → (instructions pc').execProblem pc' stop = none) :
    Ends instructions ops input stop pc registers ctx value := by
  induction h with
  | done h => exact Ends.done h
  | step hpc hnext hperform h ih =>
    exact Ends.step hpc (hchecked _ le_rfl hpc) hnext hperform
      (ih fun pc' hle => hchecked pc' (hnext.le.trans hle))

theorem Yields.store {insn : Instruction} {written : V} {ctx' : σ} (hpc : pc < stop)
    (hinsn : instructions pc = insn) (hwrites : insn.op.writesRegister = true)
    (hoperate : ∀ m : Machine σ V, m.registers = registers → m.ctx = ctx →
      (m.operate ops input insn).2 = none ∧
        (m.operate ops input insn).1.registers = Function.update registers insn.dst written ∧
          (m.operate ops input insn).1.ctx = ctx')
    (h : Yields instructions ops input stop (pc + 1)
      (Function.update registers insn.dst written) ctx' value) :
    Yields instructions ops input stop pc registers ctx value := by
  subst hinsn
  exact .step hpc (Nat.lt_succ_self pc) (performs_store pc hwrites hoperate) h

theorem Yields.branch {insn : Instruction} {taken : Bool} {ctx' : σ} (hpc : pc < stop)
    (hinsn : instructions pc = insn) (hop : insn.op = .jmpFalse ∨ insn.op = .jmpTrue)
    (htarget : pc < insn.arg) (htruthy : ops.truthy ctx (registers insn.src1) = (taken, ctx'))
    (h : Yields instructions ops input stop (insn.branch pc taken) registers ctx' value) :
    Yields instructions ops input stop pc registers ctx value := by
  subst hinsn
  exact .step hpc (Instruction.lt_branch htarget) (performs_branch pc hop htruthy) h

end QueryVm
