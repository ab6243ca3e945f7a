import TurboUtils.QueryVm.Verified

/-! A slice that the verifier accepts runs to its end, and on the way reads only what it has written
and hands the backend only what is in its tables. -/
namespace QueryVm

open ForwardFlow

variable {σ V : Type}

/-! ## Proper logs -/

def Access.Allowed (registerCount operandCount regexCount : ℕ) (log : List Access) : Access → Prop
  | .read r => r < registerCount ∧ .write r ∈ log
  | .write r => r < registerCount
  | .operand op i => i < operandCount ∨ i = noOperand ∧ (op = .length ∨ op = .cmpLengthLeaf)
  | .regex i => i < regexCount ∨ i = noOperand

/-- Every access of the log is allowed after those before it. -/
def Proper (registerCount operandCount regexCount : ℕ) (log : List Access) : Prop :=
  ∀ before access after, log = before ++ access :: after →
    access.Allowed registerCount operandCount regexCount before

variable {registerCount operandCount regexCount : ℕ}

theorem Proper.nil : Proper registerCount operandCount regexCount [] := fun before access after h =>
  absurd h.symm (by simp)

theorem Proper.concat {log : List Access} {access : Access}
    (h : Proper registerCount operandCount regexCount log)
    (hallowed : access.Allowed registerCount operandCount regexCount log) :
    Proper registerCount operandCount regexCount (log ++ [access]) := by
  intro before access' after heq
  rcases List.eq_nil_or_concat after with rfl | ⟨after', last, rfl⟩
  · obtain ⟨rfl, hlast⟩ := List.append_inj' heq rfl
    cases hlast
    exact hallowed
  · rw [List.concat_eq_append, ← List.cons_append, ← List.append_assoc] at heq
    exact h before access' after' (List.append_inj' heq rfl).1

theorem Access.Allowed.mono {access : Access} {log more : List Access}
    (h : access.Allowed registerCount operandCount regexCount log) :
    access.Allowed registerCount operandCount regexCount (log ++ more) := by
  cases access with
  | read r => exact ⟨h.1, List.mem_append_left _ h.2⟩
  | write r => exact h
  | operand op i => exact h
  | regex i => exact h

theorem Proper.append {log more : List Access}
    (h : Proper registerCount operandCount regexCount log)
    (hmore : ∀ access ∈ more, access.Allowed registerCount operandCount regexCount log) :
    Proper registerCount operandCount regexCount (log ++ more) := by
  induction more generalizing log with
  | nil =>
    rw [List.append_nil]
    exact h
  | cons access more ih =>
    rw [List.append_cons]
    rw [List.forall_mem_cons] at hmore
    exact ih (h.concat hmore.1) fun access' hmem => (hmore.2 access' hmem).mono

/-! ## What one instruction does -/

namespace Instruction

variable (insn : Instruction)

def mayAccess : List Access :=
  insn.reads.map .read ++ insn.operands.map (.operand insn.op) ++
    insn.lengthOperand.toList.map (.operand insn.op) ++ insn.regex.toList.map .regex

variable {insn}

theorem InRange.mayAccess {pc stop : ℕ} {log : List Access}
    (h : insn.InRange pc stop registerCount operandCount regexCount)
    (hreads : ∀ r ∈ insn.reads, .write r ∈ log) : ∀ access ∈ insn.mayAccess,
      access.Allowed registerCount operandCount regexCount log := by
  intro access hmem
  simp only [Instruction.mayAccess, List.mem_append, List.mem_map, Option.mem_toList] at hmem
  rcases hmem with ((⟨r, hr, rfl⟩ | ⟨i, hi, rfl⟩) | ⟨i, hi, rfl⟩) | ⟨i, hi, rfl⟩
  · exact ⟨h.reads r hr, hreads r hr⟩
  · exact .inl (h.operands i hi)
  · refine (h.length i hi).symm.imp_right fun heq => ⟨heq, ?_⟩
    unfold lengthOperand at hi
    split at hi
    next hop => exact .inl hop
    next hop => exact .inr hop
    · cases hi
  · exact (h.regex i hi).symm

end Instruction

/-- Some accesses of these, then the register unless there is a failure, and nothing else. -/
structure Proceeds (register : ℕ) (may : List Access) (m : Machine σ V)
    (result : Machine σ V × Option Failure) : Prop where
  steps : result.1.steps = m.steps
  log : ∃ accesses, (∀ access ∈ accesses, access ∈ may) ∧
    result.1.log = m.log ++ accesses ++ if result.2 = none then [.write register] else []
  failure : ∀ failure ∈ result.2, failure.1 = .unsupported ∨ failure.1 = .backendError

section Proceeds

variable {register : ℕ} {may : List Access} {m : Machine σ V}

theorem Proceeds.note {accesses : List Access} {result : Machine σ V × Option Failure}
    (h : Proceeds register may (m.note accesses) result)
    (hmay : ∀ access ∈ accesses, access ∈ may) : Proceeds register may m result := by
  obtain ⟨more, hmore, hlog⟩ := h.log
  refine ⟨h.steps, ⟨accesses ++ more, fun access hmem => ?_, ?_⟩, h.failure⟩
  · exact (List.mem_append.1 hmem).elim (hmay access) (hmore access)
  · rw [hlog, ← List.append_assoc m.log]
    rfl

theorem proceeds_store (value : V) (ctx : σ) :
    Proceeds register may m (m.store register value ctx, none) :=
  ⟨rfl, ⟨[], nofun, by simp [Machine.store]⟩, nofun⟩

theorem proceeds_fail {failure : Failure} (ctx : σ)
    (h : failure.1 = .unsupported ∨ failure.1 = .backendError) :
    Proceeds register may m ({ m with ctx := ctx }, some failure) :=
  ⟨rfl, ⟨[], nofun, by simp⟩, fun _ hmem => by cases hmem; exact h⟩

theorem proceeds_storeMade (make : σ → V → V × σ) :
    Proceeds register may m (m.storeMade register make) :=
  proceeds_store ..

theorem proceeds_storeAnswer (answer : Answer σ V Bool) {failure : Failure}
    (h : failure.1 = .unsupported ∨ failure.1 = .backendError) :
    Proceeds register may m (m.storeAnswer register answer failure) := by
  unfold Machine.storeAnswer
  split_ifs
  · exact proceeds_store ..
  · exact proceeds_fail _ h

theorem Proceeds.ofCtx {ctx : σ} {result : Machine σ V × Option Failure}
    (h : Proceeds register may { m with ctx := ctx } result) : Proceeds register may m result :=
  ⟨h.steps, h.log, h.failure⟩

variable (ops : ExecOps σ V) {insn : Instruction}

theorem proceeds_storeExists (invert : Bool) (hmay : .operand insn.op insn.src1 ∈ may) :
    Proceeds register may m (m.storeExists ops insn invert register) := by
  unfold Machine.storeExists
  dsimp only
  split
  · exact proceeds_fail m.ctx (.inr rfl)
  · refine Proceeds.note (?_ : Proceeds _ _ (m.note [.operand insn.op insn.src1]) _)
      (by simpa using hmay)
    split
    · exact (proceeds_storeMade _).ofCtx
    · exact proceeds_fail _ (.inr rfl)

theorem proceeds_execLeaf (hleaf : .operand insn.op insn.src1 ∈ may)
    (hleaf' : .operand insn.op insn.src2 ∈ may) :
    Proceeds register may m (m.execLeaf ops insn register) := by
  unfold Machine.execLeaf
  dsimp only
  split
  · exact proceeds_fail m.ctx (.inl rfl)
  · refine Proceeds.note (proceeds_storeAnswer _ (.inr rfl)) ?_
    simp [hleaf, hleaf']

theorem proceeds_load (hmay : .operand insn.op insn.src1 ∈ may) :
    Proceeds insn.dst may m (m.load ops insn) := by
  unfold Machine.load
  dsimp only
  refine Proceeds.note (?_ : Proceeds _ _ (m.note [.operand insn.op insn.src1]) _)
    (by simpa using hmay)
  split_ifs
  · exact proceeds_store ..
  · exact proceeds_store ..

theorem proceeds_measure {callback : Option (σ → ℕ → V → Answer σ V Bool)} {message : String}
    (hmay : .operand insn.op insn.src1 ∈ may) :
    Proceeds insn.dst may m (m.measure insn callback message) := by
  unfold Machine.measure
  dsimp only
  split
  · exact proceeds_fail m.ctx (.inr rfl)
  · exact Proceeds.note (proceeds_storeAnswer _ (.inr rfl)) (by simpa using hmay)

theorem proceeds_binary (hmay : .read insn.src1 ∈ may) (hmay' : .read insn.src2 ∈ may)
    (hregex : insn.op = .match_ ∨ insn.op = .matchFull ∨ insn.op = .search →
      .regex insn.arg ∈ may) : Proceeds insn.dst may m (m.binary ops insn) := by
  unfold Machine.binary
  refine Proceeds.note (proceeds_storeAnswer _ (.inr rfl)) ?_
  split_ifs with hop
  · simp only [Bool.or_eq_true, decide_eq_true_eq, or_assoc] at hop
    simp [hmay, hmay', hregex hop]
  · simp [hmay, hmay']

theorem proceeds_unary (hmay : .read insn.src1 ∈ may) :
    Proceeds insn.dst may m (m.unary ops insn) := by
  unfold Machine.unary
  dsimp only
  split
  · exact proceeds_fail m.ctx (.inr rfl)
  · exact Proceeds.note (proceeds_storeAnswer _ (.inr rfl)) (by simpa using hmay)

theorem proceeds_not (hmay : .read insn.src1 ∈ may) :
    Proceeds insn.dst may m (m.not ops insn) := by
  refine Proceeds.note (?_ : Proceeds _ _ (m.note [.read insn.src1]) _) (by simpa using hmay)
  exact (proceeds_store _ _).ofCtx

theorem proceeds_select (hmay : .read insn.src1 ∈ may) (hmay' : .read insn.src2 ∈ may)
    (hmay'' : .read insn.arg ∈ may) : Proceeds insn.dst may m (m.select ops insn) := by
  refine Proceeds.note (?_ : Proceeds _ _ (m.note [.read insn.src1]) _) (by simpa using hmay)
  refine Proceeds.ofCtx (Proceeds.note (proceeds_store _ _) ?_)
  split_ifs
  · simpa using hmay'
  · simpa using hmay''

theorem proceeds_loadKey (input : Option ExecInput) :
    Proceeds insn.dst may m (m.loadKey ops input insn) := by
  unfold Machine.loadKey
  split
  · exact proceeds_storeMade _
  · exact proceeds_storeMade _

theorem proceeds_loadIndex (input : Option ExecInput) :
    Proceeds insn.dst may m (m.loadIndex ops input insn) := by
  unfold Machine.loadIndex
  split
  · split_ifs
    · exact proceeds_storeMade _
    · exact proceeds_storeMade _
  · exact proceeds_storeMade _

theorem proceeds_operate (input : Option ExecInput) (hop : insn.op.writesRegister = true)
    (hknown : insn.op.isUnknown = false) :
    Proceeds insn.dst insn.mayAccess m (m.operate ops input insn) := by
  obtain ⟨op, reserved, dst, arg, src1, src2⟩ := insn
  cases op with
  | loadPath | loadConst =>
    exact proceeds_load ops (by simp [Instruction.mayAccess, Instruction.operands])
  | loadKey => exact proceeds_loadKey ops input
  | loadIndex => exact proceeds_loadIndex ops input
  | loadInvalid | true | false => exact proceeds_store _ _
  | exists_ | notExists =>
    exact proceeds_storeExists ops _ (by simp [Instruction.mayAccess, Instruction.operands])
  | length =>
    exact proceeds_measure (by simp [Instruction.mayAccess, Instruction.lengthOperand])
  | count => exact proceeds_measure (by simp [Instruction.mayAccess, Instruction.operands])
  | cmpLeaf | cmpLeafNumber | cmpLeafString | cmpCountLeaf | cmpLengthLeaf =>
    exact proceeds_execLeaf ops
      (by simp [Instruction.mayAccess, Instruction.operands, Instruction.lengthOperand])
      (by simp [Instruction.mayAccess, Instruction.operands, Instruction.lengthOperand])
  | cmp | match_ | contains | containsCi | matchFull | search | add | sub | mul | div | mod | union
  | band | bor | bxor | lshift | rshift | cat =>
    exact proceeds_binary ops
      (by simp [Instruction.mayAccess, Instruction.reads, Opcode.isBinary])
      (by simp [Instruction.mayAccess, Instruction.reads, Opcode.isBinary])
      (by simp [Instruction.mayAccess, Instruction.regex])
  | neg | bnot =>
    exact proceeds_unary ops (by simp [Instruction.mayAccess, Instruction.reads, Opcode.isBinary])
  | not =>
    exact proceeds_not ops (by simp [Instruction.mayAccess, Instruction.reads, Opcode.isBinary])
  | select =>
    exact proceeds_select ops
      (by simp [Instruction.mayAccess, Instruction.reads, Opcode.isBinary])
      (by simp [Instruction.mayAccess, Instruction.reads, Opcode.isBinary])
      (by simp [Instruction.mayAccess, Instruction.reads, Opcode.isBinary])
  | jmpFalse | jmpTrue | jmp => cases hop
  | unknown => cases hknown

end Proceeds

/-! ## One step -/

section Steps

variable (ops : ExecOps σ V) (input : Option ExecInput)

theorem perform_of_writes {insn : Instruction} (h : insn.op.writesRegister = true) (pc : ℕ)
    (m : Machine σ V) : m.perform ops input insn pc =
      ((m.operate ops input insn).1, match (m.operate ops input insn).2 with
        | none => .ok (pc + 1)
        | some failure => .error failure) := by
  obtain ⟨op, reserved, dst, arg, src1, src2⟩ := insn
  unfold Machine.perform
  cases op with
  | jmpFalse | jmpTrue | jmp => cases h
  | _ =>
    dsimp only
    split
    next heq => rw [heq]
    next heq => rw [heq]

structure Performs (insn : Instruction) (pc : ℕ) (m : Machine σ V)
    (outcome : Machine σ V × Except Failure ℕ) : Prop where
  steps : outcome.1.steps = m.steps
  log : ∃ accesses, (∀ access ∈ accesses, access ∈ insn.mayAccess) ∧
    outcome.1.log = m.log ++ accesses ++
      if outcome.2.isOk then insn.writes.toList.map .write else []
  next : ∀ pc', outcome.2 = .ok pc' → pc' ∈ insn.target ∨ pc' = pc + 1 ∧ insn.op ≠ .jmp
  failure : ∀ failure, outcome.2 = .error failure →
    failure.1 = .unsupported ∨ failure.1 = .backendError

theorem performs {insn : Instruction} (hknown : insn.op.isUnknown = false) (pc : ℕ)
    (m : Machine σ V) : Performs insn pc m (m.perform ops input insn pc) := by
  by_cases hop : insn.op.writesRegister = true
  · have hproceeds := proceeds_operate ops (m := m) input hop hknown
    obtain ⟨accesses, hmay, hlog⟩ := hproceeds.log
    have hwrites : insn.writes = some insn.dst := if_pos hop
    have hjmp : insn.op ≠ .jmp := by
      intro heq
      rw [heq] at hop
      cases hop
    rw [perform_of_writes ops input hop]
    cases hresult : (m.operate ops input insn).2 with
    | none =>
      rw [hresult] at hlog
      refine ⟨hproceeds.steps, ⟨accesses, hmay, ?_⟩, fun pc' heq => ?_, by simp⟩
      · rw [hwrites]
        exact hlog
      · cases heq
        exact .inr ⟨rfl, hjmp⟩
    | some failure =>
      rw [hresult] at hlog
      refine ⟨hproceeds.steps, ⟨accesses, hmay, hlog⟩, by simp, fun failure' heq => ?_⟩
      cases heq
      exact hproceeds.failure failure hresult
  · obtain ⟨op, reserved, dst, arg, src1, src2⟩ := insn
    have hwrites : Instruction.writes ⟨op, reserved, dst, arg, src1, src2⟩ = none := if_neg hop
    cases op with
    | jmp =>
      refine ⟨rfl, ⟨[], by simp, by simp [Machine.perform, hwrites]⟩, fun pc' heq => ?_, by rintro _ ⟨⟩⟩
      cases heq
      exact .inl rfl
    | jmpFalse | jmpTrue =>
      refine ⟨rfl, ⟨[.read src1], ?_, ?_⟩, fun pc' heq => ?_, by rintro _ ⟨⟩⟩
      · simp [Instruction.mayAccess, Instruction.reads, Opcode.isBinary]
      · simp [Machine.perform, Machine.truth, Machine.note, hwrites, Except.isOk, Except.toBool]
      · simp only [Machine.perform, Except.ok.injEq] at heq
        split_ifs at heq
        · subst heq
          simp [Instruction.target]
        · subst heq
          simp [Instruction.target]
    | _ => exact absurd rfl hop

end Steps

/-! ## Runs -/

namespace Instruction

variable {insn : Instruction} {pc stop : ℕ}

theorem InRange.execProblem (h : insn.InRange pc stop registerCount operandCount regexCount)
    (hmax : registerCount ≤ maxRegisters) : insn.execProblem pc stop = none := by
  obtain ⟨op, reserved, dst, arg, src1, src2⟩ := insn
  rw [inRange_iff] at h
  unfold Instruction.execProblem
  simp only [ite_some_eq_none]
  cases op <;> simp_all [Opcode.isUnknown, Opcode.writesRegister, Opcode.isBinary,
    Instruction.reads, Instruction.writes, Instruction.target]
  all_goals omega

/-- Where an instruction goes on is one of its successors. -/
theorem mem_successors {offset i pc' : ℕ} (h : pc' ∈ insn.target ∨ pc' = offset + i + 1 ∧
    insn.op ≠ .jmp) (hforward : ∀ t ∈ insn.target, offset + i < t) :
    ∃ j ∈ insn.successors offset i, pc' = offset + j := by
  unfold Instruction.successors
  rcases h with h | ⟨rfl, hjmp⟩
  · have hlt := hforward pc' h
    unfold Instruction.target at h
    split at h
    next hop =>
      cases h
      rw [if_pos hop]
      exact ⟨_, List.mem_singleton_self _, by omega⟩
    next hop =>
      cases h
      rw [if_neg (by rw [hop]; nofun), if_pos (by simp [hop])]
      exact ⟨_, List.mem_cons_of_mem _ (List.mem_singleton_self _), by omega⟩
    next hop =>
      cases h
      rw [if_neg (by rw [hop]; nofun), if_pos (by simp [hop])]
      exact ⟨_, List.mem_cons_of_mem _ (List.mem_singleton_self _), by omega⟩
    · cases h
  · rw [if_neg hjmp]
    split_ifs
    · exact ⟨i + 1, List.mem_cons_self, rfl⟩
    · exact ⟨i + 1, List.mem_singleton_self _, rfl⟩

end Instruction

section Runs

variable {instructions : ℕ → Instruction} {offset len : ℕ}

variable (instructions offset len registerCount operandCount regexCount) in
/-- A run is at the end of a path, and has written what is written along it. -/
structure At (i : ℕ) (m : Machine σ V) : Prop where
  path : ∃ nodes, Path (edges instructions offset len) i nodes ∧ m.steps = nodes.length ∧
    ∀ r, WrittenAt instructions offset r nodes → .write r ∈ m.log
  proper : Proper registerCount operandCount regexCount m.log

variable (registerCount operandCount regexCount len) in
/-- The outcome of a run. -/
structure Safe (outcome : Machine σ V × Except Diagnostic V) : Prop where
  steps : outcome.1.steps ≤ len
  proper : Proper registerCount operandCount regexCount outcome.1.log
  result : ∀ value, outcome.2 = .ok value →
    value = outcome.1.registers 0 ∧ .write 0 ∈ outcome.1.log
  status : ∀ diagnostic, outcome.2 = .error diagnostic →
    diagnostic.status = .unsupported ∨ diagnostic.status = .backendError

variable {ops : ExecOps σ V} {input : Option ExecInput}
  (hfields : FieldsInRange instructions offset len registerCount operandCount regexCount)
  (hdefinite : Definite instructions offset len)

include hfields hdefinite

theorem at_perform {i : ℕ} (hi : i < len) {m : Machine σ V}
    (hat : At registerCount operandCount regexCount instructions offset len i m)
    {outcome : Machine σ V × Except Failure ℕ} (hperforms : Performs
      (instructions (offset + i)) (offset + i) { m with steps := m.steps + 1 } outcome) :
    outcome.1.steps ≤ len ∧ Proper registerCount operandCount regexCount outcome.1.log ∧
      ∀ pc, outcome.2 = .ok pc → ∃ j, pc = offset + j ∧ i < j ∧ j ≤ len ∧
        At registerCount operandCount regexCount instructions offset len j outcome.1 := by
  obtain ⟨nodes, hpath, hsteps, hwritten⟩ := hat.path
  have hforward : ∀ i, ∀ j ∈ edges instructions offset len i, i < j := fun i j hj =>
    (mem_edges hfields hj).1
  have hlength := hpath.length_le hforward
  have hrange := hfields i hi
  obtain ⟨accesses, hmay, hlog⟩ := hperforms.log
  have hallowed : ∀ access ∈ (instructions (offset + i)).mayAccess,
      access.Allowed registerCount operandCount regexCount m.log :=
    hrange.mayAccess fun r hr => hwritten r (hdefinite.reads i hi nodes hpath r hr)
  have hproper : Proper registerCount operandCount regexCount (m.log ++ accesses) :=
    hat.proper.append fun access hmem => hallowed access (hmay access hmem)
  have hproper' : Proper registerCount operandCount regexCount outcome.1.log := by
    rw [hlog]
    refine hproper.append fun access hmem => ?_
    split_ifs at hmem
    · obtain ⟨r, hr, rfl⟩ := List.mem_map.1 hmem
      exact hrange.writes r (Option.mem_toList.1 hr)
    · cases hmem
  refine ⟨?_, hproper', fun pc hpc => ?_⟩
  · rw [hperforms.steps]
    dsimp only
    omega
  · obtain ⟨j, hj, rfl⟩ := Instruction.mem_successors (hperforms.next pc hpc)
      fun t ht => (hrange.target t ht).1
    rw [← edges_of_lt hi] at hj
    obtain ⟨hij, hjlen⟩ := mem_edges hfields hj
    refine ⟨j, rfl, hij, hjlen, ⟨nodes ++ [i], hpath.step hj, ?_, fun r hr => ?_⟩, hproper'⟩
    · rw [hperforms.steps, List.length_append, List.length_singleton, ← hsteps]
    · have hok : (Except.ok (offset + j) : Except Failure ℕ).isOk = true := rfl
      rw [hlog, hpc, if_pos hok]
      obtain ⟨k, hk, hwrites⟩ := hr
      rcases List.mem_append.1 hk with hk | hk
      · exact List.mem_append_left _ (List.mem_append_left _ (hwritten r ⟨k, hk, hwrites⟩))
      · rw [List.mem_singleton.1 hk] at hwrites
        refine List.mem_append_right _ (List.mem_map.2 ⟨r, ?_, rfl⟩)
        rw [hwrites]
        exact List.mem_singleton_self r

theorem executeLoop_safe (hmax : registerCount ≤ maxRegisters) {budget i : ℕ} (hi : i ≤ len)
    (hbudget : len ≤ i + budget) {m : Machine σ V}
    (hat : At registerCount operandCount regexCount instructions offset len i m) :
    Safe registerCount operandCount regexCount len
      (executeLoop instructions ops input (offset + len) budget (offset + i) m) := by
  have hend : ∀ {m : Machine σ V}, At registerCount operandCount regexCount instructions offset len
      len m → Safe registerCount operandCount regexCount len (m, .ok (m.registers 0)) := by
    intro m hat
    obtain ⟨nodes, hpath, hsteps, hwritten⟩ := hat.path
    have hlength := hpath.length_le fun i j hj => (mem_edges hfields hj).1
    refine ⟨by dsimp only; omega, hat.proper, fun value heq => ?_, nofun⟩
    cases heq
    exact ⟨rfl, hwritten 0 (hdefinite.result nodes hpath)⟩
  induction budget generalizing i m with
  | zero =>
    obtain rfl : i = len := by omega
    unfold executeLoop
    rw [if_pos le_rfl]
    exact hend hat
  | succ budget ih =>
    unfold executeLoop
    by_cases hlen : i < len
    · rw [if_neg (by omega), (hfields i hlen).execProblem hmax]
      dsimp only
      have hperforms := performs ops input (hfields i hlen).known (offset + i)
        { m with steps := m.steps + 1 }
      obtain ⟨hsteps, hproper, hnext⟩ := at_perform hfields hdefinite hlen hat hperforms
      split
      next m' pc heq =>
        rw [heq] at hnext
        obtain ⟨j, rfl, hij, hj, hat'⟩ := hnext pc rfl
        exact ih hj (by omega) hat'
      next m' failure heq =>
        rw [heq] at hperforms hsteps hproper
        refine ⟨hsteps, hproper, nofun, fun diagnostic hdiagnostic => ?_⟩
        cases hdiagnostic
        exact hperforms.failure failure rfl
    · obtain rfl : i = len := by omega
      rw [if_pos le_rfl]
      exact hend hat

end Runs

/-! ## A single instruction -/

section Single

variable {instructions : ℕ → Instruction} {offset : ℕ} {ops : ExecOps σ V}
  {input : Option ExecInput}

/-- The loop over one instruction that writes a register. -/
theorem executeLoop_single {registerCount operandCount regexCount : ℕ} (hrange :
    (instructions offset).InRange offset (offset + 1) registerCount operandCount regexCount)
    (hmax : registerCount ≤ maxRegisters) (hwrites : (instructions offset).op.writesRegister = true)
    (budget : ℕ) (m : Machine σ V) :
    executeLoop instructions ops input (offset + 1) (budget + 1) offset m =
      match Machine.operate { m with steps := m.steps + 1 } ops input (instructions offset) with
      | (m, none) => (m, .ok (m.registers 0))
      | (m, some failure) => (m, .error (failAt instructions offset failure)) := by
  rw [executeLoop, if_neg (by omega), hrange.execProblem hmax]
  dsimp only
  rw [perform_of_writes ops input hwrites]
  cases Machine.operate { m with steps := m.steps + 1 } ops input (instructions offset) with
  | mk m' failure =>
    cases failure with
    | none =>
      dsimp only
      rw [executeLoop.eq_def, if_pos le_rfl]
    | some failure => rfl

variable (ops input) in
theorem operate_of_isLeaf {insn : Instruction} (h : insn.op.isLeaf = true) (m : Machine σ V) :
    insn.op.writesRegister = true ∧ m.operate ops input insn = m.execLeaf ops insn insn.dst := by
  obtain ⟨op, reserved, dst, arg, src1, src2⟩ := insn
  cases op with
  | cmpLeaf | cmpLeafNumber | cmpLeafString | cmpLengthLeaf | cmpCountLeaf => exact ⟨rfl, rfl⟩
  | _ => cases h

variable (ops input) in
theorem operate_of_exists {insn : Instruction} (h : insn.op = .exists_ ∨ insn.op = .notExists)
    (m : Machine σ V) : insn.op.writesRegister = true ∧
      m.operate ops input insn = m.storeExists ops insn (insn.op = .notExists) insn.dst := by
  obtain ⟨op, reserved, dst, arg, src1, src2⟩ := insn
  rcases h with rfl | rfl
  · exact ⟨rfl, rfl⟩
  · exact ⟨rfl, rfl⟩

variable (ops input) in
theorem operate_of_const {insn : Instruction} (h : insn.op = .true ∨ insn.op = .false)
    (m : Machine σ V) : insn.op.writesRegister = true ∧
      m.operate ops input insn = m.storeMade insn.dst fun ctx value =>
        ops.makeBool ctx (if insn.op = .true then 1 else 0) value := by
  obtain ⟨op, reserved, dst, arg, src1, src2⟩ := insn
  rcases h with rfl | rfl
  · exact ⟨rfl, rfl⟩
  · exact ⟨rfl, rfl⟩

variable {len registerCount operandCount regexCount : ℕ}

theorem Definite.dst_eq_zero (h : Definite instructions offset 1)
    (hwrites : (instructions offset).op.writesRegister = true) : (instructions offset).dst = 0 := by
  have hedge : 1 ∈ edges instructions offset 1 0 := by
    rw [edges_of_lt Nat.one_pos, Nat.add_zero]
    unfold Instruction.successors
    have hop : ∀ op : Opcode, op.writesRegister = false → (instructions offset).op ≠ op :=
      fun op hop heq => by rw [heq, hop] at hwrites; cases hwrites
    rw [if_neg (hop .jmp rfl), if_neg (by simp [hop .jmpFalse rfl, hop .jmpTrue rfl])]
    exact List.mem_singleton_self _
  obtain ⟨k, hk, hwritten⟩ := h.result [0] (Path.start.step hedge)
  rw [List.mem_singleton.1 hk, Nat.add_zero] at hwritten
  unfold Instruction.writes at hwritten
  rw [if_pos hwrites] at hwritten
  exact Option.some_inj.1 hwritten

/-- The branches for a single instruction give what the loop gives. -/
theorem executeSingle_eq (hrange : (instructions offset).InRange offset (offset + 1) registerCount
    operandCount regexCount) (hmax : registerCount ≤ maxRegisters)
    (hdefinite : Definite instructions offset 1) {maxSteps : ℕ} (m : Machine σ V)
    (hsteps : m.steps = 0) :
    (executeSingle instructions ops offset maxSteps m).getD
        (executeLoop instructions ops input (offset + 1) maxSteps offset m) =
      executeLoop instructions ops input (offset + 1) maxSteps offset m := by
  unfold executeSingle
  dsimp only
  rw [hrange.execProblem hmax]
  dsimp only
  cases maxSteps with
  | zero =>
    rw [if_pos rfl, executeLoop, if_neg (by omega), hrange.execProblem hmax, hsteps]
    rfl
  | succ budget =>
    rw [if_neg (Nat.succ_ne_zero budget)]
    simp only [Bool.or_eq_true, decide_eq_true_eq]
    by_cases hleaf : (instructions offset).op.isLeaf = true
    · rw [if_pos hleaf]
      obtain ⟨hwrites, hoperate⟩ := operate_of_isLeaf ops input hleaf
        { m with steps := m.steps + 1 }
      rw [executeLoop_single hrange hmax hwrites, hoperate, hdefinite.dst_eq_zero hwrites]
      rfl
    rw [if_neg hleaf]
    by_cases hexists : (instructions offset).op = .exists_ ∨ (instructions offset).op = .notExists
    · rw [if_pos hexists]
      obtain ⟨hwrites, hoperate⟩ := operate_of_exists ops input hexists
        { m with steps := m.steps + 1 }
      rw [executeLoop_single hrange hmax hwrites, hoperate, hdefinite.dst_eq_zero hwrites]
      rfl
    rw [if_neg hexists]
    by_cases hconst : (instructions offset).op = .true ∨ (instructions offset).op = .false
    · rw [if_pos hconst]
      obtain ⟨hwrites, hoperate⟩ := operate_of_const ops input hconst
        { m with steps := m.steps + 1 }
      rw [executeLoop_single hrange hmax hwrites, hoperate, hdefinite.dst_eq_zero hwrites]
      rfl
    · rw [if_neg hconst]
      rfl

end Single

/-! ## The verifier is sound and exact -/

/-- A path of the slice reads a register that it has not written, or ends without the result. -/
def Indefinite (instructions : ℕ → Instruction) (offset len : ℕ) : Prop :=
  ∃ i nodes, Path (edges instructions offset len) i nodes ∧
    (i < len ∧ (∃ r ∈ (instructions (offset + i)).reads, ¬WrittenAt instructions offset r nodes) ∨
      i = len ∧ ¬WrittenAt instructions offset 0 nodes)

theorem definite_or_indefinite (instructions : ℕ → Instruction) (offset len : ℕ) :
    Definite instructions offset len ∨ Indefinite instructions offset len := by
  by_contra hneither
  rw [not_or] at hneither
  obtain ⟨hdefinite, hindefinite⟩ := hneither
  refine hdefinite ⟨fun i hi nodes hpath r hr => ?_, fun nodes hpath => ?_⟩
  · by_contra hnot
    exact hindefinite ⟨i, nodes, hpath, .inl ⟨hi, r, hr, hnot⟩⟩
  · by_contra hnot
    exact hindefinite ⟨len, nodes, hpath, .inr ⟨rfl, hnot⟩⟩

theorem executeArguments_eq_none {instructionCount offset len : ℕ} {limits : Limits}
    (hnonempty : 0 < len) (hslice : offset + len ≤ instructionCount)
    (hinstructions : len ≤ limits.maxInstructions) :
    executeArguments instructionCount offset len limits = none := by
  unfold executeArguments
  rw [if_neg (by simp only [Bool.or_eq_true, decide_eq_true_eq]; omega),
    if_neg (not_lt.2 hinstructions)]

/-- The branches for a single instruction of an accepted slice do what the loop does. -/
theorem execute_eq_executeGeneral {instructions : ℕ → Instruction} {memory : Bool}
    {instructionCount offset len registerCount operandCount regexCount : ℕ} {limits : Limits}
    (hverify : verifySlice instructions memory instructionCount offset len registerCount operandCount
      regexCount limits = .ok ()) {σ V : Type} (ops : ExecOps σ V) (input : Option ExecInput) (ctx : σ)
    {runLimits : Limits} (hinstructions : len ≤ runLimits.maxInstructions)
    (hsteps : len ≤ runLimits.maxSteps) :
    execute instructions ops input instructionCount offset len runLimits ctx =
      executeGeneral instructions ops input instructionCount offset len runLimits ctx := by
  have hwithin := verifySlice_within hverify
  obtain ⟨-, hfields, hdefinite⟩ := (verifySlice_ok hwithin).1 hverify
  unfold execute executeGeneral
  rw [executeArguments_eq_none hwithin.nonempty hwithin.slice hinstructions]
  dsimp only
  split_ifs with hlen
  · subst hlen
    exact executeSingle_eq (hfields 0 Nat.one_pos) hwithin.maxRegisters hdefinite _ rfl
  · rfl

/-- Accepted slices are safe to run, and the slices that are rejected for no other reason have a
path along which they are not. -/
theorem verifySlice_exact (instructions : ℕ → Instruction) (memory : Bool) (instructionCount offset
    len registerCount operandCount regexCount : ℕ) (limits : Limits) :
    (verifySlice instructions memory instructionCount offset len registerCount operandCount
        regexCount limits = .ok () →
      ∀ (σ V : Type) (ops : ExecOps σ V) (input : Option ExecInput) (ctx : σ) (runLimits : Limits),
        len ≤ runLimits.maxInstructions → len ≤ runLimits.maxSteps →
          Safe registerCount operandCount regexCount len
              (execute instructions ops input instructionCount offset len runLimits ctx) ∧
            execute instructions ops input instructionCount offset len runLimits ctx =
              executeGeneral instructions ops input instructionCount offset len runLimits ctx) ∧
    (WithinLimits offset len instructionCount registerCount operandCount regexCount limits →
      FieldsInRange instructions offset len registerCount operandCount regexCount →
        (∃ diagnostic, verifySlice instructions memory instructionCount offset len registerCount
          operandCount regexCount limits = .error diagnostic) →
            memory = false ∨ Indefinite instructions offset len) := by
  constructor
  · intro hverify σ V ops input ctx runLimits hinstructions hsteps
    have hwithin := verifySlice_within hverify
    obtain ⟨-, hfields, hdefinite⟩ := (verifySlice_ok hwithin).1 hverify
    have heq := execute_eq_executeGeneral hverify ops input ctx hinstructions hsteps
    refine ⟨?_, heq⟩
    rw [heq]
    unfold executeGeneral
    rw [executeArguments_eq_none hwithin.nonempty hwithin.slice hinstructions]
    exact executeLoop_safe hfields hdefinite hwithin.maxRegisters (Nat.zero_le len) (by omega)
      ⟨⟨[], .start, rfl, fun r ⟨k, hk, _⟩ => absurd hk List.not_mem_nil⟩, Proper.nil⟩
  · rintro hwithin hfields ⟨diagnostic, herror⟩
    rcases definite_or_indefinite instructions offset len with hdefinite | hindefinite
    · refine .inl (Bool.eq_false_iff.2 fun hmemory => ?_)
      rw [(verifySlice_ok hwithin).2 ⟨hmemory, hfields, hdefinite⟩] at herror
      cases herror
    · exact .inr hindefinite

def numbers : ExecOps Unit ℤ where
  zero := 0
  resolve _ operand _ := ⟨true, operand, ()⟩
  truthy _ value := (value ≠ 0, ())
  binary _ _ _ left right _ := ⟨true, if left < right then 1 else 0, ()⟩
  unary := none
  exists_ := none
  length := none
  count := none
  leaf := none
  makeInvalid _ _ := (0, ())
  makeBool _ value _ := (value, ())
  makeNumber _ value _ := (value, ())
  makeString _ _ _ := (0, ())

def guarded : ℕ → Instruction
  | 0 => ⟨.loadConst, 0, 0, 0, 4, 0⟩
  | 1 => ⟨.jmpFalse, 0, 0, 4, 0, 0⟩
  | 2 => ⟨.loadConst, 0, 1, 0, 5, 0⟩
  | _ => ⟨.cmp, 0, 0, 0, 0, 1⟩

theorem verifySlice_exact_guarded :
    Safe 2 6 0 4 (execute guarded numbers none 4 0 4 defaultLimits ()) ∧
      Indefinite guarded 3 1 := by
  refine ⟨(((verifySlice_exact guarded true 4 0 4 2 6 0 defaultLimits).1 (by decide) Unit ℤ
    numbers none () defaultLimits (by decide) (by decide)).1), ?_⟩
  refine ((verifySlice_exact guarded true 4 3 1 2 6 0 defaultLimits).2
    ⟨by decide, by decide, by decide, by decide, by decide, by decide, by decide, by decide⟩
    (fun i hi => ?_) ⟨_, rfl⟩).resolve_left nofun
  obtain rfl : i = 0 := by omega
  exact Instruction.problem_eq_none.1 (by decide)

end QueryVm
