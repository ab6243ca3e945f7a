import TurboUtils.QueryVm.Execute
import Mathlib.Data.Nat.Size

/-! What the verifier checks: every field is in range, and along every path through the slice the
registers that are read, and at its end the result, have been written. -/
namespace QueryVm

open ForwardFlow

namespace Instruction

variable (insn : Instruction)

/-! ## What an instruction refers to -/

def reads : List ℕ :=
  if insn.op.isBinary then [insn.src1, insn.src2]
  else if insn.op = .not ∨ insn.op = .neg ∨ insn.op = .bnot ∨ insn.op = .jmpFalse ∨
      insn.op = .jmpTrue then [insn.src1]
  else if insn.op = .select then [insn.src1, insn.src2, insn.arg]
  else []

def writes : Option ℕ := if insn.op.writesRegister then some insn.dst else none

def operands : List ℕ :=
  match insn.op with
  | .loadPath | .loadConst | .exists_ | .count | .notExists => [insn.src1]
  | .cmpLengthLeaf => [insn.src2]
  | .cmpLeaf | .cmpLeafNumber | .cmpLeafString | .cmpCountLeaf => [insn.src1, insn.src2]
  | _ => []

def lengthOperand : Option ℕ :=
  match insn.op with
  | .length | .cmpLengthLeaf => some insn.src1
  | _ => none

def regex : Option ℕ :=
  match insn.op with
  | .match_ | .matchFull | .search => some insn.arg
  | _ => none

def target : Option ℕ :=
  match insn.op with
  | .jmp | .jmpFalse | .jmpTrue => some insn.arg
  | _ => none

@[mk_iff]
structure InRange (pc stop registerCount operandCount regexCount : ℕ) : Prop where
  known : insn.op.isUnknown = false
  reserved : insn.reserved = 0
  reads : ∀ r ∈ insn.reads, r < registerCount
  writes : ∀ r ∈ insn.writes, r < registerCount
  operands : ∀ i ∈ insn.operands, i < operandCount
  length : ∀ i ∈ insn.lengthOperand, i = noOperand ∨ i < operandCount
  regex : ∀ i ∈ insn.regex, i = noOperand ∨ i < regexCount
  target : ∀ t ∈ insn.target, pc < t ∧ t ≤ stop

variable {insn} {pc stop registerCount operandCount regexCount : ℕ}

theorem ite_some_eq_none {α : Type*} {c : Prop} [Decidable c] {a : α} {o : Option α} :
    (if c then some a else o) = none ↔ ¬c ∧ o = none := by
  split_ifs with hc
  · simp [hc]
  · simp [hc]

theorem problem_eq_none : insn.problem pc stop registerCount operandCount regexCount = none ↔
    insn.InRange pc stop registerCount operandCount regexCount := by
  obtain ⟨op, reserved, dst, arg, src1, src2⟩ := insn
  rw [inRange_iff, problem]
  simp only [ite_some_eq_none]
  cases op <;> simp [ite_some_eq_none, Opcode.isUnknown, Opcode.writesRegister, Opcode.isBinary,
    Opcode.isLeaf, Instruction.reads, Instruction.writes, Instruction.operands, lengthOperand,
    Instruction.regex, Instruction.target]
  all_goals omega

theorem readsUninitialized_eq_true {state : ℕ} : insn.readsUninitialized state = true ↔
    ∃ r ∈ insn.reads, state.testBit r = false := by
  unfold readsUninitialized Instruction.reads
  simp only [Bool.or_eq_true, decide_eq_true_eq, or_assoc]
  split_ifs <;> simp [or_assoc]

theorem testBit_initializes {state r : ℕ} : (insn.initializes state).testBit r = true ↔
    state.testBit r = true ∨ insn.writes = some r := by
  unfold initializes Instruction.writes
  split_ifs
  · rw [Nat.testBit_or, Bool.or_eq_true, Nat.one_shiftLeft, Nat.testBit_two_pow, decide_eq_true_eq,
      Option.some_inj]
  · simp

end Instruction

/-! ## Paths through the slice -/

section Slice

variable (instructions : ℕ → Instruction) (offset len : ℕ)

/-- The edges of the control flow graph of a slice; the node `len` is its end. -/
def edges (i : ℕ) : List ℕ :=
  if i < len then (instructions (offset + i)).successors offset i else []

def WrittenAt (r : ℕ) (nodes : List ℕ) : Prop :=
  ∃ k ∈ nodes, (instructions (offset + k)).writes = some r

/-- What is read has been written along every path, and so has the result at the end. -/
structure Definite : Prop where
  reads : ∀ i < len, ∀ nodes, Path (edges instructions offset len) i nodes →
    ∀ r ∈ (instructions (offset + i)).reads, WrittenAt instructions offset r nodes
  result : ∀ nodes, Path (edges instructions offset len) len nodes →
    WrittenAt instructions offset 0 nodes

structure WithinLimits (instructionCount registerCount operandCount regexCount : ℕ)
    (limits : Limits) : Prop where
  nonempty : 0 < len
  registers : 0 < registerCount
  maxRegisters : registerCount ≤ maxRegisters
  slice : offset + len ≤ instructionCount
  sizes : len + 1 ≤ sizeMax / 8
  instructions : len ≤ limits.maxInstructions
  operands : operandCount ≤ limits.maxOperands
  regexes : regexCount ≤ limits.maxRegexes

def FieldsInRange (registerCount operandCount regexCount : ℕ) : Prop :=
  ∀ i < len, (instructions (offset + i)).InRange (offset + i) (offset + len) registerCount
    operandCount regexCount

variable {instructions offset len} {registerCount operandCount regexCount : ℕ}

theorem verifyFields_ok {pcs : List ℕ} {stop : ℕ} :
    verifyFields instructions pcs stop registerCount operandCount regexCount = .ok () ↔
      ∀ pc ∈ pcs, (instructions pc).InRange pc stop registerCount operandCount regexCount := by
  induction pcs with
  | nil => simp [verifyFields]
  | cons pc pcs ih =>
    unfold verifyFields
    rw [List.forall_mem_cons, ← Instruction.problem_eq_none, ← ih]
    split
    next operand message hproblem => simp [hproblem]
    next hnone => simp [hnone]

theorem edges_of_lt {i : ℕ} (hi : i < len) :
    edges instructions offset len i = (instructions (offset + i)).successors offset i :=
  if_pos hi

/-- Edges point forward, and not beyond the end of the slice. -/
theorem mem_edges (hfields : FieldsInRange instructions offset len registerCount operandCount
    regexCount) {i j : ℕ} (hj : j ∈ edges instructions offset len i) : i < j ∧ j ≤ len := by
  unfold edges at hj
  split_ifs at hj with hi
  · have htarget := (hfields i hi).target
    unfold Instruction.successors at hj
    unfold Instruction.target at htarget
    split_ifs at hj with hjmp hcond
    · rw [hjmp] at htarget
      obtain ⟨hlt, hle⟩ := htarget _ rfl
      rw [List.mem_singleton.1 hj]
      omega
    · obtain ⟨hlt, hle⟩ : offset + i < (instructions (offset + i)).arg ∧
          (instructions (offset + i)).arg ≤ offset + len := by
        rw [Bool.or_eq_true, decide_eq_true_eq, decide_eq_true_eq] at hcond
        rcases hcond with hop | hop
        · rw [hop] at htarget
          exact htarget _ rfl
        · rw [hop] at htarget
          exact htarget _ rfl
      rcases List.mem_cons.1 hj with rfl | hj
      · omega
      · rw [List.mem_singleton.1 hj]
        omega
    · rw [List.mem_singleton.1 hj]
      omega
  · cases hj

theorem exists_edge (hfields : FieldsInRange instructions offset len registerCount operandCount
    regexCount) {i : ℕ} (hi : i < len) : ∃ j ∈ edges instructions offset len i, j ≤ len := by
  have hsome : ∃ j, j ∈ edges instructions offset len i := by
    rw [edges_of_lt hi]
    unfold Instruction.successors
    split_ifs
    · exact ⟨_, List.mem_singleton_self _⟩
    · exact ⟨_, List.mem_cons_self⟩
    · exact ⟨_, List.mem_singleton_self _⟩
  obtain ⟨j, hj⟩ := hsome
  exact ⟨j, hj, (mem_edges hfields hj).2⟩

/-! ## The one pass finds what holds along every path -/

variable (instructions offset len) in
/-- The states after the nodes before `k` have been visited. -/
def states (k : ℕ) : ℕ → Option ℕ :=
  sweep (edges instructions offset len) (· &&& ·)
    (fun i => (instructions (offset + i)).initializes) (initial 0) k

theorem states_describe (hfields : FieldsInRange instructions offset len registerCount operandCount
    regexCount) (i : ℕ) : Describes (fun r state => state.testBit r = true)
      (WrittenAt instructions offset) {nodes | Path (edges instructions offset len) i nodes}
        (states instructions offset len i i) := by
  have hnext : ∀ i, ∀ j ∈ edges instructions offset len i, i < j := fun i j hj =>
    (mem_edges hfields hj).1
  rw [← paths_of_le hnext le_rfl]
  refine sweep_describes (g := fun i r => (instructions (offset + i)).writes = some r) hnext
    (fun r a b => ?_) (fun r i b => Instruction.testBit_initializes) (fun r nodes i => ?_)
    (fun r => ?_) i i
  · rw [Nat.testBit_and, Bool.and_eq_true]
  · simp [WrittenAt, or_and_right, exists_or]
  · simp [WrittenAt]

theorem states_succ {k : ℕ} : states instructions offset len (k + 1) =
    visit (edges instructions offset len) (· &&& ·)
      (fun i => (instructions (offset + i)).initializes) (states instructions offset len k) k := by
  unfold states sweep
  rw [List.range_succ, List.foldl_append]
  rfl

theorem mergeState_eq_join (states : ℕ → Option ℕ) (state : ℕ) :
    mergeState states state = join (· &&& ·) states state := by
  funext successor
  unfold mergeState join
  cases states successor with
  | none => rfl
  | some old => rfl

variable (instructions offset len) in
def lacks (i : ℕ) : Bool :=
  (states instructions offset len i i).any (instructions (offset + i)).readsUninitialized

theorem verifyStates_cons {k : ℕ} (hk : k < len) (pcs : List ℕ) :
    verifyStates instructions offset (k :: pcs) (states instructions offset len k) =
      if lacks instructions offset len k then
        .error ⟨.invalidProgram, offset + k, (instructions (offset + k)).op,
          (instructions (offset + k)).src1, "source register is not initialized on every path"⟩
      else verifyStates instructions offset pcs (states instructions offset len (k + 1)) := by
  rw [states_succ, verifyStates]
  unfold visit lacks
  rw [edges_of_lt hk]
  cases hstate : states instructions offset len k k with
  | none => rfl
  | some state =>
    simp only [mergeState_eq_join]
    rfl

/-- What the second loop finds from a node on. -/
theorem verifyStates_from {n k : ℕ} (hk : k + n ≤ len) :
    (∀ i, k ≤ i → i < k + n → lacks instructions offset len i = false) ∧
      verifyStates instructions offset (List.range' k n) (states instructions offset len k) =
        .ok (states instructions offset len (k + n)) ∨
    (∃ i, k ≤ i ∧ i < k + n ∧ lacks instructions offset len i = true) ∧
      ∃ diagnostic, verifyStates instructions offset (List.range' k n)
        (states instructions offset len k) = .error diagnostic := by
  induction n generalizing k with
  | zero => exact .inl ⟨fun i hki hik => by omega, rfl⟩
  | succ n ih =>
    rw [List.range'_succ, verifyStates_cons (by omega)]
    cases hlacks : lacks instructions offset len k with
    | true =>
      rw [if_pos rfl]
      exact .inr ⟨⟨k, le_rfl, by omega, hlacks⟩, _, rfl⟩
    | false =>
      rw [if_neg Bool.false_ne_true]
      rcases ih (k := k + 1) (by omega) with ⟨hnone, hok⟩ | ⟨⟨i, hki, hik, hi⟩, herror⟩
      · refine .inl ⟨fun i hki hik => ?_, ?_⟩
        · rcases eq_or_lt_of_le hki with rfl | hlt
          · exact hlacks
          · exact hnone i hlt (by omega)
        · rw [hok, Nat.add_right_comm, Nat.add_assoc]
      · exact .inr ⟨⟨i, by omega, by omega, hi⟩, herror⟩

/-- A state lacks a register when some path to the node does not write it. -/
theorem lacks_iff (hfields : FieldsInRange instructions offset len registerCount operandCount
    regexCount) (i : ℕ) : lacks instructions offset len i = true ↔
      ∃ nodes, Path (edges instructions offset len) i nodes ∧
        ∃ r ∈ (instructions (offset + i)).reads, ¬WrittenAt instructions offset r nodes := by
  have hdescribes := states_describe hfields i
  unfold lacks
  cases hstate : states instructions offset len i i with
  | none =>
    rw [hstate] at hdescribes
    have hempty := Set.eq_empty_iff_forall_notMem.1 hdescribes
    exact ⟨nofun, fun ⟨nodes, hpath, _⟩ => absurd hpath (hempty nodes)⟩
  | some state =>
    rw [hstate] at hdescribes
    rw [Option.any_some, Instruction.readsUninitialized_eq_true]
    constructor
    · rintro ⟨r, hr, hbit⟩
      by_contra hall
      have hwritten := (hdescribes.2 r).2 fun nodes hpath =>
        by_contra fun hnot => hall ⟨nodes, hpath, r, hr, hnot⟩
      exact Bool.false_ne_true (hbit.symm.trans hwritten)
    · rintro ⟨nodes, hpath, r, hr, hnot⟩
      refine ⟨r, hr, ?_⟩
      rw [← Bool.not_eq_true]
      exact fun hbit => hnot ((hdescribes.2 r).1 hbit nodes hpath)

/-- The result is missing from the last state when some path does not write it. -/
theorem result_iff (hfields : FieldsInRange instructions offset len registerCount operandCount
    regexCount) :
    (∃ state, states instructions offset len len len = some state ∧ state.testBit 0 = true) ↔
      ∀ nodes, Path (edges instructions offset len) len nodes →
        WrittenAt instructions offset 0 nodes := by
  have hdescribes := states_describe hfields len
  constructor
  · rintro ⟨state, hstate, hbit⟩
    rw [hstate] at hdescribes
    exact (hdescribes.2 0).1 hbit
  · intro h
    obtain ⟨nodes, hpath⟩ := exists_path (fun i j hj => (mem_edges hfields hj).1)
      fun i hi => exists_edge hfields hi
    cases hstate : states instructions offset len len len with
    | none =>
      rw [hstate] at hdescribes
      exact absurd hpath (Set.eq_empty_iff_forall_notMem.1 hdescribes nodes)
    | some state =>
      rw [hstate] at hdescribes
      exact ⟨state, rfl, (hdescribes.2 0).2 h⟩

/-- The verifier accepts the slices that are in range and definite. -/
theorem verifySlice_ok {memory : Bool} {instructionCount : ℕ} {limits : Limits}
    (hwithin : WithinLimits offset len instructionCount registerCount operandCount regexCount
      limits) : verifySlice instructions memory instructionCount offset len registerCount
        operandCount regexCount limits = .ok () ↔ memory = true ∧
          FieldsInRange instructions offset len registerCount operandCount regexCount ∧
            Definite instructions offset len := by
  have hfields : FieldsInRange instructions offset len registerCount operandCount regexCount ↔
      verifyFields instructions (List.range' offset len) (offset + len) registerCount
        operandCount regexCount = .ok () := by
    rw [verifyFields_ok]
    refine ⟨fun h pc hpc => ?_, fun h i hi => h _ (List.mem_range'_1.2 ⟨by omega, by omega⟩)⟩
    obtain ⟨i, hi, rfl⟩ : ∃ i < len, offset + i = pc := by
      obtain ⟨hle, hlt⟩ := List.mem_range'_1.1 hpc
      exact ⟨pc - offset, by omega, by omega⟩
    exact h i hi
  have hbounds : ¬(decide (len = 0) || decide (registerCount = 0) ||
      decide (maxRegisters < registerCount) || decide (instructionCount < offset) ||
        decide (instructionCount - offset < len)) = true := by
    have hnonempty := hwithin.nonempty
    have hregisters := hwithin.registers
    have hmax := hwithin.maxRegisters
    have hslice := hwithin.slice
    simp only [Bool.or_eq_true, decide_eq_true_eq]
    omega
  have hsizes : ¬(decide (sizeMax ≤ len) || decide (sizeMax / 8 < len + 1)) = true := by
    have hlt := hwithin.sizes
    have hmax : sizeMax / 8 < sizeMax := by decide
    simp only [Bool.or_eq_true, decide_eq_true_eq]
    omega
  unfold verifySlice
  rw [if_neg hbounds, if_neg (not_lt.2 hwithin.instructions), if_neg (not_lt.2 hwithin.operands),
    if_neg (not_lt.2 hwithin.regexes)]
  split
  next diagnostic herror =>
    refine ⟨nofun, fun ⟨_, h, _⟩ => ?_⟩
    rw [hfields, herror] at h
    cases h
  next hok =>
    have hrange := hfields.2 hok
    rw [if_neg hsizes]
    cases memory with
    | false => exact ⟨nofun, nofun⟩
    | true =>
      rw [if_neg (by decide)]
      have hinitial : (initial 0 : ℕ → Option ℕ) = states instructions offset len 0 := rfl
      rw [hinitial, List.range_eq_range']
      rcases verifyStates_from (Nat.zero_add len).le with ⟨hnone, hstates⟩ |
          ⟨⟨i, -, hi, hlacks⟩, diagnostic, herror⟩
      · rw [hstates, Nat.zero_add]
        dsimp only
        have hreads : ∀ i < len, ∀ nodes, Path (edges instructions offset len) i nodes →
            ∀ r ∈ (instructions (offset + i)).reads, WrittenAt instructions offset r nodes := by
          intro i hi nodes hpath r hr
          by_contra hnot
          have hlacks := (lacks_iff hrange i).2 ⟨nodes, hpath, r, hr, hnot⟩
          rw [hnone i (Nat.zero_le i) (by omega)] at hlacks
          cases hlacks
        have hresult := result_iff hrange
        cases hstate : states instructions offset len len len with
        | none =>
          rw [hstate] at hresult
          refine ⟨nofun, fun h => ?_⟩
          obtain ⟨state, hsome, -⟩ := hresult.2 h.2.2.result
          cases hsome
        | some state =>
          rw [hstate] at hresult
          dsimp only
          by_cases hbit : state.testBit 0 = true
          · rw [if_pos hbit]
            exact ⟨fun _ => ⟨rfl, hrange, hreads, hresult.1 ⟨state, rfl, hbit⟩⟩, fun _ => rfl⟩
          · rw [if_neg hbit]
            refine ⟨nofun, fun h => ?_⟩
            obtain ⟨state', hsome, hbit'⟩ := hresult.2 h.2.2.result
            cases hsome
            exact absurd hbit' hbit
      · rw [herror]
        refine ⟨nofun, fun h => ?_⟩
        obtain ⟨nodes, hpath, r, hr, hnot⟩ := (lacks_iff hrange i).1 hlacks
        exact absurd (h.2.2.reads i (by omega) nodes hpath r hr) hnot

theorem verifySlice_within {memory : Bool} {instructionCount : ℕ} {limits : Limits}
    (h : verifySlice instructions memory instructionCount offset len registerCount operandCount
      regexCount limits = .ok ()) :
    WithinLimits offset len instructionCount registerCount operandCount regexCount limits := by
  unfold verifySlice at h
  split_ifs at h with hbounds hinstructions hoperands hregexes hsizes hmemory
  · split at h <;> cases h
  · split at h <;> cases h
  · simp only [Bool.or_eq_true, decide_eq_true_eq] at hbounds hsizes
    exact ⟨by omega, by omega, by omega, by omega, by omega, by omega, by omega, by omega⟩

end Slice

end QueryVm
