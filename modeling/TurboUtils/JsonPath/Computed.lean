import TurboUtils.JsonPath.Accepted

/-! The code of an expression whose jumps land at the ends of their junctions computes its value. -/
namespace JsonPath

open QueryVm

variable {ν : Type} [LinearOrder ν] (backend : Backend ν) (candidate : Candidate ν)
  (program : ℕ → Option (Expr ν))

/-! ## One instruction -/

def stored (insn : Instruction) (registers : ℕ → Value ν) : Option (Value ν) :=
  match insn.op with
  | .loadPath | .loadConst =>
      some ((qvmResolve backend candidate program insn.src1).getD .invalid)
  | .loadKey => some (keyValue candidate)
  | .loadIndex => some (indexValue backend candidate)
  | .loadInvalid => some .invalid
  | .exists_ => some (.bool (qvmPath backend candidate program insn.src1).isSome)
  | .notExists => some (.bool !(qvmPath backend candidate program insn.src1).isSome)
  | .length => some (qvmLength backend candidate program insn.src1)
  | .count => some (qvmCount backend candidate program insn.src1)
  | .cmpLeaf | .cmpLeafNumber | .cmpLeafString | .cmpLengthLeaf | .cmpCountLeaf =>
      qvmLeaf backend candidate program insn.op insn.arg insn.src1 insn.src2
  | .not => some (.bool !truthy backend (registers insn.src1))
  | .true => some (.bool true)
  | op => qvmBinary backend op insn.arg (registers insn.src1) (registers insn.src2)

variable {backend candidate program}

theorem operate_stored {insn : Instruction} {v : Value ν} (m : Machine Unit (Value ν))
    (h : stored backend candidate program insn m.registers = some v) :
    (m.operate (qvmOps backend candidate program) (some (qvmInput candidate)) insn).2 = none ∧
      (m.operate (qvmOps backend candidate program) (some (qvmInput candidate)) insn).1.registers =
        Function.update m.registers insn.dst v := by
  obtain ⟨op, reserved, dst, arg, src1, src2⟩ := insn
  cases op with
  | loadPath | loadConst =>
    cases h
    cases hresolve : qvmResolve backend candidate program src1 <;>
      simp [Machine.operate, Machine.load, Machine.note, qvmOps, answer, hresolve, Machine.store]
  | loadKey =>
    cases h
    dsimp only [Machine.operate, Machine.loadKey, qvmInput, Option.bind_some, keyValue]
    cases candidate.key <;> exact ⟨rfl, rfl⟩
  | loadIndex =>
    cases h
    dsimp only [Machine.operate, Machine.loadIndex, qvmInput, indexValue]
    split_ifs <;> exact ⟨rfl, rfl⟩
  | exists_ | notExists =>
    cases h
    cases hpath : qvmPath backend candidate program src1 <;>
      simp [Machine.operate, Machine.storeExists, Machine.storeMade, Machine.note, qvmOps, hpath,
        Machine.store]
  | not =>
    cases h
    cases htruth : truthy backend (m.registers src1) <;>
      simp [Machine.operate, Machine.not, Machine.truth, Machine.storeMade, Machine.note, qvmOps,
        htruth, Machine.store]
  | loadInvalid | length | count | true =>
    cases h
    exact ⟨rfl, rfl⟩
  | cmpLeaf | cmpLeafNumber | cmpLeafString | cmpLengthLeaf | cmpCountLeaf =>
    dsimp only [stored] at h
    dsimp only [Machine.operate, Machine.execLeaf, qvmOps]
    rw [h]
    exact ⟨rfl, rfl⟩
  | cmp | match_ | contains | containsCi | matchFull | search =>
    cases h
    exact ⟨rfl, rfl⟩
  | _ => cases h

variable {instructions : ℕ → Instruction} {stop : ℕ}

variable (backend candidate program instructions stop) in
/-- From these registers at a counter, steps that go forward lead to a value. -/
abbrev Leads (pc : ℕ) (registers : ℕ → Value ν) (value : Value ν) : Prop :=
  Yields instructions (qvmOps backend candidate program) (some (qvmInput candidate)) stop pc
    registers () value

theorem Leads.store {insn : Instruction} {pc : ℕ} {registers : ℕ → Value ν} {v value : Value ν}
    (hpc : pc < stop) (hinsn : instructions pc = insn) (hwrites : insn.op.writesRegister = true)
    (hstored : stored backend candidate program insn registers = some v)
    (h : Leads backend candidate program instructions stop (pc + 1)
      (Function.update registers insn.dst v) value) :
    Leads backend candidate program instructions stop pc registers value := by
  refine Yields.store hpc hinsn hwrites (fun m hregisters _ => ?_) h
  subst hregisters
  obtain ⟨hnone, hwritten⟩ := operate_stored m hstored
  exact ⟨hnone, hwritten, rfl⟩

theorem Leads.last {insn : Instruction} {pc depth : ℕ} {registers registers₀ : ℕ → Value ν}
    {v value : Value ν} (hpc : pc < stop) (hinsn : instructions pc = insn)
    (hwrites : insn.op.writesRegister = true)
    (hstored : stored backend candidate program insn registers = some v)
    (hkept : ∀ r ≤ depth, r ≠ insn.dst → registers r = registers₀ r)
    (h : ∀ registers', (∀ r ≤ depth, r ≠ insn.dst → registers' r = registers₀ r) →
      registers' insn.dst = v →
        Leads backend candidate program instructions stop (pc + 1) registers' value) :
    Leads backend candidate program instructions stop pc registers value := by
  refine Leads.store hpc hinsn hwrites hstored (h _ (fun r hr hne => ?_) ?_)
  · rw [Function.update_of_ne hne, hkept r hr hne]
  · exact Function.update_self ..

/-- A jump to the end of a junction, which the value of a child decides. -/
theorem Leads.jump (op : Junction) {dst finish pc : ℕ} {registers : ℕ → Value ν} {value : Value ν}
    (hpc : pc < finish) (hfinish : finish ≤ stop)
    (hinsn : instructions pc = ⟨op.jump, 0, 0, finish, dst, 0⟩)
    (htaken : truthy backend (registers dst) = decide (op = .or) →
      Leads backend candidate program instructions stop finish registers value)
    (hnext : truthy backend (registers dst) ≠ decide (op = .or) →
      Leads backend candidate program instructions stop (pc + 1) registers value) :
    Leads backend candidate program instructions stop pc registers value := by
  have hjump : decide (op.jump = .jmpTrue) = decide (op = .or) := by cases op <;> rfl
  have htruthy : (qvmOps backend candidate program).truthy () (registers dst) =
      (truthy backend (registers dst), ()) := rfl
  refine Yields.branch (hpc.trans_le hfinish) hinsn (by cases op <;> simp [Junction.jump]) hpc
    htruthy ?_
  rw [Instruction.branch]
  dsimp only
  rw [hjump]
  split_ifs with htruth
  · exact htaken htruth
  · exact hnext htruth

/-! ## Comparisons that are one instruction -/

theorem swap_strcmp (s t : List UInt8) : (strcmp s t).swap = strcmp t s :=
  (compareOfLessAndEq_eq_swap (fun h h' => List.le_antisymm h h') (fun a b => List.le_total a b)
    List.not_le).symm

theorem applyCmp_code (op : Comparison) (cmp : Ordering) :
    applyCmp cmp op.code = op.apply cmp := by
  rw [applyCmp, Comparison.ofCode_code]
  rfl

theorem compareValues_reverse (op : Comparison) (l r : Value ν) :
    compareValues r l op.reverse.code = compareValues l r op.code := by
  cases l <;> cases r <;> first | rfl | skip
  all_goals simp only [compareValues, applyCmp_code]
  · rw [compareOfLessAndEq_eq_swap le_antisymm le_total not_le, Comparison.apply_reverse]
  · rw [compareOfLessAndEq_eq_swap le_antisymm le_total not_le, Comparison.apply_reverse]
  · rw [← swap_strcmp, Comparison.apply_reverse]

section Leaves

variable {operandCount regexCount : ℕ}

omit [LinearOrder ν] in
theorem qvmResolve_eq {e : Expr ν} (h : program e.index = some e) :
    qvmResolve backend candidate program e.index = e.resolve backend candidate := by
  rw [qvmResolve, h]
  rfl

omit [LinearOrder ν] in
theorem qvmPath_eq {e : Expr ν} (h : program e.index = some e) :
    qvmPath backend candidate program e.index = e.evalPath backend candidate := by
  rw [qvmPath, h]
  rfl

omit [LinearOrder ν] in
theorem qvmLength_eq {e : Expr ν} (h : program e.index = some e) (hindex : e.index ≠ noOperand) :
    qvmLength backend candidate program e.index =
      sizeValue backend (e.evalPath backend candidate) := by
  rw [qvmLength, if_neg hindex, qvmPath_eq h]

omit [LinearOrder ν] in
theorem qvmCount_eq {e : Expr ν} (h : program e.index = some e) :
    qvmCount backend candidate program e.index =
      .number (backend.ofInt (e.countPath backend candidate)) := by
  rw [qvmCount, h]
  rfl

theorem stored_load {op : Opcode} {dst : ℕ} {registers : ℕ → Value ν} {e : Expr ν}
    (hop : op = .loadPath ∨ op = .loadConst) (h : program e.index = some e) :
    stored backend candidate program ⟨op, 0, dst, 0, e.index, 0⟩ registers =
      some ((e.resolve backend candidate).getD .invalid) := by
  rw [← qvmResolve_eq h]
  rcases hop with rfl | rfl <;> rfl

theorem stored_exists {dst : ℕ} {registers : ℕ → Value ν} {e : Expr ν}
    (h : program e.index = some e) :
    stored backend candidate program ⟨.exists_, 0, dst, 0, e.index, 0⟩ registers =
        some (.bool (e.evalPath backend candidate).isSome) ∧
      stored backend candidate program ⟨.notExists, 0, dst, 0, e.index, 0⟩ registers =
        some (.bool !(e.evalPath backend candidate).isSome) := by
  rw [← qvmPath_eq h]
  exact ⟨rfl, rfl⟩

theorem stored_matching (op : Matching) {dst src1 src2 regexIndex : ℕ}
    {registers : ℕ → Value ν} :
    stored backend candidate program ⟨op.opcode, 0, dst, op.arg regexIndex, src1, src2⟩ registers =
      some (.bool (matchValues backend op regexIndex (registers src1) (registers src2))) := by
  cases op <;> rfl

theorem Expr.holds_of_isPath {e : Expr ν} (h : e.isPath = true) :
    e.holds backend candidate = (e.evalPath backend candidate).isSome := by
  cases e with
  | path => rfl
  | _ => cases h

theorem Expr.value_of_isPath {e : Expr ν} (h : e.isPath = true) :
    e.value backend candidate false = (e.resolve backend candidate).getD .invalid := by
  cases e with
  | path => rfl
  | _ => cases h

/-- A path is compared with a literal. -/
theorem qvmLeaf_literal (op : Comparison) {path literal : Expr ν} (hpath : path.isPath = true)
    (hliteral : literal.isLiteral = true) (hlookup : program path.index = some path)
    (hlookup' : program literal.index = some literal) :
    qvmLeaf backend candidate program literal.leafOpcode op.code path.index literal.index =
      some (.bool (compareValues (path.value backend candidate false)
        (literal.value backend candidate false) op.code)) := by
  rw [Expr.value_of_isPath hpath]
  cases literal with
  | bool index value =>
    simp only [Expr.leafOpcode, qvmLeaf, qvmResolve_eq hlookup, qvmResolve_eq hlookup']
    rfl
  | number index value num =>
    simp only [Expr.leafOpcode, qvmLeaf, qvmResolve_eq hlookup, hlookup']
    rcases path.resolve backend candidate with - | value' <;> [rfl; cases value' <;> rfl]
  | string index text =>
    simp only [Expr.leafOpcode, qvmLeaf, qvmResolve_eq hlookup, hlookup']
    rcases path.resolve backend candidate with - | value' <;> [rfl; cases value' <;> rfl]
  | _ => cases hliteral

/-- A measure is compared with a number. -/
theorem qvmLeaf_measured (op : Comparison) {e literal : Expr ν} {m : Opcode × ℕ}
    (hm : e.measured = some m) (hnumber : literal.isNumber = true)
    (htables : ∀ n ∈ e.nodes, n.InTables program operandCount regexCount)
    (hlookup : program literal.index = some literal) (hcount : operandCount ≤ noOperand) :
    qvmLeaf backend candidate program m.1 op.code m.2 literal.index =
      some (.bool (compareValues (e.value backend candidate false)
        (literal.value backend candidate false) op.code)) := by
  have hmeasure (measured : Value ν) : compareMeasured backend program measured op.code
      literal.index = compareValues measured (literal.value backend candidate false) op.code := by
    unfold compareMeasured
    rw [hlookup]
    cases literal with
    | number index value num => cases measured <;> rfl
    | _ => cases hnumber
  cases e with
  | lengthOfCurrent index =>
    cases hm
    rw [← hmeasure]
    rfl
  | length index arg =>
    cases hm
    have harg := htables arg (List.mem_cons_of_mem _ arg.mem_nodes)
    rw [qvmLeaf, qvmLength_eq harg.lookup (harg.index.trans_le hcount).ne, hmeasure]
    rfl
  | count index arg =>
    cases hm
    have harg := htables arg (List.mem_cons_of_mem _ arg.mem_nodes)
    rw [qvmLeaf, qvmCount_eq harg.lookup, hmeasure]
    rfl
  | _ => cases hm

theorem qvmLeaf_eq {op : Comparison} {left right : Expr ν} {opcode : Opcode} {arg src1 src2 : ℕ}
    (h : compareLeaf op left right = some (opcode, arg, src1, src2))
    (hleft : ∀ n ∈ left.nodes, n.InTables program operandCount regexCount)
    (hright : ∀ n ∈ right.nodes, n.InTables program operandCount regexCount)
    (hcount : operandCount ≤ noOperand) :
    qvmLeaf backend candidate program opcode arg src1 src2 =
      some (.bool (compareValues (left.value backend candidate false)
        (right.value backend candidate false) op.code)) := by
  have hl := (hleft left left.mem_nodes).lookup
  have hr := (hright right right.mem_nodes).lookup
  unfold compareLeaf at h
  split_ifs at h with hpath hpath' hnumber hnumber'
  · rw [Bool.and_eq_true] at hpath
    cases h
    exact qvmLeaf_literal op hpath.1 hpath.2 hl hr
  · rw [Bool.and_eq_true] at hpath'
    cases h
    rw [qvmLeaf_literal op.reverse hpath'.1 hpath'.2 hr hl, compareValues_reverse]
  · obtain ⟨m, hm, h⟩ := Option.map_eq_some_iff.1 h
    cases h
    exact qvmLeaf_measured op hm hnumber hleft hr hcount
  · obtain ⟨m, hm, h⟩ := Option.map_eq_some_iff.1 h
    cases h
    rw [qvmLeaf_measured op.reverse hm hnumber' hright hl hcount, compareValues_reverse]

end Leaves

/-! ## The value of an expression -/

section Values

variable {operandCount regexCount : ℕ}

mutual

/-- The code of an expression leaves its value in its register, and changes none that is in use
below. -/
theorem Expr.computes {boolean : Bool} {dst depth start : ℕ} {e : Expr ν}
    {registers : ℕ → Value ν} {value : Value ν} (hdst : dst ≤ depth)
    (htables : ∀ n ∈ e.nodes, n.InTables program operandCount regexCount)
    (hcount : operandCount ≤ noOperand)
    (hhas : Has instructions start (e.layout false boolean dst depth start))
    (hstop : start + e.size boolean ≤ stop)
    (h : ∀ registers', (∀ r ≤ depth, r ≠ dst → registers' r = registers r) →
      registers' dst = e.value backend candidate boolean →
        Leads backend candidate program instructions stop (start + e.size boolean) registers' value) :
    Leads backend candidate program instructions stop start registers value := by
  have hpos := e.size_pos boolean
  have hself := htables e e.mem_nodes
  cases e with
  | path index fromRoot =>
    refine Leads.last (by omega) hhas.head (by cases boolean <;> rfl) ?_ (fun _ _ _ => rfl) h
    cases boolean with
    | false => exact stored_load (Or.inl rfl) hself.lookup
    | true => exact (stored_exists hself.lookup).1
  | bool index v | regexp index v =>
    exact Leads.last (by omega) hhas.head rfl (stored_load (Or.inr rfl) hself.lookup)
      (fun _ _ _ => rfl) h
  | wildcard index =>
    refine Leads.last (by omega) hhas.head (by cases boolean <;> rfl) ?_ (fun _ _ _ => rfl) h
    cases boolean <;> rfl
  | lengthOfCurrent index => exact Leads.last (by omega) hhas.head rfl rfl (fun _ _ _ => rfl) h
  | length index arg =>
    have harg := htables arg (List.mem_cons_of_mem _ arg.mem_nodes)
    refine Leads.last (by omega) hhas.head rfl ?_ (fun _ _ _ => rfl) h
    exact congrArg some (qvmLength_eq harg.lookup (harg.index.trans_le hcount).ne)
  | count index arg =>
    have harg := htables arg (List.mem_cons_of_mem _ arg.mem_nodes)
    refine Leads.last (by omega) hhas.head rfl ?_ (fun _ _ _ => rfl) h
    exact congrArg some (qvmCount_eq harg.lookup)
  | string index text | number index v num =>
    cases boolean with
    | false =>
      exact Leads.last (by omega) hhas.head rfl (stored_load (Or.inr rfl) hself.lookup)
        (fun _ _ _ => rfl) h
    | true =>
      have hsize : start + 3 ≤ stop := hstop
      refine Leads.store (by omega) hhas.head rfl rfl ?_
      refine Leads.store (by omega) hhas.tail.head rfl
        (stored_load (Or.inr rfl) hself.lookup) ?_
      refine Leads.last (by omega) hhas.tail.tail.head rfl ?_ (fun r hr hne => ?_) h
      · dsimp only [stored, qvmBinary]
        have htemp : 1 + depth ≠ dst := by omega
        rw [Function.update_self, Function.update_of_ne htemp, Function.update_self]
        rfl
      · have htemp : r ≠ 1 + depth := by omega
        rw [Function.update_of_ne hne, Function.update_of_ne htemp]
  | compare index op left right =>
    rw [Expr.layout] at hhas
    rw [Expr.size] at hstop h hpos
    obtain ⟨-, htables⟩ := List.forall_mem_cons.1 htables
    obtain ⟨hleft, hright⟩ := List.forall_mem_append.1 htables
    cases hleaf : compareLeaf op left right with
    | some leaf =>
      obtain ⟨opcode, arg, src1, src2⟩ := leaf
      rw [hleaf] at hhas hstop h
      dsimp only at hhas hstop h
      obtain ⟨hop, -, -⟩ := compareLeaf_some hleaf
      refine Leads.last (by omega) hhas.head (writesRegister_of_isLeaf hop) ?_ (fun _ _ _ => rfl) h
      refine Eq.trans ?_ (qvmLeaf_eq hleaf hleft hright hcount)
      cases opcode <;> first | rfl | cases hop
    | none =>
      rw [hleaf] at hhas hstop h
      dsimp only at hhas hstop h
      rw [show start + (left.size false + right.size false + 1) =
        start + left.size false + right.size false + 1 by omega] at h
      have hmid := hhas.right
      rw [left.length_layout] at hmid
      refine left.computes hdst hleft hcount hhas.left (by omega) fun registers₁ hkept hvalue => ?_
      refine right.computes (Nat.add_comm 1 depth).le hright hcount hmid.left (by omega)
        fun registers₂ hkept₂ hvalue₂ => ?_
      have hlast := hmid.right
      rw [right.length_layout] at hlast
      refine Leads.last (by omega) hlast.head rfl ?_
        (fun r hr hne => (hkept₂ r (by omega) (by omega)).trans (hkept r hr hne)) h
      dsimp only [stored, qvmBinary]
      rw [hvalue₂, hkept₂ dst (by omega) (by omega), hvalue]
      rfl
  | matching index op regexIndex left right =>
    rw [Expr.layout] at hhas
    rw [Expr.size] at hstop h
    rw [show start + (left.size false + right.size false + 1) =
      start + left.size false + right.size false + 1 by omega] at h
    obtain ⟨-, htables⟩ := List.forall_mem_cons.1 htables
    obtain ⟨hleft, hright⟩ := List.forall_mem_append.1 htables
    have hmid := hhas.right
    rw [left.length_layout] at hmid
    refine left.computes hdst hleft hcount hhas.left (by omega) fun registers₁ hkept hvalue => ?_
    refine right.computes (Nat.add_comm 1 depth).le hright hcount hmid.left (by omega)
      fun registers₂ hkept₂ hvalue₂ => ?_
    have hlast := hmid.right
    rw [right.length_layout] at hlast
    refine Leads.last (by omega) hlast.head (by cases op <;> rfl) ?_
      (fun r hr hne => (hkept₂ r (by omega) (by omega)).trans (hkept r hr hne)) h
    rw [stored_matching, hvalue₂, hkept₂ dst (by omega) (by omega), hvalue]
    rfl
  | not index arg =>
    rw [Expr.layout] at hhas
    rw [Expr.size] at hstop h
    obtain ⟨-, htables⟩ := List.forall_mem_cons.1 htables
    have harg := (htables arg arg.mem_nodes).lookup
    by_cases hpath : arg.isPath = true
    · rw [if_pos hpath] at hhas hstop h
      refine Leads.last (by omega) hhas.head rfl ?_ (fun _ _ _ => rfl) h
      rw [(stored_exists harg).2, Expr.value, Expr.truthy_value, Expr.holds_of_isPath hpath]
    · rw [if_neg hpath] at hhas hstop h
      refine arg.computes hdst htables hcount hhas.left (by omega) fun registers₁ hkept hvalue => ?_
      have hlast := hhas.right
      rw [arg.length_layout] at hlast
      refine Leads.last (by omega) hlast.head rfl ?_ hkept h
      exact congrArg (fun v => some (Value.bool !truthy backend v)) hvalue
  | junction index op children =>
    exact children.computes hdst (List.forall_mem_cons.1 htables).2 hcount hhas rfl hstop h

theorem Children.computes {op : Junction} {later : Bool} {dst depth finish start : ℕ}
    {children : Children ν} {registers : ℕ → Value ν} {value : Value ν} (hdst : dst ≤ depth)
    (htables : ∀ n ∈ children.nodes, n.InTables program operandCount regexCount)
    (hcount : operandCount ≤ noOperand)
    (hhas : Has instructions start (children.layout false op later dst depth finish start))
    (hfinish : finish = start + children.size) (hstop : finish ≤ stop)
    (h : ∀ registers', (∀ r ≤ depth, r ≠ dst → registers' r = registers r) →
      registers' dst = children.value backend candidate op →
        Leads backend candidate program instructions stop finish registers' value) :
    Leads backend candidate program instructions stop start registers value := by
  cases children with
  | two first second =>
    rw [Children.layout, Bool.false_and, if_neg Bool.false_ne_true, List.map_id] at hhas
    rw [Children.size] at hfinish
    obtain ⟨hfirst, hsecond⟩ := List.forall_mem_append.1 htables
    have hjump := hhas.right
    rw [first.length_layout] at hjump
    refine first.computes hdst hfirst hcount hhas.left (by omega) fun registers₁ hkept hvalue => ?_
    refine Leads.jump op (by omega) hstop hjump.head (fun htruth => ?_) fun htruth => ?_
    · rw [hvalue] at htruth
      refine h registers₁ hkept ?_
      rw [hvalue, Children.value, if_pos htruth]
    · rw [hvalue] at htruth
      refine second.computes hdst hsecond hcount hjump.tail (by omega)
        fun registers₂ hkept₂ hvalue₂ => ?_
      rw [show start + first.size true + 1 + second.size true = finish by omega]
      refine h registers₂ (fun r hr hne => (hkept₂ r hr hne).trans (hkept r hr hne)) ?_
      rw [hvalue₂, Children.value, if_neg htruth]
  | more first rest =>
    rw [Children.layout, Bool.false_and, if_neg Bool.false_ne_true, List.map_id] at hhas
    rw [Children.size] at hfinish
    obtain ⟨hfirst, hrest⟩ := List.forall_mem_append.1 htables
    have hjump := hhas.right
    rw [first.length_layout] at hjump
    refine first.computes hdst hfirst hcount hhas.left (by omega) fun registers₁ hkept hvalue => ?_
    refine Leads.jump op (by omega) hstop hjump.head (fun htruth => ?_) fun htruth => ?_
    · rw [hvalue] at htruth
      refine h registers₁ hkept ?_
      rw [hvalue, Children.value, if_pos htruth]
    · rw [hvalue] at htruth
      refine rest.computes hdst hrest hcount hjump.tail (by omega) hstop
        fun registers₂ hkept₂ hvalue₂ => ?_
      refine h registers₂ (fun r hr hne => (hkept₂ r hr hne).trans (hkept r hr hne)) ?_
      rw [hvalue₂, Children.value, if_neg htruth]

end

end Values

end JsonPath
