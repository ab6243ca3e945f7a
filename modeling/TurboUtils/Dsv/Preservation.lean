import TurboUtils.Dsv.Compiled

/-! The slice of a compiled filter answers what the native evaluator answers, which takes the
clauses from left to right. -/
namespace Dsv

open QueryVm

variable {ν : Type}

def Join.apply : Join → Bool → Bool → Bool
  | .and, result, ok => result && ok
  | .or, result, ok => result || ok

def leftAssociative : List Bool → List Join → Bool
  | [], _ => false
  | ok :: oks, joins => (joins.zip oks).foldl (fun result (join, ok) => join.apply result ok) ok

variable (N : Numbers ν) (row : Row ν) {columnCount : ℕ}

/-! ## Clauses -/

theorem opOf_code (op : Op) : opOf op.code = some op := by cases op <;> rfl

/-- Code that leads from anywhere to the truth of a clause. -/
def Decides (b b' : Builder ν) (ok : Bool) : Prop :=
  ∃ code, b.Grows b' code ∧ ∀ slice : Slice ν, slice.Checked → slice.Has b.insns.length code →
    b'.operands <+: slice.operands → slice.Leads N row b.insns.length (fun _ => True)
      b'.insns.length fun registers => registers 0 = .bool ok

theorem lowerLeaf_decides {op : Opcode} (hop : op = .cmpLeafNumber ∨ op = .cmpLeafString)
    {lhs rhs : Operand ν} {arg : ℕ} {ok : Bool} {left right : Value ν} {b b' : Builder ν}
    (hleft : resolveValue row [lhs] 0 = some left) (hright : resolveValue row [rhs] 0 = some right)
    (hvalue : ∀ operands i j, resolveValue row operands i = some left →
      resolveValue row operands j = some right →
        leafValue N row operands op arg i j = some (.bool ok))
    (h : lowerLeaf b op lhs rhs arg = some b') : Decides N row b b' ok := by
  unfold lowerLeaf at h
  obtain ⟨⟨i, b₁⟩, hlhs, h⟩ := Option.bind_eq_some_iff.1 h
  obtain ⟨⟨j, b₂⟩, hrhs, hemit⟩ := Option.bind_eq_some_iff.1 h
  have hgrows := ((grows_addOperand hlhs).trans (grows_addOperand hrhs)).trans (grows_emit hemit)
  refine ⟨_, hgrows, fun slice hchecked hhas hops => ?_⟩
  rw [hgrows.length]
  obtain ⟨rfl, -, hoperands⟩ := addOperand_eq_some hlhs
  obtain ⟨rfl, -, hoperands'⟩ := addOperand_eq_some hrhs
  rw [(emit_eq_some hemit).2, hoperands'] at hops
  refine Slice.leads_leaf hchecked hop hhas (hvalue _ _ _ ?_ ?_)
  · rw [hoperands] at hops
    exact (resolveValue_added ((List.prefix_append _ _).trans hops)).trans hleft
  · exact (resolveValue_added hops).trans hright

variable {N row} in
theorem leads_compare {slice : Slice ν} (hchecked : slice.Checked) {pc lhs reg operand : ℕ}
    {op : Op} {rhs : ν} (hhas : slice.Has pc
      ([⟨.loadConst, 0, reg, 0, operand, 0⟩] ++ [⟨.cmp, 0, 0, op.code, lhs, reg⟩]))
    (hvalue : resolveValue row slice.operands operand = some (.number rhs)) (hne : lhs ≠ reg)
    (value : ν) :
    slice.Leads N row pc (fun registers => registers lhs = .number value) (pc + 1 + 1)
      fun registers => registers 0 = .bool (N.compare op value rhs) := by
  obtain ⟨hload, hcmp⟩ := Slice.has_append.1 hhas
  have hloaded : slice.Leads N row pc (fun registers => registers lhs = .number value) (pc + 1)
      fun registers => registers lhs = .number value ∧ registers reg = .number rhs :=
    Slice.leads_load hchecked (.inl rfl) hload hvalue fun ρ hρ =>
      ⟨by rw [Function.update_of_ne hne, hρ], Function.update_self ..⟩
  refine hloaded.trans (Slice.leads_binary hchecked (by simp) hcmp (fun ρ hρ => hρ) ?_
    fun ρ _ => Function.update_self ..)
  simp [binaryValue, evalNum, opOf_code]

theorem lowerArith_decides {items : List (Item ν ℕ)} (hitems : items ≠ [])
    (hrange : ∀ item ∈ items, item.InRange columnCount) {op : Op} {rhs : ν} {b b' : Builder ν}
    (h : lowerArith b items op rhs = some b') :
    ∃ value, evalLhs N row columnCount (.arith items) = some value ∧
      Decides N row b b' (N.compare op value rhs) := by
  unfold lowerArith at h
  obtain ⟨⟨b₁, registers⟩, hfold, h⟩ := Option.bind_eq_some_iff.1 h
  have hcap : ([] : List ν).length + items.length ≤
      if 64 < items.length then items.length else 64 := by
    rw [List.length_nil, Nat.zero_add]
    split_ifs
    · exact le_rfl
    · omega
  obtain ⟨stack, heval, hsimulates⟩ := lowerItems_simulate N row hrange Registers.Apart.start rfl
    hcap hfold
  obtain ⟨hlength, code, hgrows, hleads⟩ := hsimulates
  have hapart := lowerItems_apart Registers.Apart.start hfold
  dsimp only at h
  split at h
  next lhs hregs =>
    obtain ⟨⟨i, b₂⟩, hadd, h⟩ := Option.bind_eq_some_iff.1 h
    obtain ⟨⟨reg, taken⟩, htake, h⟩ := Option.bind_eq_some_iff.1 h
    obtain ⟨b₃, hload, hcmp⟩ := Option.bind_eq_some_iff.1 h
    obtain ⟨hreg, -, -, -⟩ := hapart.take htake
    rw [hregs] at hlength hreg hleads
    obtain ⟨value, rfl⟩ := List.length_eq_one_iff.1 hlength
    refine ⟨value, ?_, ?_⟩
    · unfold evalLhs
      dsimp only
      rw [if_neg fun hnil => hitems (List.length_eq_zero_iff.1 hnil)]
      rw [heval]
      rfl
    · have hstored := (grows_addOperand hadd).trans (grows_emit hload)
      have hcompared := hstored.trans (grows_emit hcmp)
      refine ⟨_, hgrows.trans hcompared, fun slice hchecked hhas hops => ?_⟩
      obtain ⟨hcode, hrest⟩ := Slice.has_append.1 hhas
      rw [← hgrows.length] at hrest
      obtain ⟨rfl, -, hoperands⟩ := addOperand_eq_some hadd
      have hvalue : resolveValue row slice.operands b₁.operands.length = some (.number rhs) := by
        refine resolveValue_added (?_ : _ ++ [Operand.number rhs] <+: _)
        rw [← hoperands, ← (emit_eq_some hload).2, ← (emit_eq_some hcmp).2]
        exact hops
      have hne : lhs ≠ reg := fun heq => hreg (List.mem_singleton.2 heq.symm)
      have hcompare := leads_compare (N := N) hchecked hrest hvalue hne value
      have hstack := hleads slice hchecked hcode (hcompared.operands.trans hops)
      rw [hcompared.length]
      exact (hstack.weaken fun ρ _ => .nil).trans
        (hcompare.weaken fun ρ hρ => (List.forall₂_cons.1 hρ).1)
  · cases h

theorem lowerClause_decides {clause : Clause ν} (hrange : clause.InRange columnCount)
    {b b' : Builder ν} (h : lowerClause b clause = some b') :
    ∃ ok, evalClause N row columnCount clause = some ok ∧ Decides N row b b' ok := by
  match clause with
  | .number (.arith items) op rhs =>
    obtain ⟨hitems, hrange⟩ := hrange
    obtain ⟨value, heval, hdecides⟩ := lowerArith_decides N row hitems hrange h
    refine ⟨N.compare op value rhs, ?_, hdecides⟩
    rw [evalClause, heval]
    rfl
  | .number (.column column) op rhs =>
    have hcolumn : ¬columnCount ≤ column := not_le.2 hrange
    refine ⟨N.compare op (row.number column) rhs, ?_, lowerLeaf_decides N row (.inl rfl) rfl rfl ?_ h⟩
    · rw [evalClause, evalLhs, if_neg hcolumn]
      rfl
    · intro operands i j hlhs hrhs
      simp [leafValue, hlhs, hrhs, evalNum, opOf_code]
  | .text column op rhs =>
    refine ⟨evalStr op (row.text column) rhs, rfl, lowerLeaf_decides N row (.inr rfl) rfl rfl ?_ h⟩
    intro operands i j hlhs hrhs
    simp [leafValue, hlhs, hrhs, evalStrCode, opOf_code]

/-! ## Joins -/

def joinAt (joins : List Join) (i : ℕ) : Join := if joins[i]? = some .and then .and else .or

theorem jump_joinAt (joins : List Join) (i : ℕ) :
    (if joins[i]? = some .and then Opcode.jmpFalse else .jmpTrue) =
      if joinAt joins i = .and then .jmpFalse else .jmpTrue := by
  unfold joinAt
  split_ifs <;> first | rfl | contradiction

theorem checkLoop_succ (joins : List Join) (clause : Clause ν) (clauses : List (Clause ν)) (i : ℕ)
    (result : Bool) : checkLoop N row columnCount joins (clause :: clauses) (i + 1) result =
      (evalClause N row columnCount clause).bind fun ok =>
        checkLoop N row columnCount joins clauses (i + 2) ((joinAt joins i).apply result ok) := by
  rw [checkLoop, joinAt]
  congr 1
  funext ok
  rw [if_neg (Nat.succ_ne_zero i), Nat.add_sub_cancel]
  split_ifs <;> rfl

variable {N row} in
/-- The jump skips the clause that cannot change the result. -/
theorem leads_join {slice : Slice ν} (hchecked : slice.Checked) {pc : ℕ} {join : Join}
    {code : List Instruction} (hhas : slice.Has pc ([⟨if join = .and then .jmpFalse else .jmpTrue,
      0, 0, pc + 1 + code.length, 0, 0⟩] ++ code)) {ok : Bool}
    (hcode : slice.Leads N row (pc + 1) (fun _ => True) (pc + 1 + code.length)
      fun registers => registers 0 = .bool ok) (result : Bool) :
    slice.Leads N row pc (fun registers => registers 0 = .bool result) (pc + 1 + code.length)
      fun registers => registers 0 = .bool (join.apply result ok) := by
  intro value hvalue ρ hρ
  obtain ⟨hpc, hinsn⟩ := (Slice.has_append.1 hhas).1.single
  have htruthy : (qvmOps N row slice.operands).truthy () (ρ (slice.at pc).src1) =
      (result, ()) := by
    rw [hinsn]
    dsimp only
    rw [hρ]
    rfl
  have hskip : join.apply result ok = result →
      slice.Ends N row (pc + 1 + code.length) ρ value :=
    fun heq => hvalue ρ (heq.symm ▸ hρ)
  have henter : join.apply result ok = ok → slice.Ends N row (pc + 1) ρ value :=
    fun heq => hcode value (fun ρ' hρ' => hvalue ρ' (heq.symm ▸ hρ')) ρ trivial
  refine Ends.branch hpc (hchecked pc hpc) ?_ ?_ htruthy ?_
  · rw [hinsn]
    cases join <;> simp
  · rw [hinsn]
    dsimp only
    omega
  · rw [hinsn, Instruction.branch]
    cases join <;> cases result
    · exact hskip rfl
    · exact henter rfl
    · exact henter rfl
    · exact hskip rfl

/-! ## The loop -/

theorem modify_after {α : Type*} (f : α → α) (init : List α) (a : α) (after : List α) :
    (init ++ a :: after).modify init.length f = init ++ f a :: after := by
  induction init with
  | nil => rfl
  | cons b init ih => rw [List.cons_append, List.length_cons, List.modify_succ_cons, ih]; rfl

/-- From the jump that waits for its target on, the slice joins the other clauses to the result. -/
theorem lowerLoop_leads {joins : List Join} {clauses : List (Clause ν)} (hne : clauses ≠ [])
    (hrange : ∀ clause ∈ clauses, clause.InRange columnCount) {i : ℕ} {b b' : Builder ν}
    {pending : Option ℕ} {init : List Instruction} (hinit : b.insns = init ++
      [⟨if joinAt joins i = .and then .jmpFalse else .jmpTrue, 0, 0, 0, 0, 0⟩])
    (h : lowerLoop joins clauses (i + 1) b (some init.length) = some (b', pending)) :
    pending = none ∧ init <+: b'.insns ∧ b.operands <+: b'.operands ∧ ∀ slice : Slice ν,
      slice.insns = b'.insns → slice.Checked → b'.operands <+: slice.operands → ∀ result,
        ∃ result', checkLoop N row columnCount joins clauses (i + 1) result = some result' ∧
          slice.Leads N row init.length (fun registers => registers 0 = .bool result)
            slice.insns.length fun registers => registers 0 = .bool result' := by
  induction clauses generalizing i b init with
  | nil => exact absurd rfl hne
  | cons clause clauses ih =>
    rw [List.forall_mem_cons] at hrange
    rw [lowerLoop] at h
    obtain ⟨b₁, hclause, h⟩ := Option.bind_eq_some_iff.1 h
    obtain ⟨ok, heval, code, hgrows, hleads⟩ := lowerClause_decides N row hrange.1 hclause
    have hlength : b.insns.length = init.length + 1 := by rw [hinit, List.length_append]; rfl
    have htarget : b₁.insns.length = init.length + 1 + code.length := by
      rw [hgrows.length, hlength]
    have hpatched : (b₁.patch init.length b₁.insns.length).insns = init ++
        ([⟨if joinAt joins i = .and then .jmpFalse else .jmpTrue, 0, 0,
          init.length + 1 + code.length, 0, 0⟩] ++ code) := by
      rw [Builder.patch, htarget]
      dsimp only
      rw [hgrows.insns, hinit, List.append_assoc, List.singleton_append, modify_after]
      rfl
    -- whatever comes after this clause, the jump before it is decided by the result so far
    have hjoin : ∀ slice : Slice ν, (b₁.patch init.length b₁.insns.length).insns <+: slice.insns →
        slice.Checked → b₁.operands <+: slice.operands → ∀ result,
          slice.Leads N row init.length (fun registers => registers 0 = .bool result)
            b₁.insns.length fun registers =>
              registers 0 = .bool ((joinAt joins i).apply result ok) := by
      intro slice hbefore hchecked hops result
      rw [hpatched] at hbefore
      have hhas := Slice.has_of_append hbefore
      have hcode := (Slice.has_append.1 hhas).2
      have hclause := hleads slice hchecked (by rwa [hlength]) hops
      rw [htarget] at hclause ⊢
      rw [hlength] at hclause
      exact leads_join hchecked hhas hclause result
    have hbefore : init <+: (b₁.patch init.length b₁.insns.length).insns := by
      rw [hpatched]
      exact List.prefix_append _ _
    dsimp only at h
    by_cases hlast : clauses = []
    · rw [if_pos hlast] at h
      subst hlast
      cases h
      refine ⟨rfl, hbefore, hgrows.operands, fun slice hinsns hchecked hops result => ?_⟩
      refine ⟨(joinAt joins i).apply result ok, ?_, ?_⟩
      · rw [checkLoop_succ, heval]
        rfl
      · have hend : slice.insns.length = b₁.insns.length := by
          rw [hinsns, Builder.patch, List.length_modify]
        rw [hend]
        exact hjoin slice (hinsns ▸ List.prefix_rfl) hchecked hops result
    · rw [if_neg hlast] at h
      obtain ⟨b₂, hemit, h⟩ := Option.bind_eq_some_iff.1 h
      obtain ⟨hinsns₂, hoperands₂⟩ := emit_eq_some hemit
      rw [jump_joinAt] at hinsns₂
      have hpending : b₂.insns.length - 1 =
          (b₁.patch init.length b₁.insns.length).insns.length := by
        rw [hinsns₂, List.length_append]
        rfl
      rw [hpending] at h
      obtain ⟨rfl, hinit', hops', hrest⟩ := ih hlast hrange.2 hinsns₂ h
      have hops₁ : b₁.operands <+: b'.operands := by
        rw [hoperands₂] at hops'
        exact hops'
      refine ⟨rfl, hbefore.trans hinit', hgrows.operands.trans hops₁,
        fun slice hinsns hchecked hops result => ?_⟩
      obtain ⟨result', hcheck, hleads'⟩ := hrest slice hinsns hchecked hops
        ((joinAt joins i).apply result ok)
      refine ⟨result', ?_, ?_⟩
      · rw [checkLoop_succ, heval]
        exact hcheck
      · refine Slice.Leads.trans ?_ hleads'
        have hend : (b₁.patch init.length b₁.insns.length).insns.length = b₁.insns.length := by
          rw [Builder.patch, List.length_modify]
        rw [hend]
        exact hjoin slice (hinsns ▸ hinit') hchecked (hops₁.trans hops) result

theorem lowerLoop_answers {joins : List Join} {clauses : List (Clause ν)} (hne : clauses ≠ [])
    (hrange : ∀ clause ∈ clauses, clause.InRange columnCount) {b : Builder ν} {pending : Option ℕ}
    (h : lowerLoop joins clauses 0 .empty none = some (b, pending)) :
    pending = none ∧ ∀ slice : Slice ν, slice.insns = b.insns → slice.Checked →
      b.operands <+: slice.operands →
        ∃ result, checkLoop N row columnCount joins clauses 0 false = some result ∧
          slice.Leads N row 0 (fun _ => True) slice.insns.length
            fun registers => registers 0 = .bool result := by
  obtain ⟨clause, clauses, rfl⟩ := List.exists_cons_of_ne_nil hne
  rw [List.forall_mem_cons] at hrange
  rw [lowerLoop] at h
  obtain ⟨b₁, hclause, h⟩ := Option.bind_eq_some_iff.1 h
  obtain ⟨ok, heval, code, hgrows, hleads⟩ := lowerClause_decides N row hrange.1 hclause
  have hcode : ∀ slice : Slice ν, b₁.insns <+: slice.insns → slice.Has 0 code := by
    intro slice hbefore
    rw [hgrows.insns] at hbefore
    exact Slice.has_of_append hbefore
  dsimp only at h
  by_cases hlast : clauses = []
  · rw [if_pos hlast] at h
    subst hlast
    cases h
    refine ⟨rfl, fun slice hinsns hchecked hops => ⟨ok, ?_, ?_⟩⟩
    · rw [checkLoop, heval]
      rfl
    · rw [hinsns]
      exact hleads slice hchecked (hcode slice (hinsns ▸ List.prefix_rfl)) hops
  · rw [if_neg hlast] at h
    obtain ⟨b₂, hemit, h⟩ := Option.bind_eq_some_iff.1 h
    obtain ⟨hinsns₂, hoperands₂⟩ := emit_eq_some hemit
    rw [jump_joinAt] at hinsns₂
    have hpending : b₂.insns.length - 1 = b₁.insns.length := by
      rw [hinsns₂, List.length_append]
      rfl
    rw [hpending] at h
    obtain ⟨rfl, hbefore, hops', hrest⟩ := lowerLoop_leads N row hlast hrange.2 hinsns₂ h
    rw [hoperands₂] at hops'
    refine ⟨rfl, fun slice hinsns hchecked hops => ?_⟩
    obtain ⟨result, hcheck, hleads'⟩ := hrest slice hinsns hchecked hops ok
    refine ⟨result, ?_, ?_⟩
    · rw [checkLoop, heval]
      exact hcheck
    · exact (hleads slice hchecked (hcode slice (hinsns ▸ hbefore)) (hops'.trans hops)).trans
        hleads'

/-- The native loop takes the clauses from left to right. -/
theorem checkLoop_eq {joins : List Join} {clauses : List (Clause ν)} {i : ℕ}
    (hjoins : joins.length = i + clauses.length) (result : Bool) :
    checkLoop N row columnCount joins clauses (i + 1) result =
      (clauses.mapM (evalClause N row columnCount)).map fun oks =>
        ((joins.drop i).zip oks).foldl (fun result (join, ok) => join.apply result ok) result := by
  induction clauses generalizing i result with
  | nil =>
    rw [checkLoop, List.mapM_nil]
    simp
  | cons clause clauses ih =>
    rw [List.length_cons] at hjoins
    have hlt : i < joins.length := by omega
    rw [checkLoop_succ, List.mapM_cons, List.drop_eq_getElem_cons hlt]
    have hjoin : joinAt joins i = joins[i] := by
      unfold joinAt
      rw [List.getElem?_eq_getElem hlt]
      cases joins[i] <;> rfl
    cases evalClause N row columnCount clause with
    | none => rfl
    | some ok =>
      rw [hjoin]
      refine (ih (by omega : joins.length = i + 1 + clauses.length) _).trans ?_
      cases clauses.mapM (evalClause N row columnCount) <;> rfl

theorem checkNative_eq {plan : Plan ν} (hproper : plan.Proper columnCount) :
    checkNative N row columnCount plan = (plan.clauses.mapM (evalClause N row columnCount)).map
      fun oks => leftAssociative oks plan.joins := by
  obtain ⟨clauses, joins⟩ := plan
  obtain ⟨hjoins, -⟩ := hproper
  dsimp only at hjoins ⊢
  match clauses with
  | clause :: clauses =>
    rw [checkNative, checkLoop, List.mapM_cons]
    cases evalClause N row columnCount clause with
    | none => rfl
    | some ok =>
      refine (checkLoop_eq N row (i := 0) (by simpa using hjoins) ok).trans ?_
      cases clauses.mapM (evalClause N row columnCount) <;> rfl

/-! ## Compiled filters -/

theorem lowerToQvm_eq_some {plan : Plan ν} {memory : Bool} {limits : Limits} {slice : Slice ν}
    (hrange : ∀ clause ∈ plan.clauses, clause.InRange columnCount)
    (h : lowerToQvm plan memory limits = some slice) :
    slice.verify memory limits = .ok () ∧ (slice.Checked → ∃ result,
      checkNative N row columnCount plan = some result ∧ slice.Leads N row 0 (fun _ => True)
        slice.insns.length fun registers => registers 0 = .bool result) := by
  unfold lowerToQvm at h
  by_cases hclauses : plan.clauses = []
  · rw [if_pos hclauses] at h
    cases h
  rw [if_neg hclauses] at h
  obtain ⟨⟨b, pending⟩, hloop, h⟩ := Option.bind_eq_some_iff.1 h
  obtain ⟨rfl, hanswers⟩ := lowerLoop_answers N row hclauses hrange hloop
  dsimp only at h
  split_ifs at h
  split at h
  next hverify =>
    cases h
    exact ⟨hverify, fun hchecked => hanswers _ rfl hchecked List.prefix_rfl⟩
  · cases h

theorem Slice.verify_checked {slice : Slice ν} {memory : Bool} {limits : Limits}
    (h : slice.verify memory limits = .ok ()) : slice.Checked := by
  have hwithin := verifySlice_within h
  obtain ⟨-, hfields, -⟩ := (verifySlice_ok hwithin).1 h
  intro pc hpc
  have hvalid := (hfields pc hpc).execProblem hwithin.maxRegisters
  rwa [Nat.zero_add, Nat.zero_add] at hvalid

/-- A slice that is verified answers like the clauses that it is lowered from. -/
theorem checkQvm_eq {plan : Plan ν} (hproper : plan.Proper columnCount) {memory : Bool}
    {limits : Limits} {slice : Slice ν} (hlower : lowerToQvm plan memory limits = some slice)
    (hsteps : slice.insns.length ≤ limits.maxSteps) :
    checkQvm N row slice limits = checkNative N row columnCount plan := by
  obtain ⟨hverify, hanswers⟩ := lowerToQvm_eq_some N row hproper.inRange hlower
  obtain ⟨result, hnative, hleads⟩ := hanswers (Slice.verify_checked hverify)
  have hwithin := verifySlice_within hverify
  have hends : slice.Ends N row 0 (fun _ => (qvmOps N row slice.operands).zero) (.bool result) := by
    refine hleads _ (fun registers hregisters => ?_) _ trivial
    rw [← hregisters]
    exact QueryVm.Ends.done le_rfl
  have hgeneral := Ends.executeGeneral (by rwa [Nat.zero_add]) hwithin.nonempty hwithin.slice
    hwithin.instructions hsteps
  have hexecute := execute_eq_executeGeneral hverify (qvmOps N row slice.operands) none ()
    hwithin.instructions hsteps
  unfold checkQvm
  rw [hexecute, hgeneral, hnative]
  rfl

/-- The slice of a compiled filter is verified, and run or not, the answer is that of the clauses
from left to right; a register that is taken holds no value that is still on the stack. -/
theorem lowered_agrees (columns : List Column) (exprParse : ExprParse ν) (expression : List Char)
    (plan : Plan ν) (hcompile : compile N columns exprParse expression = .ok plan) (memory : Bool)
    (slice : Slice ν) (hlower : lowerToQvm plan memory defaultLimits = some slice) :
    slice.verify memory defaultLimits = .ok () ∧
      (∀ row, ∃ oks, plan.clauses.mapM (evalClause N row columns.length) = some oks ∧
        checkNative N row columns.length plan = some (leftAssociative oks plan.joins) ∧
          checkQvm N row slice defaultLimits = some (leftAssociative oks plan.joins)) ∧
        ∀ (items : List (Item ν ℕ)) (b b' : Builder ν) (registers : Registers),
          items.foldlM lowerItem (b, ⟨[], [], 1⟩) = some (b', registers) →
            registers.regs.Nodup ∧ ∀ reg registers', registers.take = some (reg, registers') →
              reg ∉ registers.regs ∧ reg ≠ 0 := by
  have hproper := compile_proper hcompile
  refine ⟨(lowerToQvm_eq_some N ⟨fun _ => [], fun _ => N.zero⟩ hproper.inRange hlower).1,
    fun row => ?_, fun items b b' registers h => ?_⟩
  · obtain ⟨hverify, hanswers⟩ := lowerToQvm_eq_some N row hproper.inRange hlower
    obtain ⟨result, hnative, -⟩ := hanswers (Slice.verify_checked hverify)
    have heq := hnative.symm.trans (checkNative_eq N row hproper)
    obtain ⟨oks, hoks, rfl⟩ := Option.map_eq_some_iff.1 heq.symm
    have hsteps := (verifySlice_within hverify).instructions
    exact ⟨oks, hoks, hnative, (checkQvm_eq N row hproper hlower hsteps).trans hnative⟩
  · have hapart := lowerItems_apart Registers.Apart.start h
    refine ⟨(List.nodup_append.1 hapart.nodup).1, fun reg registers' htake => ?_⟩
    obtain ⟨hreg, hpos, -, -⟩ := hapart.take htake
    exact ⟨hreg, hpos.ne'⟩

def wholeNumbers : Numbers ℤ where
  zero := 0
  add := (· + ·)
  sub := (· - ·)
  mul := (· * ·)
  div := (· / ·)
  neg := (- ·)
  compare op lhs rhs := op.holds (Ord.compare lhs rhs)
  nonzero value := value ≠ 0
  atof text := text.length

/-- A number and a string. -/
def twoColumns : List Column :=
  [⟨"a".toList, "a:i".toList, .number⟩, ⟨"s".toList, "s:s".toList, .string⟩]

def parseSum : ExprParse ℤ := fun text =>
  if text = "-a * 2 + a".toList then
    .ok [.ident ['a'], .neg, .number 2, .mul, .ident ['a'], .add]
  else .error "invalid character"

theorem lowered_agrees_sum : ∃ plan slice,
    compile wholeNumbers twoColumns parseSum "-a * 2 + a < 7 and s == \"x\" or a >= 1".toList =
      .ok plan ∧ lowerToQvm plan true defaultLimits = some slice ∧
        ∀ row, checkQvm wholeNumbers row slice defaultLimits =
          checkNative wholeNumbers row 2 plan := by
  have hlowers : ((compile wholeNumbers twoColumns parseSum
      "-a * 2 + a < 7 and s == \"x\" or a >= 1".toList).toOption.bind
        fun plan => lowerToQvm plan true defaultLimits).isSome = true := by decide +kernel
  obtain ⟨slice, hslice⟩ := Option.isSome_iff_exists.1 hlowers
  obtain ⟨plan, hplan, hlower⟩ := Option.bind_eq_some_iff.1 hslice
  have hcompile : compile wholeNumbers twoColumns parseSum
      "-a * 2 + a < 7 and s == \"x\" or a >= 1".toList = .ok plan := by
    cases hcompile : compile wholeNumbers twoColumns parseSum
        "-a * 2 + a < 7 and s == \"x\" or a >= 1".toList with
    | error message =>
      rw [hcompile] at hplan
      cases hplan
    | ok plan' =>
      rw [hcompile] at hplan
      cases hplan
      rfl
  refine ⟨plan, slice, hcompile, hlower, fun row => ?_⟩
  obtain ⟨oks, -, hnative, hqvm⟩ :=
    (lowered_agrees wholeNumbers twoColumns parseSum _ plan hcompile true slice hlower).2.1 row
  exact hqvm.trans hnative.symm

end Dsv
