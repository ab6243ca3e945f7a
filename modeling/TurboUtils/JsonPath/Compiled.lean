import TurboUtils.JsonPath.Computed

/-! When a compiled selector means what its expression does. -/
namespace JsonPath

open QueryVm

/-- `JSONPATH_MAX_REGEXES`. -/
def maxRegexes : ℕ := 4096

/-- What `json_path_program_lower` puts into the tables of a program for an expression. -/
structure Lowered {ν : Type} (program : ℕ → Option (Expr ν)) (operandCount regexCount : ℕ)
    (e : Expr ν) : Prop where
  tables : ∀ n ∈ e.nodes, n.InTables program operandCount regexCount
  operands : operandCount ≤ maxInstructions
  regexes : regexCount ≤ maxRegexes

variable {ν : Type} [LinearOrder ν]

/-- The slice of an expression in a pool, whatever is appended to it: every jump lands at the end of
its own junction, the verifier accepts it, and its runs have the truth of the expression. -/
structure Preserved (program : ℕ → Option (Expr ν)) (operandCount regexCount : ℕ) (e : Expr ν)
    (pool : List Instruction) (offset len : ℕ) : Prop where
  lands : targets ((pool.drop offset).take len) = e.ends offset
  verified : ∀ post, verifySlice (poolAt (pool ++ post)) true (pool ++ post).length offset len
    QueryVm.maxRegisters operandCount regexCount defaultLimits = .ok ()
  meaning : ∀ post (backend : Backend ν) (candidate : Candidate ν),
    vmRun backend candidate program (pool ++ post) offset len = e.holds backend candidate

section Root

omit [LinearOrder ν]

theorem compileRoot_ok {slots : ℕ} {pre pool : List Instruction} {e : Expr ν} {offset len : ℕ}
    (h : compileRoot slots pre e = .ok (pool, some (offset, len))) :
    offset = pre.length ∧ len = e.size true ∧
      pool = pre ++ e.layout true true 0 0 pre.length ∧ e.Fits slots true 0 ∧
        pool.length ≤ maxInstructions := by
  unfold compileRoot at h
  split at h
  next => cases h
  next => cases h
  next pool' hnode =>
    obtain ⟨hpool, hfits, hmax⟩ := compileNode_ok hnode
    split_ifs at h
    cases h
    refine ⟨rfl, ?_, hpool, hfits, hmax⟩
    rw [hpool, List.length_append, e.length_layout, Nat.add_sub_cancel_left]

end Root

/-- A compiled selector means what its expression does, and its jumps land where they should, just
when no junction stands within a middle child of a junction of its kind. -/
theorem compiled_iff {program : ℕ → Option (Expr ν)} {operandCount regexCount : ℕ} {e : Expr ν}
    (hlowered : Lowered program operandCount regexCount e) {pre pool : List Instruction}
    {offset len : ℕ}
    (h : compileRoot QueryVm.maxRegisters pre e = .ok (pool, some (offset, len))) :
    Preserved program operandCount regexCount e pool offset len ↔ e.separate = true := by
  obtain ⟨rfl, rfl, rfl, hfits, hmax⟩ := compileRoot_ok h
  have htargets : targets (((pre ++ e.layout true true 0 0 pre.length).drop pre.length).take
      (e.size true)) = targets (e.layout true true 0 0 pre.length) := by
    rw [List.drop_left, ← e.length_layout true true 0 0 pre.length, List.take_length]
  constructor
  · intro hpreserved
    have hlands := hpreserved.lands
    rw [htargets] at hlands
    exact Expr.separate_of_targets hlands
  · intro hseparate
    have hlayout := Expr.layout_eq true 0 0 pre.length hseparate
    rw [List.length_append, e.length_layout] at hmax
    have hoperands : operandCount ≤ noOperand := hlowered.operands.trans (by decide)
    have hhas (post : List Instruction) :
        Has (poolAt (pre ++ e.layout true true 0 0 pre.length ++ post)) pre.length
          (e.layout false true 0 0 pre.length) := by
      rw [List.append_assoc, hlayout]
      exact has_poolAt pre post
    have hverify (post : List Instruction) :
        verifySlice (poolAt (pre ++ e.layout true true 0 0 pre.length ++ post)) true
          (pre ++ e.layout true true 0 0 pre.length ++ post).length pre.length (e.size true)
            QueryVm.maxRegisters operandCount regexCount defaultLimits = .ok () := by
      refine Verifies.verifySlice (Expr.verifies hfits le_rfl (by decide) hlowered.tables (hhas post)
        le_rfl (.done rfl (Set.mem_insert _ _))) ?_
      have hpos := e.size_pos true
      have hlimit : maxInstructions + 1 ≤ sizeMax / 8 := by decide
      refine ⟨hpos, by decide, by decide, ?_, by omega, le_of_add_le_right hmax,
        hlowered.operands, hlowered.regexes.trans (by decide)⟩
      rw [List.length_append, List.length_append, e.length_layout]
      omega
    refine ⟨?_, hverify, fun post backend candidate => ?_⟩
    · rw [htargets, hlayout, Expr.targets_layout]
    · have hwithin := verifySlice_within (hverify post)
      have hfields := ((verifySlice_ok hwithin).1 (hverify post)).2.1
      have hyields : Leads backend candidate program
          (poolAt (pre ++ e.layout true true 0 0 pre.length ++ post)) (pre.length + e.size true)
            pre.length (fun _ => .other) (e.value backend candidate true) := by
        refine Expr.computes le_rfl hlowered.tables hoperands (hhas post) le_rfl
          fun registers' _ hvalue => ?_
        rw [← hvalue]
        exact .done le_rfl
      have hends := hyields.ends fun pc hle hlt => by
        have hvalid := (hfields (pc - pre.length) (by omega)).execProblem hwithin.maxRegisters
        rwa [Nat.add_sub_cancel' hle] at hvalid
      have hgeneral := hends.executeGeneral hwithin.nonempty hwithin.slice hwithin.instructions
        hwithin.instructions
      have hexecute := execute_eq_executeGeneral (hverify post)
        (qvmOps backend candidate program) (some (qvmInput candidate)) () hwithin.instructions
          hwithin.instructions
      have hoffset : ¬(pre ++ e.layout true true 0 0 pre.length ++ post).length ≤ pre.length := by
        have hslice := hwithin.slice
        have hpos := e.size_pos true
        omega
      rw [vmRun, if_neg hoffset, hexecute, hgeneral]
      exact e.truthy_value backend candidate

def allBut (missing : ℕ) : Backend ℤ where
  ofInt := id
  format _ := []
  regexMatch _ _ := none
  patternMatch _ _ := none
  matchNext index _ _ := if index = missing then none else some .null
  matchCount _ _ _ := 0

/-- The expression of `[?@.a && !@.b]`. -/
def memberAndNot : Expr ℤ := .junction 0 .and (.two (.path 1 false) (.not 2 (.path 3 false)))

def programOf (e : Expr ℤ) (i : ℕ) : Option (Expr ℤ) := e.nodes.find? fun n => n.index = i

theorem compiled_iff_memberAndNot : ∃ pool, compileRoot QueryVm.maxRegisters [] memberAndNot =
    .ok (pool, some (0, 3)) ∧ Preserved (programOf memberAndNot) 4 0 memberAndNot pool 0 3 := by
  have hcompiled : compileRoot QueryVm.maxRegisters [] memberAndNot =
      .ok ([⟨.exists_, 0, 0, 0, 1, 0⟩, ⟨.jmpFalse, 0, 0, 3, 0, 0⟩, ⟨.notExists, 0, 0, 0, 3, 0⟩],
        some (0, 3)) := rfl
  refine ⟨_, hcompiled, (compiled_iff ⟨?_, by decide, by decide⟩ hcompiled).2 rfl⟩
  intro n hn
  simp only [memberAndNot, Expr.nodes, Children.nodes, List.mem_cons,
    List.cons_append, List.nil_append, List.not_mem_nil, or_false] at hn
  rcases hn with rfl | rfl | rfl | rfl <;> exact ⟨rfl, by decide, by rintro _ ⟨⟩⟩

/-- The expression of `[?@.a && ((@.c && @.d) || @.b) && @.e]`. -/
def nestedAnd : Expr ℤ :=
  .junction 0 .and (.more (.path 1 false) (.two
    (.junction 2 .or (.two (.junction 3 .and (.two (.path 4 false) (.path 5 false)))
      (.path 6 false)))
    (.path 7 false)))

/-- Without `c`, the first jump of the inner conjunction leaves the outer one. -/
theorem nested_and_leaves : ∃ pool, compileRoot QueryVm.maxRegisters [] nestedAnd =
      .ok (pool, some (0, 9)) ∧ Lowered (programOf nestedAnd) 8 0 nestedAnd ∧
    vmRun (allBut 4) ⟨.null, .null, 0, none⟩ (programOf nestedAnd) pool 0 9 = false ∧
      nestedAnd.holds (allBut 4) ⟨.null, .null, 0, none⟩ = true := by
  refine ⟨_, rfl, ⟨?_, by decide, by decide⟩, by decide +kernel, by decide⟩
  intro n hn
  simp only [nestedAnd, Expr.nodes, Children.nodes, List.mem_cons,
    List.cons_append, List.nil_append, List.not_mem_nil, or_false] at hn
  rcases hn with rfl | rfl | rfl | rfl | rfl | rfl | rfl | rfl <;> exact ⟨rfl, by decide, by rintro _ ⟨⟩⟩

end JsonPath
