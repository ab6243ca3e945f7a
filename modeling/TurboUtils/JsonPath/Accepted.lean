import TurboUtils.JsonPath.Patching
import TurboUtils.QueryVm.Verifies

/-! The verifier accepts the code of an expression whose jumps land at the ends of their junctions. -/
namespace JsonPath

open QueryVm

/-- The code stands at a counter. -/
def Has (instructions : ℕ → Instruction) (pc : ℕ) (code : List Instruction) : Prop :=
  ∀ k (h : k < code.length), instructions (pc + k) = code[k]

section Has

variable {instructions : ℕ → Instruction} {pc : ℕ} {code code' : List Instruction}

theorem Has.left (h : Has instructions pc (code ++ code')) : Has instructions pc code := by
  intro k hk
  rw [h k (by rw [List.length_append]; omega), List.getElem_append_left hk]

theorem Has.right (h : Has instructions pc (code ++ code')) :
    Has instructions (pc + code.length) code' := by
  intro k hk
  have hget := h (code.length + k) (by rw [List.length_append]; omega)
  rw [List.getElem_append_right (Nat.le_add_right _ _)] at hget
  simpa only [Nat.add_assoc, Nat.add_sub_cancel_left] using hget

theorem Has.head {insn : Instruction} (h : Has instructions pc (insn :: code)) :
    instructions pc = insn := h 0 (Nat.succ_pos _)

theorem Has.tail {insn : Instruction} (h : Has instructions pc (insn :: code)) :
    Has instructions (pc + 1) code := by
  intro k hk
  rw [Nat.add_assoc, Nat.add_comm 1 k]
  exact h (k + 1) (Nat.succ_lt_succ hk)

theorem has_poolAt (pre post : List Instruction) :
    Has (poolAt (pre ++ (code ++ post))) pre.length code := by
  intro k hk
  rw [poolAt, List.getD_eq_getElem?_getD, List.getElem?_append_right (Nat.le_add_right _ _),
    Nat.add_sub_cancel_left, List.getElem?_append_left hk, List.getElem?_eq_getElem hk]
  rfl

end Has

/-! ## Fields -/

section Fields

theorem writesRegister_of_isLeaf {op : Opcode} (h : op.isLeaf = true) :
    op.writesRegister = true := by cases op <;> first | rfl | cases h

theorem writesRegister_of_isBinary {op : Opcode} (h : op.isBinary = true) :
    op.writesRegister = true := by cases op <;> first | rfl | cases h

variable {pc stop registerCount operandCount regexCount dst arg src1 src2 : ℕ}

/-- What is asked of an instruction whose reserved bits are zero. -/
theorem inRange_of {op : Opcode} (hknown : op.isUnknown = false)
    (hdst : op.writesRegister = true → dst < registerCount)
    (hreads : ∀ r ∈ Instruction.reads ⟨op, 0, dst, arg, src1, src2⟩, r < registerCount)
    (hoperands : ∀ i ∈ Instruction.operands ⟨op, 0, dst, arg, src1, src2⟩, i < operandCount)
    (hlength : ∀ i ∈ Instruction.lengthOperand ⟨op, 0, dst, arg, src1, src2⟩,
      i = noOperand ∨ i < operandCount)
    (hregex : ∀ i ∈ Instruction.regex ⟨op, 0, dst, arg, src1, src2⟩, i = noOperand ∨ i < regexCount)
    (htarget : ∀ t ∈ Instruction.target ⟨op, 0, dst, arg, src1, src2⟩, pc < t ∧ t ≤ stop) :
    Instruction.InRange ⟨op, 0, dst, arg, src1, src2⟩ pc stop registerCount operandCount
      regexCount := by
  refine ⟨hknown, rfl, hreads, fun r hr => ?_, hoperands, hlength, hregex, htarget⟩
  unfold Instruction.writes at hr
  split_ifs at hr with hwrites
  · cases hr
    exact hdst hwrites
  · cases hr

theorem inRange_load {op : Opcode}
    (hop : op = .loadPath ∨ op = .loadConst ∨ op = .exists_ ∨ op = .notExists ∨ op = .count)
    (hdst : dst < registerCount) (hsrc1 : src1 < operandCount) :
    Instruction.InRange ⟨op, 0, dst, arg, src1, src2⟩ pc stop registerCount operandCount
      regexCount := by
  rcases hop with rfl | rfl | rfl | rfl | rfl <;>
    exact inRange_of rfl (fun _ => hdst) nofun (List.forall_mem_singleton.2 hsrc1) nofun nofun nofun

theorem inRange_make {op : Opcode}
    (hop : op = .loadKey ∨ op = .loadIndex ∨ op = .loadInvalid ∨ op = .true)
    (hdst : dst < registerCount) :
    Instruction.InRange ⟨op, 0, dst, arg, src1, src2⟩ pc stop registerCount operandCount
      regexCount := by
  rcases hop with rfl | rfl | rfl | rfl <;>
    exact inRange_of rfl (fun _ => hdst) nofun nofun nofun nofun nofun

theorem inRange_length (hdst : dst < registerCount)
    (hsrc1 : src1 = noOperand ∨ src1 < operandCount) :
    Instruction.InRange ⟨.length, 0, dst, arg, src1, src2⟩ pc stop registerCount operandCount
      regexCount :=
  inRange_of rfl (fun _ => hdst) nofun nofun (fun _ hi => Option.some.inj hi ▸ hsrc1) nofun nofun

theorem inRange_not (hdst : dst < registerCount) (hsrc1 : src1 < registerCount) :
    Instruction.InRange ⟨.not, 0, dst, arg, src1, src2⟩ pc stop registerCount operandCount
      regexCount :=
  inRange_of rfl (fun _ => hdst) (List.forall_mem_singleton.2 hsrc1) nofun nofun nofun nofun

theorem inRange_jump (op : Junction) (hsrc1 : src1 < registerCount) (hlt : pc < arg)
    (hle : arg ≤ stop) :
    Instruction.InRange ⟨op.jump, 0, dst, arg, src1, src2⟩ pc stop registerCount operandCount
      regexCount := by
  cases op <;> exact inRange_of rfl nofun (List.forall_mem_singleton.2 hsrc1) nofun nofun nofun
    fun _ ht => Option.some.inj ht ▸ ⟨hlt, hle⟩

theorem inRange_cmp (hdst : dst < registerCount) (hsrc1 : src1 < registerCount)
    (hsrc2 : src2 < registerCount) :
    Instruction.InRange ⟨.cmp, 0, dst, arg, src1, src2⟩ pc stop registerCount operandCount
      regexCount :=
  inRange_of rfl (fun _ => hdst)
    (List.forall_mem_cons.2 ⟨hsrc1, List.forall_mem_singleton.2 hsrc2⟩) nofun nofun nofun nofun

theorem inRange_matching (op : Matching) {regexIndex : ℕ} (hdst : dst < registerCount)
    (hsrc1 : src1 < registerCount) (hsrc2 : src2 < registerCount)
    (hregex : regexIndex = noOperand ∨ regexIndex < regexCount) :
    Instruction.InRange ⟨op.opcode, 0, dst, op.arg regexIndex, src1, src2⟩ pc stop registerCount
      operandCount regexCount := by
  have hreads : ∀ r ∈ [src1, src2], r < registerCount :=
    List.forall_mem_cons.2 ⟨hsrc1, List.forall_mem_singleton.2 hsrc2⟩
  cases op with
  | contains | containsCi => exact inRange_of rfl (fun _ => hdst) hreads nofun nofun nofun nofun
  | match_ | matchFunc | searchFunc =>
    exact inRange_of rfl (fun _ => hdst) hreads nofun nofun
      (fun _ hi => Option.some.inj hi ▸ hregex) nofun

theorem inRange_leaf {op : Opcode} (hop : op.isLeaf = true) (hdst : dst < registerCount)
    (hsrc1 : op = .cmpLengthLeaf ∧ src1 = noOperand ∨ src1 < operandCount)
    (hsrc2 : src2 < operandCount) :
    Instruction.InRange ⟨op, 0, dst, arg, src1, src2⟩ pc stop registerCount operandCount
      regexCount := by
  cases op with
  | cmpLengthLeaf =>
    exact inRange_of rfl (fun _ => hdst) nofun (List.forall_mem_singleton.2 hsrc2)
      (fun _ hi => Option.some.inj hi ▸ hsrc1.imp_left And.right) nofun nofun
  | cmpLeaf | cmpLeafNumber | cmpLeafString | cmpCountLeaf =>
    have hsrc1 := hsrc1.resolve_left nofun
    exact inRange_of rfl (fun _ => hdst) nofun
      (List.forall_mem_cons.2 ⟨hsrc1, List.forall_mem_singleton.2 hsrc2⟩) nofun nofun nofun
  | _ => cases hop

end Fields

/-! ## Tables -/

section Tables

variable {ν : Type}

theorem Expr.mem_nodes (e : Expr ν) : e ∈ e.nodes := by
  cases e <;> exact List.mem_cons_self

/-- What the program holds for an instruction, and how many of them and of regexes there are. -/
structure Expr.InTables (program : ℕ → Option (Expr ν)) (operandCount regexCount : ℕ)
    (e : Expr ν) : Prop where
  lookup : program e.index = some e
  index : e.index < operandCount
  regex : ∀ i ∈ e.regex, i = noOperand ∨ i < regexCount

variable {program : ℕ → Option (Expr ν)} {operandCount regexCount : ℕ}

theorem Expr.measured_index {e : Expr ν} {m : Opcode × ℕ} (h : e.measured = some m)
    (htables : ∀ n ∈ e.nodes, n.InTables program operandCount regexCount) :
    m.1 = .cmpLengthLeaf ∧ m.2 = noOperand ∨ m.2 < operandCount := by
  cases e with
  | lengthOfCurrent index =>
    cases h
    exact Or.inl ⟨rfl, rfl⟩
  | length index arg | count index arg =>
    cases h
    exact Or.inr (htables arg (List.mem_cons_of_mem _ arg.mem_nodes)).index
  | _ => cases h

theorem compareLeaf_index {op : Comparison} {left right : Expr ν} {opcode : Opcode}
    {arg src1 src2 : ℕ} (h : compareLeaf op left right = some (opcode, arg, src1, src2))
    (hleft : ∀ n ∈ left.nodes, n.InTables program operandCount regexCount)
    (hright : ∀ n ∈ right.nodes, n.InTables program operandCount regexCount) :
    (opcode = .cmpLengthLeaf ∧ src1 = noOperand ∨ src1 < operandCount) ∧ src2 < operandCount := by
  have hl := (hleft left left.mem_nodes).index
  have hr := (hright right right.mem_nodes).index
  unfold compareLeaf at h
  split_ifs at h
  · cases h
    exact ⟨Or.inr hl, hr⟩
  · cases h
    exact ⟨Or.inr hr, hl⟩
  · obtain ⟨m, hm, h⟩ := Option.map_eq_some_iff.1 h
    cases h
    exact ⟨Expr.measured_index hm hleft, hr⟩
  · obtain ⟨m, hm, h⟩ := Option.map_eq_some_iff.1 h
    cases h
    exact ⟨Expr.measured_index hm hright, hl⟩

end Tables

/-! ## The verifier -/

section Verifier

variable {ν : Type} {program : ℕ → Option (Expr ν)} {instructions : ℕ → Instruction}
  {stop slots operandCount regexCount : ℕ}

theorem verifies_binary {insn : Instruction} {pc temp : ℕ} {written : Set ℕ} (hpc : pc < stop)
    (hinsn : instructions pc = insn) (hop : insn.op.isBinary = true) (hsrc1 : insn.src1 = insn.dst)
    (hsrc2 : insn.src2 = temp) (hrange : insn.InRange pc stop slots operandCount regexCount)
    (h : Verifies instructions stop slots operandCount regexCount (pc + 1)
      (insert insn.dst written)) :
    Verifies instructions stop slots operandCount regexCount pc
      (insert temp (insert insn.dst written)) := by
  refine Verifies.store hpc hinsn (writesRegister_of_isBinary hop) hrange (fun r hr => ?_)
    (h.mono (Set.insert_subset_insert fun r hr => Or.inr (Or.inr hr)))
  rw [Instruction.reads, if_pos hop, hsrc1, hsrc2, List.mem_cons, List.mem_singleton] at hr
  rcases hr with rfl | rfl
  · exact Or.inr (Or.inl rfl)
  · exact Or.inl rfl

theorem verifies_jump (op : Junction) {dst finish pc : ℕ} {written : Set ℕ} (hpc : pc < finish)
    (hfinish : finish ≤ stop) (hinsn : instructions pc = ⟨op.jump, 0, 0, finish, dst, 0⟩)
    (hdst : dst < slots)
    (h : Verifies instructions stop slots operandCount regexCount (pc + 1) (insert dst written))
    (htarget : Verifies instructions stop slots operandCount regexCount finish
      (insert dst written)) :
    Verifies instructions stop slots operandCount regexCount pc (insert dst written) := by
  refine Verifies.branch (hpc.trans_le hfinish) hinsn (inRange_jump op hdst hpc hfinish)
    (fun r hr => ?_) h htarget
  rw [show Instruction.reads ⟨op.jump, 0, 0, finish, dst, 0⟩ = [dst] by cases op <;> rfl,
    List.mem_singleton] at hr
  exact Or.inl hr

mutual

/-- The code of an expression is accepted when what follows is, with the result written. -/
theorem Expr.verifies {boolean : Bool} {dst depth start : ℕ} {e : Expr ν} {written : Set ℕ}
    (hfits : e.Fits slots boolean depth) (hdst : dst ≤ depth) (hdepth : depth < slots)
    (htables : ∀ n ∈ e.nodes, n.InTables program operandCount regexCount)
    (hhas : Has instructions start (e.layout false boolean dst depth start))
    (hstop : start + e.size boolean ≤ stop)
    (h : Verifies instructions stop slots operandCount regexCount (start + e.size boolean)
      (insert dst written)) :
    Verifies instructions stop slots operandCount regexCount start written := by
  have hlt : dst < slots := hdst.trans_lt hdepth
  have hpos := e.size_pos boolean
  have hself := htables e e.mem_nodes
  cases e with
  | path index fromRoot =>
    refine Verifies.store (by omega) hhas.head (by cases boolean <;> rfl) ?_ ?_ h
    · exact inRange_load (by cases boolean <;> simp) hlt hself.index
    · cases boolean <;> exact nofun
  | bool index value | regexp index pattern =>
    exact Verifies.store (by omega) hhas.head rfl (inRange_load (by simp) hlt hself.index) nofun h
  | wildcard index =>
    refine Verifies.store (by omega) hhas.head (by cases boolean <;> rfl) ?_ ?_ h
    · exact inRange_make (by cases boolean <;> simp) hlt
    · cases boolean <;> exact nofun
  | lengthOfCurrent index =>
    exact Verifies.store (by omega) hhas.head rfl (inRange_length hlt (Or.inl rfl)) nofun h
  | length index arg =>
    have harg := (htables arg (List.mem_cons_of_mem _ arg.mem_nodes)).index
    exact Verifies.store (by omega) hhas.head rfl (inRange_length hlt (Or.inr harg)) nofun h
  | count index arg =>
    have harg := (htables arg (List.mem_cons_of_mem _ arg.mem_nodes)).index
    exact Verifies.store (by omega) hhas.head rfl (inRange_load (by simp) hlt harg) nofun h
  | string index text | number index value num =>
    cases boolean with
    | false =>
      exact Verifies.store (by omega) hhas.head rfl (inRange_load (by simp) hlt hself.index) nofun h
    | true =>
      have hslots : depth + 1 < slots := hfits rfl
      have hsize : start + 3 ≤ stop := hstop
      refine Verifies.store (by omega) hhas.head rfl (inRange_make (by simp) (by omega)) nofun ?_
      refine Verifies.store (by omega) hhas.tail.head rfl (inRange_load (by simp) hlt hself.index)
        nofun ?_
      refine Verifies.store (by omega) hhas.tail.tail.head rfl
        (inRange_cmp hlt (by omega) hlt) ?_ ?_
      · rintro r hr
        rcases List.mem_cons.1 hr with rfl | hr
        · exact Or.inr (Or.inl rfl)
        · exact Or.inl (List.mem_singleton.1 hr)
      · refine h.mono (Set.insert_subset_insert fun r hr => Or.inr (Or.inr hr))
  | compare index op left right =>
    rw [Expr.layout] at hhas
    rw [Expr.Fits] at hfits
    rw [Expr.size] at hstop h hpos
    obtain ⟨-, htables⟩ := List.forall_mem_cons.1 htables
    obtain ⟨hleft, hright⟩ := List.forall_mem_append.1 htables
    cases hleaf : compareLeaf op left right with
    | some leaf =>
      obtain ⟨opcode, arg, src1, src2⟩ := leaf
      rw [hleaf] at hhas hstop h
      dsimp only at hhas hstop h
      obtain ⟨hsrc1, hsrc2⟩ := compareLeaf_index hleaf hleft hright
      obtain ⟨hop, -, -⟩ := compareLeaf_some hleaf
      have hreads : Instruction.reads ⟨opcode, 0, dst, arg, src1, src2⟩ = [] := by
        cases opcode <;> first | rfl | cases hop
      exact Verifies.store (by omega) hhas.head (writesRegister_of_isLeaf hop)
        (inRange_leaf hop hlt hsrc1 hsrc2) (by rw [hreads]; exact nofun) h
    | none =>
      rw [hleaf] at hhas hstop h hfits
      dsimp only at hhas hstop h hfits
      obtain ⟨hslots, hfits, hfits'⟩ := hfits
      have hmid := hhas.right
      rw [left.length_layout] at hmid
      refine left.verifies hfits hdst hdepth hleft hhas.left (by omega) ?_
      refine right.verifies hfits' (by omega) hslots hright hmid.left (by omega) ?_
      have hlast := hmid.right
      rw [right.length_layout] at hlast
      refine verifies_binary (by omega) hlast.head rfl rfl rfl
        (inRange_cmp hlt hlt (by omega)) ?_
      simpa only [Nat.add_assoc] using h
  | matching index op regexIndex left right =>
    rw [Expr.layout] at hhas
    rw [Expr.size] at hstop h
    obtain ⟨-, htables⟩ := List.forall_mem_cons.1 htables
    obtain ⟨hleft, hright⟩ := List.forall_mem_append.1 htables
    obtain ⟨hslots, hfits, hfits'⟩ := hfits
    have hmid := hhas.right
    rw [left.length_layout] at hmid
    refine left.verifies hfits hdst hdepth hleft hhas.left (by omega) ?_
    refine right.verifies hfits' (by omega) hslots hright hmid.left (by omega) ?_
    have hlast := hmid.right
    rw [right.length_layout] at hlast
    refine verifies_binary (by omega) hlast.head (by cases op <;> rfl) rfl rfl
      (inRange_matching op hlt hlt (by omega) (hself.regex _ rfl)) ?_
    simpa only [Nat.add_assoc] using h
  | not index arg =>
    rw [Expr.layout] at hhas
    rw [Expr.Fits] at hfits
    rw [Expr.size] at hstop h
    obtain ⟨-, htables⟩ := List.forall_mem_cons.1 htables
    have harg := (htables arg arg.mem_nodes).index
    by_cases hpath : arg.isPath = true
    · rw [if_pos hpath] at hhas hstop h
      exact Verifies.store (by omega) hhas.head rfl (inRange_load (by simp) hlt harg) nofun h
    · rw [if_neg hpath] at hhas hstop h hfits
      refine arg.verifies hfits hdst hdepth htables hhas.left (by omega) ?_
      have hlast := hhas.right
      rw [arg.length_layout] at hlast
      refine Verifies.store (by omega) hlast.head rfl (inRange_not hlt hlt) ?_
        (h.mono (Set.insert_subset_insert fun r hr => Or.inr hr))
      exact List.forall_mem_singleton.2 (Or.inl rfl)
  | junction index op children =>
    exact children.verifies hfits hdst hdepth (List.forall_mem_cons.1 htables).2 hhas rfl hstop h

theorem Children.verifies {op : Junction} {later : Bool} {dst depth finish start : ℕ}
    {children : Children ν} {written : Set ℕ} (hfits : children.Fits slots depth)
    (hdst : dst ≤ depth) (hdepth : depth < slots)
    (htables : ∀ n ∈ children.nodes, n.InTables program operandCount regexCount)
    (hhas : Has instructions start (children.layout false op later dst depth finish start))
    (hfinish : finish = start + children.size) (hstop : finish ≤ stop)
    (h : Verifies instructions stop slots operandCount regexCount finish (insert dst written)) :
    Verifies instructions stop slots operandCount regexCount start written := by
  have hlt : dst < slots := hdst.trans_lt hdepth
  cases children with
  | two first second =>
    rw [Children.layout, Bool.false_and, if_neg Bool.false_ne_true, List.map_id] at hhas
    rw [Children.size] at hfinish
    obtain ⟨hfits, hfits'⟩ := hfits
    obtain ⟨hfirst, hsecond⟩ := List.forall_mem_append.1 htables
    have hjump := hhas.right
    rw [first.length_layout] at hjump
    have hmore := h.mono (Set.insert_subset_insert (Set.subset_insert dst written))
    refine first.verifies hfits hdst hdepth hfirst hhas.left (by omega) ?_
    refine verifies_jump op (by omega) hstop hjump.head hlt ?_ h
    refine second.verifies hfits' hdst hdepth hsecond hjump.tail (by omega) ?_
    rwa [show start + first.size true + 1 + second.size true = finish by omega]
  | more first rest =>
    rw [Children.layout, Bool.false_and, if_neg Bool.false_ne_true, List.map_id] at hhas
    rw [Children.size] at hfinish
    obtain ⟨hfits, hfits'⟩ := hfits
    obtain ⟨hfirst, hrest⟩ := List.forall_mem_append.1 htables
    have hjump := hhas.right
    rw [first.length_layout] at hjump
    have hmore := h.mono (Set.insert_subset_insert (Set.subset_insert dst written))
    refine first.verifies hfits hdst hdepth hfirst hhas.left (by omega) ?_
    refine verifies_jump op (by omega) hstop hjump.head hlt ?_ h
    exact rest.verifies hfits' hdst hdepth hrest hjump.tail (by omega) hstop hmore

end

end Verifier

end JsonPath
