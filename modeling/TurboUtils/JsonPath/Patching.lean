import TurboUtils.JsonPath.Layout
import TurboUtils.Lib.Fallible

/-! What the compiler appends to its pool, and where its jumps land. -/
namespace JsonPath

open QueryVm

variable {ν : Type}

/-! ## The pool -/

theorem emit_ok {pool pool' : List Instruction} {op : Opcode} {dst arg src1 src2 : ℕ}
    (h : emit pool op dst arg src1 src2 = .ok pool') :
    pool' = pool ++ [⟨op, 0, dst, arg, src1, src2⟩] ∧ pool'.length ≤ maxInstructions := by
  unfold emit at h
  split_ifs at h with hfull
  cases h
  refine ⟨rfl, ?_⟩
  rw [List.length_append, List.length_singleton]
  omega

theorem patchRange_append {op : Opcode} {target : ℕ} (front mid back : List Instruction)
    {first last : ℕ} (hfirst : first = front.length) (hlast : last + 1 = front.length + mid.length) :
    patchRange op first last target (front ++ (mid ++ back)) =
      front ++ (mid.map (patch op target) ++ back) := by
  unfold patchRange
  rw [List.mapIdx_append, List.mapIdx_append]
  congr 1
  · refine List.ext_getElem (by simp) fun i hi hi' => ?_
    rw [List.getElem_mapIdx, if_neg (by omega)]
  · congr 1
    · refine List.ext_getElem (by simp) fun i hi hi' => ?_
      rw [List.length_mapIdx] at hi
      rw [List.getElem_mapIdx, List.getElem_map, if_pos (by omega)]
    · refine List.ext_getElem (by simp) fun i hi hi' => ?_
      rw [List.getElem_mapIdx, if_neg (by omega)]

theorem compare_ok {pool pool' : List Instruction} {op : Opcode} {dst temp index : ℕ}
    (h : ((emit pool op temp 0 0 0).bind fun pool =>
      (emit pool .loadConst dst 0 index 0).bind fun pool =>
        emit pool .cmp dst Comparison.eq.code temp dst) = .ok pool') :
    pool' = pool ++ [⟨op, 0, temp, 0, 0, 0⟩, ⟨.loadConst, 0, dst, 0, index, 0⟩,
      ⟨.cmp, 0, dst, Comparison.eq.code, temp, dst⟩] ∧ pool'.length ≤ maxInstructions := by
  obtain ⟨pool₁, hload, h⟩ := Fallible.bind_eq_ok.1 h
  obtain ⟨pool₂, hconst, h⟩ := Fallible.bind_eq_ok.1 h
  refine ⟨?_, (emit_ok h).2⟩
  rw [(emit_ok h).1, (emit_ok hconst).1, (emit_ok hload).1, List.append_assoc, List.append_assoc]
  rfl

mutual

theorem compileNode_ok {slots : ℕ} {boolean : Bool} {dst depth : ℕ} {pool pool' : List Instruction}
    {e : Expr ν} (h : compileNode slots boolean dst depth pool e = .ok pool') :
    pool' = pool ++ e.layout true boolean dst depth pool.length ∧ e.Fits slots boolean depth ∧
      pool'.length ≤ maxInstructions := by
  cases e with
  | path index fromRoot => exact ⟨(emit_ok h).1, trivial, (emit_ok h).2⟩
  | bool index value => exact ⟨(emit_ok h).1, trivial, (emit_ok h).2⟩
  | regexp index pattern => exact ⟨(emit_ok h).1, trivial, (emit_ok h).2⟩
  | wildcard index => exact ⟨(emit_ok h).1, trivial, (emit_ok h).2⟩
  | lengthOfCurrent index => exact ⟨(emit_ok h).1, trivial, (emit_ok h).2⟩
  | length index arg => exact ⟨(emit_ok h).1, trivial, (emit_ok h).2⟩
  | count index arg => exact ⟨(emit_ok h).1, trivial, (emit_ok h).2⟩
  | string index text =>
    rw [compileNode] at h
    cases boolean with
    | false => exact ⟨(emit_ok h).1, nofun, (emit_ok h).2⟩
    | true =>
      rw [if_pos rfl] at h
      split_ifs at h with hslots
      exact ⟨(compare_ok h).1, fun _ => not_le.1 hslots, (compare_ok h).2⟩
  | number index value num =>
    rw [compileNode] at h
    cases boolean with
    | false => exact ⟨(emit_ok h).1, nofun, (emit_ok h).2⟩
    | true =>
      rw [if_pos rfl] at h
      split_ifs at h with hslots
      exact ⟨(compare_ok h).1, fun _ => not_le.1 hslots, (compare_ok h).2⟩
  | compare index op left right =>
    rw [compileNode] at h
    rw [Expr.layout, Expr.Fits]
    cases hleaf : compareLeaf op left right with
    | some leaf =>
      rw [hleaf] at h
      exact ⟨(emit_ok h).1, trivial, (emit_ok h).2⟩
    | none =>
      rw [hleaf] at h
      dsimp only at h ⊢
      split_ifs at h with hslots
      obtain ⟨pool₁, hleft, h⟩ := Fallible.bind_eq_ok.1 h
      obtain ⟨pool₂, hright, h⟩ := Fallible.bind_eq_ok.1 h
      obtain ⟨rfl, hfits, -⟩ := compileNode_ok hleft
      obtain ⟨rfl, hfits', hmax⟩ := compileNode_ok hright
      refine ⟨?_, ⟨not_le.1 hslots, hfits, hfits'⟩, (emit_ok h).2⟩
      rw [(emit_ok h).1, List.length_append, Expr.length_layout, List.append_assoc, List.append_assoc]
  | matching index op regexIndex left right =>
    rw [compileNode] at h
    rw [Expr.layout, Expr.Fits]
    split_ifs at h with hslots
    obtain ⟨pool₁, hleft, h⟩ := Fallible.bind_eq_ok.1 h
    obtain ⟨pool₂, hright, h⟩ := Fallible.bind_eq_ok.1 h
    obtain ⟨rfl, hfits, -⟩ := compileNode_ok hleft
    obtain ⟨rfl, hfits', hmax⟩ := compileNode_ok hright
    refine ⟨?_, ⟨not_le.1 hslots, hfits, hfits'⟩, (emit_ok h).2⟩
    rw [(emit_ok h).1, List.length_append, Expr.length_layout, List.append_assoc, List.append_assoc]
  | not index arg =>
    rw [compileNode] at h
    rw [Expr.layout, Expr.Fits]
    by_cases hpath : arg.isPath = true
    · rw [if_pos hpath] at h ⊢
      rw [if_pos hpath]
      exact ⟨(emit_ok h).1, trivial, (emit_ok h).2⟩
    · rw [if_neg hpath] at h ⊢
      rw [if_neg hpath]
      obtain ⟨pool₁, harg, h⟩ := Fallible.bind_eq_ok.1 h
      obtain ⟨rfl, hfits, -⟩ := compileNode_ok harg
      refine ⟨?_, hfits, (emit_ok h).2⟩
      rw [(emit_ok h).1, List.append_assoc]
  | junction index op children =>
    rw [compileNode] at h
    obtain ⟨⟨pool₁, first, last⟩, hchildren, h⟩ := Fallible.map_eq_ok.1 h
    obtain ⟨hfits, hmax, front, mid, back, rfl, hfirst, hfront, hlast, hmid, hlayout⟩ :=
      compileChildren_ok hchildren
    have hsize := children.length_layout true op false dst depth 0 pool.length
    rw [hlayout] at hsize
    simp only [List.length_append, List.length_map] at hsize
    have hmid' := List.length_pos_iff.2 hmid
    rw [if_pos rfl] at hfirst
    dsimp only at h
    rw [if_pos (by omega), ← List.append_assoc pool,
      patchRange_append _ _ _ (by rw [hfirst, List.length_append])
        (by rw [hlast, List.length_append])] at h
    refine ⟨?_, hfits, ?_⟩
    swap
    · rw [← h]
      simpa only [List.length_append, List.length_map, Nat.add_assoc] using hmax
    rw [← h, Expr.layout, hlayout, if_neg (by decide), List.map_id, List.append_assoc]
    congr 3
    simp only [List.length_append]
    rw [show pool.length + front.length + (mid.length + back.length) = pool.length + children.size by
      omega]

theorem compileChildren_ok {slots : ℕ} {op : Junction} {dst depth first : ℕ}
    {pool pool' : List Instruction} {first' last : ℕ} {children : Children ν}
    (h : compileChildren slots op dst depth first pool children = .ok (pool', first', last)) :
    children.Fits slots depth ∧ pool'.length ≤ maxInstructions ∧
      ∃ front mid back, pool' = pool ++ (front ++ (mid ++ back)) ∧
      first' = (if first = 0 then pool.length + front.length else first) ∧ 0 < front.length ∧
      last + 1 = pool.length + front.length + mid.length ∧ mid ≠ [] ∧
      ∀ later finish, children.layout true op later dst depth finish pool.length =
        front.map (if later then patch op.jump finish else id) ++
          (mid.map (patch op.jump finish) ++ back) := by
  cases children with
  | two left right =>
    rw [compileChildren] at h
    obtain ⟨pool₁, hleft, h⟩ := Fallible.bind_eq_ok.1 h
    obtain ⟨pool₂, hjump, h⟩ := Fallible.bind_eq_ok.1 h
    obtain ⟨pool₃, hright, h⟩ := Fallible.map_eq_ok.1 h
    obtain ⟨rfl, hfits, -⟩ := compileNode_ok hleft
    obtain ⟨rfl, -⟩ := emit_ok hjump
    obtain ⟨rfl, hfits', hmax⟩ := compileNode_ok hright
    cases h
    refine ⟨⟨hfits, hfits'⟩, hmax, left.layout true true dst depth pool.length,
      [⟨op.jump, 0, 0, 0, dst, 0⟩],
      right.layout true true dst depth (pool.length + left.size true + 1), ?_, ?_, ?_, ?_,
      List.cons_ne_nil _ _, fun later finish => ?_⟩
    · rw [List.append_assoc, List.append_assoc, List.length_append, List.length_append,
        Expr.length_layout, List.length_singleton]
    · rw [List.length_append]
    · rw [Expr.length_layout]
      exact left.size_pos true
    · rw [List.length_append, List.length_singleton]
    · rw [Children.layout, List.map_singleton, patch, if_pos rfl, Bool.true_and]
      rfl
  | more left rest =>
    rw [compileChildren] at h
    obtain ⟨pool₁, hleft, h⟩ := Fallible.bind_eq_ok.1 h
    obtain ⟨pool₂, hjump, h⟩ := Fallible.bind_eq_ok.1 h
    obtain ⟨rfl, hfits, -⟩ := compileNode_ok hleft
    obtain ⟨rfl, -⟩ := emit_ok hjump
    obtain ⟨hfits', hmax, front, mid, back, rfl, hfirst, hfront, hlast, hmid, hlayout⟩ :=
      compileChildren_ok h
    refine ⟨⟨hfits, hfits'⟩, hmax, left.layout true true dst depth pool.length,
      ⟨op.jump, 0, 0, 0, dst, 0⟩ :: (front ++ mid), back, ?_, ?_, ?_, ?_, List.cons_ne_nil _ _,
      fun later finish => ?_⟩
    · simp
    · have hpos := left.size_pos true
      rw [List.length_append, Expr.length_layout] at hfirst
      rw [Expr.length_layout, hfirst]
      split_ifs <;> first | rfl | omega
    · rw [Expr.length_layout]
      exact left.size_pos true
    · simp only [List.length_append, List.length_cons, List.length_nil] at hlast ⊢
      omega
    · have hrest := hlayout true finish
      rw [List.length_append, List.length_append, Expr.length_layout, List.length_singleton] at hrest
      rw [Children.layout, hrest, List.map_cons, patch, if_pos rfl, Bool.true_and]
      simp

end

/-! ## Jumps -/

theorem patch_op (op : Opcode) (target : ℕ) (insn : Instruction) :
    (patch op target insn).op = insn.op := by
  unfold patch
  split_ifs <;> rfl

theorem map_patch_eq {op : Opcode} {target : ℕ} {code : List Instruction}
    (h : ∀ insn ∈ code, insn.op ≠ op) : code.map (patch op target) = code := by
  refine (List.map_congr_left fun insn hinsn => ?_).trans (List.map_id code)
  exact if_neg (h insn hinsn)

def targets (code : List Instruction) : List ℕ := code.filterMap Instruction.target

theorem targets_append (code code' : List Instruction) :
    targets (code ++ code') = targets code ++ targets code' := List.filterMap_append

theorem targets_cons (insn : Instruction) (code : List Instruction) :
    targets (insn :: code) = insn.target.toList ++ targets code := by
  unfold targets
  rw [List.filterMap_cons]
  cases insn.target <;> rfl

theorem target_jump (op : Junction) (finish dst : ℕ) :
    Instruction.target ⟨op.jump, 0, 0, finish, dst, 0⟩ = some finish := by cases op <;> rfl

theorem length_targets_patch (op : Opcode) (target : ℕ) (code : List Instruction) :
    (targets (code.map (patch op target))).length = (targets code).length := by
  induction code with
  | nil => rfl
  | cons insn code ih =>
    rw [List.map_cons, targets_cons, targets_cons, List.length_append, List.length_append, ih]
    congr 1
    unfold patch
    split_ifs
    · obtain ⟨op, reserved, dst, arg, src1, src2⟩ := insn
      cases op <;> rfl
    · rfl

theorem length_targets_map (b : Bool) (op : Opcode) (target : ℕ) (code : List Instruction) :
    (targets (code.map (if b then patch op target else id))).length = (targets code).length := by
  cases b with
  | false => exact congrArg (fun code => (targets code).length) (List.map_id code)
  | true => exact length_targets_patch op target code

theorem mem_targets_patch {op : Junction} {target : ℕ} {code : List Instruction}
    (h : ∃ insn ∈ code, insn.op = op.jump) : target ∈ targets (code.map (patch op.jump target)) := by
  obtain ⟨insn, hinsn, hop⟩ := h
  refine List.mem_filterMap.2 ⟨_, List.mem_map_of_mem hinsn, ?_⟩
  rw [patch, if_pos hop, Instruction.target]
  dsimp only
  rw [hop]
  cases op <;> rfl

/-! ## Comparisons that are one instruction -/

/-- Nothing that jumps is below. -/
structure Expr.Plain (e : Expr ν) : Prop where
  ends : ∀ start, e.ends start = []
  hasJunction : ∀ op, e.hasJunction op = false
  separate : e.separate = true

theorem Expr.plain_of_isPath {e : Expr ν} (h : e.isPath = true) : e.Plain := by
  cases e with
  | path => exact ⟨fun _ => rfl, fun _ => rfl, rfl⟩
  | _ => cases h

theorem Expr.plain_of_isLiteral {e : Expr ν} (h : e.isLiteral = true) : e.Plain := by
  cases e with
  | bool | number | string => exact ⟨fun _ => rfl, fun _ => rfl, rfl⟩
  | _ => cases h

theorem Expr.plain_of_isNumber {e : Expr ν} (h : e.isNumber = true) : e.Plain := by
  cases e with
  | number => exact ⟨fun _ => rfl, fun _ => rfl, rfl⟩
  | _ => cases h

theorem Expr.plain_of_measured {e : Expr ν} {m : Opcode × ℕ} (h : e.measured = some m) :
    e.Plain := by
  cases e with
  | lengthOfCurrent | length | count => exact ⟨fun _ => rfl, fun _ => rfl, rfl⟩
  | _ => cases h

theorem Expr.leafOpcode_isLeaf (e : Expr ν) : e.leafOpcode.isLeaf = true := by
  unfold Expr.leafOpcode
  split <;> rfl

theorem Expr.measured_isLeaf {e : Expr ν} {m : Opcode × ℕ} (h : e.measured = some m) :
    m.1.isLeaf = true := by
  cases e with
  | lengthOfCurrent | length | count =>
    cases h
    rfl
  | _ => cases h

theorem compareLeaf_some {op : Comparison} {left right : Expr ν} {opcode : Opcode}
    {arg src1 src2 : ℕ} (h : compareLeaf op left right = some (opcode, arg, src1, src2)) :
    opcode.isLeaf = true ∧ left.Plain ∧ right.Plain := by
  unfold compareLeaf at h
  split_ifs at h with hleft hright hnumber hnumber'
  · obtain ⟨hpath, hliteral⟩ := Bool.and_eq_true_iff.1 hleft
    cases h
    exact ⟨right.leafOpcode_isLeaf, Expr.plain_of_isPath hpath, Expr.plain_of_isLiteral hliteral⟩
  · obtain ⟨hpath, hliteral⟩ := Bool.and_eq_true_iff.1 hright
    cases h
    exact ⟨left.leafOpcode_isLeaf, Expr.plain_of_isLiteral hliteral, Expr.plain_of_isPath hpath⟩
  · obtain ⟨m, hm, h⟩ := Option.map_eq_some_iff.1 h
    cases h
    exact ⟨Expr.measured_isLeaf hm, Expr.plain_of_measured hm, Expr.plain_of_isNumber hnumber⟩
  · obtain ⟨m, hm, h⟩ := Option.map_eq_some_iff.1 h
    cases h
    exact ⟨Expr.measured_isLeaf hm, Expr.plain_of_isNumber hnumber', Expr.plain_of_measured hm⟩

theorem target_leaf {insn : Instruction} (h : insn.op.isLeaf = true) : insn.target = none := by
  obtain ⟨op, reserved, dst, arg, src1, src2⟩ := insn
  cases op <;> first | rfl | cases h

theorem jump_ne_leaf {opcode : Opcode} (h : opcode.isLeaf = true) (op : Junction) :
    opcode ≠ op.jump := by
  rintro rfl
  cases op <;> cases h

/-! ## Jumps and junctions -/

mutual

theorem Expr.mem_layout {op : Junction} {spill boolean : Bool} {dst depth start : ℕ} {e : Expr ν}
    {insn : Instruction} (hinsn : insn ∈ e.layout spill boolean dst depth start)
    (hop : insn.op = op.jump) : e.hasJunction op = true := by
  cases e with
  | compare index op' left right =>
    rw [Expr.layout] at hinsn
    rw [Expr.hasJunction, Bool.or_eq_true]
    split at hinsn
    next opcode arg src1 src2 hleaf =>
      rw [List.mem_singleton.1 hinsn] at hop
      exact absurd hop (jump_ne_leaf (compareLeaf_some hleaf).1 op)
    next =>
      rw [List.mem_append, List.mem_append, List.mem_singleton] at hinsn
      rcases hinsn with hinsn | hinsn | rfl
      · exact Or.inl (Expr.mem_layout hinsn hop)
      · exact Or.inr (Expr.mem_layout hinsn hop)
      · cases op <;> cases hop
  | matching index op' regexIndex left right =>
    rw [Expr.layout, List.mem_append, List.mem_append, List.mem_singleton] at hinsn
    rw [Expr.hasJunction, Bool.or_eq_true]
    rcases hinsn with hinsn | hinsn | rfl
    · exact Or.inl (Expr.mem_layout hinsn hop)
    · exact Or.inr (Expr.mem_layout hinsn hop)
    · cases op <;> cases op' <;> cases hop
  | not index arg =>
    rw [Expr.layout] at hinsn
    split_ifs at hinsn with hpath
    · rw [List.mem_singleton.1 hinsn] at hop
      cases op <;> cases hop
    · rw [List.mem_append, List.mem_singleton] at hinsn
      rw [Expr.hasJunction]
      rcases hinsn with hinsn | rfl
      · exact Expr.mem_layout hinsn hop
      · cases op <;> cases hop
  | junction index op' children =>
    rw [Expr.hasJunction, Bool.or_eq_true, decide_eq_true_eq]
    exact Children.mem_layout hinsn hop
  | path index fromRoot =>
    rw [List.mem_singleton.1 hinsn] at hop
    cases boolean <;> cases op <;> cases hop
  | wildcard index =>
    rw [List.mem_singleton.1 hinsn] at hop
    cases boolean <;> cases op <;> cases hop
  | string index text | number index value num =>
    rw [Expr.layout] at hinsn
    cases boolean with
    | false =>
      rw [List.mem_singleton.1 hinsn] at hop
      cases op <;> cases hop
    | true =>
      rw [if_pos rfl] at hinsn
      simp only [List.mem_cons, List.not_mem_nil, or_false] at hinsn
      rcases hinsn with rfl | rfl | rfl <;> cases op <;> cases hop
  | _ =>
    rw [List.mem_singleton.1 hinsn] at hop
    cases op <;> cases hop

theorem Children.mem_layout {op op' : Junction} {spill later : Bool} {dst depth finish start : ℕ}
    {children : Children ν} {insn : Instruction}
    (hinsn : insn ∈ children.layout spill op' later dst depth finish start)
    (hop : insn.op = op.jump) : op' = op ∨ children.hasJunction op = true := by
  have hfirst {e : Expr ν} {insn : Instruction} (hinsn : insn ∈
      (e.layout spill true dst depth start).map
        (if spill && later then patch op'.jump finish else id)) (hop : insn.op = op.jump) :
      ∃ insn ∈ e.layout spill true dst depth start, insn.op = op.jump := by
    obtain ⟨insn', hinsn', rfl⟩ := List.mem_map.1 hinsn
    refine ⟨insn', hinsn', ?_⟩
    split_ifs at hop
    · rwa [patch_op] at hop
    · exact hop
  have hjump {op' : Junction} (h : op'.jump = op.jump) : op' = op := by
    cases op' <;> cases op <;> first | rfl | cases h
  cases children with
  | two first second =>
    rw [Children.layout, List.mem_append, List.mem_cons] at hinsn
    rw [Children.hasJunction, Bool.or_eq_true]
    rcases hinsn with hinsn | rfl | hinsn
    · obtain ⟨insn, hinsn, hop⟩ := hfirst hinsn hop
      exact Or.inr (Or.inl (Expr.mem_layout hinsn hop))
    · exact Or.inl (hjump hop)
    · exact Or.inr (Or.inr (Expr.mem_layout hinsn hop))
  | more first rest =>
    rw [Children.layout, List.mem_append, List.mem_cons] at hinsn
    rw [Children.hasJunction, Bool.or_eq_true]
    rcases hinsn with hinsn | rfl | hinsn
    · obtain ⟨insn, hinsn, hop⟩ := hfirst hinsn hop
      exact Or.inr (Or.inl (Expr.mem_layout hinsn hop))
    · exact Or.inl (hjump hop)
    · exact (Children.mem_layout hinsn hop).imp_right Or.inr

end

mutual

theorem Expr.exists_jump {op : Junction} {spill : Bool} (boolean : Bool) (dst depth start : ℕ)
    {e : Expr ν} (h : e.hasJunction op = true) :
    ∃ insn ∈ e.layout spill boolean dst depth start, insn.op = op.jump := by
  cases e with
  | compare index op' left right =>
    rw [Expr.layout]
    rw [Expr.hasJunction, Bool.or_eq_true] at h
    split
    next hleaf =>
      obtain ⟨-, hleft, hright⟩ := compareLeaf_some hleaf
      rw [hleft.hasJunction, hright.hasJunction] at h
      rcases h with h | h <;> cases h
    next =>
      rcases h with h | h
      · obtain ⟨insn, hinsn, hop⟩ := Expr.exists_jump false dst depth start h
        exact ⟨insn, List.mem_append_left _ hinsn, hop⟩
      · obtain ⟨insn, hinsn, hop⟩ :=
          Expr.exists_jump false (1 + depth) (depth + 1) (start + left.size false) h
        exact ⟨insn, List.mem_append_right _ (List.mem_append_left _ hinsn), hop⟩
  | matching index op' regexIndex left right =>
    rw [Expr.layout]
    rw [Expr.hasJunction, Bool.or_eq_true] at h
    rcases h with h | h
    · obtain ⟨insn, hinsn, hop⟩ := Expr.exists_jump false dst depth start h
      exact ⟨insn, List.mem_append_left _ hinsn, hop⟩
    · obtain ⟨insn, hinsn, hop⟩ :=
        Expr.exists_jump false (1 + depth) (depth + 1) (start + left.size false) h
      exact ⟨insn, List.mem_append_right _ (List.mem_append_left _ hinsn), hop⟩
  | not index arg =>
    rw [Expr.layout]
    rw [Expr.hasJunction] at h
    split_ifs with hpath
    · rw [(Expr.plain_of_isPath hpath).hasJunction] at h
      cases h
    · obtain ⟨insn, hinsn, hop⟩ := Expr.exists_jump true dst depth start h
      exact ⟨insn, List.mem_append_left _ hinsn, hop⟩
  | junction index op' children =>
    rw [Expr.hasJunction, Bool.or_eq_true, decide_eq_true_eq] at h
    exact Children.exists_jump false dst depth _ start h
  | _ => cases h

theorem Children.exists_jump {op op' : Junction} {spill : Bool} (later : Bool)
    (dst depth finish start : ℕ) {children : Children ν}
    (h : op' = op ∨ children.hasJunction op = true) :
    ∃ insn ∈ children.layout spill op' later dst depth finish start, insn.op = op.jump := by
  cases children with
  | two first second =>
    rw [Children.layout]
    rw [Children.hasJunction, Bool.or_eq_true] at h
    rcases h with rfl | h | h
    · exact ⟨_, List.mem_append_right _ List.mem_cons_self, rfl⟩
    · obtain ⟨insn, hinsn, hop⟩ := Expr.exists_jump true dst depth start h
      refine ⟨_, List.mem_append_left _ (List.mem_map_of_mem hinsn), ?_⟩
      split_ifs
      · rw [patch_op, hop]
      · exact hop
    · obtain ⟨insn, hinsn, hop⟩ := Expr.exists_jump true dst depth _ h
      exact ⟨insn, List.mem_append_right _ (List.mem_cons_of_mem _ hinsn), hop⟩
  | more first rest =>
    rw [Children.layout]
    rw [Children.hasJunction, Bool.or_eq_true] at h
    by_cases heq : op' = op
    · exact ⟨_, List.mem_append_right _ List.mem_cons_self, by rw [heq]⟩
    · rcases h with heq' | h | h
      · exact absurd heq' heq
      · obtain ⟨insn, hinsn, hop⟩ := Expr.exists_jump true dst depth start h
        refine ⟨_, List.mem_append_left _ (List.mem_map_of_mem hinsn), ?_⟩
        split_ifs
        · rw [patch_op, hop]
        · exact hop
      · obtain ⟨insn, hinsn, hop⟩ := Children.exists_jump true dst depth finish _ (Or.inr h)
        exact ⟨insn, List.mem_append_right _ (List.mem_cons_of_mem _ hinsn), hop⟩

end

/-! ## Where the jumps land -/

mutual

theorem Expr.ends_le (boolean : Bool) {e : Expr ν} {start t : ℕ} (h : t ∈ e.ends start) :
    t ≤ start + e.size boolean := by
  cases e with
  | compare index op left right =>
    rw [Expr.ends, List.mem_append] at h
    rw [Expr.size]
    split
    next hleaf =>
      obtain ⟨-, hleft, hright⟩ := compareLeaf_some hleaf
      rw [hleft.ends, hright.ends] at h
      rcases h with h | h <;> cases h
    next =>
      rcases h with h | h
      · have hle := left.ends_le false h
        omega
      · have hle := right.ends_le false h
        omega
  | matching index op regexIndex left right =>
    rw [Expr.ends, List.mem_append] at h
    rw [Expr.size]
    rcases h with h | h
    · have hle := left.ends_le false h
      omega
    · have hle := right.ends_le false h
      omega
  | not index arg =>
    rw [Expr.ends] at h
    rw [Expr.size]
    split_ifs with hpath
    · rw [(Expr.plain_of_isPath hpath).ends] at h
      cases h
    · have hle := arg.ends_le true h
      omega
  | junction index op children => exact children.ends_le le_rfl h
  | _ => cases h

theorem Children.ends_le {children : Children ν} {finish start t : ℕ}
    (hfinish : start + children.size ≤ finish) (h : t ∈ children.ends finish start) :
    t ≤ finish := by
  cases children with
  | two first second =>
    rw [Children.ends, List.mem_append, List.mem_cons] at h
    rw [Children.size] at hfinish
    rcases h with h | rfl | h
    · have hle := first.ends_le true h
      omega
    · exact le_rfl
    · have hle := second.ends_le true h
      omega
  | more first rest =>
    rw [Children.ends, List.mem_append, List.mem_cons] at h
    rw [Children.size] at hfinish
    rcases h with h | rfl | h
    · have hle := first.ends_le true h
      omega
    · exact le_rfl
    · exact rest.ends_le (by omega) h

end

theorem targets_none {insn : Instruction} (h : insn.target = none) : targets [insn] = [] := by
  rw [targets_cons, h]
  rfl

theorem target_matching (op : Matching) (dst arg src1 src2 : ℕ) :
    Instruction.target ⟨op.opcode, 0, dst, arg, src1, src2⟩ = none := by cases op <;> rfl

mutual

/-- There is a jump for every end. -/
theorem Expr.length_targets (spill boolean : Bool) (dst depth start : ℕ) (e : Expr ν) :
    (targets (e.layout spill boolean dst depth start)).length = (e.ends start).length := by
  cases e with
  | compare index op left right =>
    rw [Expr.layout, Expr.ends]
    split
    next hleaf =>
      obtain ⟨hop, hleft, hright⟩ := compareLeaf_some hleaf
      rw [targets_none (target_leaf hop), hleft.ends, hright.ends]
      rfl
    next =>
      rw [targets_append, targets_append, targets_none rfl, List.append_nil, List.length_append,
        List.length_append, left.length_targets, right.length_targets]
  | matching index op regexIndex left right =>
    rw [Expr.layout, Expr.ends, targets_append, targets_append,
      targets_none (target_matching ..), List.append_nil, List.length_append, List.length_append,
      left.length_targets, right.length_targets]
  | not index arg =>
    rw [Expr.layout, Expr.ends]
    split_ifs with hpath
    · rw [targets_none rfl, (Expr.plain_of_isPath hpath).ends]
    · rw [targets_append, targets_none rfl, List.append_nil, arg.length_targets]
  | junction index op children => exact children.length_targets ..
  | path index fromRoot => cases boolean <;> rfl
  | string index text => cases boolean <;> rfl
  | number index value num => cases boolean <;> rfl
  | wildcard index => cases boolean <;> rfl
  | _ => rfl

theorem Children.length_targets (spill : Bool) (op : Junction) (later : Bool)
    (dst depth finish start : ℕ) (children : Children ν) :
    (targets (children.layout spill op later dst depth finish start)).length =
      (children.ends finish start).length := by
  cases children with
  | two first second =>
    rw [Children.layout, Children.ends, targets_append, List.length_append, List.length_append,
      length_targets_map, first.length_targets, targets_cons, target_jump, List.length_append,
      second.length_targets, List.length_cons, Nat.add_comm (Option.toList _).length]
    rfl
  | more first rest =>
    rw [Children.layout, Children.ends, targets_append, List.length_append, List.length_append,
      length_targets_map, first.length_targets, targets_cons, target_jump, List.length_append,
      rest.length_targets, List.length_cons, Nat.add_comm (Option.toList _).length]
    rfl

end

mutual

/-- Without patches from outside, every jump lands at the end of its own junction. -/
theorem Expr.targets_layout (boolean : Bool) (dst depth start : ℕ) (e : Expr ν) :
    targets (e.layout false boolean dst depth start) = e.ends start := by
  cases e with
  | compare index op left right =>
    rw [Expr.layout, Expr.ends]
    split
    next hleaf =>
      obtain ⟨hop, hleft, hright⟩ := compareLeaf_some hleaf
      rw [targets_none (target_leaf hop), hleft.ends, hright.ends]
      rfl
    next =>
      rw [targets_append, targets_append, targets_none rfl, List.append_nil, left.targets_layout,
        right.targets_layout]
  | matching index op regexIndex left right =>
    rw [Expr.layout, Expr.ends, targets_append, targets_append,
      targets_none (target_matching ..), List.append_nil, left.targets_layout,
      right.targets_layout]
  | not index arg =>
    rw [Expr.layout, Expr.ends]
    split_ifs with hpath
    · rw [targets_none rfl, (Expr.plain_of_isPath hpath).ends]
    · rw [targets_append, targets_none rfl, List.append_nil, arg.targets_layout]
  | junction index op children => exact children.targets_layout ..
  | path index fromRoot => cases boolean <;> rfl
  | string index text => cases boolean <;> rfl
  | number index value num => cases boolean <;> rfl
  | wildcard index => cases boolean <;> rfl
  | _ => rfl

theorem Children.targets_layout (op : Junction) (later : Bool) (dst depth finish start : ℕ)
    (children : Children ν) :
    targets (children.layout false op later dst depth finish start) =
      children.ends finish start := by
  cases children with
  | two first second =>
    rw [Children.layout, Children.ends, targets_append, targets_cons, target_jump, Bool.false_and,
      if_neg Bool.false_ne_true, List.map_id, first.targets_layout, second.targets_layout]
    rfl
  | more first rest =>
    rw [Children.layout, Children.ends, targets_append, targets_cons, target_jump, Bool.false_and,
      if_neg Bool.false_ne_true, List.map_id, first.targets_layout, rest.targets_layout]
    rfl

end

theorem Expr.map_layout {op : Junction} {spill later boolean : Bool} {dst depth finish start : ℕ}
    {e : Expr ν} (h : (!(later && e.hasJunction op)) = true) :
    (e.layout spill boolean dst depth start).map
        (if true && later then patch op.jump finish else id) =
      e.layout spill boolean dst depth start := by
  cases later with
  | false => exact List.map_id _
  | true =>
    refine map_patch_eq fun insn hinsn hop => ?_
    rw [Expr.mem_layout hinsn hop] at h
    cases h

mutual

theorem Expr.layout_eq (boolean : Bool) (dst depth start : ℕ) {e : Expr ν}
    (h : e.separate = true) :
    e.layout true boolean dst depth start = e.layout false boolean dst depth start := by
  cases e with
  | compare index op left right =>
    rw [Expr.separate, Bool.and_eq_true] at h
    rw [Expr.layout, Expr.layout, left.layout_eq _ _ _ _ h.1, right.layout_eq _ _ _ _ h.2]
  | matching index op regexIndex left right =>
    rw [Expr.separate, Bool.and_eq_true] at h
    rw [Expr.layout, Expr.layout, left.layout_eq _ _ _ _ h.1, right.layout_eq _ _ _ _ h.2]
  | not index arg => rw [Expr.layout, Expr.layout, arg.layout_eq _ _ _ _ h]
  | junction index op children => exact children.layout_eq _ _ _ _ h
  | _ => rfl

theorem Children.layout_eq {op : Junction} {later : Bool} (dst depth finish start : ℕ)
    {children : Children ν} (h : children.separate op later = true) :
    children.layout true op later dst depth finish start =
      children.layout false op later dst depth finish start := by
  cases children with
  | two first second =>
    rw [Children.separate, Bool.and_eq_true, Bool.and_eq_true] at h
    rw [Children.layout, Children.layout, Expr.map_layout h.1.2, first.layout_eq _ _ _ _ h.1.1,
      second.layout_eq _ _ _ _ h.2, Bool.false_and, if_neg Bool.false_ne_true, List.map_id]
  | more first rest =>
    rw [Children.separate, Bool.and_eq_true, Bool.and_eq_true] at h
    rw [Children.layout, Children.layout, Expr.map_layout h.1.2, first.layout_eq _ _ _ _ h.1.1,
      rest.layout_eq _ _ _ _ h.2, Bool.false_and, if_neg Bool.false_ne_true, List.map_id]

end

/-- A jump within a middle child would land at the end of the parent, beyond the child. -/
theorem Expr.targets_patched {op : Junction} {later : Bool} {dst depth finish start : ℕ}
    {e : Expr ν} (hsize : start + e.size true < finish)
    (h : targets ((e.layout true true dst depth start).map
      (if true && later then patch op.jump finish else id)) = e.ends start) :
    targets (e.layout true true dst depth start) = e.ends start ∧
      (!(later && e.hasJunction op)) = true := by
  cases later with
  | false =>
    rw [Bool.and_false, if_neg Bool.false_ne_true, List.map_id] at h
    exact ⟨h, rfl⟩
  | true =>
    have hjunction : (!(true && e.hasJunction op)) = true := by
      rw [Bool.true_and, Bool.not_eq_true']
      by_contra hhas
      rw [Bool.not_eq_false] at hhas
      have hjump : ∃ insn ∈ e.layout true true dst depth start, insn.op = op.jump :=
        Expr.exists_jump true dst depth start hhas
      rw [Bool.and_true, if_pos rfl] at h
      have hle := e.ends_le true (h ▸ mem_targets_patch hjump)
      omega
    rw [Expr.map_layout hjunction] at h
    exact ⟨h, hjunction⟩

mutual

/-- When every jump lands at the end of its own junction, junctions are separate. -/
theorem Expr.separate_of_targets {boolean : Bool} {dst depth start : ℕ} {e : Expr ν}
    (h : targets (e.layout true boolean dst depth start) = e.ends start) : e.separate = true := by
  cases e with
  | compare index op left right =>
    rw [Expr.layout, Expr.ends] at h
    rw [Expr.separate, Bool.and_eq_true]
    split at h
    next hleaf =>
      obtain ⟨-, hleft, hright⟩ := compareLeaf_some hleaf
      exact ⟨hleft.separate, hright.separate⟩
    next =>
      rw [targets_append, targets_append, targets_none rfl, List.append_nil] at h
      obtain ⟨hleft, hright⟩ := List.append_inj h (left.length_targets ..)
      exact ⟨left.separate_of_targets hleft, right.separate_of_targets hright⟩
  | matching index op regexIndex left right =>
    rw [Expr.layout, Expr.ends, targets_append, targets_append,
      targets_none (target_matching ..), List.append_nil] at h
    rw [Expr.separate, Bool.and_eq_true]
    obtain ⟨hleft, hright⟩ := List.append_inj h (left.length_targets ..)
    exact ⟨left.separate_of_targets hleft, right.separate_of_targets hright⟩
  | not index arg =>
    rw [Expr.layout, Expr.ends] at h
    rw [Expr.separate]
    split_ifs at h with hpath
    · exact (Expr.plain_of_isPath hpath).separate
    · rw [targets_append, targets_none rfl, List.append_nil] at h
      exact arg.separate_of_targets h
  | junction index op children => exact children.separate_of_targets le_rfl h
  | _ => rfl

theorem Children.separate_of_targets {op : Junction} {later : Bool} {dst depth finish start : ℕ}
    {children : Children ν} (hfinish : start + children.size ≤ finish)
    (h : targets (children.layout true op later dst depth finish start) =
      children.ends finish start) : children.separate op later = true := by
  cases children with
  | two first second =>
    rw [Children.size] at hfinish
    rw [Children.layout, Children.ends, targets_append, targets_cons, target_jump] at h
    obtain ⟨hfirst, h⟩ := List.append_inj h
      ((length_targets_map _ _ _ _).trans (first.length_targets ..))
    obtain ⟨hfirst, hjunction⟩ := Expr.targets_patched (by omega) hfirst
    have hsecond := second.separate_of_targets (List.cons.inj h).2
    rw [Children.separate, first.separate_of_targets hfirst, hjunction, hsecond]
    rfl
  | more first rest =>
    rw [Children.size] at hfinish
    rw [Children.layout, Children.ends, targets_append, targets_cons, target_jump] at h
    obtain ⟨hfirst, h⟩ := List.append_inj h
      ((length_targets_map _ _ _ _).trans (first.length_targets ..))
    obtain ⟨hfirst, hjunction⟩ := Expr.targets_patched (by omega) hfirst
    have hrest := rest.separate_of_targets (by omega) (List.cons.inj h).2
    rw [Children.separate, first.separate_of_targets hfirst, hjunction, hrest]
    rfl

end

end JsonPath
