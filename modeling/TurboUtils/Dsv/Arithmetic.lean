import TurboUtils.Dsv.Code

/-! Lowered arithmetic computes what the native stack computes: the registers of a stack are apart
from each other and from those that are free. -/
namespace Dsv

open QueryVm

variable {ν : Type}

namespace Registers

/-- No register is used twice or is the result, and a free one is not in use. -/
structure Apart (registers : Registers) : Prop where
  nodup : (registers.regs ++ registers.free).Nodup
  fresh : ∀ reg ∈ registers.regs ++ registers.free, 0 < reg ∧ reg < registers.next
  pos : 0 < registers.next

def Holds (regs : List ℕ) (stack : List ν) (registers : ℕ → Value ν) : Prop :=
  List.Forall₂ (fun reg value => registers reg = .number value) regs stack

theorem Holds.update {regs : List ℕ} {stack : List ν} {registers : ℕ → Value ν} {reg : ℕ}
    {value : Value ν} (h : Holds regs stack registers) (hreg : reg ∉ regs) :
    Holds regs stack (Function.update registers reg value) := by
  induction h with
  | nil => exact .nil
  | @cons reg' value' regs stack hvalue htail ih =>
    rw [List.mem_cons, not_or] at hreg
    exact .cons (by rw [Function.update_of_ne (Ne.symm hreg.1), hvalue]) (ih hreg.2)

theorem Holds.push {regs : List ℕ} {stack : List ν} {registers : ℕ → Value ν} {reg : ℕ} {value : ν}
    (h : Holds regs stack registers) (hreg : reg ∉ regs) :
    Holds (reg :: regs) (value :: stack) (Function.update registers reg (.number value)) :=
  .cons (Function.update_self ..) (h.update hreg)

variable {registers : Registers}

theorem Apart.start : Apart ⟨[], [], 1⟩ := ⟨List.nodup_nil, nofun, Nat.one_pos⟩

/-- A register that is taken holds no value of the stack, and not the result. -/
theorem Apart.take {reg : ℕ} {registers' : Registers} (h : registers.Apart)
    (htake : registers.take = some (reg, registers')) :
    reg ∉ registers.regs ∧ 0 < reg ∧ registers'.regs = registers.regs ∧
      Apart { registers' with regs := reg :: registers'.regs } := by
  obtain ⟨regs, free, next⟩ := registers
  obtain ⟨hnodup, hfresh, hnext⟩ := h
  unfold Registers.take at htake
  dsimp only at hnodup hfresh hnext htake
  split at htake
  next reg' free' =>
    cases htake
    have hnodup' : (reg :: (regs ++ free')).Nodup := List.perm_middle.nodup_iff.1 hnodup
    have hnot := (List.nodup_cons.1 hnodup').1
    have hmem : ∀ r ∈ reg :: (regs ++ free'), 0 < r ∧ r < next := fun r hr =>
      hfresh r (List.perm_middle.mem_iff.2 hr)
    exact ⟨fun hreg => hnot (List.mem_append_left _ hreg), (hmem reg List.mem_cons_self).1, rfl,
      hnodup', hmem, hnext⟩
  · split_ifs at htake with hlt
    cases htake
    rw [List.append_nil] at hnodup hfresh
    have hnot : reg ∉ regs := fun hreg =>
      lt_irrefl reg (hfresh reg hreg).2
    refine ⟨hnot, hnext, rfl, ?_, fun r hr => ?_, Nat.succ_pos reg⟩
    · simpa using ⟨hnot, hnodup⟩
    · rw [List.append_nil, List.mem_cons] at hr
      rcases hr with rfl | hr
      · exact ⟨hnext, Nat.lt_succ_self r⟩
      · exact ⟨(hfresh r hr).1, (hfresh r hr).2.trans (Nat.lt_succ_self reg)⟩

theorem Apart.release {rhs lhs : ℕ} {regs free : List ℕ} {next : ℕ}
    (h : Apart ⟨rhs :: lhs :: regs, free, next⟩) {free' : List ℕ}
    (hfree : free' = rhs :: free ∨ free' = free) : Apart ⟨lhs :: regs, free', next⟩ := by
  obtain ⟨hnodup, hfresh, hnext⟩ := h
  rcases hfree with rfl | rfl
  · have hperm : (lhs :: regs ++ rhs :: free).Perm (rhs :: lhs :: regs ++ free) := List.perm_middle
    exact ⟨hperm.nodup_iff.2 hnodup, fun r hr => hfresh r (hperm.mem_iff.1 hr), hnext⟩
  · exact ⟨(List.nodup_cons.1 hnodup).2, fun r hr => hfresh r (List.mem_cons_of_mem _ hr), hnext⟩

end Registers

open Registers

/-! ## What is lowered -/

theorem lowerLoad_eq_some {op : Opcode} {operand : Operand ν} {b b' : Builder ν}
    {registers registers' : Registers}
    (h : lowerLoad op operand (b, registers) = some (b', registers')) :
    ∃ reg taken, registers.take = some (reg, taken) ∧
      registers' = { taken with regs := reg :: taken.regs } ∧
        b'.insns = b.insns ++ [⟨op, 0, reg, 0, b.operands.length, 0⟩] ∧
          b'.operands = b.operands ++ [operand] := by
  unfold lowerLoad at h
  split_ifs at h
  obtain ⟨⟨reg, taken⟩, htake, h⟩ := Option.bind_eq_some_iff.1 h
  obtain ⟨⟨i, b₁⟩, hadd, h⟩ := Option.bind_eq_some_iff.1 h
  obtain ⟨b₂, hemit, h⟩ := Option.map_eq_some_iff.1 h
  cases h
  obtain ⟨rfl, hinsns, hoperands⟩ := addOperand_eq_some hadd
  obtain ⟨hinsns', hoperands'⟩ := emit_eq_some hemit
  exact ⟨reg, taken, htake, rfl, by rw [hinsns', hinsns], by rw [hoperands', hoperands]⟩

theorem lowerBinary_eq_some {op : Opcode} {b b' : Builder ν} {registers registers' : Registers}
    (h : lowerBinary op (b, registers) = some (b', registers')) :
    ∃ rhs lhs regs free, registers.regs = rhs :: lhs :: regs ∧
      registers' = { registers with regs := lhs :: regs, free := free } ∧
        (free = rhs :: registers.free ∨ free = registers.free) ∧
          b'.insns = b.insns ++ [⟨op, 0, lhs, 0, lhs, rhs⟩] ∧ b'.operands = b.operands := by
  unfold lowerBinary at h
  dsimp only at h
  split at h
  next rhs lhs regs hregs =>
    obtain ⟨b₁, hemit, h⟩ := Option.map_eq_some_iff.1 h
    cases h
    obtain ⟨hinsns, hoperands⟩ := emit_eq_some hemit
    refine ⟨rhs, lhs, regs, _, hregs, rfl, ?_, hinsns, hoperands⟩
    split_ifs
    · exact .inl rfl
    · exact .inr rfl
  · cases h

theorem lowerItem_apart {item : Item ν ℕ} {b b' : Builder ν} {registers registers' : Registers}
    (hapart : registers.Apart) (h : lowerItem (b, registers) item = some (b', registers')) :
    registers'.Apart := by
  have hload : ∀ {op : Opcode} {operand : Operand ν},
      lowerLoad op operand (b, registers) = some (b', registers') → registers'.Apart := by
    intro op operand h
    obtain ⟨reg, taken, htake, rfl, -, -⟩ := lowerLoad_eq_some h
    exact (hapart.take htake).2.2.2
  have hbinary : ∀ {op : Opcode}, lowerBinary op (b, registers) = some (b', registers') →
      registers'.Apart := by
    intro op h
    obtain ⟨rhs, lhs, regs, free, hregs, rfl, hfree, -, -⟩ := lowerBinary_eq_some h
    obtain ⟨regs', free', next⟩ := registers
    subst hregs
    exact hapart.release hfree
  cases item with
  | number value => exact hload h
  | ident column => exact hload h
  | neg =>
    unfold lowerItem at h
    dsimp only at h
    split at h
    · cases h
    · obtain ⟨b₁, -, h⟩ := Option.map_eq_some_iff.1 h
      cases h
      exact hapart
  | add | sub | mul | div => exact hbinary h

theorem lowerItems_apart {items : List (Item ν ℕ)} {b b' : Builder ν}
    {registers registers' : Registers} (hapart : registers.Apart)
    (h : items.foldlM lowerItem (b, registers) = some (b', registers')) : registers'.Apart := by
  induction items generalizing b registers with
  | nil =>
    cases h
    exact hapart
  | cons item items ih =>
    rw [List.foldlM_cons] at h
    obtain ⟨⟨b₁, registers₁⟩, hitem, h⟩ := Option.bind_eq_some_iff.1 h
    exact ih (lowerItem_apart hapart hitem) h

/-! ## Items -/

def Item.InRange (columnCount : ℕ) : Item ν ℕ → Prop
  | .ident column => column < columnCount
  | _ => True

variable (N : Numbers ν) (row : Row ν) (columnCount : ℕ)

/-- What has become of a stack and its registers, with code that leads from the ones to the others. -/
structure Simulates (b : Builder ν) (registers : Registers) (stack : List ν) (b' : Builder ν)
    (registers' : Registers) (stack' : List ν) : Prop where
  length : stack'.length = registers'.regs.length
  code : ∃ code, b.Grows b' code ∧ ∀ slice : Slice ν, slice.Checked →
    slice.Has b.insns.length code → b'.operands <+: slice.operands →
      slice.Leads N row b.insns.length (Holds registers.regs stack) b'.insns.length
        (Holds registers'.regs stack')

variable {N row columnCount}

theorem Simulates.trans {b b' b'' : Builder ν} {registers registers' registers'' : Registers}
    {stack stack' stack'' : List ν} (h : Simulates N row b registers stack b' registers' stack')
    (h' : Simulates N row b' registers' stack' b'' registers'' stack'') :
    Simulates N row b registers stack b'' registers'' stack'' := by
  obtain ⟨code, hgrows, hleads⟩ := h.code
  obtain ⟨code', hgrows', hleads'⟩ := h'.code
  refine ⟨h'.length, code ++ code', hgrows.trans hgrows', fun slice hchecked hhas hops => ?_⟩
  obtain ⟨hcode, hcode'⟩ := Slice.has_append.1 hhas
  rw [← hgrows.length] at hcode'
  exact (hleads slice hchecked hcode (hgrows'.operands.trans hops)).trans
    (hleads' slice hchecked hcode' hops)

theorem resolveValue_added {operands operands' : List (Operand ν)} {operand : Operand ν}
    (h : operands ++ [operand] <+: operands') :
    resolveValue row operands' operands.length = resolveValue row [operand] 0 := by
  obtain ⟨more, rfl⟩ := h
  unfold resolveValue
  rw [List.append_assoc, List.getElem?_append_right le_rfl, Nat.sub_self]
  rfl

variable (N row)

theorem lowerLoad_simulates {op : Opcode} (hop : op = .loadConst ∨ op = .loadPath)
    {operand : Operand ν} {value : ν} (hvalue : resolveValue row [operand] 0 = some (.number value))
    {b b' : Builder ν} {registers registers' : Registers} (hapart : registers.Apart)
    {stack : List ν} (hlength : stack.length = registers.regs.length)
    (h : lowerLoad op operand (b, registers) = some (b', registers')) :
    Simulates N row b registers stack b' registers' (value :: stack) := by
  obtain ⟨reg, taken, htake, rfl, hinsns, hoperands⟩ := lowerLoad_eq_some h
  obtain ⟨hreg, -, hregs, -⟩ := hapart.take htake
  refine ⟨?_, [⟨op, 0, reg, 0, b.operands.length, 0⟩],
    ⟨hinsns, by rw [hoperands]; exact List.prefix_append _ _⟩, fun slice hchecked hhas hops => ?_⟩
  · rw [List.length_cons, List.length_cons, hlength, hregs]
  · rw [hinsns, List.length_append]
    rw [hoperands] at hops
    refine Slice.leads_load hchecked hop hhas ((resolveValue_added hops).trans hvalue)
      fun ρ hρ => ?_
    dsimp only
    rw [hregs]
    exact hρ.push hreg

theorem lowerBinary_simulates {op : Opcode} {f : ν → ν → ν}
    (hop : op = .add ∨ op = .sub ∨ op = .mul ∨ op = .div)
    (hf : ∀ lhs rhs, binaryValue N op 0 (.number lhs) (.number rhs) = some (.number (f lhs rhs)))
    {b b' : Builder ν} {registers registers' : Registers} (hapart : registers.Apart)
    {stack : List ν} (hlength : stack.length = registers.regs.length)
    (h : lowerBinary op (b, registers) = some (b', registers')) :
    ∃ stack', evalItem.evalBinary f stack = some stack' ∧ stack'.length ≤ stack.length ∧
      Simulates N row b registers stack b' registers' stack' := by
  obtain ⟨rhs, lhs, regs, free, hregs, rfl, hfree, hinsns, hoperands⟩ := lowerBinary_eq_some h
  obtain ⟨regs', free', next⟩ := registers
  dsimp only at hregs hlength hfree
  subst hregs
  match stack, hlength with
  | right :: left :: stack, hlength =>
    refine ⟨f left right :: stack, rfl, Nat.le_succ _, ?_, [⟨op, 0, lhs, 0, lhs, rhs⟩], ⟨hinsns, hoperands ▸ List.prefix_rfl⟩, fun slice hchecked hhas _ => ?_⟩
    · simpa using hlength
    · rw [hinsns, List.length_append]
      refine Slice.leads_binary hchecked (by tauto) hhas (fun ρ hρ => ?_) (hf left right)
        fun ρ hρ => ?_
      · obtain ⟨hright, hρ⟩ := List.forall₂_cons.1 hρ
        exact ⟨(List.forall₂_cons.1 hρ).1, hright⟩
      · have hnodup := (List.nodup_append.1 hapart.nodup).1
        exact Holds.push (List.forall₂_cons.1 (List.forall₂_cons.1 hρ).2).2
          (List.nodup_cons.1 (List.nodup_cons.1 hnodup).2).1

theorem lowerItem_simulates {item : Item ν ℕ} (hrange : item.InRange columnCount) {cap : ℕ}
    {b b' : Builder ν} {registers registers' : Registers} (hapart : registers.Apart)
    {stack : List ν} (hlength : stack.length = registers.regs.length) (hcap : stack.length < cap)
    (h : lowerItem (b, registers) item = some (b', registers')) :
    ∃ stack', evalItem N row columnCount cap stack item = some stack' ∧
      stack'.length ≤ stack.length + 1 ∧ Simulates N row b registers stack b' registers' stack' := by
  have hbinary : ∀ {op : Opcode} {f : ν → ν → ν}, op = .add ∨ op = .sub ∨ op = .mul ∨ op = .div →
      (∀ lhs rhs, binaryValue N op 0 (.number lhs) (.number rhs) = some (.number (f lhs rhs))) →
        lowerBinary op (b, registers) = some (b', registers') →
          ∃ stack', evalItem.evalBinary f stack = some stack' ∧ stack'.length ≤ stack.length + 1 ∧
            Simulates N row b registers stack b' registers' stack' := by
    intro op f hop hf h
    obtain ⟨stack', heval, hle, hsimulates⟩ := lowerBinary_simulates N row hop hf hapart hlength h
    exact ⟨stack', heval, by omega, hsimulates⟩
  cases item with
  | number value =>
    refine ⟨value :: stack, if_neg (not_le.2 hcap), le_rfl, ?_⟩
    exact lowerLoad_simulates N row (.inl rfl) rfl hapart hlength h
  | ident column =>
    refine ⟨row.number column :: stack, ?_, le_rfl, ?_⟩
    · have hlt : column < columnCount := hrange
      exact if_neg (by simp only [Bool.or_eq_true, decide_eq_true_eq]; omega)
    · exact lowerLoad_simulates N row (.inr rfl) rfl hapart hlength h
  | neg =>
    obtain ⟨regs, free, next⟩ := registers
    unfold lowerItem at h
    dsimp only at h hlength
    match regs, stack, hlength with
    | [], _, _ => cases h
    | reg :: regs, value :: stack, hlength =>
      obtain ⟨b₁, hemit, h⟩ := Option.map_eq_some_iff.1 h
      cases h
      obtain ⟨hinsns, hoperands⟩ := emit_eq_some hemit
      refine ⟨N.neg value :: stack, rfl, Nat.le_succ _, hlength, _, grows_emit hemit,
        fun slice hchecked hhas _ => ?_⟩
      rw [hinsns, List.length_append]
      refine Slice.leads_neg hchecked hhas (fun ρ hρ => (List.forall₂_cons.1 hρ).1) fun ρ hρ => ?_
      exact Holds.push (List.forall₂_cons.1 hρ).2
        (List.nodup_cons.1 (List.nodup_append.1 hapart.nodup).1).1
  | add => exact hbinary (.inl rfl) (fun lhs rhs => rfl) h
  | sub => exact hbinary (.inr (.inl rfl)) (fun lhs rhs => rfl) h
  | mul => exact hbinary (.inr (.inr (.inl rfl))) (fun lhs rhs => rfl) h
  | div => exact hbinary (.inr (.inr (.inr rfl))) (fun lhs rhs => rfl) h

/-- The stack stays below its bound, since every item pushes one value at most. -/
theorem lowerItems_simulate {items : List (Item ν ℕ)}
    (hrange : ∀ item ∈ items, item.InRange columnCount) {cap : ℕ} {b b' : Builder ν}
    {registers registers' : Registers} (hapart : registers.Apart) {stack : List ν}
    (hlength : stack.length = registers.regs.length) (hcap : stack.length + items.length ≤ cap)
    (h : items.foldlM lowerItem (b, registers) = some (b', registers')) :
    ∃ stack', items.foldlM (evalItem N row columnCount cap) stack = some stack' ∧
      Simulates N row b registers stack b' registers' stack' := by
  induction items generalizing b registers stack with
  | nil =>
    cases h
    exact ⟨stack, rfl, hlength, [], .refl _, fun _ _ _ _ => .refl⟩
  | cons item items ih =>
    rw [List.forall_mem_cons] at hrange
    rw [List.length_cons] at hcap
    rw [List.foldlM_cons] at h
    obtain ⟨⟨b₁, registers₁⟩, hitem, h⟩ := Option.bind_eq_some_iff.1 h
    obtain ⟨stack₁, heval, hle, hsimulates⟩ := lowerItem_simulates N row hrange.1
      hapart hlength (by omega : stack.length < cap) hitem
    obtain ⟨stack', heval', hsimulates'⟩ := ih hrange.2 (lowerItem_apart hapart hitem)
      hsimulates.length (by omega) h
    refine ⟨stack', ?_, hsimulates.trans hsimulates'⟩
    rw [List.foldlM_cons, heval]
    exact heval'

end Dsv
