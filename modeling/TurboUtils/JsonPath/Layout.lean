import TurboUtils.JsonPath.Evaluate

/-! The instructions that a compiled expression comes to, where the jumps of a junction are patched
together with those of the same kind in its middle children. -/
namespace JsonPath

open QueryVm

section Definitions

variable {ν : Type}

mutual

def Expr.size (boolean : Bool) : Expr ν → ℕ
  | .compare _ op left right =>
      match compareLeaf op left right with
      | some _ => 1
      | none => left.size false + right.size false + 1
  | .matching _ _ _ left right => left.size false + right.size false + 1
  | .not _ arg => if arg.isPath then 1 else arg.size true + 1
  | .junction _ _ children => children.size
  | .string .. | .number .. => if boolean then 3 else 1
  | _ => 1

def Children.size : Children ν → ℕ
  | .two first second => first.size true + 1 + second.size true
  | .more first rest => first.size true + 1 + rest.size

end

mutual

/-- The instructions of an expression that begin at a position; with `spill`, those of a middle child
are patched with the jumps of its parent. -/
def Expr.layout (spill boolean : Bool) (dst depth start : ℕ) : Expr ν → List Instruction
  | .compare _ op left right =>
      match compareLeaf op left right with
      | some (opcode, arg, src1, src2) => [⟨opcode, 0, dst, arg, src1, src2⟩]
      | none =>
          left.layout spill false dst depth start ++
            (right.layout spill false (1 + depth) (depth + 1) (start + left.size false) ++
              [⟨.cmp, 0, dst, op.code, dst, 1 + depth⟩])
  | .matching _ op regexIndex left right =>
      left.layout spill false dst depth start ++
        (right.layout spill false (1 + depth) (depth + 1) (start + left.size false) ++
          [⟨op.opcode, 0, dst, op.arg regexIndex, dst, 1 + depth⟩])
  | .not _ arg =>
      if arg.isPath then [⟨.notExists, 0, dst, 0, arg.index, 0⟩]
      else arg.layout spill true dst depth start ++ [⟨.not, 0, dst, 0, dst, 0⟩]
  | .junction _ op children =>
      children.layout spill op false dst depth (start + children.size) start
  | .path index _ => [⟨if boolean then .exists_ else .loadPath, 0, dst, 0, index, 0⟩]
  | .lengthOfCurrent _ => [⟨.length, 0, dst, 0, noOperand, 0⟩]
  | .length _ arg => [⟨.length, 0, dst, 0, arg.index, 0⟩]
  | .count _ arg => [⟨.count, 0, dst, 0, arg.index, 0⟩]
  | .string index _ =>
      if boolean then
        [⟨.loadKey, 0, 1 + depth, 0, 0, 0⟩, ⟨.loadConst, 0, dst, 0, index, 0⟩,
          ⟨.cmp, 0, dst, Comparison.eq.code, 1 + depth, dst⟩]
      else [⟨.loadConst, 0, dst, 0, index, 0⟩]
  | .number index _ _ =>
      if boolean then
        [⟨.loadIndex, 0, 1 + depth, 0, 0, 0⟩, ⟨.loadConst, 0, dst, 0, index, 0⟩,
          ⟨.cmp, 0, dst, Comparison.eq.code, 1 + depth, dst⟩]
      else [⟨.loadConst, 0, dst, 0, index, 0⟩]
  | .bool index _ => [⟨.loadConst, 0, dst, 0, index, 0⟩]
  | .regexp index _ => [⟨.loadConst, 0, dst, 0, index, 0⟩]
  | .wildcard _ => [⟨if boolean then .true else .loadInvalid, 0, dst, 0, 0, 0⟩]

/-- The instructions of children, the first of which is a middle one when it is a `later` one. -/
def Children.layout (spill : Bool) (op : Junction) (later : Bool) (dst depth finish start : ℕ) :
    Children ν → List Instruction
  | .two first second =>
      (first.layout spill true dst depth start).map
          (if spill && later then patch op.jump finish else id) ++
        ⟨op.jump, 0, 0, finish, dst, 0⟩ ::
          second.layout spill true dst depth (start + first.size true + 1)
  | .more first rest =>
      (first.layout spill true dst depth start).map
          (if spill && later then patch op.jump finish else id) ++
        ⟨op.jump, 0, 0, finish, dst, 0⟩ ::
          rest.layout spill op true dst depth finish (start + first.size true + 1)

end

mutual

/-- The end of its junction for every jump of an expression that begins at a position. -/
def Expr.ends (start : ℕ) : Expr ν → List ℕ
  | .compare _ _ left right => left.ends start ++ right.ends (start + left.size false)
  | .matching _ _ _ left right => left.ends start ++ right.ends (start + left.size false)
  | .not _ arg => arg.ends start
  | .junction _ _ children => children.ends (start + children.size) start
  | _ => []

def Children.ends (finish start : ℕ) : Children ν → List ℕ
  | .two first second => first.ends start ++ finish :: second.ends (start + first.size true + 1)
  | .more first rest =>
      first.ends start ++ finish :: rest.ends finish (start + first.size true + 1)

end

mutual

def Expr.hasJunction (op : Junction) : Expr ν → Bool
  | .compare _ _ left right => left.hasJunction op || right.hasJunction op
  | .matching _ _ _ left right => left.hasJunction op || right.hasJunction op
  | .not _ arg => arg.hasJunction op
  | .junction _ op' children => decide (op' = op) || children.hasJunction op
  | _ => false

def Children.hasJunction (op : Junction) : Children ν → Bool
  | .two first second => first.hasJunction op || second.hasJunction op
  | .more first rest => first.hasJunction op || rest.hasJunction op

end

mutual

def Expr.separate : Expr ν → Bool
  | .compare _ _ left right => left.separate && right.separate
  | .matching _ _ _ left right => left.separate && right.separate
  | .not _ arg => arg.separate
  | .junction _ op children => children.separate op false
  | _ => true

def Children.separate (op : Junction) (later : Bool) : Children ν → Bool
  | .two first second =>
      first.separate && !(later && first.hasJunction op) && second.separate
  | .more first rest =>
      first.separate && !(later && first.hasJunction op) && rest.separate op true

end

mutual

/-- The registers suffice. -/
def Expr.Fits (slots : ℕ) (boolean : Bool) (depth : ℕ) : Expr ν → Prop
  | .compare _ op left right =>
      match compareLeaf op left right with
      | some _ => True
      | none => depth + 1 < slots ∧ left.Fits slots false depth ∧ right.Fits slots false (depth + 1)
  | .matching _ _ _ left right =>
      depth + 1 < slots ∧ left.Fits slots false depth ∧ right.Fits slots false (depth + 1)
  | .not _ arg => if arg.isPath then True else arg.Fits slots true depth
  | .junction _ _ children => children.Fits slots depth
  | .string .. | .number .. => boolean = true → depth + 1 < slots
  | _ => True

def Children.Fits (slots depth : ℕ) : Children ν → Prop
  | .two first second => first.Fits slots true depth ∧ second.Fits slots true depth
  | .more first rest => first.Fits slots true depth ∧ rest.Fits slots depth

end

end Definitions

section Length

variable {ν : Type}

mutual

theorem Expr.length_layout (spill boolean : Bool) (dst depth start : ℕ) (e : Expr ν) :
    (e.layout spill boolean dst depth start).length = e.size boolean := by
  cases e with
  | compare index op left right =>
    rw [Expr.layout, Expr.size]
    cases compareLeaf op left right with
    | some leaf => rfl
    | none =>
      rw [List.length_append, List.length_append, left.length_layout, right.length_layout,
        List.length_singleton]
      exact (Nat.add_assoc ..).symm
  | matching index op regexIndex left right =>
    rw [Expr.layout, Expr.size, List.length_append, List.length_append, left.length_layout,
      right.length_layout, List.length_singleton]
    exact (Nat.add_assoc ..).symm
  | not index arg =>
    rw [Expr.layout, Expr.size]
    split_ifs
    · rfl
    · rw [List.length_append, arg.length_layout, List.length_singleton]
  | junction index op children => exact children.length_layout ..
  | string index text =>
    rw [Expr.layout, Expr.size]
    cases boolean <;> rfl
  | number index value num =>
    rw [Expr.layout, Expr.size]
    cases boolean <;> rfl
  | _ => rfl

theorem Children.length_layout (spill : Bool) (op : Junction) (later : Bool)
    (dst depth finish start : ℕ) (children : Children ν) :
    (children.layout spill op later dst depth finish start).length = children.size := by
  cases children with
  | two first second =>
    rw [Children.layout, Children.size, List.length_append, List.length_map, first.length_layout,
      List.length_cons, second.length_layout]
    omega
  | more first rest =>
    rw [Children.layout, Children.size, List.length_append, List.length_map, first.length_layout,
      List.length_cons, rest.length_layout]
    omega

end

mutual

theorem Expr.size_pos (boolean : Bool) (e : Expr ν) : 0 < e.size boolean := by
  cases e with
  | compare index op left right =>
    rw [Expr.size]
    split <;> omega
  | matching => exact Nat.succ_pos _
  | not index arg =>
    rw [Expr.size]
    split_ifs <;> omega
  | junction index op children => exact children.size_pos
  | string index text => cases boolean <;> exact Nat.succ_pos _
  | number index value num => cases boolean <;> exact Nat.succ_pos _
  | _ => exact Nat.one_pos

theorem Children.size_pos (children : Children ν) : 0 < children.size := by
  cases children with
  | two first second =>
    rw [Children.size]
    omega
  | more first rest =>
    rw [Children.size]
    omega

end

end Length

end JsonPath
