import TurboUtils.Lib.RedBlack

/-! The pointers and colours of the nodes of `rbtree_t`, a node being named by its address. A
function that follows a null pointer has no result; the loops carry the number of rounds they may
still take. Code that the source has twice, for the left and for the right, has a side here. -/
namespace Cstl.Rbtree

open RedBlack (Side)

/-- `left` and `right` are the children on the two sides. -/
structure Links where
  root : Option ℕ
  parent : ℕ → Option ℕ
  child : Side → ℕ → Option ℕ
  red : ℕ → Bool

namespace Links

/-! ## Stores -/

def setRoot (h : Links) (root : Option ℕ) : Links := { h with root }

def setParent (h : Links) (i : ℕ) (p : Option ℕ) : Links :=
  { h with parent := Function.update h.parent i p }

def setChild (h : Links) (d : Side) (i : ℕ) (c : Option ℕ) : Links :=
  { h with child := Function.update h.child d (Function.update (h.child d) i c) }

def setRed (h : Links) (i : ℕ) (c : Bool) : Links := { h with red := Function.update h.red i c }

def adopt (h : Links) (i : Option ℕ) (p : Option ℕ) : Links :=
  match i with
  | none => h
  | some i => h.setParent i p

def blacken (h : Links) : Option ℕ → Links
  | none => h
  | some i => h.setRed i false

/-- The pointer to `node`, in its parent or the root of the tree, is set to `target`; side `d` of the
parent is looked at first. -/
def redirect (h : Links) (d : Side) (node : ℕ) (target : Option ℕ) : Links :=
  match h.parent node with
  | none => h.setRoot target
  | some p =>
      if h.child d p = some node then h.setChild d p target else h.setChild d.other p target

/-- `rbtree_is_red`. -/
def isRed (h : Links) : Option ℕ → Bool
  | none => false
  | some i => h.red i

/-- `rbtree_is_black`. -/
def isBlack (h : Links) : Option ℕ → Bool
  | none => true
  | some i => !h.red i

/-! ## Rotations -/

/-- A rotation to side `d`. -/
def rotate (d : Side) (h : Links) (node : ℕ) : Option Links := do
  let pivot ← h.child d.other node
  let inner := h.child d pivot
  let h := (h.setChild d.other node inner).adopt inner (some node)
  let h := h.setParent pivot (h.parent node)
  let h := h.redirect d node (some pivot)
  let h := h.setChild d pivot (some node)
  some (h.setParent node (some pivot))

/-- `rbtree_rotate_left`. -/
def rotateLeft : Links → ℕ → Option Links := rotate .left

/-- `rbtree_rotate_right`. -/
def rotateRight : Links → ℕ → Option Links := rotate .right

/-! ## Insertion -/

/-- The end of `rbtree_insert_fix`. -/
def blackenRoot (h : Links) : Option Links := h.root.map fun r => h.setRed r false

/-- The child `node` on the inner side is rotated outwards; the new node, parent and
grandparent. -/
def straighten (d : Side) (h : Links) (node parent grandparent : ℕ) :
    Option (Links × ℕ × ℕ × ℕ) :=
  if h.child d.other parent = some node then do
    let h ← rotate d h parent
    let above ← h.parent parent
    let top ← h.parent above
    some (h, parent, above, top)
  else some (h, node, parent, grandparent)

/-- `rbtree_insert_fix`. -/
def insertFix : ℕ → Links → ℕ → Option Links
  | 0, _, _ => none
  | fuel + 1, h, node =>
      match h.parent node with
      | none => h.blackenRoot
      | some parent =>
          if h.red parent = false then h.blackenRoot
          else do
            let grandparent ← h.parent parent
            let d := if h.child .left grandparent = some parent then Side.left else Side.right
            let uncle := h.child d.other grandparent
            if h.isRed uncle then do
              let u ← uncle
              insertFix fuel (((h.setRed parent false).setRed u false).setRed grandparent true)
                grandparent
            else do
              let (h, node, parent, grandparent) ← straighten d h node parent grandparent
              let h := (h.setRed parent false).setRed grandparent true
              let h ← rotate d.other h grandparent
              insertFix fuel h node

/-! ## Removal -/

/-- `rbtree_minimum` of a node that is there. -/
def minimum (h : Links) : ℕ → ℕ → Option ℕ
  | 0, _ => none
  | fuel + 1, node =>
      match h.child .left node with
      | none => some node
      | some l => h.minimum fuel l

/-- `rbtree_transplant`. -/
def transplant (h : Links) (removed : ℕ) (replacement : Option ℕ) : Links :=
  let h := h.redirect .left removed replacement
  h.adopt replacement (h.parent removed)

def blackSibling (d : Side) (h : Links) (parent : ℕ) : Option (Links × Option ℕ) :=
  let sibling := h.child d.other parent
  if h.isRed sibling then do
    let s ← sibling
    let h ← rotate d ((h.setRed s false).setRed parent true) parent
    some (h, h.child d.other parent)
  else some (h, sibling)

def farRed (d : Side) (h : Links) (parent s : ℕ) : Option (Links × ℕ) :=
  if h.isBlack (h.child d.other s) then do
    let h ← rotate d.other ((h.blacken (h.child d s)).setRed s true) s
    let s ← h.child d.other parent
    some (h, s)
  else some (h, s)

/-- `rbtree_delete_fix`. -/
def deleteFix : ℕ → Links → Option ℕ → Option ℕ → Option Links
  | 0, _, _, _ => none
  | fuel + 1, h, node, parent =>
      if node ≠ h.root ∧ h.isBlack node = true then
        match parent with
        | none => some (h.blacken node)
        | some p => do
            let d := if h.child .left p = node then Side.left else Side.right
            let (h, sibling) ← blackSibling d h p
            match sibling with
            | none => deleteFix fuel h (some p) (h.parent p)
            | some s =>
                if h.isBlack (h.child d s) && h.isBlack (h.child d.other s) then
                  deleteFix fuel (h.setRed s true) (some p) (h.parent p)
                else do
                  let (h, s) ← farRed d h p s
                  let h := (h.setRed s (h.red p)).setRed p false
                  let h ← rotate d (h.blacken (h.child d.other s)) p
                  deleteFix fuel h h.root none
      else some (h.blacken node)

/-- The two-child case of `rbtree_remove_node`: the successor `moved` takes the place of `node`.
The place where a node is missing, and the colour that is missing there. -/
def replaceBySuccessor (h : Links) (node moved : ℕ) : Option (Links × Option ℕ × Option ℕ) := do
  let fixNode := h.child .right moved
  let (h, fixParent) ←
    if h.parent moved = some node then
      some (h.adopt fixNode (some moved), some moved)
    else do
      let fixParent := h.parent moved
      let h := h.transplant moved fixNode
      let h := h.setChild .right moved (h.child .right node)
      let r ← h.child .right moved
      some (h.setParent r (some moved), fixParent)
  let h := h.transplant node (some moved)
  let h := h.setChild .left moved (h.child .left node)
  let l ← h.child .left moved
  let h := h.setParent l (some moved)
  some (h.setRed moved (h.red node), fixNode, fixParent)

/-- The part of `rbtree_remove_node` that takes the node out of the tree. -/
def removeNode (fuel : ℕ) (h : Links) (node : ℕ) : Option Links := do
  let (h, red, fixNode, fixParent) ←
    match h.child .left node, h.child .right node with
    | none, r => some (h.transplant node r, h.red node, r, h.parent node)
    | some l, none => some (h.transplant node (some l), h.red node, some l, h.parent node)
    | some _, some r => do
        let moved ← h.minimum fuel r
        let (h', fixNode, fixParent) ← h.replaceBySuccessor node moved
        some (h', h.red moved, fixNode, fixParent)
  if red then some h else deleteFix fuel h fixNode fixParent

end Links

end Cstl.Rbtree
