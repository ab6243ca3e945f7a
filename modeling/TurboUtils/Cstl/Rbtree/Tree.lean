import TurboUtils.Cstl.Rbtree.Links

/-! `rbtree_t` with its keys, values and list of nodes, and the multimap calls on it. Allocations
succeed, and no two get the same number. A result is missing where a null pointer is followed or a
loop needs more rounds than the tree has nodes. -/
namespace Cstl.Rbtree

open RedBlack (Side)

variable {K V : Type}

/-- `object` is what `key` and `value` of an allocated node point to; `unused` is the node the next
`calloc` returns. -/
structure RbTree (K V : Type) where
  links : Links
  head : Option ℕ
  tail : Option ℕ
  previous : ℕ → Option ℕ
  next : ℕ → Option ℕ
  object : ℕ → Option (K × V)
  size : ℕ
  elementLimit : ℕ
  allowDuplicates : Bool
  unused : ℕ

/-- `rbtree_put_result`, or `STL_CAPACITY_EXCEEDED`. -/
inductive PutResult where
  | inserted | replaced | capacityExceeded
  deriving DecidableEq

/-- `rbtree_create`. -/
def create (K V : Type) (elementLimit : ℕ) (allowDuplicates : Bool) : RbTree K V where
  links := ⟨none, fun _ => none, fun _ _ => none, fun _ => false⟩
  head := none
  tail := none
  previous := fun _ => none
  next := fun _ => none
  object := fun _ => none
  size := 0
  elementLimit := elementLimit
  allowDuplicates := allowDuplicates
  unused := 0

namespace RbTree

variable (cmp : K → K → Ordering) (t : RbTree K V) (key : K)

def keyOf (i : ℕ) : Option K := (t.object i).map Prod.fst

def fuel : ℕ := t.size + 1

/-! ## Search -/

/-- The loop of `rbtree_find`. -/
def findLoop : ℕ → Option ℕ → Option (Option ℕ)
  | _, none => some none
  | 0, some _ => none
  | fuel + 1, some node => do
      let k ← t.keyOf node
      match cmp key k with
      | .eq => some (some node)
      | .lt => findLoop fuel (t.links.child .left node)
      | .gt => findLoop fuel (t.links.child .right node)

/-- `rbtree_find`. -/
def find : Option (Option ℕ) := t.findLoop cmp key t.fuel t.links.root

/-- The loop of `rbtree_lower_bound` and `rbtree_upper_bound`, which goes to the right where
`skip` says so. -/
def boundLoop (skip : Ordering → Bool) : ℕ → Option ℕ → Option ℕ → Option (Option ℕ)
  | _, none, result => some result
  | 0, some _, _ => none
  | fuel + 1, some node, result => do
      let k ← t.keyOf node
      if skip (cmp k key) then boundLoop skip fuel (t.links.child .right node) result
      else boundLoop skip fuel (t.links.child .left node) (some node)

/-- `rbtree_lower_bound`. -/
def lowerBound : Option (Option ℕ) :=
  t.boundLoop cmp key (fun comparison => comparison = .lt) t.fuel t.links.root none

/-- `rbtree_upper_bound`. -/
def upperBound : Option (Option ℕ) :=
  t.boundLoop cmp key (fun comparison => comparison.isLE) t.fuel t.links.root none

/-! ## Insertion -/

/-- Where the search of `rbtree_put` ends: at a node with an equal key, or below a parent, if there
is one, with the last comparison. -/
inductive Place where
  | equal (node : ℕ)
  | below (parent : Option ℕ) (comparison : Ordering)

/-- The search of `rbtree_put`. -/
def descend : ℕ → Option ℕ → Option ℕ → Ordering → Option Place
  | _, none, parent, comparison => some (.below parent comparison)
  | 0, some _, _, _ => none
  | fuel + 1, some node, _, _ => do
      let k ← t.keyOf node
      let comparison := cmp key k
      if comparison = .eq ∧ t.allowDuplicates = false then some (.equal node)
      else
        descend fuel (t.links.child (if comparison = .lt then .left else .right) node) (some node)
          comparison

/-- `rbtree_node_create`. -/
def nodeCreate (value : V) : RbTree K V × ℕ :=
  let n := t.unused
  ({ t with
    links := (((t.links.setParent n none).setChild .left n none).setChild .right n none).setRed n true
    previous := Function.update t.previous n none
    next := Function.update t.next n none
    object := Function.update t.object n (some (key, value))
    unused := n + 1 }, n)

def setNext (i : ℕ) (o : Option ℕ) : RbTree K V := { t with next := Function.update t.next i o }

def setPrevious (i : ℕ) (o : Option ℕ) : RbTree K V :=
  { t with previous := Function.update t.previous i o }

/-- The pointer to what comes after `i`, or to the head. -/
def setAfter (i o : Option ℕ) : RbTree K V :=
  match i with
  | some i => t.setNext i o
  | none => { t with head := o }

/-- The pointer to what comes before `i`, or to the tail. -/
def setBefore (i o : Option ℕ) : RbTree K V :=
  match i with
  | some i => t.setPrevious i o
  | none => { t with tail := o }

def attach (node : ℕ) (parent : Option ℕ) (comparison : Ordering) : RbTree K V :=
  let t := { t with links := t.links.setParent node parent }
  match parent with
  | none => { t with links := t.links.setRoot (some node), head := some node, tail := some node }
  | some parent =>
      if comparison = .lt then
        let t := { t with links := t.links.setChild .left parent (some node) }
        let t := t.setNext node (some parent)
        let t := t.setPrevious node (t.previous parent)
        let t := t.setPrevious parent (some node)
        t.setAfter (t.previous node) (some node)
      else
        let t := { t with links := t.links.setChild .right parent (some node) }
        let t := t.setPrevious node (some parent)
        let t := t.setNext node (t.next parent)
        let t := t.setNext parent (some node)
        t.setBefore (t.next node) (some node)

/-- `rbtree_put`. -/
def put (value : V) : Option (RbTree K V × PutResult) := do
  match ← t.descend cmp key t.fuel t.links.root none .eq with
  | .equal node =>
      let k ← t.keyOf node
      some ({ t with object := Function.update t.object node (some (k, value)) }, .replaced)
  | .below parent comparison =>
      if t.elementLimit ≤ t.size then some (t, .capacityExceeded)
      else
        let (t', node) := t.nodeCreate key value
        let t' := t'.attach node parent comparison
        let links ← Links.insertFix t.fuel t'.links node
        some ({ t' with links := links, size := t'.size + 1 }, .inserted)

/-! ## Removal -/

/-- `rbtree_remove_node`, with the value that it hands out. -/
def removeNode (node : ℕ) : Option (RbTree K V × V) := do
  let (_, value) ← t.object node
  let links ← Links.removeNode t.fuel t.links node
  let t := { t with links := links }
  let t := t.setAfter (t.previous node) (t.next node)
  let t := t.setBefore (t.next node) (t.previous node)
  some ({ t with
    object := Function.update t.object node none
    size := t.size - 1 }, value)

/-! ## Multimaps -/

/-- The loop of `multimap_count`. -/
def countLoop (stop : Option ℕ) : ℕ → Option ℕ → ℕ → Option ℕ
  | 0, _, _ => none
  | fuel + 1, node, count =>
      if node = stop then some count
      else do
        let i ← node
        countLoop stop fuel (t.next i) (count + 1)

/-- `multimap_count`. -/
def count : Option ℕ := do
  let first ← t.lowerBound cmp key
  let stop ← t.upperBound cmp key
  t.countLoop stop t.fuel first 0

/-- `multimap_remove`: the value removed, if there was one. -/
def remove : Option (RbTree K V × Option V) := do
  let first ← t.lowerBound cmp key
  let stop ← t.upperBound cmp key
  if first = stop then some (t, none)
  else do
    let node ← match stop with
      | none => t.tail
      | some i => t.previous i
    let (t, value) ← t.removeNode node
    some (t, some value)

/-- The loop of `multimap_erase`. -/
def eraseLoop (stop : Option ℕ) : ℕ → RbTree K V → Option ℕ → ℕ → Option (RbTree K V × ℕ)
  | 0, _, _, _ => none
  | fuel + 1, t, node, removed =>
      if node = stop then some (t, removed)
      else do
        let i ← node
        let next := t.next i
        let (t, _) ← t.removeNode i
        eraseLoop stop fuel t next (removed + 1)

/-- `multimap_erase`. -/
def erase : Option (RbTree K V × ℕ) := do
  let first ← t.lowerBound cmp key
  let stop ← t.upperBound cmp key
  eraseLoop stop t.fuel t first 0

end RbTree

end Cstl.Rbtree
