import Mathlib.Order.Compare
import Mathlib.Tactic

/-! Nodes of `btree_t` and the operations on them. The parallel arrays `keys`, `values`
and `links` of a node are one list of entries, and `num_keys` is its length. Functions that
walk the tree carry the number of levels they may still descend. -/
namespace Cstl.Btree

/-- One slot of a node; `link` names the entry link of the ordered list. -/
structure Entry (K V : Type*) where
  key : K
  value : V
  link : ℕ
  deriving DecidableEq, Repr

inductive Node (K V : Type*) where
  | mk (leaf : Bool) (entries : List (Entry K V)) (children : List (Node K V))

namespace Node

variable {K V : Type*}

def leaf : Node K V → Bool
  | mk l _ _ => l

def entries : Node K V → List (Entry K V)
  | mk _ es _ => es

def children : Node K V → List (Node K V)
  | mk _ _ cs => cs

def numKeys (n : Node K V) : ℕ := n.entries.length

def fresh : Node K V := mk true [] []

def child (n : Node K V) (i : ℕ) : Node K V := n.children.getD i fresh

/-- The levels on the leftmost path, as `btree_pool_prepare` counts them. -/
def levels : Node K V → ℕ
  | mk _ _ [] => 1
  | mk _ _ (c :: _) => levels c + 1

@[simp] theorem leaf_mk (l : Bool) (es : List (Entry K V)) (cs : List (Node K V)) :
    (mk l es cs).leaf = l := rfl

@[simp] theorem entries_mk (l : Bool) (es : List (Entry K V)) (cs : List (Node K V)) :
    (mk l es cs).entries = es := rfl

@[simp] theorem children_mk (l : Bool) (es : List (Entry K V)) (cs : List (Node K V)) :
    (mk l es cs).children = cs := rfl

@[simp] theorem numKeys_mk (l : Bool) (es : List (Entry K V)) (cs : List (Node K V)) :
    (mk l es cs).numKeys = es.length := rfl

end Node

variable {K V : Type*} [LinearOrder K]

/-- The binary search of `btree_lower_bound`. The interval shrinks in every round. -/
def lowerBoundLoop (es : List (Entry K V)) (key : K) : ℕ → ℕ → ℕ → ℕ
  | 0, left, _ => left
  | fuel + 1, left, right =>
      if left < right then
        let middle := left + (right - left) / 2
        match es[middle]? with
        | none => left
        | some e =>
            if compare e.key key = .lt then lowerBoundLoop es key fuel (middle + 1) right
            else lowerBoundLoop es key fuel left middle
      else left

def lowerBound (n : Node K V) (key : K) : ℕ :=
  lowerBoundLoop n.entries key n.numKeys 0 n.numKeys

def hit (n : Node K V) (key : K) : Option (Entry K V) :=
  match n.entries[lowerBound n key]? with
  | none => none
  | some e => if compare e.key key = .eq then some e else none

/-- `btree_find_value` and `btree_find_entry`. -/
def findEntry (key : K) : ℕ → Node K V → Option (Entry K V)
  | 0, _ => none
  | fuel + 1, n =>
      match hit n key with
      | some e => some e
      | none => if n.leaf then none else findEntry key fuel (n.child (lowerBound n key))

/-- The store through the slot `btree_find_entry` returned. -/
def setValue (key : K) (value : V) : ℕ → Node K V → Node K V
  | 0, n => n
  | fuel + 1, n =>
      let i := lowerBound n key
      match hit n key with
      | some e => .mk n.leaf (n.entries.set i { e with value := value }) n.children
      | none =>
          if n.leaf then n
          else .mk n.leaf n.entries (n.children.set i (setValue key value fuel (n.child i)))

/-! ## Splitting and insertion -/

/-- `btree_split_child`: the median of a full child moves into the parent. -/
def splitChild (minDegree : ℕ) (parent : Node K V) (i : ℕ) : Node K V :=
  let left := parent.child i
  match left.entries[minDegree - 1]? with
  | none => parent
  | some median =>
      let right : Node K V :=
        .mk left.leaf (left.entries.drop minDegree) (left.children.drop minDegree)
      let left' : Node K V :=
        .mk left.leaf (left.entries.take (minDegree - 1)) (left.children.take minDegree)
      .mk parent.leaf (parent.entries.insertIdx i median)
        ((parent.children.set i left').insertIdx (i + 1) right)

/-- `links[index]` when the slot is in use, the link found further up otherwise. -/
def nextLink (n : Node K V) (i : ℕ) (next : Option ℕ) : Option ℕ :=
  match n.entries[i]? with
  | some e => some e.link
  | none => next

/-- The descent of `btree_insert_prepared` from a node that is not full. The second
component is the link the new entry is put in front of. -/
def insertLoop (minDegree : ℕ) (entry : Entry K V) :
    ℕ → Node K V → Option ℕ → Node K V × Option ℕ
  | 0, n, next => (n, next)
  | fuel + 1, n, next =>
      let i := lowerBound n entry.key
      let next := nextLink n i next
      if n.leaf then (.mk n.leaf (n.entries.insertIdx i entry) n.children, next)
      else if (n.child i).numKeys = 2 * minDegree - 1 then
        let n := splitChild minDegree n i
        match n.entries[i]? with
        | none => (n, next)
        | some median =>
            if compare entry.key median.key = .gt then
              let r := insertLoop minDegree entry fuel (n.child (i + 1)) next
              (.mk n.leaf n.entries (n.children.set (i + 1) r.1), r.2)
            else
              let r := insertLoop minDegree entry fuel (n.child i) (some median.link)
              (.mk n.leaf n.entries (n.children.set i r.1), r.2)
      else
        let r := insertLoop minDegree entry fuel (n.child i) next
        (.mk n.leaf n.entries (n.children.set i r.1), r.2)

/-- `btree_insert_prepared` on the nodes: an empty tree gets a leaf, a full root is split
under a new root first. -/
def insertPrepared (minDegree : ℕ) (root : Option (Node K V)) (entry : Entry K V) :
    Node K V × Option ℕ :=
  match root with
  | none => (.mk true [entry] [], none)
  | some root =>
      if root.numKeys = 2 * minDegree - 1 then
        insertLoop minDegree entry (root.levels + 1)
          (splitChild minDegree (.mk false [] [root]) 0) none
      else insertLoop minDegree entry root.levels root none

/-! ## Borrowing, merging and deletion -/

/-- `btree_borrow_previous`: the last entry of the left sibling moves up, the separator
moves down in front of the child. -/
def borrowPrevious (parent : Node K V) (i : ℕ) : Node K V :=
  let child := parent.child i
  let sibling := parent.child (i - 1)
  match parent.entries[i - 1]?, sibling.entries.getLast? with
  | some separator, some last =>
      let child' : Node K V := .mk child.leaf (separator :: child.entries)
        (if child.leaf then child.children
          else sibling.children.getLast?.toList ++ child.children)
      let sibling' : Node K V := .mk sibling.leaf sibling.entries.dropLast
        (if child.leaf then sibling.children else sibling.children.dropLast)
      .mk parent.leaf (parent.entries.set (i - 1) last)
        ((parent.children.set i child').set (i - 1) sibling')
  | _, _ => parent

/-- `btree_borrow_next`, the mirror image with the first entry of the right sibling. -/
def borrowNext (parent : Node K V) (i : ℕ) : Node K V :=
  let child := parent.child i
  let sibling := parent.child (i + 1)
  match parent.entries[i]?, sibling.entries.head? with
  | some separator, some first =>
      let child' : Node K V := .mk child.leaf (child.entries ++ [separator])
        (if child.leaf then child.children else child.children ++ sibling.children.head?.toList)
      let sibling' : Node K V := .mk sibling.leaf sibling.entries.tail
        (if sibling.leaf then sibling.children else sibling.children.tail)
      .mk parent.leaf (parent.entries.set i first)
        ((parent.children.set i child').set (i + 1) sibling')
  | _, _ => parent

/-- `btree_merge_children`: child `i`, the separator and child `i + 1` become child `i`. -/
def mergeChildren (parent : Node K V) (i : ℕ) : Node K V :=
  let left := parent.child i
  let right := parent.child (i + 1)
  match parent.entries[i]? with
  | none => parent
  | some separator =>
      let merged : Node K V := .mk left.leaf (left.entries ++ separator :: right.entries)
        (if left.leaf then left.children else left.children ++ right.children)
      .mk parent.leaf (parent.entries.eraseIdx i)
        ((parent.children.set i merged).eraseIdx (i + 1))

def rightmost : ℕ → Node K V → Option (Entry K V)
  | 0, _ => none
  | fuel + 1, n =>
      if n.leaf then n.entries.getLast? else rightmost fuel (n.child n.numKeys)

def leftmost : ℕ → Node K V → Option (Entry K V)
  | 0, _ => none
  | fuel + 1, n => if n.leaf then n.entries.head? else leftmost fuel (n.child 0)

/-- The recursion on child `i`, with the result stored back. -/
def withChild (n : Node K V) (i : ℕ) (r : Option (Node K V × Entry K V)) :
    Option (Node K V × Entry K V) :=
  r.map fun x => (.mk n.leaf n.entries (n.children.set i x.1), x.2)

/-- `btree_delete_structural`: the node without the key, and the entry removed. After a
borrow the source calls itself on the same node, so a level can take two rounds. -/
def deleteStructural (minDegree : ℕ) : ℕ → Node K V → K → Option (Node K V × Entry K V)
  | 0, _, _ => none
  | fuel + 1, n, key =>
      let i := lowerBound n key
      match hit n key with
      | some e =>
          if n.leaf then some (.mk n.leaf (n.entries.eraseIdx i) n.children, e)
          else if minDegree ≤ (n.child i).numKeys then
            match rightmost (n.child i).levels (n.child i) with
            | none => none
            | some pred =>
                (withChild (.mk n.leaf (n.entries.set i pred) n.children) i
                  (deleteStructural minDegree fuel (n.child i) pred.key)).map fun x => (x.1, e)
          else if minDegree ≤ (n.child (i + 1)).numKeys then
            match leftmost (n.child (i + 1)).levels (n.child (i + 1)) with
            | none => none
            | some succ =>
                (withChild (.mk n.leaf (n.entries.set i succ) n.children) (i + 1)
                  (deleteStructural minDegree fuel (n.child (i + 1)) succ.key)).map
                    fun x => (x.1, e)
          else
            let n := mergeChildren n i
            withChild n i (deleteStructural minDegree fuel (n.child i) key)
      | none =>
          if (n.child i).numKeys = minDegree - 1 then
            if 0 < i ∧ minDegree ≤ (n.child (i - 1)).numKeys then
              deleteStructural minDegree fuel (borrowPrevious n i) key
            else if i < n.numKeys ∧ minDegree ≤ (n.child (i + 1)).numKeys then
              deleteStructural minDegree fuel (borrowNext n i) key
            else if i < n.numKeys then
              let n := mergeChildren n i
              withChild n i (deleteStructural minDegree fuel (n.child i) key)
            else
              let n := mergeChildren n (i - 1)
              withChild n (i - 1) (deleteStructural minDegree fuel (n.child (i - 1)) key)
          else withChild n i (deleteStructural minDegree fuel (n.child i) key)

/-! ## Positional access -/

/-- The loop of `btree_nth` over the slots of one node; `visit` is the recursive call and
the counter is the number of entries passed. -/
def nthSlots (visit : Node K V → ℕ → Option (Entry K V) × ℕ) (leaf : Bool) (target : ℕ) :
    List (Entry K V) → List (Node K V) → ℕ → Option (Entry K V) × ℕ
  | [], cs, cursor => if leaf then (none, cursor) else visit (cs.headD Node.fresh) cursor
  | e :: es, cs, cursor =>
      match if leaf then (none, cursor) else visit (cs.headD Node.fresh) cursor with
      | (some r, cursor) => (some r, cursor)
      | (none, cursor) =>
          if cursor = target then (some e, cursor)
          else nthSlots visit leaf target es cs.tail (cursor + 1)

/-- `btree_nth`. -/
def nth (target : ℕ) : ℕ → Node K V → ℕ → Option (Entry K V) × ℕ
  | 0, _, cursor => (none, cursor)
  | fuel + 1, n, cursor => nthSlots (nth target fuel) n.leaf target n.entries n.children cursor

end Cstl.Btree
