import TurboUtils.Cstl.Btree.Delete
import TurboUtils.Lib.BoundedMap
import TurboUtils.Lib.LinkedChain

/-! The read paths: search by key, the store through a found slot, and access by position
all agree with the in-order contents. -/
namespace Cstl.Btree

variable {K V : Type*}

/-! ## Positions -/

/-- A counted walk over `xs` that stops at the target: the entry there, or the count
advanced past all of `xs`. -/
def Counts (target : ℕ) (xs : List (Entry K V)) (visit : ℕ → Option (Entry K V) × ℕ) : Prop :=
  ∀ cursor ≤ target, visit cursor =
    match xs[target - cursor]? with
    | some e => (some e, target)
    | none => (none, cursor + xs.length)

theorem Counts.eq {target : ℕ} {xs : List (Entry K V)} {visit : ℕ → Option (Entry K V) × ℕ}
    (h : Counts target xs visit) {cursor : ℕ} (hc : cursor ≤ target) :
    (∃ e, xs[target - cursor]? = some e ∧ visit cursor = (some e, target)) ∨
      (cursor + xs.length ≤ target ∧ visit cursor = (none, cursor + xs.length)) := by
  have := h cursor hc
  cases hx : xs[target - cursor]? with
  | some e => exact Or.inl ⟨e, rfl, by rw [this, hx]⟩
  | none =>
    have hlen := List.getElem?_eq_none_iff.mp hx
    exact Or.inr ⟨by omega, by rw [this, hx]⟩

theorem nthSlots_leaf (visit : Node K V → ℕ → Option (Entry K V) × ℕ) (target : ℕ)
    (es : List (Entry K V)) (cs : List (Node K V)) :
    Counts target es (nthSlots visit true target es cs) := by
  induction es generalizing cs with
  | nil =>
    intro cursor hc
    simp [nthSlots]
  | cons e es ih =>
    intro cursor hc
    simp only [nthSlots, if_true]
    by_cases heq : cursor = target
    · simp [heq]
    · obtain ⟨d, hd⟩ : ∃ d, target - cursor = d + 1 := ⟨target - cursor - 1, by omega⟩
      rw [if_neg heq, ih cs.tail (cursor + 1) (by omega), hd, List.getElem?_cons_succ,
        show target - (cursor + 1) = d by omega, List.length_cons]
      cases es[d]? with
      | none => simp only [Prod.mk.injEq, true_and]; omega
      | some x => rfl

theorem nthSlots_inner {target : ℕ} {visit : Node K V → ℕ → Option (Entry K V) × ℕ}
    {f : Node K V → List (Entry K V)} {es : List (Entry K V)} {c : Node K V}
    {cs : List (Node K V)} (hlen : es.length = cs.length)
    (hv : ∀ d ∈ c :: cs, Counts target (f d) (visit d)) :
    Counts target (f c ++ post f es cs) (nthSlots visit false target es (c :: cs)) := by
  induction es generalizing c cs with
  | nil =>
    intro cursor hc
    simp only [nthSlots, post, List.append_nil, List.headD_cons, Bool.false_eq_true, if_false]
    exact hv c (by simp) cursor hc
  | cons e es ih =>
    cases cs with
    | nil => simp at hlen
    | cons d cs =>
      intro cursor hc
      have hrec : Counts target (f d ++ post f es cs) (nthSlots visit false target es (d :: cs)) :=
        ih (by simpa using hlen) fun x hx => hv x (List.mem_cons_of_mem c hx)
      simp only [nthSlots, List.headD_cons, Bool.false_eq_true, if_false, post, List.tail_cons]
      rcases (hv c (by simp)).eq hc with ⟨x, hx, hvis⟩ | ⟨hle, hvis⟩
      · rw [hvis, List.getElem?_append_left (List.getElem?_eq_some_iff.mp hx).1, hx]
      · rw [hvis, List.getElem?_append_right (by omega)]
        by_cases heq : cursor + (f c).length = target
        · rw [show target - cursor - (f c).length = 0 by omega]
          simp [heq]
        · obtain ⟨k, hk⟩ : ∃ k, target - cursor - (f c).length = k + 1 :=
            ⟨target - cursor - (f c).length - 1, by omega⟩
          simp only [if_neg heq]
          rw [hrec _ (by omega), hk, List.getElem?_cons_succ,
            show target - (cursor + (f c).length + 1) = k by omega]
          cases (f d ++ post f es cs)[k]? with
          | none =>
            simp only [Prod.mk.injEq, true_and, List.length_append, List.length_cons]
            omega
          | some x => rfl

/-- `btree_nth` counts through the contents. -/
theorem nth_counts {t h : ℕ} (target : ℕ) : ∀ (fuel lo : ℕ) (n : Node K V), h < fuel →
    Shape t lo h n → Counts target (inorder h n) (nth target fuel n) := by
  induction h with
  | zero =>
    intro fuel lo n hf hs
    obtain ⟨fuel, rfl⟩ := Nat.exists_eq_succ_of_ne_zero (Nat.ne_zero_of_lt hf)
    have hcount := nthSlots_leaf (nth target fuel) target n.entries n.children
    intro cursor hc
    rw [nth, hs.1]
    exact hcount cursor hc
  | succ h ih =>
    intro fuel lo n hf hs
    obtain ⟨fuel, rfl⟩ := Nat.exists_eq_succ_of_ne_zero (Nat.ne_zero_of_lt hf)
    obtain ⟨l, r, cl, c, cr, he, hch, hl, hcl, hr, -⟩ := hs.cut (i := 0) (Nat.zero_le _)
    obtain rfl : l = [] := List.length_eq_zero_iff.mp hl
    obtain rfl : cl = [] := List.length_eq_zero_iff.mp hcl
    have hcount : Counts target (inorder h c ++ post (inorder h) r cr)
        (nthSlots (nth target fuel) false target r (c :: cr)) := by
      apply nthSlots_inner hr
      intro d hd
      exact ih fuel (t - 1) d (by omega) (hs.2.2.2 d (by rw [hch]; exact hd))
    intro cursor hc
    rw [nth, hs.1, he, hch, inorder_cut he hch rfl]
    exact hcount cursor hc

/-! ## Search by key -/

variable [LinearOrder K]

def lookup (key : K) (xs : List (Entry K V)) : Option (Entry K V) :=
  xs.find? fun e => decide (e.key = key)

theorem lookup_eq_some {key : K} {xs : List (Entry K V)} (hs : Sorted xs) {e : Entry K V}
    (he : e ∈ xs) (hk : e.key = key) : lookup key xs = some e := by
  cases hf : lookup key xs with
  | none =>
    have := List.find?_eq_none.mp hf e he
    simp [hk] at this
  | some x =>
    have hx := List.find?_some hf
    simp only [decide_eq_true_eq] at hx
    rw [hs.eq_of_key (List.mem_of_find?_eq_some hf) he (hx.trans hk.symm)]

theorem lookup_eq_none {key : K} {xs : List (Entry K V)} :
    lookup key xs = none ↔ ∀ x ∈ xs, x.key ≠ key := by
  simp [lookup, List.find?_eq_none]

theorem lookup_cut {key : K} {before xs after : List (Entry K V)}
    (hb : ∀ x ∈ before, x.key < key) (ha : ∀ x ∈ after, key < x.key) :
    lookup key (before ++ (xs ++ after)) = lookup key xs := by
  have h1 : lookup key before = none := lookup_eq_none.mpr fun x hx => (hb x hx).ne
  have h2 : lookup key after = none := lookup_eq_none.mpr fun x hx => (ha x hx).ne'
  simp only [lookup] at h1 h2 ⊢
  rw [List.find?_append, List.find?_append, h1, h2]
  simp

/-- The search of a leaf looks at its entries only. -/
theorem hit_leaf {n : Node K V} (hs : Sorted n.entries) (key : K) :
    hit n key = lookup key n.entries := by
  obtain ⟨l, r, he, hlt, hge⟩ := exists_cut hs key
  rw [hit_eq he hlt hge]
  rw [he] at hs ⊢
  have hl : lookup key l = none := lookup_eq_none.mpr fun x hx => (hlt x hx).ne
  cases r with
  | nil =>
    rw [List.append_nil, hl]
    rfl
  | cons e r =>
    by_cases hk : e.key = key
    · rw [lookup_eq_some hs (by simp) hk]
      simp [Option.filter, hk]
    · have hr : lookup key (e :: r) = none := by
        apply lookup_eq_none.mpr
        intro x hx
        have hlt' : key < e.key := lt_of_le_of_ne (hge e (by simp)) (Ne.symm hk)
        exact (hlt'.trans_le (hs.append.2.1.head_le rfl x hx)).ne'
      simp only [lookup] at hl hr ⊢
      rw [List.find?_append, hl, hr]
      simp [Option.filter, hk]

/-- `btree_find_entry` finds exactly what the contents hold. -/
theorem findEntry_eq {t h : ℕ} (key : K) : ∀ (fuel lo : ℕ) (n : Node K V), h < fuel →
    Shape t lo h n → Sorted (inorder h n) → findEntry key fuel n = lookup key (inorder h n) := by
  induction h with
  | zero =>
    intro fuel lo n hf hs hsort
    obtain ⟨fuel, rfl⟩ := Nat.exists_eq_succ_of_ne_zero (Nat.ne_zero_of_lt hf)
    rw [findEntry, hit_leaf hsort, if_pos hs.1, inorder]
    cases lookup key n.entries <;> rfl
  | succ h ih =>
    intro fuel lo n hf hs hsort
    obtain ⟨fuel, rfl⟩ := Nat.exists_eq_succ_of_ne_zero (Nat.ne_zero_of_lt hf)
    obtain ⟨l, r, cl, c, cr, hd, hlt, hge⟩ := hs.descent hsort key
    cases hhit : hit n key with
    | some e =>
      have hhead := hhit
      rw [hd.hit] at hhead
      obtain ⟨hhead, hek⟩ := Option.filter_eq_some_iff.mp hhead
      have hmem : e ∈ inorder (h + 1) n := by
        rw [hd.inorder]
        simp [mem_post hd.right (List.mem_of_head? hhead)]
      simp only [findEntry, hhit]
      rw [lookup_eq_some hsort hmem (by simpa using hek)]
    | none =>
      have hsortc : Sorted (inorder h c) := by
        rw [hd.inorder] at hsort
        exact hsort.append.2.1.append.1
      simp only [findEntry, hhit, hs.1, Bool.false_eq_true, if_false]
      rw [hd.child, ih fuel (t - 1) c (by omega) (hs.2.2.2 c (by simp [hd.children])) hsortc,
        hd.inorder, lookup_cut hd.before (hd.gt_of_miss hsort hhit)]

/-- `new` is `old` with the value of one entry replaced. -/
def Stored (key : K) (value : V) (old new : List (Entry K V)) : Prop :=
  ∃ xs e ys, old = xs ++ e :: ys ∧ new = xs ++ { e with value := value } :: ys ∧ e.key = key

/-- The store through the found slot changes that value and nothing else. -/
theorem setValue_spec {t h : ℕ} (key : K) (value : V) : ∀ (fuel lo : ℕ) (n : Node K V),
    h < fuel → Shape t lo h n → Sorted (inorder h n) → (∃ x ∈ inorder h n, x.key = key) →
    Shape t lo h (setValue key value fuel n) ∧
      Stored key value (inorder h n) (inorder h (setValue key value fuel n)) := by
  induction h with
  | zero =>
    intro fuel lo n hf hs hsort hmem
    obtain ⟨fuel, rfl⟩ := Nat.exists_eq_succ_of_ne_zero (Nat.ne_zero_of_lt hf)
    obtain ⟨x, hx, hk⟩ := hmem
    have hhit : hit n key = some x := by
      rw [hit_leaf hsort]
      exact lookup_eq_some hsort hx hk
    obtain ⟨l, r, he, hlt, hge⟩ := exists_cut (show Sorted n.entries from hsort) key
    have hhead := hhit
    rw [hit_eq he hlt hge] at hhead
    obtain ⟨r, rfl⟩ := List.head?_eq_some_iff.mp (Option.filter_eq_some_iff.mp hhead).1
    simp only [setValue, hhit, lowerBound_eq he hlt hge, he, set_middle]
    refine ⟨⟨hs.1, hs.2.1, ?_⟩, l, x, r, he, rfl, hk⟩
    have hbounds := hs.2.2
    simpa [Node.numKeys, he] using hbounds
  | succ h ih =>
    intro fuel lo n hf hs hsort hmem
    obtain ⟨fuel, rfl⟩ := Nat.exists_eq_succ_of_ne_zero (Nat.ne_zero_of_lt hf)
    obtain ⟨l, r, cl, c, cr, hd, hlt, hge⟩ := hs.descent hsort key
    cases hhit : hit n key with
    | some e =>
      have hhead := hhit
      rw [hd.hit] at hhead
      obtain ⟨hhead, hek⟩ := Option.filter_eq_some_iff.mp hhead
      obtain ⟨r, rfl⟩ := List.head?_eq_some_iff.mp hhead
      have hright := hd.right
      cases cr with
      | nil => simp at hright
      | cons d cr =>
        simp only [setValue, hhit, hd.index, hd.entries, set_middle, hs.1, hd.children]
        refine ⟨⟨rfl, ?_, ?_, ?_⟩, pre (inorder h) cl l ++ inorder h c, e,
          inorder h d ++ post (inorder h) r cr, ?_, ?_, by simpa using hek⟩
        · simpa [Node.numKeys, hd.entries, hd.children] using hs.2.1
        · simpa [Node.numKeys, hd.entries] using hs.2.2.1
        · intro y hy
          exact hs.2.2.2 y (by rw [hd.children]; exact hy)
        · rw [hd.inorder]
          simp [post]
        · rw [inorder_pair hd.left]
          simp
    | none =>
      have hgt := hd.gt_of_miss hsort hhit
      have hsortc : Sorted (inorder h c) := by
        rw [hd.inorder] at hsort
        exact hsort.append.2.1.append.1
      have hmemc := hd.mem_child hgt hmem
      obtain ⟨hshape, xs, e, ys, hold, hnew, hk⟩ :=
        ih fuel (t - 1) c (by omega) (hs.2.2.2 c (by simp [hd.children])) hsortc hmemc
      simp only [setValue, hhit, hs.1, Bool.false_eq_true, if_false, hd.child]
      rw [hd.index, hd.entries, hd.children, set_middle hd.left]
      refine ⟨?_, pre (inorder h) cl l ++ xs, e, ys ++ post (inorder h) r cr, ?_, ?_, hk⟩
      · have hs' : Shape t lo (h + 1) (.mk false (l ++ r) (cl ++ c :: cr)) := by
          rw [← hd.entries, ← hd.children]
          exact ⟨rfl, hs.2⟩
        exact hs'.replace hshape
      · rw [hd.inorder, hold]
        simp
      · rw [inorder_cut (l := l) (r := r) rfl rfl hd.left, hnew]
        simp

/-! `btree_t` and its calls. Entry links live in a heap of their own; a freed link is not
in the heap any more. Allocation succeeds. -/

/-- `btree_entry_link_t`, with pointers as heap names. -/
structure Link (K V : Type*) where
  key : K
  value : V
  previous : Option ℕ
  next : Option ℕ
  deriving DecidableEq, Repr

end Cstl.Btree

namespace Cstl

open Btree
open BoundedMap (Op Result)

/-- `btree_t`. `unused` is the first heap name never handed out. -/
structure Btree (K V : Type*) where
  root : Option (Node K V)
  minDegree : ℕ
  entryLimit : ℕ
  size : ℕ
  first : Option ℕ
  last : Option ℕ
  heap : ℕ → Option (Link K V)
  unused : ℕ
  generation : UInt64

namespace Btree

variable {K V : Type*}

/-- `btree_init_common` on valid arguments. -/
def init (K V : Type*) (minDegree entryLimit : ℕ) : Btree K V :=
  ⟨none, minDegree, entryLimit, 0, none, none, fun _ => none, 0, 1⟩

def next (b : Btree K V) (i : ℕ) : Option ℕ := (b.heap i).bind Link.next

def previous (b : Btree K V) (i : ℕ) : Option ℕ := (b.heap i).bind Link.previous

/-- A store into the link `i`. -/
def store (heap : ℕ → Option (Link K V)) (i : ℕ) (f : Link K V → Link K V) :
    ℕ → Option (Link K V) :=
  Function.update heap i ((heap i).map f)

/-- `btree_link_insert_before`. -/
def linkInsertBefore (b : Btree K V) (next : Option ℕ) (link : ℕ) : Btree K V :=
  let previous := match next with
    | some n => b.previous n
    | none => b.last
  let b := { b with heap := store b.heap link fun l => { l with next, previous } }
  let b := match previous with
    | some p => { b with heap := store b.heap p fun l => { l with next := some link } }
    | none => { b with first := some link }
  match next with
  | some n => { b with heap := store b.heap n fun l => { l with previous := some link } }
  | none => { b with last := some link }

/-- `btree_link_unlink`. -/
def linkUnlink (b : Btree K V) (link : ℕ) : Btree K V :=
  let next := b.next link
  let previous := b.previous link
  let b := match previous with
    | some p => { b with heap := store b.heap p fun l => { l with next } }
    | none => { b with first := next }
  match next with
  | some n => { b with heap := store b.heap n fun l => { l with previous } }
  | none => { b with last := previous }

variable [LinearOrder K]

def find (b : Btree K V) (key : K) : Option (Entry K V) :=
  b.root.bind fun n => findEntry key n.levels n

def get (b : Btree K V) (key : K) : Option V := (b.find key).map Entry.value

/-- `btree_put` once the search has found the entry. -/
def putExisting (b : Btree K V) (key : K) (value : V) (e : Entry K V) : Btree K V :=
  { b with
    root := b.root.map fun n => setValue key value n.levels n
    heap := store b.heap e.link fun l => { l with value }
    generation := b.generation + 1 }

/-- `btree_put` with a new link, after `btree_insert_prepared` built the nodes `r.1` and
found the link `r.2` that follows. -/
def putNew (b : Btree K V) (key : K) (value : V) (r : Node K V × Option ℕ) : Btree K V :=
  let link := b.unused
  let b := { b with
    root := some r.1
    heap := Function.update b.heap link (some ⟨key, value, none, none⟩)
    unused := link + 1 }
  let b := b.linkInsertBefore r.2 link
  { b with size := b.size + 1, generation := b.generation + 1 }

def put (b : Btree K V) (key : K) (value : V) : Btree K V × BoundedMap.Status :=
  match b.find key with
  | some e => (b.putExisting key value e, .ok)
  | none =>
      if b.entryLimit ≤ b.size then (b, .capacityExceeded)
      else
        (b.putNew key value (insertPrepared b.minDegree b.root ⟨key, value, b.unused⟩), .ok)

def collapse (n : Node K V) : Option (Node K V) :=
  if n.numKeys = 0 then if n.leaf then none else some (n.child 0) else some n

/-- `btree_remove` after the nodes gave up the entry. -/
def dropEntry (b : Btree K V) (n : Node K V) (e : Entry K V) : Btree K V :=
  let b := { b with root := collapse n }
  let b := b.linkUnlink e.link
  { b with
    heap := Function.update b.heap e.link none
    size := b.size - 1
    generation := b.generation + 1 }

/-- `btree_remove`. The deletion cannot miss a key the search found. -/
def remove (b : Btree K V) (key : K) : Btree K V × Result V :=
  match b.root, b.find key with
  | some n, some _ =>
      match deleteStructural b.minDegree (2 * n.levels) n key with
      | none => (b, ⟨.notFound, none⟩)
      | some (n', e) => (b.dropEntry n' e, ⟨.ok, some e.value⟩)
  | _, _ => (b, ⟨.notFound, none⟩)

/-- `btree_clear`: the nodes are destroyed with the links they hold. -/
def clear (b : Btree K V) : Btree K V :=
  match b.root with
  | none => b
  | some _ =>
      { b with root := none, size := 0, first := none, last := none, heap := fun _ => none,
               generation := b.generation + 1 }

/-- `btree_pair_at`. -/
def pairAt (b : Btree K V) (index : ℕ) : Option (K × V) :=
  if index < b.size then
    b.root.bind fun n => ((nth index n.levels n 0).1).map fun e => (e.key, e.value)
  else none

def keyAt (b : Btree K V) (index : ℕ) : Option K := (b.pairAt index).map Prod.fst

def valueAt (b : Btree K V) (index : ℕ) : Option V := (b.pairAt index).map Prod.snd

/-- `cmeta_range_cursor` as the range uses it: the link to visit next and the tree the
cursor belongs to. -/
structure Cursor where
  link : Option ℕ
  tree : Option ℕ

/-- `btree_range_next` on the tree at address `self`. -/
def rangeNext (b : Btree K V) (self : ℕ) (cursor : Cursor) : Option ((K × V) × Cursor) :=
  let link := match cursor.tree with
    | none => b.first
    | some owner => if owner = self then cursor.link else none
  link.bind fun i => (b.heap i).map fun l => ((l.key, l.value), ⟨l.next, some self⟩)

/-- The pairs a range loop visits in at most `fuel` rounds, and whether it came to its end. -/
def rangeLoop (b : Btree K V) (self : ℕ) : ℕ → Cursor → List (K × V) × Bool
  | 0, _ => ([], false)
  | fuel + 1, cursor =>
      match b.rangeNext self cursor with
      | none => ([], true)
      | some (pair, cursor) =>
          let r := rangeLoop b self fuel cursor
          (pair :: r.1, r.2)

/-- One call of the interface. -/
def step (b : Btree K V) : Op K V → Btree K V × Result V
  | .put k v => ((b.put k v).1, ⟨(b.put k v).2, none⟩)
  | .remove k => b.remove k
  | .clear => (b.clear, ⟨.ok, none⟩)
  | .get k => (b, ⟨.ok, b.get k⟩)

def run (b : Btree K V) : List (Op K V) → List (Btree K V × Result V)
  | [] => []
  | op :: ops => b.step op :: run (b.step op).1 ops

end Btree

end Cstl
