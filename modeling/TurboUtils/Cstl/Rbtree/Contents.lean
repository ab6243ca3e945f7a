import TurboUtils.Cstl.Rbtree.Remove
import TurboUtils.Cstl.Rbtree.Represents
import TurboUtils.Cstl.Rbtree.Tree
import TurboUtils.Lib.LinkedChain
import TurboUtils.Lib.OrderedMultimap

/-! What the searches in a sorted tree find. The subtree below the place that a loop has reached has
all that it may still find. -/
namespace Cstl.Rbtree

open RedBlack Std

variable {K V : Type} {cmp : K → K → Ordering} {t : RbTree K V} {s : Shape ℕ} {p : Option ℕ}

/-- The nodes of `s` have the keys that `keys` says, in ascending order. -/
structure Keyed (cmp : K → K → Ordering) (t : RbTree K V) (keys : ℕ → K) (s : Shape ℕ) : Prop where
  key : ∀ i ∈ s.inorder, t.keyOf i = some (keys i)
  sorted : s.inorder.Pairwise fun a b => (cmp (keys a) (keys b)).isLE

theorem Keyed.node {keys : ℕ → K} {c : Bool} {l r : Shape ℕ} {i : ℕ}
    (h : Keyed cmp t keys (.node c l i r)) :
    t.keyOf i = some (keys i) ∧ Keyed cmp t keys l ∧ Keyed cmp t keys r ∧
      (∀ a ∈ l.inorder, (cmp (keys a) (keys i)).isLE) ∧
      (∀ b ∈ r.inorder, (cmp (keys i) (keys b)).isLE) := by
  obtain ⟨hkey, hsorted⟩ := h
  rw [Shape.inorder_node, List.pairwise_append, List.pairwise_cons] at hsorted
  obtain ⟨hl, ⟨hir, hr⟩, hcross⟩ := hsorted
  exact ⟨hkey i (by simp), ⟨fun j hj => hkey j (by simp [hj]), hl⟩,
    ⟨fun j hj => hkey j (by simp [hj]), hr⟩, fun a ha => hcross a ha i (by simp), hir⟩

/-- The loop of the bounds finds the first node that is not skipped, where a node before a skipped one
is skipped. -/
theorem boundLoop_spec {keys : ℕ → K} {key : K} {skip : Ordering → Bool}
    (hskip : ∀ a b, (cmp a b).isLE → skip (cmp b key) = true → skip (cmp a key) = true)
    (hr : Rep t.links p s) (hk : Keyed cmp t keys s) {fuel : ℕ} (hfuel : s.inorder.length ≤ fuel)
    (result : Option ℕ) :
    t.boundLoop cmp key skip fuel (ptr s) result =
      some ((s.inorder.find? fun i => !skip (cmp (keys i) key)).or result) := by
  induction s generalizing p fuel result with
  | nil => cases fuel <;> rfl
  | node c l i r ihl ihr =>
    obtain ⟨-, -, hleft, hright, hrl, hrr⟩ := hr
    obtain ⟨hi, hkl, hkr, hli, hir⟩ := hk.node
    rw [Shape.inorder_node, List.length_append, List.length_cons] at hfuel
    obtain ⟨fuel, rfl⟩ := Nat.exists_eq_succ_of_ne_zero (by omega : fuel ≠ 0)
    rw [ptr_node, RbTree.boundLoop, hi, Shape.inorder_node, List.find?_append, List.find?_cons]
    simp only [Option.bind_eq_bind, Option.bind_some]
    cases hc : skip (cmp (keys i) key) with
    | true =>
      have hl : l.inorder.find? (fun j => !skip (cmp (keys j) key)) = none := by
        rw [List.find?_eq_none]
        intro j hj
        simp [hskip _ _ (hli j hj) hc]
      rw [if_pos rfl, hright, ihr hrr hkr (by omega), hl]
      rfl
    | false =>
      rw [if_neg (by simp), hleft, ihl hrl hkl (by omega)]
      simp

/-- `rbtree_find` finds a node with an equal key, if there is one. -/
theorem findLoop_spec [TransCmp cmp] {keys : ℕ → K} (key : K) (hr : Rep t.links p s)
    (hk : Keyed cmp t keys s) {fuel : ℕ} (hfuel : s.inorder.length ≤ fuel) :
    ∃ o, t.findLoop cmp key fuel (ptr s) = some o ∧
      (∀ i, o = some i → i ∈ s.inorder ∧ cmp key (keys i) = .eq) ∧
      (o = none → ∀ i ∈ s.inorder, cmp key (keys i) ≠ .eq) := by
  induction s generalizing p fuel with
  | nil =>
    refine ⟨none, by cases fuel <;> rfl, by simp, by simp⟩
  | node c l i r ihl ihr =>
    obtain ⟨-, -, hleft, hright, hrl, hrr⟩ := hr
    obtain ⟨hi, hkl, hkr, hli, hir⟩ := hk.node
    rw [Shape.inorder_node, List.length_append, List.length_cons] at hfuel
    obtain ⟨fuel, rfl⟩ := Nat.exists_eq_succ_of_ne_zero (by omega : fuel ≠ 0)
    rw [ptr_node, RbTree.findLoop, hi, Shape.inorder_node]
    simp only [Option.bind_eq_bind, Option.bind_some]
    cases hc : cmp key (keys i) with
    | eq => exact ⟨some i, rfl, by simp [hc], by simp⟩
    | lt =>
      obtain ⟨o, hrun, hsome, hnone⟩ := ihl hrl hkl (by omega : l.inorder.length ≤ fuel)
      refine ⟨o, by rw [← hrun, ← hleft], fun j hj => ?_, fun ho j hj => ?_⟩
      · exact ⟨List.mem_append_left _ (hsome j hj).1, (hsome j hj).2⟩
      · rw [List.mem_append, List.mem_cons] at hj
        rcases hj with hj | rfl | hj
        · exact hnone ho j hj
        · simp [hc]
        · have hlt := TransCmp.lt_of_lt_of_isLE hc (hir j hj)
          simp [hlt]
    | gt =>
      obtain ⟨o, hrun, hsome, hnone⟩ := ihr hrr hkr (by omega : r.inorder.length ≤ fuel)
      refine ⟨o, by rw [← hrun, ← hright], fun j hj => ?_, fun ho j hj => ?_⟩
      · exact ⟨List.mem_append_right _ (List.mem_cons_of_mem _ (hsome j hj).1), (hsome j hj).2⟩
      · rw [List.mem_append, List.mem_cons] at hj
        rcases hj with hj | rfl | hj
        · have hlt := TransCmp.lt_of_isLE_of_lt (hli j hj) (OrientedCmp.lt_of_gt hc)
          simp [OrientedCmp.gt_of_lt hlt]
        · simp [hc]
        · exact hnone ho j hj

/-- A place for `key`: what is before it is not greater, and less without duplicates; what is after
it is greater. The place is on the side of the last node that `comparison` says. -/
structure Fitting (cmp : K → K → Ordering) (t : RbTree K V) (keys : ℕ → K) (key : K)
    (k : List (Frame ℕ)) (comparison : Ordering) : Prop where
  before : ∀ i ∈ before k,
    cmp key (keys i) = .gt ∨ t.allowDuplicates = true ∧ cmp key (keys i) = .eq
  after : ∀ i ∈ after k, cmp key (keys i) = .lt
  side : ∀ f ∈ k.head?, f.side = if comparison = .lt then .left else .right

theorem Fitting.left [TransCmp cmp] {keys : ℕ → K} {key : K} {k : List (Frame ℕ)}
    {c : Ordering} {e : Bool} {r : Shape ℕ} {i : ℕ} (h : Fitting cmp t keys key k c)
    (hlt : cmp key (keys i) = .lt) (hr : ∀ b ∈ r.inorder, (cmp (keys i) (keys b)).isLE) :
    Fitting cmp t keys key (⟨.left, e, i, r⟩ :: k) .lt := by
  refine ⟨by simpa [RedBlack.before] using h.before, fun j hj => ?_, by simp⟩
  simp only [RedBlack.after, List.cons_append, List.mem_cons, List.mem_append] at hj
  rcases hj with rfl | hj | hj
  · exact hlt
  · exact TransCmp.lt_of_lt_of_isLE hlt (hr j hj)
  · exact h.after j hj

theorem Fitting.right [TransCmp cmp] {keys : ℕ → K} {key : K} {k : List (Frame ℕ)}
    {c c' : Ordering} {e : Bool} {l : Shape ℕ} {i : ℕ} (h : Fitting cmp t keys key k c)
    (hi : cmp key (keys i) = .gt ∨ t.allowDuplicates = true ∧ cmp key (keys i) = .eq)
    (hc' : c' ≠ .lt) (hl : ∀ a ∈ l.inorder, (cmp (keys a) (keys i)).isLE) :
    Fitting cmp t keys key (⟨.right, e, i, l⟩ :: k) c' := by
  refine ⟨fun j hj => ?_, by simpa [RedBlack.after] using h.after, by simp [hc']⟩
  simp only [RedBlack.before, List.mem_append, List.mem_singleton] at hj
  rcases hj with hj | hj | rfl
  · exact h.before j hj
  · rcases hi with hgt | ⟨hdup, heq⟩
    · have hlt := TransCmp.lt_of_isLE_of_lt (hl j hj) (OrientedCmp.lt_of_gt hgt)
      exact .inl (OrientedCmp.gt_of_lt hlt)
    · have hle := TransCmp.isLE_trans (hl j hj) (by rw [OrientedCmp.eq_symm heq]; rfl)
      cases hcj : cmp key (keys j) with
      | gt => exact .inl rfl
      | eq => exact .inr ⟨hdup, rfl⟩
      | lt => exact absurd hle (by rw [OrientedCmp.gt_of_lt hcj]; decide)
  · exact hi

/-- The search of `rbtree_put` ends at a node with an equal key or at a place for the key. -/
theorem descend_spec [TransCmp cmp] {keys : ℕ → K} {key : K} {k : List (Frame ℕ)} {c : Ordering}
    (hr : Rep t.links p s) (hk : Keyed cmp t keys s) (hfit : Fitting cmp t keys key k c) {fuel : ℕ}
    (hfuel : s.inorder.length ≤ fuel) :
    (∃ i ∈ s.inorder, t.descend cmp key fuel (ptr s) (above k) c = some (.equal i) ∧
      t.allowDuplicates = false ∧ cmp key (keys i) = .eq) ∨
    ∃ k' c', t.descend cmp key fuel (ptr s) (above k) c = some (.below (above k') c') ∧
      plug k' .nil = plug k s ∧ Fitting cmp t keys key k' c' := by
  induction s generalizing p k c fuel with
  | nil => exact .inr ⟨k, c, by cases fuel <;> rfl, rfl, hfit⟩
  | node e l i r ihl ihr =>
    obtain ⟨-, -, hleft, hright, hrl, hrr⟩ := hr
    obtain ⟨hi, hkl, hkr, hli, hir⟩ := hk.node
    rw [Shape.inorder_node, List.length_append, List.length_cons] at hfuel
    obtain ⟨fuel, rfl⟩ := Nat.exists_eq_succ_of_ne_zero (by omega : fuel ≠ 0)
    rw [ptr_node, RbTree.descend, hi, Shape.inorder_node]
    simp only [Option.bind_eq_bind, Option.bind_some]
    cases hc : cmp key (keys i) with
    | lt =>
      have hdown := ihl (k := ⟨.left, e, i, r⟩ :: k) hrl hkl (hfit.left hc hir)
        (by omega : l.inorder.length ≤ fuel)
      rw [if_neg (by simp), if_pos rfl, hleft]
      rcases hdown with ⟨j, hj, hrun, hrest⟩ | ⟨k', c', hrun, hrest⟩
      · exact .inl ⟨j, List.mem_append_left _ hj, hrun, hrest⟩
      · exact .inr ⟨k', c', hrun, hrest⟩
    | gt =>
      have hdown := ihr (k := ⟨.right, e, i, l⟩ :: k) hrr hkr (hfit.right (.inl hc) (by simp) hli)
        (by omega : r.inorder.length ≤ fuel) (c := .gt)
      rw [if_neg (by simp), if_neg (by simp), hright]
      rcases hdown with ⟨j, hj, hrun, hrest⟩ | ⟨k', c', hrun, hrest⟩
      · exact .inl ⟨j, List.mem_append_right _ (List.mem_cons_of_mem _ hj), hrun, hrest⟩
      · exact .inr ⟨k', c', hrun, hrest⟩
    | eq =>
      cases hdup : t.allowDuplicates with
      | false => exact .inl ⟨i, by simp, by simp, rfl, hc⟩
      | true =>
        have hdown := ihr (k := ⟨.right, e, i, l⟩ :: k) hrr hkr
          (hfit.right (.inr ⟨hdup, hc⟩) (by simp) hli) (by omega : r.inorder.length ≤ fuel)
          (c := .eq)
        rw [if_neg (by simp), if_neg (by simp), hright]
        rcases hdown with ⟨j, hj, hrun, hfalse, -⟩ | ⟨k', c', hrun, hrest⟩
        · exact absurd (hdup.symm.trans hfalse) (by simp)
        · exact .inr ⟨k', c', hrun, hrest⟩

/-! The entries that an `rbtree_t` shows: the nodes in order, with what they point to. The tree, the
list and the objects agree on them, and the searches are searches in them. -/

open RedBlack Std LinkedChain OrderedMultimap

variable {K V : Type} {cmp : K → K → Ordering} {t : RbTree K V}

/-! ## The list -/

namespace RbTree

variable (t : RbTree K V) (o v : Option ℕ) (i j : ℕ)

@[simp] theorem setAfter_next : (t.setAfter o v).next j = if o = some j then v else t.next j := by
  cases o with
  | none => rfl
  | some i => simp [setAfter, setNext, Function.update_apply, eq_comm]

@[simp] theorem setAfter_previous : (t.setAfter o v).previous = t.previous := by cases o <;> rfl

@[simp] theorem setAfter_head : (t.setAfter o v).head = if o = none then v else t.head := by
  cases o <;> rfl

@[simp] theorem setAfter_tail : (t.setAfter o v).tail = t.tail := by cases o <;> rfl

@[simp] theorem setBefore_previous :
    (t.setBefore o v).previous j = if o = some j then v else t.previous j := by
  cases o with
  | none => rfl
  | some i => simp [setBefore, setPrevious, Function.update_apply, eq_comm]

@[simp] theorem setBefore_next : (t.setBefore o v).next = t.next := by cases o <;> rfl

@[simp] theorem setBefore_head : (t.setBefore o v).head = t.head := by cases o <;> rfl

@[simp] theorem setBefore_tail : (t.setBefore o v).tail = if o = none then v else t.tail := by
  cases o <;> rfl

/-- Only the list is changed. -/
def SameTree (t t' : RbTree K V) : Prop :=
  t'.links = t.links ∧ t'.object = t.object ∧ t'.size = t.size ∧ t'.unused = t.unused ∧
    t'.elementLimit = t.elementLimit ∧ t'.allowDuplicates = t.allowDuplicates

theorem sameTree_setAfter : SameTree t (t.setAfter o v) := by
  cases o <;> exact ⟨rfl, rfl, rfl, rfl, rfl, rfl⟩

theorem sameTree_setBefore : SameTree t (t.setBefore o v) := by
  cases o <;> exact ⟨rfl, rfl, rfl, rfl, rfl, rfl⟩

end RbTree

/-- Where the new node stands in the list: alone, before its parent or behind it. -/
inductive Beside (parent : Option ℕ) (comparison : Ordering) (xs ys : List ℕ) : Prop where
  | alone (hp : parent = none) (hx : xs = []) (hy : ys = [])
  | before (i : ℕ) (hp : parent = some i) (hc : comparison = .lt) (hy : ys.head? = some i)
  | behind (i : ℕ) (hp : parent = some i) (hc : comparison ≠ .lt) (hx : xs.getLast? = some i)

theorem attach_list {xs ys : List ℕ} {n : ℕ} {parent : Option ℕ} {comparison : Ordering}
    (h : Linked t.next t.previous t.head t.tail (xs ++ ys)) (hn : n ∉ xs ++ ys)
    (hnext : t.next n = none) (hprevious : t.previous n = none)
    (hb : Beside parent comparison xs ys) :
    Linked (t.attach n parent comparison).next (t.attach n parent comparison).previous
      (t.attach n parent comparison).head (t.attach n parent comparison).tail (xs ++ n :: ys) := by
  obtain ⟨hbefore, hafter⟩ := h.cut
  cases hb with
  | alone hp hx hy =>
    subst hp hx hy
    exact ⟨rfl, rfl, by simp, by simpa [RbTree.attach, Seg] using ⟨hprevious, hnext⟩⟩
  | before i hp hc hy =>
    subst hp
    have hin : i ≠ n := by
      rintro rfl
      exact hn (List.mem_append_right _ (List.mem_of_mem_head? hy))
    have hi := hbefore i hy
    apply h.splice hn
    · intro j
      simp [RbTree.attach, RbTree.setNext, RbTree.setPrevious, hc, hin.symm, hi, hy,
        Function.update_apply]
    · intro j
      simp [RbTree.attach, RbTree.setNext, RbTree.setPrevious, hc, hi, hy, hin.symm,
        Function.update_apply, eq_comm]
    · simp [RbTree.attach, RbTree.setNext, RbTree.setPrevious, hc, hin.symm, hi]
    · simp [RbTree.attach, RbTree.setNext, RbTree.setPrevious, hc, hy]
  | behind i hp hc hx =>
    subst hp
    have hin : i ≠ n := by
      rintro rfl
      exact hn (List.mem_append_left _ (List.mem_of_getLast? hx))
    have hi := hafter i hx
    apply h.splice hn
    · intro j
      simp [RbTree.attach, RbTree.setNext, RbTree.setPrevious, hc, hi, hx, hin.symm,
        Function.update_apply, eq_comm]
    · intro j
      simp [RbTree.attach, RbTree.setNext, RbTree.setPrevious, hc, hin.symm, hi, hx,
        Function.update_apply]
    · simp [RbTree.attach, RbTree.setNext, RbTree.setPrevious, hc, hx]
    · simp [RbTree.attach, RbTree.setNext, RbTree.setPrevious, hc, hin.symm, hi]

/-! ## The new node in the tree -/

/-- A new node is hung in at an open place. -/
theorem attach_whole {h : Links} {k : List (Frame ℕ)} {n : ℕ} (hw : Whole h (plug k .nil))
    (hn : n ∉ nodes k) :
    Whole (setSlot (((((h.setParent n none).setChild .left n none).setChild .right n none).setRed n
      true).setParent n (above k)) k (some n)) (plug k (.node true .nil n .nil)) := by
  obtain ⟨hk, -, hnk, -⟩ := whole_plug.mp hw
  rw [whole_plug]
  have hsame : ∀ i ∈ nodes k, i ≠ n := fun i hi heq => hn (heq ▸ hi)
  have hnew : RepPath (((((h.setParent n none).setChild .left n none).setChild .right n none).setRed n
      true).setParent n (above k)) none k := by
    apply hk.congr (by simp)
    intro i hi
    exact ⟨by simp [hsame i hi], by simp [hsame i hi], fun e => by simp [hsame i hi]⟩
  refine ⟨hnew.retarget hnk rfl fun i _ => ⟨rfl, rfl, fun _ => rfl⟩, ⟨by simp, by simp, ?_, ?_, trivial,
    trivial⟩, hnk, by simp, by simpa using hn⟩
  · simp [setSlot_child hn]
  · simp [setSlot_child hn]

/-! ## The entries -/

/-- The tree shows the entries of `s`. -/
structure Ok (cmp : K → K → Ordering) (t : RbTree K V) (s : State K V) : Prop where
  tree : ∃ T, Whole t.links T ∧ T.Valid ∧ T.inorder = s.entries.map Entry.name
  list : Linked t.next t.previous t.head t.tail (s.entries.map Entry.name)
  object : ∀ e ∈ s.entries, t.object e.name = some (e.key, e.value)
  size_eq : t.size = s.entries.length
  unused_eq : t.unused = s.created
  fresh : ∀ e ∈ s.entries, e.name < s.created
  sorted : Sorted cmp s.entries
  apart : t.allowDuplicates = false → Apart cmp s.entries

theorem ok_create (elementLimit : ℕ) (allowDuplicates : Bool) :
    Ok cmp (create K V elementLimit allowDuplicates) ⟨[], 0⟩ where
  tree := ⟨.nil, ⟨rfl, trivial, List.nodup_nil⟩, ⟨rfl, trivial, 0, rfl⟩, rfl⟩
  list := ⟨rfl, rfl, List.nodup_nil, trivial⟩
  object := by simp
  size_eq := rfl
  unused_eq := rfl
  fresh := by simp
  sorted := List.Pairwise.nil
  apart := fun _ => List.Pairwise.nil

/-- The key of a node, or `key` if there is no such node. -/
def keysOf (t : RbTree K V) (key : K) (i : ℕ) : K := (t.keyOf i).getD key

namespace Ok

variable {s : State K V} (h : Ok cmp t s)

include h

theorem keyOf_eq {e : Entry K V} (he : e ∈ s.entries) : t.keyOf e.name = some e.key := by
  rw [RbTree.keyOf, h.object e he]
  rfl

theorem keysOf_eq {e : Entry K V} (he : e ∈ s.entries) (key : K) : keysOf t key e.name = e.key := by
  rw [keysOf, h.keyOf_eq he]
  rfl

theorem nodup : (s.entries.map Entry.name).Nodup := h.list.nodup

theorem keyed {T : Shape ℕ} (hT : T.inorder = s.entries.map Entry.name) (key : K) :
    Keyed cmp t (keysOf t key) T := by
  constructor
  · intro i hi
    rw [hT, List.mem_map] at hi
    obtain ⟨e, he, rfl⟩ := hi
    rw [h.keysOf_eq he, h.keyOf_eq he]
  · rw [hT, List.pairwise_map]
    apply h.sorted.imp_of_mem
    intro a b ha hb hab
    rw [h.keysOf_eq ha, h.keysOf_eq hb]
    exact hab.isLE

theorem boundLoop_eq {key : K} {skip : Ordering → Bool}
    (hskip : ∀ a b, (cmp a b).isLE → skip (cmp b key) = true → skip (cmp a key) = true) :
    t.boundLoop cmp key skip t.fuel t.links.root none =
      some ((s.entries.find? fun e => !skip (cmp e.key key)).map Entry.name) := by
  obtain ⟨T, hw, -, hT⟩ := h.tree
  have hlen : T.inorder.length ≤ t.fuel := by
    rw [hT, List.length_map, RbTree.fuel, h.size_eq]
    exact Nat.le_succ _
  rw [hw.root, boundLoop_spec hskip hw.rep (h.keyed hT key) hlen, hT, List.find?_map, Option.or_none]
  congr 2
  apply List.find?_congr
  intro e he
  simp [h.keysOf_eq he]

theorem lowerBound_eq [TransCmp cmp] (key : K) : t.lowerBound cmp key =
    some ((s.entries.find? fun e => cmp e.key key ≠ .lt).map Entry.name) := by
  rw [RbTree.lowerBound, h.boundLoop_eq]
  · simp
  · intro a b hab hb
    have hlt := TransCmp.lt_of_isLE_of_lt hab (of_decide_eq_true hb)
    exact decide_eq_true hlt

theorem upperBound_eq [TransCmp cmp] (key : K) : t.upperBound cmp key =
    some ((s.entries.find? fun e => cmp e.key key = .gt).map Entry.name) := by
  rw [RbTree.upperBound, h.boundLoop_eq]
  · congr 3
    funext e
    cases cmp e.key key <;> rfl
  · exact fun a b hab hb => TransCmp.isLE_trans hab hb

/-- `rbtree_find` finds an entry with an equal key, if there is one. -/
theorem find_spec [TransCmp cmp] (key : K) :
    ∃ o, t.find cmp key = some o ∧
      (∀ i, o = some i → ∃ e ∈ s.entries, e.name = i ∧ cmp e.key key = .eq) ∧
      (o = none → ∀ e ∈ s.entries, cmp e.key key ≠ .eq) := by
  obtain ⟨T, hw, -, hT⟩ := h.tree
  have hlen : T.inorder.length ≤ t.fuel := by
    rw [hT, List.length_map, RbTree.fuel, h.size_eq]
    exact Nat.le_succ _
  obtain ⟨o, hrun, hsome, hnone⟩ := findLoop_spec key hw.rep (h.keyed hT key) hlen
  refine ⟨o, by rw [RbTree.find, hw.root, hrun], fun i hi => ?_, fun ho e he => ?_⟩
  · obtain ⟨hmem, heq⟩ := hsome i hi
    rw [hT, List.mem_map] at hmem
    obtain ⟨e, he, rfl⟩ := hmem
    rw [h.keysOf_eq he] at heq
    exact ⟨e, he, rfl, OrientedCmp.eq_symm heq⟩
  · have hne := hnone ho e.name (hT ▸ List.mem_map_of_mem he)
    rw [h.keysOf_eq he] at hne
    exact fun heq => hne (OrientedCmp.eq_symm heq)

end Ok

end Cstl.Rbtree
