import Mathlib.Data.List.Nodup
import Mathlib.Data.List.Range
import Mathlib.Data.Multiset.Basic
import Mathlib.Logic.Equiv.Basic
import Mathlib.Tactic.Common

/-! The runs of a priority queue: a bag of which a least element is taken. -/
namespace PriorityQueue

inductive Outcome (α : Type*) where
  | pushed (x : α)
  | popped (x : α)
  | cleared
  | refused
  deriving DecidableEq, Repr

variable {α : Type*} (cmp : α → α → Ordering)

inductive Runs : Multiset α → List (Outcome α) → Multiset α → Prop
  | nil (bag : Multiset α) : Runs bag [] bag
  | pushed {x : α} {bag after : Multiset α} {outcomes : List (Outcome α)}
      (h : Runs (x ::ₘ bag) outcomes after) : Runs bag (.pushed x :: outcomes) after
  | popped {x : α} {bag after : Multiset α} {outcomes : List (Outcome α)}
      (hleast : ∀ y ∈ bag, (cmp x y).isLE) (h : Runs bag outcomes after) :
      Runs (x ::ₘ bag) (.popped x :: outcomes) after
  | cleared {bag after : Multiset α} {outcomes : List (Outcome α)} (h : Runs 0 outcomes after) :
      Runs bag (.cleared :: outcomes) after
  | refused {bag after : Multiset α} {outcomes : List (Outcome α)} (h : Runs bag outcomes after) :
      Runs bag (.refused :: outcomes) after

variable {cmp}

theorem Runs.sorted {xs : List α} {bag : Multiset α}
    (h : Runs cmp bag (xs.map .popped) 0) :
    xs.Pairwise (fun x y => (cmp x y).isLE) ∧ (xs : Multiset α) = bag := by
  induction xs generalizing bag with
  | nil =>
    cases h
    exact ⟨.nil, rfl⟩
  | cons x xs ih =>
    rw [List.map_cons] at h
    cases h with
    | popped hleast h =>
      obtain ⟨hsorted, rfl⟩ := ih h
      exact ⟨List.pairwise_cons.2 ⟨fun y hy => hleast y hy, hsorted⟩, rfl⟩

end PriorityQueue

/-! Binary heaps in an array: the heap order, the two orders with one place to mend, and how a swap
moves that place. -/
namespace BinaryHeap

variable {α : Type*}

def parent (i : ℕ) : ℕ := (i - 1) / 2

theorem parent_lt {i : ℕ} (h : 0 < i) : parent i < i := by
  unfold parent
  omega

theorem parent_eq_iff {i p : ℕ} (h : 0 < i) : parent i = p ↔ i = 2 * p + 1 ∨ i = 2 * p + 2 := by
  unfold parent
  omega

def exchange (f : ℕ → α) (i j : ℕ) : ℕ → α := f ∘ Equiv.swap i j

theorem exchange_left (f : ℕ → α) (i j : ℕ) : exchange f i j i = f j :=
  congrArg f (Equiv.swap_apply_left i j)

theorem exchange_right (f : ℕ → α) (i j : ℕ) : exchange f i j j = f i :=
  congrArg f (Equiv.swap_apply_right i j)

theorem exchange_of_ne (f : ℕ → α) {i j k : ℕ} (hi : k ≠ i) (hj : k ≠ j) :
    exchange f i j k = f k := congrArg f (Equiv.swap_apply_of_ne_of_ne hi hj)

def elements (f : ℕ → α) (n : ℕ) : List α := (List.range n).map f

theorem mem_elements {f : ℕ → α} {n : ℕ} {x : α} : x ∈ elements f n ↔ ∃ i < n, f i = x := by
  simp [elements]

theorem elements_succ (f : ℕ → α) (n : ℕ) : elements f (n + 1) = elements f n ++ [f n] := by
  simp [elements, List.range_succ]

theorem elements_congr {f g : ℕ → α} {n : ℕ} (h : ∀ i < n, f i = g i) :
    elements f n = elements g n :=
  List.map_congr_left fun i hi => h i (List.mem_range.1 hi)

theorem elements_exchange (f : ℕ → α) {i j n : ℕ} (hi : i < n) (hj : j < n) :
    (elements (exchange f i j) n).Perm (elements f n) := by
  have hlt (k : ℕ) (hk : k < n) : Equiv.swap i j k < n := by
    rw [Equiv.swap_apply_def]
    split_ifs <;> assumption
  have hrange : ((List.range n).map (Equiv.swap i j)).Perm (List.range n) := by
    refine (List.perm_ext_iff_of_nodup (List.nodup_range.map (Equiv.swap i j).injective)
      List.nodup_range).2 fun k => ?_
    rw [List.mem_map, List.mem_range]
    constructor
    · rintro ⟨k, hk, rfl⟩
      exact hlt k (List.mem_range.1 hk)
    · exact fun hk => ⟨Equiv.swap i j k, List.mem_range.2 (hlt k hk), Equiv.swap_apply_self i j k⟩
  rw [elements, exchange, ← List.map_map]
  exact hrange.map f

theorem elements_push (f : ℕ → α) (n : ℕ) (x : α) :
    elements (Function.update f n x) (n + 1) = elements f n ++ [x] := by
  rw [elements_succ, Function.update_self]
  congr 1
  exact elements_congr fun i hi => Function.update_of_ne hi.ne _ _

theorem elements_replace (f : ℕ → α) {hole n : ℕ} (hhole : hole < n) :
    (f hole :: elements (Function.update f hole (f n)) n).Perm (elements f (n + 1)) := by
  have hrest : elements (exchange f hole n) n = elements (Function.update f hole (f n)) n := by
    refine elements_congr fun i hi => ?_
    by_cases heq : i = hole
    · rw [heq, exchange_left, Function.update_self]
    · rw [exchange_of_ne f heq hi.ne, Function.update_of_ne heq]
  have hperm := elements_exchange f (Nat.lt_succ_of_lt hhole) (Nat.lt_succ_self n)
  rw [elements_succ, exchange_right, hrest] at hperm
  exact (List.perm_append_singleton _ _).symm.trans hperm

/-! ## Orders -/

section Order

variable (cmp : α → α → Ordering) (f : ℕ → α) (n hole : ℕ)

def Ordered : Prop := ∀ i, 0 < i → i < n → (cmp (f (parent i)) (f i)).isLE

/-- All pairs are in order but the hole with its parent, which is in order with the children of the
hole. -/
structure Rising : Prop where
  pairs : ∀ i, 0 < i → i < n → i ≠ hole → (cmp (f (parent i)) (f i)).isLE
  around : 0 < hole → ∀ i, 0 < i → i < n → parent i = hole →
    (cmp (f (parent hole)) (f i)).isLE

/-- All pairs are in order but the hole with its children, which are in order with the parent of the
hole. -/
structure Sinking : Prop where
  pairs : ∀ i, 0 < i → i < n → parent i ≠ hole → (cmp (f (parent i)) (f i)).isLE
  around : 0 < hole → ∀ i, 0 < i → i < n → parent i = hole →
    (cmp (f (parent hole)) (f i)).isLE

variable {cmp f n hole} [Std.TransCmp cmp]

theorem isLE_of_ne_lt {a b : α} (h : cmp b a ≠ .lt) : (cmp a b).isLE := by
  rw [show cmp a b = (cmp b a).swap from Std.OrientedCmp.eq_swap, Ordering.isLE_swap]
  cases hcmp : cmp b a
  · exact absurd hcmp h
  · rfl
  · rfl

omit [Std.TransCmp cmp] in
theorem isLE_of_eq_lt {a b : α} (h : cmp a b = .lt) : (cmp a b).isLE := by
  rw [h]
  rfl

theorem Ordered.root (h : Ordered cmp f n) {i : ℕ} (hi : i < n) : (cmp (f 0) (f i)).isLE := by
  induction i using Nat.strong_induction_on with
  | _ i ih =>
    rcases Nat.eq_zero_or_pos i with rfl | hpos
    · exact Std.ReflCmp.isLE_rfl
    · exact Std.TransCmp.isLE_trans (ih _ (parent_lt hpos) ((parent_lt hpos).trans hi))
        (h i hpos hi)

omit [Std.TransCmp cmp] in
theorem Ordered.congr {g : ℕ → α} (h : Ordered cmp f n) (heq : ∀ i < n, g i = f i) :
    Ordered cmp g n := by
  intro i hpos hi
  rw [heq i hi, heq _ ((parent_lt hpos).trans hi)]
  exact h i hpos hi

/-! ## Upwards -/

omit [Std.TransCmp cmp] in
theorem Rising.ordered (h : Rising cmp f n hole)
    (hstop : 0 < hole → (cmp (f (parent hole)) (f hole)).isLE) : Ordered cmp f n := by
  intro i hpos hi
  by_cases heq : i = hole
  · rw [heq] at hpos ⊢
    exact hstop hpos
  · exact h.pairs i hpos hi heq

/-- The hole and its parent change places. -/
theorem Rising.up (h : Rising cmp f n hole) (hpos : 0 < hole) (hn : hole < n)
    (hle : (cmp (f hole) (f (parent hole))).isLE) :
    Rising cmp (exchange f hole (parent hole)) n (parent hole) := by
  have hlt := parent_lt hpos
  constructor
  · intro i hi hin hne
    by_cases heq : i = hole
    · rw [heq, exchange_left, exchange_right]
      exact hle
    · rw [exchange_of_ne f heq hne]
      by_cases hup : parent i = hole
      · rw [hup, exchange_left]
        exact h.around hpos i hi hin hup
      · by_cases hbrother : parent i = parent hole
        · rw [hbrother, exchange_right]
          refine Std.TransCmp.isLE_trans hle ?_
          rw [← hbrother]
          exact h.pairs i hi hin heq
        · rw [exchange_of_ne f hup hbrother]
          exact h.pairs i hi hin heq
  · intro hparent i hi hin hup
    have hgrand := parent_lt hparent
    have htop := h.pairs (parent hole) hparent (hlt.trans hn) hlt.ne
    rw [exchange_of_ne f (hgrand.trans hlt).ne hgrand.ne]
    by_cases heq : i = hole
    · rw [heq, exchange_left]
      exact htop
    · have hne : i ≠ parent hole := by
        rintro rfl
        exact absurd hup hgrand.ne
      rw [exchange_of_ne f heq hne]
      refine Std.TransCmp.isLE_trans htop ?_
      rw [← hup]
      exact h.pairs i hi hin heq

/-! ## Downwards -/

omit [Std.TransCmp cmp] in
theorem Sinking.ordered (h : Sinking cmp f n hole)
    (hstop : ∀ i, 0 < i → i < n → parent i = hole → (cmp (f hole) (f i)).isLE) :
    Ordered cmp f n := by
  intro i hpos hi
  by_cases heq : parent i = hole
  · rw [heq]
    exact hstop i hpos hi heq
  · exact h.pairs i hpos hi heq

omit [Std.TransCmp cmp] in
/-- The hole and the first of its children change places. -/
theorem Sinking.down (h : Sinking cmp f n hole) {best : ℕ} (hpos : 0 < best) (hn : best < n)
    (hbest : parent best = hole) (hle : (cmp (f best) (f hole)).isLE)
    (hleast : ∀ i, 0 < i → i < n → parent i = hole → (cmp (f best) (f i)).isLE) :
    Sinking cmp (exchange f hole best) n best := by
  have hlt : hole < best := hbest ▸ parent_lt hpos
  constructor
  · intro i hi hin hne
    by_cases hup : parent i = hole
    · rw [hup, exchange_left]
      by_cases heq : i = best
      · rw [heq, exchange_right]
        exact hle
      · have hhole : i ≠ hole := by
          rintro rfl
          exact absurd hup (parent_lt hi).ne
        rw [exchange_of_ne f hhole heq]
        exact hleast i hi hin hup
    · rw [exchange_of_ne f hup hne]
      by_cases hhole : i = hole
      · rw [hhole, exchange_left]
        rw [hhole] at hi
        exact h.around hi best hpos hn hbest
      · by_cases heq : i = best
        · rw [heq] at hup
          exact absurd hbest hup
        · rw [exchange_of_ne f hhole heq]
          exact h.pairs i hi hin hup
  · intro _ i hi hin hup
    have hgrand : best < i := hup ▸ parent_lt hi
    rw [hbest, exchange_left, exchange_of_ne f (hlt.trans hgrand).ne' hgrand.ne']
    have hpair := h.pairs i hi hin (by rw [hup]; exact hlt.ne')
    rwa [hup] at hpair

/-! ## Changes of an ordered array -/

omit [Std.TransCmp cmp] in
theorem Ordered.push (h : Ordered cmp f n) (x : α) : Rising cmp (Function.update f n x) (n + 1) n := by
  constructor
  · intro i hpos hi hne
    have hlt := parent_lt hpos
    rw [Function.update_of_ne hne, Function.update_of_ne (by omega)]
    exact h i hpos (by omega)
  · intro _ i hpos hi hup
    have hlt := parent_lt hpos
    omega

/-- The last element replaces another one, before whose parent it does not come. -/
theorem Ordered.sink (h : Ordered cmp f (n + 1)) (hhole : hole < n)
    (hstop : 0 < hole → cmp (f n) (f (parent hole)) ≠ .lt) :
    Sinking cmp (Function.update f hole (f n)) n hole := by
  constructor
  · intro i hpos hi hne
    rw [Function.update_of_ne hne]
    by_cases heq : i = hole
    · rw [heq, Function.update_self]
      rw [heq] at hpos
      exact isLE_of_ne_lt (hstop hpos)
    · rw [Function.update_of_ne heq]
      exact h i hpos (by omega)
  · intro hpos i hi hin hup
    have hlt := parent_lt hi
    have habove := parent_lt hpos
    rw [Function.update_of_ne habove.ne, Function.update_of_ne (by omega)]
    refine Std.TransCmp.isLE_trans (h hole hpos (by omega)) ?_
    rw [← hup]
    exact h i hi (by omega)

/-- The last element replaces another one, before whose parent it comes. -/
theorem Ordered.rise (h : Ordered cmp f (n + 1)) (hpos : 0 < hole) (hhole : hole < n)
    (hless : cmp (f n) (f (parent hole)) = .lt) :
    Rising cmp (Function.update f hole (f n)) n hole := by
  have habove := parent_lt hpos
  constructor
  · intro i hi hin hne
    rw [Function.update_of_ne hne]
    by_cases hup : parent i = hole
    · rw [hup, Function.update_self]
      refine Std.TransCmp.isLE_trans (isLE_of_eq_lt hless) ?_
      refine Std.TransCmp.isLE_trans (h hole hpos (by omega)) ?_
      rw [← hup]
      exact h i hi (by omega)
    · rw [Function.update_of_ne hup]
      exact h i hi (by omega)
  · intro _ i hi hin hup
    have hlt := parent_lt hi
    rw [Function.update_of_ne habove.ne, Function.update_of_ne (by omega)]
    refine Std.TransCmp.isLE_trans (h hole hpos (by omega)) ?_
    rw [← hup]
    exact h i hi (by omega)

end Order

end BinaryHeap
