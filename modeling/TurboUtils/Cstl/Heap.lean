import TurboUtils.Cstl.Sequence
import TurboUtils.Lib.Fallible
import TurboUtils.Lib.BinaryHeap

/-! `heap_t` refines a priority queue. Its storage is a function of the index; the generation, which
only iterators read, is left out. -/
namespace Cstl

open BinaryHeap PriorityQueue Sequence

/-- `heap_t` after its initialization. -/
structure Heap (α : Type*) where
  data : ℕ → α
  size : ℕ
  capacity : ℕ
  elementLimit : ℕ

namespace Heap

variable {α : Type*}

/-- `heap_initialize`; the storage has no elements yet. -/
def init (data : ℕ → α) (elementLimit : ℕ) : Heap α := ⟨data, 0, 0, elementLimit⟩

/-- What the copy of the element, the scratch element and the storage of a push fail with. -/
structure Faults where
  copy : Option Status
  scratch : Option Status
  storage : Option Status

section Operations

variable (cmp : α → α → Ordering) (h : Heap α)

/-- `heap_less`. -/
def less (left right : ℕ) : Bool := cmp (h.data left) (h.data right) = .lt

/-- `heap_swap`. -/
def swap (left right : ℕ) : Heap α :=
  if left = right then h
  else
    let scratch := h.data left
    let data := Function.update h.data left (h.data right)
    { h with data := Function.update data right scratch }

@[simp] theorem swap_size (left right : ℕ) : (h.swap left right).size = h.size := by
  unfold swap
  split_ifs <;> rfl

/-- `heap_sift_up`. -/
def siftUp (h : Heap α) (index : ℕ) : Heap α :=
  if _ : 0 < index then
    let parent := (index - 1) / 2
    if h.less cmp index parent then siftUp (h.swap index parent) parent else h
  else h
  termination_by index

def better (best child : ℕ) : ℕ := if child < h.size && h.less cmp child best then child else best

def best (index : ℕ) : ℕ :=
  let left := index * 2 + 1
  let right := left + 1
  h.better cmp (h.better cmp index left) right

theorem better_cases (best child : ℕ) : h.better cmp best child = best ∨
    child < h.size ∧ h.better cmp best child = child := by
  unfold better
  split_ifs with hless
  · rw [Bool.and_eq_true, decide_eq_true_eq] at hless
    exact Or.inr ⟨hless.1, rfl⟩
  · exact Or.inl rfl

theorem best_cases (index : ℕ) : h.best cmp index = index ∨
    h.best cmp index < h.size ∧ 0 < h.best cmp index ∧ parent (h.best cmp index) = index := by
  have hleft := h.better_cases cmp index (index * 2 + 1)
  have hright := h.better_cases cmp (h.better cmp index (index * 2 + 1)) (index * 2 + 1 + 1)
  unfold best parent
  dsimp only
  omega

/-- `heap_sift_down`. -/
def siftDown (h : Heap α) (index : ℕ) : Heap α :=
  if (sizeMax - 1) / 2 < index then h
  else if _ : h.best cmp index = index then h
  else siftDown (h.swap index (h.best cmp index)) (h.best cmp index)
  termination_by h.size - index
  decreasing_by
    obtain ⟨hsize, hpos, hup⟩ := (h.best_cases cmp index).resolve_left ‹_›
    have hlt := parent_lt hpos
    rw [swap_size]
    omega

/-- `heap_grow_to`; the elements keep their places. -/
def growTo (minimum : ℕ) (storage : Option Status) : Except Status (Heap α) :=
  if minimum ≤ h.capacity then .ok h
  else match nextCapacity h.elementLimit h.capacity minimum, storage with
    | .error status, _ => .error status
    | .ok _, some status => .error status
    | .ok capacity, none => .ok { h with capacity := capacity }

/-- `heap_push`. -/
def push (elem : α) (faults : Faults) : Except Status (Heap α) :=
  if h.elementLimit ≤ h.size then .error .capacityExceeded
  else match faults.copy, faults.scratch with
    | some status, _ => .error status
    | none, some status => .error status
    | none, none => (h.growTo (h.size + 1) faults.storage).map fun h =>
        let h := { h with data := Function.update h.data h.size elem, size := h.size + 1 }
        h.siftUp cmp (h.size - 1)

/-- `heap_pop`: the element that is taken, and the heap. -/
def pop (scratch : Option Status) : Except Status (α × Heap α) :=
  if h.size = 0 then .error .empty
  else match if 1 < h.size then scratch else none with
    | some status => .error status
    | none =>
        let elem := h.data 0
        let last := h.size - 1
        let data := if last ≠ 0 then Function.update h.data 0 (h.data last) else h.data
        let h := { h with data := data, size := last }
        .ok (elem, if h.size ≠ 0 then h.siftDown cmp 0 else h)

/-- `heap_clear`. -/
def clear : Heap α := if h.size ≠ 0 then { h with size := 0 } else h

end Operations

inductive Call (α : Type*) where
  | push (elem : α) (faults : Faults)
  | pop (scratch : Option Status)
  | clear

/-- A call that fails leaves the heap. -/
def step (cmp : α → α → Ordering) (h : Heap α) : Call α → Heap α × Outcome α
  | .push elem faults =>
      match h.push cmp elem faults with
      | .ok h => (h, .pushed elem)
      | .error _ => (h, .refused)
  | .pop scratch =>
      match h.pop cmp scratch with
      | .ok (elem, h) => (h, .popped elem)
      | .error _ => (h, .refused)
  | .clear => (h.clear, .cleared)

def run (cmp : α → α → Ordering) (h : Heap α) : List (Call α) → Heap α × List (Outcome α)
  | [] => (h, [])
  | call :: calls =>
      let (h, outcome) := h.step cmp call
      let (h, outcomes) := h.run cmp calls
      (h, outcome :: outcomes)

/-! ## Sifting -/

section Sifting

variable {cmp : α → α → Ordering} {h : Heap α} {index : ℕ}

theorem swap_data (h : Heap α) (left right : ℕ) :
    (h.swap left right).data = exchange h.data left right := by
  unfold swap
  funext k
  split_ifs with heq
  · rw [heq, exchange, Equiv.swap_self]
    rfl
  · by_cases hright : k = right
    · rw [hright, exchange_right]
      exact Function.update_self ..
    · by_cases hleft : k = left
      · rw [hleft, exchange_left]
        exact (Function.update_of_ne (hleft ▸ hright) _ _).trans (Function.update_self ..)
      · rw [exchange_of_ne _ hleft hright]
        exact (Function.update_of_ne hright _ _).trans (Function.update_of_ne hleft _ _)

structure Sifted (cmp : α → α → Ordering) (h h' : Heap α) : Prop where
  ordered : Ordered cmp h'.data h'.size
  elements : (elements h'.data h'.size).Perm (elements h.data h.size)
  size : h'.size = h.size
  capacity : h'.capacity = h.capacity
  elementLimit : h'.elementLimit = h.elementLimit

theorem Sifted.swap {left right : ℕ} {h' : Heap α} (hleft : left < h.size) (hright : right < h.size)
    (hsifted : Sifted cmp (h.swap left right) h') : Sifted cmp h h' := by
  have hfields : (h.swap left right).capacity = h.capacity ∧
      (h.swap left right).elementLimit = h.elementLimit := by
    unfold Heap.swap
    split_ifs <;> exact ⟨rfl, rfl⟩
  have hperm := hsifted.elements
  rw [swap_size, swap_data] at hperm
  exact ⟨hsifted.ordered, hperm.trans (elements_exchange _ hleft hright),
    hsifted.size.trans (h.swap_size left right), hsifted.capacity.trans hfields.1,
    hsifted.elementLimit.trans hfields.2⟩

variable [Std.TransCmp cmp]

theorem siftUp_sifted (hrising : Rising cmp h.data h.size index) (hindex : index < h.size) :
    Sifted cmp h (h.siftUp cmp index) := by
  fun_induction siftUp cmp h index with
  | case1 h index hpos parent hless ih =>
    rw [less, decide_eq_true_eq] at hless
    have hlt : parent < index := parent_lt hpos
    refine (ih ?_ ?_).swap hindex (hlt.trans hindex)
    · rw [swap_data, swap_size]
      exact hrising.up hpos hindex (isLE_of_eq_lt hless)
    · rw [swap_size]
      exact hlt.trans hindex
  | case2 h index hpos parent hless =>
    rw [less, decide_eq_true_eq] at hless
    exact ⟨hrising.ordered fun _ => isLE_of_ne_lt hless, .rfl, rfl, rfl, rfl⟩
  | case3 h index hpos =>
    exact ⟨hrising.ordered fun h => absurd h hpos, .rfl, rfl, rfl, rfl⟩

theorem better_le (best child : ℕ) :
    (cmp (h.data (h.better cmp best child)) (h.data best)).isLE ∧
      (child < h.size → (cmp (h.data (h.better cmp best child)) (h.data child)).isLE) := by
  unfold better
  split_ifs with hless
  · rw [Bool.and_eq_true, decide_eq_true_eq, less, decide_eq_true_eq] at hless
    exact ⟨isLE_of_eq_lt hless.2, fun _ => Std.ReflCmp.isLE_rfl⟩
  · refine ⟨Std.ReflCmp.isLE_rfl, fun hsize => isLE_of_ne_lt fun hlt => hless ?_⟩
    rw [Bool.and_eq_true, decide_eq_true_eq, less, decide_eq_true_eq]
    exact ⟨hsize, hlt⟩

theorem best_le (h : Heap α) (index : ℕ) :
    (cmp (h.data (h.best cmp index)) (h.data index)).isLE :=
  Std.TransCmp.isLE_trans (h.better_le _ _).1 (h.better_le _ _).1

theorem best_least {i : ℕ} (hpos : 0 < i) (hi : i < h.size) (hup : parent i = index) :
    (cmp (h.data (h.best cmp index)) (h.data i)).isLE := by
  rcases (parent_eq_iff hpos).1 hup with rfl | rfl
  · rw [Nat.mul_comm] at hi ⊢
    exact Std.TransCmp.isLE_trans (h.better_le _ _).1 ((h.better_le _ _).2 hi)
  · rw [Nat.mul_comm] at hi ⊢
    exact (h.better_le _ _).2 hi

theorem siftDown_sifted (hsinking : Sinking cmp h.data h.size index) (hindex : index < h.size)
    (hmax : h.size ≤ sizeMax) : Sifted cmp h (h.siftDown cmp index) := by
  fun_induction siftDown cmp h index with
  | case1 h index hlarge =>
    refine ⟨hsinking.ordered fun i hpos hi hup => ?_, .rfl, rfl, rfl, rfl⟩
    have hchild := (parent_eq_iff hpos).1 hup
    omega
  | case2 h index hlarge hbest =>
    refine ⟨hsinking.ordered fun i hpos hi hup => ?_, .rfl, rfl, rfl, rfl⟩
    have hleast : (cmp (h.data (h.best cmp index)) (h.data i)).isLE := best_least hpos hi hup
    rwa [hbest] at hleast
  | case3 h index hlarge hbest ih =>
    obtain ⟨hsize, hpos, hup⟩ := (h.best_cases cmp index).resolve_left hbest
    refine (ih ?_ ?_ ?_).swap hindex hsize
    · rw [swap_data, swap_size]
      exact hsinking.down hpos hsize hup (h.best_le index) fun i => best_least
    · rw [swap_size]
      exact hsize
    · rw [swap_size]
      exact hmax

end Sifting

/-! ## Operations -/

/-- What holds of a heap between two calls. -/
structure Valid (cmp : α → α → Ordering) (h : Heap α) : Prop where
  ordered : Ordered cmp h.data h.size
  size : h.size ≤ h.capacity
  capacity : h.capacity ≤ h.elementLimit
  limit : h.elementLimit ≤ sizeMax

def contents (h : Heap α) : Multiset α := elements h.data h.size

section Calls

variable {cmp : α → α → Ordering} {h h' : Heap α}

theorem growTo_ok {minimum : ℕ} {storage : Option Status} (hpos : 0 < minimum)
    (hgrow : h.growTo minimum storage = .ok h') (hcapacity : h.capacity ≤ h.elementLimit) :
    ∃ capacity, h' = { h with capacity := capacity } ∧ minimum ≤ capacity ∧
      capacity ≤ h.elementLimit := by
  unfold growTo at hgrow
  by_cases hle : minimum ≤ h.capacity
  · rw [if_pos hle] at hgrow
    cases hgrow
    exact ⟨h.capacity, rfl, hle, hcapacity⟩
  · rw [if_neg hle] at hgrow
    split at hgrow
    · cases hgrow
    · cases hgrow
    · rename_i capacity hnext
      cases hgrow
      exact ⟨capacity, rfl, nextCapacity_ok hpos hnext⟩

variable [Std.TransCmp cmp]

theorem push_ok (hvalid : h.Valid cmp) {elem : α} {faults : Faults}
    (hpush : h.push cmp elem faults = .ok h') :
    h'.Valid cmp ∧ h'.contents = elem ::ₘ h.contents ∧ h'.elementLimit = h.elementLimit := by
  unfold push at hpush
  by_cases hfull : h.elementLimit ≤ h.size
  · rw [if_pos hfull] at hpush
    cases hpush
  · rw [if_neg hfull] at hpush
    rcases faults with ⟨_ | copy, _ | scratch, storage⟩
    · obtain ⟨grown, hgrow, rfl⟩ := Fallible.map_eq_ok.1 hpush
      obtain ⟨capacity, rfl, hsize, hlimit⟩ := growTo_ok (Nat.succ_pos _) hgrow hvalid.capacity
      have hsifted := siftUp_sifted (h := ⟨Function.update h.data h.size elem, h.size + 1, capacity,
        h.elementLimit⟩) (hvalid.ordered.push elem) (Nat.lt_succ_self _)
      have hperm := hsifted.elements
      rw [elements_push] at hperm
      refine ⟨⟨hsifted.ordered, ?_, ?_, ?_⟩, ?_, hsifted.elementLimit⟩
      · exact (hsifted.size.trans_le hsize).trans hsifted.capacity.ge
      · exact (hsifted.capacity.trans_le hlimit).trans hsifted.elementLimit.ge
      · exact hsifted.elementLimit.trans_le hvalid.limit
      · exact Multiset.coe_eq_coe.2 (hperm.trans (List.perm_append_singleton _ _))
    · cases hpush
    · cases hpush
    · cases hpush

theorem pop_ok (hvalid : h.Valid cmp) {scratch : Option Status} {elem : α}
    (hpop : h.pop cmp scratch = .ok (elem, h')) :
    h'.Valid cmp ∧ h.contents = elem ::ₘ h'.contents ∧ (∀ y ∈ h'.contents, (cmp elem y).isLE) ∧
      h.size = h'.size + 1 ∧ h'.elementLimit = h.elementLimit := by
  obtain ⟨data, size, capacity, elementLimit⟩ := h
  obtain ⟨hordered, hsize, hcapacity, hlimit⟩ := hvalid
  dsimp only at hordered hsize hcapacity hlimit
  unfold pop at hpop
  cases size with
  | zero => cases hpop
  | succ last =>
    rw [if_neg (Nat.succ_ne_zero last)] at hpop
    dsimp only at hpop
    rw [Nat.add_sub_cancel] at hpop
    -- the root comes before all elements, and so before those that are left
    have hleast {y : α} {rest : Multiset α}
        (hcontents : (↑(elements data (last + 1)) : Multiset α) = data 0 ::ₘ rest) (hy : y ∈ rest) :
        (cmp (data 0) y).isLE := by
      have hmem : y ∈ (↑(elements data (last + 1)) : Multiset α) := by
        rw [hcontents]
        exact Multiset.mem_cons_of_mem hy
      obtain ⟨i, hi, rfl⟩ := mem_elements.1 (Multiset.mem_coe.1 hmem)
      exact hordered.root hi
    split at hpop
    · cases hpop
    · rcases Nat.eq_zero_or_pos last with rfl | hpos
      · cases hpop
        refine ⟨⟨fun i _ hi => absurd hi (Nat.not_lt_zero i), Nat.zero_le _, hcapacity, hlimit⟩,
          rfl, fun y hy => absurd hy (Multiset.notMem_zero y), rfl, rfl⟩
      · rw [if_pos hpos.ne', if_pos hpos.ne'] at hpop
        have hsinking := hordered.sink hpos fun h => absurd h (lt_irrefl 0)
        have hsifted := siftDown_sifted
          (h := ⟨Function.update data 0 (data last), last, capacity, elementLimit⟩) hsinking hpos
            ((Nat.le_succ last).trans (hsize.trans (hcapacity.trans hlimit)))
        generalize siftDown cmp _ 0 = sifted at hsifted hpop
        cases hpop
        have hcontents : (↑(elements data (last + 1)) : Multiset α) = data 0 ::ₘ contents h' :=
          Multiset.coe_eq_coe.2
            ((elements_replace data hpos).symm.trans (hsifted.elements.symm.cons _))
        refine ⟨⟨hsifted.ordered, ?_, ?_, ?_⟩, hcontents, fun y => hleast hcontents,
          congrArg Nat.succ hsifted.size.symm, hsifted.elementLimit⟩
        · exact (hsifted.size.trans_le ((Nat.le_succ last).trans hsize)).trans hsifted.capacity.ge
        · exact (hsifted.capacity.trans_le hcapacity).trans hsifted.elementLimit.ge
        · exact hsifted.elementLimit.trans_le hlimit

omit [Std.TransCmp cmp] in
theorem exists_pop (hsize : 0 < h.size) : ∃ elem h', h.pop cmp none = .ok (elem, h') := by
  unfold pop
  rw [if_neg hsize.ne', ite_self]
  exact ⟨_, _, rfl⟩

theorem step_valid (hvalid : h.Valid cmp) (call : Call α) :
    (h.step cmp call).1.Valid cmp ∧ (h.step cmp call).1.elementLimit = h.elementLimit ∧
      ∀ outcomes after, Runs cmp (h.step cmp call).1.contents outcomes after →
        Runs cmp h.contents ((h.step cmp call).2 :: outcomes) after := by
  cases call with
  | push elem faults =>
    rw [step]
    cases hpush : h.push cmp elem faults with
    | error status => exact ⟨hvalid, rfl, fun outcomes after => .refused⟩
    | ok h' =>
      obtain ⟨hvalid', hcontents, hlimit⟩ := push_ok hvalid hpush
      exact ⟨hvalid', hlimit, fun outcomes after hruns => .pushed (hcontents ▸ hruns)⟩
  | pop scratch =>
    rw [step]
    cases hpop : h.pop cmp scratch with
    | error status => exact ⟨hvalid, rfl, fun outcomes after => .refused⟩
    | ok popped =>
      obtain ⟨elem, h'⟩ := popped
      obtain ⟨hvalid', hcontents, hleast, -, hlimit⟩ := pop_ok hvalid hpop
      refine ⟨hvalid', hlimit, fun outcomes after hruns => ?_⟩
      rw [hcontents]
      exact .popped hleast hruns
  | clear =>
    change h.clear.Valid cmp ∧ h.clear.elementLimit = h.elementLimit ∧ ∀ outcomes after,
      Runs cmp h.clear.contents outcomes after → Runs cmp h.contents (.cleared :: outcomes) after
    unfold clear
    split_ifs with hsize
    · exact ⟨⟨fun i _ hi => absurd hi (Nat.not_lt_zero i), Nat.zero_le _, hvalid.capacity,
        hvalid.limit⟩, rfl, fun outcomes after => .cleared⟩
    · refine ⟨hvalid, rfl, fun outcomes after hruns => ?_⟩
      have hcontents : h.contents = 0 := by
        rw [contents, not_not.1 hsize]
        rfl
      rw [hcontents] at hruns
      exact .cleared hruns

theorem run_valid (hvalid : h.Valid cmp) (calls : List (Call α)) :
    (h.run cmp calls).1.Valid cmp ∧ (h.run cmp calls).1.elementLimit = h.elementLimit ∧
      Runs cmp h.contents (h.run cmp calls).2 (h.run cmp calls).1.contents := by
  induction calls generalizing h with
  | nil => exact ⟨hvalid, rfl, .nil _⟩
  | cons call calls ih =>
    obtain ⟨hstep, hlimit, hruns⟩ := step_valid hvalid call
    obtain ⟨hrest, hlimit', hruns'⟩ := ih hstep
    exact ⟨hrest, hlimit'.trans hlimit, hruns _ _ hruns'⟩

theorem run_pops (hvalid : h.Valid cmp) : ∃ xs : List α,
    (h.run cmp (List.replicate h.size (.pop none))).2 = xs.map .popped ∧
      (h.run cmp (List.replicate h.size (.pop none))).1.size = 0 := by
  induction hn : h.size generalizing h with
  | zero => exact ⟨[], rfl, hn⟩
  | succ n ih =>
    obtain ⟨elem, h', hpop⟩ : ∃ elem h', h.pop cmp none = .ok (elem, h') :=
      exists_pop (by omega)
    obtain ⟨hvalid', -, -, hsize, -⟩ := pop_ok hvalid hpop
    obtain ⟨xs, hxs, hzero⟩ := ih hvalid' (by omega)
    have hstep : h.step cmp (.pop none) = (h', .popped elem) := by rw [step, hpop]
    refine ⟨elem :: xs, ?_, ?_⟩
    · rw [List.replicate_succ, run, hstep, List.map_cons, ← hxs]
    · rw [List.replicate_succ, run, hstep]
      exact hzero

end Calls

end Heap

end Cstl
