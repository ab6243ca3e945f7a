import TurboUtils.Cstl.Sequence
import TurboUtils.Lib.RingBuffer
import TurboUtils.Lib.Fallible

/-! `deque_t` refines a bounded double-ended queue. Its storage is a function of the place; the
generation, which only iterators read, is left out. -/
namespace Cstl

open RingBuffer BoundedDeque Sequence

/-- `deque_t` after its initialization. -/
structure Deque (α : Type*) where
  data : ℕ → α
  head : ℕ
  size : ℕ
  capacity : ℕ
  elemStride : ℕ
  elemAlign : ℕ
  elementLimit : ℕ

namespace Deque

variable {α : Type*}

/-- `deque_initialize`; the storage has no elements yet. -/
def init (data : ℕ → α) (elemSize elemAlign elementLimit : ℕ) : Except Status (Deque α) :=
  match stride elemSize elemAlign with
  | .error status => .error status
  | .ok step => .ok ⟨data, 0, 0, 0, step, elemAlign, elementLimit⟩

/-- A status with its cause: the call, or the memory it finds. -/
inductive Failure where
  | call (status : Status)
  | memory (status : Status)
  deriving DecidableEq, Repr

section Operations

variable (d : Deque α)

/-- `deque_physical`. -/
def physical (index : ℕ) : ℕ := (d.head + index) % 2 ^ 64 % d.capacity

/-- `deque_grow_to`. -/
def growTo (minimum : ℕ) (memory : Memory α) : Except Failure (Deque α) :=
  if minimum ≤ d.capacity then .ok d
  else match nextCapacity d.elementLimit d.capacity minimum with
    | .error status => .error (.call status)
    | .ok capacity =>
        match allocate memory capacity d.elemStride d.elemAlign with
        | some status => .error (.memory status)
        | none => .ok { d with
            data := fun index =>
              if index < d.size then d.data (d.physical index) else memory.block index
            capacity := capacity
            head := 0 }

/-- `deque_prepare_copy`: what it fails with. -/
def prepareCopy (memory : Memory α) : Option Status :=
  match allocate memory 1 d.elemStride d.elemAlign with
  | some status => some status
  | none => memory.copy

def prepare (memory : Memory α) : Except Failure (Deque α) :=
  if d.elementLimit ≤ d.size then .error (.call .capacityExceeded)
  else match d.prepareCopy memory with
    | some status => .error (.memory status)
    | none => d.growTo (d.size + 1) memory

/-- `deque_push_back`. -/
def pushBack (elem : α) (memory : Memory α) : Except Failure (Deque α) :=
  (d.prepare memory).map fun d =>
    { d with data := Function.update d.data (d.physical d.size) elem, size := d.size + 1 }

/-- `deque_push_front`. -/
def pushFront (elem : α) (memory : Memory α) : Except Failure (Deque α) :=
  (d.prepare memory).map fun d =>
    let head := if d.head = 0 then d.capacity - 1 else d.head - 1
    { d with data := Function.update d.data head elem, head := head, size := d.size + 1 }

/-- `deque_pop_back`: the element, and the deque. -/
def popBack : Except Failure (α × Deque α) :=
  if d.size = 0 then .error (.call .empty)
  else
    let elem := d.data (d.physical (d.size - 1))
    let d := { d with size := d.size - 1 }
    .ok (elem, if d.size = 0 then { d with head := 0 } else d)

/-- `deque_pop_front`: the element, and the deque. -/
def popFront : Except Failure (α × Deque α) :=
  if d.size = 0 then .error (.call .empty)
  else
    let elem := d.data d.head
    let d := { d with head := (d.head + 1) % 2 ^ 64 % d.capacity, size := d.size - 1 }
    .ok (elem, if d.size = 0 then { d with head := 0 } else d)

/-- `deque_set`. -/
def set (index : ℕ) (elem : α) (memory : Memory α) : Except Failure (Deque α) :=
  if d.size ≤ index then .error (.call .invalidArgument)
  else match d.prepareCopy memory with
    | some status => .error (.memory status)
    | none => .ok { d with data := Function.update d.data (d.physical index) elem }

/-- `deque_clear`. -/
def clear : Deque α := if d.size ≠ 0 then { d with size := 0, head := 0 } else d

/-- `deque_at`. -/
def at? (index : ℕ) : Option α :=
  if index < d.size then some (d.data (d.physical index)) else none

/-- `deque_front`. -/
def front : Option α := if d.size ≠ 0 then some (d.data d.head) else none

/-- `deque_back`. -/
def back : Option α := if d.size ≠ 0 then some (d.data (d.physical (d.size - 1))) else none

end Operations

structure Call (α : Type*) where
  operation : Operation α
  memory : Memory α

def perform (d : Deque α) (call : Call α) : Except Failure (Deque α × Option α) :=
  match call.operation with
  | .pushBack x => (d.pushBack x call.memory).map fun d => (d, none)
  | .pushFront x => (d.pushFront x call.memory).map fun d => (d, none)
  | .popBack => d.popBack.map fun (x, d) => (d, some x)
  | .popFront => d.popFront.map fun (x, d) => (d, some x)
  | .set index x => (d.set index x call.memory).map fun d => (d, none)
  | .reserve capacity => (d.growTo capacity call.memory).map fun d => (d, none)
  | .clear => .ok (d.clear, none)

/-- A call that fails leaves the deque. -/
def step (d : Deque α) (call : Call α) : Deque α × Outcome α :=
  match d.perform call with
  | .ok (d, out) => (d, .done out)
  | .error (.call _) => (d, .refused)
  | .error (.memory _) => (d, .starved)

def run (d : Deque α) : List (Call α) → Deque α × List (Operation α × Outcome α)
  | [] => (d, [])
  | call :: calls =>
      let (d, outcome) := d.step call
      let (d, log) := d.run calls
      (d, (call.operation, outcome) :: log)

/-! ## Contents -/

/-- What holds of a deque between two calls. -/
structure Valid (d : Deque α) : Prop where
  size : d.size ≤ d.capacity
  capacity : d.capacity ≤ d.elementLimit
  bound : d.capacity ≤ ptrdiffMax
  head : d.head = 0 ∨ d.head < d.capacity
  stride : 0 < d.elemStride

def contents (d : Deque α) : List α := window d.data d.capacity d.head d.size

variable {d d' : Deque α}

@[simp] theorem length_contents : d.contents.length = d.size := length_window

theorem Valid.physical_eq (h : d.Valid) {index : ℕ} (hindex : index ≤ d.capacity) :
    d.physical index = slot d.capacity d.head index := by
  have hbound := h.bound
  have hhead := h.head
  unfold ptrdiffMax at hbound
  unfold physical slot
  rw [Nat.mod_eq_of_lt (a := d.head + index) (by omega)]

theorem Valid.head_lt (h : d.Valid) (hpos : 0 < d.capacity) : d.head < d.capacity :=
  h.head.elim (fun hzero => hzero ▸ hpos) id

theorem Valid.getElem?_contents (h : d.Valid) (index : ℕ) : d.contents[index]? = d.at? index := by
  rw [contents, getElem?_window, at?]
  split_ifs with hindex
  · rw [h.physical_eq (hindex.le.trans h.size)]
  · rfl

theorem Valid.head?_contents (h : d.Valid) : d.contents.head? = d.front := by
  rw [List.head?_eq_getElem?, h.getElem?_contents, at?, front]
  by_cases hsize : d.size = 0
  · rw [if_neg (by omega), if_neg (by omega)]
  · have hpos : 0 < d.capacity := by
      have hle := h.size
      omega
    rw [if_pos (Nat.pos_of_ne_zero hsize), if_pos hsize, h.physical_eq (Nat.zero_le _),
      slot_zero (h.head_lt hpos)]

theorem Valid.getLast?_contents (h : d.Valid) : d.contents.getLast? = d.back := by
  rw [List.getLast?_eq_getElem?, h.getElem?_contents, length_contents, at?, back]
  by_cases hsize : d.size = 0
  · rw [if_neg (by omega), if_neg (by omega)]
  · rw [if_pos (by omega), if_pos hsize]

/-! ## Growth -/

structure Grown (d d' : Deque α) (minimum : ℕ) : Prop where
  valid : d'.Valid
  contents : d'.contents = d.contents
  size : d'.size = d.size
  elementLimit : d'.elementLimit = d.elementLimit
  capacity : minimum ≤ d'.capacity

theorem growTo_ok {minimum : ℕ} {memory : Memory α} (hvalid : d.Valid)
    (h : d.growTo minimum memory = .ok d') : d.Grown d' minimum := by
  unfold growTo at h
  by_cases hle : minimum ≤ d.capacity
  · rw [if_pos hle] at h
    cases h
    exact ⟨hvalid, rfl, rfl, rfl, hle⟩
  · rw [if_neg hle] at h
    cases hnext : nextCapacity d.elementLimit d.capacity minimum with
    | error status =>
      rw [hnext] at h
      cases h
    | ok capacity =>
      rw [hnext] at h
      dsimp only at h
      obtain ⟨hminimum, hlimit⟩ := nextCapacity_ok (by omega) hnext
      split at h
      · cases h
      · rename_i hallocate
        cases h
        have hsize := hvalid.size
        refine ⟨⟨?_, hlimit, allocate_bound hvalid.stride hallocate, Or.inl rfl, hvalid.stride⟩, ?_,
          rfl, rfl, hminimum⟩
        · change d.size ≤ capacity
          omega
        · refine List.map_congr_left fun i hi => ?_
          have hi : i < d.size := List.mem_range.1 hi
          have hslot : slot capacity 0 i = i := by
            rw [slot, Nat.zero_add, Nat.mod_eq_of_lt (by omega)]
          dsimp only
          rw [hslot, if_pos hi, hvalid.physical_eq (by omega)]

theorem growTo_call {minimum : ℕ} {memory : Memory α} {status : Status}
    (h : d.growTo minimum memory = .error (.call status)) : d.elementLimit < minimum := by
  unfold growTo at h
  by_cases hle : minimum ≤ d.capacity
  · rw [if_pos hle] at h
    cases h
  · rw [if_neg hle] at h
    cases hnext : nextCapacity d.elementLimit d.capacity minimum with
    | error status => exact nextCapacity_error hnext
    | ok capacity =>
      rw [hnext] at h
      dsimp only at h
      split at h <;> cases h

theorem prepare_ok {memory : Memory α} (hvalid : d.Valid) (h : d.prepare memory = .ok d') :
    d.size < d.elementLimit ∧ d.Grown d' (d.size + 1) := by
  unfold prepare at h
  by_cases hfull : d.elementLimit ≤ d.size
  · rw [if_pos hfull] at h
    cases h
  · rw [if_neg hfull] at h
    split at h
    · cases h
    · exact ⟨not_le.1 hfull, growTo_ok hvalid h⟩

theorem prepare_call {memory : Memory α} {status : Status}
    (h : d.prepare memory = .error (.call status)) : d.elementLimit ≤ d.size := by
  unfold prepare at h
  by_contra hfull
  rw [if_neg hfull] at h
  split at h
  · cases h
  · exact hfull (Nat.le_of_lt_succ (growTo_call h))

/-! ## Operations -/

theorem pushBack_ok {elem : α} {memory : Memory α} (hvalid : d.Valid)
    (h : d.pushBack elem memory = .ok d') : d'.Valid ∧ d.size < d.elementLimit ∧
      d'.contents = d.contents ++ [elem] ∧ d'.elementLimit = d.elementLimit := by
  unfold pushBack at h
  cases hprepare : d.prepare memory with
  | error failure =>
    rw [hprepare] at h
    cases h
  | ok grown =>
    obtain ⟨hroom, hgrown, hcontents, hsize, hlimit, hcapacity⟩ := prepare_ok hvalid hprepare
    rw [hprepare] at h
    cases h
    rw [← hsize] at hcapacity
    have hphysical := hgrown.physical_eq hgrown.size
    refine ⟨⟨hcapacity, hgrown.capacity, hgrown.bound, hgrown.head, hgrown.stride⟩, hroom, ?_,
      hlimit⟩
    rw [← hcontents]
    dsimp only
    rw [hphysical]
    exact window_pushBack hcapacity elem

theorem pushFront_ok {elem : α} {memory : Memory α} (hvalid : d.Valid)
    (h : d.pushFront elem memory = .ok d') : d'.Valid ∧ d.size < d.elementLimit ∧
      d'.contents = elem :: d.contents ∧ d'.elementLimit = d.elementLimit := by
  unfold pushFront at h
  cases hprepare : d.prepare memory with
  | error failure =>
    rw [hprepare] at h
    cases h
  | ok grown =>
    obtain ⟨hroom, hgrown, hcontents, hsize, hlimit, hcapacity⟩ := prepare_ok hvalid hprepare
    rw [hprepare] at h
    cases h
    rw [← hsize] at hcapacity
    have hhead := hgrown.head_lt (Nat.zero_lt_of_lt hcapacity)
    have hfront : (if grown.head = 0 then grown.capacity - 1 else grown.head - 1) <
        grown.capacity := by
      split_ifs <;> omega
    refine ⟨⟨hcapacity, hgrown.capacity, hgrown.bound, Or.inr hfront, hgrown.stride⟩, hroom, ?_,
      hlimit⟩
    rw [← hcontents]
    exact window_pushFront hfront hcapacity (slot_pred hhead) elem

theorem popBack_ok {elem : α} (hvalid : d.Valid) (h : d.popBack = .ok (elem, d')) :
    d'.Valid ∧ d.contents = d'.contents ++ [elem] ∧ d'.elementLimit = d.elementLimit := by
  obtain ⟨data, head, size, capacity, elemStride, elemAlign, elementLimit⟩ := d
  have hphysical (index : ℕ) (hindex : index ≤ capacity) := hvalid.physical_eq hindex
  obtain ⟨hsize, hcapacity, hbound, hhead, hstride⟩ := hvalid
  dsimp only at hsize hcapacity hbound hhead hstride hphysical
  unfold popBack at h
  cases size with
  | zero => cases h
  | succ last =>
    rw [if_neg (Nat.succ_ne_zero last)] at h
    dsimp only at h
    rw [Nat.add_sub_cancel, hphysical last (Nat.le_of_succ_le hsize)] at h
    by_cases hlast : last = 0
    · rw [if_pos hlast] at h
      cases h
      subst hlast
      exact ⟨⟨Nat.zero_le _, hcapacity, hbound, Or.inl rfl, hstride⟩, rfl, rfl⟩
    · rw [if_neg hlast] at h
      cases h
      exact ⟨⟨Nat.le_of_succ_le hsize, hcapacity, hbound, hhead, hstride⟩, window_succ, rfl⟩

theorem popFront_ok {elem : α} (hvalid : d.Valid) (h : d.popFront = .ok (elem, d')) :
    d'.Valid ∧ d.contents = elem :: d'.contents ∧ d'.elementLimit = d.elementLimit := by
  obtain ⟨data, head, size, capacity, elemStride, elemAlign, elementLimit⟩ := d
  obtain ⟨hsize, hcapacity, hbound, hhead, hstride⟩ := hvalid
  dsimp only at hsize hcapacity hbound hhead hstride
  unfold popFront at h
  cases size with
  | zero => cases h
  | succ last =>
    have hlt : head < capacity := by omega
    have hnext : (head + 1) % 2 ^ 64 % capacity = slot capacity head 1 := by
      unfold ptrdiffMax at hbound
      rw [slot, Nat.mod_eq_of_lt (a := head + 1) (by omega)]
    have hwindow : window data capacity head (last + 1) =
        data head :: window data capacity (slot capacity head 1) last := by
      rw [window_cons, slot_zero hlt]
    rw [if_neg (Nat.succ_ne_zero last)] at h
    dsimp only at h
    rw [Nat.add_sub_cancel, hnext] at h
    by_cases hlast : last = 0
    · rw [if_pos hlast] at h
      cases h
      subst hlast
      exact ⟨⟨Nat.zero_le _, hcapacity, hbound, Or.inl rfl, hstride⟩, hwindow, rfl⟩
    · rw [if_neg hlast] at h
      cases h
      exact ⟨⟨Nat.le_of_succ_le hsize, hcapacity, hbound, Or.inr (slot_lt (by omega) 1), hstride⟩,
        hwindow, rfl⟩

theorem set_ok {index : ℕ} {elem : α} {memory : Memory α} (hvalid : d.Valid)
    (h : d.set index elem memory = .ok d') : d'.Valid ∧ index < d.size ∧
      d'.contents = d.contents.set index elem ∧ d'.elementLimit = d.elementLimit := by
  unfold set at h
  by_cases hindex : d.size ≤ index
  · rw [if_pos hindex] at h
    cases h
  · rw [if_neg hindex] at h
    split at h
    · cases h
    · cases h
      have hlt := not_le.1 hindex
      refine ⟨⟨hvalid.size, hvalid.capacity, hvalid.bound, hvalid.head, hvalid.stride⟩, hlt, ?_, rfl⟩
      rw [hvalid.physical_eq (hlt.le.trans hvalid.size)]
      exact window_set hlt hvalid.size elem

/-! ## Runs -/

theorem perform_ok {call : Call α} {out : Option α} (hvalid : d.Valid)
    (h : d.perform call = .ok (d', out)) : d'.Valid ∧ d'.elementLimit = d.elementLimit ∧
      BoundedDeque.perform d.elementLimit d.contents call.operation = some (d'.contents, out) := by
  obtain ⟨operation, memory⟩ := call
  unfold perform at h
  cases operation with
  | pushBack x =>
    obtain ⟨pushed, hpush, heq⟩ := Fallible.map_eq_ok.1 h
    cases heq
    obtain ⟨hvalid', hroom, hcontents, hlimit⟩ := pushBack_ok hvalid hpush
    refine ⟨hvalid', hlimit, ?_⟩
    rw [BoundedDeque.perform, length_contents, if_pos hroom, hcontents]
  | pushFront x =>
    obtain ⟨pushed, hpush, heq⟩ := Fallible.map_eq_ok.1 h
    cases heq
    obtain ⟨hvalid', hroom, hcontents, hlimit⟩ := pushFront_ok hvalid hpush
    refine ⟨hvalid', hlimit, ?_⟩
    rw [BoundedDeque.perform, length_contents, if_pos hroom, hcontents]
  | popBack =>
    obtain ⟨⟨x, popped⟩, hpop, heq⟩ := Fallible.map_eq_ok.1 h
    cases heq
    obtain ⟨hvalid', hcontents, hlimit⟩ := popBack_ok hvalid hpop
    refine ⟨hvalid', hlimit, ?_⟩
    rw [BoundedDeque.perform, hcontents, List.getLast?_concat, List.dropLast_concat]
    rfl
  | popFront =>
    obtain ⟨⟨x, popped⟩, hpop, heq⟩ := Fallible.map_eq_ok.1 h
    cases heq
    obtain ⟨hvalid', hcontents, hlimit⟩ := popFront_ok hvalid hpop
    refine ⟨hvalid', hlimit, ?_⟩
    rw [BoundedDeque.perform, hcontents]
    rfl
  | set index x =>
    obtain ⟨changed, hset, heq⟩ := Fallible.map_eq_ok.1 h
    cases heq
    obtain ⟨hvalid', hindex, hcontents, hlimit⟩ := set_ok hvalid hset
    refine ⟨hvalid', hlimit, ?_⟩
    rw [BoundedDeque.perform, length_contents, if_pos hindex, hcontents]
  | reserve capacity =>
    obtain ⟨grown, hgrow, heq⟩ := Fallible.map_eq_ok.1 h
    cases heq
    obtain ⟨hvalid', hcontents, hsize, hlimit, hcapacity⟩ := growTo_ok hvalid hgrow
    refine ⟨hvalid', hlimit, ?_⟩
    rw [BoundedDeque.perform, hcontents, if_pos]
    exact hcapacity.trans (hvalid'.capacity.trans_eq hlimit)
  | clear =>
    cases h
    unfold clear
    split_ifs with hsize
    · exact ⟨⟨Nat.zero_le _, hvalid.capacity, hvalid.bound, Or.inl rfl, hvalid.stride⟩, rfl, rfl⟩
    · refine ⟨hvalid, rfl, ?_⟩
      have hcontents : d.contents = [] := List.eq_nil_of_length_eq_zero (by
        rw [length_contents]
        exact not_not.1 hsize)
      rw [BoundedDeque.perform, hcontents]

/-- An operation that the deque refuses is one that the list refuses. -/
theorem perform_call {call : Call α} {status : Status}
    (h : d.perform call = .error (.call status)) :
    BoundedDeque.perform d.elementLimit d.contents call.operation = none := by
  obtain ⟨operation, memory⟩ := call
  unfold perform at h
  cases operation with
  | pushBack x =>
    dsimp only at h
    unfold pushBack at h
    cases hprepare : d.prepare memory with
    | ok grown =>
      rw [hprepare] at h
      cases h
    | error failure =>
      rw [hprepare] at h
      cases h
      rw [BoundedDeque.perform, length_contents, if_neg (prepare_call hprepare).not_gt]
  | pushFront x =>
    dsimp only at h
    unfold pushFront at h
    cases hprepare : d.prepare memory with
    | ok grown =>
      rw [hprepare] at h
      cases h
    | error failure =>
      rw [hprepare] at h
      cases h
      rw [BoundedDeque.perform, length_contents, if_neg (prepare_call hprepare).not_gt]
  | popBack =>
    dsimp only at h
    unfold popBack at h
    by_cases hsize : d.size = 0
    · have hcontents : d.contents = [] :=
        List.eq_nil_of_length_eq_zero (length_contents.trans hsize)
      rw [BoundedDeque.perform, hcontents]
      rfl
    · rw [if_neg hsize] at h
      cases h
  | popFront =>
    dsimp only at h
    unfold popFront at h
    by_cases hsize : d.size = 0
    · have hcontents : d.contents = [] :=
        List.eq_nil_of_length_eq_zero (length_contents.trans hsize)
      rw [BoundedDeque.perform, hcontents]
      rfl
    · rw [if_neg hsize] at h
      cases h
  | set index x =>
    dsimp only at h
    unfold set at h
    by_cases hindex : d.size ≤ index
    · rw [BoundedDeque.perform, length_contents, if_neg hindex.not_gt]
    · rw [if_neg hindex] at h
      split at h <;> cases h
  | reserve capacity =>
    dsimp only at h
    cases hgrow : d.growTo capacity memory with
    | ok grown =>
      rw [hgrow] at h
      cases h
    | error failure =>
      rw [hgrow] at h
      cases h
      rw [BoundedDeque.perform, if_neg (growTo_call hgrow).not_ge]
  | clear => cases h

theorem run_valid (hvalid : d.Valid) (calls : List (Call α)) :
    (d.run calls).1.Valid ∧ (d.run calls).1.elementLimit = d.elementLimit ∧
      Runs d.elementLimit d.contents (d.run calls).2 (d.run calls).1.contents := by
  induction calls generalizing d with
  | nil => exact ⟨hvalid, rfl, .nil _⟩
  | cons call calls ih =>
    rw [run]
    cases hperform : d.perform call with
    | ok answer =>
      obtain ⟨after, out⟩ := answer
      have hstep : d.step call = (after, .done out) := by rw [step, hperform]
      obtain ⟨hafter, hlimit, happly⟩ := perform_ok hvalid hperform
      obtain ⟨hrest, hlimit', hruns⟩ := ih hafter
      rw [hstep]
      rw [hlimit] at hruns
      exact ⟨hrest, hlimit'.trans hlimit, .done happly hruns⟩
    | error failure =>
      obtain ⟨hrest, hlimit, hruns⟩ := ih hvalid
      cases failure with
      | call status =>
        have hstep : d.step call = (d, .refused) := by rw [step, hperform]
        rw [hstep]
        exact ⟨hrest, hlimit, .refused (perform_call hperform) hruns⟩
      | memory status =>
        have hstep : d.step call = (d, .starved) := by rw [step, hperform]
        rw [hstep]
        exact ⟨hrest, hlimit, .starved hruns⟩

structure Shows (d : Deque α) (xs : List α) : Prop where
  at? : ∀ index, d.at? index = xs[index]?
  size : d.size = xs.length
  front : d.front = xs.head?
  back : d.back = xs.getLast?

end Deque

end Cstl
