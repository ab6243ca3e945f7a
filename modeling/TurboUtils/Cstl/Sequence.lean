import Mathlib.Tactic

/-! What the sequences of cstl share: the status of a call, how storage grows, and where it comes
from. -/
namespace Cstl

/-- `SIZE_MAX`. -/
def sizeMax : ℕ := 2 ^ 64 - 1

/-- `stl_status` of a call on a container that is initialized, less success. -/
inductive Status where
  | invalidArgument
  | outOfMemory
  | capacityExceeded
  | empty
  | traitMissing
  deriving DecidableEq, Repr

namespace Sequence

/-- `SALTS_HEAP_MIN_CAPACITY` and `SALTS_DEQUE_MIN_CAPACITY`. -/
def minCapacity : ℕ := 8

/-- The doubling loop of `heap_next_capacity` and `deque_next_capacity`, from a capacity that is
positive. -/
def doubleCapacity (elementLimit minimum capacity : ℕ) : ℕ :=
  if _ : 0 < capacity ∧ capacity < minimum then
    if elementLimit - capacity < capacity then elementLimit
    else doubleCapacity elementLimit minimum (capacity * 2)
  else capacity
  termination_by minimum - capacity

/-- `heap_next_capacity` and `deque_next_capacity`. -/
def nextCapacity (elementLimit capacity minimum : ℕ) : Except Status ℕ :=
  if elementLimit < minimum then .error .capacityExceeded
  else
    let capacity := if capacity ≠ 0 then capacity else minCapacity
    let capacity := if elementLimit < capacity then elementLimit else capacity
    .ok (doubleCapacity elementLimit minimum capacity)

theorem doubleCapacity_bounds {elementLimit minimum capacity : ℕ} (hpos : 0 < capacity)
    (hle : capacity ≤ elementLimit) (hminimum : minimum ≤ elementLimit) :
    minimum ≤ doubleCapacity elementLimit minimum capacity ∧
      doubleCapacity elementLimit minimum capacity ≤ elementLimit := by
  fun_induction doubleCapacity elementLimit minimum capacity with
  | case1 capacity h hlarge => exact ⟨hminimum, le_rfl⟩
  | case2 capacity h hsmall ih => exact ih (by omega) (by omega)
  | case3 capacity h => exact ⟨by omega, hle⟩

theorem nextCapacity_ok {elementLimit capacity minimum next : ℕ} (hminimum : 0 < minimum)
    (h : nextCapacity elementLimit capacity minimum = .ok next) :
    minimum ≤ next ∧ next ≤ elementLimit := by
  unfold nextCapacity at h
  by_cases hlimit : elementLimit < minimum
  · rw [if_pos hlimit] at h
    cases h
  · rw [if_neg hlimit] at h
    cases h
    refine doubleCapacity_bounds ?_ ?_ (not_lt.1 hlimit)
    · unfold minCapacity
      split_ifs <;> omega
    · split_ifs <;> omega

theorem nextCapacity_error {elementLimit capacity minimum : ℕ} {status : Status}
    (h : nextCapacity elementLimit capacity minimum = .error status) : elementLimit < minimum := by
  unfold nextCapacity at h
  by_contra hlimit
  rw [if_neg hlimit] at h
  cases h

/-! ## Storage -/

/-- `PTRDIFF_MAX`: `malloc` gives no larger block. -/
def ptrdiffMax : ℕ := 2 ^ 63 - 1

/-- `sizeof(void *)`. -/
def pointerSize : ℕ := 8

/-- The memory a call finds. -/
structure Memory (α : Type*) where
  /-- What the allocation of a block of that many bytes fails with. -/
  malloc : ℕ → Option Status
  /-- What the copy of an element fails with. -/
  copy : Option Status
  /-- What a new block holds. -/
  block : ℕ → α
  bound : ∀ bytes, malloc bytes = none → bytes ≤ ptrdiffMax

def Memory.ample {α : Type*} (x : α) : Memory α where
  malloc bytes := if bytes ≤ ptrdiffMax then none else some .outOfMemory
  copy := none
  block _ := x
  bound bytes h := by
    by_contra hlarge
    rw [if_neg hlarge] at h
    cases h

/-- `sequence_alignment_valid`. -/
def alignmentValid (alignment : ℕ) : Bool := alignment ≠ 0 && alignment &&& (alignment - 1) = 0

/-- `sequence_stride`; a difference stands for the mask. -/
def stride (elemSize elemAlign : ℕ) : Except Status ℕ :=
  if elemSize = 0 || !alignmentValid elemAlign then .error .invalidArgument
  else
    let padding := elemAlign - 1
    if sizeMax - padding < elemSize then .error .capacityExceeded
    else .ok (elemSize + padding - ((elemSize + padding) &&& padding))

theorem stride_pos {elemSize elemAlign step : ℕ} (h : stride elemSize elemAlign = .ok step) :
    0 < step := by
  unfold stride at h
  dsimp only at h
  split_ifs at h with hsize hlarge
  cases h
  rw [Bool.or_eq_true, not_or, decide_eq_true_eq] at hsize
  have hmask : (elemSize + (elemAlign - 1)) &&& (elemAlign - 1) ≤ elemAlign - 1 := Nat.and_le_right
  omega

theorem stride_valid {elemSize elemAlign step : ℕ} (h : stride elemSize elemAlign = .ok step) :
    (elemSize = 0 || !alignmentValid elemAlign) = false := by
  unfold stride at h
  by_contra hinvalid
  rw [Bool.not_eq_false] at hinvalid
  rw [if_pos hinvalid] at h
  cases h

/-- `sequence_allocate`: what it fails with. -/
def allocate {α : Type*} (memory : Memory α) (count stride alignment : ℕ) : Option Status :=
  if !alignmentValid alignment then some .invalidArgument
  else if count ≠ 0 ∧ sizeMax / count < stride then some .capacityExceeded
  else
    let bytes := count * stride
    if bytes = 0 then none
    else if sizeMax - pointerSize < alignment - 1 then some .capacityExceeded
    else
      let overhead := pointerSize + alignment - 1
      if sizeMax - overhead < bytes then some .capacityExceeded
      else memory.malloc (bytes + overhead)

theorem allocate_bound {α : Type*} {memory : Memory α} {count stride alignment : ℕ}
    (hstride : 0 < stride) (h : allocate memory count stride alignment = none) :
    count ≤ ptrdiffMax := by
  unfold allocate at h
  dsimp only at h
  have hcount : count ≤ count * stride := Nat.le_mul_of_pos_right count hstride
  split_ifs at h with _ _ hzero
  · rw [hzero] at hcount
    exact hcount.trans (Nat.zero_le _)
  · exact hcount.trans ((Nat.le_add_right _ _).trans (memory.bound _ h))

theorem allocate_bytes {α : Type*} {memory : Memory α} {count stride alignment : ℕ}
    (h : allocate memory count stride alignment = none) :
    ¬(count ≠ 0 ∧ sizeMax / count < stride) := by
  intro hbytes
  unfold allocate at h
  rw [if_pos hbytes] at h
  split_ifs at h

end Sequence

end Cstl
