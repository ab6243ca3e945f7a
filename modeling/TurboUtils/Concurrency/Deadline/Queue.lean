import Mathlib.Data.Nat.Bitwise
import Mathlib.Logic.Function.Basic
import Mathlib.Tactic.Common
import TurboUtils.Lib.BinaryHeap

/-! `salts_deadline_queue`: a binary heap of slots with generations. The arrays are functions of the
index. -/
namespace Concurrency.Deadline

/-- `UINT32_MAX`. -/
def uint32Max : ℕ := 2 ^ 32 - 1

/-- `UINT64_MAX`. -/
def uint64Max : ℕ := 2 ^ 64 - 1

/-- `SALTS_DEADLINE_INDEX_NONE`. -/
def indexNone : ℕ := uint32Max

/-- The errors of deadline_queue.c. -/
inductive Status where
  | invalid
  | range
  | noMemory
  | noBuffers
  | proto
  | noEntry
  | timedOut
  deriving DecidableEq, Repr

/-- `salts_deadline_event`. -/
structure Event where
  id : ℕ
  deadlineMs : ℕ
  token : ℕ
  deriving DecidableEq, Repr

/-- `salts_deadline_entry`. -/
structure Entry where
  event : Event
  order : ℕ
  heapIndex : ℕ
  generation : ℕ
  active : Bool

/-- `salts_deadline_queue_impl`. -/
structure Queue where
  entries : ℕ → Entry
  heap : ℕ → ℕ
  freeSlots : ℕ → ℕ
  size : ℕ
  freeCount : ℕ
  capacity : ℕ
  nextOrder : ℕ

/-- `salts_deadline_make_id`. -/
def makeId (slot generation : ℕ) : ℕ := generation <<< 32 ||| (slot + 1)

/-- `salts_deadline_decode_id`: a slot and its generation. -/
def decodeId (id : ℕ) : Option (ℕ × ℕ) :=
  let encodedSlot := id % 2 ^ 32
  let generation := id >>> 32
  if encodedSlot = 0 ∨ generation = 0 then none else some (encodedSlot - 1, generation)

/-- `salts_deadline_queue_init`. -/
def init (capacity : ℕ) (memory : Bool) : Except Status Queue :=
  if capacity = 0 then .error .invalid
  else if uint32Max < capacity then .error .range
  else if !memory then .error .noMemory
  else .ok {
    entries := fun _ => ⟨⟨0, 0, 0⟩, 0, indexNone, 1, false⟩
    heap := fun _ => indexNone
    freeSlots := fun index => capacity - index - 1
    size := 0
    freeCount := capacity
    capacity := capacity
    nextOrder := 0 }

namespace Queue

variable (q : Queue)

/-- An entry is changed. -/
def modify (slot : ℕ) (change : Entry → Entry) : Queue :=
  { q with entries := Function.update q.entries slot (change (q.entries slot)) }

/-- `salts_deadline_before`. -/
def before (leftSlot rightSlot : ℕ) : Bool :=
  let left := q.entries leftSlot
  let right := q.entries rightSlot
  left.event.deadlineMs < right.event.deadlineMs ||
    (left.event.deadlineMs = right.event.deadlineMs && left.order < right.order)

/-- `salts_deadline_swap`. -/
def swap (left right : ℕ) : Queue :=
  let temporary := q.heap left
  let q := { q with heap := Function.update q.heap left (q.heap right) }
  let q := { q with heap := Function.update q.heap right temporary }
  let q := q.modify (q.heap left) fun entry => { entry with heapIndex := left }
  q.modify (q.heap right) fun entry => { entry with heapIndex := right }

/-- `salts_deadline_sift_up`. -/
def siftUp (q : Queue) (index : ℕ) : Queue :=
  if _ : index ≠ 0 then
    let parent := (index - 1) / 2
    if !q.before (q.heap index) (q.heap parent) then q
    else siftUp (q.swap index parent) parent
  else q
  termination_by index

def earlier (earliest child : ℕ) : ℕ :=
  if child < q.size && q.before (q.heap child) (q.heap earliest) then child else earliest

def earliest (index : ℕ) : ℕ :=
  let left := index * 2 + 1
  let right := left + 1
  q.earlier (q.earlier index left) right

theorem earlier_cases (earliest child : ℕ) : q.earlier earliest child = earliest ∨
    child < q.size ∧ q.earlier earliest child = child := by
  unfold earlier
  split_ifs with hless
  · rw [Bool.and_eq_true, decide_eq_true_eq] at hless
    exact Or.inr ⟨hless.1, rfl⟩
  · exact Or.inl rfl

theorem earliest_cases (index : ℕ) : q.earliest index = index ∨
    q.earliest index < q.size ∧ 0 < q.earliest index ∧ (q.earliest index - 1) / 2 = index := by
  have hleft := q.earlier_cases index (index * 2 + 1)
  have hright := q.earlier_cases (q.earlier index (index * 2 + 1)) (index * 2 + 1 + 1)
  unfold earliest
  dsimp only
  omega

/-- `salts_deadline_sift_down`. -/
def siftDown (q : Queue) (index : ℕ) : Queue :=
  if _ : q.earliest index = index then q
  else siftDown (q.swap index (q.earliest index)) (q.earliest index)
  termination_by q.size - index
  decreasing_by
    have hcases := (q.earliest_cases index).resolve_left ‹_›
    change q.size - _ < q.size - _
    omega

/-- `salts_deadline_release_slot`. -/
def releaseSlot (slot : ℕ) : Queue :=
  let q := q.modify slot fun entry =>
    { entry with event := ⟨0, 0, 0⟩, order := 0, heapIndex := indexNone, active := false }
  if (q.entries slot).generation = uint32Max then
    q.modify slot fun entry => { entry with generation := 0 }
  else
    let q := q.modify slot fun entry => { entry with generation := entry.generation + 1 }
    { q with
      freeSlots := Function.update q.freeSlots q.freeCount slot
      freeCount := q.freeCount + 1 }

/-- The part of `salts_deadline_remove` that fills the place in the heap. -/
def fill (heapIndex : ℕ) : Queue :=
  let q := { q with heap := Function.update q.heap heapIndex (q.heap q.size) }
  let q := q.modify (q.heap heapIndex) fun entry => { entry with heapIndex := heapIndex }
  if heapIndex ≠ 0 && q.before (q.heap heapIndex) (q.heap ((heapIndex - 1) / 2)) then
    q.siftUp heapIndex
  else q.siftDown heapIndex

/-- `salts_deadline_remove`. -/
def remove (heapIndex : ℕ) : Event × Queue :=
  let removedSlot := q.heap heapIndex
  let event := (q.entries removedSlot).event
  let q := { q with size := q.size - 1 }
  let q := if heapIndex ≠ q.size then q.fill heapIndex else q
  let q := { q with heap := Function.update q.heap q.size indexNone }
  (event, q.releaseSlot removedSlot)

/-- `salts_deadline_queue_schedule`: the id, and the queue. -/
def schedule (deadlineMs token : ℕ) : Except Status (ℕ × Queue) :=
  if q.freeCount = 0 then .error .noBuffers
  else if q.nextOrder = uint64Max then .error .range
  else
    let slot := q.freeSlots (q.freeCount - 1)
    let entry := q.entries slot
    if entry.active || entry.generation = 0 then .error .proto
    else
      let heapIndex := q.size
      let event := ⟨makeId slot entry.generation, deadlineMs, token⟩
      let entry := { entry with
        event := event, order := q.nextOrder, heapIndex := heapIndex, active := true }
      let q := { q with
        entries := Function.update q.entries slot entry
        heap := Function.update q.heap heapIndex slot
        freeCount := q.freeCount - 1
        size := q.size + 1
        nextOrder := q.nextOrder + 1 }
      .ok (event.id, q.siftUp heapIndex)

/-- `salts_deadline_queue_cancel`: the event, and the queue. -/
def cancel (id : ℕ) : Except Status (Event × Queue) :=
  match decodeId id with
  | none => .error .invalid
  | some (slot, generation) =>
      if q.capacity ≤ slot then .error .noEntry
      else
        let entry := q.entries slot
        if !entry.active || entry.generation ≠ generation then .error .noEntry
        else .ok (q.remove entry.heapIndex)

/-- `salts_deadline_queue_peek`. -/
def peek : Except Status Event :=
  if q.size = 0 then .error .timedOut else .ok (q.entries (q.heap 0)).event

/-- `salts_deadline_queue_take_ready`: the event, and the queue. -/
def takeReady (nowMs : ℕ) : Except Status (Event × Queue) :=
  if q.size = 0 ∨ nowMs < (q.entries (q.heap 0)).event.deadlineMs then .error .timedOut
  else .ok (q.remove 0)

end Queue

/-! Sifting keeps the slots of the heap and their places in step, and restores the heap order. -/

open BinaryHeap

def byKey (key : ℕ → ℕ × ℕ) : ℕ → ℕ → Ordering :=
  compareLex (compareOn fun slot => (key slot).1) (compareOn fun slot => (key slot).2)

instance (key : ℕ → ℕ × ℕ) : Std.TransCmp (byKey key) := by
  unfold byKey
  infer_instance

theorem isLE_byKey {key : ℕ → ℕ × ℕ} {s t : ℕ} : (byKey key s t).isLE ↔
    (key s).1 < (key t).1 ∨ (key s).1 = (key t).1 ∧ (key s).2 ≤ (key t).2 := by
  unfold byKey compareLex compareOn
  rw [Ordering.isLE_then_iff_or, compare_lt_iff_lt, compare_eq_iff_eq, ← Ordering.ne_gt_iff_isLE]
  exact or_congr .rfl (and_congr .rfl compare_le_iff_le)

namespace Queue

def key (q : Queue) (slot : ℕ) : ℕ × ℕ :=
  ((q.entries slot).event.deadlineMs, (q.entries slot).order)

variable {q : Queue} {index : ℕ}

theorem before_iff {s t : ℕ} : q.before s t = true ↔ byKey q.key s t = .lt := by
  unfold before byKey compareLex compareOn
  rw [Ordering.then_eq_lt, compare_lt_iff_lt, compare_eq_iff_eq, compare_lt_iff_lt, Bool.or_eq_true,
    Bool.and_eq_true, decide_eq_true_eq, decide_eq_true_eq, decide_eq_true_eq]
  rfl

def Linked (q : Queue) : Prop := ∀ i < q.size, (q.entries (q.heap i)).heapIndex = i

theorem Linked.inj (h : q.Linked) {i j : ℕ} (hi : i < q.size) (hj : j < q.size)
    (heq : q.heap i = q.heap j) : i = j := by
  rw [← h i hi, ← h j hj, heq]

/-- The entries are the same but for their places in the heap. -/
structure Same (q q' : Queue) : Prop where
  event : ∀ s, (q'.entries s).event = (q.entries s).event
  order : ∀ s, (q'.entries s).order = (q.entries s).order
  generation : ∀ s, (q'.entries s).generation = (q.entries s).generation
  active : ∀ s, (q'.entries s).active = (q.entries s).active

theorem Same.refl (q : Queue) : q.Same q := ⟨fun _ => rfl, fun _ => rfl, fun _ => rfl, fun _ => rfl⟩

theorem Same.trans {q q' q'' : Queue} (h : q.Same q') (h' : q'.Same q'') : q.Same q'' :=
  ⟨fun s => (h'.event s).trans (h.event s), fun s => (h'.order s).trans (h.order s),
    fun s => (h'.generation s).trans (h.generation s), fun s => (h'.active s).trans (h.active s)⟩

theorem Same.key {q q' : Queue} (h : q.Same q') : q'.key = q.key := by
  funext s
  rw [Queue.key, Queue.key, h.event, h.order]

structure Moved (q q' : Queue) : Prop where
  linked : q'.Linked
  heap : (elements q'.heap q'.size).Perm (elements q.heap q.size)
  same : q.Same q'
  size : q'.size = q.size
  freeSlots : q'.freeSlots = q.freeSlots
  freeCount : q'.freeCount = q.freeCount
  capacity : q'.capacity = q.capacity
  nextOrder : q'.nextOrder = q.nextOrder

theorem Moved.refl (h : q.Linked) : q.Moved q := ⟨h, .rfl, .refl q, rfl, rfl, rfl, rfl, rfl⟩

theorem Moved.trans {q q' q'' : Queue} (h : q.Moved q') (h' : q'.Moved q'') : q.Moved q'' :=
  ⟨h'.linked, h'.heap.trans h.heap, h.same.trans h'.same, h'.size.trans h.size,
    h'.freeSlots.trans h.freeSlots, h'.freeCount.trans h.freeCount, h'.capacity.trans h.capacity,
    h'.nextOrder.trans h.nextOrder⟩

theorem modify_entries (q : Queue) (slot : ℕ) (change : Entry → Entry) (s : ℕ) :
    (q.modify slot change).entries s = if s = slot then change (q.entries slot) else q.entries s :=
  Function.update_apply ..

theorem modify_same {r : Queue} (hentries : r.entries = q.entries) (slot heapIndex : ℕ) :
    q.Same (r.modify slot fun entry => { entry with heapIndex := heapIndex }) := by
  constructor
  all_goals
    intro s
    rw [modify_entries, hentries]
    split_ifs with hs
    · rw [hs]
    · rfl

theorem swap_heap (q : Queue) (left right : ℕ) :
    (q.swap left right).heap = exchange q.heap left right := by
  funext k
  by_cases hright : k = right
  · rw [hright, exchange_right]
    exact Function.update_self ..
  · by_cases hleft : k = left
    · rw [hleft, exchange_left]
      exact (Function.update_of_ne (hleft ▸ hright) _ _).trans (Function.update_self ..)
    · rw [exchange_of_ne _ hleft hright]
      exact (Function.update_of_ne hright _ _).trans (Function.update_of_ne hleft _ _)

theorem swap_eq (q : Queue) (left right : ℕ) : q.swap left right =
    (Queue.modify { q with heap := exchange q.heap left right } (q.heap right) fun entry =>
      { entry with heapIndex := left }).modify (q.heap left) fun entry =>
        { entry with heapIndex := right } := by
  have hheap := swap_heap q left right
  have hleft : (q.swap left right).heap left = q.heap right := by rw [hheap, exchange_left]
  have hright : (q.swap left right).heap right = q.heap left := by rw [hheap, exchange_right]
  rw [← hheap, ← hleft, ← hright]
  rfl

theorem swap_moved {left right : ℕ} (h : q.Linked) (hleft : left < q.size)
    (hright : right < q.size) : q.Moved (q.swap left right) := by
  have hheap := swap_heap q left right
  refine ⟨?_, ?_, ?_, rfl, rfl, rfl, rfl, rfl⟩
  · intro i hi
    rw [hheap, swap_eq, modify_entries]
    by_cases hir : i = right
    · rw [hir, exchange_right, if_pos rfl]
    · by_cases hil : i = left
      · have hne : q.heap right ≠ q.heap left := fun heq =>
          hir (hil.trans (h.inj hright hleft heq).symm)
        rw [hil, exchange_left, if_neg hne, modify_entries, if_pos rfl]
      · have hne : q.heap i ≠ q.heap left := fun heq => hil (h.inj hi hleft heq)
        have hne' : q.heap i ≠ q.heap right := fun heq => hir (h.inj hi hright heq)
        rw [exchange_of_ne _ hil hir, if_neg hne, modify_entries, if_neg hne']
        exact h i hi
  · rw [hheap]
    exact elements_exchange _ hleft hright
  · rw [swap_eq]
    have hsame : q.Same (Queue.modify { q with heap := exchange q.heap left right } (q.heap right)
        fun entry => { entry with heapIndex := left }) := by
      apply modify_same
      rfl
    exact hsame.trans (modify_same rfl _ _)

/-! ## Sifting -/

structure Sifted (q q' : Queue) : Prop where
  moved : q.Moved q'
  ordered : Ordered (byKey q'.key) q'.heap q'.size

theorem siftUp_sifted (hrising : Rising (byKey q.key) q.heap q.size index) (hlinked : q.Linked)
    (hindex : index < q.size) : q.Sifted (q.siftUp index) := by
  fun_induction siftUp q index with
  | case1 q index hpos parent hless =>
    refine ⟨.refl hlinked, hrising.ordered fun _ => isLE_of_ne_lt fun hlt => ?_⟩
    have hbefore : q.before (q.heap index) (q.heap parent) = true := before_iff.2 hlt
    rw [hbefore] at hless
    cases hless
  | case2 q index hne parent hless ih =>
    rw [Bool.not_eq_true', Bool.not_eq_false, before_iff] at hless
    have hpos : 0 < index := Nat.pos_of_ne_zero hne
    have hlt : parent < index := parent_lt hpos
    have hmoved := swap_moved hlinked hindex (hlt.trans hindex)
    have hsifted := ih ?_ hmoved.linked (hlt.trans hindex)
    · exact ⟨hmoved.trans hsifted.moved, hsifted.ordered⟩
    · rw [hmoved.same.key, swap_heap]
      exact hrising.up hpos hindex (isLE_of_eq_lt hless)
  | case3 q index hzero => exact ⟨.refl hlinked, hrising.ordered fun h => absurd h.ne' hzero⟩

theorem earlier_le (q : Queue) (earliest child : ℕ) :
    (byKey q.key (q.heap (q.earlier earliest child)) (q.heap earliest)).isLE ∧
      (child < q.size →
        (byKey q.key (q.heap (q.earlier earliest child)) (q.heap child)).isLE) := by
  unfold earlier
  split_ifs with hless
  · rw [Bool.and_eq_true, decide_eq_true_eq, before_iff] at hless
    exact ⟨isLE_of_eq_lt hless.2, fun _ => Std.ReflCmp.isLE_rfl⟩
  · refine ⟨Std.ReflCmp.isLE_rfl, fun hsize => isLE_of_ne_lt fun hlt => hless ?_⟩
    rw [Bool.and_eq_true, decide_eq_true_eq, before_iff]
    exact ⟨hsize, hlt⟩

theorem earliest_le (q : Queue) (index : ℕ) :
    (byKey q.key (q.heap (q.earliest index)) (q.heap index)).isLE :=
  Std.TransCmp.isLE_trans (q.earlier_le _ _).1 (q.earlier_le _ _).1

theorem earliest_least {i : ℕ} (hpos : 0 < i) (hi : i < q.size) (hup : parent i = index) :
    (byKey q.key (q.heap (q.earliest index)) (q.heap i)).isLE := by
  rcases (parent_eq_iff hpos).1 hup with rfl | rfl
  · rw [Nat.mul_comm] at hi ⊢
    exact Std.TransCmp.isLE_trans (q.earlier_le _ _).1 ((q.earlier_le _ _).2 hi)
  · rw [Nat.mul_comm] at hi ⊢
    exact (q.earlier_le _ _).2 hi

theorem siftDown_sifted (hsinking : Sinking (byKey q.key) q.heap q.size index)
    (hlinked : q.Linked) (hindex : index < q.size) : q.Sifted (q.siftDown index) := by
  fun_induction siftDown q index with
  | case1 q index hearliest =>
    refine ⟨.refl hlinked, hsinking.ordered fun i hpos hi hup => ?_⟩
    have hleast : (byKey q.key (q.heap (q.earliest index)) (q.heap i)).isLE :=
      earliest_least hpos hi hup
    rwa [hearliest] at hleast
  | case2 q index hearliest ih =>
    obtain ⟨hsize, hpos, hup⟩ := (q.earliest_cases index).resolve_left hearliest
    have hmoved := swap_moved hlinked hindex hsize
    have hsifted := ih ?_ hmoved.linked hsize
    · exact ⟨hmoved.trans hsifted.moved, hsifted.ordered⟩
    · rw [hmoved.same.key, swap_heap]
      exact hsinking.down hpos hsize hup (q.earliest_le index) fun i => earliest_least

end Queue

end Concurrency.Deadline
