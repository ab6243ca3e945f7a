import Mathlib.Data.List.GetD
import Mathlib.Tactic
import TurboUtils.Lib.SlotLedger
import TurboUtils.Lib.Transition

/-! The object pool: every slot is in use, on the free list or not yet handed out, whatever is
allocated and freed. Asserts are compiled out. -/
namespace ObjectPool

open SlotLedger

/-- `sizeof(void *)`. -/
def ptrSize : ℕ := 8

/-- `SIZE_MAX`. -/
def sizeMax : ℕ := 2 ^ 64 - 1

/-- `object_pool_config_t`. -/
structure Config where
  objectSize : ℕ
  initialCapacity : ℕ
  maxCapacity : ℕ
  zeroOnAlloc : Bool

/-- `object_pool_chunk_t`. -/
structure Chunk where
  memory : ℕ
  allocationBitmap : List UInt8
  capacity : ℕ

/-- `object_pool_s`, with the words in memory, by address. -/
structure Pool where
  objectSize : ℕ
  maxCapacity : ℕ
  zeroOnAlloc : Bool
  freeList : ℕ
  freeCount : ℕ
  bumpPtr : ℕ
  bumpRemaining : ℕ
  chunks : List Chunk
  totalCapacity : ℕ
  allocatedCount : ℕ
  peakUsage : ℕ
  words : ℕ → ℕ

/-- Words set to zero, as `memset` and `calloc` do. -/
def zero (words : ℕ → ℕ) (start size : ℕ) : ℕ → ℕ := fun address =>
  if start ≤ address ∧ address < start + size then 0 else words address

def mask (slot : ℕ) : UInt8 := 1 <<< UInt8.ofNat (slot % 8)

/-- `object_pool_slot_is_allocated`. -/
def slotIsAllocated (chunk : Chunk) (slot : ℕ) : Bool :=
  chunk.allocationBitmap.getD (slot / 8) 0 &&& mask slot ≠ 0

/-- `object_pool_slot_set_allocated`. -/
def slotSetAllocated (chunk : Chunk) (slot : ℕ) (allocated : Bool) : Chunk :=
  { chunk with allocationBitmap := chunk.allocationBitmap.modify (slot / 8) fun byte =>
      if allocated then byte ||| mask slot else byte &&& ~~~mask slot }

/-- The loop of `object_pool_locate_object`: the chunk, by its place in the list, and the slot. -/
def locateIn (size obj : ℕ) : List Chunk → Option (ℕ × ℕ)
  | [] => none
  | chunk :: rest =>
      if chunk.memory ≤ obj ∧ obj < chunk.memory + chunk.capacity * size then
        if (obj - chunk.memory) % size ≠ 0 then none else some (0, (obj - chunk.memory) / size)
      else (locateIn size obj rest).map fun found => (found.1 + 1, found.2)

namespace Pool

/-- `object_pool_locate_object`. -/
def locateObject (s : Pool) (obj : ℕ) : Option (ℕ × ℕ) :=
  if obj = 0 then none else locateIn s.objectSize obj s.chunks

/-- The number of objects of a new chunk: where there is room for one, what is asked for or all that
may come. -/
def growCount (s : Pool) (count : ℕ) : Option ℕ :=
  if count = 0 then none
  else if 0 < s.maxCapacity then
    if s.maxCapacity ≤ s.totalCapacity then none
    else
      let remaining := s.maxCapacity - s.totalCapacity
      some (if remaining < count then remaining else count)
  else some count

/-- `object_pool_grow`. The heap gives the memory of the chunk, or one of the three allocations
fails. -/
def grow (s : Pool) (count : ℕ) (heap : Option ℕ) : Option Pool :=
  match s.growCount count with
  | none => none
  | some count =>
      if sizeMax / s.objectSize < count then none
      else
        match heap with
        | none => none
        | some memory =>
            let bitmapSize := count / 8 + if count % 8 ≠ 0 then 1 else 0
            some { s with
              bumpPtr := memory
              bumpRemaining := count
              totalCapacity := s.totalCapacity + count
              chunks := ⟨memory, List.replicate bitmapSize 0, count⟩ :: s.chunks
              words := zero s.words memory (count * s.objectSize) }

def growSize (s : Pool) : ℕ :=
  let size := if 0 < s.totalCapacity then s.totalCapacity / 2 else 64
  let size := if size < 64 then 64 else size
  if 65536 < size then 65536 else size

def setAllocated (s : Pool) (chunk slot : ℕ) (allocated : Bool) : Pool :=
  { s with chunks := s.chunks.modify chunk fun c => slotSetAllocated c slot allocated }

/-- The end of `object_pool_alloc`. -/
def handOut (s : Pool) (obj chunk slot : ℕ) : ℕ × Pool :=
  let s := s.setAllocated chunk slot true
  let s := { s with allocatedCount := s.allocatedCount + 1 }
  let s := if s.peakUsage < s.allocatedCount then { s with peakUsage := s.allocatedCount } else s
  (obj, if s.zeroOnAlloc then { s with words := zero s.words obj s.objectSize } else s)

def allocBump (s : Pool) (slot : ℕ) : ℕ × Pool :=
  { s with bumpPtr := s.bumpPtr + s.objectSize, bumpRemaining := s.bumpRemaining - 1 }.handOut
    s.bumpPtr 0 slot

/-- `object_pool_alloc`. -/
def alloc (s : Pool) (heap : Option ℕ) : ℕ × Pool :=
  if s.freeList ≠ 0 then
    match s.locateObject s.freeList with
    | none => (0, s)
    | some (chunk, slot) =>
        if (s.chunks[chunk]?).any (slotIsAllocated · slot) then (0, s)
        else
          { s with freeList := s.words s.freeList, freeCount := s.freeCount - 1 }.handOut
            s.freeList chunk slot
  else if 0 < s.bumpRemaining then
    s.allocBump ((s.bumpPtr - ((s.chunks[0]?).map Chunk.memory).getD 0) / s.objectSize)
  else
    match s.grow s.growSize heap with
    | none => (0, s)
    | some s => s.allocBump 0

/-- `object_pool_free`. -/
def free (s : Pool) (obj : ℕ) : Pool :=
  match s.locateObject obj with
  | none => s
  | some (chunk, slot) =>
      if !(s.chunks[chunk]?).any (slotIsAllocated · slot) then s
      else if s.allocatedCount = 0 then s
      else
        { s.setAllocated chunk slot false with
          words := Function.update s.words obj s.freeList
          freeList := obj
          freeCount := s.freeCount + 1
          allocatedCount := s.allocatedCount - 1 }

/-- `object_pool_reset_stats`. -/
def resetStats (s : Pool) : Pool := { s with peakUsage := s.allocatedCount }

end Pool

/-- `object_pool_create`. -/
def create (config : Config) (words : ℕ → ℕ) (heap : Option ℕ) : Option Pool :=
  if config.objectSize < ptrSize then none
  else
    let size := config.objectSize
    if size % ptrSize ≠ 0 ∧ sizeMax - (ptrSize - 1) < size then none
    else
      let size := if size % ptrSize ≠ 0 then size + (ptrSize - size % ptrSize) else size
      let s : Pool := ⟨size, config.maxCapacity, config.zeroOnAlloc, 0, 0, 0, 0, [], 0, 0, 0, words⟩
      if 0 < config.initialCapacity then s.grow config.initialCapacity heap else some s

/-! ## Slots -/

namespace Pool

def slotsOf (size : ℕ) (chunk : Chunk) : List ℕ :=
  (List.range chunk.capacity).map fun slot => chunk.memory + slot * size

/-- The slots of all chunks. -/
def slots (s : Pool) : List ℕ := s.chunks.flatMap (slotsOf s.objectSize)

def isAllocated (s : Pool) (obj : ℕ) : Bool :=
  match s.locateObject obj with
  | none => false
  | some (chunk, slot) => (s.chunks[chunk]?).any (slotIsAllocated · slot)

def live (s : Pool) : List ℕ := s.slots.filter s.isAllocated

/-- The bump tail. -/
def tail (s : Pool) : List ℕ :=
  (List.range s.bumpRemaining).map fun slot => s.bumpPtr + slot * s.objectSize

/-- Memory that the heap may give for a chunk: no memory of another one. -/
def Fresh (s : Pool) (count memory : ℕ) : Prop :=
  memory ≠ 0 ∧ ∀ chunk ∈ s.chunks, memory + count * s.objectSize ≤ chunk.memory ∨
    chunk.memory + chunk.capacity * s.objectSize ≤ memory

/-- What the heap may give to a call that asks for so many objects. -/
def Grants (s : Pool) (count : ℕ) (heap : Option ℕ) : Prop :=
  ∀ count' ∈ s.growCount count, ∀ memory ∈ heap, s.Fresh count' memory

def Freed (s : Pool) (address : ℕ) : Prop :=
  ∃ obj ∈ s.slots, obj ∉ s.live ∧ obj ∉ s.tail ∧ obj ≤ address ∧ address < obj + s.objectSize

instance (s : Pool) (count memory : ℕ) : Decidable (s.Fresh count memory) :=
  inferInstanceAs (Decidable (_ ∧ _))

instance (s : Pool) (count : ℕ) (heap : Option ℕ) : Decidable (s.Grants count heap) :=
  inferInstanceAs (Decidable (∀ count' ∈ s.growCount count, ∀ memory ∈ heap, s.Fresh count' memory))

instance (s : Pool) (address : ℕ) : Decidable (s.Freed address) :=
  inferInstanceAs (Decidable (∃ obj ∈ s.slots, _))

end Pool

inductive Action where
  | alloc (heap : Option ℕ)
  | free (obj : ℕ)
  | resetStats
  | write (address value : ℕ)

/-- One action: the heap gives fresh memory, and no freed slot is written. -/
def step (s : Pool) : Action → Option Pool
  | .alloc heap => if s.Grants s.growSize heap then some (s.alloc heap).2 else none
  | .free obj => some (s.free obj)
  | .resetStats => some s.resetStats
  | .write address value =>
      if s.Freed address then none else some { s with words := Function.update s.words address value }

end ObjectPool
