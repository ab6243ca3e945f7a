import Mathlib.Logic.Function.Basic
import TurboUtils.Utils.ByteRing

/-! The priority queue of bucket_priority_queue.c: a byte ring for each priority, which grows by
copying. Allocation succeeds, and no pointer is null. -/
namespace BucketQueue

open ByteRing Segments

/-- `BUCKET_ENTRY_SIZE`. -/
def entrySize : ℕ := 8

/-- `BUCKET_MIN_CAPACITY`. -/
def minCapacity : ℕ := 16

/-- `BUCKET_PRIORITY_COUNT`. -/
def priorityCount : ℕ := 4

/-- `SIZE_MAX`. -/
def sizeMax : ℕ := 2 ^ 64 - 1

/-- `bucket_priority_bucket_t`; the storage is the array of the ring. -/
structure Bucket where
  ring : Ring
  storageBytes : ℕ
  capacityEntries : ℕ
  count : ℕ

/-- `bucket_priority_queue_t`. -/
structure Queue where
  buckets : ℕ → Bucket
  totalSize : ℕ
  nonEmptyMask : UInt8

/-! ## Values in memory -/

def toBytes : ℕ → ℕ → List UInt8
  | 0, _ => []
  | size + 1, n => UInt8.ofNat n :: toBytes size (n / 256)

def ofBytes : List UInt8 → ℕ
  | [] => 0
  | b :: bytes => b.toNat + 256 * ofBytes bytes

/-- A `bucket_priority_value_t` as `memcpy` copies it. -/
def valueBytes (value : UInt64) : List UInt8 := toBytes entrySize value.toNat

def valueOf (bytes : List UInt8) : UInt64 := UInt64.ofNat (ofBytes bytes)

def valuesOf : ℕ → List UInt8 → List UInt64
  | 0, _ => []
  | count + 1, bytes => valueOf (bytes.take entrySize) :: valuesOf count (bytes.drop entrySize)

/-! ## Growing -/

/-- `bucket_priority_valid`. -/
def priorityValid (priority : ℕ) : Bool := priority < priorityCount

/-- `bucket_priority_bit`. -/
def priorityBit (priority : ℕ) : UInt8 := 1 <<< UInt8.ofNat priority

/-- `bucket_highest_non_empty_priority`, where the mask is not zero. -/
def highestNonEmptyPriority (mask : UInt8) : ℕ := mask.toNat.log2

/-- `bucket_capacity_overflow`. -/
def capacityOverflow (entries : ℕ) : Bool := entries ≠ 0 && (sizeMax - 1) / entrySize < entries

/-- The loop of `bucket_copy_fifo_bytes`, in so many rounds at most. -/
def copyLoop : ℕ → Ring → List UInt8 → ℕ → ℕ → Option (List UInt8)
  | 0, _, dst, copied, usedBytes => if copied = usedBytes then some dst else none
  | fuel + 1, cursor, dst, copied, usedBytes =>
      if copied < usedBytes then
        match readAcquire cursor with
        | (none, _, _) => none
        | (some offset, available, cursor) =>
            if available = 0 then none
            else
              let take := if usedBytes - copied < available then usedBytes - copied else available
              copyLoop fuel (readRelease cursor take)
                (overwrite dst copied (segment cursor.data offset take)) (copied + take) usedBytes
      else some dst

/-- `bucket_copy_fifo_bytes`. -/
def copyFifoBytes (bucket : Bucket) (dst : List UInt8) : Option (List UInt8) :=
  let usedBytes := bucket.count * entrySize
  if dst.length < usedBytes then none
  else if usedBytes = 0 then some dst
  else copyLoop usedBytes bucket.ring dst 0 usedBytes

/-- The loop of `bucket_reserve_entries`, in so many rounds at most. -/
def growCapacity : ℕ → ℕ → ℕ → Option ℕ
  | 0, capacity, minEntries => if capacity < minEntries then none else some capacity
  | fuel + 1, capacity, minEntries =>
      if capacity < minEntries then
        if sizeMax / 2 < capacity then none else growCapacity fuel (capacity * 2) minEntries
      else some capacity

/-- `bucket_reserve_entries`. -/
def reserveEntries (bucket : Bucket) (minEntries : ℕ) : Option Bucket :=
  if minEntries ≤ bucket.capacityEntries then some bucket
  else
    let capacity := if bucket.capacityEntries = 0 then minCapacity else bucket.capacityEntries
    match growCapacity minEntries capacity minEntries with
    | none => none
    | some capacity =>
        if capacityOverflow capacity then none
        else
          let bytes := capacity * entrySize + 1
          match copyFifoBytes bucket (List.replicate bytes 0) with
          | none => none
          | some storage =>
              let usedBytes := bucket.count * entrySize
              let ring := init storage bytes
              some ⟨if 0 < usedBytes then writeRelease ring usedBytes else ring, bytes, capacity,
                bucket.count⟩

/-! ## Calls -/

def zeroBucket : Bucket := ⟨⟨0, [], 0, 0, 0, false, false⟩, 0, 0, 0⟩

/-- `bucket_priority_queue_reserve`, for the priorities from `p` on. -/
def reserveFrom (capacity : ℕ) : ℕ → ℕ → Queue → Bool × Queue
  | 0, _, queue => (true, queue)
  | left + 1, p, queue =>
      match reserveEntries (queue.buckets p) capacity with
      | none => (false, queue)
      | some bucket =>
          reserveFrom capacity left (p + 1)
            { queue with buckets := Function.update queue.buckets p bucket }

/-- `bucket_priority_queue_reserve`. -/
def reserve (queue : Queue) (capacity : ℕ) : Bool × Queue :=
  reserveFrom capacity priorityCount 0 queue

/-- `bucket_priority_queue_init`. -/
def initQueue (capacity : ℕ) : Option Queue :=
  let queue : Queue := ⟨fun _ => zeroBucket, 0, 0⟩
  if capacity = 0 then some queue
  else
    match reserve queue capacity with
    | (false, _) => none
    | (true, queue) => some queue

/-- A bucket behind `bucket_priority_queue_clear`. -/
def clearBucket (bucket : Bucket) : Bucket :=
  { bucket with
    ring := if 0 < bucket.storageBytes then init bucket.ring.data bucket.storageBytes
      else zeroBucket.ring
    count := 0 }

/-- `bucket_priority_queue_clear`. -/
def clear (queue : Queue) : Queue := ⟨fun p => clearBucket (queue.buckets p), 0, 0⟩

def acquireEntry (bucket : Bucket) : Option ℕ × Bucket :=
  match writeAcquire bucket.ring entrySize with
  | (some offset, ring) => (some offset, { bucket with ring })
  | (none, ring) =>
      match reserveEntries { bucket with ring } (bucket.capacityEntries + 1) with
      | none => (none, { bucket with ring })
      | some bucket =>
          let acquired := writeAcquire bucket.ring entrySize
          (acquired.1, { bucket with ring := acquired.2 })

def writeEntry (bucket : Bucket) (offset : ℕ) (value : UInt64) : Bucket :=
  { bucket with
    ring := writeRelease
      { bucket.ring with data := overwrite bucket.ring.data offset (valueBytes value) } entrySize
    count := bucket.count + 1 }

/-- `bucket_priority_queue_push`. -/
def push (queue : Queue) (priority : ℕ) (value : UInt64) : Bool × Queue :=
  if !priorityValid priority then (false, queue)
  else
    let bucket := queue.buckets priority
    let wasEmpty := bucket.count = 0
    match reserveEntries bucket (bucket.count + 1) with
    | none => (false, queue)
    | some bucket =>
        match acquireEntry bucket with
        | (none, bucket) =>
            (false, { queue with buckets := Function.update queue.buckets priority bucket })
        | (some offset, bucket) =>
            (true, ⟨Function.update queue.buckets priority (writeEntry bucket offset value),
              queue.totalSize + 1,
              if wasEmpty then queue.nonEmptyMask ||| priorityBit priority else queue.nonEmptyMask⟩)

/-- `bucket_pop_one`. -/
def popOne (bucket : Bucket) : Option UInt64 × Bucket :=
  if bucket.count = 0 then (none, bucket)
  else
    match readAcquire bucket.ring with
    | (none, _, ring) => (none, { bucket with ring })
    | (some offset, available, ring) =>
        if available < entrySize then (none, { bucket with ring })
        else
          (some (valueOf (segment ring.data offset entrySize)),
            { bucket with ring := readRelease ring entrySize, count := bucket.count - 1 })

/-- The loop of `bucket_priority_queue_pop`, in so many rounds at most. -/
def popLoop : ℕ → Queue → Option UInt64 × Queue
  | 0, queue => (none, queue)
  | fuel + 1, queue =>
      if queue.nonEmptyMask = 0 then (none, queue)
      else
        let p := highestNonEmptyPriority queue.nonEmptyMask
        let mask := queue.nonEmptyMask &&& ~~~priorityBit p
        if (queue.buckets p).count = 0 then popLoop fuel { queue with nonEmptyMask := mask }
        else
          match popOne (queue.buckets p) with
          | (none, bucket) =>
              (none, { queue with buckets := Function.update queue.buckets p bucket })
          | (some value, bucket) =>
              (some value, ⟨Function.update queue.buckets p bucket, queue.totalSize - 1,
                if bucket.count = 0 then mask else queue.nonEmptyMask⟩)

/-- `bucket_priority_queue_pop`. -/
def pop (queue : Queue) : Option UInt64 × Queue := popLoop queue.nonEmptyMask.toNat queue

/-- `bucket_peek_one`. -/
def peekOne (bucket : Bucket) : Option UInt64 :=
  if bucket.count = 0 then none
  else
    match readAcquire bucket.ring with
    | (none, _, _) => none
    | (some offset, available, cursor) =>
        if available < entrySize then none
        else some (valueOf (segment cursor.data offset entrySize))

/-- The loop of `bucket_priority_queue_peek`, in so many rounds at most. -/
def peekLoop (queue : Queue) : ℕ → UInt8 → Option UInt64
  | 0, _ => none
  | fuel + 1, mask =>
      if mask = 0 then none
      else
        let p := highestNonEmptyPriority mask
        if (queue.buckets p).count = 0 then peekLoop queue fuel (mask &&& ~~~priorityBit p)
        else peekOne (queue.buckets p)

/-- `bucket_priority_queue_peek`. -/
def peek (queue : Queue) : Option UInt64 :=
  peekLoop queue queue.nonEmptyMask.toNat queue.nonEmptyMask

/-- The inner loop of `bucket_priority_queue_pop_batch`: the values and the bucket, and whether the
loop came to its end. `left` is what may still be popped. -/
def batchBucket : ℕ → ℕ → Bucket → List UInt64 × Bucket × Bool
  | 0, _, bucket => ([], bucket, true)
  | fuel + 1, left, bucket =>
      if 0 < bucket.count ∧ 0 < left then
        match readAcquire bucket.ring with
        | (none, _, ring) => ([], { bucket with ring }, false)
        | (some offset, available, ring) =>
            if available < entrySize then ([], { bucket with ring }, false)
            else
              let take := available / entrySize
              let take := if left < take then left else take
              let take := if bucket.count < take then bucket.count else take
              if take = 0 then ([], { bucket with ring }, false)
              else
                let values := valuesOf take (segment ring.data offset (take * entrySize))
                let result := batchBucket fuel (left - take)
                  { bucket with
                    ring := readRelease ring (take * entrySize), count := bucket.count - take }
                (values ++ result.1, result.2)
      else ([], bucket, true)

/-- The outer loop of `bucket_priority_queue_pop_batch`. -/
def batchLoop : ℕ → ℕ → Queue → List UInt64 × Queue
  | 0, _, queue => ([], queue)
  | fuel + 1, left, queue =>
      if queue.nonEmptyMask ≠ 0 ∧ 0 < left then
        let p := highestNonEmptyPriority queue.nonEmptyMask
        let mask := queue.nonEmptyMask &&& ~~~priorityBit p
        if (queue.buckets p).count = 0 then batchLoop fuel left { queue with nonEmptyMask := mask }
        else
          match batchBucket left left (queue.buckets p) with
          | (values, bucket, complete) =>
              let popped : Queue := ⟨Function.update queue.buckets p bucket,
                queue.totalSize - values.length,
                if complete ∧ bucket.count = 0 then mask else queue.nonEmptyMask⟩
              if !complete then (values, popped)
              else
                let result := batchLoop fuel (left - values.length) popped
                (values ++ result.1, result.2)
      else ([], queue)

/-- `bucket_priority_queue_pop_batch`: the values that are written. -/
def popBatch (queue : Queue) (maxItems : ℕ) : List UInt64 × Queue :=
  batchLoop queue.nonEmptyMask.toNat maxItems queue

end BucketQueue
