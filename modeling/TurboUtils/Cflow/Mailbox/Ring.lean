import TurboUtils.Cflow.Machine.Build
import TurboUtils.Lib.RingBuffer

/-! `cflow_mailbox`: a ring of typed slots over a block of bytes, with one waiter. -/
namespace Cflow.Mailbox

open Machine TypeDesc

/-- `SIZE_MAX`. -/
def sizeMax : ℕ := 2 ^ 64 - 1

/-- `UINT64_MAX`. -/
def uint64Max : ℕ := 2 ^ 64 - 1

/-- `_Alignof(cmeta_capture_storage)`. -/
def captureAlign : ℕ := 16

/-- `sizeof(cflow_event_type)`. -/
def eventTypeSize : ℕ := 16

/-- `sizeof(cflow_event_slot)`. -/
def eventSlotSize : ℕ := 8

/-- What a mailbox asks of a type descriptor besides; `trivial` says that it has the traits of
trivial copies and destruction. -/
class PayloadDesc (τ : Type) extends TypeDesc τ where
  align : τ → ℕ
  trivial : τ → Bool

/-- `cflow_mailbox_status`, less success. -/
inductive Status where
  | invalidArgument
  | typeMismatch
  | full
  | empty
  | closed
  | cancelled
  | allocationFailed
  | bufferTooSmall
  deriving DecidableEq, Repr

/-- `cflow_mailbox_terminal`. -/
inductive Terminal where
  | opened
  | draining
  | cancelled
  deriving DecidableEq, Repr

/-- `cflow_event_view`; the payload is the memory from its address on. -/
structure EventView (τ : Type) where
  id : ℕ
  payloadType : τ
  payload : ℕ → UInt8

structure Event (τ : Type) where
  id : ℕ
  payloadType : τ
  payload : List UInt8

/-- `cflow_mailbox_impl`; a waker is one that has a function. -/
structure Impl (τ ω : Type) where
  schema : List (EventType τ)
  slots : ℕ → ℕ
  payloads : ℕ → UInt8
  capacity : ℕ
  payloadStride : ℕ
  head : ℕ
  count : ℕ
  peakPending : ℕ
  accepted : ℕ
  received : ℕ
  rejectedFull : ℕ
  rejectedClosed : ℕ
  rejectedCancelled : ℕ
  cancelled : ℕ
  terminal : Terminal
  waiter : Option ω

/-- `cflow_counter_increment`. -/
def counterIncrement (counter : ℕ) : ℕ := if counter ≠ uint64Max then counter + 1 else counter

/-- `cflow_counter_add_size`. -/
def counterAddSize (counter amount : ℕ) : ℕ :=
  if uint64Max - counter < amount then uint64Max else counter + amount

/-- `cflow_size_multiply`. -/
def sizeMultiply (left right : ℕ) : Option ℕ :=
  if left = 0 ∨ right = 0 ∨ sizeMax / right < left then none else some (left * right)

/-- `cflow_alignment_valid`. -/
def alignmentValid (alignment : ℕ) : Bool :=
  alignment ≠ 0 && alignment &&& (alignment - 1) = 0 && alignment ≤ captureAlign

/-- `cflow_align_size`; a difference stands for the mask. -/
def alignSize (size alignment : ℕ) : Option ℕ :=
  if size = 0 || !alignmentValid alignment then none
  else
    let padding := alignment - 1
    if sizeMax - padding < size then none
    else some (size + padding - ((size + padding) &&& padding))

/-- `memcpy` of so many bytes to an offset of a block. -/
def writeBytes (block : ℕ → UInt8) (offset n : ℕ) (bytes : ℕ → UInt8) : ℕ → UInt8 := fun k =>
  if offset ≤ k ∧ k < offset + n then bytes (k - offset) else block k

/-- `memcpy` of so many bytes from an offset of a block. -/
def readBytes (block : ℕ → UInt8) (offset n : ℕ) : List UInt8 :=
  (List.range n).map fun i => block (offset + i)

section Operations

variable {τ ω : Type} [PayloadDesc τ]

/-- The loop of `cflow_schema_measure`, behind some rows: the largest size and alignment. -/
def measureRows (previous : List (EventType τ)) (largestSize largestAlignment : ℕ) :
    List (EventType τ) → Option (ℕ × ℕ)
  | [] => some (largestSize, largestAlignment)
  | row :: rows =>
      let type := row.payloadType
      if row.id = 0 || !valid type || size type = 0 || !alignmentValid (PayloadDesc.align type) ||
          !PayloadDesc.trivial type then none
      else if previous.any (·.id = row.id) then none
      else measureRows (previous ++ [row])
        (if largestSize < size type then size type else largestSize)
        (if largestAlignment < PayloadDesc.align type then PayloadDesc.align type
          else largestAlignment) rows

/-- `cflow_schema_measure`. -/
def schemaMeasure (schema : List (EventType τ)) : Option (ℕ × ℕ) :=
  if schema = [] then none else measureRows [] 0 0 schema

/-- The payload stride that `cflow_mailbox_init` finds for its arguments. -/
def initStride (schema : List (EventType τ)) (capacity : ℕ) : Option ℕ :=
  if schema = [] ∨ capacity = 0 then none
  else do
    let _ ← sizeMultiply schema.length eventTypeSize
    let _ ← sizeMultiply capacity eventSlotSize
    let (maxPayloadSize, maxPayloadAlignment) ← schemaMeasure schema
    let payloadStride ← alignSize maxPayloadSize maxPayloadAlignment
    let _ ← sizeMultiply capacity payloadStride
    some payloadStride

/-- `cflow_mailbox_init`; a block of payloads holds anything. -/
def init (schema : List (EventType τ)) (capacity : ℕ) (memory : Option (ℕ → UInt8)) :
    Except Status (Impl τ ω) :=
  match initStride schema capacity, memory with
  | none, _ => .error .invalidArgument
  | some _, none => .error .allocationFailed
  | some payloadStride, some payloads => .ok {
      schema := schema
      slots := fun _ => 0
      payloads := payloads
      capacity := capacity
      payloadStride := payloadStride
      head := 0
      count := 0
      peakPending := 0
      accepted := 0
      received := 0
      rejectedFull := 0
      rejectedClosed := 0
      rejectedCancelled := 0
      cancelled := 0
      terminal := .opened
      waiter := none }

namespace Impl

variable (impl : Impl τ ω)

omit [PayloadDesc τ] in
/-- `cflow_mailbox_type_index`. -/
def typeIndex (id : ℕ) : Option ℕ := if id = 0 then none else impl.schema.findIdx? (·.id = id)

/-- `cflow_mailbox_try_send`: an error, the mailbox, and the waker that is invoked. -/
def trySend (event : EventView τ) : Option Status × Impl τ ω × Option ω :=
  match impl.typeIndex event.id with
  | none => (some .invalidArgument, impl, none)
  | some typeIndex =>
      match impl.schema[typeIndex]? with
      | none => (some .invalidArgument, impl, none) -- not reached: the index is one of a row
      | some row =>
          if !equal row.payloadType event.payloadType then (some .typeMismatch, impl, none)
          else if impl.terminal = .cancelled then
            (some .cancelled,
              { impl with rejectedCancelled := counterIncrement impl.rejectedCancelled }, none)
          else if impl.terminal = .draining then
            (some .closed, { impl with rejectedClosed := counterIncrement impl.rejectedClosed },
              none)
          else if impl.count = impl.capacity then
            (some .full, { impl with rejectedFull := counterIncrement impl.rejectedFull }, none)
          else
            let tail := (impl.head + impl.count) % impl.capacity
            (none, { impl with
              payloads := writeBytes impl.payloads (tail * impl.payloadStride)
                (size row.payloadType) event.payload
              slots := Function.update impl.slots tail typeIndex
              count := impl.count + 1
              peakPending :=
                if impl.peakPending < impl.count + 1 then impl.count + 1 else impl.peakPending
              accepted := counterIncrement impl.accepted
              waiter := none }, impl.waiter)

/-- `cflow_mailbox_try_receive` to an address with a capacity: the event, and the mailbox. -/
def tryReceive (outAddress outCapacity : ℕ) : Except Status (Event τ × Impl τ ω) :=
  if impl.count = 0 then
    .error (match impl.terminal with
      | .cancelled => .cancelled
      | .draining => .closed
      | .opened => .empty)
  else
    let head := impl.head
    match impl.schema[impl.slots head]? with
    | none => .error .invalidArgument -- not reached: the index is one of a row
    | some row =>
        if outCapacity < size row.payloadType then .error .bufferTooSmall
        else if outAddress % PayloadDesc.align row.payloadType ≠ 0 then .error .invalidArgument
        else
          let payload := readBytes impl.payloads (head * impl.payloadStride) (size row.payloadType)
          .ok (⟨row.id, row.payloadType, payload⟩, { impl with
            head := (head + 1) % impl.capacity
            count := impl.count - 1
            received := counterIncrement impl.received })

omit [PayloadDesc τ] in
/-- `cflow_mailbox_close`. -/
def close : Option Status × Impl τ ω × Option ω :=
  match impl.terminal with
  | .cancelled => (some .cancelled, impl, none)
  | .draining => (some .closed, impl, none)
  | .opened => (none, { impl with terminal := .draining, waiter := none }, impl.waiter)

omit [PayloadDesc τ] in
/-- `cflow_mailbox_cancel`. -/
def cancel : Option Status × Impl τ ω × Option ω :=
  if impl.terminal = .cancelled then (some .cancelled, impl, none)
  else (none, { impl with
    terminal := .cancelled
    cancelled := counterAddSize impl.cancelled impl.count
    head := 0
    count := 0
    waiter := none }, impl.waiter)

omit [PayloadDesc τ] in
/-- `cflow_mailbox_wait_arm`; a waker without a function is none. -/
def waitArm (waker : Option ω) : Bool × Impl τ ω × Option ω :=
  match waker with
  | none => (false, impl, none)
  | some waker =>
      let ready := impl.count ≠ 0 || impl.terminal ≠ .opened
      if !ready && impl.waiter.isSome then (false, impl, none)
      else if !ready then (true, { impl with waiter := some waker }, none)
      else (true, impl, some waker)

omit [PayloadDesc τ] in
/-- `cflow_mailbox_wait_cancel`. -/
def waitCancel : Impl τ ω := { impl with waiter := none }

end Impl

end Operations

/-! The slots of a mailbox hold the events that were sent to them: a payload that is written to one
block leaves the others. -/

open RingBuffer

/-! ## Blocks of bytes -/

theorem readBytes_writeBytes_self (block bytes : ℕ → UInt8) (offset n : ℕ) :
    readBytes (writeBytes block offset n bytes) offset n = readBytes bytes 0 n := by
  refine List.map_congr_left fun i hi => ?_
  have hlt : i < n := List.mem_range.1 hi
  rw [writeBytes, if_pos (by omega), Nat.add_sub_cancel_left, Nat.zero_add]

theorem readBytes_writeBytes_of_disjoint (block bytes : ℕ → UInt8) {offset offset' n m : ℕ}
    (h : offset' + m ≤ offset ∨ offset + n ≤ offset') :
    readBytes (writeBytes block offset n bytes) offset' m = readBytes block offset' m := by
  refine List.map_congr_left fun i hi => ?_
  have hlt : i < m := List.mem_range.1 hi
  rw [writeBytes, if_neg (by omega)]

theorem blocks_disjoint {stride i j n m : ℕ} (hne : i ≠ j) (hn : n ≤ stride) (hm : m ≤ stride) :
    i * stride + m ≤ j * stride ∨ j * stride + n ≤ i * stride := by
  rcases Nat.lt_or_gt_of_ne hne with hlt | hlt
  · have hblock : (i + 1) * stride ≤ j * stride := Nat.mul_le_mul_right _ hlt
    rw [Nat.add_mul, Nat.one_mul] at hblock
    exact Or.inl (by omega)
  · have hblock : (j + 1) * stride ≤ i * stride := Nat.mul_le_mul_right _ hlt
    rw [Nat.add_mul, Nat.one_mul] at hblock
    exact Or.inr (by omega)

section Typed

variable {τ ω : Type} [PayloadDesc τ]

/-! ## The stride -/

theorem size_le_of_measureRows {previous schema : List (EventType τ)} {largestSize largestAlignment
    maxSize maxAlignment : ℕ} (h : measureRows previous largestSize largestAlignment schema =
      some (maxSize, maxAlignment)) :
    largestSize ≤ maxSize ∧ ∀ row ∈ schema, size row.payloadType ≤ maxSize := by
  induction schema generalizing previous largestSize largestAlignment with
  | nil =>
    cases h
    exact ⟨le_rfl, fun row hrow => absurd hrow List.not_mem_nil⟩
  | cons row rows ih =>
    rw [measureRows] at h
    by_cases hinvalid : (decide (row.id = 0) || !valid row.payloadType ||
        decide (size row.payloadType = 0) || !alignmentValid (PayloadDesc.align row.payloadType) ||
          !PayloadDesc.trivial row.payloadType) = true
    · rw [if_pos hinvalid] at h
      cases h
    · rw [if_neg hinvalid] at h
      by_cases hknown : (previous.any fun other => decide (other.id = row.id)) = true
      · rw [if_pos hknown] at h
        cases h
      · rw [if_neg hknown] at h
        obtain ⟨hlargest, hrows⟩ := ih h
        have hboth : largestSize ≤ maxSize ∧ size row.payloadType ≤ maxSize := by
          split_ifs at hlargest with hless
          · exact ⟨hless.le.trans hlargest, hlargest⟩
          · exact ⟨hlargest, (not_lt.1 hless).trans hlargest⟩
        exact ⟨hboth.1, List.forall_mem_cons.2 ⟨hboth.2, hrows⟩⟩

theorem le_alignSize {n alignment aligned : ℕ} (h : alignSize n alignment = some aligned) :
    n ≤ aligned := by
  unfold alignSize at h
  dsimp only at h
  split_ifs at h
  cases h
  have hmask : (n + (alignment - 1)) &&& (alignment - 1) ≤ alignment - 1 := Nat.and_le_right
  omega

theorem size_le_initStride {schema : List (EventType τ)} {capacity stride : ℕ}
    (h : initStride schema capacity = some stride) :
    0 < capacity ∧ ∀ row ∈ schema, size row.payloadType ≤ stride := by
  unfold initStride at h
  by_cases hempty : schema = [] ∨ capacity = 0
  · rw [if_pos hempty] at h
    cases h
  · rw [if_neg hempty] at h
    refine ⟨Nat.pos_of_ne_zero (not_or.1 hempty).2, ?_⟩
    simp only [Option.bind_eq_bind, Option.bind_eq_some_iff] at h
    obtain ⟨-, -, -, -, ⟨maxSize, maxAlignment⟩, hmeasure, aligned, halign, -, -, hstride⟩ := h
    cases hstride
    unfold schemaMeasure at hmeasure
    rw [if_neg (not_or.1 hempty).1] at hmeasure
    exact fun row hrow => ((size_le_of_measureRows hmeasure).2 row hrow).trans (le_alignSize halign)

namespace Impl

variable {impl : Impl τ ω}

def cell (impl : Impl τ ω) (k : ℕ) : Option (Event τ) :=
  impl.schema[impl.slots k]?.map fun row => ⟨row.id, row.payloadType,
    readBytes impl.payloads (k * impl.payloadStride) (size row.payloadType)⟩

omit [PayloadDesc τ] in
theorem typeIndex_some {id index : ℕ} (h : impl.typeIndex id = some index) :
    ∃ row, impl.schema[index]? = some row ∧ row.id = id := by
  unfold typeIndex at h
  split_ifs at h
  obtain ⟨hlt, hid, -⟩ := List.findIdx?_eq_some_iff_getElem.1 h
  exact ⟨_, List.getElem?_eq_getElem hlt, of_decide_eq_true hid⟩

def store (impl : Impl τ ω) (tail typeIndex n : ℕ) (payload : ℕ → UInt8) : Impl τ ω :=
  { impl with
    payloads := writeBytes impl.payloads (tail * impl.payloadStride) n payload
    slots := Function.update impl.slots tail typeIndex }

theorem cell_store_self {tail index : ℕ} {row : EventType τ} {payload : ℕ → UInt8}
    (hrow : impl.schema[index]? = some row) :
    (impl.store tail index (size row.payloadType) payload).cell tail =
      some ⟨row.id, row.payloadType, readBytes payload 0 (size row.payloadType)⟩ := by
  unfold cell store
  dsimp only
  rw [Function.update_self, hrow, Option.map_some, readBytes_writeBytes_self]

theorem cell_store_of_ne {tail index n k : ℕ} {payload : ℕ → UInt8}
    (hfits : ∀ row ∈ impl.schema, size row.payloadType ≤ impl.payloadStride)
    (hn : n ≤ impl.payloadStride) (hne : k ≠ tail) :
    (impl.store tail index n payload).cell k = impl.cell k := by
  unfold cell store
  dsimp only
  rw [Function.update_of_ne hne]
  cases hrow : impl.schema[impl.slots k]? with
  | none => rfl
  | some row =>
    have hsize := hfits row (List.mem_of_getElem? hrow)
    rw [Option.map_some, Option.map_some,
      readBytes_writeBytes_of_disjoint _ _ (blocks_disjoint hne hn hsize)]

end Impl

end Typed

end Cflow.Mailbox
