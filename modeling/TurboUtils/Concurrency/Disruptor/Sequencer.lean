import TurboUtils.Lib.GapCursor

/-! `disruptor_t`: claims and publication of sequences over a ring, with registered consumers
(broadcast) or a pool of workers. A call is one step; the entries themselves, which no cursor
depends on, are left out. -/
namespace Concurrency

namespace Disruptor

/-- `UINT64_MAX`. -/
def uint64Max : ℕ := 2 ^ 64 - 1

/-- `DISRUPTOR_VACANT`. -/
def vacant : ℕ := uint64Max

inductive Mode where
  | broadcast | workerPool
  deriving DecidableEq

structure Config where
  entrySize : ℕ
  capacity : ℕ
  consumerCapacity : ℕ
  mode : Mode

end Disruptor

/-- The cursors and tables of `disruptor_s`; a row of `consumerDependencies` holds as many slots
as `consumer_dependency_counts` says. -/
structure Disruptor where
  capacity : ℕ
  consumerCapacity : ℕ
  mode : Disruptor.Mode
  slowestConsumer : ℕ
  maxReadCursor : ℕ
  writeCursor : ℕ
  workerClaimCursor : ℕ
  workerCompletedCursor : ℕ
  consumerCursors : ℕ → ℕ
  publishedSequences : ℕ → ℕ
  workerCompletedSequences : ℕ → ℕ
  consumerDependencies : ℕ → List ℕ

namespace Disruptor

/-- `disruptor_init`. -/
def init (config : Config) : Disruptor where
  capacity := config.capacity
  consumerCapacity := config.consumerCapacity
  mode := config.mode
  slowestConsumer := 0
  maxReadCursor := 0
  writeCursor := 0
  workerClaimCursor := 1
  workerCompletedCursor := 0
  consumerCursors := fun _ => vacant
  publishedSequences := fun _ => 0
  workerCompletedSequences := fun _ => 0
  consumerDependencies := fun _ => []

/-- `disruptor_create`, with allocations that succeed. -/
def create (config : Config) : Option Disruptor :=
  if config.entrySize = 0 ∨ config.capacity = 0 ∨ config.consumerCapacity = 0 then none
  else if ¬(config.capacity ≠ 0 ∧ config.capacity &&& (config.capacity - 1) = 0) then none
  else if uint64Max / config.capacity < config.entrySize then none
  else if uint64Max / 8 < config.capacity then none
  else if uint64Max / 4 / config.consumerCapacity < config.consumerCapacity then none
  else some (init config)

/-- `disruptor_ring_index`. -/
def ringIndex (d : Disruptor) (sequence : ℕ) : ℕ := (d.capacity - 1) &&& sequence

/-- `disruptor_publisher_has_capacity`. -/
def publisherHasCapacity (d : Disruptor) (writer slowest : ℕ) : Bool :=
  decide (Word.sub 64 writer slowest ≤ d.capacity)

/-- `disruptor_consumer_is_registered`. -/
def consumerIsRegistered (d : Disruptor) (slot : ℕ) : Bool :=
  decide (slot < d.consumerCapacity) && decide (d.consumerCursors slot ≠ vacant)

/-! ## The slowest reader -/

/-- The scan of `disruptor_refresh_slowest_reader` over the slots. -/
def slowestCursor (d : Disruptor) : ℕ :=
  (List.range d.consumerCapacity).foldl (fun slowest i => min (d.consumerCursors i) slowest) vacant

/-- What `disruptor_refresh_slowest_reader` finds, before it is cached. -/
def slowestReader (d : Disruptor) (target : ℕ) : ℕ :=
  match d.mode with
  | .workerPool => d.workerCompletedCursor
  | .broadcast =>
      if d.slowestCursor = vacant then Word.sub 64 target (d.ringIndex target)
      else d.slowestCursor

/-- `disruptor_refresh_slowest_reader`. -/
def refreshSlowestReader (d : Disruptor) (target : ℕ) : Disruptor × ℕ :=
  let slowest := d.slowestReader target
  (if d.slowestConsumer < slowest then { d with slowestConsumer := slowest } else d, slowest)

/-! ## Marks and the cursors that move over them -/

/-- The inner loop of the two `try_advance` functions; the marks of one table match at most
`capacity` sequences in a row. -/
def probe (d : Disruptor) (marks : ℕ → ℕ) : ℕ → ℕ → ℕ
  | 0, sequence => sequence
  | n + 1, sequence =>
      if marks (d.ringIndex sequence) = sequence then d.probe marks n (Word.add 64 sequence 1)
      else sequence

/-- Where a `try_advance` function moves a cursor to, if it moves it. -/
def advanced (d : Disruptor) (marks : ℕ → ℕ) (current : ℕ) : Option ℕ :=
  let next := Word.add 64 current 1
  let probe := d.probe marks d.capacity next
  if probe = next then none else some (Word.sub 64 probe 1)

/-- `disruptor_try_advance_published_cursor`. -/
def tryAdvancePublishedCursor (d : Disruptor) : Disruptor :=
  match d.advanced d.publishedSequences d.maxReadCursor with
  | none => d
  | some desired => { d with maxReadCursor := desired }

/-- `disruptor_try_advance_worker_completed_cursor`. -/
def tryAdvanceWorkerCompletedCursor (d : Disruptor) : Disruptor :=
  match d.advanced d.workerCompletedSequences d.workerCompletedCursor with
  | none => d
  | some desired => { d with workerCompletedCursor := desired, slowestConsumer := desired }

/-- `disruptor_mark_published`. -/
def markPublished (d : Disruptor) (sequence : ℕ) : Disruptor :=
  { d with publishedSequences :=
      Function.update d.publishedSequences (d.ringIndex sequence) sequence }

/-- `disruptor_mark_worker_completed`. -/
def markWorkerCompleted (d : Disruptor) (sequence : ℕ) : Disruptor :=
  { d with workerCompletedSequences :=
      Function.update d.workerCompletedSequences (d.ringIndex sequence) sequence }

/-! ## Producers -/

/-- `disruptor_try_claim_range_internal`. -/
def tryClaimRange (d : Disruptor) (count : ℕ) : Disruptor × Option (ℕ × ℕ) :=
  if count = 0 then (d, none)
  else if d.capacity < count then (d, none)
  else
    let first := Word.add 64 d.writeCursor 1
    if first = 0 ∨ uint64Max - (count - 1) < first then (d, none)
    else
      let last := Word.add 64 first (count - 1)
      let grant := fun d : Disruptor =>
        ({ d with writeCursor := Word.add 64 d.writeCursor count }, some (first, last))
      if d.publisherHasCapacity last d.slowestConsumer then grant d
      else
        match refreshSlowestReader d last with
        | (d, slowest) => if d.publisherHasCapacity last slowest then grant d else (d, none)

/-- The marking loop of `disruptor_publish_range_internal`. -/
def markRange (d : Disruptor) : ℕ → ℕ → Disruptor
  | 0, _ => d
  | n + 1, sequence => markRange (markPublished d sequence) n (Word.add 64 sequence 1)

/-- `disruptor_publish_range_internal` without waiting. -/
def publishRange (d : Disruptor) (first last : ℕ) : Disruptor :=
  if first = 0 ∨ last < first then d
  else if d.maxReadCursor = Word.sub 64 first 1 then
    tryAdvancePublishedCursor { d with maxReadCursor := last }
  else tryAdvancePublishedCursor (markRange d (last - first + 1) first)

/-! ## Workers -/

/-- `disruptor_worker_try_claim`. -/
def workerTryClaim (d : Disruptor) : Disruptor × Option ℕ :=
  if d.mode = .workerPool then
    if d.maxReadCursor < d.workerClaimCursor then (d, none)
    else
      ({ d with workerClaimCursor := Word.add 64 d.workerClaimCursor 1 },
        some d.workerClaimCursor)
  else (d, none)

/-- `disruptor_worker_release_entry`. -/
def workerReleaseEntry (d : Disruptor) (sequence : ℕ) : Disruptor :=
  if sequence = 0 ∨ d.mode ≠ .workerPool then d
  else tryAdvanceWorkerCompletedCursor (markWorkerCompleted d sequence)

/-! ## Consumers -/

/-- `disruptor_consumer_try_register`: the slot and the next sequence. A weak compare-exchange
may fail on a vacant slot; `fails` says on which. -/
def consumerTryRegister (d : Disruptor) (fails : ℕ → Bool) : Disruptor × Option (ℕ × ℕ) :=
  if d.mode ≠ .broadcast then (d, none)
  else
    match (List.range d.consumerCapacity).find? fun i =>
        decide (d.consumerCursors i = vacant) && !fails i with
    | none => (d, none)
    | some i =>
        ({ d with consumerCursors := Function.update d.consumerCursors i d.slowestConsumer },
          some (i, Word.add 64 d.slowestConsumer 1))

/-- `disruptor_consumer_unregister`. -/
def consumerUnregister (d : Disruptor) (slot : ℕ) : Disruptor :=
  if d.mode ≠ .broadcast ∨ d.consumerIsRegistered slot = false then d
  else
    (refreshSlowestReader
      { d with consumerCursors := Function.update d.consumerCursors slot vacant }
      (Word.add 64 1 d.writeCursor)).1

/-- `disruptor_consumer_available_sequence`. -/
def consumerAvailableSequence (d : Disruptor) (slot : ℕ) : ℕ :=
  (d.consumerDependencies slot).foldl (fun available dep => min (d.consumerCursors dep) available)
    d.maxReadCursor

/-- `disruptor_consumer_wait_for_nonblocking_for`: the last sequence handed out. -/
def consumerWaitFor (d : Disruptor) (slot required : ℕ) : Option ℕ :=
  if d.mode ≠ .broadcast ∨ d.consumerIsRegistered slot = false then none
  else if d.consumerAvailableSequence slot < required then none
  else some (d.consumerAvailableSequence slot)

/-- `disruptor_consumer_release_entry`. -/
def consumerReleaseEntry (d : Disruptor) (slot sequence : ℕ) : Disruptor :=
  if d.mode ≠ .broadcast ∨ d.consumerIsRegistered slot = false then d
  else { d with consumerCursors := Function.update d.consumerCursors slot sequence }

end Disruptor

end Concurrency
