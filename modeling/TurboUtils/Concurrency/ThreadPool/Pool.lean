import TurboUtils.Concurrency.Disruptor.WorkerPool

/-! `salts_threadpool_t`: submitters, workers and callers of shutdown, each with its place in the
code. A step is one atomic access or one section under a mutex; an operation of the queue is one
step. -/
namespace Concurrency

/-- `salts_threadpool_task_t`: the argument stands for the submission, `run` says whether the
callback is there. -/
structure Task where
  id : ℕ
  run : Bool
  deriving DecidableEq

inductive ShutdownPolicy where
  | drain | cancelPending
  deriving DecidableEq

/-- The answers of `salts_threadpool_submit_internal`. -/
inductive Status where
  | ok | einval | eshutdown | ebusy | enobufs
  deriving DecidableEq

/-- `salts_threadpool_s` with the cells of its ring, and how often each task was run and
cancelled. -/
structure ThreadPool where
  numThreads : ℕ
  queueCapacity : ℕ
  queue : Disruptor
  ring : ℕ → Task
  accepting : Bool
  shutdown : Bool
  shutdownPolicy : Option ShutdownPolicy
  cancelPending : Bool
  queuedDepth : ℤ
  tasksSubmitted : ℤ
  tasksStarted : ℤ
  tasksCompleted : ℤ
  tasksCancelled : ℤ
  tasksRejected : ℤ
  peakPendingTasks : ℤ
  ran : ℕ → ℕ
  cancelled : ℕ → ℕ

namespace ThreadPool

/-- The loop of `salts_threadpool_round_up_pow2`; it doubles at most 63 times. -/
def roundUpLoop (value : ℕ) : ℕ → ℕ → ℕ
  | 0, rounded => rounded
  | n + 1, rounded =>
      if rounded < value then
        if 2 ^ 63 - 1 < rounded then 0 else roundUpLoop value n (2 * rounded)
      else rounded

/-- `salts_threadpool_round_up_pow2`. -/
def roundUpPow2 (value : ℕ) : ℕ := if value = 0 then 0 else roundUpLoop value 64 1

/-- `salts_threadpool_create_with_config`, where `cpuCount` processors are there and allocations
and threads succeed. -/
def create (cpuCount : ℕ) (numThreads : ℤ) (queueCapacity : ℕ) : Option ThreadPool :=
  let threads := if numThreads ≤ 0 then cpuCount else numThreads.toNat
  let capacity := if 0 < queueCapacity then queueCapacity else 4096
  if capacity = 2 ^ 64 - 1 then none
  else
    let ringCapacity := roundUpPow2 capacity
    if ringCapacity = 0 ∨ 2 ^ 63 - 1 < ringCapacity then none
    else
      (Disruptor.create ⟨32, ringCapacity, 1, .workerPool⟩).map fun queue =>
        { numThreads := threads
          queueCapacity := capacity
          queue
          ring := fun _ => ⟨0, false⟩
          accepting := true
          shutdown := false
          shutdownPolicy := none
          cancelPending := false
          queuedDepth := 0
          tasksSubmitted := 0
          tasksStarted := 0
          tasksCompleted := 0
          tasksCancelled := 0
          tasksRejected := 0
          peakPendingTasks := 0
          ran := fun _ => 0
          cancelled := fun _ => 0 }

/-! ## Submitters -/

/-- Where a call of `salts_threadpool_submit_internal` is. A place is named after the access that
comes next; `x` is the claimed sequence. -/
inductive SubmitPc where
  | enter | admitShutdown | rejectClosed
  | reserveAccepting | reserveShutdown | reserveDepth | reserveTry (depth : ℤ) | park
  | refused | busyAccepting | busyShutdown | refusedAccepting | refusedShutdown
  | claim | claimAccepting | claimShutdown
  | giveUp | giveUpReject | giveUpAccepting | giveUpShutdown
  | write (x : ℕ) | countSubmitted (x : ℕ) | peakCompleted (x : ℕ) (submitted : ℤ)
  | peakSeen (x : ℕ) (candidate : ℤ) | peakTry (x : ℕ) (candidate seen : ℤ)
  | publish (x : ℕ) | signal
  | returned (status : Status)
  deriving DecidableEq

/-- A call: its task, its `blocking` argument, and whether it comes from a callback of the pool. -/
structure Submission where
  task : Task
  blocking : Bool
  inPool : Bool
  pc : SubmitPc

/-- What `salts_threadpool_try_reserve_queue_slot` does after it has read `depth`. -/
def Submission.reserve (call : Submission) (p : ThreadPool) (depth : ℤ) : SubmitPc :=
  if depth < p.queueCapacity then .reserveTry depth
  else if call.blocking && !call.inPool then .park
  else .refused

/-- The next step of a call; a weak compare-exchange fails if `fails` says so. -/
def Submission.step (p : ThreadPool) (call : Submission) (fails : Bool) : ThreadPool × SubmitPc :=
  match call.pc with
  | .enter =>
      if call.task.run = false then (p, .returned .einval)
      else (p, if p.accepting then .admitShutdown else .rejectClosed)
  | .admitShutdown => (p, if p.shutdown then .rejectClosed else .reserveAccepting)
  | .rejectClosed => ({ p with tasksRejected := p.tasksRejected + 1 }, .returned .eshutdown)
  | .reserveAccepting => (p, if p.accepting then .reserveShutdown else .refused)
  | .reserveShutdown => (p, if p.shutdown then .refused else .reserveDepth)
  | .reserveDepth => (p, call.reserve p p.queuedDepth)
  | .reserveTry depth =>
      if p.queuedDepth = depth ∧ fails = false then
        ({ p with queuedDepth := depth + 1 }, .claim)
      else (p, call.reserve p p.queuedDepth)
  | .park =>
      (p, if p.queueCapacity ≤ p.queuedDepth ∧ p.accepting = true ∧ p.shutdown = false then .park
        else .reserveAccepting)
  | .refused =>
      ({ p with tasksRejected := p.tasksRejected + 1 },
        if call.blocking && call.inPool then .busyAccepting else .refusedAccepting)
  | .busyAccepting => (p, if p.accepting then .busyShutdown else .refusedAccepting)
  | .busyShutdown => (p, if p.shutdown then .refusedAccepting else .returned .ebusy)
  | .refusedAccepting => (p, if p.accepting then .refusedShutdown else .returned .eshutdown)
  | .refusedShutdown => (p, .returned (if p.shutdown then .eshutdown else .enobufs))
  | .claim =>
      match Disruptor.tryClaimRange p.queue 1 with
      | (queue, some (x, _)) => ({ p with queue }, .write x)
      | (queue, none) =>
          ({ p with queue }, if call.blocking && !call.inPool then .claimAccepting else .giveUp)
  | .claimAccepting => (p, if p.accepting then .claimShutdown else .giveUp)
  | .claimShutdown => (p, if p.shutdown then .giveUp else .claim)
  | .giveUp => ({ p with queuedDepth := p.queuedDepth - 1 }, .giveUpReject)
  | .giveUpReject => ({ p with tasksRejected := p.tasksRejected + 1 }, .giveUpAccepting)
  | .giveUpAccepting => (p, if p.accepting then .giveUpShutdown else .returned .eshutdown)
  | .giveUpShutdown =>
      (p, .returned (if p.shutdown then .eshutdown
        else if call.blocking && call.inPool then .ebusy else .enobufs))
  | .write x =>
      ({ p with ring := Function.update p.ring (p.queue.ringIndex x) call.task },
        .countSubmitted x)
  | .countSubmitted x =>
      ({ p with tasksSubmitted := p.tasksSubmitted + 1 }, .peakCompleted x (p.tasksSubmitted + 1))
  | .peakCompleted x submitted => (p, .peakSeen x (submitted - p.tasksCompleted))
  | .peakSeen x candidate =>
      (p, if p.peakPendingTasks < candidate then .peakTry x candidate p.peakPendingTasks
        else .publish x)
  | .peakTry x candidate seen =>
      if p.peakPendingTasks = seen ∧ fails = false then
        ({ p with peakPendingTasks := candidate }, .publish x)
      else
        (p, if p.peakPendingTasks < candidate then .peakTry x candidate p.peakPendingTasks
          else .publish x)
  | .publish x => ({ p with queue := Disruptor.publishRange p.queue x x }, .signal)
  | .signal => (p, .returned .ok)
  | .returned status => (p, .returned status)

/-! ## Workers -/

/-- Where a worker is in `worker_entry`. -/
inductive WorkerPc where
  | take
  | exitShutdown | exitSubmitted | exitCompleted (pending : ℤ) | exitCancelled (pending : ℤ)
  | exitDepth | idleDepth | park
  | invalidRelease | invalidCancel
  | cancelCheck (task : Task)
  | cancelRun (task : Task) | cancelRelease | cancelCount
  | start (task : Task) | runRelease (task : Task) | run (task : Task) | finish
  | leaving | ended
  deriving DecidableEq

def WorkerPc.step (p : ThreadPool) : WorkerPc → ThreadPool × WorkerPc
  | .take =>
      match Disruptor.workerTryClaim p.queue with
      | (queue, none) => ({ p with queue }, .exitShutdown)
      | (queue, some x) =>
          ({ p with queue := Disruptor.workerReleaseEntry queue x },
            if (p.ring (queue.ringIndex x)).run then .cancelCheck (p.ring (queue.ringIndex x))
            else .invalidRelease)
  | .exitShutdown => (p, if p.shutdown then .exitSubmitted else .idleDepth)
  | .exitSubmitted => (p, .exitCompleted p.tasksSubmitted)
  | .exitCompleted pending => (p, .exitCancelled (pending - p.tasksCompleted))
  | .exitCancelled pending =>
      (p, if pending - p.tasksCancelled ≤ 0 then .exitDepth else .idleDepth)
  | .exitDepth => (p, if p.queuedDepth ≤ 0 then .leaving else .idleDepth)
  | .idleDepth => (p, if 0 < p.queuedDepth then .take else .park)
  | .park => (p, if p.queuedDepth ≤ 0 ∧ p.shutdown = false then .park else .take)
  | .invalidRelease => ({ p with queuedDepth := p.queuedDepth - 1 }, .invalidCancel)
  | .invalidCancel => ({ p with tasksCancelled := p.tasksCancelled + 1 }, .take)
  | .cancelCheck task => (p, if p.cancelPending then .cancelRun task else .start task)
  | .cancelRun task =>
      ({ p with
        cancelled := Function.update p.cancelled task.id (p.cancelled task.id + 1) },
        .cancelRelease)
  | .cancelRelease => ({ p with queuedDepth := p.queuedDepth - 1 }, .cancelCount)
  | .cancelCount => ({ p with tasksCancelled := p.tasksCancelled + 1 }, .take)
  | .start task => ({ p with tasksStarted := p.tasksStarted + 1 }, .runRelease task)
  | .runRelease task => ({ p with queuedDepth := p.queuedDepth - 1 }, .run task)
  | .run task => ({ p with ran := Function.update p.ran task.id (p.ran task.id + 1) }, .finish)
  | .finish => ({ p with tasksCompleted := p.tasksCompleted + 1 }, .take)
  | .leaving => (p, .ended)
  | .ended => (p, .ended)

/-! ## Shutdown -/

/-- Where a call of `salts_threadpool_shutdown_with_policy` is; `busy` is a refused change of the
policy. -/
inductive ShutdownPc where
  | policy | accepting | cancelPending | shutdown | broadcast | notify | ok | busy
  deriving DecidableEq

/-- The next step of a call with this policy. -/
def ShutdownPc.step (p : ThreadPool) (policy : ShutdownPolicy) :
    ShutdownPc → ThreadPool × ShutdownPc
  | .policy =>
      match p.shutdownPolicy with
      | none => ({ p with shutdownPolicy := some policy }, .accepting)
      | some expected => (p, if expected = policy then .accepting else .busy)
  | .accepting =>
      ({ p with accepting := false }, if policy = .cancelPending then .cancelPending else .shutdown)
  | .cancelPending => ({ p with cancelPending := true }, .shutdown)
  | .shutdown => ({ p with shutdown := true }, .broadcast)
  | .broadcast => (p, .notify)
  | .notify => (p, .ok)
  | .ok => (p, .ok)
  | .busy => (p, .busy)

/-! ## The parties together -/

/-- A pool with its workers, and the calls of submit and shutdown so far, by number. -/
structure System where
  p : ThreadPool
  workers : ℕ → WorkerPc
  calls : ℕ → Submission
  callCount : ℕ
  closers : ℕ → ShutdownPolicy × ShutdownPc
  closerCount : ℕ

inductive Action where
  | submit (run blocking inPool : Bool)
  | call (c : ℕ) (fails : Bool)
  | worker (w : ℕ)
  | close (policy : ShutdownPolicy)
  | closer (k : ℕ)

/-- One step of one party; `none` when there is no such party. -/
def System.step (s : System) : Action → Option System
  | .submit run blocking inPool =>
      some { s with
        calls := Function.update s.calls s.callCount
          ⟨⟨s.callCount, run⟩, blocking, inPool, .enter⟩
        callCount := s.callCount + 1 }
  | .call c fails =>
      if c < s.callCount then
        let next := (s.calls c).step s.p fails
        some { s with
          p := next.1
          calls := Function.update s.calls c { s.calls c with pc := next.2 } }
      else none
  | .worker w =>
      if w < s.p.numThreads then
        let next := (s.workers w).step s.p
        some { s with p := next.1, workers := Function.update s.workers w next.2 }
      else none
  | .close policy =>
      some { s with
        closers := Function.update s.closers s.closerCount (policy, .policy)
        closerCount := s.closerCount + 1 }
  | .closer k =>
      if k < s.closerCount then
        let next := (s.closers k).2.step s.p (s.closers k).1
        some { s with
          p := next.1
          closers := Function.update s.closers k ((s.closers k).1, next.2) }
      else none

def System.start (p : ThreadPool) : System where
  p
  workers := fun _ => .take
  calls := fun _ => ⟨⟨0, false⟩, false, false, .enter⟩
  callCount := 0
  closers := fun _ => (.drain, .policy)
  closerCount := 0

/-- The states that runs reach whose steps are all allowed where they are taken. -/
inductive System.Reaches (allowed : System → Action → Prop) (p : ThreadPool) : System → Prop
  | start : Reaches allowed p (.start p)
  | step {s s' : System} {action : Action} : Reaches allowed p s → allowed s action →
      s.step action = some s' → Reaches allowed p s'

end ThreadPool

end Concurrency
