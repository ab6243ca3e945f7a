import TurboUtils.Cflow.Instance.Machine
import TurboUtils.Lib.Interleaving

/-! The threads around an instance: thread 0 is the worker of its executor, the others call the
public functions. Every section under a lock is one step. -/
namespace Cflow.Instance

open Machine Interleaving

/-- `cflow_admission_status` as the executor answers a post. -/
inductive Admission where
  | accepted
  | full
  | closed
  deriving DecidableEq, Repr

inductive Call (τ ν : Type) where
  | hookBegin
  | hookEnd (index : Option ℕ)
  | lockGate
  | unlockGate
  | closeTimers
  | awaitTimers
  | cancelMailbox
  | cancelWait
  | wake
  | schedule
  | post
  | unschedule
  | fail (failure : Failure)
  | publishDone
  | armCheck
  | arm
  | unarm
  | send (event : EventView τ ν)
  | resume
  | close
  | cancel
  | scheduleTimer (scope : ℕ) (event : EventView τ ν)
  | cancelTimer (id : ℕ)
  | closeGate
  | cancelGate
  | claimTimer
  | deliver
  | releaseTimer

/-- The event that `process_event` works on, and the rounds that the task has left after it. -/
structure Flight (τ ν : Type) where
  event : Event τ ν
  left : ℕ

/-- How far `process_event` has come when it looks for a cancellation. -/
inductive Stage (τ ν : Type) where
  | start
  | selected (row : Transition × ℕ)
  | ran (ran : Ran τ ν)
  | failed (failure : Failure)

/-- Where the worker is in `machine_executor_task`. -/
inductive Point (τ ν : Type) where
  | task
  | loop (left : ℕ)
  | receive (left : ℕ)
  | empty
  | take (flight : Flight τ ν)
  | settle (flight : Flight τ ν) (stage : Stage τ ν)
  | checkClosed (flight : Flight τ ν) (decision : Decision τ ν)
  | emit (flight : Flight τ ν) (decision : Decision τ ν)
  | abort (flight : Flight τ ν) (failure : Failure)
  | commit (flight : Flight τ ν) (decision : Decision τ ν)
  | finish (quantum : Bool)

/-- The public functions. `cancelAdapter` is the cancellation through a publisher or resumable. -/
inductive Request (τ ν : Type) where
  | send (event : EventView τ ν)
  | resume
  | close
  | cancel
  | cancelAdapter
  | scheduleTimer (scope : ℕ) (event : EventView τ ν)
  | cancelTimer (id : ℕ)
  | runOneReady

/-- What the code leaves open: the executor's answer, the timer that is due, the function called. -/
inductive Label (τ ν : Type) where
  | go
  | answer (admission : Admission)
  | ready (timer : ℕ)
  | call (request : Request τ ν)

/-- `CFLOW_MACHINE_INSTANCE_QUANTUM`. -/
def quantum : ℕ := 64

section Calls

variable {τ ν : Type}

/-- `fail_runtime`; the section ends with the hook and the cancellation of the mailbox. -/
def failRuntime (failure : Failure) : List (Call τ ν) := [.hookBegin, .fail failure]

def wakes (wake : Bool) : List (Call τ ν) := if wake then [.wake] else []

def afterTerminal : List (Call τ ν) := [.hookEnd none, .cancelMailbox]

def Request.calls (hierarchical : Bool) : Request τ ν → List (Call τ ν)
  | .send event => [.send event]
  | .resume => [.resume]
  | .close => if hierarchical then [.lockGate, .closeGate] else [.hookBegin, .close]
  | .cancel => if hierarchical then [.lockGate, .cancelGate] else [.hookBegin, .cancel]
  | .cancelAdapter => [.hookBegin, .cancel]
  | .scheduleTimer scope event =>
      if hierarchical && scope ≠ 0 then [.lockGate, .scheduleTimer scope event, .unlockGate] else []
  | .cancelTimer id => if hierarchical then [.lockGate, .cancelTimer id, .unlockGate] else []
  | .runOneReady => if hierarchical then [.lockGate, .claimTimer, .unlockGate] else []

variable [RuntimeType τ]

/-- `cflow_machine_instance_timer_event_contract`: the declared type of the payload. -/
def timerContract (machine : Machine τ) (event : EventView τ ν) : Option τ :=
  if event.id = 0 then none
  else (findEvent machine event.id).bind fun expected =>
    if TypeDesc.equal expected.payloadType event.payloadType then some expected.payloadType else none

/-- `cflow_machine_hierarchy_instance_try_schedule_at` and `_after` under the gate. -/
def Shared.scheduleTimer (c : Config τ ν) (hierarchy : Hierarchy τ) (s : Shared τ ν) (scope : ℕ)
    (event : EventView τ ν) : Shared τ ν :=
  if s.gateClosed || !scopeActive hierarchy s.state.id scope then s
  else match timerContract c.machine event with
    | none => s
    | some type => { s with
        timers := (s.timers.schedule scope ⟨event.id, type, event.payload⟩).2 }

def perform (c : Config τ ν) (t : ℕ) (l : Label τ ν) (s : Shared τ ν) :
    Call τ ν → Option (Shared τ ν × List (Call τ ν))
  | .hookBegin => match c.hierarchy with
      | none => some (s, [])
      | some _ => if s.gate = none then some ({ s with gate := some t }, []) else none
  | .hookEnd index => match c.hierarchy with
      | none => some (s, [])
      | some hierarchy =>
          some (s.transitionCommitted hierarchy index,
            if (s.transitionCommitted hierarchy index).gateClosed then
              [.closeTimers, .awaitTimers, .unlockGate]
            else [.unlockGate])
  | .lockGate => if s.gate = none then some ({ s with gate := some t }, []) else none
  | .unlockGate => some ({ s with gate := none }, [])
  | .closeTimers => some ({ s with timers := s.timers.closeBegin }, [])
  | .awaitTimers => if s.timers.firing.isSome then none else some (s, [])
  | .cancelMailbox => some ({ s with mailbox := s.mailbox.cancel.1 }, wakes s.mailbox.cancel.2)
  | .cancelWait => some ({ s with mailbox := s.mailbox.disarm }, [])
  | .wake => some ({ s with mailboxArmed := false }, [.schedule])
  | .schedule => some (s.schedule.1, if s.schedule.2 then [.post] else [])
  | .post => match l with
      | .answer .accepted => some ({ s with posted := s.posted + 1 }, [])
      | .answer .full => some (s, .unschedule :: failRuntime .executorFull)
      | .answer .closed => some (s, .unschedule :: failRuntime .executorClosed)
      | _ => none
  | .unschedule => some ({ s with phase := .idle }, [])
  | .fail failure => some (s.fail failure none, afterTerminal)
  | .publishDone => some (s.publishDone, afterTerminal)
  | .armCheck =>
      if s.done || s.error.isSome then some (s, [])
      else some ({ s with mailboxArmed := true }, [.arm])
  | .arm => match s.mailbox.arm with
      | none => some (s, .unarm :: failRuntime .armFailed)
      | some (mailbox, wake) => some ({ s with mailbox := mailbox }, wakes wake)
  | .unarm => some ({ s with mailboxArmed := false }, [])
  | .send event =>
      some ({ s with mailbox := (s.mailbox.trySend event).2.1 }, wakes (s.mailbox.trySend event).2.2)
  | .resume => some (s.resume.1, if s.resume.2 then [.schedule] else [])
  | .close =>
      some (s.close, .hookEnd none :: ((if s.mailboxArmed then [.cancelWait] else []) ++
        [.cancelMailbox]))
  | .cancel =>
      if s.done || s.lifecycle = .terminal then some (s, [.hookEnd none])
      else some (s.cancel, .hookEnd none :: ((if s.mailboxArmed then [.cancelWait] else []) ++
        [.cancelMailbox]))
  | .scheduleTimer scope event => match c.hierarchy with
      | none => none
      | some hierarchy => some (s.scheduleTimer c hierarchy scope event, [])
  | .cancelTimer id =>
      some (if s.gateClosed then s else { s with timers := (s.timers.cancel id).2 }, [])
  | .closeGate =>
      some ({ s with gateClosed := true }, .unlockGate ::
        if s.gateClosed then [] else [.closeTimers, .awaitTimers, .hookBegin, .close])
  | .cancelGate =>
      some ({ s with gateClosed := true, gateCancelled := true }, .unlockGate ::
        if s.gateCancelled then [] else [.closeTimers, .awaitTimers, .hookBegin, .cancel])
  | .claimTimer => match l with
      | .ready id =>
          if s.gateClosed then some (s, [])
          else match s.timers.claim id with
            | none => some (s, [])
            | some timers => some ({ s with timers := timers }, [.deliver, .releaseTimer])
      | _ => some (s, [])
  | .deliver => match s.timers.firing with
      | none => none
      | some timer =>
          some ({ s with mailbox := (s.mailbox.trySend timer.event).2.1 },
            wakes (s.mailbox.trySend timer.event).2.2)
  | .releaseTimer => some ({ s with timers := s.timers.release }, [])

/-- What `process_event` does up to its next look for a cancellation, or to its commit. -/
def advance (c : Config τ ν) (s : Shared τ ν) (flight : Flight τ ν) :
    Stage τ ν → List (Call τ ν) × Point τ ν
  | .start => match select c s.state s.value flight.event with
      | .error failure => ([], .settle flight (.failed failure))
      | .ok row => ([], .settle flight (.selected row))
  | .selected row => match runAction c s.value flight.event row with
      | .error failure => ([], .settle flight (.failed failure))
      | .ok ran => ([], .settle flight (.ran ran))
  | .failed failure => ([.hookBegin], .abort flight failure)
  | .ran ran => match findState c.machine ran.row.1.target with
      | none => ([.hookBegin], .abort flight .targetInvalid)
      | some target =>
          if ran.observes .event then ([], .checkClosed flight ⟨ran, target⟩)
          else ([.hookBegin], .commit flight ⟨ran, target⟩)

/-- What follows a commit, where `closing` says that the instance was about to close. -/
def afterCommit (decision : Decision τ ν) (closing : Bool) : List (Call τ ν) :=
  .hookEnd (some decision.row.2) ::
    if decision.target.kind = .error then failRuntime .errorState
    else if decision.target.kind = .done || closing then [.cancelMailbox]
    else []

/-- Whether `process_event` asks for another round. -/
def continues (decision : Decision τ ν) (closing : Bool) : Bool :=
  decision.target.kind = .active && !closing && !decision.observes .value

def proceed (c : Config τ ν) (s : Shared τ ν) :
    Point τ ν → Outcome (Shared τ ν) (Call τ ν) (Point τ ν)
  | .task => ⟨{ s with rerun := false }, [], some (.loop quantum)⟩
  | .loop 0 => ⟨s, [], some (.finish true)⟩
  | .loop (left + 1) =>
      if s.settled then ⟨s, [], some (.finish false)⟩
      else ⟨{ s with phase := .executing }, [], some (.receive left)⟩
  | .receive left => match s.mailbox.tryReceive s.mailbox.payloadCapacity with
      | .ok (event, mailbox) => ⟨{ s with mailbox := mailbox }, [], some (.take ⟨event, left⟩)⟩
      | .error .empty => ⟨s, [], some .empty⟩
      | .error .closed => ⟨s, [.hookBegin, .publishDone], some (.finish false)⟩
      | .error .cancelled => ⟨s, [.hookBegin, .publishDone], some (.finish false)⟩
      | .error _ => ⟨s, failRuntime .receiveFailed, some (.finish false)⟩
  | .empty =>
      ⟨{ s with phase := .scheduled },
        if s.lifecycle ≠ .opened then [.hookBegin, .publishDone] else [.armCheck],
        some (.finish false)⟩
  | .take flight => ⟨{ s with inFlight := s.inFlight + 1 }, [], some (.settle flight .start)⟩
  | .settle flight stage =>
      if s.lifecycle = .cancelRequested then
        ⟨s.settleCancelled flight.event, [], some (.finish false)⟩
      else ⟨s, (advance c s flight stage).1, some (advance c s flight stage).2⟩
  | .checkClosed flight decision =>
      if s.closed then ⟨s, [.hookBegin], some (.commit flight decision)⟩
      else ⟨s, [], some (.emit flight decision)⟩
  | .emit flight decision => match emittedEvent decision.toRan with
      | none => ⟨s, [.hookBegin], some (.abort flight .emittedRejected)⟩
      | some event => match s.mailbox.trySend event with
          | (.ok, mailbox, wake) =>
              ⟨{ s with mailbox := mailbox }, wakes wake ++ [.hookBegin],
                some (.commit flight decision)⟩
          | (.full, _, _) => ⟨s, [.hookBegin], some (.abort flight .emittedFull)⟩
          | _ => ⟨s, [.hookBegin], some (.abort flight .emittedRejected)⟩
  | .abort flight failure =>
      ⟨s.fail failure (some flight.event), afterTerminal, some (.finish false)⟩
  | .commit flight decision => match s.beginCommit with
      | .cancelled =>
          ⟨s.settleCancelled flight.event, afterTerminal, some (.finish false)⟩
      | .invalid =>
          ⟨s, [.hookEnd none, .hookBegin], some (.abort flight .commitInvalid)⟩
      | .allowed =>
          let closing : Bool := s.lifecycle = .closeRequested
          ⟨s.commit flight.event decision, afterCommit decision closing,
            some (if continues decision closing then .loop flight.left else .finish false)⟩
  | .finish quantum =>
      ⟨(s.endTask quantum).1, if (s.endTask quantum).2 then [.schedule] else [], none⟩

def begin (c : Config τ ν) (t : ℕ) (l : Label τ ν) (s : Shared τ ν) :
    Option (Outcome (Shared τ ν) (Call τ ν) (Point τ ν)) :=
  if t = 0 then
    if s.posted = 0 then none else some ⟨{ s with posted := s.posted - 1 }, [], some .task⟩
  else match l with
    | .call request => some ⟨s, request.calls c.hierarchy.isSome, none⟩
    | _ => none

def program (c : Config τ ν) : Program (Shared τ ν) (Call τ ν) (Point τ ν) (Label τ ν) where
  call t call l s := perform c t l s call
  resume _ point _ s := some (proceed c s point)
  start t l s := begin c t l s

abbrev Config.World (_ : Config τ ν) := Interleaving.State (Shared τ ν) (Call τ ν) (Point τ ν)

/-- No thread has begun anything. -/
def Config.world (c : Config τ ν) (s : Shared τ ν) : c.World := ⟨s, fun _ => ⟨[], none⟩⟩

/-- What can be reached from the creation of the instance. -/
def Config.Reachable (c : Config τ ν) (s : c.World) : Prop :=
  ∃ s₀ schedule, Created c s₀ ∧ run (program c) (c.world s₀) schedule = some s

end Calls

end Cflow.Instance
