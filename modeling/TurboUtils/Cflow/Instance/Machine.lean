import TurboUtils.Cflow.Instance.TimerQueue
import TurboUtils.Cflow.Machine.Hierarchy

/-! An instance of a machine: its state, and what its functions do to it while they hold its lock.
Wakers of other components are left out, and so are the values that calls return. -/
namespace Cflow.Instance

open Machine

/-- What the functions of an instance ask of a type besides its descriptor being valid: its
alignment and that its values are copied as bytes. -/
class RuntimeType (τ : Type) extends TypeDesc τ where
  trivial : τ → Bool

instance : RuntimeType Unit := ⟨fun _ => true⟩

inductive ControlLifecycle where
  | opened
  | closeRequested
  | cancelRequested
  | terminal
  deriving DecidableEq, Repr

inductive WorkerPhase where
  | idle
  | scheduled
  | executing
  | committing
  deriving DecidableEq, Repr

inductive ReadyKind where
  | none
  | value
  | valueAndDone
  | done
  | error
  deriving DecidableEq, Repr

/-- An action computes a value of the target state and an observation, or fails. -/
abbrev ActionFn (ν : Type) := ν → ν → Except (Option String) (ν × ν)

/-- `cflow_machine_instance_config`; the hierarchy and the number of timers make the instance a
`cflow_machine_hierarchy_instance`, whose machine is the flat one of the hierarchy. -/
structure Config (τ ν : Type) where
  machine : Machine τ
  initialValue : ν
  outputType : τ
  guards : List (ℕ × GuardFn ν ν)
  actions : List (ℕ × ActionFn ν)
  mailboxCapacity : ℕ
  hierarchy : Option (Hierarchy τ)
  timerCapacity : ℕ

/-- The bindings as `copy_and_validate_bindings` keeps them. -/
def Config.guardTable {τ ν : Type} (c : Config τ ν) : List (ℕ × GuardFn ν ν) :=
  BinarySearch.sortBy (compareOn Prod.fst) c.guards
def Config.actionTable {τ ν : Type} (c : Config τ ν) : List (ℕ × ActionFn ν) :=
  BinarySearch.sortBy (compareOn Prod.fst) c.actions

/-- What `run_action` leaves behind: the row, the declared action and the values computed. -/
structure Ran (τ ν : Type) where
  row : Transition × ℕ
  action : Option (Action τ)
  value : ν
  observation : ν

structure Decision (τ ν : Type) extends Ran τ ν where
  target : State τ

inductive Verdict (τ ν : Type) where
  | committed (decision : Decision τ ν)
  | failed (failure : Failure)
  | cancelled

/-- What became of an event. The source only counts these. -/
structure Settlement (τ ν : Type) where
  event : Event τ ν
  verdict : Verdict τ ν

/-- `cflow_machine_instance_impl` with what it shares: the mailbox, the tasks posted to the executor,
and the gate and the timers of a hierarchical instance. A thread's number is the owner of the gate. -/
structure Shared (τ ν : Type) where
  mailbox : Mailbox τ ν
  state : State τ
  value : ν
  error : Option Failure
  completed : ℕ
  failed : ℕ
  cancelledInFlight : ℕ
  emittedValues : ℕ
  emittedEvents : ℕ
  inFlight : ℕ
  closed : Bool
  cancelled : Bool
  done : Bool
  rerun : Bool
  mailboxArmed : Bool
  lifecycle : ControlLifecycle
  phase : WorkerPhase
  ready : ReadyKind
  posted : ℕ
  gate : Option ℕ
  gateClosed : Bool
  gateCancelled : Bool
  timers : TimerQueue τ ν
  history : List (Settlement τ ν)

section Sections

variable {τ ν : Type} (s : Shared τ ν)

/-! ## The locked sections of machine_instance.c -/

def Shared.publishControlTerminal : Shared τ ν :=
  { s with
    lifecycle := .terminal
    done := true
    ready := match s.ready with
      | .value => .valueAndDone
      | .none => .done
      | ready => ready }

/-- An event in flight is cancelled: in `settle_cancelled_in_flight` and in the commit. -/
def Shared.settleCancelled (event : Event τ ν) : Shared τ ν :=
  { s with
    inFlight := s.inFlight - 1
    cancelledInFlight := s.cancelledInFlight + 1
    phase := .idle
    lifecycle := .terminal
    done := true
    ready := .done
    history := s.history ++ [⟨event, .cancelled⟩] }

/-- `fail_runtime`, between the two calls of the hook. -/
def Shared.fail (failure : Failure) (settled : Option (Event τ ν)) : Shared τ ν :=
  let cancelWon : Bool := s.lifecycle = .cancelRequested
  { s with
    error := if !cancelWon && s.error.isNone then some failure else s.error
    inFlight := if settled.isSome then s.inFlight - 1 else s.inFlight
    cancelledInFlight :=
      if settled.isSome && cancelWon then s.cancelledInFlight + 1 else s.cancelledInFlight
    failed := if settled.isSome && !cancelWon then s.failed + 1 else s.failed
    phase := .idle
    lifecycle := .terminal
    done := true
    ready := if cancelWon then .done else .error
    history := s.history ++ settled.toList.map fun event =>
      ⟨event, if cancelWon then .cancelled else .failed failure⟩ }

def Shared.publishDone : Shared τ ν :=
  { s with phase := .idle, lifecycle := .terminal, done := true, ready := .done }

inductive CommitDecision where
  | allowed
  | cancelled
  | invalid
  deriving DecidableEq, Repr

/-- `begin_commit_locked`; the phase it sets is overwritten before the lock is released. -/
def Shared.beginCommit : CommitDecision :=
  if s.lifecycle = .cancelRequested then .cancelled
  else if s.phase ≠ .executing || s.lifecycle ≠ .opened && s.lifecycle ≠ .closeRequested then
    .invalid
  else .allowed

def Ran.observes (ran : Ran τ ν) (observation : ActionObservation) : Bool :=
  ran.action.any (·.observation = observation)

def Shared.publishObservation (decision : Decision τ ν) : Shared τ ν :=
  if decision.observes .event && !s.closed then
    { s with emittedEvents := s.emittedEvents + 1 }
  else if decision.observes .value then
    { s with
      emittedValues := s.emittedValues + 1
      ready := match decision.target.kind with
        | .active => .value
        | .done => .valueAndDone
        | _ => .error
      done := s.done || decision.target.kind ≠ .active }
  else if decision.target.kind = .done then { s with done := true, ready := .done }
  else s

def Shared.publishClose (decision : Decision τ ν) : Shared τ ν :=
  if s.lifecycle = .closeRequested && decision.target.kind = .active then
    { s with
      done := true
      ready := if decision.observes .value then .valueAndDone else .done }
  else s

def Shared.settleCommitted (event : Event τ ν) (decision : Decision τ ν) : Shared τ ν :=
  { s with
    value := decision.value
    state := decision.target
    inFlight := s.inFlight - 1
    failed := if decision.target.kind = .error then s.failed + 1 else s.failed
    completed := if decision.target.kind = .error then s.completed else s.completed + 1
    history := s.history ++ [⟨event, .committed decision⟩] }

def Shared.finishCommit (decision : Decision τ ν) : Shared τ ν :=
  { s with
    phase := .scheduled
    lifecycle := if s.done || decision.target.kind = .error then .terminal else s.lifecycle }

/-- The commit of `process_event` where it is allowed. -/
def Shared.commit (event : Event τ ν) (decision : Decision τ ν) : Shared τ ν :=
  (((s.settleCommitted event decision).publishObservation decision).publishClose
    decision).finishCommit decision

def Shared.settled : Bool := s.done || s.error.isSome || s.ready ≠ .none

/-- `schedule_machine_task` up to the post, with whether there is one. -/
def Shared.schedule : Shared τ ν × Bool :=
  if s.settled then (s, false)
  else if s.phase = .idle then ({ s with phase := .scheduled }, true)
  else ({ s with rerun := true }, false)

/-- The locked part of `machine_resume`, with whether a task is to be scheduled. -/
def Shared.resume : Shared τ ν × Bool :=
  match s.ready with
  | .value => ({ s with ready := .none }, false)
  | .valueAndDone => (s, false)
  | .error => (s, false)
  | .done => (s, false)
  | .none => (s, s.error.isNone && !s.done)

def Shared.working : Bool := s.phase = .executing || s.phase = .committing

def Shared.closeRequested : Shared τ ν :=
  { s with
    closed := true
    lifecycle := if s.lifecycle = .opened then .closeRequested else s.lifecycle
    mailboxArmed := false }

/-- `cflow_machine_instance_close` between the two calls of the hook. -/
def Shared.close : Shared τ ν :=
  if (s.done || s.error.isSome || !s.working) && s.error.isNone then
    s.closeRequested.publishControlTerminal
  else s.closeRequested

def Shared.cancelRequested : Shared τ ν :=
  { s with
    closed := true
    cancelled := true
    lifecycle := .cancelRequested
    mailboxArmed := false }

/-- `request_cancel` between the two calls of the hook, unless everything is over. -/
def Shared.cancel : Shared τ ν :=
  if s.working then s.cancelRequested else s.cancelRequested.publishControlTerminal

/-- The end of `machine_executor_task`, with whether the task is posted once more. -/
def Shared.endTask (quantum : Bool) : Shared τ ν × Bool :=
  ({ s with phase := if s.phase = .scheduled then .idle else s.phase },
    (s.rerun || quantum) && !s.settled)

/-! ## The sections of machine_hierarchy.c -/

/-- `hierarchy_scope_active`. -/
def scopeActive (hierarchy : Hierarchy τ) (current scope : ℕ) : Bool :=
  match findStateIndex hierarchy.states current, findStateIndex hierarchy.states scope with
  | some current, some expected =>
      hierarchy.states[current]?.any (·.kind = .active) &&
        isDescendant hierarchy.toNodes current expected
  | _, _ => false

def endsService (hierarchy : Hierarchy τ) (index : ℕ) : Bool :=
  hierarchy.flat.transitions[index]?.any fun transition =>
    (findStateIndex hierarchy.states transition.target).any fun target =>
      hierarchy.states[target]?.any (·.kind ≠ .active)

/-- The end of `hierarchy_transition_committed`, up to the closing of the timers. -/
def Shared.transitionCommitted (hierarchy : Hierarchy τ) (index : Option ℕ) : Shared τ ν :=
  match index.bind fun i => (routeAt hierarchy i).map (i, ·) with
  | none => { s with gateClosed := true }
  | some (i, route) =>
      { s with
        timers := s.timers.cancelScopes route.exitStates
        gateClosed := s.gateClosed || endsService hierarchy i }

end Sections

section Init

variable {τ ν : Type} [RuntimeType τ]

open TypeDesc

/-! ## Selection and action -/

def runtimeTypeSupported (type : τ) : Bool :=
  valid type && size type ≠ 0 && RuntimeType.trivial type

/-- `run_action`. -/
def runAction (c : Config τ ν) (value : ν) (event : Event τ ν) (row : Transition × ℕ) :
    Except Failure (Ran τ ν) :=
  if row.1.action = 0 then .ok ⟨row, none, value, value⟩
  else match findAction c.machine row.1.action, findRow Prod.fst c.actionTable row.1.action with
    | some action, some binding =>
        match binding.2 value event.payload with
        | .ok (value, observation) => .ok ⟨row, some action, value, observation⟩
        | .error message =>
            if action.effects &&& effectMayFail = 0 then .error .actionContract
            else .error (.actionFailed message)
    | _, _ => .error .actionMissing

/-- The selection of `process_event`. -/
def select (c : Config τ ν) (state : State τ) (value : ν) (event : Event τ ν) :
    Except Failure (Transition × ℕ) :=
  selectTransition c.guardTable value event.payload c.machine state.id event.type.id

/-- The event that `emit_action_event` sends, if the action has one. -/
def emittedEvent (ran : Ran τ ν) : Option (EventView τ ν) :=
  ran.action.bind fun action => action.outputType.map fun type =>
    ⟨action.outputEventId, type, ran.observation⟩

/-! ## Creating an instance -/

/-- `cflow_machine_instance_status`, less success. -/
inductive InstanceStatus where
  | invalidArgument
  | bindingMismatch
  | typeMismatch
  | unsupportedType
  deriving DecidableEq, Repr

/-- The check of `copy_and_validate_bindings`: the sorted bindings are for the declared ids. -/
def bindingsMatch (c : Config τ ν) : Bool :=
  c.guardTable.map Prod.fst = c.machine.guards.map (·.id) &&
    c.actionTable.map Prod.fst = c.machine.actions.map (·.id)

/-- `measure_supported_types` for an action. -/
def checkActionType (c : Config τ ν) (action : Action τ) : Except InstanceStatus Unit :=
  if action.observation = .value && !action.outputType.any (equal · c.outputType) then
    .error .typeMismatch
  else if action.observation ≠ .none && !action.outputType.any runtimeTypeSupported then
    .error .unsupportedType
  else .ok ()

def measureSupportedTypes (c : Config τ ν) : Except InstanceStatus Unit :=
  if !runtimeTypeSupported c.outputType then .error .unsupportedType
  else if c.machine.states.any fun state => !runtimeTypeSupported state.valueType then
    .error .unsupportedType
  else c.machine.actions.foldlM (fun _ action => checkActionType c action) ()

/-- `cflow_schema_measure`, which decides whether the mailbox can be initialized. -/
def schemaSupported (schema : List (EventType τ)) : Bool :=
  schema.all (fun type => type.id ≠ 0 && runtimeTypeSupported type.payloadType) &&
    (schema.map (·.id)).Nodup

def initialShared (c : Config τ ν) (initial : State τ) : Shared τ ν where
  mailbox := if initial.kind = .active then .init c.machine.events c.mailboxCapacity
    else (Mailbox.init c.machine.events c.mailboxCapacity).cancel.1
  state := initial
  value := c.initialValue
  error := if initial.kind = .error then some .initialErrorState else none
  completed := 0
  failed := 0
  cancelledInFlight := 0
  emittedValues := 0
  emittedEvents := 0
  inFlight := 0
  closed := false
  cancelled := false
  done := initial.kind ≠ .active
  rerun := false
  mailboxArmed := false
  lifecycle := if initial.kind = .active then .opened else .terminal
  phase := .idle
  ready := match initial.kind with
    | .done => .done
    | .error => .error
    | _ => .none
  posted := 0
  gate := none
  gateClosed := false
  gateCancelled := false
  timers := .init 0
  history := []

/-- `cflow_machine_instance_init_internal`. -/
def instanceInit (c : Config τ ν) : Except InstanceStatus (Shared τ ν) :=
  if c.mailboxCapacity = 0 then .error .invalidArgument
  else match findState c.machine c.machine.initialState with
    | none => .error .invalidArgument
    | some initial =>
        if !bindingsMatch c then .error .bindingMismatch
        else match measureSupportedTypes c with
          | .error status => .error status
          | .ok () =>
              if c.machine.events ≠ [] && !schemaSupported c.machine.events then
                .error .unsupportedType
              else .ok (initialShared c initial)

/-- `cflow_machine_hierarchy_instance_status`, less success, with the status of the machine. -/
inductive HierarchyInstanceStatus where
  | invalidArgument
  | machineRejected (status : InstanceStatus)
  | timerRejected
  deriving DecidableEq, Repr

/-- `cflow_machine_hierarchy_instance_init`. -/
def hierarchyInstanceInit (c : Config τ ν) (hierarchy : Hierarchy τ) :
    Except HierarchyInstanceStatus (Shared τ ν) :=
  if c.timerCapacity = 0 then .error .invalidArgument
  else match instanceInit c with
    | .error status => .error (.machineRejected status)
    | .ok s =>
        if s.mailbox.schema = [] || s.mailbox.payloadCapacity = 0 then .error .timerRejected
        else
          let ended := (findStateIndex hierarchy.states s.state.id).any fun initial =>
            hierarchy.states[initial]?.any (·.kind ≠ .active)
          let timers := TimerQueue.init c.timerCapacity
          .ok { s with
            gateClosed := ended
            timers := if ended then timers.closeBegin else timers }

/-- The shared state right after the instance was created. -/
inductive Created (c : Config τ ν) (s : Shared τ ν) : Prop
  | plain (hc : c.hierarchy = none) (h : instanceInit c = .ok s)
  | hierarchical (hierarchy : Hierarchy τ) (hc : c.hierarchy = some hierarchy)
      (hm : c.machine = hierarchy.flat) (h : hierarchyInstanceInit c hierarchy = .ok s)

variable {c : Config τ ν} {s : Shared τ ν}

theorem instanceInit_ok (h : instanceInit c = .ok s) : ∃ initial,
    findState c.machine c.machine.initialState = some initial ∧ c.mailboxCapacity ≠ 0 ∧
      bindingsMatch c = true ∧ (c.machine.events = [] ∨ schemaSupported c.machine.events) ∧
      s = initialShared c initial := by
  simp only [instanceInit] at h
  split at h
  · cases h
  · rename_i hcapacity
    split at h
    · cases h
    · rename_i initial hinitial
      split at h
      · cases h
      · rename_i hbindings
        split at h
        · cases h
        · split at h
          · cases h
          · rename_i hschema
            cases h
            refine ⟨initial, hinitial, hcapacity, by simpa using hbindings, ?_, rfl⟩
            by_cases hevents : c.machine.events = []
            · exact .inl hevents
            · exact .inr (by simpa [hevents] using hschema)

def initiallyEnded (hierarchy : Hierarchy τ) (initial : ℕ) : Bool :=
  (findStateIndex hierarchy.states initial).any fun initial =>
    hierarchy.states[initial]?.any (·.kind ≠ .active)

theorem hierarchyInstanceInit_ok {hierarchy : Hierarchy τ}
    (h : hierarchyInstanceInit c hierarchy = .ok s) : ∃ s₀, instanceInit c = .ok s₀ ∧
      s = { s₀ with
        gateClosed := initiallyEnded hierarchy s₀.state.id
        timers := if initiallyEnded hierarchy s₀.state.id then
          (TimerQueue.init c.timerCapacity).closeBegin else .init c.timerCapacity } := by
  simp only [hierarchyInstanceInit] at h
  split at h
  · cases h
  · split at h
    · cases h
    · rename_i s₀ hinit
      split at h
      · cases h
      · cases h
        exact ⟨s₀, hinit, rfl⟩

end Init

theorem initialShared_frame {τ ν : Type} (c : Config τ ν) (initial : State τ) :
    Mailbox.Frame (.init c.machine.events c.mailboxCapacity) (initialShared c initial).mailbox := by
  unfold initialShared
  dsimp only
  split_ifs
  · exact .refl _
  · exact Mailbox.cancel_frame _

end Cflow.Instance
