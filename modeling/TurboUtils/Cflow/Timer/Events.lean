import TurboUtils.Cflow.Instance.TimerQueue
import TurboUtils.Lib.Transition
import TurboUtils.Lib.Word

/-! The timer queue of timer_queue.c: an array of tasks in the order of their submission. The tasks'
functions are left out; what a task is for is told by its user. -/
namespace Cflow.Timer

/-- `cflow_timer_task`; the user is the number of a slot. -/
structure Task where
  id : ℕ
  deadline : ℕ
  order : ℕ
  user : ℕ
  deriving DecidableEq, Repr

/-- `cflow_timer_queue`. -/
structure Queue where
  items : List Task
  capacity : ℕ
  nextId : ℕ
  nextOrder : ℕ

def Task.before (a b : Task) : Bool :=
  a.deadline < b.deadline || a.deadline = b.deadline && a.order < b.order

namespace Queue

/-- `cflow_timer_queue_init_with_capacity`. -/
def init (capacity : ℕ) : Queue := ⟨[], capacity, 1, 0⟩

/-- A round of the loop of `earliest_index`: the index and the task that is due first so far. -/
def earlier (best : Option (ℕ × Task)) (candidate : Task × ℕ) : Option (ℕ × Task) :=
  match best with
  | none => some (candidate.2, candidate.1)
  | some (i, task) =>
      if candidate.1.before task then some (candidate.2, candidate.1) else some (i, task)

/-- `earliest_index`, with the task at the index. -/
def earliest (items : List Task) : Option (ℕ × Task) := items.zipIdx.foldl earlier none

variable (queue : Queue)

/-- `cflow_timer_queue_try_schedule_task`: the new id, unless the queue is full. -/
def trySchedule (deadline user : ℕ) : Option (ℕ × Queue) :=
  if queue.capacity ≤ queue.items.length || queue.nextId = 0 ||
      queue.nextOrder = 2 ^ 64 - 1 then none
  else some (queue.nextId, { queue with
    items := queue.items ++ [⟨queue.nextId, deadline, queue.nextOrder, user⟩]
    nextId := Word.add 64 queue.nextId 1
    nextOrder := queue.nextOrder + 1 })

/-- `cflow_timer_queue_take`. -/
def take (id : ℕ) : Option (Task × Queue) :=
  if id = 0 then none
  else (queue.items.findIdx? (·.id = id)).bind fun i =>
    queue.items[i]?.map fun task => (task, { queue with items := queue.items.eraseIdx i })

/-- `cflow_timer_queue_cancel`. -/
def cancel (id : ℕ) : Option Queue := (queue.take id).map Prod.snd

/-- `cflow_timer_queue_take_ready`. -/
def takeReady (now : ℕ) : Option (Task × Queue) :=
  (earliest queue.items).bind fun (i, task) =>
    if now < task.deadline then none
    else some (task, { queue with items := queue.items.eraseIdx i })

end Queue

theorem Task.before_irrefl (a : Task) : a.before a = false := by simp [Task.before]

theorem Task.before_trans {a b c : Task} (hab : a.before b = true) (hbc : b.before c = true) :
    a.before c = true := by
  simp only [Task.before, Bool.or_eq_true, Bool.and_eq_true, decide_eq_true_eq] at hab hbc ⊢
  omega

namespace Queue

def Best (items : List Task) : Option (ℕ × Task) → Prop
  | none => items = []
  | some (i, task) => items[i]? = some task ∧ ∀ other ∈ items, other.before task = false

theorem earlier_best {items : List Task} {best : Option (ℕ × Task)} (h : Best items best)
    (candidate : Task) : Best (items ++ [candidate]) (earlier best (candidate, items.length)) := by
  have hlast : (items ++ [candidate])[items.length]? = some candidate := by simp
  cases best with
  | none =>
    have hnil : items = [] := h
    subst hnil
    refine ⟨hlast, fun other hmem => ?_⟩
    rw [List.nil_append, List.mem_singleton] at hmem
    rw [hmem, Task.before_irrefl]
  | some best =>
    obtain ⟨i, task⟩ := best
    obtain ⟨hget, hmin⟩ := h
    simp only [earlier]
    split_ifs with hearlier
    · refine ⟨hlast, fun other hmem => ?_⟩
      rcases List.mem_append.1 hmem with hmem | hmem
      · by_contra hother
        rw [Bool.not_eq_false] at hother
        have htask := Task.before_trans hother hearlier
        rw [hmin other hmem] at htask
        cases htask
      · rw [List.mem_singleton.1 hmem, Task.before_irrefl]
    · refine ⟨?_, fun other hmem => ?_⟩
      · rw [List.getElem?_append_left (List.getElem?_eq_some_iff.1 hget).1]
        exact hget
      · rcases List.mem_append.1 hmem with hmem | hmem
        · exact hmin other hmem
        · rw [List.mem_singleton.1 hmem]
          simpa using hearlier

theorem earliest_best (items : List Task) : Best items (earliest items) := by
  have hloop : ∀ (rest items : List Task) (best : Option (ℕ × Task)), Best items best →
      Best (items ++ rest) ((rest.zipIdx items.length).foldl earlier best) := by
    intro rest
    induction rest with
    | nil =>
      intro items best h
      simpa using h
    | cons task rest ih =>
      intro items best h
      have hnext := ih (items ++ [task]) _ (earlier_best h task)
      simpa using hnext
  exact hloop items [] none rfl

structure Removes (queue queue' : Queue) (task : Task) : Prop where
  split : ∃ pre post, queue.items = pre ++ task :: post ∧ queue'.items = pre ++ post
  capacity : queue'.capacity = queue.capacity
  nextId : queue'.nextId = queue.nextId
  nextOrder : queue'.nextOrder = queue.nextOrder

theorem removes_eraseIdx {queue : Queue} {i : ℕ} {task : Task} (h : queue.items[i]? = some task) :
    Removes queue { queue with items := queue.items.eraseIdx i } task := by
  obtain ⟨hi, rfl⟩ := List.getElem?_eq_some_iff.1 h
  refine ⟨⟨queue.items.take i, queue.items.drop (i + 1), ?_, List.eraseIdx_eq_take_drop_succ ..⟩,
    rfl, rfl, rfl⟩
  rw [← List.drop_eq_getElem_cons hi, List.take_append_drop]

variable {queue queue' : Queue} {task : Task} {id now : ℕ}

theorem Removes.mem (h : Removes queue queue' task) : task ∈ queue.items := by
  obtain ⟨pre, post, hpre, -⟩ := h.split
  rw [hpre]
  exact List.mem_append_right _ List.mem_cons_self

theorem trySchedule_some {deadline user : ℕ}
    (h : queue.trySchedule deadline user = some (id, queue')) :
    ∃ task, queue'.items = queue.items ++ [task] ∧ task.id = id ∧ task.user = user := by
  unfold trySchedule at h
  split_ifs at h
  cases h
  exact ⟨_, rfl, rfl, rfl⟩

theorem take_some (h : queue.take id = some (task, queue')) :
    Removes queue queue' task ∧ task.id = id := by
  unfold take at h
  split_ifs at h
  obtain ⟨i, hi, h⟩ := Option.bind_eq_some_iff.1 h
  obtain ⟨found, hfound, h⟩ := Option.map_eq_some_iff.1 h
  cases h
  refine ⟨removes_eraseIdx hfound, ?_⟩
  obtain ⟨hlt, hid, -⟩ := List.findIdx?_eq_some_iff_getElem.1 hi
  obtain ⟨_, rfl⟩ := List.getElem?_eq_some_iff.1 hfound
  simpa using hid

theorem takeReady_some (h : queue.takeReady now = some (task, queue')) :
    Removes queue queue' task ∧ task.deadline ≤ now ∧
      ∀ other ∈ queue.items, other.before task = false := by
  unfold takeReady at h
  obtain ⟨⟨i, found⟩, hearliest, h⟩ := Option.bind_eq_some_iff.1 h
  have hbest := earliest_best queue.items
  rw [hearliest] at hbest
  dsimp only at h
  split_ifs at h with hlate
  cases h
  exact ⟨removes_eraseIdx hbest.1, not_lt.1 hlate, hbest.2⟩

end Queue

/-! The queue of timer events of timer_event.c: slots that hold the events, a timer queue that holds
the deadlines, and the claim of a timer that is due. The sections under the mutex are the steps; the
target is asked before a schedule, and sent to in the middle of a commit. -/

open Machine Instance

/-- `timer_event_slot_state`. -/
inductive SlotState where
  | free
  | pending
  | firing
  deriving DecidableEq, Repr

/-- `timer_event_slot`. -/
structure Slot (τ : Type) where
  timerId : ℕ
  eventId : ℕ
  scope : ℕ
  payloadType : Option τ
  state : SlotState

/-- What `release_slot` leaves. -/
def Slot.released {τ : Type} : Slot τ := ⟨0, 0, 0, none, .free⟩

/-- `cflow_timer_event_fire_status`, less delivery and its failure. -/
inductive ClaimStatus where
  | claimed
  | invalidArgument
  | closed
  | busy
  | notReady
  deriving DecidableEq, Repr

inductive Happening (τ ν : Type) where
  | scheduled (id : ℕ) (event : EventView τ ν)
  | cancelled (id : ℕ)
  | claimed (id : ℕ)
  | sent (id : ℕ) (event : Option (EventView τ ν)) (status : MailboxStatus)
  | settled (id : ℕ) (status : MailboxStatus)

/-- A commit between its sending and its section: the slot, its timer and what the target said. -/
structure Commit where
  slot : ℕ
  id : ℕ
  status : MailboxStatus

/-- `cflow_timer_event_queue_impl`, with the slots that filled claims point to, the commits on their
way, and what has happened. -/
structure Events (τ ν : Type) where
  timers : Queue
  slots : ℕ → Slot τ
  payloads : ℕ → Option ν
  capacity : ℕ
  payloadStride : ℕ
  inFlight : ℕ
  peakPending : ℕ
  scheduled : ℕ
  delivered : ℕ
  cancelled : ℕ
  cancelledOnClose : ℕ
  mailboxRejected : ℕ
  mailboxRejectedFull : ℕ
  mailboxRejectedClosed : ℕ
  mailboxRejectedCancelled : ℕ
  mailboxRejectedOther : ℕ
  rejectedFull : ℕ
  rejectedClosed : ℕ
  closed : Bool
  consumerActive : Bool
  claims : List ℕ
  commits : List Commit
  history : List (Happening τ ν)

namespace Events

variable {τ ν : Type}

/-- `cflow_timer_event_queue_init_target_internal`. -/
def init (capacity payloadStride : ℕ) : Events τ ν where
  timers := .init capacity
  slots _ := .released
  payloads _ := none
  capacity := capacity
  payloadStride := payloadStride
  inFlight := 0
  peakPending := 0
  scheduled := 0
  delivered := 0
  cancelled := 0
  cancelledOnClose := 0
  mailboxRejected := 0
  mailboxRejectedFull := 0
  mailboxRejectedClosed := 0
  mailboxRejectedCancelled := 0
  mailboxRejectedOther := 0
  rejectedFull := 0
  rejectedClosed := 0
  closed := false
  consumerActive := false
  claims := []
  commits := []
  history := []

variable (s : Events τ ν)

/-- `find_free_slot`. -/
def findFreeSlot : Option ℕ := (List.range s.capacity).find? fun i => (s.slots i).state = .free

/-- `find_timer_slot`. -/
def findTimerSlot (id : ℕ) : Option ℕ :=
  (List.range s.capacity).find? fun i => (s.slots i).state ≠ .free && (s.slots i).timerId = id

/-- `release_slot`. -/
def releaseSlot (i : ℕ) : Events τ ν := { s with slots := Function.update s.slots i .released }

/-- The section of `schedule_at`, for an event that passed the contract. -/
def accept (deadline : ℕ) (event : EventView τ ν) (type : τ) (scope : ℕ) :
    (TimerStatus × ℕ) × Events τ ν :=
  if s.closed then ((.closed, 0), { s with rejectedClosed := s.rejectedClosed + 1 })
  else match s.findFreeSlot with
    | none => ((.full, 0), { s with rejectedFull := s.rejectedFull + 1 })
    | some i =>
        let payloads := Function.update s.payloads i (some event.payload)
        match s.timers.trySchedule deadline i with
        | none =>
            ((.full, 0), { s.releaseSlot i with
              payloads := payloads, rejectedFull := s.rejectedFull + 1 })
        | some (id, timers) =>
            ((.ok, id), { s with
              timers := timers
              slots := Function.update s.slots i ⟨id, event.id, scope, some type, .pending⟩
              payloads := payloads
              scheduled := s.scheduled + 1
              peakPending := max s.peakPending timers.items.length
              history := s.history ++ [.scheduled id ⟨event.id, type, event.payload⟩] })

/-- `schedule_at`, where the target answers an event with its canonical type or a refusal. -/
def scheduleAt [TypeDesc τ] (contract : EventView τ ν → Except MailboxStatus τ) (deadline : ℕ)
    (event : EventView τ ν) (scope : ℕ) : (TimerStatus × ℕ) × Events τ ν :=
  match contract event with
  | .error .typeMismatch => ((.typeMismatch, 0), s)
  | .error _ => ((.invalidArgument, 0), s)
  | .ok type =>
      if !TypeDesc.valid type || s.payloadStride < TypeDesc.size type then
        ((.invalidArgument, 0), s)
      else s.accept deadline event type scope

def cancelSlot (i id : ℕ) (timers : Queue) : Events τ ν :=
  { s.releaseSlot i with
    timers := timers
    cancelled := s.cancelled + 1
    history := s.history ++ [.cancelled id] }

/-- A round of the loop of `cflow_timer_event_queue_cancel_scopes`. -/
def cancelScoped (scopes : List ℕ) (s : Events τ ν) (i : ℕ) : Events τ ν :=
  if (s.slots i).state ≠ .pending || (s.slots i).scope ∉ scopes then s
  else match s.timers.cancel (s.slots i).timerId with
    | none => s
    | some timers => s.cancelSlot i (s.slots i).timerId timers

/-- `cflow_timer_event_queue_cancel_scopes`. -/
def cancelScopes (scopes : List ℕ) : Events τ ν :=
  if s.closed then s else (List.range s.capacity).foldl (cancelScoped scopes) s

/-- `cflow_timer_event_queue_cancel`. -/
def cancel (id : ℕ) : TimerStatus × Events τ ν :=
  if id = 0 then (.invalidArgument, s)
  else if s.closed then (.closed, s)
  else match s.findTimerSlot id with
    | none => (.notFound, s)
    | some i =>
        if (s.slots i).state = .firing then (.fireWon, s)
        else match s.timers.cancel id with
          | none => (.notFound, s)
          | some timers => (.ok, s.cancelSlot i id timers)

/-- `cflow_timer_event_queue_claim_one_ready` with an empty claim. -/
def claimOneReady (now : ℕ) : ClaimStatus × Events τ ν :=
  if s.closed then (.closed, s)
  else if s.consumerActive then (.busy, s)
  else match s.timers.takeReady now with
    | none => (.notReady, s)
    | some (task, timers) =>
        if (s.slots task.user).state ≠ .pending || (s.slots task.user).timerId ≠ task.id then
          (.invalidArgument, { s with timers := timers })
        else
          (.claimed, { s with
            timers := timers
            slots := Function.update s.slots task.user
              { s.slots task.user with state := .firing }
            consumerActive := true
            inFlight := 1
            claims := s.claims ++ [task.user]
            history := s.history ++ [.claimed task.id] })

def firedEvent (i : ℕ) : Option (EventView τ ν) :=
  (s.slots i).payloadType.bind fun type => (s.payloads i).map fun payload =>
    ⟨(s.slots i).eventId, type, payload⟩

/-- `cflow_timer_event_queue_commit_claim` up to its section: the claim is emptied, and the target
answers the event. -/
def send (i : ℕ) (status : MailboxStatus) : Option (Events τ ν) :=
  if i ∈ s.claims then some { s with
    claims := s.claims.erase i
    commits := s.commits ++ [⟨i, (s.slots i).timerId, status⟩]
    history := s.history ++ [.sent (s.slots i).timerId (s.firedEvent i) status] }
  else none

def countRejected (status : MailboxStatus) : Events τ ν :=
  { s with
    mailboxRejected := s.mailboxRejected + 1
    mailboxRejectedFull := s.mailboxRejectedFull + if status = .full then 1 else 0
    mailboxRejectedClosed := s.mailboxRejectedClosed + if status = .closed then 1 else 0
    mailboxRejectedCancelled := s.mailboxRejectedCancelled + if status = .cancelled then 1 else 0
    mailboxRejectedOther := s.mailboxRejectedOther +
      if status ≠ .full ∧ status ≠ .closed ∧ status ≠ .cancelled then 1 else 0 }

/-- The section of `cflow_timer_event_queue_commit_claim`, for the commit at this place. -/
def settle (n : ℕ) (commit : Commit) : Events τ ν :=
  let counted := if commit.status = .ok then { s with delivered := s.delivered + 1 }
    else s.countRejected commit.status
  { counted.releaseSlot commit.slot with
    inFlight := 0
    consumerActive := false
    commits := s.commits.eraseIdx n
    history := s.history ++ [.settled commit.id commit.status] }

/-- The pending slots, in the order of the loop of `cflow_timer_event_queue_close_begin_internal`. -/
def pendingSlots : List ℕ := (List.range s.capacity).filter fun i => (s.slots i).state = .pending

/-- `cflow_timer_event_queue_close_begin_internal`. -/
def closeBegin : TimerStatus × Events τ ν :=
  if s.closed then (.closed, s)
  else (.ok, { s with
    closed := true
    slots := fun i => if i ∈ s.pendingSlots then .released else s.slots i
    cancelled := s.cancelled + s.pendingSlots.length
    cancelledOnClose := s.cancelledOnClose + s.pendingSlots.length
    timers := { s.timers with items := [] }
    history := s.history ++ s.pendingSlots.map fun i => .cancelled (s.slots i).timerId })

/-- The sections, with what their callers, the clock and the target contribute. -/
inductive Move (τ ν : Type) where
  | schedule (deadline : ℕ) (event : EventView τ ν) (scope : ℕ)
  | cancelScopes (scopes : List ℕ)
  | cancel (id : ℕ)
  | claimOneReady (now : ℕ)
  | send (slot : ℕ) (status : MailboxStatus)
  | settle (n : ℕ)
  | closeBegin

/-- A section of any thread. -/
def step [TypeDesc τ] (contract : EventView τ ν → Except MailboxStatus τ) (s : Events τ ν) :
    Move τ ν → Option (Events τ ν)
  | .schedule deadline event scope => some (s.scheduleAt contract deadline event scope).2
  | .cancelScopes scopes => some (s.cancelScopes scopes)
  | .cancel id => some (s.cancel id).2
  | .claimOneReady now => some (s.claimOneReady now).2
  | .send slot status => s.send slot status
  | .settle n => s.commits[n]?.map (s.settle n)
  | .closeBegin => some s.closeBegin.2

end Events

end Cflow.Timer
