import TurboUtils.Cflow.Machine.Build

/-! The mailbox of a machine instance: a bounded queue of typed events with one waiter. The
counters of accepted and received events are the lengths of the two lists of these events; the
statistics that no operation reads are left out. -/
namespace Cflow.Instance

open Machine

structure EventView (τ ν : Type) where
  id : ℕ
  payloadType : τ
  payload : ν

/-- An event as a slot holds it: its row of the schema and the copied payload. -/
structure Event (τ ν : Type) where
  type : EventType τ
  payload : ν

/-- `cflow_mailbox_status`. -/
inductive MailboxStatus where
  | ok
  | full
  | closed
  | cancelled
  | empty
  | invalidArgument
  | typeMismatch
  | bufferTooSmall
  deriving DecidableEq, Repr

inductive MailboxTerminal where
  | opened
  | draining
  | cancelled
  deriving DecidableEq, Repr

/-- A mailbox; without a schema it is one that was never initialized. -/
structure Mailbox (τ ν : Type) where
  schema : List (EventType τ)
  capacity : ℕ
  pending : List (Event τ ν)
  accepted : List (Event τ ν)
  received : List (Event τ ν)
  cancelled : ℕ
  terminal : MailboxTerminal
  waiter : Bool

def Mailbox.init {τ ν : Type} (schema : List (EventType τ)) (capacity : ℕ) : Mailbox τ ν :=
  ⟨schema, capacity, [], [], [], 0, .opened, false⟩

namespace Mailbox

section Operations

variable {τ ν : Type} [TypeDesc τ] (mailbox : Mailbox τ ν)

open TypeDesc

/-- `cflow_mailbox_payload_capacity`: the largest size in the schema. -/
def payloadCapacity : ℕ :=
  mailbox.schema.foldr (fun type largest => max (size type.payloadType) largest) 0

def typeOf (id : ℕ) : Option (EventType τ) :=
  if id = 0 then none else mailbox.schema.find? (·.id = id)

/-- `cflow_mailbox_try_send`; the last component says whether the waiter has to be woken. -/
def trySend (event : EventView τ ν) : MailboxStatus × Mailbox τ ν × Bool :=
  match mailbox.typeOf event.id with
  | none => (.invalidArgument, mailbox, false)
  | some type =>
      if !equal type.payloadType event.payloadType then (.typeMismatch, mailbox, false)
      else match mailbox.terminal with
        | .cancelled => (.cancelled, mailbox, false)
        | .draining => (.closed, mailbox, false)
        | .opened =>
            if mailbox.pending.length = mailbox.capacity then (.full, mailbox, false)
            else (.ok, { mailbox with
              pending := mailbox.pending ++ [⟨type, event.payload⟩]
              accepted := mailbox.accepted ++ [⟨type, event.payload⟩]
              waiter := false }, mailbox.waiter)

/-- `cflow_mailbox_try_receive`; a buffer from `malloc` is aligned for every payload. -/
def tryReceive (payloadCapacity : ℕ) : Except MailboxStatus (Event τ ν × Mailbox τ ν) :=
  if mailbox.schema = [] then .error .invalidArgument
  else match mailbox.pending with
    | [] => match mailbox.terminal with
        | .cancelled => .error .cancelled
        | .draining => .error .closed
        | .opened => .error .empty
    | event :: rest =>
        if payloadCapacity < size event.type.payloadType then .error .bufferTooSmall
        else .ok (event, { mailbox with
          pending := rest
          received := mailbox.received ++ [event] })

end Operations

variable {τ ν : Type} (mailbox : Mailbox τ ν)

/-- `cflow_mailbox_cancel`, with whether the waiter has to be woken. -/
def cancel : Mailbox τ ν × Bool :=
  if mailbox.schema = [] then (mailbox, false)
  else if mailbox.terminal = .cancelled then (mailbox, false)
  else ({ mailbox with
    terminal := .cancelled
    cancelled := mailbox.cancelled + mailbox.pending.length
    pending := []
    waiter := false }, mailbox.waiter)

def ready : Bool := mailbox.pending ≠ [] || mailbox.terminal ≠ .opened

/-- `cflow_mailbox_wait_arm`: nothing if there is a waiter already. -/
def arm : Option (Mailbox τ ν × Bool) :=
  if mailbox.ready then some (mailbox, true)
  else if mailbox.waiter then none
  else some ({ mailbox with waiter := true }, false)

/-- `cflow_mailbox_wait_cancel`. -/
def disarm : Mailbox τ ν := { mailbox with waiter := false }

/-- Every accepted event is pending or was received or cancelled, in the order of acceptance. -/
structure WellFormed : Prop where
  bounded : mailbox.pending.length ≤ mailbox.capacity
  counted : mailbox.accepted.length =
    mailbox.received.length + mailbox.cancelled + mailbox.pending.length
  ordered : mailbox.received ++ mailbox.pending <+: mailbox.accepted
  complete : mailbox.terminal ≠ .cancelled → mailbox.received ++ mailbox.pending = mailbox.accepted
  cleared : mailbox.terminal = .cancelled → mailbox.pending = []
  typed : ∀ event ∈ mailbox.pending, event.type ∈ mailbox.schema

structure Frame (before after : Mailbox τ ν) : Prop where
  schema : after.schema = before.schema
  received : after.received = before.received
  undrained : before.terminal ≠ .draining → after.terminal ≠ .draining
  wellFormed : before.WellFormed → after.WellFormed

theorem wellFormed_init (schema : List (EventType τ)) (capacity : ℕ) :
    (init schema capacity : Mailbox τ ν).WellFormed where
  bounded := Nat.zero_le _
  counted := rfl
  ordered := List.prefix_rfl
  complete _ := rfl
  cleared _ := rfl
  typed _ h := absurd h List.not_mem_nil

theorem Frame.refl : Frame mailbox mailbox := ⟨rfl, rfl, id, id⟩

theorem disarm_frame : Frame mailbox mailbox.disarm where
  schema := rfl
  received := rfl
  undrained := id
  wellFormed h := ⟨h.bounded, h.counted, h.ordered, h.complete, h.cleared, h.typed⟩

theorem cancel_frame : Frame mailbox mailbox.cancel.1 := by
  unfold cancel
  split_ifs with hs hc
  · exact .refl mailbox
  · exact .refl mailbox
  · refine ⟨rfl, rfl, fun _ => by simp, fun h => ⟨Nat.zero_le _, ?_, ?_, fun hn => absurd rfl hn,
      fun _ => rfl, ?_⟩⟩
    · simpa [add_assoc] using h.counted
    · simpa using (List.prefix_append _ _).trans h.ordered
    · exact fun _ he => absurd he List.not_mem_nil

theorem arm_frame {after : Mailbox τ ν} {wake : Bool} (h : mailbox.arm = some (after, wake)) :
    Frame mailbox after := by
  unfold arm at h
  split_ifs at h
  · cases h
    exact .refl mailbox
  · cases h
    exact ⟨rfl, rfl, id, fun h => ⟨h.bounded, h.counted, h.ordered, h.complete, h.cleared, h.typed⟩⟩

theorem typeOf_mem {id : ℕ} {type : EventType τ} (h : mailbox.typeOf id = some type) :
    type ∈ mailbox.schema := by
  unfold typeOf at h
  split_ifs at h
  exact List.mem_of_find?_eq_some h

section Typed

variable [TypeDesc τ]

/-- What sending can do. -/
theorem trySend_cases (event : EventView τ ν) :
    (∃ status ≠ .ok, mailbox.trySend event = (status, mailbox, false)) ∨
    (mailbox.terminal = .opened ∧ mailbox.pending.length ≠ mailbox.capacity ∧
      ∃ type ∈ mailbox.schema, mailbox.trySend event = (.ok, { mailbox with
        pending := mailbox.pending ++ [⟨type, event.payload⟩]
        accepted := mailbox.accepted ++ [⟨type, event.payload⟩]
        waiter := false }, mailbox.waiter)) := by
  unfold trySend
  cases htype : mailbox.typeOf event.id with
  | none => exact .inl ⟨_, by decide, rfl⟩
  | some type =>
    by_cases heq : TypeDesc.equal type.payloadType event.payloadType
    · cases hterm : mailbox.terminal with
      | cancelled => exact .inl ⟨.cancelled, by decide, by simp [heq]⟩
      | draining => exact .inl ⟨.closed, by decide, by simp [heq]⟩
      | opened =>
        by_cases hfull : mailbox.pending.length = mailbox.capacity
        · exact .inl ⟨.full, by decide, by simp [heq, hfull]⟩
        · exact .inr ⟨rfl, hfull, type, mailbox.typeOf_mem htype, by simp [heq, hfull]⟩
    · exact .inl ⟨.typeMismatch, by decide, by simp [heq]⟩

theorem trySend_frame (event : EventView τ ν) : Frame mailbox (mailbox.trySend event).2.1 := by
  rcases mailbox.trySend_cases event with ⟨status, -, h⟩ | ⟨hopen, hfull, type, htype, h⟩
  · rw [h]
    exact .refl mailbox
  · rw [h]
    refine ⟨rfl, rfl, id, fun hw => ?_⟩
    have hcomplete := hw.complete (by rw [hopen]; decide)
    have happend : mailbox.received ++ (mailbox.pending ++ [⟨type, event.payload⟩]) =
        mailbox.accepted ++ [⟨type, event.payload⟩] := by
      rw [← hcomplete, List.append_assoc]
    refine ⟨?_, ?_, ?_, fun _ => happend, fun hc => absurd (hopen ▸ hc) (by decide), ?_⟩
    · have := hw.bounded
      simp only [List.length_append, List.length_singleton]
      omega
    · have := hw.counted
      simp only [List.length_append, List.length_singleton]
      omega
    · rw [happend]
    · intro e he
      rcases List.mem_append.1 he with he | he
      · exact hw.typed e he
      · rw [List.mem_singleton.1 he]
        exact htype

theorem tryReceive_ok {capacity : ℕ} {event : Event τ ν} {after : Mailbox τ ν}
    (h : mailbox.tryReceive capacity = .ok (event, after)) :
    ∃ rest, mailbox.pending = event :: rest ∧ after = { mailbox with
      pending := rest
      received := mailbox.received ++ [event] } := by
  unfold tryReceive at h
  split_ifs at h
  split at h
  · split at h <;> cases h
  · rename_i e rest hpending
    split_ifs at h
    cases h
    exact ⟨rest, hpending, rfl⟩

theorem tryReceive_wellFormed {capacity : ℕ} {event : Event τ ν} {after : Mailbox τ ν}
    (h : mailbox.tryReceive capacity = .ok (event, after)) (hw : mailbox.WellFormed) :
    after.received = mailbox.received ++ [event] ∧ after.WellFormed := by
  obtain ⟨rest, hpending, rfl⟩ := mailbox.tryReceive_ok h
  have hbounded := hw.bounded
  have hcounted := hw.counted
  have hordered := hw.ordered
  have htyped := hw.typed
  rw [hpending] at hbounded hcounted hordered htyped
  refine ⟨rfl, ⟨?_, ?_, ?_, fun hn => ?_, fun hc => ?_, ?_⟩⟩
  · exact (Nat.le_succ _).trans hbounded
  · simp only [List.length_append, List.length_cons, List.length_nil] at hcounted ⊢
    omega
  · simpa using hordered
  · simpa [hpending] using hw.complete hn
  · rw [hw.cleared hc] at hpending
    cases hpending
  · exact fun e he => htyped e (List.mem_cons_of_mem _ he)

theorem size_le_payloadCapacity {type : EventType τ} (h : type ∈ mailbox.schema) :
    TypeDesc.size type.payloadType ≤ mailbox.payloadCapacity := by
  unfold payloadCapacity
  generalize mailbox.schema = schema at h ⊢
  induction schema with
  | nil => cases h
  | cons first rest ih =>
    rw [List.foldr_cons]
    rcases List.mem_cons.1 h with rfl | h
    · exact le_max_left _ _
    · exact (ih h).trans (le_max_right _ _)

/-- With a schema and a buffer of the payload capacity, a receive only fails for want of events. -/
theorem tryReceive_error {status : MailboxStatus} (hs : mailbox.schema ≠ [])
    (hw : mailbox.WellFormed) (h : mailbox.tryReceive mailbox.payloadCapacity = .error status) :
    mailbox.pending = [] ∧ (status = .empty ∧ mailbox.terminal = .opened ∨
      status = .closed ∨ status = .cancelled) := by
  unfold tryReceive at h
  rw [if_neg hs] at h
  split at h
  · rename_i hpending
    refine ⟨hpending, ?_⟩
    split at h <;> rename_i hterm <;> cases h
    · exact .inr (.inr rfl)
    · exact .inr (.inl rfl)
    · exact .inl ⟨rfl, hterm⟩
  · rename_i e rest hpending
    have hmem : e.type ∈ mailbox.schema := hw.typed e (by rw [hpending]; exact List.mem_cons_self)
    rw [if_neg (mailbox.size_le_payloadCapacity hmem).not_gt] at h
    cases h

end Typed

end Mailbox

end Cflow.Instance
