import TurboUtils.Cflow.Mailbox.Ring

/-! The laws of a mailbox over all runs: events leave it in the order of their acceptance, and every
waker that is armed is invoked or disarmed. -/
namespace Cflow.Mailbox

open Machine TypeDesc RingBuffer

section Typed

variable {τ ω : Type} [PayloadDesc τ]

structure Carries (sent : EventView τ) (event : Event τ) : Prop where
  id : event.id = sent.id
  type : equal event.payloadType sent.payloadType = true
  payload : event.payload = readBytes sent.payload 0 (size event.payloadType)

namespace Impl

variable {impl : Impl τ ω}

/-- What holds of a mailbox with these events in it. -/
structure Valid (impl : Impl τ ω) (pending : List (Event τ)) : Prop where
  cells : window impl.cell impl.capacity impl.head impl.count = pending.map some
  count : impl.count ≤ impl.capacity
  head : impl.head < impl.capacity
  fits : ∀ row ∈ impl.schema, size row.payloadType ≤ impl.payloadStride
  cancelled : impl.terminal = .cancelled → impl.count = 0
  waiter : impl.waiter.isSome → impl.count = 0 ∧ impl.terminal = .opened

variable {pending : List (Event τ)}

theorem Valid.length (h : impl.Valid pending) : pending.length = impl.count := by
  rw [← List.length_map some, ← h.cells, length_window]

/-! ## Operations -/

/-- What a send does that is accepted. -/
structure Sent (impl after : Impl τ ω) (pending : List (Event τ)) (event : EventView τ) : Prop where
  opened : impl.terminal = .opened
  valid : ∃ sent, after.Valid (pending ++ [sent]) ∧ Carries event sent
  terminal : after.terminal = .opened
  waiter : after.waiter = none
  accepted : after.accepted = counterIncrement impl.accepted
  received : after.received = impl.received
  cancelled : after.cancelled = impl.cancelled

structure Rejected (impl after : Impl τ ω) : Prop where
  valid : ∀ pending, impl.Valid pending → after.Valid pending
  terminal : after.terminal = impl.terminal
  count : after.count = impl.count
  capacity : after.capacity = impl.capacity
  waiter : after.waiter = impl.waiter
  accepted : after.accepted = impl.accepted
  received : after.received = impl.received
  cancelled : after.cancelled = impl.cancelled

theorem Rejected.refl (impl : Impl τ ω) : impl.Rejected impl :=
  ⟨fun _ => id, rfl, rfl, rfl, rfl, rfl, rfl, rfl⟩

/-- The event of a send that is accepted is behind the others, and the waiter is invoked. -/
theorem trySend_cases (hvalid : impl.Valid pending) (event : EventView τ) :
    (∃ status after, impl.trySend event = (some status, after, none) ∧ impl.Rejected after) ∨
    ∃ after, impl.trySend event = (none, after, impl.waiter) ∧ impl.Sent after pending event := by
  unfold trySend
  cases hindex : impl.typeIndex event.id with
  | none => exact Or.inl ⟨_, _, rfl, .refl impl⟩
  | some index =>
    obtain ⟨row, hrow, hid⟩ := typeIndex_some hindex
    dsimp only
    rw [hrow]
    dsimp only
    by_cases htype : (!equal row.payloadType event.payloadType) = true
    · rw [if_pos htype]
      exact Or.inl ⟨_, _, rfl, .refl impl⟩
    rw [if_neg htype]
    by_cases hcancelled : impl.terminal = .cancelled
    · rw [if_pos hcancelled]
      exact Or.inl ⟨_, _, rfl, fun pending h =>
        ⟨h.cells, h.count, h.head, h.fits, h.cancelled, h.waiter⟩, rfl, rfl, rfl, rfl, rfl, rfl, rfl⟩
    rw [if_neg hcancelled]
    by_cases hdraining : impl.terminal = .draining
    · rw [if_pos hdraining]
      exact Or.inl ⟨_, _, rfl, fun pending h =>
        ⟨h.cells, h.count, h.head, h.fits, h.cancelled, h.waiter⟩, rfl, rfl, rfl, rfl, rfl, rfl, rfl⟩
    rw [if_neg hdraining]
    by_cases hfull : impl.count = impl.capacity
    · rw [if_pos hfull]
      exact Or.inl ⟨_, _, rfl, fun pending h =>
        ⟨h.cells, h.count, h.head, h.fits, h.cancelled, h.waiter⟩, rfl, rfl, rfl, rfl, rfl, rfl, rfl⟩
    rw [if_neg hfull]
    have hopened : impl.terminal = .opened := by
      cases hterminal : impl.terminal with
      | opened => rfl
      | draining => exact absurd hterminal hdraining
      | cancelled => exact absurd hterminal hcancelled
    have hroom : impl.count < impl.capacity := lt_of_le_of_ne hvalid.count hfull
    have hsize := hvalid.fits row (List.mem_of_getElem? hrow)
    refine Or.inr ⟨_, rfl, hopened, ⟨⟨row.id, row.payloadType,
      readBytes event.payload 0 (size row.payloadType)⟩, ⟨?_, hroom, hvalid.head, hvalid.fits,
        fun h => ?_, fun h => ?_⟩, hid, ?_, rfl⟩, hopened, rfl, rfl, rfl, rfl⟩
    · rw [List.map_append, ← hvalid.cells]
      refine window_succ.trans ?_
      congr 1
      · exact window_frame hroom fun k hk => cell_store_of_ne hvalid.fits hsize hk
      · exact congrArg (fun cell => [cell]) (cell_store_self hrow)
    · rw [hopened] at h
      cases h
    · cases h
    · rwa [Bool.not_eq_true', Bool.not_eq_false] at htype

/-- A receive gives the event that is first, if the buffer is large enough and aligned. -/
theorem tryReceive_cons {event : Event τ} {rest : List (Event τ)}
    (hvalid : impl.Valid (event :: rest)) (address capacity : ℕ) :
    impl.tryReceive address capacity =
      if capacity < size event.payloadType then .error .bufferTooSmall
      else if address % PayloadDesc.align event.payloadType ≠ 0 then .error .invalidArgument
      else .ok (event, { impl with
        head := slot impl.capacity impl.head 1
        count := impl.count - 1
        received := counterIncrement impl.received }) := by
  have hlength := hvalid.length
  have hcells := hvalid.cells
  rw [List.length_cons] at hlength
  rw [← hlength, window_cons, List.map_cons, List.cons.injEq, slot_zero hvalid.head] at hcells
  have hcell := hcells.1
  unfold cell at hcell
  unfold tryReceive
  rw [if_neg (by omega)]
  cases hrow : impl.schema[impl.slots impl.head]? with
  | none =>
    rw [hrow] at hcell
    cases hcell
  | some row =>
    rw [hrow] at hcell
    cases hcell
    dsimp only
    rw [hrow]
    rfl

theorem Valid.receive {event : Event τ} {rest : List (Event τ)}
    (hvalid : impl.Valid (event :: rest)) : Valid { impl with
      head := slot impl.capacity impl.head 1
      count := impl.count - 1
      received := counterIncrement impl.received } rest := by
  have hlength := hvalid.length
  have hcells := hvalid.cells
  rw [List.length_cons] at hlength
  rw [← hlength, window_cons, List.map_cons, List.cons.injEq] at hcells
  refine ⟨?_, ?_, slot_lt (Nat.zero_lt_of_lt hvalid.head) 1, hvalid.fits, fun h => ?_, fun h => ?_⟩
  · dsimp only
    rw [← hlength, Nat.add_sub_cancel]
    exact hcells.2
  · exact (Nat.sub_le _ _).trans hvalid.count
  · have hzero := hvalid.cancelled h
    omega
  · have hzero := (hvalid.waiter h).1
    omega

omit [PayloadDesc τ] in
/-- A waker is invoked at once, kept or turned away. -/
theorem waitArm_cases (impl : Impl τ ω) (waker : ω) :
    ¬(impl.count = 0 ∧ impl.terminal = .opened) ∧
      impl.waitArm (some waker) = (true, impl, some waker) ∨
    (impl.count = 0 ∧ impl.terminal = .opened) ∧ impl.waiter = none ∧
      impl.waitArm (some waker) = (true, { impl with waiter := some waker }, none) ∨
    impl.waiter.isSome ∧ impl.waitArm (some waker) = (false, impl, none) := by
  unfold waitArm
  by_cases hwaits : impl.count = 0 ∧ impl.terminal = .opened
  · cases hwaiter : impl.waiter with
    | none => exact Or.inr (Or.inl ⟨hwaits, rfl, by simp [hwaits]⟩)
    | some stored => exact Or.inr (Or.inr ⟨rfl, by simp [hwaits]⟩)
  · have hready : (decide (impl.count ≠ 0) || decide (impl.terminal ≠ .opened)) = true := by
      rw [Bool.or_eq_true, decide_eq_true_eq, decide_eq_true_eq]
      exact not_and_or.1 hwaits
    refine Or.inl ⟨hwaits, ?_⟩
    dsimp only
    rw [hready]
    rfl

end Impl

/-! ## Counters -/

omit [PayloadDesc τ] in
theorem counterIncrement_min (n : ℕ) :
    counterIncrement (min n uint64Max) = min (n + 1) uint64Max := by
  unfold counterIncrement
  split_ifs <;> omega

omit [PayloadDesc τ] in
theorem counterAddSize_min (n amount : ℕ) :
    counterAddSize (min n uint64Max) amount = min (n + amount) uint64Max := by
  unfold counterAddSize
  split_ifs <;> omega

/-! ## Runs -/

inductive Call (τ ω : Type) where
  | send (event : EventView τ)
  | receive (address capacity : ℕ)
  | close
  | cancel
  | arm (waker : Option ω)
  | disarm

inductive Answer (τ : Type) where
  | done
  | failed (status : Status)
  | received (event : Event τ)
  | armed (accepted : Bool)

/-- A mailbox, and its history: the events that it accepted, gave back and dropped, and the wakers
that were armed, invoked and disarmed. -/
structure World (τ ω : Type) where
  impl : Impl τ ω
  accepted : List (EventView τ)
  received : List (Event τ)
  dropped : ℕ
  armed : List ω
  invoked : List ω
  disarmed : List ω

def answer : Option Status → Answer τ
  | none => .done
  | some status => .failed status

def World.perform (w : World τ ω) : Call τ ω → World τ ω × Answer τ
  | .send event =>
      let (status, impl, waker) := w.impl.trySend event
      ({ w with
        impl := impl
        accepted := if status.isNone then w.accepted ++ [event] else w.accepted
        invoked := w.invoked ++ waker.toList }, answer status)
  | .receive address capacity =>
      match w.impl.tryReceive address capacity with
      | .error status => (w, .failed status)
      | .ok (event, impl) =>
          ({ w with impl := impl, received := w.received ++ [event] }, .received event)
  | .close =>
      let (status, impl, waker) := w.impl.close
      ({ w with impl := impl, invoked := w.invoked ++ waker.toList }, answer status)
  | .cancel =>
      let (status, impl, waker) := w.impl.cancel
      ({ w with
        impl := impl
        dropped := if status.isNone then w.dropped + w.impl.count else w.dropped
        invoked := w.invoked ++ waker.toList }, answer status)
  | .arm waker =>
      let (accepted, impl, ready) := w.impl.waitArm waker
      ({ w with
        impl := impl
        armed := if accepted then w.armed ++ waker.toList else w.armed
        invoked := w.invoked ++ ready.toList }, .armed accepted)
  | .disarm =>
      ({ w with
        impl := w.impl.waitCancel
        disarmed := w.disarmed ++ w.impl.waiter.toList }, .done)

def World.run (w : World τ ω) (calls : List (Call τ ω)) : World τ ω :=
  calls.foldl (fun w call => (w.perform call).1) w

def World.start (impl : Impl τ ω) : World τ ω := ⟨impl, [], [], 0, [], [], []⟩

namespace World

variable {w : World τ ω}

/-- What holds between two calls: the accepted events are the ones that were received, are pending
and were dropped, in this order. -/
structure Settled (w : World τ ω) (pending lost : List (Event τ)) : Prop where
  valid : w.impl.Valid pending
  carried : List.Forall₂ Carries w.accepted (w.received ++ pending ++ lost)
  kept : w.impl.terminal ≠ .cancelled → lost = []
  dropped : lost.length = w.dropped
  accepted : w.impl.accepted = min w.accepted.length uint64Max
  received : w.impl.received = min w.received.length uint64Max
  cancelled : w.impl.cancelled = min w.dropped uint64Max
  wakers : w.armed.Perm (w.invoked ++ w.disarmed ++ w.impl.waiter.toList)

variable {pending lost : List (Event τ)}

theorem Settled.send (h : w.Settled pending lost) (event : EventView τ) :
    ∃ pending', (w.perform (.send event)).1.Settled pending' lost := by
  rw [perform]
  rcases Impl.trySend_cases h.valid event with ⟨status, after, hsend, hrejected⟩ | ⟨after, hsend, hsent⟩
  · rw [hsend]
    refine ⟨pending, hrejected.valid _ h.valid, h.carried, fun hterminal => h.kept ?_, h.dropped,
      hrejected.accepted.trans h.accepted, hrejected.received.trans h.received,
      hrejected.cancelled.trans h.cancelled, ?_⟩
    · rwa [← hrejected.terminal]
    · dsimp only
      rw [hrejected.waiter, Option.toList_none, List.append_nil]
      exact h.wakers
  · rw [hsend]
    obtain ⟨sent, hvalid, hcarries⟩ := hsent.valid
    have hnone : lost = [] := h.kept (by rw [hsent.opened]; exact Terminal.noConfusion)
    have hcarried := h.carried
    rw [hnone, List.append_nil] at hcarried
    refine ⟨pending ++ [sent], hvalid, ?_, fun _ => hnone, h.dropped, ?_, ?_, ?_, ?_⟩
    · rw [hnone, List.append_nil, ← List.append_assoc]
      exact List.rel_append hcarried (.cons hcarries .nil)
    · dsimp only [Option.isNone_none]
      rw [hsent.accepted, h.accepted, if_pos rfl, List.length_append, List.length_singleton,
        counterIncrement_min]
    · exact hsent.received.trans h.received
    · exact hsent.cancelled.trans h.cancelled
    · dsimp only
      rw [hsent.waiter, Option.toList_none, List.append_nil]
      refine h.wakers.trans ?_
      rw [List.append_assoc, List.append_assoc]
      exact List.perm_append_comm.append_left _

theorem Settled.receive (h : w.Settled pending lost) (address capacity : ℕ) :
    ∃ pending', (w.perform (.receive address capacity)).1.Settled pending' lost := by
  rw [perform]
  cases pending with
  | nil =>
    have hzero : w.impl.count = 0 := h.valid.length.symm
    rw [Impl.tryReceive, if_pos hzero]
    exact ⟨[], h⟩
  | cons event rest =>
    rw [Impl.tryReceive_cons h.valid]
    split_ifs
    · exact ⟨event :: rest, h⟩
    · exact ⟨event :: rest, h⟩
    · refine ⟨rest, h.valid.receive, ?_, h.kept, h.dropped, h.accepted, ?_, h.cancelled, h.wakers⟩
      · have hcarried := h.carried
        rwa [List.append_cons] at hcarried
      · dsimp only
        rw [h.received, List.length_append, List.length_singleton, counterIncrement_min]

theorem Settled.close (h : w.Settled pending lost) : (w.perform .close).1.Settled pending lost := by
  rw [perform, Impl.close]
  cases hterminal : w.impl.terminal with
  | cancelled =>
    dsimp only
    rw [Option.toList_none, List.append_nil]
    exact h
  | draining =>
    dsimp only
    rw [Option.toList_none, List.append_nil]
    exact h
  | opened =>
    have hnone : lost = [] := h.kept (by rw [hterminal]; exact Terminal.noConfusion)
    refine ⟨⟨h.valid.cells, h.valid.count, h.valid.head, h.valid.fits, Terminal.noConfusion,
      fun hsome => ?_⟩, h.carried, fun _ => hnone, h.dropped, h.accepted, h.received, h.cancelled, ?_⟩
    · cases hsome
    · refine h.wakers.trans ?_
      dsimp only
      rw [Option.toList_none, List.append_nil, List.append_assoc, List.append_assoc]
      exact List.perm_append_comm.append_left _

theorem Settled.cancel (h : w.Settled pending lost) :
    ∃ pending' lost', (w.perform .cancel).1.Settled pending' lost' := by
  rw [perform, Impl.cancel]
  by_cases hcancelled : w.impl.terminal = .cancelled
  · rw [if_pos hcancelled]
    dsimp only
    rw [Option.toList_none, List.append_nil]
    exact ⟨pending, lost, h⟩
  · have hnone : lost = [] := h.kept hcancelled
    rw [if_neg hcancelled]
    refine ⟨[], pending, ⟨rfl, Nat.zero_le _, Nat.zero_lt_of_lt h.valid.head, h.valid.fits,
      fun _ => rfl, fun hsome => ?_⟩, ?_, fun hother => absurd rfl hother, ?_, h.accepted, h.received,
        ?_, ?_⟩
    · cases hsome
    · have hcarried := h.carried
      rwa [hnone, List.append_nil, ← List.append_nil w.received] at hcarried
    · have hdropped := h.dropped
      rw [hnone, List.length_nil] at hdropped
      dsimp only [Option.isNone_none]
      rw [if_pos rfl, ← hdropped, Nat.zero_add]
      exact h.valid.length
    · dsimp only [Option.isNone_none]
      rw [if_pos rfl, h.cancelled, counterAddSize_min]
    · refine h.wakers.trans ?_
      dsimp only
      rw [Option.toList_none, List.append_nil, List.append_assoc, List.append_assoc]
      exact List.perm_append_comm.append_left _

theorem Settled.arm (h : w.Settled pending lost) (waker : Option ω) :
    (w.perform (.arm waker)).1.Settled pending lost := by
  rw [perform]
  cases waker with
  | none =>
    dsimp only [Impl.waitArm]
    rw [if_neg Bool.false_ne_true, Option.toList_none, List.append_nil]
    exact h
  | some waker =>
    rcases w.impl.waitArm_cases waker with
      ⟨-, harm⟩ | ⟨hwaits, hwaiter, harm⟩ | ⟨-, harm⟩
    · rw [harm]
      refine ⟨h.valid, h.carried, h.kept, h.dropped, h.accepted, h.received, h.cancelled, ?_⟩
      dsimp only
      rw [if_pos rfl]
      refine (h.wakers.append_right _).trans ?_
      rw [List.append_assoc w.invoked, List.append_assoc w.invoked, List.append_assoc w.invoked,
        List.append_assoc w.invoked, List.append_assoc (some waker).toList]
      exact List.perm_append_comm.append_left _
    · rw [harm]
      have hwakers := h.wakers
      rw [hwaiter, Option.toList_none, List.append_nil] at hwakers
      refine ⟨⟨h.valid.cells, h.valid.count, h.valid.head, h.valid.fits, h.valid.cancelled,
        fun _ => hwaits⟩, h.carried, h.kept, h.dropped, h.accepted, h.received, h.cancelled, ?_⟩
      dsimp only
      rw [if_pos rfl, Option.toList_none, List.append_nil]
      exact hwakers.append_right _
    · rw [harm]
      dsimp only
      rw [if_neg Bool.false_ne_true, Option.toList_none, List.append_nil]
      exact h

theorem Settled.disarm (h : w.Settled pending lost) :
    (w.perform .disarm).1.Settled pending lost := by
  refine ⟨⟨h.valid.cells, h.valid.count, h.valid.head, h.valid.fits, h.valid.cancelled,
    fun hsome => ?_⟩, h.carried, h.kept, h.dropped, h.accepted, h.received, h.cancelled, ?_⟩
  · cases hsome
  · refine h.wakers.trans ?_
    rw [perform]
    dsimp only [Impl.waitCancel]
    rw [Option.toList_none, List.append_nil, List.append_assoc]

theorem Settled.perform (h : w.Settled pending lost) (call : Call τ ω) :
    ∃ pending' lost', (w.perform call).1.Settled pending' lost' := by
  cases call with
  | send event =>
    obtain ⟨pending', h'⟩ := h.send event
    exact ⟨pending', lost, h'⟩
  | receive address capacity =>
    obtain ⟨pending', h'⟩ := h.receive address capacity
    exact ⟨pending', lost, h'⟩
  | close => exact ⟨pending, lost, h.close⟩
  | cancel => exact h.cancel
  | arm waker => exact ⟨pending, lost, h.arm waker⟩
  | disarm => exact ⟨pending, lost, h.disarm⟩

theorem Settled.run (h : w.Settled pending lost) (calls : List (Call τ ω)) :
    ∃ pending' lost', (w.run calls).Settled pending' lost' := by
  induction calls generalizing w pending lost with
  | nil => exact ⟨pending, lost, h⟩
  | cons call calls ih =>
    obtain ⟨pending', lost', h'⟩ := h.perform call
    exact ih h'

theorem settled_start {schema : List (EventType τ)} {capacity : ℕ} {memory : Option (ℕ → UInt8)}
    {impl : Impl τ ω} (hinit : init schema capacity memory = .ok impl) :
    (start impl).Settled [] [] := by
  unfold init at hinit
  cases hstride : initStride schema capacity with
  | none =>
    rw [hstride] at hinit
    cases hinit
  | some stride =>
    rw [hstride] at hinit
    obtain ⟨hcapacity, hfits⟩ := size_le_initStride hstride
    cases memory with
    | none => cases hinit
    | some payloads =>
      cases hinit
      exact ⟨⟨rfl, Nat.zero_le _, hcapacity, hfits, fun _ => rfl, fun hsome => Bool.noConfusion hsome⟩,
        .nil, fun _ => rfl, rfl, rfl, rfl, rfl, .nil⟩

/-! ## Closing -/

theorem closes (w : World τ ω) {call : Call τ ω} (h : call = .close ∨ call = .cancel) :
    (w.perform call).1.impl.terminal ≠ .opened := by
  rcases h with rfl | rfl
  · rw [perform, Impl.close]
    cases hterminal : w.impl.terminal with
    | opened => exact Terminal.noConfusion
    | draining =>
      change w.impl.terminal ≠ .opened
      rw [hterminal]
      exact Terminal.noConfusion
    | cancelled =>
      change w.impl.terminal ≠ .opened
      rw [hterminal]
      exact Terminal.noConfusion
  · rw [perform, Impl.cancel]
    by_cases hcancelled : w.impl.terminal = .cancelled
    · rw [if_pos hcancelled]
      change w.impl.terminal ≠ .opened
      rw [hcancelled]
      exact Terminal.noConfusion
    · rw [if_neg hcancelled]
      exact Terminal.noConfusion

/-- A mailbox that is closed stays closed, and accepts nothing. -/
theorem Settled.closed (h : w.Settled pending lost) (hclosed : w.impl.terminal ≠ .opened)
    (call : Call τ ω) : (w.perform call).1.accepted = w.accepted ∧
      (w.perform call).1.impl.terminal ≠ .opened := by
  cases call with
  | send event =>
    rw [World.perform]
    rcases Impl.trySend_cases h.valid event with ⟨status, after, hsend, hrejected⟩ | ⟨after, -, hsent⟩
    · rw [hsend]
      exact ⟨rfl, hrejected.terminal ▸ hclosed⟩
    · exact absurd hsent.opened hclosed
  | receive address capacity =>
    rw [World.perform]
    cases hreceive : w.impl.tryReceive address capacity with
    | error status => exact ⟨rfl, hclosed⟩
    | ok received =>
      obtain ⟨event, impl⟩ := received
      refine ⟨rfl, ?_⟩
      have hterminal : impl.terminal = w.impl.terminal := by
        cases pending with
        | nil =>
          have hzero : w.impl.count = 0 := h.valid.length.symm
          rw [Impl.tryReceive, if_pos hzero] at hreceive
          cases hreceive
        | cons first rest =>
          rw [Impl.tryReceive_cons h.valid] at hreceive
          split_ifs at hreceive
          cases hreceive
          rfl
      exact hterminal ▸ hclosed
  | close => exact ⟨rfl, w.closes (Or.inl rfl)⟩
  | cancel => exact ⟨rfl, w.closes (Or.inr rfl)⟩
  | arm waker =>
    rw [World.perform]
    cases waker with
    | none => exact ⟨rfl, hclosed⟩
    | some waker =>
      rcases w.impl.waitArm_cases waker with ⟨-, harm⟩ | ⟨-, -, harm⟩ | ⟨-, harm⟩
      · rw [harm]
        exact ⟨rfl, hclosed⟩
      · rw [harm]
        exact ⟨rfl, hclosed⟩
      · rw [harm]
        exact ⟨rfl, hclosed⟩
  | disarm => exact ⟨rfl, hclosed⟩

theorem Settled.run_closed (h : w.Settled pending lost) (hclosed : w.impl.terminal ≠ .opened)
    (calls : List (Call τ ω)) : (w.run calls).accepted = w.accepted := by
  induction calls generalizing w pending lost with
  | nil => rfl
  | cons call calls ih =>
    obtain ⟨haccepted, hclosed'⟩ := h.closed hclosed call
    obtain ⟨pending', lost', h'⟩ := h.perform call
    exact (ih h' hclosed').trans haccepted

/-! ## Laws -/

def receiveAnswer (event : Event τ) (address capacity : ℕ) : Answer τ :=
  if capacity < size event.payloadType then .failed .bufferTooSmall
  else if address % PayloadDesc.align event.payloadType ≠ 0 then .failed .invalidArgument
  else .received event

structure Lawful (w : World τ ω) : Prop where
  fifo : ∃ rest, List.Forall₂ Carries w.accepted (w.received ++ rest)
  bounded : w.impl.count ≤ w.impl.capacity
  balance : w.accepted.length = w.received.length + w.dropped + w.impl.count
  counters : w.impl.accepted = min w.accepted.length uint64Max ∧
    w.impl.received = min w.received.length uint64Max ∧ w.impl.cancelled = min w.dropped uint64Max
  counted : w.impl.accepted < uint64Max →
    w.impl.accepted = w.impl.received + w.impl.cancelled + w.impl.count
  closes : ∀ call, call = .close ∨ call = .cancel → (w.perform call).1.impl.terminal ≠ .opened
  closed : w.impl.terminal ≠ .opened → ∀ calls, (w.run calls).accepted = w.accepted
  oldest : w.impl.count ≠ 0 → ∃ sent event, w.accepted[w.received.length]? = some sent ∧
    Carries sent event ∧ ∀ address capacity,
      (w.perform (.receive address capacity)).2 = receiveAnswer event address capacity
  none : w.impl.count = 0 → ∀ address capacity, ∃ status,
    (w.perform (.receive address capacity)).2 = .failed status
  unchanged : ∀ address capacity status, (w.perform (.receive address capacity)).2 = .failed status →
    (w.perform (.receive address capacity)).1 = w
  waiter : w.impl.waiter.isSome → w.impl.count = 0 ∧ w.impl.terminal = .opened
  wakers : w.armed.Perm (w.invoked ++ w.disarmed ++ w.impl.waiter.toList)

theorem Settled.oldest (h : w.Settled pending lost) (hcount : w.impl.count ≠ 0) :
    ∃ sent event, w.accepted[w.received.length]? = some sent ∧ Carries sent event ∧
      ∀ address capacity,
        (w.perform (.receive address capacity)).2 = receiveAnswer event address capacity := by
  cases pending with
  | nil => exact absurd h.valid.length.symm hcount
  | cons event rest =>
    have hcarried := h.carried
    rw [List.append_assoc, List.cons_append] at hcarried
    have hdrop := List.forall₂_drop_append _ _ _ hcarried
    cases hnext : w.accepted.drop w.received.length with
    | nil =>
      rw [hnext] at hdrop
      cases hdrop
    | cons sent behind =>
      rw [hnext] at hdrop
      refine ⟨sent, event, ?_, (List.forall₂_cons.1 hdrop).1, fun address capacity => ?_⟩
      · rw [← List.head?_drop, hnext]
        rfl
      · rw [World.perform, Impl.tryReceive_cons h.valid, receiveAnswer]
        split_ifs <;> rfl

theorem Settled.lawful (h : w.Settled pending lost) : w.Lawful := by
  have hlength : w.accepted.length = w.received.length + w.dropped + w.impl.count := by
    rw [h.carried.length_eq, List.length_append, List.length_append, h.dropped, h.valid.length]
    omega
  have haccepted := h.accepted
  have hreceived := h.received
  have hcancelled := h.cancelled
  refine ⟨⟨pending ++ lost, ?_⟩, h.valid.count, hlength, ⟨haccepted, hreceived, hcancelled⟩,
    fun hsmall => ?_, fun call => w.closes, h.run_closed, h.oldest, fun hzero address capacity => ?_,
    fun address capacity status hfailed => ?_, h.valid.waiter, h.wakers⟩
  · rw [← List.append_assoc]
    exact h.carried
  · omega
  · rw [World.perform, Impl.tryReceive, if_pos hzero]
    exact ⟨_, rfl⟩
  · rw [World.perform] at hfailed ⊢
    cases hreceive : w.impl.tryReceive address capacity with
    | error status => rfl
    | ok received =>
      rw [hreceive] at hfailed
      cases hfailed

/-- After any calls the mailbox obeys its laws. -/
theorem mailbox_lawful {schema : List (EventType τ)} {capacity : ℕ}
    {memory : Option (ℕ → UInt8)} {impl : Impl τ ω} (hinit : init schema capacity memory = .ok impl)
    (calls : List (Call τ ω)) : ((start impl).run calls).Lawful := by
  obtain ⟨pending, lost, h⟩ := (settled_start hinit).run calls
  exact h.lawful

end World

end Typed

namespace World

/-- Descriptors of a byte and of a word. -/
instance byteOrWord : PayloadDesc Bool where
  valid _ := true
  equal := (· == ·)
  size isWord := if isWord then 4 else 1
  align isWord := if isWord then 4 else 1
  trivial _ := true

/-- A waker is armed and invoked by a send; one event is received, the other one dropped. -/
theorem mailbox_lawful_two : ∃ impl : Impl Bool ℕ,
    init [⟨5, false⟩, ⟨6, true⟩] 2 (some fun _ => 0) = .ok impl ∧
      ((start impl).run [.arm (some 1), .send ⟨6, true, fun _ => 9⟩, .send ⟨5, false, fun _ => 8⟩,
        .receive 16 4, .cancel]).Lawful :=
  ⟨_, rfl, mailbox_lawful (show init [⟨5, false⟩, ⟨6, true⟩] 2 (some fun _ => 0) = .ok _ from rfl) _⟩

end World

end Cflow.Mailbox
