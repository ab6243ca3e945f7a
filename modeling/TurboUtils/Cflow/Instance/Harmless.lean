import TurboUtils.Cflow.Instance.Conservation

/-! What can go wrong while an event is processed, and what the checks of a machine and of its
bindings rule out. -/
namespace Cflow.Instance

open Machine Interleaving

variable {τ ν : Type}

/-- What may make an instance fail: a guard or the action of the event that was processed, no
enabled transition, a full mailbox, or an error state. -/
inductive Cause (c : Config τ ν) (state : State τ) (value : ν) : Failure → Prop
  | guard {event message} (h : select c state value event = .error (.guardFailed message)) :
      Cause c state value (.guardFailed message)
  | noTransition {event} (h : select c state value event = .error .noTransition) :
      Cause c state value .noTransition
  | action {event row message} (hs : select c state value event = .ok row)
      (h : runAction c value event row = .error (.actionFailed message)) :
      Cause c state value (.actionFailed message)
  | contract {event row} (hs : select c state value event = .ok row)
      (h : runAction c value event row = .error .actionContract) :
      Cause c state value .actionContract
  | full : Cause c state value .emittedFull
  | errorState (h : state.kind = .error) : Cause c state value .errorState
  | initialErrorState (h : state.kind = .error) : Cause c state value .initialErrorState

/-! ## What a machine that was built and bound rules out -/

/-- The machine was built, and its bindings and event types passed the checks of the instance. -/
structure Sound [RuntimeType τ] (c : Config τ ν) : Prop where
  declares : ∀ transition ∈ c.machine.transitions, Declared c.machine transition
  emits : ∀ action ∈ c.machine.actions, validateActionObservation c.machine action = .ok ()
  bindings : bindingsMatch c = true
  events : (c.machine.events.map (·.id)).Nodup

theorem runAction_action {c : Config τ ν} {value : ν} {event : Event τ ν} {row : Transition × ℕ} {r : Ran τ ν} {action : Action τ}
    (h : runAction c value event row = .ok r) (ha : r.action = some action) :
    action ∈ c.machine.actions := by
  unfold runAction at h
  split_ifs at h
  · cases h
    cases ha
  · split at h
    · rename_i found binding hfound hbound
      split at h
      · cases h
        cases ha
        exact (findRow_some hfound).1
      · split_ifs at h
    · cases h

section Checks

variable [RuntimeType τ] {c : Config τ ν} {state : State τ} {value : ν} {event : Event τ ν}
  {failure : Failure}

theorem select_cause (hc : Sound c) (h : select c state value event = .error failure) :
    Cause c state value failure := by
  rcases selectLoop_error h with rfl | ⟨row, hrow, henabled⟩
  · exact .noTransition h
  · unfold transitionEnabled at henabled
    split_ifs at henabled with hguard
    split at henabled
    · rename_i hmissing
      have hdeclared := hc.declares row.1 (List.mem_of_getElem? (scannedRows_get hrow))
      have hkeys : c.machine.guards.map (·.id) = c.guardTable.map Prod.fst := by
        have := hc.bindings
        simp only [bindingsMatch, Bool.and_eq_true, decide_eq_true_eq] at this
        exact this.1.symm
      have hbound := findRow_isSome hkeys (hdeclared.guard hguard)
      rw [hmissing] at hbound
      cases hbound
    · split at henabled <;> cases henabled
      exact .guard h

theorem runAction_cause (hc : Sound c) {row : Transition × ℕ}
    (hs : select c state value event = .ok row)
    (h : runAction c value event row = .error failure) : Cause c state value failure := by
  have hrun := h
  unfold runAction at h
  split_ifs at h with haction
  split at h
  · split at h
    · cases h
    · split_ifs at h <;> cases h
      · exact .contract hs hrun
      · exact .action hs hrun
  · rename_i hmissing
    have hdeclared := hc.declares row.1 (List.mem_of_getElem? (selectTransition_get hs).1)
    have hkeys : c.machine.actions.map (·.id) = c.actionTable.map Prod.fst := by
      have := hc.bindings
      simp only [bindingsMatch, Bool.and_eq_true, decide_eq_true_eq] at this
      exact this.2.symm
    obtain ⟨action, hfound⟩ := Option.isSome_iff_exists.1 (hdeclared.action haction)
    obtain ⟨binding, hbound⟩ :=
      Option.isSome_iff_exists.1 (findRow_isSome hkeys (hdeclared.action haction))
    exact absurd hbound (hmissing action binding hfound)

theorem target_declared (hc : Sound c) {row : Transition × ℕ}
    (hs : select c state value event = .ok row) : (findState c.machine row.1.target).isSome :=
  (hc.declares row.1 (List.mem_of_getElem? (selectTransition_get hs).1)).target

/-- An open mailbox takes every emitted event, unless it is full. -/
theorem emission_taken (hc : Sound c) {row : Transition × ℕ} {r : Ran τ ν} {mailbox : Mailbox τ ν}
    (h : runAction c value event row = .ok r) (ho : r.observes .event = true)
    (hschema : mailbox.schema = c.machine.events) (hopen : mailbox.terminal = .opened) :
    ∃ view, emittedEvent r = some view ∧
      ((mailbox.trySend view).1 = .ok ∨ (mailbox.trySend view).1 = .full) := by
  cases haction : r.action with
  | none =>
    rw [Ran.observes, haction] at ho
    cases ho
  | some action =>
    have hobserves : action.observation = .event := by
      rw [Ran.observes, haction] at ho
      simpa using ho
    obtain ⟨type, event, htype, hid, hfound, hequal⟩ := validateActionObservation_event
      (hc.emits action (runAction_action h haction)) hobserves
    have hview : emittedEvent r = some ⟨action.outputEventId, type, r.observation⟩ := by
      simp [emittedEvent, haction, htype]
    have htypeOf : mailbox.typeOf action.outputEventId = some event := by
      rw [Mailbox.typeOf, if_neg hid, hschema]
      exact find?_of_findRow hc.events hfound
    refine ⟨_, hview, ?_⟩
    simp only [Mailbox.trySend, htypeOf, hequal, hopen]
    by_cases hfull : mailbox.pending.length = mailbox.capacity
    · simp [hfull]
    · simp [hfull]

end Checks

/-! Sections that neither fail the instance nor end the phase of its worker: every caller's section
is one, and what they leave alone is what the worker relies on. -/

variable {τ ν : Type}

/-- The worker is on its way from a receive to a commit, and nothing has ended the instance. -/
structure Healthy (s : Shared τ ν) : Prop where
  phase : s.phase = .executing
  done : s.done = false
  error : s.error = none
  lifecycle : s.lifecycle ≠ .terminal

/-- The section neither fails the instance nor ends the worker's phase. -/
def Call.Harmless : Call τ ν → Prop
  | .unschedule => False
  | .fail _ => False
  | .publishDone => False
  | _ => True

/-- The executor accepts the post, and the mailbox has no waiter that the arming would find. -/
def Call.Granted (l : Label τ ν) (s : Shared τ ν) : Call τ ν → Prop
  | .post => l ≠ .answer .full ∧ l ≠ .answer .closed
  | .arm => s.mailbox.arm.isSome
  | _ => True

structure Quiet (s s' : Shared τ ν) : Prop where
  error : s'.error = s.error
  healthy : Healthy s → Healthy s'
  done : s.done = true → s'.done = true
  ended : s'.lifecycle = .terminal → s.lifecycle = .terminal ∨ s'.done = true

theorem wakes_harmless (wake : Bool) : ∀ call ∈ (wakes wake : List (Call τ ν)), call.Harmless := by
  cases wake <;> simp [wakes, Call.Harmless]

theorem afterTerminal_harmless : ∀ call ∈ (afterTerminal : List (Call τ ν)), call.Harmless := by
  simp [afterTerminal, Call.Harmless]

section Quiet

variable {s s' : Shared τ ν}

theorem Quiet.of_eq (hp : s'.phase = s.phase) (hd : s'.done = s.done) (he : s'.error = s.error)
    (hl : s'.lifecycle = s.lifecycle) : Quiet s s' :=
  ⟨he, fun h => ⟨hp ▸ h.phase, hd ▸ h.done, he ▸ h.error, hl ▸ h.lifecycle⟩, fun h => hd ▸ h,
    fun h => .inl (hl ▸ h)⟩

theorem schedule_quiet (s : Shared τ ν) : Quiet s s.schedule.1 := by
  unfold Shared.schedule
  split_ifs with hsettled hidle
  · exact .of_eq rfl rfl rfl rfl
  · refine ⟨rfl, fun h => ?_, id, .inl⟩
    rw [h.phase] at hidle
    cases hidle
  · exact .of_eq rfl rfl rfl rfl

theorem close_quiet (s : Shared τ ν) : Quiet s s.close := by
  unfold Shared.close
  split_ifs with hended
  · refine ⟨rfl, fun h => ?_, fun _ => rfl, fun _ => .inr rfl⟩
    simp [Shared.working, h.phase, h.done, h.error] at hended
  · unfold Shared.closeRequested
    by_cases hopened : s.lifecycle = .opened
    · exact ⟨rfl, fun h => ⟨h.phase, h.done, h.error, by simp [hopened]⟩, id, by simp [hopened]⟩
    · exact .of_eq rfl rfl rfl (if_neg hopened)

theorem cancel_quiet (s : Shared τ ν) : Quiet s s.cancel := by
  unfold Shared.cancel
  split_ifs with hworking
  · exact ⟨rfl, fun h => ⟨h.phase, h.done, h.error, by simp [Shared.cancelRequested]⟩, id,
      fun h => nomatch h⟩
  · refine ⟨rfl, fun h => ?_, fun _ => rfl, fun _ => .inr rfl⟩
    simp [Shared.working, h.phase] at hworking

theorem transitionCommitted_quiet (s : Shared τ ν) (hierarchy : Hierarchy τ) (index : Option ℕ) :
    Quiet s (s.transitionCommitted hierarchy index) := by
  unfold Shared.transitionCommitted
  split <;> exact .of_eq rfl rfl rfl rfl

theorem resume_quiet (s : Shared τ ν) : Quiet s s.resume.1 := by
  unfold Shared.resume
  split <;> exact .of_eq rfl rfl rfl rfl

variable [RuntimeType τ] {c : Config τ ν}

theorem scheduleTimer_quiet (hierarchy : Hierarchy τ) (scope : ℕ) (event : EventView τ ν) :
    Quiet s (s.scheduleTimer c hierarchy scope event) := by
  unfold Shared.scheduleTimer
  split_ifs
  · exact .of_eq rfl rfl rfl rfl
  · split <;> exact .of_eq rfl rfl rfl rfl

variable {t : ℕ} {l : Label τ ν} {call : Call τ ν} {pushed : List (Call τ ν)}

theorem perform_quiet (hh : call.Harmless) (hg : call.Granted l s)
    (h : perform c t l s call = some (s', pushed)) : Quiet s s' := by
  cases call with
  | unschedule | fail | publishDone => cases hh
  | hookEnd index =>
    simp only [perform] at h
    split at h <;> cases h
    · exact .of_eq rfl rfl rfl rfl
    · exact transitionCommitted_quiet s _ index
  | schedule =>
    cases h
    exact schedule_quiet s
  | resume =>
    cases h
    exact resume_quiet s
  | close =>
    cases h
    exact close_quiet s
  | cancel =>
    simp only [perform] at h
    split at h <;> cases h
    · exact .of_eq rfl rfl rfl rfl
    · exact cancel_quiet s
  | scheduleTimer scope event =>
    simp only [perform] at h
    split at h <;> cases h
    exact scheduleTimer_quiet _ scope event
  | cancelTimer id =>
    cases h
    split <;> exact .of_eq rfl rfl rfl rfl
  | claimTimer =>
    simp only [perform] at h
    split at h
    · split_ifs at h
      · cases h
        exact .of_eq rfl rfl rfl rfl
      · split at h <;> cases h <;> exact .of_eq rfl rfl rfl rfl
    · cases h
      exact .of_eq rfl rfl rfl rfl
  | _ =>
    simp only [perform] at h
    repeat' split at h
    all_goals cases h <;> exact .of_eq rfl rfl rfl rfl

/-- A granted section makes harmless calls only. -/
theorem perform_harmless (hg : call.Granted l s)
    (h : perform c t l s call = some (s', pushed)) : ∀ call' ∈ pushed, call'.Harmless := by
  cases call with
  | cancelMailbox | send event =>
    cases h
    exact wakes_harmless _
  | fail failure | publishDone =>
    cases h
    exact afterTerminal_harmless
  | post =>
    simp only [perform] at h
    split at h
    · cases h
      simp
    · exact absurd rfl hg.1
    · exact absurd rfl hg.2
    · cases h
  | arm =>
    simp only [perform] at h
    split at h
    · rename_i hnone
      have hsome : s.mailbox.arm.isSome := hg
      rw [hnone] at hsome
      cases hsome
    · cases h
      exact wakes_harmless _
  | deliver =>
    simp only [perform] at h
    split at h <;> cases h
    exact wakes_harmless _
  | hookEnd | schedule | resume | close | cancel | closeGate | cancelGate | armCheck =>
    simp only [perform] at h
    repeat' split at h
    all_goals cases h <;> simp [Call.Harmless]
  | claimTimer =>
    simp only [perform] at h
    split at h
    · split_ifs at h
      · cases h
        simp
      · split at h
        · cases h
          simp
        · cases h
          simp [Call.Harmless]
    · cases h
      simp
  | _ =>
    simp only [perform] at h
    repeat' split at h
    all_goals cases h <;> simp [Call.Harmless]

end Quiet

end Cflow.Instance
