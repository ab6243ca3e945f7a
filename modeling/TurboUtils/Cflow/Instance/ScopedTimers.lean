import TurboUtils.Cflow.Instance.Conservation
import TurboUtils.Cflow.Instance.Gate
import TurboUtils.Cflow.Instance.Scopes

/-! The pending timers of a hierarchical instance are in scope, and none is left when the service of
the timers has ended. -/
namespace Cflow.Instance

open Machine Interleaving

variable {τ ν : Type}

/-! ## What threads owe the timers -/

def Ended (s : Shared τ ν) : Prop :=
  s.closed = true ∨ s.cancelled = true ∨ s.error.isSome = true ∨ s.done = true ∨
    s.state.kind ≠ .active

/-- The thread has the gate at the end of the hook: the transition it may have committed is as said,
or it is about to close the timers. -/
def Hooked (committed : Option ℕ → Prop) : List (Call τ ν) → Prop
  | .hookEnd index :: _ => committed index
  | .closeTimers :: .awaitTimers :: .unlockGate :: _ => True
  | _ => False

/-- The thread will close the timers before it leaves the gate. -/
def Closing (hierarchy : Hierarchy τ) : List (Call τ ν) → Prop :=
  Hooked fun index => ∀ i ∈ index, endsService hierarchy i = true

/-- The thread will cancel the timers of the scope before it leaves the gate. -/
def Leaving (hierarchy : Hierarchy τ) (scope : ℕ) : List (Call τ ν) → Prop :=
  Hooked fun index => ∀ i ∈ index, endsService hierarchy i = true ∨
    ∀ route ∈ routeAt hierarchy i, scope ∈ route.exitStates

/-- What was requested of the instance is on record. -/
structure Requested (s : Shared τ ν) : Prop where
  close : s.lifecycle = .closeRequested → s.closed = true
  cancel : s.lifecycle = .cancelRequested → s.cancelled = true

/-- What a section that may begin with a call does to the timers: those that it adds are new, and
their scope is active; those that it claims were pending. -/
structure Timing (hierarchy : Hierarchy τ) (call : Option (Call τ ν)) (s s' : Shared τ ν) :
    Prop where
  closed : s.timers.closed = true → s'.timers.closed = true
  wellFormed : s.timers.WellFormed → s'.timers.WellFormed
  nextId : s.timers.nextId ≤ s'.timers.nextId
  pending : ∀ timer ∈ s'.timers.pending, timer ∈ s.timers.pending ∨
    s.timers.nextId ≤ timer.id ∧ scopeActive hierarchy s.state.id timer.scope = true
  firing : ∀ timer ∈ s'.timers.firing, timer ∈ s.timers.firing ∨
    timer ∈ s.timers.pending ∧ call = some .claimTimer

section Sections

variable {hierarchy : Hierarchy τ} {s s' : Shared τ ν} {t : ℕ} {l : Label τ ν} {call : Call τ ν}
  {calls pushed : List (Call τ ν)}

theorem Hooked.append {committed : Option ℕ → Prop} (h : Hooked committed calls) :
    Hooked committed (calls ++ pushed) := by
  unfold Hooked at h
  split at h
  · exact h
  · trivial
  · exact absurd h not_false

theorem closing_none : Closing hierarchy (.hookEnd none :: calls) := by
  rintro i ⟨⟩

theorem Requested.of_terminal (h : s.lifecycle = .terminal) : Requested s :=
  ⟨fun hl => (nomatch h.symm.trans hl), fun hl => (nomatch h.symm.trans hl)⟩

theorem close_requested (h : Requested s) : Requested s.close := by
  have hclose : Requested s.closeRequested := by
    refine ⟨fun _ => rfl, fun hl => ?_⟩
    simp only [Shared.closeRequested] at hl ⊢
    split_ifs at hl
    exact h.cancel hl
  unfold Shared.close
  split_ifs
  · exact .of_terminal rfl
  · exact hclose

theorem cancel_requested : Requested s.cancel := by
  unfold Shared.cancel
  split_ifs
  · exact ⟨fun hl => (nomatch hl), fun _ => rfl⟩
  · exact .of_terminal rfl

variable {head : Option (Call τ ν)}

theorem Timing.of_shrinks (h : TimerQueue.Shrinks s.timers s'.timers (head = some .claimTimer)) :
    Timing hierarchy head s s' :=
  ⟨h.closed, h.wellFormed, h.nextId.ge, fun timer hmem => .inl (h.pending timer hmem), h.firing⟩

theorem Timing.of_eq (h : s'.timers = s.timers) : Timing hierarchy head s s' :=
  .of_shrinks (h ▸ .refl _)

theorem Timing.of_schedule {scope : ℕ} {event : EventView τ ν}
    (ha : scopeActive hierarchy s.state.id scope = true) :
    Timing hierarchy head s { s with timers := (s.timers.schedule scope event).2 } := by
  have hw := @TimerQueue.schedule_wellFormed _ _ s.timers scope event
  rcases s.timers.schedule_cases scope event with h | ⟨-, h⟩
  · exact .of_eq h
  · rw [h] at hw ⊢
    refine ⟨id, hw, Nat.le_succ _, fun timer hmem => ?_, fun _ => .inl⟩
    rcases List.mem_append.1 hmem with hmem | hmem
    · exact .inl hmem
    · rw [List.mem_singleton.1 hmem]
      exact .inr ⟨le_rfl, ha⟩

theorem transitionCommitted_some (s : Shared τ ν) (hierarchy : Hierarchy τ) (i : ℕ) :
    (s.transitionCommitted hierarchy (some i)).gateClosed = true ∨
      endsService hierarchy i = false ∧ ∃ route, routeAt hierarchy i = some route ∧
        (s.transitionCommitted hierarchy (some i)).timers =
          s.timers.cancelScopes route.exitStates := by
  unfold Shared.transitionCommitted
  rw [Option.bind_some]
  cases hroute : routeAt hierarchy i with
  | none => exact .inl rfl
  | some route =>
    cases hends : endsService hierarchy i with
    | true => exact .inl (by simp [hends])
    | false => exact .inr ⟨rfl, route, rfl, rfl⟩

theorem commit_done {event : Event τ ν} {decision : Decision τ ν}
    (hactive : decision.target.kind = .active) (h : (s.commit event decision).done = true) :
    s.done = true ∨ s.lifecycle = .closeRequested := by
  simp only [Shared.commit, Shared.finishCommit, Shared.publishClose, Shared.publishObservation,
    hactive] at h
  split_ifs at h with _ hclose
  all_goals simp_all [Shared.settleCommitted]

theorem commit_ended {event : Event τ ν} {decision : Decision τ ν} (hr : Requested s)
    (hactive : decision.target.kind = .active) (he : Ended (s.commit event decision)) : Ended s := by
  have hpublish : ∀ s' : Shared τ ν,
      ((s'.publishObservation decision).publishClose decision).closed = s'.closed ∧
      ((s'.publishObservation decision).publishClose decision).cancelled = s'.cancelled ∧
      ((s'.publishObservation decision).publishClose decision).error = s'.error ∧
      ((s'.publishObservation decision).publishClose decision).state = s'.state := by
    intro s'
    unfold Shared.publishClose Shared.publishObservation
    split_ifs <;> exact ⟨rfl, rfl, rfl, rfl⟩
  obtain ⟨hclosed, hcancelled, herror, hstate⟩ := hpublish (s.settleCommitted event decision)
  rcases he with h | h | h | h | h
  · exact .inl (hclosed ▸ h)
  · exact .inr (.inl (hcancelled ▸ h))
  · exact .inr (.inr (.inl (herror ▸ h)))
  · rcases commit_done hactive h with hdone | hclose
    · exact .inr (.inr (.inr (.inl hdone)))
    · exact .inl (hr.close hclose)
  · exact absurd ((congrArg State.kind hstate).trans hactive) h

theorem commit_requested {event : Event τ ν} {decision : Decision τ ν} (hr : Requested s) :
    Requested (s.commit event decision) := by
  have hpublish : Requested (((s.settleCommitted event decision).publishObservation
      decision).publishClose decision) := by
    unfold Shared.publishClose Shared.publishObservation
    split_ifs <;> exact ⟨hr.close, hr.cancel⟩
  unfold Shared.commit Shared.finishCommit
  split_ifs
  · exact .of_terminal rfl
  · exact ⟨hpublish.close, hpublish.cancel⟩

variable [RuntimeType τ] {c : Config τ ν}

/-- Scheduling may add a timer for an active scope; nothing else adds one. -/
theorem perform_timers (hh : c.hierarchy = some hierarchy)
    (h : perform c t l s call = some (s', pushed)) : Timing hierarchy (some call) s s' := by
  cases call with
  | hookEnd index =>
    simp only [perform, hh] at h
    cases h
    unfold Shared.transitionCommitted
    split
    · exact .of_eq rfl
    · exact .of_shrinks (s.timers.cancelScopes_shrinks _)
  | closeTimers =>
    cases h
    exact .of_shrinks s.timers.closeBegin_shrinks
  | releaseTimer =>
    cases h
    exact .of_shrinks s.timers.release_shrinks
  | cancelTimer id =>
    cases h
    split
    · exact .of_eq rfl
    · exact .of_shrinks (s.timers.cancel_shrinks id)
  | claimTimer =>
    simp only [perform] at h
    split at h
    · split at h
      · cases h
        exact .of_eq rfl
      · split at h <;> cases h
        · exact .of_eq rfl
        · rename_i hclaim
          exact .of_shrinks (s.timers.claim_shrinks rfl hclaim)
    · cases h
      exact .of_eq rfl
  | scheduleTimer scope event =>
    simp only [perform, hh] at h
    cases h
    unfold Shared.scheduleTimer
    split_ifs with hopen
    · exact .of_eq rfl
    · simp only [Bool.or_eq_true, not_or, Bool.not_eq_true, Bool.not_eq_true'] at hopen
      split
      · exact .of_eq rfl
      · exact .of_schedule (by simpa using hopen.2)
  | close =>
    cases h
    exact .of_eq close_untimed.timers
  | cancel =>
    simp only [perform] at h
    split at h <;> cases h
    · exact .of_eq rfl
    · exact .of_eq cancel_untimed.timers
  | schedule =>
    cases h
    exact .of_eq schedule_untimed.timers
  | resume =>
    cases h
    exact .of_eq resume_untimed.timers
  | _ =>
    simp only [perform] at h
    repeat' split at h
    all_goals cases h <;> exact .of_eq rfl

/-- The instance ends in a section that the thread will close the timers after. -/
theorem perform_ended (hh : c.hierarchy = some hierarchy)
    (h : perform c t l s call = some (s', pushed)) (he : Ended s') :
    Ended s ∨ Closing hierarchy pushed ∧ call.use = .unlocks ∧ s'.gate = s.gate := by
  cases call with
  | hookEnd index =>
    simp only [perform, hh] at h
    cases h
    unfold Shared.transitionCommitted at he
    split at he <;> exact .inl he
  | close =>
    cases h
    exact .inr ⟨closing_none, rfl, close_untimed.gate⟩
  | cancel =>
    simp only [perform] at h
    split at h <;> cases h
    · exact .inr ⟨closing_none, rfl, rfl⟩
    · exact .inr ⟨closing_none, rfl, cancel_untimed.gate⟩
  | fail failure | publishDone =>
    cases h
    exact .inr ⟨closing_none, rfl, rfl⟩
  | schedule =>
    cases h
    left
    unfold Shared.schedule at he
    split_ifs at he <;> exact he
  | resume =>
    cases h
    left
    unfold Shared.resume at he
    split at he <;> exact he
  | scheduleTimer scope event =>
    simp only [perform, hh] at h
    cases h
    left
    unfold Shared.scheduleTimer at he
    split_ifs at he
    · exact he
    · split at he <;> exact he
  | cancelTimer id =>
    cases h
    left
    split at he <;> exact he
  | claimTimer =>
    simp only [perform] at h
    repeat' split at h
    all_goals
      cases h
      exact .inl he
  | _ =>
    simp only [perform] at h
    repeat' split at h
    all_goals cases h <;> exact .inl he

theorem perform_requested (hr : Requested s) (h : perform c t l s call = some (s', pushed)) :
    Requested s' := by
  cases call with
  | hookEnd index =>
    simp only [perform] at h
    split at h <;> cases h
    · exact hr
    · unfold Shared.transitionCommitted
      split <;> exact ⟨hr.close, hr.cancel⟩
  | close =>
    cases h
    exact close_requested hr
  | cancel =>
    simp only [perform] at h
    split at h <;> cases h
    · exact hr
    · exact cancel_requested
  | fail failure | publishDone =>
    cases h
    exact .of_terminal rfl
  | schedule =>
    cases h
    unfold Shared.schedule
    split_ifs <;> exact ⟨hr.close, hr.cancel⟩
  | resume =>
    cases h
    unfold Shared.resume
    split <;> exact ⟨hr.close, hr.cancel⟩
  | scheduleTimer scope event =>
    simp only [perform] at h
    split at h <;> cases h
    unfold Shared.scheduleTimer
    split_ifs
    · exact hr
    · split <;> exact ⟨hr.close, hr.cancel⟩
  | cancelTimer id =>
    cases h
    split <;> exact ⟨hr.close, hr.cancel⟩
  | _ =>
    simp only [perform] at h
    repeat' split at h
    all_goals cases h <;> exact ⟨hr.close, hr.cancel⟩

/-- At the end of the hook the timers are closed, or about to be, or they lose the scopes that the
transition exits. -/
theorem perform_hooked (hh : c.hierarchy = some hierarchy) {committed : Option ℕ → Prop}
    (h : perform c t l s call = some (s', pushed)) (hc : Hooked committed (call :: calls)) :
    s'.timers.closed = true ∨ (∀ committed', Hooked committed' (pushed ++ calls)) ∨
      ∃ i route, committed (some i) ∧ endsService hierarchy i = false ∧
        routeAt hierarchy i = some route ∧
        s'.timers = s.timers.cancelScopes route.exitStates := by
  cases call with
  | hookEnd index =>
    simp only [perform, hh] at h
    cases h
    by_cases hshut : (s.transitionCommitted hierarchy index).gateClosed = true
    · rw [hshut]
      exact .inr (.inl fun _ => trivial)
    · cases index with
      | none => exact absurd rfl hshut
      | some i =>
        obtain ⟨hends, route, hroute, htimers⟩ :=
          (transitionCommitted_some s hierarchy i).resolve_left hshut
        exact .inr (.inr ⟨i, route, hc, hends, hroute, htimers⟩)
  | closeTimers =>
    cases h
    exact .inl s.timers.closeBegin_closed
  | _ => cases hc

theorem perform_closing (hh : c.hierarchy = some hierarchy)
    (h : perform c t l s call = some (s', pushed)) (hc : Closing hierarchy (call :: calls)) :
    s'.timers.closed = true ∨ Closing hierarchy (pushed ++ calls) := by
  rcases perform_hooked hh h hc with hclosed | hnext | ⟨i, route, hi, hends, -, -⟩
  · exact .inl hclosed
  · exact .inr (hnext _)
  · rw [hi i rfl] at hends
    cases hends

theorem perform_leaving (hh : c.hierarchy = some hierarchy) (hw : s.timers.WellFormed)
    (hw' : s'.timers.WellFormed) (h : perform c t l s call = some (s', pushed)) {timer : Timer τ ν}
    (hmem : timer ∈ s'.timers.pending) (hl : Leaving hierarchy timer.scope (call :: calls)) :
    Leaving hierarchy timer.scope (pushed ++ calls) := by
  rcases perform_hooked hh h hl with hclosed | hnext | ⟨i, route, hi, hends, hroute, htimers⟩
  · rw [hw'.cleared hclosed] at hmem
    cases hmem
  · exact hnext _
  · rw [htimers] at hmem
    rcases hi i rfl with hends' | hexits
    · rw [hends] at hends'
      cases hends'
    · exact absurd (hexits route hroute) (s.timers.cancelScopes_scope _ hw hmem)

/-! ## The worker -/

variable {definition : HierarchyDefinition τ} {p : Point τ ν}

/-- The worker ends the instance where it has the gate, and will close the timers next. -/
theorem proceed_ended (hb : hierarchyBuild definition = .ok hierarchy)
    (hm : c.machine = hierarchy.flat) (hr : Requested s) (hg : p.Grounded c s.state s.value)
    (he : Ended (proceed c s p).shared) :
    Ended s ∨ Closing hierarchy (proceed c s p).calls ∧ Point.needs (some p) = .held := by
  cases p with
  | task | empty | take | finish => exact .inl he
  | loop left =>
    cases left with
    | zero => exact .inl he
    | succ left =>
      simp only [proceed] at he
      split at he <;> exact .inl he
  | receive left =>
    simp only [proceed] at he
    split at he <;> exact .inl he
  | settle flight stage =>
    simp only [proceed] at he
    split at he
    · rename_i hcancel
      exact .inl (.inr (.inl (hr.cancel hcancel)))
    · exact .inl he
  | checkClosed flight decision =>
    simp only [proceed] at he
    split at he <;> exact .inl he
  | emit flight decision =>
    simp only [proceed] at he
    split at he
    · exact .inl he
    · split at he <;> exact .inl he
  | abort flight failure => exact .inr ⟨closing_none, rfl⟩
  | commit flight decision =>
    have hd : Chosen c s.state s.value flight.event decision := hg
    simp only [proceed] at he ⊢
    split at he
    · exact .inr ⟨closing_none, rfl⟩
    · exact .inr ⟨closing_none, rfl⟩
    · by_cases hactive : decision.target.kind = .active
      · exact .inl (commit_ended hr hactive he)
      · have hrow := (selectTransition_get hd.selected).1
        have htarget := hd.target
        rw [hm] at hrow htarget
        refine .inr ⟨?_, rfl⟩
        rintro i ⟨⟩
        exact (endsService_iff hb hrow htarget).2 hactive

theorem proceed_requested (hr : Requested s) : Requested (proceed c s p).shared := by
  cases p with
  | task | empty | take | finish => exact ⟨hr.close, hr.cancel⟩
  | loop left =>
    cases left with
    | zero => exact hr
    | succ left =>
      simp only [proceed]
      split <;> exact ⟨hr.close, hr.cancel⟩
  | receive left =>
    simp only [proceed]
    split <;> exact ⟨hr.close, hr.cancel⟩
  | settle flight stage =>
    simp only [proceed]
    split
    · exact .of_terminal rfl
    · exact hr
  | checkClosed flight decision =>
    simp only [proceed]
    split <;> exact hr
  | emit flight decision =>
    simp only [proceed]
    split
    · exact hr
    · split <;> exact ⟨hr.close, hr.cancel⟩
  | abort flight failure => exact .of_terminal rfl
  | commit flight decision =>
    simp only [proceed]
    split
    · exact .of_terminal rfl
    · exact hr
    · exact commit_requested hr

theorem proceed_inScope (hb : hierarchyBuild definition = .ok hierarchy)
    (hm : c.machine = hierarchy.flat) (hg : p.Grounded c s.state s.value) {scope : ℕ}
    (h : InScope definition.states s.state.id scope) :
    InScope definition.states (proceed c s p).shared.state.id scope ∨
      Leaving hierarchy scope (proceed c s p).calls := by
  rcases proceed_state (c := c) s p with ⟨hsame, -⟩ | ⟨flight, decision, rfl, -, -⟩
  · rw [hsame]
    exact .inl h
  · have hd : Chosen c s.state s.value flight.event decision := hg
    obtain ⟨hrow, hsource, -⟩ := selectTransition_get hd.selected
    have htarget := hd.target
    rw [hm] at hrow htarget
    rw [← hsource] at h
    have hstate : (s.commit flight.event decision).state = decision.target :=
      congrArg Books.state (commit_books s flight.event decision)
    simp only [proceed]
    split
    · exact .inl (hsource ▸ h)
    · exact .inl (hsource ▸ h)
    · rw [hstate]
      refine (transition_inScope hb hrow htarget h).imp_right fun hleaves => ?_
      rintro i ⟨⟩
      exact hleaves

end Sections

/-! ## The invariant -/

section Runs

variable {t u : ℕ} {l : Label τ ν} {s s' : Shared τ ν} {thread thread' : Thread (Call τ ν) (Point τ ν)}

/-- At the end of the hook a thread has the gate. -/
theorem gate_of_hooked {committed : Option ℕ → Prop} (hd : Disciplined True t s thread)
    (h : Hooked committed thread.calls) : s.gate = some t := by
  by_contra hfree
  have htrack : track (holds t s) thread.calls = none := by
    rw [holds_not hfree]
    unfold Hooked at h
    split at h
    · rename_i hcalls
      rw [hcalls]
      rfl
    · rename_i hcalls
      rw [hcalls]
      rfl
    · exact absurd h not_false
  rcases hd with hx | ⟨-, hx⟩
  · rw [htrack] at hx
    cases hx
  · rw [htrack] at hx
    cases hx

variable [RuntimeType τ] {c : Config τ ν} {definition : HierarchyDefinition τ}
  {hierarchy : Hierarchy τ}

/-- What a thread owes the timers, and what holds of them whoever runs. -/
structure Timed (definition : HierarchyDefinition τ) (hierarchy : Hierarchy τ) (c : Config τ ν)
    (t : ℕ) (s : Shared τ ν) (thread : Thread (Call τ ν) (Point τ ν)) : Prop where
  balanced : Balanced c t s thread
  disciplined : Disciplined True t s thread
  wellFormed : s.timers.WellFormed
  requested : Requested s
  /-- Whoever ends the instance closes the timers before it leaves the gate. -/
  idle : s.gate = none → Ended s → s.timers.closed = true
  closing : s.gate = some t → Ended s →
    s.timers.closed = true ∨ Closing hierarchy thread.calls
  /-- The worker cancels the timers of the scopes that it exits before it leaves the gate. -/
  inScope : t = 0 → ∀ timer ∈ s.timers.pending,
    InScope definition.states s.state.id timer.scope ∨
      Leaving hierarchy timer.scope thread.calls

theorem section_timing (hh : c.hierarchy = some hierarchy)
    (h : Section (program c) t l s thread s' thread') :
    Timing hierarchy thread.calls.head? s s' := by
  cases h with
  | call hcall => exact perform_timers hh hcall
  | resume hresume =>
    cases hresume
    exact .of_eq proceed_untimed.timers
  | start hstart => exact .of_eq (begin_untimed hstart).timers

/-- A thread that ends the instance has the gate, and closes the timers next. -/
theorem section_ended (hb : hierarchyBuild definition = .ok hierarchy)
    (hh : c.hierarchy = some hierarchy) (hm : c.machine = hierarchy.flat)
    (hT : Timed definition hierarchy c t s thread)
    (h : Section (program c) t l s thread s' thread') (he : Ended s') :
    Ended s ∨ Closing hierarchy thread'.calls ∧ s.gate = some t := by
  cases h with
  | @call call calls point s' pushed hcall =>
    refine (perform_ended hh hcall he).imp_right fun ⟨hclosing, huse, _⟩ => ?_
    refine ⟨hclosing.append, ?_⟩
    obtain ⟨after, hafter⟩ := hT.disciplined.allows
    rw [huse] at hafter
    exact (unlocks_after hafter).1
  | @resume point r hresume =>
    cases hresume
    have ht : t = 0 := by
      by_contra hne
      cases hT.balanced.caller hne
    have hg := (hT.balanced.worker ht).grounded point rfl
    refine (proceed_ended hb hm hT.requested hg he).imp_right fun ⟨hclosing, hneeds⟩ => ?_
    refine ⟨hclosing, holds_held.1 ?_⟩
    rw [hT.disciplined.needs, hneeds]
  | @start r hstart =>
    have hbegin : begin c t l s = some r := hstart
    unfold begin at hbegin
    split_ifs at hbegin
    · cases hbegin
      exact .inl he
    · split at hbegin <;> cases hbegin
      exact .inl he

theorem section_requested (hr : Requested s) (h : Section (program c) t l s thread s' thread') :
    Requested s' := by
  cases h with
  | call hcall => exact perform_requested hr hcall
  | resume hresume =>
    cases hresume
    exact proceed_requested hr
  | @start r hstart =>
    have hbegin : begin c t l s = some r := hstart
    unfold begin at hbegin
    split_ifs at hbegin
    · cases hbegin
      exact ⟨hr.close, hr.cancel⟩
    · split at hbegin <;> cases hbegin
      exact hr

section Invariant

variable (hb : hierarchyBuild definition = .ok hierarchy) (hh : c.hierarchy = some hierarchy)
  (hm : c.machine = hierarchy.flat)
include hb hh hm

/-- If no other thread has the gate, the timers of an ended instance are closed or about to be. -/
theorem section_closing (hT : Timed definition hierarchy c t s thread)
    (h : Section (program c) t l s thread s' thread') (hown : ∀ u ≠ t, s'.gate ≠ some u)
    (he : Ended s') : s'.timers.closed = true ∨ Closing hierarchy thread'.calls := by
  have hclosed := (section_timing hh h).closed
  rcases section_ended hb hh hm hT h he with hbefore | ⟨hclosing, -⟩
  · cases hold : s.gate with
    | none => exact .inl (hclosed (hT.idle hold hbefore))
    | some u =>
      by_cases hu : u = t
      · subst hu
        rcases hT.closing hold hbefore with hdone | hclosing
        · exact .inl (hclosed hdone)
        · cases h with
          | call hcall => exact perform_closing hh hcall hclosing
          | resume => exact absurd hclosing not_false
          | start => exact absurd hclosing not_false
      · have hother := (section_disciplined hh hT.disciplined (.inl trivial) h).2 u hu
        rw [holds_self hold, holds_not (hown u hu)] at hother
        cases hother
  · exact .inr hclosing

theorem section_inScope (ht : t = 0) (hT : Timed definition hierarchy c t s thread)
    (h : Section (program c) t l s thread s' thread') {timer : Timer τ ν}
    (hmem : timer ∈ s'.timers.pending) : InScope definition.states s'.state.id timer.scope ∨
      Leaving hierarchy timer.scope thread'.calls := by
  have htiming := section_timing hh h
  cases h with
  | @call call calls point s' pushed hcall =>
    have hstate : s'.state = s.state := congrArg Books.state (perform_frame s hcall).books
    rw [hstate]
    rcases htiming.pending timer hmem with hbefore | ⟨-, hactive⟩
    · refine (hT.inScope ht timer hbefore).imp_right fun hleaving => ?_
      exact perform_leaving hh hT.wellFormed (htiming.wellFormed hT.wellFormed) hcall hmem hleaving
    · exact .inl (inScope_of_scopeActive hb hactive)
  | @resume point r hresume =>
    cases hresume
    rw [proceed_untimed.timers] at hmem
    rcases hT.inScope ht timer hmem with hin | hleaving
    · exact proceed_inScope hb hm ((hT.balanced.worker ht).grounded point rfl) hin
    · exact absurd hleaving not_false
  | @start r hstart =>
    have hbooks := (begin_spec hstart).1
    have hstate : r.shared.state = s.state := congrArg Books.state hbooks
    rw [hstate]
    rcases htiming.pending timer hmem with hbefore | ⟨-, hactive⟩
    · rcases hT.inScope ht timer hbefore with hin | hleaving
      · exact .inl hin
      · exact absurd hleaving not_false
    · exact .inl (inScope_of_scopeActive hb hactive)

theorem section_timed (hT : Timed definition hierarchy c t s thread)
    (h : Section (program c) t l s thread s' thread') :
    Timed definition hierarchy c t s' thread' := by
  have hd := (section_disciplined hh hT.disciplined (.inl trivial) h).1
  refine ⟨section_balanced hT.balanced h, hd, (section_timing hh h).wellFormed hT.wellFormed,
    section_requested hT.requested h, fun hgate he => ?_, fun hgate he => ?_,
    fun ht timer hmem => section_inScope hb hh hm ht hT h hmem⟩
  · refine (section_closing hb hh hm hT h (by simp [hgate]) he).resolve_right fun hclosing => ?_
    rw [gate_of_hooked hd hclosing] at hgate
    cases hgate
  · exact section_closing hb hh hm hT h (by simp [hgate, eq_comm]) he

/-- What another thread owes the timers does not change. -/
theorem others_timed (hT : Timed definition hierarchy c t s thread)
    (h : Section (program c) t l s thread s' thread') (u : ℕ) (hu : u ≠ t)
    (other : Thread (Call τ ν) (Point τ ν)) (ho : Timed definition hierarchy c u s other) :
    Timed definition hierarchy c u s' other := by
  have hself := section_timed hb hh hm hT h
  have htiming := section_timing hh h
  have hholds := (section_disciplined hh hT.disciplined (.inl trivial) h).2 u hu
  refine ⟨section_others hT.balanced h u hu other ho.balanced, ?_, hself.wellFormed,
    hself.requested, hself.idle, fun hgate he => ?_, fun hu0 timer hmem => ?_⟩
  · unfold Disciplined
    rw [hholds]
    exact ho.disciplined
  · have hold : s.gate = some u := holds_held.1 (hholds ▸ holds_self hgate)
    rcases section_ended hb hh hm hT h he with hbefore | ⟨-, howned⟩
    · exact (ho.closing hold hbefore).imp_left htiming.closed
    · rw [hold] at howned
      cases howned
      exact absurd rfl hu
  · have ht : t ≠ 0 := fun ht => hu (hu0.trans ht.symm)
    have hstate : s'.state = s.state := by
      cases h with
      | call hcall => exact congrArg Books.state (perform_frame s hcall).books
      | resume => cases hT.balanced.caller ht
      | start hstart => exact congrArg Books.state (begin_spec hstart).1
    rw [hstate]
    rcases htiming.pending timer hmem with hbefore | ⟨-, hactive⟩
    · exact ho.inScope hu0 timer hbefore
    · exact .inl (inScope_of_scopeActive hb hactive)

theorem created_timed {s : Shared τ ν} (hc : Created c s) :
    Everywhere (Timed definition hierarchy c) (c.world s) := by
  have hbalanced := created_balanced hc
  have hdisciplined : Everywhere (Disciplined True) (c.world s) := created_disciplined hc
  cases hc with
  | plain hnone _ =>
    rw [hh] at hnone
    cases hnone
  | hierarchical hierarchy' hc' _ h =>
    rw [hh] at hc'
    cases hc'
    obtain ⟨s₀, hs₀, rfl⟩ := hierarchyInstanceInit_ok h
    obtain ⟨initial, hinitial, -, -, -, rfl⟩ := instanceInit_ok hs₀
    rw [hm] at hinitial
    obtain ⟨i, state, hget, hindex, -, hid, hkind⟩ := flat_state hb hinitial
    have hended : initiallyEnded hierarchy (initialShared c initial).state.id = true ↔
        initial.kind ≠ .active := by
      change initiallyEnded hierarchy initial.id = true ↔ _
      rw [initiallyEnded, (findRow_some hinitial).2, hindex, Option.any_some, hget,
        Option.any_some, hkind, decide_eq_true_eq]
    intro t
    refine ⟨hbalanced t, hdisciplined t, ?_, ?_, fun _ he => ?_, fun hgate => (nomatch hgate),
      fun _ timer hmem => ?_⟩
    · dsimp only [Config.world]
      split_ifs
      · exact (@TimerQueue.closeBegin_shrinks _ _ _ True).wellFormed (TimerQueue.wellFormed_init _)
      · exact TimerQueue.wellFormed_init _
    · by_cases hactive : initial.kind = .active
      · exact ⟨fun hl => by simp [Config.world, initialShared, hactive] at hl,
          fun hl => by simp [Config.world, initialShared, hactive] at hl⟩
      · exact .of_terminal (if_neg hactive)
    · have hnot : initial.kind ≠ .active := by
        intro hactive
        simp [Ended, Config.world, initialShared, hactive] at he
      dsimp only [Config.world]
      rw [if_pos (hended.2 hnot)]
      rfl
    · dsimp only [Config.world] at hmem
      split_ifs at hmem
      · exact absurd hmem List.not_mem_nil
      · exact absurd hmem List.not_mem_nil

end Invariant

/-! ## The closed gate -/

/-- Who closes the gate closes the timers, if nobody did. -/
structure Shut (w : Interleaving.State (Shared τ ν) (Call τ ν) (Point τ ν)) : Prop where
  cancelled : w.shared.gateCancelled = true → w.shared.gateClosed = true
  closed : w.shared.gateClosed = true →
    w.shared.timers.closed = true ∨ ∃ t, .closeTimers ∈ (w.threads t).calls

theorem perform_shut {call : Call τ ν} {pushed : List (Call τ ν)}
    (hs : s.gateCancelled = true → s.gateClosed = true)
    (h : perform c t l s call = some (s', pushed)) :
    (s'.gateCancelled = true → s'.gateClosed = true) ∧
      (s'.gateClosed = true → s.gateClosed = true ∨ .closeTimers ∈ pushed) := by
  have huntimed : ∀ {s' : Shared τ ν}, Untimed s s' →
      (s'.gateCancelled = true → s'.gateClosed = true) ∧
        (s'.gateClosed = true → s.gateClosed = true ∨ .closeTimers ∈ pushed) := by
    intro s' hu
    rw [hu.gateCancelled, hu.gateClosed]
    exact ⟨hs, .inl⟩
  cases call with
  | hookEnd index =>
    simp only [perform] at h
    split at h <;> cases h
    · exact ⟨hs, .inl⟩
    · rename_i hierarchy _
      refine ⟨?_, fun hclosed => .inr (by simp [hclosed])⟩
      unfold Shared.transitionCommitted
      split
      · exact fun _ => rfl
      · exact fun hcancelled => by simp [hs hcancelled]
  | closeGate =>
    cases h
    refine ⟨fun _ => rfl, fun _ => ?_⟩
    cases s.gateClosed <;> simp
  | cancelGate =>
    cases h
    refine ⟨fun _ => rfl, fun _ => ?_⟩
    cases hc : s.gateCancelled with
    | true => exact .inl (hs hc)
    | false => exact .inr (by simp)
  | close =>
    cases h
    exact huntimed close_untimed
  | cancel =>
    simp only [perform] at h
    split at h <;> cases h
    · exact ⟨hs, .inl⟩
    · exact huntimed cancel_untimed
  | schedule =>
    cases h
    exact huntimed schedule_untimed
  | resume =>
    cases h
    exact huntimed resume_untimed
  | scheduleTimer scope event =>
    simp only [perform] at h
    split at h <;> cases h
    unfold Shared.scheduleTimer
    split_ifs
    · exact ⟨hs, .inl⟩
    · split <;> exact ⟨hs, .inl⟩
  | cancelTimer id =>
    cases h
    split <;> exact ⟨hs, .inl⟩
  | _ =>
    simp only [perform] at h
    repeat' split at h
    all_goals cases h <;> exact ⟨hs, .inl⟩

theorem step_shut (hh : c.hierarchy = some hierarchy) {w w' : c.World} (hs : Shut w)
    (h : step (program c) w t l = some w') : Shut w' := by
  obtain ⟨shared, thread, hsection, rfl⟩ := step_section _ h
  have htiming := section_timing hh hsection
  generalize hthread : w.threads t = before at hsection
  have hstays : w.shared.gateClosed = true → shared.timers.closed = true ∨
      (∃ u ≠ t, .closeTimers ∈ (w.threads u).calls) ∨ .closeTimers ∈ before.calls := by
    intro hclosed
    rcases hs.closed hclosed with htimers | ⟨u, hu⟩
    · exact .inl (htiming.closed htimers)
    · by_cases hut : u = t
      · subst hut
        exact .inr (.inr (hthread ▸ hu))
      · exact .inr (.inl ⟨u, hut, hu⟩)
  have hothers : (∃ u ≠ t, .closeTimers ∈ (w.threads u).calls) →
      ∃ u, .closeTimers ∈ ((w.put t shared thread).threads u).calls := by
    rintro ⟨u, hut, hu⟩
    exact ⟨u, by rwa [put_other hut]⟩
  have hidle : Untimed w.shared shared → before.calls = [] → Shut (w.put t shared thread) := by
    intro hu hcalls
    refine ⟨?_, fun hc => ?_⟩
    · rw [State.put, hu.gateCancelled, hu.gateClosed]
      exact hs.cancelled
    · rw [State.put, hu.gateClosed] at hc
      rcases hstays hc with htimers | hother | hmem
      · exact .inl htimers
      · exact .inr (hothers hother)
      · rw [hcalls] at hmem
        cases hmem
  cases hsection with
  | @call call calls point s' pushed hcall =>
    obtain ⟨hcancelled, hclosed⟩ := perform_shut hs.cancelled hcall
    refine ⟨hcancelled, fun hc => ?_⟩
    have hown : .closeTimers ∈ pushed ++ calls →
        ∃ u, .closeTimers ∈ ((w.put t shared ⟨pushed ++ calls, point⟩).threads u).calls :=
      fun hmem => ⟨t, by rwa [put_self]⟩
    rcases hclosed hc with hold | hpushed
    · rcases hstays hold with htimers | hother | hmem
      · exact .inl htimers
      · exact .inr (hothers hother)
      · rcases List.mem_cons.1 hmem with rfl | hmem
        · cases hcall
          exact .inl w.shared.timers.closeBegin_closed
        · exact .inr (hown (List.mem_append_right _ hmem))
    · exact .inr (hown (List.mem_append_left _ hpushed))
  | resume hresume =>
    cases hresume
    exact hidle proceed_untimed rfl
  | start hstart => exact hidle (begin_untimed hstart) rfl

theorem created_shut {s : Shared τ ν} (hc : Created c s) : Shut (c.world s) := by
  cases hc with
  | plain _ h =>
    obtain ⟨initial, -, -, -, -, rfl⟩ := instanceInit_ok h
    exact ⟨fun h => (nomatch h), fun h => (nomatch h)⟩
  | hierarchical hierarchy' _ _ h =>
    obtain ⟨s₀, hs₀, rfl⟩ := hierarchyInstanceInit_ok h
    obtain ⟨initial, -, -, -, -, rfl⟩ := instanceInit_ok hs₀
    refine ⟨fun h => (nomatch h), fun hclosed => .inl ?_⟩
    dsimp only [Config.world] at hclosed ⊢
    rw [if_pos hclosed]
    rfl

/-! ## Runs -/

structure TimersScoped (definition : HierarchyDefinition τ)
    (w : Interleaving.State (Shared τ ν) (Call τ ν) (Point τ ν)) : Prop where
  /-- While nobody has the gate, the scopes of the pending timers are active. -/
  inScope : w.shared.gate = none → ∀ timer ∈ w.shared.timers.pending,
    InScope definition.states w.shared.state.id timer.scope
  /-- No timer survives the end of the machine. -/
  ended : w.shared.gate = none → Ended w.shared → w.shared.timers.pending = []
  /-- No timer survives a close or a cancellation of the instance that has come to its end. -/
  shut : w.shared.gateClosed = true → (∀ t, .closeTimers ∉ (w.threads t).calls) →
    w.shared.timers.pending = []

/-- The step hands the timer over to be delivered. -/
def Claims (w w' : Interleaving.State (Shared τ ν) (Call τ ν) (Point τ ν)) (timer : Timer τ ν) : Prop :=
  timer ∉ w.shared.timers.firing ∧ timer ∈ w'.shared.timers.firing

/-- The timer is not pending, or will be cancelled by the worker before anybody else runs under the
gate. -/
def Lost (hierarchy : Hierarchy τ) (timer : Timer τ ν)
    (w : Interleaving.State (Shared τ ν) (Call τ ν) (Point τ ν)) : Prop :=
  timer.id < w.shared.timers.nextId ∧
    (timer ∉ w.shared.timers.pending ∨ Leaving hierarchy timer.scope (w.threads 0).calls)

theorem claims_pending (hh : c.hierarchy = some hierarchy) {w w' : c.World} (h : step (program c) w t l = some w')
    {timer : Timer τ ν} (hc : Claims w w' timer) :
    timer ∈ w.shared.timers.pending ∧ ∃ calls, (w.threads t).calls = .claimTimer :: calls := by
  obtain ⟨shared, thread, hsection, rfl⟩ := step_section _ h
  obtain ⟨hmem, hhead⟩ := ((section_timing hh hsection).firing timer hc.2).resolve_left hc.1
  exact ⟨hmem, List.head?_eq_some_iff.1 hhead⟩

section Delivery

variable (hb : hierarchyBuild definition = .ok hierarchy) (hh : c.hierarchy = some hierarchy)
  (hm : c.machine = hierarchy.flat)
include hb hh hm

theorem step_timed {w w' : c.World} (hT : Everywhere (Timed definition hierarchy c) w)
    (h : step (program c) w t l = some w') : Everywhere (Timed definition hierarchy c) w' :=
  step_everywhere (T := Timed definition hierarchy c) (k := .always)
    (fun hT _ h => section_timed hb hh hm hT h) (fun hT _ h => others_timed hb hh hm hT h) hT
    (always_meets _ _ _ _) h

omit hb hm in
theorem step_lost {w w' : c.World} {timer : Timer τ ν}
    (hT : Everywhere (Timed definition hierarchy c) w) (hl : Lost hierarchy timer w)
    (h : step (program c) w t l = some w') : Lost hierarchy timer w' := by
  obtain ⟨shared, thread, hsection, rfl⟩ := step_section _ h
  have htiming := section_timing hh hsection
  refine ⟨hl.1.trans_le htiming.nextId, ?_⟩
  by_cases hmem : timer ∈ shared.timers.pending
  · have hbefore : timer ∈ w.shared.timers.pending :=
      (htiming.pending timer hmem).resolve_right fun hnew => not_lt.2 hnew.1 hl.1
    have hleaving := hl.2.resolve_left (not_not_intro hbefore)
    right
    by_cases ht : t = 0
    · subst ht
      rw [put_self]
      have hw := (hT 0).wellFormed
      generalize w.threads 0 = before at hsection hleaving
      cases hsection with
      | call hcall => exact perform_leaving hh hw (htiming.wellFormed hw) hcall hmem hleaving
      | resume => exact absurd hleaving not_false
      | start => exact absurd hleaving not_false
    · rw [put_other (Ne.symm ht)]
      exact hleaving
  · exact .inl hmem

omit hb hm in
/-- A timer that is lost is not claimed. -/
theorem lost_unclaimed {w w' : c.World} {timer : Timer τ ν}
    (hT : Everywhere (Timed definition hierarchy c) w) (hl : Lost hierarchy timer w)
    (h : step (program c) w t l = some w') : ¬Claims w w' timer := by
  intro hc
  obtain ⟨hmem, calls, hcalls⟩ := claims_pending hh h hc
  have hleaving := hl.2.resolve_left (not_not_intro hmem)
  have hworker := gate_of_hooked (hT 0).disciplined hleaving
  have hclaims : w.shared.gate = some t := by
    have hd := (hT t).disciplined
    generalize w.threads t = before at hd hcalls
    obtain ⟨_, point⟩ := before
    cases hcalls
    obtain ⟨after, hafter⟩ := hd.allows
    exact (inside_after hafter).1
  rw [hworker] at hclaims
  cases hclaims
  rw [hcalls] at hleaving
  exact hleaving

end Delivery

/-- In every state that a hierarchical instance reaches, the scopes of the pending timers are active
and no timer is left of an instance that has ended; and from when a timer is pending until it is
delivered its scope is active all the time. -/
theorem timers_scoped (hb : hierarchyBuild definition = .ok hierarchy)
    (hh : c.hierarchy = some hierarchy) {s₀ : Shared τ ν} (hc : Created c s₀)
    {schedule : List (ℕ × Label τ ν)} {w : c.World}
    (hrun : run (program c) (c.world s₀) schedule = some w) : TimersScoped definition w ∧
    ∀ timer ∈ w.shared.timers.pending, ∀ (next last : List (ℕ × Label τ ν)) (w₁ w₂ w₃ : c.World) t l,
      run (program c) w next = some w₁ → run (program c) w₁ last = some w₂ →
      step (program c) w₂ t l = some w₃ → Claims w₂ w₃ timer →
      InScope definition.states w₁.shared.state.id timer.scope := by
  have hm : c.machine = hierarchy.flat := by
    cases hc with
    | plain hnone _ => cases hh.symm.trans hnone
    | hierarchical _ hh' hm _ =>
      cases hh.symm.trans hh'
      exact hm
  have hkept : ∀ {w w' : c.World} {schedule : List (ℕ × Label τ ν)},
      Everywhere (Timed definition hierarchy c) w → run (program c) w schedule = some w' →
        Everywhere (Timed definition hierarchy c) w' := fun hT h =>
    run_keeps (k := .always) (fun _ _ _ _ hT _ h => step_timed hb hh hm hT h) hT
      (runMeets_always _) h
  have hT := hkept (created_timed hb hh hm hc) hrun
  have hs := run_keeps (k := .always) (fun _ _ _ _ hs _ h => step_shut hh hs h) (created_shut hc)
    (runMeets_always _) hrun
  refine ⟨⟨fun hgate timer hmem => ?_, fun hgate he => ?_, fun hclosed hnone => ?_⟩, ?_⟩
  · refine ((hT 0).inScope rfl timer hmem).resolve_right fun hleaving => ?_
    rw [gate_of_hooked (hT 0).disciplined hleaving] at hgate
    cases hgate
  · exact (hT 0).wellFormed.cleared ((hT 0).idle hgate he)
  · refine (hT 0).wellFormed.cleared ((hs.closed hclosed).resolve_right ?_)
    rintro ⟨t, hmem⟩
    exact hnone t hmem
  · intro timer hmem next last w₁ w₂ w₃ t l hnext hlast hstep hclaims
    have hT₁ := hkept hT hnext
    have hnumbered : timer.id < w₁.shared.timers.nextId := by
      refine run_keeps (k := .always) (Q := fun w => timer.id < w.shared.timers.nextId)
        (fun w _ _ _ hid _ h => ?_) ((hT 0).wellFormed.fresh timer hmem) (runMeets_always _) hnext
      obtain ⟨shared, thread, hsection, rfl⟩ := step_section _ h
      exact hid.trans_le (section_timing hh hsection).nextId
    by_contra hout
    have hlost : Lost hierarchy timer w₁ := by
      refine ⟨hnumbered, ?_⟩
      by_cases hpending : timer ∈ w₁.shared.timers.pending
      · exact .inr (((hT₁ 0).inScope rfl timer hpending).resolve_left hout)
      · exact .inl hpending
    have hlost₂ := run_keeps (k := .always)
      (Q := fun w => Everywhere (Timed definition hierarchy c) w ∧ Lost hierarchy timer w)
      (fun _ _ _ _ hq _ h => ⟨step_timed hb hh hm hq.1 h, step_lost hh hq.1 hq.2 h⟩)
      ⟨hT₁, hlost⟩ (runMeets_always _) hlast
    exact lost_unclaimed hh hlost₂.1 hlost₂.2 hstep hclaims

end Runs

/-- The timer of the doorkeeper is pending in the service of the door. -/
theorem timers_scoped_doorkeeper : ∃ hierarchy, ∃ w : (doorkeeper hierarchy).World,
    hierarchyBuild door = .ok hierarchy ∧ TimersScoped door w ∧
      w.shared.timers.pending.map Timer.scope = [4] ∧ InScope door.states w.shared.state.id 4 := by
  have hrun : doorkeeperRun [(2, .call (.scheduleTimer 4 ⟨7, (), 0⟩)), (2, .go), (2, .go), (2, .go)]
      (fun _ _ w => (w.shared.gate, w.shared.timers.pending.map Timer.scope)) =
        some (none, [4]) := by decide
  obtain ⟨hierarchy, s, w, hbuild, hcreated, hw, hview⟩ := doorkeeperRun_some hrun
  obtain ⟨hgate, hpending⟩ := Prod.mk.inj hview
  have hscoped := (timers_scoped hbuild rfl hcreated hw).1
  obtain ⟨timer, hmem, hscope⟩ := List.mem_map.1 (hpending ▸ List.mem_singleton_self 4)
  exact ⟨hierarchy, w, hbuild, hscoped, hpending, hscope ▸ hscoped.inScope hgate timer hmem⟩

end Cflow.Instance
