import TurboUtils.Cflow.Instance.Mailbox

/-! The timers of a machine instance: each holds an event for the mailbox and the state that it is
scoped to. Which pending timer is due first is left to the clock. -/
namespace Cflow.Instance

/-- A slot that is not free. -/
structure Timer (τ ν : Type) where
  id : ℕ
  scope : ℕ
  event : EventView τ ν

/-- `cflow_timer_event_queue_impl`, with the pending slots and the one that is firing. -/
structure TimerQueue (τ ν : Type) where
  capacity : ℕ
  nextId : ℕ
  pending : List (Timer τ ν)
  firing : Option (Timer τ ν)
  closed : Bool

/-- `cflow_timer_event_status`. -/
inductive TimerStatus where
  | ok
  | invalidArgument
  | typeMismatch
  | full
  | closed
  | notFound
  | fireWon
  deriving DecidableEq, Repr

namespace TimerQueue

variable {τ ν : Type}

def init (capacity : ℕ) : TimerQueue τ ν := ⟨capacity, 1, [], none, false⟩

variable (timers : TimerQueue τ ν)

/-- The part of `schedule_at` after the checks of the event. -/
def schedule (scope : ℕ) (event : EventView τ ν) : TimerStatus × TimerQueue τ ν :=
  if timers.closed then (.closed, timers)
  else if timers.capacity ≤ timers.pending.length + timers.firing.toList.length then
    (.full, timers)
  else (.ok, { timers with
    nextId := timers.nextId + 1
    pending := timers.pending ++ [⟨timers.nextId, scope, event⟩] })

/-- `cflow_timer_event_queue_cancel_scopes`. -/
def cancelScopes (scopes : List ℕ) : TimerQueue τ ν :=
  if timers.closed then timers
  else { timers with pending := timers.pending.filter fun timer => timer.scope ∉ scopes }

/-- `cflow_timer_event_queue_cancel`. -/
def cancel (id : ℕ) : TimerStatus × TimerQueue τ ν :=
  if id = 0 then (.invalidArgument, timers)
  else if timers.closed then (.closed, timers)
  else if timers.firing.any (·.id = id) then (.fireWon, timers)
  else if timers.pending.any (·.id = id) then
    (.ok, { timers with pending := timers.pending.filter (·.id ≠ id) })
  else (.notFound, timers)

/-- `cflow_timer_event_queue_claim_one_ready`, where the clock has made this timer the next one. -/
def claim (id : ℕ) : Option (TimerQueue τ ν) :=
  if timers.closed || timers.firing.isSome then none
  else (timers.pending.find? (·.id = id)).map fun timer =>
    { timers with pending := timers.pending.filter (·.id ≠ id), firing := some timer }

/-- The end of `cflow_timer_event_queue_commit_claim`. -/
def release : TimerQueue τ ν := { timers with firing := none }

/-- `cflow_timer_event_queue_close_begin_internal`. -/
def closeBegin : TimerQueue τ ν :=
  if timers.closed then timers else { timers with closed := true, pending := [] }

/-- Timers have different numbers, below the next one; a closed queue has no pending timers. -/
structure WellFormed : Prop where
  fresh : ∀ timer ∈ timers.pending, timer.id < timers.nextId
  cleared : timers.closed → timers.pending = []

/-- What an operation other than scheduling does to the queue: no timer becomes pending, and none
fires but for a pending one that is claimed. -/
structure Shrinks (before after : TimerQueue τ ν) (claimed : Prop) : Prop where
  nextId : after.nextId = before.nextId
  pending : ∀ timer ∈ after.pending, timer ∈ before.pending
  firing : ∀ timer ∈ after.firing, timer ∈ before.firing ∨ timer ∈ before.pending ∧ claimed
  closed : before.closed → after.closed
  wellFormed : before.WellFormed → after.WellFormed

theorem wellFormed_init (capacity : ℕ) : (init capacity : TimerQueue τ ν).WellFormed :=
  ⟨fun _ h => absurd h List.not_mem_nil, fun h => nomatch h⟩

variable {claimed : Prop}

theorem Shrinks.refl : Shrinks timers timers claimed := ⟨rfl, fun _ h => h, fun _ => .inl, id, id⟩

theorem shrinks_filter (keep : Timer τ ν → Bool) (firing : Option (Timer τ ν))
    (hf : ∀ timer ∈ firing, timer ∈ timers.firing ∨ timer ∈ timers.pending ∧ claimed) :
    Shrinks timers { timers with pending := timers.pending.filter keep, firing := firing }
      claimed where
  nextId := rfl
  pending _ h := List.mem_of_mem_filter h
  firing := hf
  closed := id
  wellFormed h := ⟨fun timer hmem => h.fresh timer (List.mem_of_mem_filter hmem), fun hc => by
    rw [h.cleared hc, List.filter_nil]⟩

theorem cancelScopes_shrinks (scopes : List ℕ) : Shrinks timers (timers.cancelScopes scopes) claimed := by
  unfold cancelScopes
  split_ifs
  · exact .refl timers
  · exact timers.shrinks_filter _ timers.firing fun _ => .inl

theorem cancelScopes_scope (scopes : List ℕ) (hw : timers.WellFormed) {timer : Timer τ ν}
    (h : timer ∈ (timers.cancelScopes scopes).pending) : timer.scope ∉ scopes := by
  unfold cancelScopes at h
  split_ifs at h with hc
  · rw [hw.cleared hc] at h
    cases h
  · simpa using (List.mem_filter.1 h).2

theorem cancel_shrinks (id : ℕ) : Shrinks timers (timers.cancel id).2 claimed := by
  unfold cancel
  split_ifs
  · exact .refl timers
  · exact .refl timers
  · exact .refl timers
  · exact timers.shrinks_filter _ timers.firing fun _ => .inl
  · exact .refl timers

theorem claim_shrinks {id : ℕ} {after : TimerQueue τ ν} (hc : claimed)
    (h : timers.claim id = some after) : Shrinks timers after claimed := by
  unfold claim at h
  split_ifs at h
  obtain ⟨timer, hfind, rfl⟩ := Option.map_eq_some_iff.1 h
  refine timers.shrinks_filter _ _ fun _ hmem => ?_
  cases hmem
  exact .inr ⟨List.mem_of_find?_eq_some hfind, hc⟩

theorem release_shrinks : Shrinks timers timers.release claimed :=
  ⟨rfl, fun _ h => h, fun _ h => (nomatch h), id, fun h => ⟨h.fresh, h.cleared⟩⟩

theorem closeBegin_shrinks : Shrinks timers timers.closeBegin claimed := by
  unfold closeBegin
  split_ifs
  · exact .refl timers
  · exact ⟨rfl, fun _ h => absurd h List.not_mem_nil, fun _ => .inl, fun _ => rfl,
      fun _ => ⟨fun _ h => absurd h List.not_mem_nil, fun _ => rfl⟩⟩

theorem closeBegin_closed : timers.closeBegin.closed = true := by
  unfold closeBegin
  split_ifs with h
  · exact h
  · rfl

theorem schedule_cases (scope : ℕ) (event : EventView τ ν) :
    (timers.schedule scope event).2 = timers ∨
    timers.closed = false ∧ (timers.schedule scope event).2 = { timers with
      nextId := timers.nextId + 1
      pending := timers.pending ++ [⟨timers.nextId, scope, event⟩] } := by
  unfold schedule
  split_ifs with hc
  · exact .inl rfl
  · exact .inl rfl
  · exact .inr ⟨by simpa using hc, rfl⟩

theorem schedule_wellFormed {scope : ℕ} {event : EventView τ ν} (hw : timers.WellFormed) :
    (timers.schedule scope event).2.WellFormed := by
  rcases timers.schedule_cases scope event with h | ⟨hc, h⟩
  · rw [h]
    exact hw
  · rw [h]
    refine ⟨fun timer hmem => ?_, fun hclosed => by simp [hc] at hclosed⟩
    rcases List.mem_append.1 hmem with hmem | hmem
    · exact (hw.fresh timer hmem).trans (Nat.lt_succ_self _)
    · rw [List.mem_singleton.1 hmem]
      exact Nat.lt_succ_self _

end TimerQueue

end Cflow.Instance
