import TurboUtils.Cflow.Instance.Steps
import TurboUtils.Cflow.Machine.Flattening

/-! Who has the gate of a hierarchical instance: the calls that a thread has still to make tell
whether it has the gate, and it asks for a gate that it has itself in one case only. -/
namespace Cflow.Instance

open Machine Interleaving

/-- Whether a thread has the gate. It is stuck when it asks for the gate that it has. -/
inductive Holding where
  | free
  | held
  | stuck
  deriving DecidableEq, Repr

/-- How a call uses the gate, with what it leads to. -/
inductive Use where
  | locks
  | unlocks
  | inside
  | outside
  | anywhere
  deriving DecidableEq, Repr

/-- Whether the gate is held after a call; `none` where the call is not allowed. -/
def Use.after : Use → Holding → Option Holding
  | _, .stuck => some .stuck
  | .locks, .free => some .held
  | .locks, .held => some .stuck
  | .unlocks, .free => none
  | .unlocks, .held => some .free
  | .inside, .free => none
  | .inside, .held => some .held
  | .outside, .free => some .free
  | .outside, .held => none
  | .anywhere, h => some h

section Discipline

variable {τ ν : Type}

def Call.use : Call τ ν → Use
  | .hookBegin => .locks
  | .lockGate => .locks
  | .hookEnd _ => .unlocks
  | .unlockGate => .unlocks
  | .fail _ => .unlocks
  | .publishDone => .unlocks
  | .close => .unlocks
  | .cancel => .unlocks
  | .closeGate => .unlocks
  | .cancelGate => .unlocks
  | .scheduleTimer _ _ => .inside
  | .cancelTimer _ => .inside
  | .claimTimer => .inside
  | .deliver => .inside
  | .releaseTimer => .inside
  | .closeTimers => .anywhere
  | .awaitTimers => .anywhere
  | .wake => .anywhere
  | .schedule => .anywhere
  | .post => .anywhere
  | .unschedule => .anywhere
  | .cancelMailbox => .outside
  | .cancelWait => .outside
  | .armCheck => .outside
  | .arm => .outside
  | .unarm => .outside
  | .send _ => .outside
  | .resume => .outside

def track (h : Holding) (calls : List (Call τ ν)) : Option Holding :=
  calls.foldlM (fun h call => call.use.after h) h

def Point.needs : Option (Point τ ν) → Holding
  | some (.abort _ _) => .held
  | some (.commit _ _) => .held
  | _ => .free

def holds (t : ℕ) (s : Shared τ ν) : Holding := if s.gate = some t then .held else .free

/-- The calls that a thread has still to make fit what it has, up to its point. A lenient discipline
leaves out what comes after the thread is stuck. -/
def Disciplined (lenient : Prop) (t : ℕ) (s : Shared τ ν) (thread : Thread (Call τ ν) (Point τ ν)) :
    Prop :=
  track (holds t s) thread.calls = some (Point.needs thread.point) ∨
    lenient ∧ track (holds t s) thread.calls = some .stuck

def Label.refuses : Label τ ν → Bool
  | .answer .full => true
  | .answer .closed => true
  | _ => false

/-- A post is turned down that is made by the thread that has the gate. -/
def Call.Stranded (t : ℕ) (l : Label τ ν) (s : Shared τ ν) : Call τ ν → Prop
  | .post => s.gate = some t ∧ l.refuses
  | _ => False

instance (t : ℕ) (l : Label τ ν) (s : Shared τ ν) (call : Call τ ν) :
    Decidable (call.Stranded t l s) :=
  match call with
  | .post => inferInstanceAs (Decidable (s.gate = some t ∧ l.refuses = true))
  | .hookBegin | .hookEnd _ | .lockGate | .unlockGate | .closeTimers | .awaitTimers | .cancelMailbox
  | .cancelWait | .wake | .schedule | .unschedule | .fail _ | .publishDone | .armCheck | .arm | .unarm
  | .send _ | .resume | .close | .cancel | .scheduleTimer _ _ | .cancelTimer _ | .closeGate
  | .cancelGate | .claimTimer | .deliver | .releaseTimer => inferInstanceAs (Decidable False)

variable {c : Config τ ν} {hierarchy : Hierarchy τ} {t u : ℕ} {l : Label τ ν} {s s' : Shared τ ν}

theorem track_cons {h : Holding} {call : Call τ ν} {calls : List (Call τ ν)} :
    track h (call :: calls) = (call.use.after h).bind fun h' => track h' calls := rfl

theorem track_append {h : Holding} {calls more : List (Call τ ν)} :
    track h (calls ++ more) = (track h calls).bind fun h' => track h' more :=
  List.foldlM_append ..

theorem track_stuck {calls : List (Call τ ν)} : track .stuck calls = some .stuck := by
  induction calls with
  | nil => rfl
  | cons call calls ih => cases hu : call.use <;> simpa [track_cons, hu, Use.after] using ih

theorem track_anywhere {h : Holding} {calls : List (Call τ ν)}
    (hc : ∀ call ∈ calls, call.use = .anywhere) : track h calls = some h := by
  induction calls with
  | nil => rfl
  | cons call calls ih =>
    have hafter : call.use.after h = some h := by
      rw [hc call List.mem_cons_self]
      cases h <;> rfl
    rw [track_cons, hafter]
    exact ih fun call' hmem => hc call' (List.mem_cons_of_mem _ hmem)

theorem wakes_anywhere {wake : Bool} : ∀ call ∈ (wakes wake : List (Call τ ν)), call.use = .anywhere := by
  cases wake <;> simp [wakes, Call.use]

theorem holds_self (h : s.gate = some t) : holds t s = .held := if_pos h

theorem holds_not (h : s.gate ≠ some t) : holds t s = .free := if_neg h

theorem holds_held : holds t s = .held ↔ s.gate = some t := by
  unfold holds
  split_ifs with h <;> simp [h]

theorem holds_free : holds t s = .free ↔ s.gate ≠ some t := by
  unfold holds
  split_ifs with h <;> simp [h]

theorem holds_congr (h : s'.gate = s.gate) : holds u s' = holds u s := by
  unfold holds
  rw [h]

theorem holds_not_stuck : holds t s ≠ .stuck := by
  unfold holds
  split_ifs <;> simp

/-! ## Sections of calls -/

/-- The gate after a section, for its own thread and for the others. -/
structure Hands (t : ℕ) (s s' : Shared τ ν) (pushed : List (Call τ ν)) (after : Holding) : Prop where
  self : track (holds t s') pushed = some after
  other : ∀ u ≠ t, holds u s' = holds u s

variable {call : Call τ ν} {pushed : List (Call τ ν)} {after : Holding}

theorem hands_same (hg : s'.gate = s.gate) (hp : track (holds t s) pushed = some (holds t s)) :
    Hands t s s' pushed (holds t s) :=
  ⟨holds_congr hg ▸ hp, fun _ _ => holds_congr hg⟩

theorem hands_anywhere (hg : s'.gate = s.gate) (hp : ∀ call ∈ pushed, call.use = .anywhere) :
    Hands t s s' pushed (holds t s) := hands_same hg (track_anywhere hp)

theorem hands_lock (h : s.gate = none) : Hands t s { s with gate := some t } [] .held := by
  refine ⟨?_, fun u hu => ?_⟩
  · rw [holds_self rfl]
    rfl
  · rw [holds_not (s := s) (by simp [h]), holds_not]
    simpa using hu.symm

theorem hands_unlock (h : s.gate = some t) (hg : s'.gate = s.gate)
    (hp : track .held pushed = some .free) : Hands t s s' pushed .free :=
  ⟨by rw [holds_congr hg, holds_self h, hp], fun _ _ => holds_congr hg⟩

theorem transitionCommitted_gate (index : Option ℕ) :
    (s.transitionCommitted hierarchy index).gate = s.gate := by
  unfold Shared.transitionCommitted
  split <;> rfl

/-- The machine's own sections leave the gate and the timers to the hierarchy. -/
structure Untimed (s s' : Shared τ ν) : Prop where
  gate : s'.gate = s.gate
  gateClosed : s'.gateClosed = s.gateClosed
  gateCancelled : s'.gateCancelled = s.gateCancelled
  timers : s'.timers = s.timers

theorem close_untimed : Untimed s s.close := by
  unfold Shared.close
  split_ifs <;> exact ⟨rfl, rfl, rfl, rfl⟩

theorem cancel_untimed : Untimed s s.cancel := by
  unfold Shared.cancel
  split_ifs <;> exact ⟨rfl, rfl, rfl, rfl⟩

theorem schedule_untimed : Untimed s s.schedule.1 := by
  unfold Shared.schedule
  split_ifs <;> exact ⟨rfl, rfl, rfl, rfl⟩

theorem resume_untimed : Untimed s s.resume.1 := by
  unfold Shared.resume
  split <;> exact ⟨rfl, rfl, rfl, rfl⟩

theorem locks_hands (h : (if s.gate = none then some ({ s with gate := some t }, []) else none) =
    some (s', pushed)) (ha : Use.locks.after (holds t s) = some after) :
    Hands t s s' pushed after := by
  split_ifs at h with hnone
  cases h
  rw [holds_not (by simp [hnone])] at ha
  cases ha
  exact hands_lock hnone

theorem unlocks_after (ha : Use.unlocks.after (holds t s) = some after) :
    s.gate = some t ∧ after = .free := by
  by_cases hg : s.gate = some t
  · rw [holds_self hg] at ha
    cases ha
    exact ⟨hg, rfl⟩
  · rw [holds_not hg] at ha
    cases ha

theorem inside_after (ha : Use.inside.after (holds t s) = some after) :
    s.gate = some t ∧ after = holds t s := by
  by_cases hg : s.gate = some t
  · rw [holds_self hg] at ha ⊢
    cases ha
    exact ⟨hg, rfl⟩
  · rw [holds_not hg] at ha
    cases ha

theorem outside_after (ha : Use.outside.after (holds t s) = some after) :
    holds t s = .free ∧ after = holds t s := by
  by_cases hg : s.gate = some t
  · rw [holds_self hg] at ha
    cases ha
  · rw [holds_not hg] at ha ⊢
    cases ha
    exact ⟨rfl, rfl⟩

theorem anywhere_after (ha : Use.anywhere.after (holds t s) = some after) : after = holds t s := by
  unfold holds at ha ⊢
  split_ifs at ha ⊢ <;> cases ha <;> rfl

theorem advance_track {flight : Flight τ ν} {stage : Stage τ ν} :
    track .free (advance c s flight stage).1 =
      some (Point.needs (some (advance c s flight stage).2)) := by
  cases stage with
  | start | selected row =>
    simp only [advance]
    split <;> rfl
  | failed failure => rfl
  | ran ran =>
    simp only [advance]
    split
    · rfl
    · split_ifs <;> rfl

theorem afterCommit_track {decision : Decision τ ν} {closing : Bool} :
    track .held (afterCommit decision closing) = some .free := by
  unfold afterCommit
  split_ifs <;> rfl

theorem commit_untimed {event : Event τ ν} {decision : Decision τ ν} :
    Untimed s (s.commit event decision) := by
  have hpublish : Untimed s (((s.settleCommitted event decision).publishObservation
      decision).publishClose decision) := by
    unfold Shared.publishClose Shared.publishObservation
    split_ifs <;> exact ⟨rfl, rfl, rfl, rfl⟩
  exact ⟨hpublish.gate, hpublish.gateClosed, hpublish.gateCancelled, hpublish.timers⟩

theorem begin_untimed {r : Outcome (Shared τ ν) (Call τ ν) (Point τ ν)}
    (h : begin c t l s = some r) : Untimed s r.shared := by
  unfold begin at h
  split_ifs at h
  · cases h
    exact ⟨rfl, rfl, rfl, rfl⟩
  · split at h <;> cases h
    exact ⟨rfl, rfl, rfl, rfl⟩

theorem request_track (request : Request τ ν) :
    track .free (request.calls true) = some .free := by
  cases request with
  | scheduleTimer scope event =>
    simp only [Request.calls]
    split_ifs <;> rfl
  | _ => rfl

variable {lenient : Prop}

theorem disciplined_idle (h : holds t s = .free) {calls : List (Call τ ν)} {point : Option (Point τ ν)}
    (hc : track .free calls = some (Point.needs point)) : Disciplined lenient t s ⟨calls, point⟩ :=
  .inl (h ▸ hc)

theorem Disciplined.allows {call : Call τ ν} {calls : List (Call τ ν)} {point : Option (Point τ ν)}
    (h : Disciplined lenient t s ⟨call :: calls, point⟩) :
    ∃ after, call.use.after (holds t s) = some after := by
  rcases h with h | ⟨-, h⟩
  · obtain ⟨after, hafter, -⟩ := Option.bind_eq_some_iff.1 (track_cons ▸ h)
    exact ⟨after, hafter⟩
  · obtain ⟨after, hafter, -⟩ := Option.bind_eq_some_iff.1 (track_cons ▸ h)
    exact ⟨after, hafter⟩

theorem Disciplined.needs {point : Option (Point τ ν)} (h : Disciplined lenient t s ⟨[], point⟩) :
    holds t s = Point.needs point := by
  rcases h with h | ⟨-, h⟩
  · exact Option.some.inj h
  · exact absurd (Option.some.inj h) holds_not_stuck

def postsGranted : Condition (Shared τ ν) (Call τ ν) (Point τ ν) (Label τ ν) where
  call t call l s := ¬call.Stranded t l s
  resume _ _ _ _ := True

instance (t : ℕ) (call : Call τ ν) (l : Label τ ν) (s : Shared τ ν) :
    Decidable (postsGranted.call t call l s) := inferInstanceAs (Decidable ¬call.Stranded t l s)

instance (t : ℕ) (point : Point τ ν) (l : Label τ ν) (s : Shared τ ν) :
    Decidable (postsGranted.resume t point l s) := isTrue trivial

def LocksItself (w : Interleaving.State (Shared τ ν) (Call τ ν) (Point τ ν)) (t : ℕ) : Prop :=
  w.shared.gate = some t ∧ ∃ call ∈ (w.threads t).calls.head?, call.use = .locks

theorem not_locksItself {w : Interleaving.State (Shared τ ν) (Call τ ν) (Point τ ν)} (h : Disciplined False t w.shared (w.threads t)) :
    ¬LocksItself w t := by
  rintro ⟨hgate, call, hcall, huse⟩
  obtain ⟨calls, hcalls⟩ : ∃ calls, (w.threads t).calls = call :: calls :=
    ⟨_, List.eq_cons_of_mem_head? hcall⟩
  rcases h with hx | ⟨hfalse, -⟩
  · rw [hcalls, track_cons, huse, holds_self hgate] at hx
    have hstuck : (Point.needs (w.threads t).point : Holding) = .stuck :=
      (Option.some.inj (track_stuck.symm.trans hx)).symm
    unfold Point.needs at hstuck
    split at hstuck <;> cases hstuck
  · exact hfalse

variable [RuntimeType τ]

theorem scheduleTimer_gate {scope : ℕ} {event : EventView τ ν} :
    (s.scheduleTimer c hierarchy scope event).gate = s.gate := by
  unfold Shared.scheduleTimer
  split_ifs
  · rfl
  · split <;> rfl

/-- A section leaves the gate as its call says, unless the call is a post that is turned down while
its thread has the gate: the thread will ask for it again. -/
theorem perform_hands (hh : c.hierarchy = some hierarchy)
    (h : perform c t l s call = some (s', pushed))
    (ha : call.use.after (holds t s) = some after) :
    Hands t s s' pushed after ∨ call.Stranded t l s ∧ Hands t s s' pushed .stuck := by
  cases call with
  | hookBegin =>
    simp only [perform, hh] at h
    exact .inl (locks_hands h ha)
  | lockGate => exact .inl (locks_hands h ha)
  | hookEnd index =>
    obtain ⟨hg, rfl⟩ := unlocks_after ha
    simp only [perform, hh] at h
    cases h
    refine .inl (hands_unlock hg (transitionCommitted_gate index) ?_)
    split_ifs <;> rfl
  | unlockGate =>
    obtain ⟨hg, rfl⟩ := unlocks_after ha
    cases h
    refine .inl ⟨?_, fun u hu => ?_⟩
    · rw [holds_not (by simp)]
      rfl
    · rw [holds_not (by simp), holds_not]
      rw [hg]
      simpa using hu.symm
  | fail failure | publishDone =>
    obtain ⟨hg, rfl⟩ := unlocks_after ha
    cases h
    exact .inl (hands_unlock hg rfl rfl)
  | close =>
    obtain ⟨hg, rfl⟩ := unlocks_after ha
    cases h
    refine .inl (hands_unlock hg close_untimed.gate ?_)
    split_ifs <;> rfl
  | cancel =>
    obtain ⟨hg, rfl⟩ := unlocks_after ha
    simp only [perform] at h
    split at h <;> cases h
    · exact .inl (hands_unlock hg rfl rfl)
    · refine .inl (hands_unlock hg cancel_untimed.gate ?_)
      split_ifs <;> rfl
  | closeGate | cancelGate =>
    obtain ⟨hg, rfl⟩ := unlocks_after ha
    cases h
    refine .inl (hands_unlock hg rfl ?_)
    split_ifs <;> rfl
  | scheduleTimer scope event =>
    obtain ⟨hg, rfl⟩ := inside_after ha
    simp only [perform, hh] at h
    cases h
    exact .inl (hands_anywhere scheduleTimer_gate (by simp))
  | cancelTimer id =>
    obtain ⟨hg, rfl⟩ := inside_after ha
    cases h
    exact .inl (hands_anywhere (by split <;> rfl) (by simp))
  | claimTimer =>
    obtain ⟨hg, rfl⟩ := inside_after ha
    have hdeliver : track (holds t s) [(.deliver : Call τ ν), .releaseTimer] = some (holds t s) := by
      rw [holds_self hg]
      rfl
    simp only [perform] at h
    split at h
    · split at h
      · cases h
        exact .inl (hands_anywhere rfl (by simp))
      · split at h <;> cases h
        · exact .inl (hands_anywhere rfl (by simp))
        · exact .inl (hands_same rfl hdeliver)
    · cases h
      exact .inl (hands_anywhere rfl (by simp))
  | deliver =>
    obtain ⟨hg, rfl⟩ := inside_after ha
    simp only [perform] at h
    split at h <;> cases h
    exact .inl (hands_anywhere rfl wakes_anywhere)
  | releaseTimer =>
    obtain ⟨hg, rfl⟩ := inside_after ha
    cases h
    exact .inl (hands_anywhere rfl (by simp))
  | cancelMailbox | send event =>
    obtain ⟨hg, rfl⟩ := outside_after ha
    cases h
    exact .inl (hands_anywhere rfl wakes_anywhere)
  | cancelWait | unarm =>
    obtain ⟨hg, rfl⟩ := outside_after ha
    cases h
    exact .inl (hands_anywhere rfl (by simp))
  | armCheck =>
    obtain ⟨hg, rfl⟩ := outside_after ha
    simp only [perform] at h
    split at h <;> cases h
    · exact .inl (hands_anywhere rfl (by simp))
    · refine .inl (hands_same rfl ?_)
      rw [hg]
      rfl
  | arm =>
    obtain ⟨hg, rfl⟩ := outside_after ha
    simp only [perform] at h
    split at h <;> cases h
    · refine .inl (hands_same rfl ?_)
      rw [hg]
      rfl
    · exact .inl (hands_anywhere rfl wakes_anywhere)
  | resume =>
    obtain ⟨hg, rfl⟩ := outside_after ha
    cases h
    exact .inl (hands_anywhere resume_untimed.gate (by split <;> simp [Call.use]))
  | schedule =>
    cases anywhere_after ha
    cases h
    exact .inl (hands_anywhere schedule_untimed.gate (by split <;> simp [Call.use]))
  | wake =>
    cases anywhere_after ha
    cases h
    exact .inl (hands_anywhere rfl (by simp [Call.use]))
  | closeTimers | unschedule =>
    cases anywhere_after ha
    cases h
    exact .inl (hands_anywhere rfl (by simp))
  | awaitTimers =>
    cases anywhere_after ha
    simp only [perform] at h
    split at h <;> cases h
    exact .inl (hands_anywhere rfl (by simp))
  | post =>
    cases anywhere_after ha
    have hrefused : ∀ failure : Failure, l.refuses →
        Hands t s s (.unschedule :: failRuntime failure) (holds t s) ∨
          (Call.Stranded t l s .post ∧
            Hands t s s (.unschedule :: failRuntime failure) .stuck) := by
      intro failure hl
      by_cases hg : s.gate = some t
      · refine .inr ⟨⟨hg, hl⟩, ?_, fun _ _ => rfl⟩
        rw [holds_self hg]
        rfl
      · refine .inl ⟨?_, fun _ _ => rfl⟩
        rw [holds_not hg]
        rfl
    simp only [perform] at h
    split at h <;> cases h
    · exact .inl (hands_anywhere rfl (by simp))
    · exact hrefused .executorFull rfl
    · exact hrefused .executorClosed rfl

/-! ## The worker -/

/-- The worker asks for the gate where its next point needs it, and hands it on after a commit. -/
theorem proceed_track {p : Point τ ν} :
    track (Point.needs (some p)) (proceed c s p).calls =
      some (Point.needs (proceed c s p).point) := by
  cases p with
  | task | take | abort => rfl
  | loop left =>
    cases left with
    | zero => rfl
    | succ left =>
      simp only [proceed]
      split_ifs <;> rfl
  | receive left =>
    simp only [proceed]
    split <;> rfl
  | empty =>
    simp only [proceed]
    split_ifs <;> rfl
  | settle flight stage =>
    simp only [proceed]
    split_ifs
    · rfl
    · exact advance_track
  | checkClosed flight decision =>
    simp only [proceed]
    split_ifs <;> rfl
  | emit flight decision =>
    simp only [proceed]
    split
    · rfl
    · split
      · exact track_append.trans (by rw [Point.needs, track_anywhere wakes_anywhere]; rfl)
      · rfl
      · rfl
  | commit flight decision =>
    simp only [proceed]
    split
    · rfl
    · rfl
    · refine Eq.trans afterCommit_track ?_
      split_ifs <;> rfl
  | finish quantum =>
    simp only [proceed]
    split_ifs <;> rfl

theorem proceed_untimed {p : Point τ ν} : Untimed s (proceed c s p).shared := by
  cases p with
  | task | empty | take | abort | finish => exact ⟨rfl, rfl, rfl, rfl⟩
  | loop left =>
    cases left with
    | zero => exact ⟨rfl, rfl, rfl, rfl⟩
    | succ left =>
      simp only [proceed]
      split_ifs <;> exact ⟨rfl, rfl, rfl, rfl⟩
  | receive left =>
    simp only [proceed]
    split <;> exact ⟨rfl, rfl, rfl, rfl⟩
  | settle flight stage | checkClosed flight decision =>
    simp only [proceed]
    split_ifs <;> exact ⟨rfl, rfl, rfl, rfl⟩
  | emit flight decision =>
    simp only [proceed]
    split
    · exact ⟨rfl, rfl, rfl, rfl⟩
    · split <;> exact ⟨rfl, rfl, rfl, rfl⟩
  | commit flight decision =>
    simp only [proceed]
    split
    · exact ⟨rfl, rfl, rfl, rfl⟩
    · exact ⟨rfl, rfl, rfl, rfl⟩
    · exact commit_untimed

/-! ## Runs -/

variable {thread thread' : Thread (Call τ ν) (Point τ ν)}

/-- A section keeps the discipline of its own thread, and what the other threads have. -/
theorem section_disciplined (hh : c.hierarchy = some hierarchy) (hd : Disciplined lenient t s thread)
    (hk : lenient ∨ ∀ call calls, thread.calls = call :: calls → ¬call.Stranded t l s)
    (h : Section (program c) t l s thread s' thread') :
    Disciplined lenient t s' thread' ∧ ∀ u ≠ t, holds u s' = holds u s := by
  cases h with
  | @call call calls point s' pushed hcall =>
    have hperform : perform c t l s call = some (s', pushed) := hcall
    have hnext : ∀ {x}, track (holds t s) (call :: calls) = some x →
        (track (holds t s') (pushed ++ calls) = some x ∧ ∀ u ≠ t, holds u s' = holds u s) ∨
        (lenient ∧ track (holds t s') (pushed ++ calls) = some .stuck ∧
          ∀ u ≠ t, holds u s' = holds u s) := by
      intro x hx
      obtain ⟨after, hafter, hrest⟩ := Option.bind_eq_some_iff.1 (track_cons ▸ hx)
      rcases perform_hands hh hperform hafter with hhands | ⟨hstranded, hhands⟩
      · refine .inl ⟨?_, hhands.other⟩
        rw [track_append, hhands.self]
        exact hrest
      · refine .inr ⟨hk.resolve_right fun hnot => hnot _ _ rfl hstranded, ?_, hhands.other⟩
        rw [track_append, hhands.self]
        exact track_stuck
    rcases hd with hx | ⟨hlenient, hx⟩
    · rcases hnext hx with ⟨hself, hother⟩ | ⟨hlenient, hself, hother⟩
      · exact ⟨.inl hself, hother⟩
      · exact ⟨.inr ⟨hlenient, hself⟩, hother⟩
    · rcases hnext hx with ⟨hself, hother⟩ | ⟨hlenient, hself, hother⟩
      · exact ⟨.inr ⟨hlenient, hself⟩, hother⟩
      · exact ⟨.inr ⟨hlenient, hself⟩, hother⟩
  | @resume point r hresume =>
    cases hresume
    have hholds : ∀ u, holds u (proceed c s point).shared = holds u s := fun u =>
      holds_congr proceed_untimed.gate
    refine ⟨.inl ?_, fun u _ => hholds u⟩
    rw [hholds, hd.needs]
    exact proceed_track
  | @start r hstart =>
    have hfree : holds t s = .free := hd.needs
    have hbegin : begin c t l s = some r := hstart
    unfold begin at hbegin
    split_ifs at hbegin
    · cases hbegin
      exact ⟨disciplined_idle hfree rfl, fun _ _ => rfl⟩
    · split at hbegin <;> cases hbegin
      rename_i request
      have hcalls := request_track request
      rw [hh]
      exact ⟨disciplined_idle hfree hcalls, fun _ _ => rfl⟩

theorem created_gate (h : Created c s) : s.gate = none := by
  cases h with
  | plain _ h =>
    obtain ⟨initial, -, -, -, -, rfl⟩ := instanceInit_ok h
    rfl
  | hierarchical hierarchy _ _ h =>
    obtain ⟨s₀, hs₀, rfl⟩ := hierarchyInstanceInit_ok h
    obtain ⟨initial, -, -, -, -, rfl⟩ := instanceInit_ok hs₀
    rfl

theorem created_disciplined (h : Created c s) : Everywhere (Disciplined lenient) (c.world s) :=
  fun _ => disciplined_idle (holds_not (by rw [Config.world, created_gate h]; simp)) rfl

/-- As long as no post is turned down under the gate, no thread asks for the gate that it has. -/
theorem gate_not_relocked {s₀ : Shared τ ν} (hh : c.hierarchy = some hierarchy)
    (hc : Created c s₀) {schedule : List (ℕ × Label τ ν)} {w : c.World}
    (hm : RunMeets (program c) postsGranted (c.world s₀) schedule)
    (hrun : run (program c) (c.world s₀) schedule = some w) : ∀ t, ¬LocksItself w t := by
  refine fun t => not_locksItself (run_everywhere (T := Disciplined False) ?_ ?_
    (created_disciplined hc) hm hrun t)
  · intro t l s s' thread thread' hd hk h
    refine (section_disciplined hh hd (.inr fun call calls hcalls => ?_) h).1
    obtain ⟨_, point⟩ := thread
    cases hcalls
    exact hk
  · intro t l s s' thread thread' hd hk h u hu other ho
    have hother := (section_disciplined hh hd (.inr fun call calls hcalls => by
      obtain ⟨_, point⟩ := thread
      cases hcalls
      exact hk) h).2 u hu
    unfold Disciplined
    rw [hother]
    exact ho

/-- A thread whose post is turned down under the gate asks for the gate next but one. -/
theorem locksItself_of_stranded {w : c.World} {calls : List (Call τ ν)}
    (hcalls : (w.threads t).calls = .post :: calls) (h : Call.Stranded t l w.shared .post) :
    ∃ w₁ w₂, step (program c) w t l = some w₁ ∧ step (program c) w₁ t .go = some w₂ ∧
      LocksItself w₂ t := by
  obtain ⟨hgate, hl⟩ := h
  have hpost : ∃ failure, perform c t l w.shared .post =
      some (w.shared, .unschedule :: failRuntime failure) := by
    unfold Label.refuses at hl
    split at hl
    · exact ⟨.executorFull, rfl⟩
    · exact ⟨.executorClosed, rfl⟩
    · cases hl
  obtain ⟨failure, hpost⟩ := hpost
  obtain ⟨point, hthread⟩ : ∃ point, w.threads t = ⟨.post :: calls, point⟩ :=
    ⟨(w.threads t).point, by rw [← hcalls]⟩
  refine ⟨_, _, step_call _ hthread hpost, step_call _ put_self rfl, hgate, .hookBegin, ?_, rfl⟩
  rw [put_self]
  rfl

end Discipline

/-! ## A doorkeeper -/

def doorkeeper (hierarchy : Hierarchy Unit) : Config Unit ℕ where
  machine := hierarchy.flat
  initialValue := 0
  outputType := ()
  guards := []
  actions := []
  mailboxCapacity := 1
  hierarchy := some hierarchy
  timerCapacity := 1

/-- The worker waits for an event when a timer delivers one; the post gets this answer. -/
def timerDelivered (answer : Admission) : List (ℕ × Label Unit ℕ) :=
  [(1, .call .resume), (1, .go), (1, .go), (1, .answer .accepted)] ++ List.replicate 8 (0, .go) ++
    [(2, .call (.scheduleTimer 4 ⟨7, (), 0⟩)), (2, .go), (2, .go), (2, .go),
      (2, .call .runOneReady), (2, .go), (2, .ready 1), (2, .go), (2, .go), (2, .go),
      (2, .answer answer), (2, .go)]

def doorkeeperRun {α : Type} (schedule : List (ℕ × Label Unit ℕ))
    (view : (c : Config Unit ℕ) → Shared Unit ℕ → c.World → α) : Option α :=
  (hierarchyBuild door).toOption.bind fun hierarchy =>
    (hierarchyInstanceInit (doorkeeper hierarchy) hierarchy).toOption.bind fun s =>
      (run (program (doorkeeper hierarchy)) ((doorkeeper hierarchy).world s) schedule).map
        (view (doorkeeper hierarchy) s)

theorem doorkeeperRun_some {α : Type} {schedule : List (ℕ × Label Unit ℕ)}
    {view : (c : Config Unit ℕ) → Shared Unit ℕ → c.World → α} {a : α}
    (h : doorkeeperRun schedule view = some a) : ∃ hierarchy s w,
      hierarchyBuild door = .ok hierarchy ∧ Created (doorkeeper hierarchy) s ∧
      run (program (doorkeeper hierarchy)) ((doorkeeper hierarchy).world s) schedule = some w ∧
      view (doorkeeper hierarchy) s w = a := by
  obtain ⟨hierarchy, hbuild, h⟩ := Option.bind_eq_some_iff.1 h
  obtain ⟨s, hinit, h⟩ := Option.bind_eq_some_iff.1 h
  obtain ⟨w, hw, hview⟩ := Option.map_eq_some_iff.1 h
  have hok : ∀ {ε β : Type} {e : Except ε β} {b : β}, e.toOption = some b → e = .ok b := by
    rintro _ _ (_ | _) _ ⟨⟩
    rfl
  exact ⟨hierarchy, s, w, hok hbuild, .hierarchical hierarchy rfl rfl (hok hinit), hw, hview⟩

theorem gate_not_relocked_doorkeeper : ∃ hierarchy,
    ∃ w : (doorkeeper hierarchy).World, hierarchyBuild door = .ok hierarchy ∧
      w.shared.mailbox.pending.length = 1 ∧ ∀ t, ¬LocksItself w t := by
  have hrun : doorkeeperRun (timerDelivered .accepted) (fun c s w =>
      (decide (RunMeets (program c) postsGranted (c.world s) (timerDelivered .accepted)),
        w.shared.mailbox.pending.length)) = some (true, 1) := by decide
  obtain ⟨hierarchy, s, w, hbuild, hcreated, hw, hview⟩ := doorkeeperRun_some hrun
  simp only [Prod.mk.injEq, decide_eq_true_eq] at hview
  exact ⟨hierarchy, w, hbuild, hview.2, gate_not_relocked rfl hcreated hview.1 hw⟩

/-- The executor is full when the timer is delivered: the thread that delivers it waits for itself. -/
theorem timer_locks_itself : ∃ hierarchy s, ∃ w : (doorkeeper hierarchy).World,
    hierarchyBuild door = .ok hierarchy ∧ Created (doorkeeper hierarchy) s ∧
      run (program (doorkeeper hierarchy)) ((doorkeeper hierarchy).world s)
        (timerDelivered .full) = some w ∧ LocksItself w 2 := by
  have hrun : doorkeeperRun (timerDelivered .full) (fun _ _ w =>
      (w.shared.gate, (w.threads 2).calls.head?.map Call.use)) = some (some 2, some .locks) := by
    decide
  obtain ⟨hierarchy, s, w, hbuild, hcreated, hw, hview⟩ := doorkeeperRun_some hrun
  simp only [Prod.mk.injEq, Option.map_eq_some_iff] at hview
  exact ⟨hierarchy, s, w, hbuild, hcreated, hw, hview⟩

section Deadlock

variable {τ ν : Type} [RuntimeType τ] {c : Config τ ν} {hierarchy : Hierarchy τ} {t u : ℕ} {l : Label τ ν}

theorem LocksItself.blocked {w : c.World} (hh : c.hierarchy = some hierarchy) (h : LocksItself w t) :
    step (program c) w t l = none := by
  obtain ⟨hgate, call, hcall, huse⟩ := h
  obtain ⟨calls, point, hthread⟩ : ∃ calls point, w.threads t = ⟨call :: calls, point⟩ :=
    ⟨_, (w.threads t).point, by rw [← List.eq_cons_of_mem_head? hcall]⟩
  have hperform : perform c t l w.shared call = none := by
    cases call <;> simp_all [Call.use, perform]
  unfold step
  rw [hthread]
  exact congrArg (Option.map _) hperform

theorem step_disciplined {w w' : c.World} (hh : c.hierarchy = some hierarchy)
    (hd : Everywhere (Disciplined True) w) (h : step (program c) w u l = some w') :
    Everywhere (Disciplined True) w' ∧ ∀ v ≠ u, holds v w'.shared = holds v w.shared := by
  obtain ⟨shared, thread, hsection, rfl⟩ := step_section _ h
  obtain ⟨hself, hother⟩ := section_disciplined hh (hd u) (.inl trivial) hsection
  refine ⟨fun v => ?_, hother⟩
  by_cases hv : v = u
  · subst hv
    rwa [put_self]
  · rw [put_other hv]
    have hkept := hd v
    unfold Disciplined at hkept ⊢
    rwa [show holds v (w.put u shared thread).shared = _ from hother v hv]

/-- Conversely, the first post that is turned down under the gate ends in a deadlock: two steps later
its thread can never run again, whatever the others do, and nobody else ever gets the gate. -/
theorem stranded_deadlocks {s₀ : Shared τ ν} (hh : c.hierarchy = some hierarchy) (hc : Created c s₀)
    {schedule : List (ℕ × Label τ ν)} {w : c.World}
    (hrun : run (program c) (c.world s₀) schedule = some w)
    (h : ¬postsGranted.Meets t l w.shared (w.threads t)) :
    ∃ w', run (program c) w [(t, l), (t, .go)] = some w' ∧
      ∀ later w'', run (program c) w' later = some w'' →
        w''.shared.gate = some t ∧ ∀ l', step (program c) w'' t l' = none := by
  obtain ⟨calls, hcalls, hstranded⟩ : ∃ calls, (w.threads t).calls = .post :: calls ∧
      Call.Stranded t l w.shared .post := by
    rcases hthread : w.threads t with ⟨_ | ⟨call, calls⟩, _ | point⟩ <;>
      rw [hthread] at h <;> simp only [Condition.Meets, postsGranted, not_not, not_true_eq_false] at h
    all_goals cases call <;> first | exact ⟨_, rfl, h⟩ | exact h.elim
  obtain ⟨w₁, w₂, h₁, h₂, hlocks⟩ := locksItself_of_stranded hcalls hstranded
  have hsteps : run (program c) w [(t, l), (t, .go)] = some w₂ := by simp [run, h₁, h₂]
  have hd : Everywhere (Disciplined True) w₂ := by
    have hall : run (program c) (c.world s₀) (schedule ++ [(t, l), (t, .go)]) = some w₂ := by
      rw [run_append, hrun]
      exact hsteps
    exact run_keeps (fun _ _ _ _ hd _ hstep => (step_disciplined hh hd hstep).1)
      (created_disciplined hc) (runMeets_always _) hall
  refine ⟨w₂, hsteps, fun later w'' hlater => ?_⟩
  have hkept : Everywhere (Disciplined True) w'' ∧ LocksItself w'' t := by
    refine run_keeps (k := .always) (Q := fun x => Everywhere (Disciplined True) x ∧ LocksItself x t)
      (fun x u l x' hx _ hstep => ?_) ⟨hd, hlocks⟩ (runMeets_always _) hlater
    have hne : t ≠ u := by
      rintro rfl
      rw [hx.2.blocked hh] at hstep
      cases hstep
    obtain ⟨hd', hother⟩ := step_disciplined hh hx.1 hstep
    have hgate : x'.shared.gate = some t := holds_held.1 ((hother t hne).trans (holds_held.2 hx.2.1))
    obtain ⟨shared, thread, -, rfl⟩ := step_section _ hstep
    refine ⟨hd', hgate, ?_⟩
    rw [put_other hne]
    exact hx.2.2
  exact ⟨hkept.2.1, fun l' => hkept.2.blocked hh⟩

end Deadlock

/-- The timer is delivered while the executor is full. -/
theorem stranded_deadlocks_doorkeeper : ∃ hierarchy, ∃ w : (doorkeeper hierarchy).World,
    hierarchyBuild door = .ok hierarchy ∧ ∀ later w'', run (program (doorkeeper hierarchy)) w later =
      some w'' → w''.shared.gate = some 2 := by
  have hrun : doorkeeperRun ((timerDelivered .full).take 22) (fun _ _ w =>
      decide (¬postsGranted.Meets 2 (.answer .full) w.shared (w.threads 2))) = some true := by decide
  obtain ⟨hierarchy, s, w, hbuild, hcreated, hw, hview⟩ := doorkeeperRun_some hrun
  obtain ⟨w', -, hstuck⟩ := stranded_deadlocks rfl hcreated hw (of_decide_eq_true hview)
  exact ⟨hierarchy, w', hbuild, fun later w'' h => (hstuck later w'' h).1⟩

end Cflow.Instance
