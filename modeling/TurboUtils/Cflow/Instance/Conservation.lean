import TurboUtils.Cflow.Instance.Steps

/-! Every accepted event is settled once and in order, and the state of the instance is what the
committed transitions make of it. -/
namespace Cflow.Instance

open Machine Interleaving

variable {τ ν : Type}

/-! ## What the history says -/


/-- The transition that the machine takes for an event, with what its action computes. -/
structure Chosen (c : Config τ ν) (state : State τ) (value : ν) (event : Event τ ν)
    (decision : Decision τ ν) : Prop where
  selected : select c state value event = .ok decision.row
  ran : runAction c value event decision.row = .ok decision.toRan
  target : findState c.machine decision.row.1.target = some decision.target

/-- The history leads from the initial state to this state and value: committed transitions are the
ones chosen for their events, and everything else leaves state and value as they are. -/
inductive Replays (c : Config τ ν) : List (Settlement τ ν) → State τ → ν → Prop
  | start {initial} (h : findState c.machine c.machine.initialState = some initial) :
      Replays c [] initial c.initialValue
  | committed {history state value event decision} (h : Replays c history state value)
      (hd : Chosen c state value event decision) :
      Replays c (history ++ [⟨event, .committed decision⟩]) decision.target decision.value
  | failed {history state value event failure} (h : Replays c history state value) :
      Replays c (history ++ [⟨event, .failed failure⟩]) state value
  | cancelled {history state value event} (h : Replays c history state value) :
      Replays c (history ++ [⟨event, .cancelled⟩]) state value

/-! ## The ledger -/

structure Books (τ ν : Type) where
  state : State τ
  value : ν
  history : List (Settlement τ ν)
  inFlight : ℕ
  completed : ℕ
  failed : ℕ
  cancelledInFlight : ℕ

def Shared.books (s : Shared τ ν) : Books τ ν :=
  ⟨s.state, s.value, s.history, s.inFlight, s.completed, s.failed, s.cancelledInFlight⟩

def Point.inHand : Point τ ν → List (Event τ ν)
  | .take flight => [flight.event]
  | .settle flight _ => [flight.event]
  | .checkClosed flight _ => [flight.event]
  | .emit flight _ => [flight.event]
  | .abort flight _ => [flight.event]
  | .commit flight _ => [flight.event]
  | _ => []

def Point.inFlight : Point τ ν → ℕ
  | .take _ => 0
  | point => point.inHand.length

/-- What the worker carries was computed from the current state and value. -/
def Stage.Grounded (c : Config τ ν) (state : State τ) (value : ν) (event : Event τ ν) :
    Stage τ ν → Prop
  | .selected row => select c state value event = .ok row
  | .ran r => select c state value event = .ok r.row ∧ runAction c value event r.row = .ok r
  | _ => True

def Point.Grounded (c : Config τ ν) (state : State τ) (value : ν) : Point τ ν → Prop
  | .settle flight stage => stage.Grounded c state value flight.event
  | .checkClosed flight decision => Chosen c state value flight.event decision
  | .emit flight decision => Chosen c state value flight.event decision
  | .commit flight decision => Chosen c state value flight.event decision
  | _ => True

/-- The worker's books agree with the mailbox and with the point the worker is at. -/
structure Ledger (c : Config τ ν) (books : Books τ ν) (mailbox : Mailbox τ ν)
    (point : Option (Point τ ν)) : Prop where
  wellFormed : mailbox.WellFormed
  received : mailbox.received =
    books.history.map (·.event) ++ point.elim [] Point.inHand
  inFlight : books.inFlight = point.elim 0 Point.inFlight
  counted : books.completed + books.failed + books.cancelledInFlight = books.history.length
  replays : Replays c books.history books.state books.value
  grounded : ∀ p ∈ point, p.Grounded c books.state books.value

namespace Ledger

variable {c : Config τ ν} {books : Books τ ν} {mailbox mailbox' : Mailbox τ ν}
  {point point' : Option (Point τ ν)}

theorem frame (h : Ledger c books mailbox point) (hm : Mailbox.Frame mailbox mailbox') :
    Ledger c books mailbox' point :=
  { h with wellFormed := hm.wellFormed h.wellFormed, received := hm.received.trans h.received }

theorem move (h : Ledger c books mailbox point)
    (hand : point'.elim [] Point.inHand = point.elim [] Point.inHand)
    (hflight : point'.elim 0 Point.inFlight = point.elim 0 Point.inFlight)
    (hg : ∀ p ∈ point', p.Grounded c books.state books.value) : Ledger c books mailbox point' :=
  { h with
    received := by rw [hand, h.received]
    inFlight := by rw [hflight, h.inFlight]
    grounded := hg }

/-- The worker settles the event in its hand. -/
theorem settle {p : Point τ ν} {event : Event τ ν} (h : Ledger c books mailbox (some p))
    (hand : p.inHand = [event]) (hflight : p.inFlight = 1) {books' : Books τ ν}
    {verdict : Verdict τ ν} (hhistory : books'.history = books.history ++ [⟨event, verdict⟩])
    (hin : books'.inFlight = books.inFlight - 1)
    (hcount : books'.completed + books'.failed + books'.cancelledInFlight =
      books.completed + books.failed + books.cancelledInFlight + 1)
    (hreplays : Replays c books'.history books'.state books'.value)
    (hpoint : point'.elim [] Point.inHand = []) (hnone : point'.elim 0 Point.inFlight = 0)
    (hg : ∀ p ∈ point', p.Grounded c books'.state books'.value) :
    Ledger c books' mailbox point' where
  wellFormed := h.wellFormed
  received := by
    rw [h.received, hpoint, hhistory, Option.elim_some, hand]
    simp
  inFlight := by rw [hin, hnone, h.inFlight, Option.elim_some, hflight]
  counted := by rw [hcount, h.counted, hhistory, List.length_append, List.length_singleton]
  replays := hreplays
  grounded := hg

end Ledger

/-! ## What the sections do to the books -/

/-- A section of a call leaves the books alone, and receives nothing. -/
structure CallFrame (s s' : Shared τ ν) : Prop where
  books : s'.books = s.books
  mailbox : Mailbox.Frame s.mailbox s'.mailbox

section Sections

variable (s : Shared τ ν)

theorem CallFrame.refl : CallFrame s s := ⟨rfl, .refl _⟩

theorem schedule_frame : CallFrame s s.schedule.1 := by
  unfold Shared.schedule
  split_ifs <;> exact ⟨rfl, .refl _⟩

theorem resume_frame : CallFrame s s.resume.1 := by
  unfold Shared.resume
  split <;> exact ⟨rfl, .refl _⟩

theorem close_frame : CallFrame s s.close := by
  unfold Shared.close
  split_ifs <;> exact ⟨rfl, .refl _⟩

theorem cancel_frame : CallFrame s s.cancel := by
  unfold Shared.cancel
  split_ifs <;> exact ⟨rfl, .refl _⟩

theorem fail_frame (failure : Failure) : CallFrame s (s.fail failure none) := by
  refine ⟨?_, .refl _⟩
  simp [Shared.fail, Shared.books]

theorem transitionCommitted_frame (hierarchy : Hierarchy τ) (index : Option ℕ) :
    CallFrame s (s.transitionCommitted hierarchy index) := by
  unfold Shared.transitionCommitted
  split <;> exact ⟨rfl, .refl _⟩

theorem publishObservation_frame (decision : Decision τ ν) :
    CallFrame s (s.publishObservation decision) := by
  unfold Shared.publishObservation
  split_ifs <;> exact ⟨rfl, .refl _⟩

theorem publishClose_frame (decision : Decision τ ν) :
    CallFrame s (s.publishClose decision) := by
  unfold Shared.publishClose
  split_ifs <;> exact ⟨rfl, .refl _⟩

theorem commit_books (event : Event τ ν) (decision : Decision τ ν) :
    (s.commit event decision).books = (s.settleCommitted event decision).books := by
  calc (s.commit event decision).books
      = (((s.settleCommitted event decision).publishObservation decision).publishClose
          decision).books := rfl
    _ = (s.settleCommitted event decision).books := by
      rw [(publishClose_frame _ _).books, (publishObservation_frame _ _).books]

theorem commit_mailbox (event : Event τ ν) (decision : Decision τ ν) :
    (s.commit event decision).mailbox = s.mailbox := by
  unfold Shared.commit Shared.finishCommit Shared.publishClose Shared.publishObservation
  split_ifs <;> rfl

variable [RuntimeType τ]

theorem scheduleTimer_frame (c : Config τ ν) (hierarchy : Hierarchy τ) (scope : ℕ)
    (event : EventView τ ν) : CallFrame s (s.scheduleTimer c hierarchy scope event) := by
  unfold Shared.scheduleTimer
  split_ifs
  · exact .refl s
  · split <;> exact ⟨rfl, .refl _⟩

theorem perform_frame {c : Config τ ν} {t : ℕ} {l : Label τ ν} {call : Call τ ν}
    {s' : Shared τ ν} {pushed : List (Call τ ν)}
    (h : perform c t l s call = some (s', pushed)) : CallFrame s s' := by
  cases call with
  | hookEnd index =>
    simp only [perform] at h
    split at h <;> cases h
    · exact .refl s
    · exact transitionCommitted_frame s _ index
  | cancelMailbox =>
    cases h
    exact ⟨rfl, s.mailbox.cancel_frame⟩
  | cancelWait =>
    cases h
    exact ⟨rfl, s.mailbox.disarm_frame⟩
  | schedule =>
    cases h
    exact schedule_frame s
  | fail failure =>
    cases h
    exact fail_frame s failure
  | arm =>
    simp only [perform] at h
    split at h <;> cases h
    · exact .refl s
    · rename_i harm
      exact ⟨rfl, s.mailbox.arm_frame harm⟩
  | send event =>
    cases h
    exact ⟨rfl, s.mailbox.trySend_frame event⟩
  | resume =>
    cases h
    exact resume_frame s
  | close =>
    cases h
    exact close_frame s
  | cancel =>
    simp only [perform] at h
    split at h <;> cases h
    · exact .refl s
    · exact cancel_frame s
  | scheduleTimer scope event =>
    simp only [perform] at h
    split at h <;> cases h
    exact scheduleTimer_frame s c _ scope event
  | cancelTimer id =>
    cases h
    split <;> exact ⟨rfl, .refl _⟩
  | deliver =>
    simp only [perform] at h
    split at h <;> cases h
    exact ⟨rfl, s.mailbox.trySend_frame _⟩
  | claimTimer =>
    simp only [perform] at h
    split at h
    · split_ifs at h
      · cases h
        exact .refl s
      · split at h <;> cases h <;> exact ⟨rfl, .refl _⟩
    · cases h
      exact .refl s
  | _ =>
    -- the mailbox and the books are not touched
    simp only [perform] at h
    repeat' split at h
    all_goals cases h <;> exact ⟨rfl, .refl _⟩

end Sections

/-! ## The worker -/

theorem runAction_row {c : Config τ ν} {value : ν} {event : Event τ ν} {row : Transition × ℕ}
    {r : Ran τ ν} (h : runAction c value event row = .ok r) : r.row = row := by
  unfold runAction at h
  split_ifs at h
  · cases h
    rfl
  · split at h
    · split at h
      · cases h
        rfl
      · split_ifs at h
    · cases h

structure Carries (c : Config τ ν) (s : Shared τ ν) (event : Event τ ν) (p : Point τ ν) : Prop where
  hand : p.inHand = [event]
  counted : p.inFlight = 1
  grounded : p.Grounded c s.state s.value

section Worker

variable {c : Config τ ν} {s : Shared τ ν} {p p' : Point τ ν} {event : Event τ ν}

theorem Ledger.carry (h : Ledger c s.books s.mailbox (some p)) (hp : p.inHand = [event])
    (hc : p.inFlight = 1) (hp' : Carries c s event p') :
    Ledger c s.books s.mailbox (some p') := by
  refine h.move ?_ ?_ ?_
  · exact hp'.hand.trans hp.symm
  · exact hp'.counted.trans hc.symm
  · rintro _ ⟨⟩
    exact hp'.grounded

theorem Ledger.idle {point : Option (Point τ ν)} (h : Ledger c s.books s.mailbox (some p))
    (hp : p.inHand = []) (hc : p.inFlight = 0) (hand : point.elim [] Point.inHand = [])
    (hflight : point.elim 0 Point.inFlight = 0)
    (hg : ∀ p ∈ point, p.Grounded c s.state s.value) : Ledger c s.books s.mailbox point :=
  h.move (hand.trans hp.symm) (hflight.trans hc.symm) hg

theorem Ledger.settleFinish {quantum : Bool} {books : Books τ ν} {verdict : Verdict τ ν}
    (h : Ledger c s.books s.mailbox (some p)) (hp : p.inHand = [event]) (hc : p.inFlight = 1)
    (hhistory : books.history = s.history ++ [⟨event, verdict⟩])
    (hin : books.inFlight = s.inFlight - 1)
    (hcount : books.completed + books.failed + books.cancelledInFlight =
      s.completed + s.failed + s.cancelledInFlight + 1)
    (hreplays : Replays c books.history books.state books.value) :
    Ledger c books s.mailbox (some (.finish quantum)) := by
  refine h.settle hp hc hhistory hin hcount hreplays rfl rfl ?_
  rintro _ ⟨⟩
  trivial

theorem settleCancelled_ledger {quantum : Bool} (h : Ledger c s.books s.mailbox (some p))
    (hp : p.inHand = [event]) (hc : p.inFlight = 1) :
    Ledger c (s.settleCancelled event).books s.mailbox (some (.finish quantum)) :=
  h.settleFinish hp hc rfl rfl rfl h.replays.cancelled

/-- A failure settles the event as failed, unless a cancellation came first. -/
theorem fail_ledger {quantum : Bool} {failure : Failure}
    (h : Ledger c s.books s.mailbox (some p)) (hp : p.inHand = [event]) (hc : p.inFlight = 1) :
    Ledger c (s.fail failure (some event)).books s.mailbox (some (.finish quantum)) := by
  by_cases hwon : s.lifecycle = .cancelRequested
  · have hbooks : (s.fail failure (some event)).books = (s.settleCancelled event).books := by
      simp [Shared.fail, Shared.books, Shared.settleCancelled, hwon]
    rw [hbooks]
    exact settleCancelled_ledger h hp hc
  · have hbooks : (s.fail failure (some event)).books = { s.books with
        inFlight := s.inFlight - 1
        failed := s.failed + 1
        history := s.history ++ [⟨event, .failed failure⟩] } := by
      simp [Shared.fail, Shared.books, hwon]
    rw [hbooks]
    refine h.settleFinish hp hc rfl rfl ?_ h.replays.failed
    simp only [Shared.books]
    omega

theorem commit_ledger {point : Point τ ν} {decision : Decision τ ν}
    (h : Ledger c s.books s.mailbox (some p)) (hp : p.inHand = [event]) (hc : p.inFlight = 1)
    (hd : Chosen c s.state s.value event decision) (hpoint : point.inHand = [])
    (hnone : point.inFlight = 0) (hg : ∀ state value, point.Grounded c state value) :
    Ledger c (s.commit event decision).books s.mailbox (some point) := by
  rw [commit_books]
  refine h.settle hp hc rfl rfl ?_ (h.replays.committed hd) hpoint hnone ?_
  · simp only [Shared.settleCommitted, Shared.books]
    split_ifs <;> omega
  · rintro _ ⟨⟩
    exact hg _ _

/-- The worker goes on to where what it carries is grounded again. -/
theorem advance_carries {flight : Flight τ ν} {stage : Stage τ ν}
    (h : stage.Grounded c s.state s.value flight.event) :
    Carries c s flight.event (advance c s flight stage).2 := by
  cases stage with
  | start =>
    simp only [advance]
    split
    · exact ⟨rfl, rfl, trivial⟩
    · rename_i hselect
      exact ⟨rfl, rfl, hselect⟩
  | selected row =>
    simp only [advance]
    split
    · exact ⟨rfl, rfl, trivial⟩
    · rename_i r hran
      have hrow : r.row = row := runAction_row hran
      exact ⟨rfl, rfl, hrow ▸ h, hrow ▸ hran⟩
  | ran r =>
    simp only [advance]
    split
    · exact ⟨rfl, rfl, trivial⟩
    · rename_i htarget
      split_ifs
      · exact ⟨rfl, rfl, h.1, h.2, htarget⟩
      · exact ⟨rfl, rfl, h.1, h.2, htarget⟩
  | failed failure => exact ⟨rfl, rfl, trivial⟩

variable [RuntimeType τ]

/-- Every step of the worker keeps the ledger. -/
theorem proceed_ledger (h : Ledger c s.books s.mailbox (some p)) :
    Ledger c (proceed c s p).shared.books (proceed c s p).shared.mailbox
      (proceed c s p).point := by
  cases p with
  | task => exact h.idle rfl rfl rfl rfl fun _ hp => by cases hp; trivial
  | loop left =>
    cases left with
    | zero => exact h.idle rfl rfl rfl rfl fun _ hp => by cases hp; trivial
    | succ left =>
      simp only [proceed]
      split
      · exact h.idle rfl rfl rfl rfl fun _ hp => by cases hp; trivial
      · exact h.idle rfl rfl rfl rfl fun _ hp => by cases hp; trivial
  | receive left =>
    simp only [proceed]
    split
    · rename_i event mailbox hreceive
      obtain ⟨hreceived, hw⟩ := s.mailbox.tryReceive_wellFormed hreceive h.wellFormed
      refine { h with wellFormed := hw, received := ?_, grounded := ?_ }
      · rw [hreceived, h.received]
        simp [Point.inHand, Shared.books]
      · rintro _ ⟨⟩
        trivial
    all_goals exact h.idle rfl rfl rfl rfl fun _ hp => by cases hp; trivial
  | empty => exact h.idle rfl rfl rfl rfl fun _ hp => by cases hp; trivial
  | take flight =>
    refine { h with received := h.received, inFlight := ?_, grounded := ?_ }
    · exact congrArg (· + 1) h.inFlight
    · rintro _ ⟨⟩
      trivial
  | settle flight stage =>
    simp only [proceed]
    split
    · exact settleCancelled_ledger h rfl rfl
    · exact h.carry rfl rfl (advance_carries (h.grounded _ rfl))
  | checkClosed flight decision =>
    have hd : Chosen c s.state s.value flight.event decision := h.grounded _ rfl
    simp only [proceed]
    split
    · exact h.carry rfl rfl ⟨rfl, rfl, hd⟩
    · exact h.carry rfl rfl ⟨rfl, rfl, hd⟩
  | emit flight decision =>
    have hd : Chosen c s.state s.value flight.event decision := h.grounded _ rfl
    simp only [proceed]
    split
    · exact h.carry rfl rfl ⟨rfl, rfl, trivial⟩
    · rename_i event hevent
      have hframe := s.mailbox.trySend_frame event
      split
      · rename_i mailbox wake hsend
        have hcarries : Carries c s flight.event (.commit flight decision) := ⟨rfl, rfl, hd⟩
        rw [hsend] at hframe
        exact (h.carry rfl rfl hcarries).frame hframe
      all_goals exact h.carry rfl rfl ⟨rfl, rfl, trivial⟩
  | abort flight failure => exact fail_ledger h rfl rfl
  | commit flight decision =>
    simp only [proceed]
    split
    · exact settleCancelled_ledger h rfl rfl
    · exact h.carry rfl rfl ⟨rfl, rfl, trivial⟩
    · dsimp only
      rw [commit_mailbox]
      split_ifs
      · exact commit_ledger h rfl rfl (h.grounded _ rfl) rfl rfl fun _ _ => trivial
      · exact commit_ledger h rfl rfl (h.grounded _ rfl) rfl rfl fun _ _ => trivial
  | finish quantum => exact h.idle rfl rfl rfl rfl fun _ hp => by cases hp

end Worker

/-! ## Runs -/

section Runs

variable {c : Config τ ν} {w w' : c.World}

theorem begin_spec {t : ℕ} {l : Label τ ν} {s : Shared τ ν}
    {r : Outcome (Shared τ ν) (Call τ ν) (Point τ ν)} (h : begin c t l s = some r) :
    r.shared.books = s.books ∧ r.shared.mailbox = s.mailbox ∧
      (t = 0 ∧ r.point = some .task ∨ t ≠ 0 ∧ r.point = none) := by
  unfold begin at h
  split_ifs at h with ht
  · cases h
    exact ⟨rfl, rfl, .inl ⟨ht, rfl⟩⟩
  · split at h
    · cases h
      exact ⟨rfl, rfl, .inr ⟨ht, rfl⟩⟩
    · cases h

variable [RuntimeType τ]

/-- The worker's ledger is right, and no other thread is in the task. -/
structure Balanced (c : Config τ ν) (t : ℕ) (s : Shared τ ν) (thread : Thread (Call τ ν) (Point τ ν)) :
    Prop where
  worker : t = 0 → Ledger c s.books s.mailbox thread.point
  caller : t ≠ 0 → thread.point = none

theorem created_balanced {s : Shared τ ν} (h : Created c s) :
    Everywhere (Balanced c) (c.world s) := by
  have hinit : ∀ {s}, instanceInit c = .ok s → Ledger c s.books s.mailbox none := by
    intro s h
    obtain ⟨initial, hinitial, -, -, -, rfl⟩ := instanceInit_ok h
    refine Ledger.frame ⟨Mailbox.wellFormed_init _ _, rfl, rfl, rfl, .start hinitial, ?_⟩
      (initialShared_frame c initial)
    rintro _ ⟨⟩
  refine fun t => ⟨fun _ => ?_, fun _ => rfl⟩
  cases h with
  | plain _ h => exact hinit h
  | hierarchical hierarchy _ _ h =>
    obtain ⟨s₀, hs₀, rfl⟩ := hierarchyInstanceInit_ok h
    have hledger := hinit hs₀
    exact hledger

variable {t : ℕ} {l : Label τ ν} {s s' : Shared τ ν} {thread thread' : Thread (Call τ ν) (Point τ ν)}

theorem section_balanced (hb : Balanced c t s thread)
    (h : Section (program c) t l s thread s' thread') : Balanced c t s' thread' := by
  cases h with
  | call hcall =>
    have hframe := perform_frame s hcall
    refine ⟨fun ht => ?_, hb.caller⟩
    rw [hframe.books]
    exact (hb.worker ht).frame hframe.mailbox
  | resume hresume =>
    cases hresume
    refine ⟨fun ht => proceed_ledger (hb.worker ht), fun ht => ?_⟩
    cases hb.caller ht
  | start hstart =>
    obtain ⟨hbooks, hmailbox, hpoint⟩ := begin_spec hstart
    rcases hpoint with ⟨ht, hpoint⟩ | ⟨ht, hpoint⟩
    · refine ⟨fun _ => ?_, fun hne => absurd ht hne⟩
      rw [hbooks, hmailbox, hpoint]
      exact (hb.worker ht).move rfl rfl fun _ hp => by cases hp; trivial
    · exact ⟨fun h0 => absurd h0 ht, fun _ => hpoint⟩

theorem section_others (hb : Balanced c t s thread)
    (h : Section (program c) t l s thread s' thread') (u : ℕ) (hu : u ≠ t)
    (other : Thread (Call τ ν) (Point τ ν)) (ho : Balanced c u s other) : Balanced c u s' other := by
  refine ⟨fun h0 => ?_, ho.caller⟩
  have ht : t ≠ 0 := fun ht => hu (h0.trans ht.symm)
  cases h with
  | call hcall =>
    have hframe := perform_frame s hcall
    rw [hframe.books]
    exact (ho.worker h0).frame hframe.mailbox
  | resume => cases hb.caller ht
  | start hstart =>
    obtain ⟨hbooks, hmailbox, -⟩ := begin_spec hstart
    rw [hbooks, hmailbox]
    exact ho.worker h0

theorem reachable_balanced (h : c.Reachable w) : Everywhere (Balanced c) w := by
  obtain ⟨s₀, schedule, hcreated, hrun⟩ := h
  exact run_everywhere (T := Balanced c) (k := .always) (fun hb _ h => section_balanced hb h)
    (fun hb _ h => section_others hb h) (created_balanced hcreated) (runMeets_always _) hrun

/-- Only a commit changes the state or the value. -/
theorem proceed_state (s : Shared τ ν) (p : Point τ ν) :
    ((proceed c s p).shared.state = s.state ∧ (proceed c s p).shared.value = s.value) ∨
      ∃ flight decision, p = .commit flight decision ∧
        (proceed c s p).shared.state = decision.target ∧
        (proceed c s p).shared.value = decision.value := by
  cases p with
  | commit flight decision =>
    simp only [proceed]
    split
    · exact .inl ⟨rfl, rfl⟩
    · exact .inl ⟨rfl, rfl⟩
    · have hbooks := commit_books s flight.event decision
      exact .inr ⟨flight, decision, rfl, congrArg Books.state hbooks, congrArg Books.value hbooks⟩
  | loop left =>
    cases left with
    | zero => exact .inl ⟨rfl, rfl⟩
    | succ left =>
      simp only [proceed]
      split <;> exact .inl ⟨rfl, rfl⟩
  | emit flight decision =>
    simp only [proceed]
    split
    · exact .inl ⟨rfl, rfl⟩
    · split <;> exact .inl ⟨rfl, rfl⟩
  | receive left | settle flight stage | checkClosed flight decision =>
    simp only [proceed]
    split <;> exact .inl ⟨rfl, rfl⟩
  | _ => exact .inl ⟨rfl, rfl⟩

structure Conserves (c : Config τ ν) (w : c.World) : Prop where
  /-- Outside the task every accepted event is counted once. -/
  counted : w.threads 0 = ⟨[], none⟩ → w.shared.inFlight = 0 ∧
    w.shared.mailbox.accepted.length = w.shared.completed + w.shared.failed +
      (w.shared.mailbox.cancelled + w.shared.cancelledInFlight) + w.shared.mailbox.pending.length
  /-- The events settled are the first ones accepted, in order and once each. -/
  inOrder : w.shared.history.map (·.event) <+: w.shared.mailbox.accepted
  /-- State and value are the work of the committed transitions. -/
  replays : Replays c w.shared.history w.shared.state w.shared.value
  /-- They change in no step but a commit of what was chosen for the event in flight. -/
  changes : ∀ t l w', step (program c) w t l = some w' →
    (w'.shared.state = w.shared.state ∧ w'.shared.value = w.shared.value) ∨
    ∃ flight decision, t = 0 ∧ w.threads 0 = ⟨[], some (.commit flight decision)⟩ ∧
      Chosen c w.shared.state w.shared.value flight.event decision ∧
      w'.shared.state = decision.target ∧ w'.shared.value = decision.value

/-- Every reachable state of an instance conserves the events that it accepted. -/
theorem instance_conserves (h : c.Reachable w) : Conserves c w := by
  have hledger := (reachable_balanced h 0).worker rfl
  refine ⟨fun hidle => ?_, ?_, hledger.replays, fun t l w' hstep => ?_⟩
  · have hin := hledger.inFlight
    have hreceived := hledger.received
    have hcounted := hledger.counted
    have haccepted := hledger.wellFormed.counted
    rw [hidle] at hin hreceived
    simp only [Option.elim_none, List.append_nil] at hreceived
    rw [hreceived, List.length_map] at haccepted
    simp only [Shared.books] at hcounted haccepted
    exact ⟨hin, by omega⟩
  · have hprefix := (List.prefix_append _ _).trans hledger.wellFormed.ordered
    rw [hledger.received] at hprefix
    exact (List.prefix_append _ _).trans hprefix
  · obtain ⟨shared, thread, hsection, rfl⟩ := step_section _ hstep
    have hcaller := (reachable_balanced h t).caller
    generalize hthread : w.threads t = before at hsection hcaller
    cases hsection with
    | call hcall =>
      have hbooks := (perform_frame w.shared hcall).books
      exact .inl ⟨congrArg Books.state hbooks, congrArg Books.value hbooks⟩
    | @resume point r hresume =>
      have h0 : t = 0 := by
        by_contra hne
        cases hcaller hne
      subst h0
      cases hresume
      rcases proceed_state w.shared point with hsame | ⟨flight, decision, rfl, hstate, hvalue⟩
      · exact .inl hsame
      · refine .inr ⟨flight, decision, rfl, hthread, ?_, hstate, hvalue⟩
        have hgrounded := hledger.grounded (.commit flight decision)
        rw [hthread] at hgrounded
        exact hgrounded rfl
    | start hstart =>
      have hbooks := (begin_spec hstart).1
      exact .inl ⟨congrArg Books.state hbooks, congrArg Books.value hbooks⟩

end Runs

/-! ## A relay -/

def relay : Config Unit ℕ where
  machine := {
    states := [⟨1, (), .active⟩]
    initialState := 1
    events := [⟨7, ()⟩]
    guards := []
    actions := [⟨3, (), 7, (), (), 0, 9, .event, some (), 7⟩]
    transitions := [⟨1, 7, 0, 3, 1, 0⟩] }
  initialValue := 0
  outputType := ()
  guards := []
  actions := [(3, fun value payload => .ok (value + payload, payload))]
  mailboxCapacity := 2
  hierarchy := none
  timerCapacity := 0

theorem relay_created : Created relay (initialShared relay ⟨1, (), .active⟩) := .plain rfl rfl

def relaySchedule : List (ℕ × Label Unit ℕ) :=
  [(1, .call (.send ⟨7, (), 5⟩)), (1, .go), (2, .call .resume), (2, .go), (2, .go),
    (2, .answer .accepted)] ++ List.replicate 14 (0, .go)

theorem instance_conserves_relay : ∃ w : relay.World, relay.Reachable w ∧ Conserves relay w ∧
    w.shared.history.length = 1 ∧ w.shared.value = 5 ∧ w.shared.mailbox.pending.length = 1 := by
  have hrun : ((run (program relay) (relay.world (initialShared relay ⟨1, (), .active⟩))
      relaySchedule).map fun w => (w.shared.history.length, w.shared.value,
        w.shared.mailbox.pending.length)) = some (1, 5, 1) := by
    decide
  obtain ⟨w, hw, hfinal⟩ := Option.map_eq_some_iff.1 hrun
  have hreach : relay.Reachable w := ⟨_, relaySchedule, relay_created, hw⟩
  simp only [Prod.mk.injEq] at hfinal
  exact ⟨w, hreach, instance_conserves hreach, hfinal⟩

end Cflow.Instance
