import TurboUtils.Cflow.Timer.Views

/-! Every timer is settled once: it is pending, in flight, or has been cancelled or handed to the
target, whatever the order of the sections. -/
namespace Cflow.Timer

open Machine Instance Transition

variable {τ ν : Type}

structure Sound (s : Events τ ν) : Prop where
  consistent : Consistent s.timers.items s.slots s.capacity
  flight : Flight s.slots s.capacity s.inFlight s.consumerActive s.claims s.commits
  ledger : Ledger s.timers s.slots s.claims s.commits s.history s.scheduled s.cancelled
    (s.delivered + s.mailboxRejected)
  recorded : Recorded s.slots s.payloads s.capacity s.history
  empty : s.closed = true → s.timers.items = []

variable {s s' : Events τ ν}

theorem Sound.init (capacity stride : ℕ) : Sound (Events.init capacity stride : Events τ ν) where
  consistent := ⟨fun _ hmem => absurd hmem List.not_mem_nil, nofun, List.nodup_nil⟩
  flight := ⟨rfl, rfl, fun _ => by simp [flying, Events.init, Slot.released], nofun⟩
  ledger := ⟨rfl, rfl, Nat.two_pow_pos 64, rfl, .nil, rfl, rfl, rfl, rfl⟩
  recorded := ⟨fun _ _ hstate => absurd rfl hstate, nofun⟩
  empty _ := rfl

namespace Events

theorem findFreeSlot_some {i : ℕ} (h : s.findFreeSlot = some i) :
    i < s.capacity ∧ (s.slots i).state = .free :=
  ⟨List.mem_range.1 (List.mem_of_find?_eq_some h), by simpa using List.find?_some h⟩

theorem findTimerSlot_some {id i : ℕ} (h : s.findTimerSlot id = some i) :
    i < s.capacity ∧ (s.slots i).state ≠ .free ∧ (s.slots i).timerId = id := by
  refine ⟨List.mem_range.1 (List.mem_of_find?_eq_some h), ?_⟩
  have hfound := List.find?_some h
  simpa using hfound

end Events

theorem Sound.accept (h : Sound s) (deadline : ℕ) (event : EventView τ ν) (type : τ) (scope : ℕ) :
    Sound (s.accept deadline event type scope).2 := by
  unfold Events.accept
  split_ifs with hclosed
  · exact ⟨h.consistent, h.flight, h.ledger, h.recorded, h.empty⟩
  have hopen : ∀ {P : Prop}, s.closed = true → P := fun heq => absurd heq hclosed
  split
  · exact ⟨h.consistent, h.flight, h.ledger, h.recorded, h.empty⟩
  next i hi =>
    obtain ⟨hlt, hfree⟩ := Events.findFreeSlot_some hi
    have hpending : (s.slots i).state ≠ .pending := by rw [hfree]; nofun
    have hfiring : (s.slots i).state ≠ .firing := by rw [hfree]; nofun
    have hpayloads : ∀ j ≠ i,
        Function.update s.payloads i (some event.payload) j = s.payloads j :=
      fun j hji => Function.update_of_ne hji ..
    dsimp only
    split
    · have hrecorded := h.recorded.release hpayloads (rfl : List.filterMap _ [] = [])
      rw [List.append_nil] at hrecorded
      exact ⟨h.consistent.other hpending (by nofun), h.flight.other hfiring (by nofun),
        h.ledger.other h.flight hfiring, hrecorded, h.empty⟩
    next id timers hs =>
      refine ⟨?_, h.flight.other hfiring (by nofun), h.ledger.schedule h.flight hfiring hs,
        h.recorded.schedule event type .pending, hopen⟩
      obtain ⟨task, hitems, hid, huser⟩ := Queue.trySchedule_some hs
      dsimp only
      rw [hitems]
      exact h.consistent.add hlt hfree rfl hid.symm huser

theorem Sound.scheduleAt [TypeDesc τ] (h : Sound s)
    (contract : EventView τ ν → Except MailboxStatus τ) (deadline : ℕ) (event : EventView τ ν)
    (scope : ℕ) : Sound (s.scheduleAt contract deadline event scope).2 := by
  unfold Events.scheduleAt
  split
  · exact h
  · exact h
  next type _ =>
    split_ifs
    · exact h
    · exact h.accept ..

/-- A task that was taken out under the id of a pending slot is the one of that slot. -/
theorem Sound.cancelSlot (h : Sound s) {i : ℕ} (hi : i < s.capacity)
    (hpending : (s.slots i).state = .pending) {timers : Queue}
    (hcancel : s.timers.cancel (s.slots i).timerId = some timers) (hclosed : s.closed ≠ true) :
    Sound (s.cancelSlot i (s.slots i).timerId timers) := by
  obtain ⟨⟨task, timers⟩, htake, rfl⟩ := Option.map_eq_some_iff.1 hcancel
  obtain ⟨hr, hid⟩ := Queue.take_some htake
  have hmem := hr.mem
  obtain ⟨task', hmem', huser⟩ := h.consistent.slot i hi hpending
  have hids : task'.id = task.id := by
    rw [hid, ← (h.consistent.entry task' hmem').2.2, huser]
  obtain rfl := List.inj_on_of_nodup_map h.ledger.ids_nodup hmem' hmem hids
  have hfiring : (s.slots i).state ≠ .firing := by rw [hpending]; nofun
  obtain ⟨pre, post, hpre, hpost⟩ := hr.split
  refine ⟨?_, h.flight.other hfiring (by nofun), ?_, ?_, fun heq => absurd heq hclosed⟩
  · have hcons := h.consistent
    rw [hpre] at hcons
    have hremove : Consistent _ (Function.update _ _ .released) _ := hcons.remove (by nofun)
    rw [huser, ← hpost] at hremove
    exact hremove
  · rw [← hid]
    exact h.ledger.cancel h.flight hfiring hr
  · exact h.recorded.release (fun _ _ => rfl) rfl

theorem Sound.cancelScopes (h : Sound s) (scopes : List ℕ) : Sound (s.cancelScopes scopes) := by
  unfold Events.cancelScopes
  split_ifs with hclosed
  · exact h
  have hloop : ∀ (l : List ℕ) (s : Events τ ν), (∀ i ∈ l, i < s.capacity) → Sound s →
      s.closed ≠ true → Sound (l.foldl (Events.cancelScoped scopes) s) := by
    intro l
    induction l with
    | nil => exact fun s _ h _ => h
    | cons i l ih =>
      intro s hl h hclosed
      rw [List.foldl_cons]
      rw [List.forall_mem_cons] at hl
      unfold Events.cancelScoped
      split_ifs with hskip
      · exact ih s hl.2 h hclosed
      split
      · exact ih s hl.2 h hclosed
      next timers hcancel =>
        simp only [Bool.or_eq_true, decide_eq_true_eq, not_or, not_not] at hskip
        exact ih _ hl.2 (h.cancelSlot hl.1 hskip.1 hcancel hclosed) hclosed
  exact hloop _ s (fun i hi => List.mem_range.1 hi) h hclosed

/-- What a cancel that succeeded did. -/
theorem Events.cancel_ok {id : ℕ} (h : (s.cancel id).1 = .ok) : ∃ i timers, i < s.capacity ∧
    (s.slots i).state = .pending ∧ (s.slots i).timerId = id ∧ s.timers.cancel id = some timers ∧
      s.closed ≠ true ∧ (s.cancel id).2 = s.cancelSlot i id timers := by
  unfold Events.cancel at h ⊢
  split_ifs at h ⊢ with hzero hclosed
  split at h
  · cases h
  next i hi =>
    obtain ⟨hlt, hfree, hid⟩ := Events.findTimerSlot_some hi
    split_ifs at h with hfiring
    split at h
    · cases h
    next timers hcancel =>
      refine ⟨i, timers, hlt, ?_, hid, hcancel, hclosed, ?_⟩
      · cases hstate : (s.slots i).state with
        | free => exact absurd hstate hfree
        | pending => rfl
        | firing => exact absurd hstate hfiring
      · rw [if_neg hfiring]

theorem Events.cancel_failed {id : ℕ} (h : (s.cancel id).1 ≠ .ok) : (s.cancel id).2 = s := by
  unfold Events.cancel at h ⊢
  split_ifs at h ⊢
  · rfl
  · rfl
  split
  · rfl
  next i hi =>
    rw [hi] at h
    dsimp only at h
    split_ifs at h ⊢ with hfiring
    · rfl
    split
    · rfl
    next timers hcancel =>
      rw [hcancel] at h
      exact absurd rfl h

theorem Sound.cancel (h : Sound s) (id : ℕ) : Sound (s.cancel id).2 := by
  by_cases hok : (s.cancel id).1 = .ok
  · obtain ⟨i, timers, hi, hpending, rfl, hcancel, hclosed, heq⟩ := Events.cancel_ok hok
    rw [heq]
    exact h.cancelSlot hi hpending hcancel hclosed
  · rw [Events.cancel_failed hok]
    exact h

theorem Sound.takeReady (h : Sound s) {now : ℕ} {task : Task} {timers : Queue}
    (htake : s.timers.takeReady now = some (task, timers)) :
    (s.slots task.user).state = .pending ∧ (s.slots task.user).timerId = task.id :=
  (h.consistent.entry task (Queue.takeReady_some htake).1.mem).2

theorem Sound.claimOneReady (h : Sound s) (now : ℕ) : Sound (s.claimOneReady now).2 := by
  unfold Events.claimOneReady
  split_ifs with hclosed hactive
  · exact h
  · exact h
  split
  · exact h
  next task timers htake =>
    obtain ⟨hpending, hid⟩ := h.takeReady htake
    rw [if_neg (by simp [hpending, hid])]
    have hr := (Queue.takeReady_some htake).1
    have hlt := (h.consistent.entry task hr.mem).1
    obtain ⟨pre, post, hpre, hpost⟩ := hr.split
    have hidle := h.flight
    rw [Bool.not_eq_true] at hactive
    rw [hactive] at hidle
    refine ⟨?_, hidle.claim hlt rfl, h.ledger.claim hidle hr hid, ?_,
      fun heq => absurd heq hclosed⟩
    · have hcons := h.consistent
      rw [hpre] at hcons
      dsimp only
      rw [hpost]
      exact hcons.remove (by nofun)
    · exact h.recorded.claim (by rw [hpending]; nofun) .firing rfl

theorem Sound.send (h : Sound s) {i : ℕ} {status : MailboxStatus} (hs : s.send i status = some s') :
    Sound s' := by
  unfold Events.send at hs
  split_ifs at hs with hi
  cases hs
  obtain ⟨hlt, hfiring⟩ := (h.flight.firing i).1 (List.mem_append_left _ hi)
  exact ⟨h.consistent, h.flight.send hi status, h.ledger.send h.flight hi _ status,
    h.recorded.send hlt (by rw [hfiring]; nofun) status, h.empty⟩

theorem Sound.settle (h : Sound s) {n : ℕ} {commit : Commit} (hn : s.commits[n]? = some commit) :
    Sound (s.settle n commit) := by
  have hmem : commit.slot ∈ flying s.claims s.commits :=
    List.mem_append_right _ (List.mem_map_of_mem (List.mem_of_getElem? hn))
  have hfiring := ((h.flight.firing _).1 hmem).2
  have hledger : Ledger _ (Function.update _ _ .released) _ _ _ _ _ _ :=
    h.ledger.settle h.flight hn
  have hflight : Flight (Function.update _ _ .released) _ _ _ _ _ :=
    h.flight.settle hn (by nofun)
  have hcons : Consistent _ (Function.update _ _ .released) _ :=
    h.consistent.other (i := commit.slot) (by rw [hfiring]; nofun) (by nofun)
  have hrecorded := h.recorded.release (i := commit.slot) (fun _ _ => rfl)
    (rfl : List.filterMap _ [.settled commit.id commit.status] = [])
  unfold Events.settle
  dsimp only
  split_ifs with hok
  · refine ⟨hcons, hflight, ?_, hrecorded, h.empty⟩
    rw [Nat.add_right_comm] at hledger
    exact hledger
  · exact ⟨hcons, hflight, hledger, hrecorded, h.empty⟩

theorem Sound.closeBegin (h : Sound s) : Sound s.closeBegin.2 := by
  unfold Events.closeBegin
  split_ifs
  · exact h
  have hother : ∀ j, (s.slots j).state ≠ .pending →
      (if j ∈ s.pendingSlots then .released else s.slots j) = s.slots j := by
    intro j hj
    rw [if_neg fun hmem => hj (by simpa using (List.mem_filter.1 hmem).2)]
  have hflying : ∀ j ∈ flying s.claims s.commits,
      (if j ∈ s.pendingSlots then .released else s.slots j) = s.slots j := fun j hj =>
    hother j (by rw [((h.flight.firing j).1 hj).2]; nofun)
  refine ⟨⟨nofun, fun j hj hpending => ?_, List.nodup_nil⟩, ⟨h.flight.single, h.flight.count,
    fun j => ?_, fun commit hmem => ?_⟩, ?_, ?_, fun _ => rfl⟩
  · dsimp only at hpending
    split_ifs at hpending with hmem
    · cases hpending
    · exact absurd (List.mem_filter.2 ⟨List.mem_range.2 hj, by simpa using hpending⟩) hmem
  · rw [h.flight.firing j]
    dsimp only
    split_ifs with hmem
    · have hpending : (s.slots j).state = .pending := by simpa using (List.mem_filter.1 hmem).2
      simp [hpending, Slot.released]
    · rfl
  · dsimp only
    rw [hflying _ (List.mem_append_right _ (List.mem_map_of_mem hmem))]
    exact h.flight.ids commit hmem
  · refine h.ledger.close h.consistent ?_ rfl
    unfold flyingIds
    congr 1
    refine List.map_congr_left fun j hj => ?_
    dsimp only
    rw [hflying j (List.mem_append_left _ hj)]
  · refine h.recorded.keep (fun j => ?_) ?_
    · dsimp only
      by_cases hmem : j ∈ s.pendingSlots
      · rw [if_pos hmem]
        exact .inl rfl
      · rw [if_neg hmem]
        by_cases hfree : (s.slots j).state = .free
        · exact .inl hfree
        · exact .inr ⟨hfree, rfl, _, rfl⟩
    · rw [List.filterMap_map, List.filterMap_eq_nil_iff]
      exact fun _ _ => rfl

theorem Sound.balance (h : Sound s) : s.scheduled =
    s.delivered + s.cancelled + s.mailboxRejected + s.timers.items.length + s.inFlight := by
  have hlength := h.ledger.accounts.length_eq
  have hfires := h.ledger.fires
  have hcancels := h.ledger.cancels
  have hcount := h.flight.count
  simp only [List.length_range', List.length_append, List.length_map, flyingIds, flying]
    at hlength hcount
  omega

/-- What has been cancelled has not been sent. -/
theorem Sound.unsent (h : Sound s) {id : ℕ} {event : Option (EventView τ ν)}
    {status : MailboxStatus} (hcancelled : .cancelled id ∈ s.history) :
    .sent id event status ∉ s.history := by
  intro hsent
  have hcancelled : id ∈ s.history.filterMap Happening.cancelledId :=
    List.mem_filterMap.2 ⟨_, hcancelled, rfl⟩
  have hmem : id ∈ s.history.filterMap Happening.sentId := List.mem_filterMap.2 ⟨_, hsent, rfl⟩
  have hcount := List.nodup_iff_count_le_one.1 h.ledger.nodup id
  rw [h.ledger.sent, List.mem_append] at hmem
  have hpos := List.count_pos_iff.2 hcancelled
  simp only [List.count_append, flyingIds] at hcount
  rcases hmem with hmem | hmem
  · have := List.count_pos_iff.2 hmem
    omega
  · have := List.count_pos_iff.2 hmem
    omega

theorem Sound.fireWon (h : Sound s) {id : ℕ} (hwon : (s.cancel id).1 = .fireWon) :
    .claimed id ∈ s.history := by
  unfold Events.cancel at hwon
  split_ifs at hwon
  split at hwon
  · cases hwon
  next i hi =>
    obtain ⟨hlt, -, rfl⟩ := Events.findTimerSlot_some hi
    split_ifs at hwon with hfiring
    · have hmem := (h.flight.firing i).2 ⟨hlt, hfiring⟩
      have hflying : (s.slots i).timerId ∈ flyingIds s.slots s.claims s.commits := by
        rcases List.mem_append.1 hmem with hmem | hmem
        · exact List.mem_append_right _ (List.mem_map_of_mem hmem)
        · obtain ⟨commit, hcommit, rfl⟩ := List.mem_map.1 hmem
          refine List.mem_append_left _ (List.mem_map.2 ⟨commit, hcommit, ?_⟩)
          exact h.flight.ids commit hcommit
      have hclaimed : (s.slots i).timerId ∈ s.history.filterMap Happening.claimedId := by
        rw [h.ledger.claimed]
        exact List.mem_append_right _ hflying
      obtain ⟨happening, hmem, hid⟩ := List.mem_filterMap.1 hclaimed
      cases happening with
      | claimed id =>
        cases hid
        exact hmem
      | _ => cases hid
    · split at hwon
      · cases hwon
      · cases hwon

/-! ## What has happened stays so -/

namespace Events

theorem accept_history (deadline : ℕ) (event : EventView τ ν) (type : τ) (scope : ℕ) :
    s.history <+: (s.accept deadline event type scope).2.history := by
  unfold accept
  split_ifs
  · exact List.prefix_rfl
  split
  · exact List.prefix_rfl
  dsimp only
  split
  · exact List.prefix_rfl
  · exact List.prefix_append ..

theorem cancelScopes_history (scopes : List ℕ) : s.history <+: (s.cancelScopes scopes).history := by
  unfold cancelScopes
  split_ifs
  · exact List.prefix_rfl
  · refine List.foldlRecOn (motive := fun s' : Events τ ν => s.history <+: s'.history) _ _
      List.prefix_rfl fun s' hs' i _ => ?_
    unfold cancelScoped
    split_ifs
    · exact hs'
    split
    · exact hs'
    · exact hs'.trans (List.prefix_append ..)

theorem cancel_history (id : ℕ) : s.history <+: (s.cancel id).2.history := by
  by_cases hok : (s.cancel id).1 = .ok
  · obtain ⟨i, timers, -, -, -, -, -, heq⟩ := cancel_ok hok
    rw [heq]
    exact List.prefix_append ..
  · rw [cancel_failed hok]

theorem claimOneReady_history (now : ℕ) : s.history <+: (s.claimOneReady now).2.history := by
  unfold claimOneReady
  split_ifs
  · exact List.prefix_rfl
  · exact List.prefix_rfl
  split
  · exact List.prefix_rfl
  · split_ifs
    · exact List.prefix_rfl
    · exact List.prefix_append ..

theorem closeBegin_closed (s : Events τ ν) : s.closeBegin.2.closed = true := by
  unfold closeBegin
  split_ifs with hclosed
  · exact hclosed
  · rfl

theorem closeBegin_claimed (s : Events τ ν) : s.closeBegin.2.history.filterMap Happening.claimedId =
    s.history.filterMap Happening.claimedId := by
  unfold closeBegin
  split_ifs
  · rfl
  · rw [List.filterMap_append, List.append_right_eq_self, List.filterMap_map,
      List.filterMap_eq_nil_iff]
    exact fun _ _ => rfl

variable [TypeDesc τ] {contract : EventView τ ν → Except MailboxStatus τ}

theorem scheduleAt_history (deadline : ℕ) (event : EventView τ ν) (scope : ℕ) :
    s.history <+: (s.scheduleAt contract deadline event scope).2.history := by
  unfold scheduleAt
  split
  · exact List.prefix_rfl
  · exact List.prefix_rfl
  · split_ifs
    · exact List.prefix_rfl
    · exact accept_history ..

theorem step_history {move : Move τ ν} (h : step contract s move = some s') :
    s.history <+: s'.history := by
  cases move with
  | schedule deadline event scope =>
    cases h
    exact scheduleAt_history ..
  | cancelScopes scopes =>
    cases h
    exact cancelScopes_history scopes
  | cancel id =>
    cases h
    exact cancel_history id
  | claimOneReady now =>
    cases h
    exact claimOneReady_history now
  | send slot status =>
    replace h : s.send slot status = some s' := h
    unfold send at h
    split_ifs at h
    cases h
    exact List.prefix_append ..
  | settle n =>
    obtain ⟨commit, hn, rfl⟩ := Option.map_eq_some_iff.1 h
    exact List.prefix_append ..
  | closeBegin =>
    cases h
    unfold closeBegin
    split_ifs
    · exact List.prefix_rfl
    · exact List.prefix_append ..

theorem run_history {moves : List (Move τ ν)} (h : run (step contract) s moves = some s') :
    s.history <+: s'.history :=
  run_keeps (P := fun s' => s.history <+: s'.history)
    (fun _ _ _ hs hstep => hs.trans (step_history hstep)) List.prefix_rfl h

/-- Closed queues claim nothing, and stay closed. -/
theorem step_closed {move : Move τ ν} (hclosed : s.closed = true)
    (h : step contract s move = some s') : s'.closed = true ∧
      s'.history.filterMap Happening.claimedId = s.history.filterMap Happening.claimedId := by
  cases move with
  | schedule deadline event scope =>
    cases h
    unfold scheduleAt
    split
    · exact ⟨hclosed, rfl⟩
    · exact ⟨hclosed, rfl⟩
    · split_ifs
      · exact ⟨hclosed, rfl⟩
      · unfold accept
        rw [if_pos hclosed]
        exact ⟨hclosed, rfl⟩
  | cancelScopes scopes =>
    cases h
    unfold cancelScopes
    rw [if_pos hclosed]
    exact ⟨hclosed, rfl⟩
  | cancel id =>
    cases h
    unfold cancel
    rw [if_pos hclosed]
    split_ifs
    · exact ⟨hclosed, rfl⟩
    · exact ⟨hclosed, rfl⟩
  | claimOneReady now =>
    cases h
    unfold claimOneReady
    rw [if_pos hclosed]
    exact ⟨hclosed, rfl⟩
  | send slot status =>
    replace h : s.send slot status = some s' := h
    unfold send at h
    split_ifs at h
    cases h
    exact ⟨hclosed, by simp [filterMap_singleton, Happening.claimedId]⟩
  | settle n =>
    obtain ⟨commit, hn, rfl⟩ := Option.map_eq_some_iff.1 h
    refine ⟨?_, by simp [settle, filterMap_singleton, Happening.claimedId]⟩
    unfold settle
    dsimp only
    split_ifs
    · exact hclosed
    · exact hclosed
  | closeBegin =>
    cases h
    unfold closeBegin
    rw [if_pos hclosed]
    exact ⟨hclosed, rfl⟩

theorem run_closed {moves : List (Move τ ν)} (hclosed : s.closed = true)
    (h : run (step contract) s moves = some s') :
    s'.history.filterMap Happening.claimedId = s.history.filterMap Happening.claimedId :=
  (run_keeps (P := fun s' => s'.closed = true ∧ s'.history.filterMap Happening.claimedId =
    s.history.filterMap Happening.claimedId) (fun _ _ _ hs hstep =>
      ⟨(step_closed hs.1 hstep).1, (step_closed hs.1 hstep).2.trans hs.2⟩) ⟨hclosed, rfl⟩ h).2

end Events

variable [TypeDesc τ] {contract : EventView τ ν → Except MailboxStatus τ}

theorem Sound.step {move : Events.Move τ ν} (h : Sound s)
    (hs : Events.step contract s move = some s') : Sound s' := by
  cases move with
  | schedule deadline event scope =>
    cases hs
    exact h.scheduleAt ..
  | cancelScopes scopes =>
    cases hs
    exact h.cancelScopes scopes
  | cancel id =>
    cases hs
    exact h.cancel id
  | claimOneReady now =>
    cases hs
    exact h.claimOneReady now
  | send slot status => exact h.send hs
  | settle n =>
    obtain ⟨commit, hn, rfl⟩ := Option.map_eq_some_iff.1 hs
    exact h.settle hn
  | closeBegin =>
    cases hs
    exact h.closeBegin

theorem Sound.run {moves : List (Events.Move τ ν)} (h : Sound s)
    (hrun : run (Events.step contract) s moves = some s') : Sound s' :=
  run_keeps (P := Sound) (fun _ _ _ h hs => h.step hs) h hrun

/-! ## Settlement -/

/-- Every timer is settled once. -/
theorem timers_settled {capacity stride : ℕ} {moves : List (Events.Move τ ν)}
    (h : run (Events.step contract) (.init capacity stride) moves = some s) :
    s.scheduled =
        s.delivered + s.cancelled + s.mailboxRejected + s.timers.items.length + s.inFlight ∧
      s.history.filterMap Happening.scheduledId = List.range' 1 s.scheduled ∧
      (List.range' 1 s.scheduled).Perm (s.history.filterMap Happening.cancelledId ++
        s.history.filterMap Happening.settledId ++ s.timers.items.map (·.id) ++
          flyingIds s.slots s.claims s.commits) ∧
      (∀ id, (s.cancel id).1 = .ok → ∀ moves' s',
        run (Events.step contract) (s.cancel id).2 moves' = some s' →
          ∀ event status, .sent id event status ∉ s'.history) ∧
      (∀ id, (s.cancel id).1 = .fireWon → .claimed id ∈ s.history) ∧
      Consistent s.timers.items s.slots s.capacity ∧
      (∀ now task timers, s.timers.takeReady now = some (task, timers) →
        (s.slots task.user).state = .pending ∧ (s.slots task.user).timerId = task.id) ∧
      ∀ moves' s', run (Events.step contract) s.closeBegin.2 moves' = some s' →
        s'.history.filterMap Happening.claimedId = s.history.filterMap Happening.claimedId := by
  have hsound := (Sound.init capacity stride).run h
  refine ⟨hsound.balance, hsound.ledger.issued, hsound.ledger.accounts,
    fun id hok moves' s' hrun event status => ?_, fun _ => hsound.fireWon, hsound.consistent,
    fun _ _ _ => hsound.takeReady, fun moves' s' hrun => ?_⟩
  · refine ((hsound.cancel id).run hrun).unsent ((Events.run_history hrun).subset ?_)
    obtain ⟨i, timers, -, -, -, -, -, heq⟩ := Events.cancel_ok hok
    rw [heq]
    exact List.mem_append_right _ (List.mem_singleton_self _)
  · rw [Events.run_closed (Events.closeBegin_closed s) hrun]
    exact Events.closeBegin_claimed s

def lateAndInTime : List (Events.Move Unit ℕ) :=
  [.schedule 5 ⟨1, (), 10⟩ 0, .schedule 3 ⟨2, (), 20⟩ 0, .claimOneReady 4, .cancel 2, .cancel 1,
    .send 1 .ok, .settle 0, .closeBegin]

theorem timers_settled_pair : ∃ s : Events Unit ℕ,
    run (Events.step fun event => .ok event.payloadType) (.init 2 8) lateAndInTime = some s ∧
      s.scheduled = 2 ∧ s.delivered = 1 ∧ s.cancelled = 1 ∧ s.scheduled =
        s.delivered + s.cancelled + s.mailboxRejected + s.timers.items.length + s.inFlight := by
  have hrun : (run (Events.step fun event => .ok event.payloadType) (.init 2 8)
      lateAndInTime).map (fun s : Events Unit ℕ => (s.scheduled, s.delivered, s.cancelled)) =
        some (2, 1, 1) := by decide
  obtain ⟨s, hs, hcounts⟩ := Option.map_eq_some_iff.1 hrun
  simp only [Prod.mk.injEq] at hcounts
  exact ⟨s, hs, hcounts.1, hcounts.2.1, hcounts.2.2, (timers_settled hs).1⟩

end Cflow.Timer
