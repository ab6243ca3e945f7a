import TurboUtils.Cflow.Timer.Events

/-! Slots, timer queue and claims are three views of one set of timers: what keeps them in step, and
the ledger that has every timer in one place. -/
namespace Cflow.Timer

open Machine Instance

variable {τ ν : Type}

/-! ## What has happened to which timers -/

def Happening.scheduledId : Happening τ ν → Option ℕ
  | .scheduled id _ => some id
  | _ => none

def Happening.cancelledId : Happening τ ν → Option ℕ
  | .cancelled id => some id
  | _ => none

def Happening.claimedId : Happening τ ν → Option ℕ
  | .claimed id => some id
  | _ => none

def Happening.sentId : Happening τ ν → Option ℕ
  | .sent id _ _ => some id
  | _ => none

def Happening.settledId : Happening τ ν → Option ℕ
  | .settled id _ => some id
  | _ => none

theorem filterMap_singleton {α β : Type*} {f : α → Option β} {a : α} :
    [a].filterMap f = (f a).toList := by
  cases hfa : f a <;> simp [hfa]

/-! ## The three views -/

/-- The tasks of the timer queue and the pending slots correspond one to one. -/
structure Consistent (items : List Task) (slots : ℕ → Slot τ) (capacity : ℕ) : Prop where
  entry : ∀ task ∈ items, task.user < capacity ∧ (slots task.user).state = .pending ∧
    (slots task.user).timerId = task.id
  slot : ∀ i < capacity, (slots i).state = .pending → ∃ task ∈ items, task.user = i
  users : (items.map (·.user)).Nodup

def flying (claims : List ℕ) (commits : List Commit) : List ℕ := claims ++ commits.map (·.slot)

/-- At most one slot is firing, and there is a claim or a commit for it. -/
structure Flight (slots : ℕ → Slot τ) (capacity inFlight : ℕ) (active : Bool) (claims : List ℕ)
    (commits : List Commit) : Prop where
  single : inFlight = if active then 1 else 0
  count : (flying claims commits).length = inFlight
  firing : ∀ i, i ∈ flying claims commits ↔ i < capacity ∧ (slots i).state = .firing
  ids : ∀ commit ∈ commits, commit.id = (slots commit.slot).timerId

/-- The timers in flight. -/
def flyingIds (slots : ℕ → Slot τ) (claims : List ℕ) (commits : List Commit) : List ℕ :=
  commits.map (·.id) ++ claims.map fun i => (slots i).timerId

/-- Every number that was given out is in one place, and is there once. -/
structure Ledger (timers : Queue) (slots : ℕ → Slot τ) (claims : List ℕ) (commits : List Commit)
    (history : List (Happening τ ν)) (scheduled cancelled fired : ℕ) : Prop where
  nextId : timers.nextId = Word.add 64 scheduled 1
  nextOrder : timers.nextOrder = scheduled
  bound : scheduled < 2 ^ 64
  issued : history.filterMap Happening.scheduledId = List.range' 1 scheduled
  accounts : (List.range' 1 scheduled).Perm (history.filterMap Happening.cancelledId ++
    history.filterMap Happening.settledId ++ timers.items.map (·.id) ++
      flyingIds slots claims commits)
  sent : history.filterMap Happening.sentId =
    history.filterMap Happening.settledId ++ commits.map (·.id)
  claimed : history.filterMap Happening.claimedId =
    history.filterMap Happening.settledId ++ flyingIds slots claims commits
  cancels : cancelled = (history.filterMap Happening.cancelledId).length
  fires : fired = (history.filterMap Happening.settledId).length

/-- Slots hold what was scheduled under their timer, and nothing else was sent. -/
structure Recorded (slots : ℕ → Slot τ) (payloads : ℕ → Option ν) (capacity : ℕ)
    (history : List (Happening τ ν)) : Prop where
  held : ∀ i < capacity, (slots i).state ≠ .free → ∃ type payload,
    (slots i).payloadType = some type ∧ payloads i = some payload ∧
      .scheduled (slots i).timerId ⟨(slots i).eventId, type, payload⟩ ∈ history
  sent : ∀ id event status, .sent id event status ∈ history →
    ∃ event', event = some event' ∧ .scheduled id event' ∈ history

section Views

variable {items : List Task} {slots : ℕ → Slot τ} {capacity : ℕ} {i : ℕ} {slot : Slot τ}

theorem Consistent.add (h : Consistent items slots capacity) (hi : i < capacity)
    (hfree : (slots i).state = .free) (hslot : slot.state = .pending) {task : Task}
    (hid : slot.timerId = task.id) (huser : task.user = i) :
    Consistent (items ++ [task]) (Function.update slots i slot) capacity := by
  have hother : ∀ task' ∈ items, task'.user ≠ i := fun task' hmem heq => by
    have hpending := (h.entry task' hmem).2.1
    rw [heq, hfree] at hpending
    cases hpending
  refine ⟨fun task' hmem => ?_, fun j hj hpending => ?_, ?_⟩
  · rcases List.mem_append.1 hmem with hmem | hmem
    · rw [Function.update_of_ne (hother task' hmem)]
      exact h.entry task' hmem
    · rw [List.mem_singleton.1 hmem, huser, Function.update_self]
      exact ⟨hi, hslot, hid⟩
  · by_cases hji : j = i
    · exact ⟨task, List.mem_append_right _ (List.mem_singleton_self _), huser.trans hji.symm⟩
    · rw [Function.update_of_ne hji] at hpending
      obtain ⟨task', hmem, huser'⟩ := h.slot j hj hpending
      exact ⟨task', List.mem_append_left _ hmem, huser'⟩
  · rw [List.map_append, List.nodup_append']
    refine ⟨h.users, List.nodup_singleton _, ?_⟩
    rintro j hj hmem
    obtain ⟨task', hmem', rfl⟩ := List.mem_map.1 hj
    rw [List.map_singleton, List.mem_singleton, huser] at hmem
    exact hother task' hmem' hmem

/-- A task leaves the queue, and its slot is not pending any more. -/
theorem Consistent.remove {pre post : List Task} {task : Task}
    (h : Consistent (pre ++ task :: post) slots capacity) (hslot : slot.state ≠ .pending) :
    Consistent (pre ++ post) (Function.update slots task.user slot) capacity := by
  have hnodup := h.users
  rw [List.map_append, List.map_cons, List.nodup_middle, List.nodup_cons, ← List.map_append]
    at hnodup
  have hmiddle : ∀ {task'}, task' ∈ pre ++ post → task' ∈ pre ++ task :: post := fun hmem =>
    (List.sublist_cons_self task post).append_left pre |>.subset hmem
  refine ⟨fun task' hmem => ?_, fun j hj hpending => ?_, hnodup.2⟩
  · have hne : task'.user ≠ task.user := fun heq => hnodup.1 (heq ▸ List.mem_map_of_mem hmem)
    rw [Function.update_of_ne hne]
    exact h.entry task' (hmiddle hmem)
  · by_cases hji : j = task.user
    · rw [hji, Function.update_self] at hpending
      exact absurd hpending hslot
    · rw [Function.update_of_ne hji] at hpending
      obtain ⟨task', hmem, huser⟩ := h.slot j hj hpending
      refine ⟨task', ?_, huser⟩
      rcases List.mem_append.1 hmem with hmem | hmem
      · exact List.mem_append_left _ hmem
      · rcases List.mem_cons.1 hmem with rfl | hmem
        · exact absurd huser.symm hji
        · exact List.mem_append_right _ hmem

theorem Consistent.other (h : Consistent items slots capacity) (hi : (slots i).state ≠ .pending)
    (hslot : slot.state ≠ .pending) : Consistent items (Function.update slots i slot) capacity := by
  refine ⟨fun task hmem => ?_, fun j hj hpending => ?_, h.users⟩
  · have hne : task.user ≠ i := fun heq => hi (heq ▸ (h.entry task hmem).2.1)
    rw [Function.update_of_ne hne]
    exact h.entry task hmem
  · by_cases hji : j = i
    · rw [hji, Function.update_self] at hpending
      exact absurd hpending hslot
    · rw [Function.update_of_ne hji] at hpending
      exact h.slot j hj hpending

variable {inFlight : ℕ} {active : Bool} {claims : List ℕ} {commits : List Commit}

/-- A slot that is not firing does not concern the flight. -/
theorem Flight.other (h : Flight slots capacity inFlight active claims commits)
    (hi : (slots i).state ≠ .firing) (hslot : slot.state ≠ .firing) :
    Flight (Function.update slots i slot) capacity inFlight active claims commits := by
  have hne : ∀ j ∈ flying claims commits, j ≠ i := fun j hj heq =>
    hi (heq ▸ ((h.firing j).1 hj).2)
  refine ⟨h.single, h.count, fun j => ?_, fun commit hmem => ?_⟩
  · by_cases hji : j = i
    · subst hji
      rw [Function.update_self]
      exact ⟨fun hj => absurd rfl (hne j hj), fun hj => absurd hj.2 hslot⟩
    · rw [Function.update_of_ne hji]
      exact h.firing j
  · have hmem' : commit.slot ∈ flying claims commits :=
      List.mem_append_right _ (List.mem_map_of_mem hmem)
    rw [Function.update_of_ne (hne _ hmem')]
    exact h.ids commit hmem

theorem Flight.flyingIds_other (h : Flight slots capacity inFlight active claims commits)
    (hi : (slots i).state ≠ .firing) :
    flyingIds (Function.update slots i slot) claims commits = flyingIds slots claims commits := by
  unfold flyingIds
  congr 1
  refine List.map_congr_left fun j hj => ?_
  have hne : j ≠ i := fun heq =>
    hi (heq ▸ ((h.firing j).1 (List.mem_append_left _ hj)).2)
  rw [Function.update_of_ne hne]

theorem Flight.idle (h : Flight slots capacity inFlight false claims commits) :
    claims = [] ∧ commits = [] := by
  have hcount := h.count
  rw [h.single, flying] at hcount
  simpa using hcount

theorem Flight.claim (h : Flight slots capacity inFlight false claims commits) (hi : i < capacity)
    (hslot : slot.state = .firing) :
    Flight (Function.update slots i slot) capacity 1 true (claims ++ [i]) commits := by
  obtain ⟨rfl, rfl⟩ := h.idle
  refine ⟨rfl, rfl, fun j => ?_, fun _ hmem => absurd hmem List.not_mem_nil⟩
  have hj := h.firing j
  simp only [flying, List.map_nil, List.append_nil, List.not_mem_nil, false_iff] at hj
  simp only [flying, List.nil_append, List.map_nil, List.append_nil, List.mem_singleton]
  by_cases hji : j = i
  · subst hji
    simp [hi, hslot]
  · rw [Function.update_of_ne hji]
    exact ⟨fun heq => absurd heq hji, fun hfiring => absurd hfiring hj⟩

theorem Flight.atMostOne (h : Flight slots capacity inFlight active claims commits) :
    claims.length + commits.length ≤ 1 := by
  have hcount := h.count
  rw [h.single, flying, List.length_append, List.length_map] at hcount
  split_ifs at hcount <;> omega

theorem Flight.ofClaim (h : Flight slots capacity inFlight active claims commits)
    (hi : i ∈ claims) : claims = [i] ∧ commits = [] := by
  have hone := h.atMostOne
  have hpos := List.length_pos_of_mem hi
  obtain ⟨j, rfl⟩ := List.length_eq_one_iff.1 (show claims.length = 1 by omega)
  rw [List.mem_singleton.1 hi]
  exact ⟨rfl, List.length_eq_zero_iff.1 (by omega)⟩

theorem Flight.ofCommit (h : Flight slots capacity inFlight active claims commits) {n : ℕ}
    {commit : Commit} (hn : commits[n]? = some commit) :
    claims = [] ∧ commits = [commit] ∧ n = 0 := by
  have hone := h.atMostOne
  obtain ⟨hlt, hget⟩ := List.getElem?_eq_some_iff.1 hn
  obtain ⟨commit', rfl⟩ := List.length_eq_one_iff.1 (show commits.length = 1 by omega)
  obtain rfl : n = 0 := by simpa using hlt
  refine ⟨List.length_eq_zero_iff.1 (by omega), ?_, rfl⟩
  rw [← hget]
  rfl

theorem Flight.send (h : Flight slots capacity inFlight active claims commits) (hi : i ∈ claims)
    (status : MailboxStatus) : Flight slots capacity inFlight active (claims.erase i)
      (commits ++ [⟨i, (slots i).timerId, status⟩]) := by
  obtain ⟨rfl, rfl⟩ := h.ofClaim hi
  rw [List.erase_cons_head]
  exact ⟨h.single, h.count, h.firing, fun commit hmem => by rw [List.mem_singleton.1 hmem]⟩

theorem Flight.settle (h : Flight slots capacity inFlight active claims commits) {n : ℕ}
    {commit : Commit} (hn : commits[n]? = some commit) (hslot : slot.state ≠ .firing) :
    Flight (Function.update slots commit.slot slot) capacity 0 false claims
      (commits.eraseIdx n) := by
  obtain ⟨rfl, rfl, rfl⟩ := h.ofCommit hn
  refine ⟨rfl, rfl, fun j => ?_, fun _ hmem => absurd hmem List.not_mem_nil⟩
  have hj := h.firing j
  simp only [flying, List.map_singleton, List.nil_append, List.mem_singleton] at hj
  simp only [flying, List.eraseIdx_zero, List.tail_cons, List.map_nil, List.append_nil,
    List.not_mem_nil, false_iff]
  by_cases hji : j = commit.slot
  · rw [hji, Function.update_self]
    exact fun hfiring => hslot hfiring.2
  · rw [Function.update_of_ne hji]
    exact fun hfiring => hji (hj.2 hfiring)

/-! ## The ledger -/

variable {timers timers' : Queue} {history : List (Happening τ ν)} {scheduled cancelled fired : ℕ}

theorem Ledger.fresh (h : Ledger timers slots claims commits history scheduled cancelled fired)
    (hid : timers.nextId ≠ 0) : timers.nextId = scheduled + 1 ∧ scheduled + 1 < 2 ^ 64 := by
  have hbound := h.bound
  have hlt : scheduled + 1 < 2 ^ 64 := by
    by_contra hge
    have heq : scheduled + 1 = 2 ^ 64 := by omega
    rw [h.nextId, Word.add, heq, Nat.mod_self] at hid
    exact hid rfl
  rw [h.nextId, Word.add_of_lt hlt]
  exact ⟨rfl, hlt⟩

theorem Ledger.other (h : Ledger timers slots claims commits history scheduled cancelled fired)
    (hflight : Flight slots capacity inFlight active claims commits)
    (hi : (slots i).state ≠ .firing) :
    Ledger timers (Function.update slots i slot) claims commits history scheduled cancelled
      fired := by
  refine ⟨h.nextId, h.nextOrder, h.bound, h.issued, ?_, h.sent, ?_, h.cancels, h.fires⟩
  · rw [hflight.flyingIds_other hi]
    exact h.accounts
  · rw [hflight.flyingIds_other hi]
    exact h.claimed

theorem Ledger.schedule (h : Ledger timers slots claims commits history scheduled cancelled fired)
    (hflight : Flight slots capacity inFlight active claims commits)
    (hi : (slots i).state ≠ .firing) {deadline id : ℕ} {event : EventView τ ν}
    (hs : timers.trySchedule deadline i = some (id, timers')) :
    Ledger timers' (Function.update slots i slot) claims commits
      (history ++ [.scheduled id event]) (scheduled + 1) cancelled fired := by
  unfold Queue.trySchedule at hs
  split_ifs at hs with hroom
  cases hs
  simp only [Bool.or_eq_true, decide_eq_true_eq, not_or] at hroom
  obtain ⟨hid, hlt⟩ := h.fresh hroom.1.2
  have hrange : List.range' 1 (scheduled + 1) = List.range' 1 scheduled ++ [scheduled + 1] := by
    rw [List.range'_concat, one_mul, Nat.add_comm]
  have haccounts := h.accounts
  refine ⟨?_, ?_, hlt, ?_, ?_, ?_, ?_, ?_, ?_⟩
  · dsimp only
    rw [hid]
  · dsimp only
    rw [h.nextOrder]
  · rw [List.filterMap_append, filterMap_singleton, h.issued, hrange, hid]
    rfl
  · rw [List.perm_iff_count] at haccounts ⊢
    intro a
    have ha := haccounts a
    rw [hflight.flyingIds_other hi, hrange, hid]
    simp only [List.filterMap_append, filterMap_singleton, Happening.cancelledId, Happening.settledId, Option.toList_none,
      List.append_nil, List.map_append, List.map_cons, List.map_nil, List.count_append] at ha ⊢
    omega
  · simpa [filterMap_singleton, Happening.sentId, Happening.settledId] using h.sent
  · rw [hflight.flyingIds_other hi]
    simpa [filterMap_singleton, Happening.claimedId, Happening.settledId] using h.claimed
  · simpa [filterMap_singleton, Happening.cancelledId] using h.cancels
  · simpa [filterMap_singleton, Happening.settledId] using h.fires

theorem Ledger.cancel (h : Ledger timers slots claims commits history scheduled cancelled fired)
    (hflight : Flight slots capacity inFlight active claims commits) {task : Task}
    (hi : (slots i).state ≠ .firing) (hr : timers.Removes timers' task) :
    Ledger timers' (Function.update slots i slot) claims commits (history ++ [.cancelled task.id])
      scheduled (cancelled + 1) fired := by
  obtain ⟨⟨pre, post, hpre, hpost⟩, -, hnextId, hnextOrder⟩ := hr
  have haccounts := h.accounts
  refine ⟨hnextId ▸ h.nextId, hnextOrder ▸ h.nextOrder, h.bound, ?_, ?_, ?_, ?_, ?_, ?_⟩
  · simpa [filterMap_singleton, Happening.scheduledId] using h.issued
  · rw [List.perm_iff_count] at haccounts ⊢
    intro a
    have ha := haccounts a
    rw [hflight.flyingIds_other hi, hpost]
    rw [hpre] at ha
    simp only [List.filterMap_append, filterMap_singleton, Happening.cancelledId, Happening.settledId, Option.toList_none,
      Option.toList_some, List.append_nil, List.map_append, List.map_cons, List.count_append,
      List.count_cons, List.count_nil] at ha ⊢
    omega
  · simpa [filterMap_singleton, Happening.sentId, Happening.settledId] using h.sent
  · rw [hflight.flyingIds_other hi]
    simpa [filterMap_singleton, Happening.claimedId, Happening.settledId] using h.claimed
  · simpa [filterMap_singleton, Happening.cancelledId] using h.cancels
  · simpa [filterMap_singleton, Happening.settledId] using h.fires

/-- What the timer queue gave up goes into flight. -/
theorem Ledger.claim (h : Ledger timers slots claims commits history scheduled cancelled fired)
    (hflight : Flight slots capacity inFlight false claims commits) {task : Task}
    (hr : timers.Removes timers' task) (hslot : slot.timerId = task.id) :
    Ledger timers' (Function.update slots i slot) (claims ++ [i]) commits
      (history ++ [.claimed task.id]) scheduled cancelled fired := by
  obtain ⟨rfl, rfl⟩ := hflight.idle
  obtain ⟨⟨pre, post, hpre, hpost⟩, -, hnextId, hnextOrder⟩ := hr
  have haccounts := h.accounts
  refine ⟨hnextId ▸ h.nextId, hnextOrder ▸ h.nextOrder, h.bound, ?_, ?_, ?_, ?_, ?_, ?_⟩
  · simpa [filterMap_singleton, Happening.scheduledId] using h.issued
  · rw [List.perm_iff_count] at haccounts ⊢
    intro a
    have ha := haccounts a
    rw [hpost]
    rw [hpre] at ha
    simp only [List.filterMap_append, filterMap_singleton, Happening.cancelledId, Happening.settledId, Option.toList_none,
      List.append_nil, List.map_append, List.map_cons, List.map_nil, List.count_append,
      List.count_cons, List.count_nil, flyingIds, List.nil_append, Function.update_self,
      hslot] at ha ⊢
    omega
  · simpa [filterMap_singleton, Happening.sentId, Happening.settledId] using h.sent
  · simpa [filterMap_singleton, Happening.claimedId, Happening.settledId, flyingIds, hslot]
      using h.claimed
  · simpa [filterMap_singleton, Happening.cancelledId] using h.cancels
  · simpa [filterMap_singleton, Happening.settledId] using h.fires

theorem Ledger.send (h : Ledger timers slots claims commits history scheduled cancelled fired)
    (hflight : Flight slots capacity inFlight active claims commits) (hi : i ∈ claims)
    (event : Option (EventView τ ν)) (status : MailboxStatus) :
    Ledger timers slots (claims.erase i) (commits ++ [⟨i, (slots i).timerId, status⟩])
      (history ++ [.sent (slots i).timerId event status]) scheduled cancelled fired := by
  obtain ⟨rfl, rfl⟩ := hflight.ofClaim hi
  refine ⟨h.nextId, h.nextOrder, h.bound, ?_, ?_, ?_, ?_, ?_, ?_⟩
  · simpa [filterMap_singleton, Happening.scheduledId] using h.issued
  · simpa [filterMap_singleton, Happening.cancelledId, Happening.settledId, flyingIds]
      using h.accounts
  · simpa [filterMap_singleton, Happening.sentId, Happening.settledId] using h.sent
  · simpa [filterMap_singleton, Happening.claimedId, Happening.settledId, flyingIds] using h.claimed
  · simpa [filterMap_singleton, Happening.cancelledId] using h.cancels
  · simpa [filterMap_singleton, Happening.settledId] using h.fires

theorem Ledger.settle (h : Ledger timers slots claims commits history scheduled cancelled fired)
    (hflight : Flight slots capacity inFlight active claims commits) {n : ℕ} {commit : Commit}
    (hn : commits[n]? = some commit) :
    Ledger timers (Function.update slots commit.slot slot) claims (commits.eraseIdx n)
      (history ++ [.settled commit.id commit.status]) scheduled cancelled (fired + 1) := by
  obtain ⟨rfl, rfl, rfl⟩ := hflight.ofCommit hn
  have haccounts := h.accounts
  refine ⟨h.nextId, h.nextOrder, h.bound, ?_, ?_, ?_, ?_, ?_, ?_⟩
  · simpa [filterMap_singleton, Happening.scheduledId] using h.issued
  · rw [List.perm_iff_count] at haccounts ⊢
    intro a
    have ha := haccounts a
    simp only [List.filterMap_append, filterMap_singleton, Happening.cancelledId, Happening.settledId, Option.toList_none,
      Option.toList_some, List.append_nil, List.map_cons, List.map_nil, List.count_append,
      List.count_cons, List.count_nil, flyingIds, List.eraseIdx_zero, List.tail_cons] at ha ⊢
    omega
  · simpa [filterMap_singleton, Happening.sentId, Happening.settledId] using h.sent
  · simpa [filterMap_singleton, Happening.claimedId, Happening.settledId, flyingIds] using h.claimed
  · simpa [filterMap_singleton, Happening.cancelledId] using h.cancels
  · simpa [filterMap_singleton, Happening.settledId] using h.fires

theorem Ledger.nodup
    (h : Ledger timers slots claims commits history scheduled cancelled fired) :
    (history.filterMap Happening.cancelledId ++ history.filterMap Happening.settledId ++
      timers.items.map (·.id) ++ flyingIds slots claims commits).Nodup :=
  h.accounts.nodup_iff.1 List.nodup_range'

theorem Ledger.ids_nodup
    (h : Ledger timers slots claims commits history scheduled cancelled fired) :
    (timers.items.map (·.id)).Nodup :=
  (List.nodup_append'.1 (List.nodup_append'.1 h.nodup).1).2.1

theorem Consistent.pending_perm (h : Consistent items slots capacity) :
    (items.map (·.user)).Perm ((List.range capacity).filter fun i => (slots i).state = .pending) := by
  rw [List.perm_ext_iff_of_nodup h.users (List.nodup_range.filter _)]
  intro i
  rw [List.mem_map, List.mem_filter, List.mem_range, decide_eq_true_eq]
  constructor
  · rintro ⟨task, hmem, rfl⟩
    exact ⟨(h.entry task hmem).1, (h.entry task hmem).2.1⟩
  · rintro ⟨hi, hpending⟩
    exact h.slot i hi hpending

theorem Consistent.ids_perm (h : Consistent items slots capacity) :
    (items.map (·.id)).Perm (((List.range capacity).filter fun i =>
      (slots i).state = .pending).map fun i => (slots i).timerId) := by
  have hids : items.map (·.id) = (items.map (·.user)).map fun i => (slots i).timerId := by
    rw [List.map_map]
    exact List.map_congr_left fun task hmem => (h.entry task hmem).2.2.symm
  rw [hids]
  exact h.pending_perm.map _

/-- A close cancels what is pending, and leaves the flight alone. -/
theorem Ledger.close (h : Ledger timers slots claims commits history scheduled cancelled fired)
    (hcons : Consistent timers.items slots capacity) {slots' : ℕ → Slot τ}
    (hflying : flyingIds slots' claims commits = flyingIds slots claims commits) {pending : List ℕ}
    (hpending : pending = (List.range capacity).filter fun i => (slots i).state = .pending) :
    Ledger { timers with items := [] } slots' claims commits
      (history ++ pending.map fun i => .cancelled (slots i).timerId) scheduled
      (cancelled + pending.length) fired := by
  have hids : (pending.map fun i => (.cancelled (slots i).timerId : Happening τ ν)).filterMap
      Happening.cancelledId = pending.map fun i => (slots i).timerId := by
    rw [List.filterMap_map, ← List.filterMap_eq_map]
    rfl
  have hnone : ∀ f : Happening τ ν → Option ℕ, (∀ id, f (.cancelled id) = none) →
      (pending.map fun i => (.cancelled (slots i).timerId : Happening τ ν)).filterMap f = [] := by
    intro f hf
    rw [List.filterMap_map, List.filterMap_eq_nil_iff]
    exact fun i _ => hf _
  refine ⟨h.nextId, h.nextOrder, h.bound, ?_, ?_, ?_, ?_, ?_, ?_⟩
  · rw [List.filterMap_append, hnone _ fun _ => rfl, List.append_nil, h.issued]
  · have hperm := hcons.ids_perm
    rw [← hpending] at hperm
    have haccounts := h.accounts
    rw [List.perm_iff_count] at haccounts hperm ⊢
    intro a
    have ha := haccounts a
    have hp := hperm a
    rw [List.filterMap_append, List.filterMap_append, hids, hnone Happening.settledId fun _ => rfl,
      hflying]
    simp only [List.count_append, List.append_nil, List.map_nil] at ha ⊢
    omega
  · rw [List.filterMap_append, List.filterMap_append, hnone _ fun _ => rfl, hnone _ fun _ => rfl,
      List.append_nil, List.append_nil, h.sent]
  · rw [List.filterMap_append, List.filterMap_append, hnone _ fun _ => rfl, hnone _ fun _ => rfl,
      List.append_nil, List.append_nil, hflying, h.claimed]
  · rw [List.filterMap_append, hids, List.length_append, List.length_map, h.cancels]
  · rw [List.filterMap_append, hnone _ fun _ => rfl, List.append_nil, h.fires]

/-! ## What the slots hold -/

variable {payloads : ℕ → Option ν}

/-- Slots may be emptied, and change their state while they hold something. -/
theorem Recorded.keep (h : Recorded slots payloads capacity history) {slots' : ℕ → Slot τ}
    {payloads' : ℕ → Option ν} (hslots : ∀ j, (slots' j).state = .free ∨
      (slots j).state ≠ .free ∧ payloads' j = payloads j ∧
        ∃ state, slots' j = { slots j with state := state }) {more : List (Happening τ ν)}
    (hmore : more.filterMap Happening.sentId = []) :
    Recorded slots' payloads' capacity (history ++ more) := by
  refine ⟨fun j hj hstate => ?_, fun id event status hmem => ?_⟩
  · rcases hslots j with hfree | ⟨hstate, hpayloads, state, hslot⟩
    · exact absurd hfree hstate
    · obtain ⟨type, payload, hheld, hpayload, hmem⟩ := h.held j hj hstate
      rw [hslot, hpayloads]
      exact ⟨type, payload, hheld, hpayload, List.mem_append_left _ hmem⟩
  · rcases List.mem_append.1 hmem with hmem | hmem
    · obtain ⟨event', heq, hmem'⟩ := h.sent id event status hmem
      exact ⟨event', heq, List.mem_append_left _ hmem'⟩
    · have hnone := List.filterMap_eq_nil_iff.1 hmore _ hmem
      cases hnone

theorem Recorded.release (h : Recorded slots payloads capacity history)
    {payloads' : ℕ → Option ν} (hpayloads : ∀ j ≠ i, payloads' j = payloads j)
    {more : List (Happening τ ν)} (hmore : more.filterMap Happening.sentId = []) :
    Recorded (Function.update slots i .released) payloads' capacity (history ++ more) := by
  refine h.keep (fun j => ?_) hmore
  by_cases hji : j = i
  · subst hji
    rw [Function.update_self]
    exact .inl rfl
  · rw [Function.update_of_ne hji]
    by_cases hfree : (slots j).state = .free
    · exact .inl hfree
    · exact .inr ⟨hfree, hpayloads j hji, _, rfl⟩

theorem Recorded.claim (h : Recorded slots payloads capacity history)
    (hi : (slots i).state ≠ .free) (state : SlotState) {more : List (Happening τ ν)}
    (hmore : more.filterMap Happening.sentId = []) :
    Recorded (Function.update slots i { slots i with state := state }) payloads capacity
      (history ++ more) := by
  refine h.keep (fun j => ?_) hmore
  by_cases hji : j = i
  · subst hji
    rw [Function.update_self]
    exact .inr ⟨hi, rfl, _, rfl⟩
  · rw [Function.update_of_ne hji]
    by_cases hfree : (slots j).state = .free
    · exact .inl hfree
    · exact .inr ⟨hfree, rfl, _, rfl⟩

/-- What is sent is what the slot holds. -/
theorem Recorded.send (h : Recorded slots payloads capacity history) (hi : i < capacity)
    (hstate : (slots i).state ≠ .free) (status : MailboxStatus) :
    Recorded slots payloads capacity (history ++ [.sent (slots i).timerId
      ((slots i).payloadType.bind fun type => (payloads i).map fun payload =>
        ⟨(slots i).eventId, type, payload⟩) status]) := by
  refine ⟨fun j hj hstate => ?_, fun id event status' hmem => ?_⟩
  · obtain ⟨type, payload, hheld, hpayload, hmem⟩ := h.held j hj hstate
    exact ⟨type, payload, hheld, hpayload, List.mem_append_left _ hmem⟩
  · rcases List.mem_append.1 hmem with hmem | hmem
    · obtain ⟨event', heq, hmem'⟩ := h.sent id event status' hmem
      exact ⟨event', heq, List.mem_append_left _ hmem'⟩
    · obtain ⟨type, payload, hheld, hpayload, hscheduled⟩ := h.held i hi hstate
      rw [List.mem_singleton] at hmem
      cases hmem
      refine ⟨⟨(slots i).eventId, type, payload⟩, ?_, List.mem_append_left _ hscheduled⟩
      rw [hheld, hpayload]
      rfl

theorem Recorded.schedule (h : Recorded slots payloads capacity history) {id scope : ℕ}
    (event : EventView τ ν) (type : τ) (state : SlotState) :
    Recorded (Function.update slots i ⟨id, event.id, scope, some type, state⟩)
      (Function.update payloads i (some event.payload)) capacity
      (history ++ [.scheduled id ⟨event.id, type, event.payload⟩]) := by
  refine ⟨fun j hj hstate => ?_, fun id' event' status hmem => ?_⟩
  · by_cases hji : j = i
    · subst hji
      rw [Function.update_self, Function.update_self]
      exact ⟨type, event.payload, rfl, rfl,
        List.mem_append_right _ (List.mem_singleton_self _)⟩
    · rw [Function.update_of_ne hji] at hstate ⊢
      rw [Function.update_of_ne hji]
      obtain ⟨type', payload, hheld, hpayload, hmem⟩ := h.held j hj hstate
      exact ⟨type', payload, hheld, hpayload, List.mem_append_left _ hmem⟩
  · rcases List.mem_append.1 hmem with hmem | hmem
    · obtain ⟨found, heq, hmem'⟩ := h.sent id' event' status hmem
      exact ⟨found, heq, List.mem_append_left _ hmem'⟩
    · rw [List.mem_singleton] at hmem
      cases hmem

end Views

end Cflow.Timer
