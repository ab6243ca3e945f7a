import TurboUtils.Concurrency.Deadline.Calls

/-! Every event that is scheduled is taken, cancelled or pending, under an id of its own. -/
namespace Concurrency.Deadline

open BinaryHeap

/-! ## Ids -/

theorem makeId_eq {slot generation : ℕ} (h : slot + 1 < 2 ^ 32) :
    makeId slot generation = generation * 2 ^ 32 + (slot + 1) := by
  rw [makeId, Nat.shiftLeft_eq, Nat.mul_comm]
  exact (Nat.two_pow_add_eq_or_of_lt h generation).symm

theorem decodeId_makeId {slot generation : ℕ} (h : slot + 1 < 2 ^ 32) (hpos : 0 < generation) :
    decodeId (makeId slot generation) = some (slot, generation) := by
  have hmod : makeId slot generation % 2 ^ 32 = slot + 1 := by
    rw [makeId_eq h]
    omega
  have hdiv : makeId slot generation >>> 32 = generation := by
    rw [makeId_eq h, Nat.shiftRight_eq_div_pow]
    omega
  unfold decodeId
  dsimp only
  rw [hmod, hdiv, if_neg (by omega)]
  rfl

theorem decodeId_eq_some {id slot generation : ℕ} (h : decodeId id = some (slot, generation)) :
    slot + 1 < 2 ^ 32 ∧ 0 < generation ∧ id = makeId slot generation := by
  unfold decodeId at h
  dsimp only at h
  split_ifs at h with hzero
  cases h
  rw [Nat.shiftRight_eq_div_pow] at hzero ⊢
  have hslot : id % 2 ^ 32 - 1 + 1 < 2 ^ 32 := by omega
  refine ⟨hslot, by omega, ?_⟩
  rw [makeId_eq hslot]
  omega

theorem makeId_inj {s t g g' : ℕ} (hs : s + 1 < 2 ^ 32) (ht : t + 1 < 2 ^ 32)
    (h : makeId s g = makeId t g') : s = t ∧ g = g' := by
  rw [makeId_eq hs, makeId_eq ht] at h
  omega

/-! ## Runs -/

inductive Call where
  | schedule (deadlineMs token : ℕ)
  | cancel (id : ℕ)
  | peek
  | takeReady (nowMs : ℕ)

inductive Answer where
  | scheduled (id : ℕ)
  | returned (event : Event)
  | shown (event : Event)
  | failed (status : Status)
  deriving DecidableEq, Repr

/-- A queue, and the events that were scheduled and given back, in order. -/
structure World where
  queue : Queue
  issued : List Event
  returned : List Event

def World.perform (w : World) : Call → World × Answer
  | .schedule deadlineMs token =>
      match w.queue.schedule deadlineMs token with
      | .error status => (w, .failed status)
      | .ok (id, q) =>
          ({ w with queue := q, issued := w.issued ++ [⟨id, deadlineMs, token⟩] }, .scheduled id)
  | .cancel id =>
      match w.queue.cancel id with
      | .error status => (w, .failed status)
      | .ok (event, q) => ({ w with queue := q, returned := w.returned ++ [event] }, .returned event)
  | .peek =>
      match w.queue.peek with
      | .error status => (w, .failed status)
      | .ok event => (w, .shown event)
  | .takeReady nowMs =>
      match w.queue.takeReady nowMs with
      | .error status => (w, .failed status)
      | .ok (event, q) => ({ w with queue := q, returned := w.returned ++ [event] }, .returned event)

def World.run (w : World) (calls : List Call) : World := calls.foldl (fun w call => (w.perform call).1) w

/-- The slot has had the generation, and will not have it again. -/
def Queue.Spent (q : Queue) (slot generation : ℕ) : Prop :=
  (q.entries slot).generation = 0 ∨ generation < (q.entries slot).generation ∨
    generation = (q.entries slot).generation ∧ (q.entries slot).active = true

namespace World

/-- What holds of a queue and its history between two calls. -/
structure Settled (w : World) : Prop where
  valid : w.queue.Valid
  balance : w.issued.Perm (w.returned ++ w.queue.pending)
  admitted : ∀ s ∈ w.queue.slots,
    w.issued[(w.queue.entries s).order]? = some (w.queue.entries s).event
  length : w.issued.length = w.queue.nextOrder
  spent : ∀ event ∈ w.issued, ∃ s g, event.id = makeId s g ∧ s < w.queue.capacity ∧
    w.queue.Spent s g
  fresh : (w.issued.map Event.id).Nodup

variable {w : World}

theorem Settled.slot_lt (h : w.Settled) {s : ℕ} (hs : s < w.queue.capacity) : s + 1 < 2 ^ 32 := by
  have hcapacity := h.valid.capacity
  unfold uint32Max at hcapacity
  omega

theorem removed_pending {q q' : Queue} {slot : ℕ} (h : q.Removed q' slot) (hlinked : q.Linked) :
    ((q.entries slot).event :: q'.pending).Perm q.pending := by
  have hevents : q'.pending = q'.slots.map fun s => (q.entries s).event :=
    List.map_congr_left fun s hs => (h.others s (h.ne hlinked hs)).1
  rw [hevents]
  exact h.slots.map fun s => (q.entries s).event

theorem Settled.remove (h : w.Settled) {q' : Queue} {slot : ℕ}
    (hremoved : w.queue.Removed q' slot) (hslot : slot ∈ w.queue.slots) :
    Settled ⟨q', w.issued, w.returned ++ [(w.queue.entries slot).event]⟩ := by
  refine ⟨hremoved.valid, ?_, ?_, ?_, ?_, h.fresh⟩
  · rw [List.append_assoc]
    exact h.balance.trans ((removed_pending hremoved h.valid.linked).symm.append_left _)
  · intro s hs
    obtain ⟨hevent, horder, -⟩ := hremoved.others s (hremoved.ne h.valid.linked hs)
    rw [hevent, horder]
    exact h.admitted s (hremoved.slots.subset (List.mem_cons_of_mem _ hs))
  · rw [hremoved.nextOrder]
    exact h.length
  · intro event hevent
    obtain ⟨s, g, hid, hbound, hspent⟩ := h.spent event hevent
    refine ⟨s, g, hid, hremoved.capacity ▸ hbound, ?_⟩
    by_cases heq : s = slot
    · subst heq
      rcases hremoved.generation with hzero | hnext
      · exact Or.inl hzero
      · rcases hspent with hzero | hlt | ⟨heq, -⟩
        · exact absurd hzero fun hzero => by
            have hactive := (h.valid.inHeap s hslot).2
            rw [((h.valid.retired s hbound).1 hzero).1] at hactive
            cases hactive
        · exact Or.inr (Or.inl ((Nat.lt_succ_of_lt hlt).trans_eq hnext.symm))
        · exact Or.inr (Or.inl ((Nat.lt_succ_of_le heq.le).trans_eq hnext.symm))
    · obtain ⟨-, -, hgeneration, hactive⟩ := hremoved.others s heq
      rw [Queue.Spent, hgeneration, hactive]
      exact hspent

theorem Settled.schedule (h : w.Settled) {q' : Queue} {slot deadlineMs token : ℕ}
    (hscheduled : w.queue.Scheduled q' slot deadlineMs token) :
    Settled ⟨q', w.issued ++
      [⟨makeId slot (w.queue.entries slot).generation, deadlineMs, token⟩], w.returned⟩ := by
  have hne {s : ℕ} (hs : s ∈ w.queue.slots) : s ≠ slot := fun heq =>
    h.valid.notMem hscheduled.free (heq ▸ hs)
  obtain ⟨hbound, hinactive⟩ := h.valid.ofFree slot hscheduled.free
  have hpending : q'.pending.Perm
      (⟨makeId slot (w.queue.entries slot).generation, deadlineMs, token⟩ :: w.queue.pending) := by
    refine (hscheduled.slots.map _).trans ?_
    rw [List.map_cons, hscheduled.event]
    refine (List.Perm.of_eq ?_).cons _
    exact List.map_congr_left fun s hs => (hscheduled.others s (hne hs)).1
  refine ⟨hscheduled.valid, ?_, ?_, ?_, ?_, ?_⟩
  · refine (List.perm_append_singleton _ _).trans ?_
    refine (h.balance.cons _).trans ?_
    exact List.perm_middle.symm.trans (hpending.symm.append_left _)
  · intro s hs
    rcases List.mem_cons.1 (hscheduled.slots.subset hs) with rfl | hs
    · rw [hscheduled.order, hscheduled.event, ← h.length]
      exact List.getElem?_concat_length
    · obtain ⟨hevent, horder, -⟩ := hscheduled.others s (hne hs)
      rw [hevent, horder, List.getElem?_append_left]
      · exact h.admitted s hs
      · rw [h.length]
        exact h.valid.orders s hs
  · rw [List.length_append, List.length_singleton, hscheduled.nextOrder, h.length]
  · intro event hevent
    rcases List.mem_append.1 hevent with hold | hnew
    · obtain ⟨s, g, hid, hs, hspent⟩ := h.spent event hold
      refine ⟨s, g, hid, hscheduled.capacity ▸ hs, ?_⟩
      rw [Queue.Spent, hscheduled.generation]
      refine hspent.imp_right (Or.imp_right fun hgeneration => ⟨hgeneration.1, ?_⟩)
      by_cases heq : s = slot
      · rw [heq]
        exact hscheduled.active
      · rw [(hscheduled.others s heq).2.2]
        exact hgeneration.2
    · rw [List.mem_singleton] at hnew
      rw [hnew]
      refine ⟨slot, _, rfl, hscheduled.capacity ▸ hbound, Or.inr (Or.inr ⟨?_, hscheduled.active⟩)⟩
      rw [hscheduled.generation]
  · rw [List.map_append, List.map_singleton, ← List.concat_eq_append]
    refine h.fresh.concat fun hmem => ?_
    obtain ⟨event, hevent, heq⟩ := List.mem_map.1 hmem
    obtain ⟨s, g, hid, hs, hspent⟩ := h.spent event hevent
    obtain ⟨rfl, rfl⟩ := makeId_inj (h.slot_lt hs) (h.slot_lt hbound) (hid.symm.trans heq)
    rcases hspent with hzero | hlt | ⟨-, hactive⟩
    · exact h.valid.generation_ne hscheduled.free hzero
    · exact lt_irrefl _ hlt
    · rw [hinactive] at hactive
      cases hactive

/-! ## Calls -/

theorem Settled.remove_slot (h : w.Settled) {slot : ℕ} (hslot : slot ∈ w.queue.slots) :
    ∃ q', w.queue.remove (w.queue.entries slot).heapIndex = ((w.queue.entries slot).event, q') ∧
      Settled ⟨q', w.issued, w.returned ++ [(w.queue.entries slot).event]⟩ := by
  obtain ⟨k, hk, rfl⟩ := mem_elements.1 hslot
  rw [h.valid.linked k hk]
  obtain ⟨q', hremove, hremoved⟩ := Queue.remove_removed h.valid hk
  exact ⟨q', hremove, h.remove hremoved hslot⟩

/-- The event comes first, by its deadline and then by its admission, of those that are pending. -/
def Least (w : World) (event : Event) : Prop :=
  ∃ i : ℕ, w.issued[i]? = some event ∧ event ∈ w.queue.pending ∧
    ∀ (j : ℕ) (other : Event), w.issued[j]? = some other → other ∈ w.queue.pending →
      event.deadlineMs < other.deadlineMs ∨ event.deadlineMs = other.deadlineMs ∧ i ≤ j

theorem Settled.slot_of_pending (h : w.Settled) {event : Event} (hevent : event ∈ w.queue.pending) :
    ∃ s ∈ w.queue.slots, (w.queue.entries s).event = event ∧
      ∀ j, w.issued[j]? = some event → j = (w.queue.entries s).order := by
  obtain ⟨s, hs, rfl⟩ := List.mem_map.1 hevent
  refine ⟨s, hs, rfl, fun j hj => ?_⟩
  obtain ⟨hlt, -⟩ := List.getElem?_eq_some_iff.1 hj
  refine (List.getElem?_inj ((List.length_map ..).symm ▸ hlt) h.fresh).1 ?_
  rw [List.getElem?_map, List.getElem?_map, hj, h.admitted s hs]

theorem Settled.least_root (h : w.Settled) (hsize : w.queue.size ≠ 0) :
    w.Least (w.queue.entries (w.queue.heap 0)).event := by
  have hroot : w.queue.heap 0 ∈ w.queue.slots :=
    mem_elements.2 ⟨0, Nat.pos_of_ne_zero hsize, rfl⟩
  refine ⟨_, h.admitted _ hroot, List.mem_map_of_mem hroot, fun j other hj hother => ?_⟩
  obtain ⟨s, hs, rfl, horder⟩ := h.slot_of_pending hother
  obtain ⟨i, hi, rfl⟩ := mem_elements.1 hs
  rw [horder j hj]
  exact isLE_byKey.1 (h.valid.ordered.root hi)

/-- A call to take an event takes the first one if it is due, and else changes nothing. -/
theorem Settled.takeReady (h : w.Settled) (nowMs : ℕ) :
    (∃ event, w.Least event ∧ event.deadlineMs ≤ nowMs ∧
      (w.perform (.takeReady nowMs)).2 = .returned event) ∨
    (∀ event ∈ w.queue.pending, nowMs < event.deadlineMs) ∧
      w.perform (.takeReady nowMs) = (w, .failed .timedOut) := by
  by_cases hready : w.queue.size = 0 ∨
      nowMs < (w.queue.entries (w.queue.heap 0)).event.deadlineMs
  · refine Or.inr ⟨fun event hevent => ?_, ?_⟩
    · obtain ⟨s, hs, rfl, -⟩ := h.slot_of_pending hevent
      obtain ⟨i, hi, rfl⟩ := mem_elements.1 hs
      have hlt := hready.resolve_left (Nat.ne_zero_of_lt hi)
      rcases isLE_byKey.1 (h.valid.ordered.root hi) with hless | ⟨heq, -⟩
      · exact hlt.trans hless
      · exact hlt.trans_eq heq
    · rw [perform, Queue.takeReady, if_pos hready]
  · obtain ⟨hsize, hdue⟩ := not_or.1 hready
    refine Or.inl ⟨_, h.least_root hsize, not_lt.1 hdue, ?_⟩
    rw [perform, Queue.takeReady, if_neg hready]
    rfl

/-- A call to cancel takes the event that is pending under the id, and else changes nothing. -/
theorem Settled.cancel (h : w.Settled) (id : ℕ) :
    (∃ event ∈ w.queue.pending, event.id = id ∧ (w.perform (.cancel id)).2 = .returned event) ∨
    (∀ event ∈ w.queue.pending, event.id ≠ id) ∧
      ∃ status, w.perform (.cancel id) = (w, .failed status) := by
  -- a pending event has the id of its slot and the generation there
  have hpending {event : Event} (hevent : event ∈ w.queue.pending) : ∃ s < w.queue.capacity,
      (w.queue.entries s).active = true ∧
        decodeId event.id = some (s, (w.queue.entries s).generation) := by
    obtain ⟨s, hs, rfl, -⟩ := h.slot_of_pending hevent
    obtain ⟨hbound, hactive⟩ := h.valid.inHeap s hs
    refine ⟨s, hbound, hactive, ?_⟩
    rw [h.valid.ids s hs]
    refine decodeId_makeId (h.slot_lt hbound) (Nat.pos_of_ne_zero fun hzero => ?_)
    rw [((h.valid.retired s hbound).1 hzero).1] at hactive
    cases hactive
  rw [perform, Queue.cancel]
  cases hdecode : decodeId id with
  | none =>
    refine Or.inr ⟨fun event hevent heq => ?_, _, rfl⟩
    obtain ⟨s, -, -, hid⟩ := hpending hevent
    rw [heq, hdecode] at hid
    cases hid
  | some decoded =>
    obtain ⟨slot, generation⟩ := decoded
    dsimp only
    split_ifs with hbound hentry
    · refine Or.inr ⟨fun event hevent heq => ?_, _, rfl⟩
      obtain ⟨s, hs, -, hid⟩ := hpending hevent
      rw [heq, hdecode] at hid
      cases hid
      exact absurd hs (not_lt.2 hbound)
    · refine Or.inr ⟨fun event hevent heq => ?_, _, rfl⟩
      obtain ⟨s, -, hactive, hid⟩ := hpending hevent
      rw [heq, hdecode] at hid
      cases hid
      simp [hactive] at hentry
    · rw [Bool.or_eq_true, not_or, Bool.not_eq_true', Bool.not_eq_false, decide_eq_true_eq,
        not_not] at hentry
      obtain ⟨hactive, rfl⟩ := hentry
      have hslot := h.valid.ofActive slot (not_le.1 hbound) hactive
      obtain ⟨q', hremove, -⟩ := h.remove_slot hslot
      refine Or.inl ⟨_, List.mem_map_of_mem hslot, ?_, by rw [hremove]⟩
      rw [h.valid.ids slot hslot]
      exact (decodeId_eq_some hdecode).2.2.symm

theorem Settled.peek (h : w.Settled) :
    (∃ event, w.Least event ∧ w.perform .peek = (w, .shown event)) ∨
    w.queue.pending = [] ∧ w.perform .peek = (w, .failed .timedOut) := by
  by_cases hsize : w.queue.size = 0
  · refine Or.inr ⟨?_, ?_⟩
    · rw [Queue.pending, Queue.slots, hsize]
      rfl
    · rw [perform, Queue.peek, if_pos hsize]
  · refine Or.inl ⟨_, h.least_root hsize, ?_⟩
    rw [perform, Queue.peek, if_neg hsize]

theorem Settled.perform (h : w.Settled) (call : Call) : (w.perform call).1.Settled := by
  cases call with
  | schedule deadlineMs token =>
    rw [World.perform]
    cases hschedule : w.queue.schedule deadlineMs token with
    | error status => exact h
    | ok scheduled =>
      obtain ⟨id, q⟩ := scheduled
      obtain ⟨slot, hscheduled, rfl⟩ := Queue.schedule_scheduled h.valid hschedule
      exact h.schedule hscheduled
  | cancel id =>
    rw [World.perform]
    cases hcancel : w.queue.cancel id with
    | error status => exact h
    | ok cancelled =>
      obtain ⟨event, q⟩ := cancelled
      unfold Queue.cancel at hcancel
      cases hdecode : decodeId id with
      | none =>
        rw [hdecode] at hcancel
        cases hcancel
      | some decoded =>
        rw [hdecode] at hcancel
        dsimp only at hcancel
        split_ifs at hcancel with hbound hentry
        rw [Bool.or_eq_true, not_or, Bool.not_eq_true', Bool.not_eq_false] at hentry
        obtain ⟨q', hremove, hsettled⟩ :=
          h.remove_slot (h.valid.ofActive _ (not_le.1 hbound) hentry.1)
        rw [hremove] at hcancel
        cases hcancel
        exact hsettled
  | peek =>
    rcases h.peek with ⟨event, -, hpeek⟩ | ⟨-, hpeek⟩
    · rw [hpeek]
      exact h
    · rw [hpeek]
      exact h
  | takeReady nowMs =>
    rw [World.perform, Queue.takeReady]
    split_ifs with hready
    · exact h
    · have hpos := Nat.pos_of_ne_zero (not_or.1 hready).1
      obtain ⟨q', hremove, hremoved⟩ := Queue.remove_removed h.valid hpos
      rw [hremove]
      exact h.remove hremoved (mem_elements.2 ⟨0, hpos, rfl⟩)

theorem Settled.run (h : w.Settled) (calls : List Call) : (w.run calls).Settled := by
  induction calls generalizing w with
  | nil => exact h
  | cons call calls ih => exact ih (h.perform call)

theorem settled_init {capacity : ℕ} {memory : Bool} {q : Queue}
    (hinit : init capacity memory = .ok q) : Settled ⟨q, [], []⟩ := by
  unfold init at hinit
  split_ifs at hinit with hzero hrange hmemory
  cases hinit
  have hmem {s : ℕ} : s ∈ elements (fun index => capacity - index - 1) capacity ↔ s < capacity := by
    rw [mem_elements]
    constructor
    · rintro ⟨i, hi, rfl⟩
      omega
    · exact fun hs => ⟨capacity - s - 1, by omega, by omega⟩
  refine ⟨⟨?_, ?_, ?_, ?_, ?_, ?_, ?_, ?_, not_lt.1 hrange, ?_, ?_, ?_⟩, .refl _, ?_, rfl, ?_, .nil⟩
  · exact fun i hi => absurd hi (Nat.not_lt_zero i)
  · exact fun i _ hi => absurd hi (Nat.not_lt_zero i)
  · exact fun s hs => absurd hs List.not_mem_nil
  · exact fun s _ hactive => Bool.noConfusion hactive
  · refine List.Nodup.map_on (fun i hi j hj heq => ?_) List.nodup_range
    have hi : i < capacity := List.mem_range.1 hi
    have hj : j < capacity := List.mem_range.1 hj
    dsimp only at heq
    omega
  · exact fun s hs => ⟨hmem.1 hs, rfl⟩
  · exact fun s _ => Nat.le_of_ble_eq_true rfl
  · exact fun s hs => iff_of_false one_ne_zero fun h => h.2 (hmem.2 hs)
  · exact fun s hs => absurd hs List.not_mem_nil
  · exact fun s hs => absurd hs List.not_mem_nil
  · exact fun s hs => absurd hs List.not_mem_nil
  · exact fun s hs => absurd hs List.not_mem_nil
  · exact fun event hevent => absurd hevent List.not_mem_nil

/-- A slot is active, on the free list once, or retired. -/
structure Kept (q : Queue) (s : ℕ) : Prop where
  kinds : (q.entries s).active = true ∧ q.free.count s = 0 ∧ (q.entries s).generation ≠ 0 ∨
    (q.entries s).active = false ∧ q.free.count s = 1 ∧ (q.entries s).generation ≠ 0 ∨
    (q.entries s).active = false ∧ q.free.count s = 0 ∧ (q.entries s).generation = 0
  place : (q.entries s).active = true →
    (q.entries s).heapIndex < q.size ∧ q.heap (q.entries s).heapIndex = s

theorem Settled.kept (h : w.Settled) {s : ℕ} (hs : s < w.queue.capacity) : Kept w.queue s := by
  constructor
  · have hretired := h.valid.retired s hs
    by_cases hfree : s ∈ w.queue.free
    · have hcount := List.count_eq_one_of_mem h.valid.freeNodup hfree
      exact Or.inr (Or.inl ⟨(h.valid.ofFree s hfree).2, hcount, h.valid.generation_ne hfree⟩)
    · have hcount := List.count_eq_zero_of_not_mem hfree
      cases hactive : (w.queue.entries s).active with
      | false => exact Or.inr (Or.inr ⟨rfl, hcount, hretired.2 ⟨hactive, hfree⟩⟩)
      | true =>
        refine Or.inl ⟨rfl, hcount, fun hzero => ?_⟩
        rw [(hretired.1 hzero).1] at hactive
        cases hactive
  · intro hactive
    obtain ⟨k, hk, rfl⟩ := mem_elements.1 (h.valid.ofActive s hs hactive)
    rw [h.valid.linked k hk]
    exact ⟨hk, rfl⟩

/-- A deadline queue keeps its places, and settles its events. -/
structure Sound (w : World) : Prop where
  inHeap : ∀ i < w.queue.size, w.queue.heap i < w.queue.capacity ∧
    (w.queue.entries (w.queue.heap i)).active = true ∧
      (w.queue.entries (w.queue.heap i)).heapIndex = i
  slots : ∀ s < w.queue.capacity, Kept w.queue s
  free : ∀ s ∈ w.queue.free, s < w.queue.capacity
  ordered : Ordered (byKey w.queue.key) w.queue.heap w.queue.size
  balance : w.issued.Perm (w.returned ++ w.queue.pending)
  fresh : (w.issued.map Event.id).Nodup
  takeReady : ∀ nowMs,
    (∃ event, w.Least event ∧ event.deadlineMs ≤ nowMs ∧
      (w.perform (.takeReady nowMs)).2 = .returned event) ∨
    (∀ event ∈ w.queue.pending, nowMs < event.deadlineMs) ∧
      w.perform (.takeReady nowMs) = (w, .failed .timedOut)
  cancel : ∀ id,
    (∃ event ∈ w.queue.pending, event.id = id ∧ (w.perform (.cancel id)).2 = .returned event) ∨
    (∀ event ∈ w.queue.pending, event.id ≠ id) ∧
      ∃ status, w.perform (.cancel id) = (w, .failed status)
  peek : (∃ event, w.Least event ∧ w.perform .peek = (w, .shown event)) ∨
    w.queue.pending = [] ∧ w.perform .peek = (w, .failed .timedOut)

/-- After any calls the queue is sound. -/
theorem deadline_queue_settles {capacity : ℕ} {memory : Bool} {q : Queue}
    (hinit : init capacity memory = .ok q) (calls : List Call) :
    ((⟨q, [], []⟩ : World).run calls).Sound := by
  have h := (settled_init hinit).run calls
  refine ⟨fun i hi => ?_, fun s => h.kept, fun s hs => (h.valid.ofFree s hs).1, h.valid.ordered,
    h.balance, h.fresh, h.takeReady, h.cancel, h.peek⟩
  obtain ⟨hbound, hactive⟩ := h.valid.inHeap _ (mem_elements.2 ⟨i, hi, rfl⟩)
  exact ⟨hbound, hactive, h.valid.linked i hi⟩

/-- Two events in a queue for two; one is taken, one is cancelled. -/
theorem deadline_queue_settles_pair : ∃ q, init 2 true = .ok q ∧
    ((⟨q, [], []⟩ : World).run [.schedule 9 70, .schedule 5 71, .takeReady 6,
      .cancel (makeId 0 1)]).Sound :=
  ⟨_, rfl, deadline_queue_settles (show init 2 true = .ok _ from rfl) _⟩

end World

end Concurrency.Deadline
