import TurboUtils.Concurrency.Deadline.Queue

/-! What admission and removal do to a valid queue. -/
namespace Concurrency.Deadline

open BinaryHeap

namespace Queue

/-- The slots of the heap. -/
def slots (q : Queue) : List ℕ := elements q.heap q.size

/-- The slots of the free list. -/
def free (q : Queue) : List ℕ := elements q.freeSlots q.freeCount

def pending (q : Queue) : List Event := q.slots.map fun slot => (q.entries slot).event

/-- What holds of a queue between two calls. -/
structure Valid (q : Queue) : Prop where
  linked : q.Linked
  ordered : Ordered (byKey q.key) q.heap q.size
  inHeap : ∀ s ∈ q.slots, s < q.capacity ∧ (q.entries s).active = true
  ofActive : ∀ s < q.capacity, (q.entries s).active = true → s ∈ q.slots
  freeNodup : q.free.Nodup
  ofFree : ∀ s ∈ q.free, s < q.capacity ∧ (q.entries s).active = false
  generation : ∀ s < q.capacity, (q.entries s).generation ≤ uint32Max
  retired : ∀ s < q.capacity,
    (q.entries s).generation = 0 ↔ (q.entries s).active = false ∧ s ∉ q.free
  capacity : q.capacity ≤ uint32Max
  ids : ∀ s ∈ q.slots, (q.entries s).event.id = makeId s (q.entries s).generation
  orders : ∀ s ∈ q.slots, (q.entries s).order < q.nextOrder
  distinct : ∀ s ∈ q.slots, ∀ t ∈ q.slots, (q.entries s).order = (q.entries t).order → s = t

variable {q : Queue}

theorem Linked.nodup (h : q.Linked) : q.slots.Nodup := by
  refine List.Nodup.map_on (fun i hi j hj => ?_) List.nodup_range
  exact h.inj (List.mem_range.1 hi) (List.mem_range.1 hj)

/-! ## Removal -/

/-- What `salts_deadline_remove` leaves before the slot is released. -/
structure Taken (q q' : Queue) (slot : ℕ) : Prop where
  linked : q'.Linked
  ordered : Ordered (byKey q.key) q'.heap q'.size
  slots : (slot :: q'.slots).Perm q.slots
  same : q.Same q'
  freeSlots : q'.freeSlots = q.freeSlots
  freeCount : q'.freeCount = q.freeCount
  capacity : q'.capacity = q.capacity
  nextOrder : q'.nextOrder = q.nextOrder

def placed (q : Queue) (n k : ℕ) : Queue :=
  let q := { q with size := n, heap := Function.update q.heap k (q.heap n) }
  q.modify (q.heap k) fun entry => { entry with heapIndex := k }

theorem placed_heap (q : Queue) (n k : ℕ) :
    (q.placed n k).heap = Function.update q.heap k (q.heap n) := rfl

theorem fill_eq (q : Queue) (n k : ℕ) : Queue.fill { q with size := n } k =
    if k ≠ 0 && (q.placed n k).before ((q.placed n k).heap k)
        ((q.placed n k).heap ((k - 1) / 2)) then
      (q.placed n k).siftUp k
    else (q.placed n k).siftDown k := rfl

theorem placed_linked {n : ℕ} (hlinked : q.Linked) (hsize : q.size = n + 1) (k : ℕ) :
    (q.placed n k).Linked := by
  intro i hi
  have hin : i < n := hi
  rw [placed_heap, placed, modify_entries]
  by_cases heq : i = k
  · rw [heq, if_pos rfl]
  · have hne : q.heap i ≠ Function.update q.heap k (q.heap n) k := by
      rw [Function.update_self]
      exact fun h => hin.ne (hlinked.inj (by omega) (by omega) h)
    rw [Function.update_of_ne heq, if_neg hne]
    exact hlinked i (by omega)

theorem placed_same (q : Queue) (n k : ℕ) : q.Same (q.placed n k) := by
  unfold placed
  apply modify_same
  rfl

theorem fill_taken {n k : ℕ} (hlinked : q.Linked) (hordered : Ordered (byKey q.key) q.heap q.size)
    (hsize : q.size = n + 1) (hk : k < n) :
    q.Taken (Queue.fill { q with size := n } k) (q.heap k) := by
  have hplaced := placed_linked hlinked hsize k
  have hsame := q.placed_same n k
  rw [hsize] at hordered
  have hsifted : (q.placed n k).Sifted (Queue.fill { q with size := n } k) := by
    rw [fill_eq, placed_heap, Function.update_self]
    have hparent (hpos : 0 < k) :
        Function.update q.heap k (q.heap n) ((k - 1) / 2) = q.heap (parent k) :=
      Function.update_of_ne (parent_lt hpos).ne _ _
    split_ifs with hless
    · rw [Bool.and_eq_true, decide_eq_true_eq, before_iff, hsame.key] at hless
      obtain ⟨hne, hless⟩ := hless
      have hpos := Nat.pos_of_ne_zero hne
      refine siftUp_sifted ?_ hplaced hk
      rw [hsame.key]
      rw [hparent hpos] at hless
      exact hordered.rise hpos hk hless
    · refine siftDown_sifted ?_ hplaced hk
      rw [hsame.key]
      refine hordered.sink hk fun hpos hlt => hless ?_
      rw [Bool.and_eq_true, decide_eq_true_eq, before_iff, hsame.key, hparent hpos]
      exact ⟨hpos.ne', hlt⟩
  have hmoved := hsifted.moved
  refine ⟨hmoved.linked, ?_, ?_, hsame.trans hmoved.same, hmoved.freeSlots, hmoved.freeCount,
    hmoved.capacity, hmoved.nextOrder⟩
  · rw [← hsame.key, ← hmoved.same.key]
    exact hsifted.ordered
  · rw [Queue.slots, Queue.slots, hsize]
    exact (hmoved.heap.cons _).trans (elements_replace q.heap hk)

theorem drop_taken {n : ℕ} (hlinked : q.Linked) (hordered : Ordered (byKey q.key) q.heap q.size)
    (hsize : q.size = n + 1) : q.Taken { q with size := n } (q.heap n) := by
  rw [hsize] at hordered
  have hsame : q.Same { q with size := n } := ⟨fun _ => rfl, fun _ => rfl, fun _ => rfl, fun _ => rfl⟩
  refine ⟨fun i hi => ?_, fun i hpos hi => hordered i hpos (Nat.lt_succ_of_lt hi), ?_, hsame, rfl,
    rfl, rfl, rfl⟩
  · exact hlinked i (hsize ▸ Nat.lt_succ_of_lt hi)
  · rw [Queue.slots, Queue.slots, hsize, elements_succ]
    exact (List.perm_append_singleton _ _).symm

theorem Taken.mark {q' : Queue} {slot : ℕ} (h : q.Taken q' slot) (value : ℕ) :
    q.Taken { q' with heap := Function.update q'.heap q'.size value } slot := by
  have hheap (i : ℕ) (hi : i < q'.size) : Function.update q'.heap q'.size value i = q'.heap i :=
    Function.update_of_ne hi.ne _ _
  refine ⟨fun i hi => ?_, h.ordered.congr hheap, ?_, ⟨h.same.event, h.same.order,
    h.same.generation, h.same.active⟩, h.freeSlots, h.freeCount, h.capacity, h.nextOrder⟩
  · dsimp only
    rw [hheap i hi]
    exact h.linked i hi
  · rw [Queue.slots, elements_congr hheap]
    exact h.slots

theorem remove_taken {k : ℕ} (hlinked : q.Linked)
    (hordered : Ordered (byKey q.key) q.heap q.size) (hk : k < q.size) :
    ∃ q', q.remove k = ((q.entries (q.heap k)).event, q'.releaseSlot (q.heap k)) ∧
      q.Taken q' (q.heap k) := by
  obtain ⟨n, hn⟩ : ∃ n, q.size = n + 1 := ⟨q.size - 1, by omega⟩
  unfold remove
  dsimp only
  rw [hn, Nat.add_sub_cancel]
  refine ⟨_, rfl, Taken.mark ?_ indexNone⟩
  split_ifs with hne
  · exact fill_taken hlinked hordered hn (by omega)
  · rw [not_not.1 hne]
    exact drop_taken hlinked hordered hn

def cleared (entry : Entry) : Entry where
  event := ⟨0, 0, 0⟩
  order := 0
  heapIndex := indexNone
  generation := if entry.generation = uint32Max then 0 else entry.generation + 1
  active := false

theorem releaseSlot_entries (q : Queue) (slot : ℕ) : (q.releaseSlot slot).entries =
    Function.update q.entries slot (cleared (q.entries slot)) := by
  funext s
  unfold releaseSlot
  simp only [modify, Function.update_self]
  by_cases hmax : (q.entries slot).generation = uint32Max
  · by_cases hs : s = slot
    · simp [cleared, hs, hmax]
    · simp [hs, hmax]
  · by_cases hs : s = slot
    · simp [cleared, hs, hmax]
    · simp [hs, hmax]

theorem releaseSlot_free (q : Queue) (slot : ℕ) : (q.releaseSlot slot).free =
    if (q.entries slot).generation = uint32Max then q.free else q.free ++ [slot] := by
  unfold releaseSlot
  simp only [modify, Function.update_self]
  split_ifs with hmax
  · rfl
  · exact elements_push _ _ _

theorem releaseSlot_frame (q : Queue) (slot : ℕ) : (q.releaseSlot slot).heap = q.heap ∧
    (q.releaseSlot slot).size = q.size ∧ (q.releaseSlot slot).capacity = q.capacity ∧
      (q.releaseSlot slot).nextOrder = q.nextOrder := by
  unfold releaseSlot
  dsimp only
  split_ifs <;> exact ⟨rfl, rfl, rfl, rfl⟩

/-- What `salts_deadline_remove` does to a valid queue. -/
structure Removed (q q' : Queue) (slot : ℕ) : Prop where
  valid : q'.Valid
  slots : (slot :: q'.slots).Perm q.slots
  others : ∀ s, s ≠ slot → (q'.entries s).event = (q.entries s).event ∧
    (q'.entries s).order = (q.entries s).order ∧
      (q'.entries s).generation = (q.entries s).generation ∧
        (q'.entries s).active = (q.entries s).active
  generation : (q'.entries slot).generation = 0 ∨
    (q'.entries slot).generation = (q.entries slot).generation + 1
  capacity : q'.capacity = q.capacity
  nextOrder : q'.nextOrder = q.nextOrder

theorem Removed.ne {q' : Queue} {slot : ℕ} (h : q.Removed q' slot) (hlinked : q.Linked) {s : ℕ}
    (hs : s ∈ q'.slots) : s ≠ slot := by
  rintro rfl
  exact (List.nodup_cons.1 (h.slots.nodup_iff.2 hlinked.nodup)).1 hs

theorem byKey_congr {key key' : ℕ → ℕ × ℕ} {s t : ℕ} (hs : key s = key' s) (ht : key t = key' t) :
    byKey key s t = byKey key' s t := by
  unfold byKey compareLex compareOn
  dsimp only
  rw [hs, ht]

theorem releaseSlot_removed {q' : Queue} {slot : ℕ} (hvalid : q.Valid) (htaken : q.Taken q' slot) :
    q.Removed (q'.releaseSlot slot) slot := by
  obtain ⟨hheap, hsize, hcapacity, horder⟩ := releaseSlot_frame q' slot
  have hentries := releaseSlot_entries q' slot
  have hfree := releaseSlot_free q' slot
  have hslots : (q'.releaseSlot slot).slots = q'.slots := by rw [slots, slots, hheap, hsize]
  generalize q'.releaseSlot slot = r at *
  have hfree' : q'.free = q.free := by rw [free, free, htaken.freeSlots, htaken.freeCount]
  rw [hfree', htaken.same.generation] at hfree
  have hnodup := List.nodup_cons.1 (htaken.slots.nodup_iff.2 hvalid.linked.nodup)
  have hslot : slot ∈ q.slots := htaken.slots.subset (List.mem_cons_self ..)
  obtain ⟨hbound, hactive⟩ := hvalid.inHeap slot hslot
  have hnotFree : slot ∉ q.free := fun hmem => by
    have hinactive := (hvalid.ofFree slot hmem).2
    rw [hactive] at hinactive
    cases hinactive
  -- the entries of the other slots are those from before, up to their places
  have hothers (s : ℕ) (hs : s ≠ slot) : (r.entries s).event = (q.entries s).event ∧
      (r.entries s).order = (q.entries s).order ∧
        (r.entries s).generation = (q.entries s).generation ∧
          (r.entries s).active = (q.entries s).active := by
    rw [hentries, Function.update_of_ne hs]
    exact ⟨htaken.same.event s, htaken.same.order s, htaken.same.generation s,
      htaken.same.active s⟩
  have hself : r.entries slot = cleared (q'.entries slot) := by
    rw [hentries, Function.update_self]
  have hne {s : ℕ} (hs : s ∈ q'.slots) : s ≠ slot := fun heq => hnodup.1 (heq ▸ hs)
  have hmem {s : ℕ} (hs : s ∈ q'.slots) : s ∈ q.slots :=
    htaken.slots.subset (List.mem_cons_of_mem _ hs)
  have hmemFree {s : ℕ} (hs : s ≠ slot) : s ∈ r.free ↔ s ∈ q.free := by
    rw [hfree]
    split_ifs
    · rfl
    · rw [List.mem_append, List.mem_singleton, or_iff_left hs]
  have hgeneration := hvalid.generation slot hbound
  refine ⟨⟨?_, ?_, ?_, ?_, ?_, ?_, ?_, ?_, ?_, ?_, ?_, ?_⟩, ?_, hothers, ?_,
    hcapacity.trans htaken.capacity, horder.trans htaken.nextOrder⟩
  · intro i hi
    rw [hsize] at hi
    rw [hheap, hentries, Function.update_of_ne (hne (mem_elements.2 ⟨i, hi, rfl⟩))]
    exact htaken.linked i hi
  · intro i hpos hi
    rw [hsize] at hi
    have hkey {j : ℕ} (hj : j < q'.size) : r.key (q'.heap j) = q.key (q'.heap j) := by
      obtain ⟨hevent, horder, -⟩ := hothers _ (hne (mem_elements.2 ⟨j, hj, rfl⟩))
      rw [key, key, hevent, horder]
    rw [hheap, byKey_congr (hkey ((parent_lt hpos).trans hi)) (hkey hi)]
    exact htaken.ordered i hpos hi
  · intro s hs
    rw [hslots] at hs
    rw [hcapacity, htaken.capacity, (hothers s (hne hs)).2.2.2]
    exact hvalid.inHeap s (hmem hs)
  · intro s hs hactive'
    rw [hcapacity, htaken.capacity] at hs
    have hs' : s ≠ slot := by
      rintro rfl
      rw [hself] at hactive'
      cases hactive'
    rw [(hothers s hs').2.2.2] at hactive'
    rw [hslots]
    exact (List.mem_cons.1 (htaken.slots.symm.subset (hvalid.ofActive s hs hactive'))).resolve_left
      hs'
  · rw [hfree]
    split_ifs
    · exact hvalid.freeNodup
    · rw [← List.concat_eq_append]
      exact hvalid.freeNodup.concat hnotFree
  · intro s hs
    rw [hcapacity, htaken.capacity]
    by_cases heq : s = slot
    · rw [heq, hself]
      exact ⟨hbound, rfl⟩
    · rw [(hothers s heq).2.2.2]
      exact hvalid.ofFree s ((hmemFree heq).1 hs)
  · intro s hs
    rw [hcapacity, htaken.capacity] at hs
    by_cases heq : s = slot
    · rw [heq, hself, cleared, htaken.same.generation]
      dsimp only
      split_ifs
      · exact Nat.zero_le _
      · omega
    · rw [(hothers s heq).2.2.1]
      exact hvalid.generation s hs
  · intro s hs
    rw [hcapacity, htaken.capacity] at hs
    by_cases heq : s = slot
    · rw [heq, hself, cleared, htaken.same.generation, hfree]
      dsimp only
      split_ifs
      · simp [hnotFree]
      · simp
    · rw [(hothers s heq).2.2.1, (hothers s heq).2.2.2, hmemFree heq]
      exact hvalid.retired s hs
  · rw [hcapacity, htaken.capacity]
    exact hvalid.capacity
  · intro s hs
    rw [hslots] at hs
    rw [(hothers s (hne hs)).1, (hothers s (hne hs)).2.2.1]
    exact hvalid.ids s (hmem hs)
  · intro s hs
    rw [hslots] at hs
    rw [(hothers s (hne hs)).2.1, horder, htaken.nextOrder]
    exact hvalid.orders s (hmem hs)
  · intro s hs t ht heq
    rw [hslots] at hs ht
    rw [(hothers s (hne hs)).2.1, (hothers t (hne ht)).2.1] at heq
    exact hvalid.distinct s (hmem hs) t (hmem ht) heq
  · rw [hslots]
    exact htaken.slots
  · rw [hself, cleared, htaken.same.generation]
    dsimp only
    split_ifs
    · exact Or.inl rfl
    · exact Or.inr rfl

theorem remove_removed {k : ℕ} (hvalid : q.Valid) (hk : k < q.size) :
    ∃ q', q.remove k = ((q.entries (q.heap k)).event, q') ∧ q.Removed q' (q.heap k) := by
  obtain ⟨q', hremove, htaken⟩ := remove_taken hvalid.linked hvalid.ordered hk
  exact ⟨_, hremove, releaseSlot_removed hvalid htaken⟩

/-! ## Admission -/

/-- What `salts_deadline_queue_schedule` does to a valid queue with a slot of its free list. -/
structure Scheduled (q q' : Queue) (slot deadlineMs token : ℕ) : Prop where
  valid : q'.Valid
  free : slot ∈ q.free
  slots : q'.slots.Perm (slot :: q.slots)
  event : (q'.entries slot).event =
    ⟨makeId slot (q.entries slot).generation, deadlineMs, token⟩
  order : (q'.entries slot).order = q.nextOrder
  active : (q'.entries slot).active = true
  generation : ∀ s, (q'.entries s).generation = (q.entries s).generation
  others : ∀ s, s ≠ slot → (q'.entries s).event = (q.entries s).event ∧
    (q'.entries s).order = (q.entries s).order ∧ (q'.entries s).active = (q.entries s).active
  capacity : q'.capacity = q.capacity
  nextOrder : q'.nextOrder = q.nextOrder + 1

theorem Valid.generation_ne (hvalid : q.Valid) {s : ℕ} (hs : s ∈ q.free) :
    (q.entries s).generation ≠ 0 := fun hzero =>
  ((hvalid.retired s (hvalid.ofFree s hs).1).1 hzero).2 hs

theorem Valid.notMem (hvalid : q.Valid) {s : ℕ} (hs : s ∈ q.free) : s ∉ q.slots := fun hmem => by
  have hactive := (hvalid.inHeap s hmem).2
  rw [(hvalid.ofFree s hs).2] at hactive
  cases hactive

def appended (q : Queue) (slot : ℕ) (event : Event) : Queue :=
  { q with
    entries := Function.update q.entries slot { q.entries slot with
      event := event, order := q.nextOrder, heapIndex := q.size, active := true }
    heap := Function.update q.heap q.size slot
    freeCount := q.freeCount - 1
    size := q.size + 1
    nextOrder := q.nextOrder + 1 }

theorem appended_sifted {slot : ℕ} (hvalid : q.Valid) (hfree : slot ∈ q.free) (event : Event) :
    (q.appended slot event).Sifted ((q.appended slot event).siftUp q.size) := by
  have hne {i : ℕ} (hi : i < q.size) : q.heap i ≠ slot := by
    rintro rfl
    exact hvalid.notMem hfree (mem_elements.2 ⟨i, hi, rfl⟩)
  refine siftUp_sifted ?_ ?_ (Nat.lt_succ_self _)
  · refine Ordered.push (fun i hpos hi => ?_) slot
    have hkey {j : ℕ} (hj : j < q.size) : (q.appended slot event).key (q.heap j) = q.key (q.heap j) := by
      rw [key, key, appended]
      dsimp only
      rw [Function.update_of_ne (hne hj)]
    rw [byKey_congr (hkey ((parent_lt hpos).trans hi)) (hkey hi)]
    exact hvalid.ordered i hpos hi
  · intro i hi
    unfold appended
    dsimp only
    rcases Nat.lt_succ_iff_lt_or_eq.1 hi with hlt | rfl
    · rw [Function.update_of_ne hlt.ne, Function.update_of_ne (hne hlt)]
      exact hvalid.linked i hlt
    · rw [Function.update_self, Function.update_self]

theorem appended_scheduled {slot deadlineMs token : ℕ} {q' : Queue} (hvalid : q.Valid)
    (hpos : 0 < q.freeCount) (hslot : slot = q.freeSlots (q.freeCount - 1))
    (hq' : q' = (q.appended slot ⟨makeId slot (q.entries slot).generation, deadlineMs, token⟩).siftUp
      q.size) : q.Scheduled q' slot deadlineMs token := by
  have hlast : q.free = elements q.freeSlots (q.freeCount - 1) ++ [slot] := by
    rw [free, hslot, ← elements_succ, Nat.sub_add_cancel hpos]
  have hfree : slot ∈ q.free := hlast ▸ List.mem_append_right _ (List.mem_singleton_self _)
  have hsifted := appended_sifted hvalid hfree
    ⟨makeId slot (q.entries slot).generation, deadlineMs, token⟩
  rw [← hq'] at hsifted
  obtain ⟨hmoved, hordered⟩ := hsifted
  obtain ⟨hbound, hinactive⟩ := hvalid.ofFree slot hfree
  have hslots : q'.slots.Perm (slot :: q.slots) := by
    have hperm := hmoved.heap
    unfold appended at hperm
    dsimp only at hperm
    rw [elements_push] at hperm
    exact hperm.trans (List.perm_append_singleton _ _)
  have hrest : q'.free = elements q.freeSlots (q.freeCount - 1) := by
    rw [free, hmoved.freeSlots, hmoved.freeCount]
    rfl
  have hmemFree {s : ℕ} : s ∈ q'.free ↔ s ∈ q.free ∧ s ≠ slot := by
    have hnodup := hvalid.freeNodup
    rw [hlast, ← List.concat_eq_append, List.nodup_concat] at hnodup
    rw [hrest, hlast, List.mem_append, List.mem_singleton]
    constructor
    · exact fun hs => ⟨Or.inl hs, fun heq => hnodup.1 (heq ▸ hs)⟩
    · exact fun hs => hs.1.resolve_right hs.2
  have hevent : (q'.entries slot).event =
      ⟨makeId slot (q.entries slot).generation, deadlineMs, token⟩ := by
    rw [hmoved.same.event, appended]
    dsimp only
    rw [Function.update_self]
  have horder : (q'.entries slot).order = q.nextOrder := by
    rw [hmoved.same.order, appended]
    dsimp only
    rw [Function.update_self]
  have hactive : (q'.entries slot).active = true := by
    rw [hmoved.same.active, appended]
    dsimp only
    rw [Function.update_self]
  have hothers (s : ℕ) (hs : s ≠ slot) : (q'.entries s).event = (q.entries s).event ∧
      (q'.entries s).order = (q.entries s).order ∧
        (q'.entries s).active = (q.entries s).active := by
    rw [hmoved.same.event, hmoved.same.order, hmoved.same.active, appended]
    dsimp only
    rw [Function.update_of_ne hs]
    exact ⟨rfl, rfl, rfl⟩
  have hgeneration (s : ℕ) : (q'.entries s).generation = (q.entries s).generation := by
    rw [hmoved.same.generation, appended]
    dsimp only
    by_cases hs : s = slot
    · rw [hs, Function.update_self]
    · rw [Function.update_of_ne hs]
  have hcapacity : q'.capacity = q.capacity := hmoved.capacity
  have hnext : q'.nextOrder = q.nextOrder + 1 := hmoved.nextOrder
  have hne {s : ℕ} (hs : s ∈ q.slots) : s ≠ slot := fun heq => hvalid.notMem hfree (heq ▸ hs)
  have hcases {s : ℕ} (hs : s ∈ q'.slots) : s = slot ∨ s ∈ q.slots :=
    List.mem_cons.1 (hslots.subset hs)
  refine ⟨⟨hmoved.linked, hordered, ?_, ?_, ?_, ?_, ?_, ?_, ?_, ?_, ?_, ?_⟩, hfree, hslots, hevent,
    horder, hactive, hgeneration, hothers, hcapacity, hnext⟩
  · intro s hs
    rw [hcapacity]
    rcases hcases hs with rfl | hs
    · exact ⟨hbound, hactive⟩
    · rw [(hothers s (hne hs)).2.2]
      exact hvalid.inHeap s hs
  · intro s hs hactive'
    rw [hcapacity] at hs
    refine hslots.symm.subset (List.mem_cons.2 ?_)
    by_cases heq : s = slot
    · exact Or.inl heq
    · rw [(hothers s heq).2.2] at hactive'
      exact Or.inr (hvalid.ofActive s hs hactive')
  · rw [hrest]
    have hnodup := hvalid.freeNodup
    rw [hlast] at hnodup
    exact hnodup.of_append_left
  · intro s hs
    obtain ⟨hs, hs'⟩ := hmemFree.1 hs
    rw [hcapacity, (hothers s hs').2.2]
    exact hvalid.ofFree s hs
  · intro s hs
    rw [hcapacity] at hs
    rw [hgeneration]
    exact hvalid.generation s hs
  · intro s hs
    rw [hcapacity] at hs
    rw [hgeneration, hmemFree]
    by_cases heq : s = slot
    · rw [heq, hactive]
      exact iff_of_false (hvalid.generation_ne hfree) fun h => Bool.noConfusion h.1
    · rw [(hothers s heq).2.2, and_iff_left heq]
      exact hvalid.retired s hs
  · rw [hcapacity]
    exact hvalid.capacity
  · intro s hs
    rw [hgeneration]
    rcases hcases hs with rfl | hs
    · rw [hevent]
    · rw [(hothers s (hne hs)).1]
      exact hvalid.ids s hs
  · intro s hs
    rw [hnext]
    rcases hcases hs with rfl | hs
    · rw [horder]
      exact Nat.lt_succ_self _
    · rw [(hothers s (hne hs)).2.1]
      exact Nat.lt_succ_of_lt (hvalid.orders s hs)
  · intro s hs t ht heq
    rcases hcases hs with rfl | hs <;> rcases hcases ht with rfl | ht
    · rfl
    · rw [horder, (hothers t (hne ht)).2.1] at heq
      exact absurd heq (hvalid.orders t ht).ne'
    · rw [horder, (hothers s (hne hs)).2.1] at heq
      exact absurd heq (hvalid.orders s hs).ne
    · rw [(hothers s (hne hs)).2.1, (hothers t (hne ht)).2.1] at heq
      exact hvalid.distinct s hs t ht heq

theorem schedule_scheduled {deadlineMs token id : ℕ} {q' : Queue} (hvalid : q.Valid)
    (h : q.schedule deadlineMs token = .ok (id, q')) : ∃ slot,
      q.Scheduled q' slot deadlineMs token ∧ id = makeId slot (q.entries slot).generation := by
  unfold schedule at h
  dsimp only at h
  split_ifs at h with hempty horder hproto
  cases h
  exact ⟨_, appended_scheduled hvalid (Nat.pos_of_ne_zero hempty) rfl rfl, rfl⟩

end Queue

end Concurrency.Deadline
