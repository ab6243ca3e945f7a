import Mathlib.Data.List.Pairwise
import TurboUtils.Utils.ObjectPool

/-! Every slot of an object pool is in use, on the free list or in the bump tail, after any actions. -/
namespace ObjectPool

open SlotLedger

/-! ## Bits -/

section Bits

variable (b : UInt8) (i j : ℕ)

set_option maxRecDepth 4000 in
theorem bit_iff : b &&& mask j ≠ 0 ↔ b.toNat.testBit (j % 8) = true := by
  have h : ∀ (b : Fin 256) (j : Fin 8),
      UInt8.ofFin b &&& mask j ≠ 0 ↔ (UInt8.ofFin b).toNat.testBit j = true := by decide
  have hmask : mask (j % 8) = mask j := by rw [mask, mask, Nat.mod_mod]
  rw [← hmask]
  exact h b.toFin ⟨j % 8, Nat.mod_lt j (by decide)⟩

theorem testBit_mask : (mask i).toNat.testBit (j % 8) = decide (i % 8 = j % 8) ∧
    (~~~mask i).toNat.testBit (j % 8) = decide (i % 8 ≠ j % 8) := by
  have h : ∀ i j : Fin 8, (mask i).toNat.testBit j = decide (i = j) ∧
      (~~~mask i).toNat.testBit j = decide (i ≠ j) := by decide
  have hmask : mask (i % 8) = mask i := by rw [mask, mask, Nat.mod_mod]
  have hij := h ⟨i % 8, Nat.mod_lt i (by decide)⟩ ⟨j % 8, Nat.mod_lt j (by decide)⟩
  simp only [Fin.mk.injEq, ne_eq, hmask] at hij
  exact hij

theorem bit_set : (b ||| mask i) &&& mask j ≠ 0 ↔ i % 8 = j % 8 ∨ b &&& mask j ≠ 0 := by
  rw [bit_iff, bit_iff, UInt8.toNat_or, Nat.testBit_or, (testBit_mask i j).1, Bool.or_eq_true,
    decide_eq_true_eq, or_comm]

theorem bit_clear : (b &&& ~~~mask i) &&& mask j ≠ 0 ↔ i % 8 ≠ j % 8 ∧ b &&& mask j ≠ 0 := by
  rw [bit_iff, bit_iff, UInt8.toNat_and, Nat.testBit_and, (testBit_mask i j).2, Bool.and_eq_true,
    decide_eq_true_eq, and_comm]

theorem slotIsAllocated_iff {chunk : Chunk} {slot : ℕ} : slotIsAllocated chunk slot = true ↔
    chunk.allocationBitmap.getD (slot / 8) 0 &&& mask slot ≠ 0 := decide_eq_true_iff

/-- A bit of the bitmap after one was set or cleared. -/
theorem slotIsAllocated_set {chunk : Chunk} {slot : ℕ} (v : Bool) (slot' : ℕ)
    (h : slot < 8 * chunk.allocationBitmap.length) :
    slotIsAllocated (slotSetAllocated chunk slot v) slot' =
      if slot' = slot then v else slotIsAllocated chunk slot' := by
  have hbyte : slot / 8 < chunk.allocationBitmap.length := by omega
  apply Bool.eq_iff_iff.2
  rw [slotIsAllocated_iff]
  by_cases hsame : slot / 8 = slot' / 8
  · have hread : (slotSetAllocated chunk slot v).allocationBitmap.getD (slot' / 8) 0 =
        if v then chunk.allocationBitmap.getD (slot' / 8) 0 ||| mask slot
        else chunk.allocationBitmap.getD (slot' / 8) 0 &&& ~~~mask slot := by
      unfold slotSetAllocated
      dsimp only
      rw [← hsame, List.getD_eq_getElem?_getD, List.getElem?_modify_eq,
        List.getD_eq_getElem _ _ hbyte, List.getElem?_eq_getElem hbyte]
      rfl
    have hslot : slot' = slot ↔ slot % 8 = slot' % 8 := by omega
    rw [hread]
    cases v with
    | true =>
      rw [if_pos rfl, bit_set, ← hslot, ← slotIsAllocated_iff]
      split_ifs with heq
      · exact iff_of_true (Or.inl heq) rfl
      · exact or_iff_right heq
    | false =>
      rw [if_neg Bool.false_ne_true, bit_clear, ne_eq, ← hslot, ← slotIsAllocated_iff]
      split_ifs with heq
      · exact iff_of_false (fun hboth => hboth.1 heq) not_false
      · exact and_iff_right heq
  · have hread : (slotSetAllocated chunk slot v).allocationBitmap.getD (slot' / 8) 0 =
        chunk.allocationBitmap.getD (slot' / 8) 0 := by
      unfold slotSetAllocated
      dsimp only
      rw [List.getD_eq_getElem?_getD, List.getElem?_modify_ne _ _ hsame,
        List.getD_eq_getElem?_getD]
    rw [hread, if_neg fun heq => hsame (congrArg (· / 8) heq.symm), slotIsAllocated_iff]

end Bits

/-! ## Places -/

/-- Chunks that do not meet. -/
def Apart (size : ℕ) (chunks : List Chunk) : Prop :=
  chunks.Pairwise fun c d => c.memory + c.capacity * size ≤ d.memory ∨
    d.memory + d.capacity * size ≤ c.memory

section Places

variable {size obj i slot : ℕ} {c : Chunk} {chunks : List Chunk}

theorem slot_lt (hslot : slot < c.capacity) :
    c.memory + slot * size + size ≤ c.memory + c.capacity * size := by
  have hmul := Nat.mul_le_mul_right size hslot
  rw [Nat.succ_mul] at hmul
  omega

/-- An object is located exactly where it is a slot. -/
theorem locateIn_eq_some (hsize : 0 < size) (hapart : Apart size chunks) :
    locateIn size obj chunks = some (i, slot) ↔
      ∃ c, chunks[i]? = some c ∧ slot < c.capacity ∧ obj = c.memory + slot * size := by
  induction chunks generalizing i with
  | nil =>
    constructor
    · exact nofun
    · rintro ⟨c, hc, -⟩
      cases hc
  | cons d rest ih =>
    obtain ⟨hd, hrest⟩ := List.pairwise_cons.1 hapart
    -- What is a slot of a later chunk is not in the memory of this one.
    have hlater : ∀ (j : ℕ) (c : Chunk) slot, rest[j]? = some c → slot < c.capacity →
        obj = c.memory + slot * size → ¬(d.memory ≤ obj ∧ obj < d.memory + d.capacity * size) := by
      rintro j c slot hc hslot rfl ⟨hle, hlt⟩
      have hroom := @slot_lt size slot c hslot
      rcases hd c (List.mem_of_getElem? hc) with hbefore | hbehind <;> omega
    unfold locateIn
    by_cases hin : d.memory ≤ obj ∧ obj < d.memory + d.capacity * size
    · rw [if_pos hin]
      constructor
      · intro h
        split_ifs at h with hmod
        obtain ⟨rfl, rfl⟩ := Prod.mk.inj (Option.some.inj h)
        have hdvd : (obj - d.memory) / size * size = obj - d.memory :=
          Nat.div_mul_cancel (Nat.dvd_of_mod_eq_zero (not_not.1 hmod))
        refine ⟨d, rfl, ?_, by omega⟩
        exact (Nat.div_lt_iff_lt_mul hsize).2 (by omega)
      · rintro ⟨c, hc, hslot, hobj⟩
        cases i with
        | zero =>
          obtain rfl := Option.some.inj hc
          have hsub : obj - d.memory = slot * size := by omega
          rw [hsub, if_neg (not_not.2 (Nat.mul_mod_left slot size)), Nat.mul_div_cancel _ hsize]
        | succ i => exact absurd hin (hlater i c slot hc hslot hobj)
    · rw [if_neg hin]
      constructor
      · intro h
        obtain ⟨⟨j, slot'⟩, hfound, hsome⟩ := Option.map_eq_some_iff.1 h
        obtain ⟨rfl, rfl⟩ := Prod.mk.inj hsome
        exact (ih hrest).1 hfound
      · rintro ⟨c, hc, hslot, hobj⟩
        cases i with
        | zero =>
          obtain rfl := Option.some.inj hc
          have hroom := @slot_lt size slot _ hslot
          exact absurd ⟨by omega, by omega⟩ hin
        | succ i => exact Option.map_eq_some_iff.2 ⟨(i, slot), (ih hrest).2 ⟨c, hc, hslot, hobj⟩, rfl⟩

theorem locateIn_congr {chunks' : List Chunk}
    (h : chunks.map (fun c => (c.memory, c.capacity)) =
      chunks'.map fun c => (c.memory, c.capacity)) :
    locateIn size obj chunks = locateIn size obj chunks' := by
  induction chunks generalizing chunks' with
  | nil =>
    rw [List.map_eq_nil_iff.1 h.symm]
  | cons c rest ih =>
    obtain ⟨c', rest', rfl, hc, hrest⟩ := List.map_eq_cons_iff.1 h.symm
    obtain ⟨hmemory, hcapacity⟩ := Prod.mk.inj hc
    rw [locateIn, locateIn, ih hrest.symm, hmemory, hcapacity]

end Places

namespace Pool

variable {s s' : Pool} {obj obj' i slot count : ℕ} {v : Bool} {c : Chunk} {free : List ℕ}
  {heap : Option ℕ}

/-- The chunks lie apart, none of them at the null address, each with a bit for every slot. -/
structure Placed (s : Pool) : Prop where
  size : 0 < s.objectSize
  memory : ∀ c ∈ s.chunks, c.memory ≠ 0 ∧ c.capacity ≤ 8 * c.allocationBitmap.length
  apart : Apart s.objectSize s.chunks

theorem mem_slotsOf {size : ℕ} :
    obj ∈ slotsOf size c ↔ ∃ slot < c.capacity, obj = c.memory + slot * size := by
  unfold slotsOf
  rw [List.mem_map]
  exact exists_congr fun slot => and_congr List.mem_range eq_comm

theorem mem_slots : obj ∈ s.slots ↔ ∃ c ∈ s.chunks, ∃ slot < c.capacity,
    obj = c.memory + slot * s.objectSize := by
  unfold slots
  rw [List.mem_flatMap]
  exact exists_congr fun c => and_congr_right fun _ => mem_slotsOf

theorem locateObject_eq_some (h : s.Placed) : s.locateObject obj = some (i, slot) ↔
    ∃ c, s.chunks[i]? = some c ∧ slot < c.capacity ∧ obj = c.memory + slot * s.objectSize := by
  unfold locateObject
  rw [Option.ite_none_left_eq_some, locateIn_eq_some h.size h.apart]
  refine and_iff_right_of_imp ?_
  rintro ⟨c, hc, -, hobj⟩ hnull
  have hmemory := (h.memory c (List.mem_of_getElem? hc)).1
  omega

theorem mem_slots_iff (h : s.Placed) : obj ∈ s.slots ↔ ∃ found, s.locateObject obj = some found := by
  rw [mem_slots]
  constructor
  · rintro ⟨c, hc, slot, hslot, hobj⟩
    obtain ⟨i, hi⟩ := List.mem_iff_getElem?.1 hc
    exact ⟨(i, slot), (locateObject_eq_some h).2 ⟨c, hi, hslot, hobj⟩⟩
  · rintro ⟨⟨i, slot⟩, hfound⟩
    obtain ⟨c, hi, hslot, hobj⟩ := (locateObject_eq_some h).1 hfound
    exact ⟨c, List.mem_of_getElem? hi, slot, hslot, hobj⟩

/-- Slots are a size apart. -/
theorem slots_spaced (h : s.Placed) (hobj : obj ∈ s.slots) (hobj' : obj' ∈ s.slots)
    (hlt : obj < obj') : obj + s.objectSize ≤ obj' := by
  obtain ⟨c, hc, slot, hslot, rfl⟩ := mem_slots.1 hobj
  obtain ⟨d, hd, slot', hslot', rfl⟩ := mem_slots.1 hobj'
  have hroom := @slot_lt s.objectSize slot c hslot
  have hroom' := @slot_lt s.objectSize slot' d hslot'
  by_cases hcd : c = d
  · subst hcd
    have hless : slot < slot' := by
      by_contra hle
      have hmul := Nat.mul_le_mul_right s.objectSize (Nat.le_of_not_lt hle)
      omega
    have hmul := Nat.mul_le_mul_right s.objectSize hless
    rw [Nat.succ_mul] at hmul
    omega
  · have hsymm : Std.Symm fun c d : Chunk => c.memory + c.capacity * s.objectSize ≤ d.memory ∨
        d.memory + d.capacity * s.objectSize ≤ c.memory := ⟨fun _ _ => Or.symm⟩
    rcases h.apart.forall hc hd hcd with hbefore | hbehind <;> omega

theorem isAllocated_eq (h : s.Placed) (hc : s.chunks[i]? = some c) (hslot : slot < c.capacity) :
    s.isAllocated (c.memory + slot * s.objectSize) = slotIsAllocated c slot := by
  have hlocate := (locateObject_eq_some h).2 ⟨c, hc, hslot, rfl⟩
  rw [isAllocated, hlocate]
  dsimp only
  rw [hc, Option.any_some]

theorem isAllocated_of_notMem (h : s.Placed) (hobj : obj ∉ s.slots) : s.isAllocated obj = false := by
  rw [mem_slots_iff h] at hobj
  unfold isAllocated
  cases hlocate : s.locateObject obj with
  | none => rfl
  | some found => exact absurd ⟨found, hlocate⟩ hobj

theorem mem_live (h : s.Placed) : obj ∈ s.live ↔ s.isAllocated obj = true := by
  unfold live
  rw [List.mem_filter, and_iff_right_iff_imp]
  intro hbit
  by_contra hobj
  rw [isAllocated_of_notMem h hobj] at hbit
  cases hbit

/-! ### One bit -/

theorem map_places_modify (chunks : List Chunk) (i slot : ℕ) (v : Bool) :
    (chunks.modify i fun c => slotSetAllocated c slot v).map (fun c => (c.memory, c.capacity)) =
      chunks.map fun c => (c.memory, c.capacity) := by
  apply List.ext_getElem?
  intro j
  rw [List.getElem?_map, List.getElem?_map]
  by_cases hij : i = j
  · rw [hij, List.getElem?_modify_eq]
    cases chunks[j]? <;> rfl
  · rw [List.getElem?_modify_ne _ _ hij]

theorem slots_setAllocated : (s.setAllocated i slot v).slots = s.slots := by
  have hslots : ∀ chunks : List Chunk, chunks.flatMap (slotsOf s.objectSize) =
      (chunks.map fun c => (c.memory, c.capacity)).flatMap fun c =>
        (List.range c.2).map fun slot => c.1 + slot * s.objectSize := by
    intro chunks
    rw [List.flatMap_map]
    rfl
  unfold slots setAllocated
  dsimp only
  rw [hslots, map_places_modify, ← hslots]

theorem locateObject_setAllocated :
    (s.setAllocated i slot v).locateObject obj = s.locateObject obj := by
  unfold locateObject setAllocated
  dsimp only
  rw [locateIn_congr (map_places_modify s.chunks i slot v)]

theorem mem_setAllocated (hc : c ∈ (s.setAllocated i slot v).chunks) : ∃ d ∈ s.chunks,
    c.memory = d.memory ∧ c.capacity = d.capacity ∧
      c.allocationBitmap.length = d.allocationBitmap.length := by
  obtain ⟨j, hj⟩ := List.mem_iff_getElem?.1 hc
  unfold setAllocated at hj
  dsimp only at hj
  by_cases hij : i = j
  · rw [hij, List.getElem?_modify_eq, Option.map_eq_map, Option.map_eq_some_iff] at hj
    obtain ⟨d, hd, rfl⟩ := hj
    exact ⟨d, List.mem_of_getElem? hd, rfl, rfl, List.length_modify _ _ _⟩
  · rw [List.getElem?_modify_ne _ _ hij] at hj
    exact ⟨c, List.mem_of_getElem? hj, rfl, rfl, rfl⟩

theorem Placed.setAllocated (h : s.Placed) : (s.setAllocated i slot v).Placed := by
  refine ⟨h.size, fun c hc => ?_, ?_⟩
  · obtain ⟨d, hd, hmemory, hcapacity, hlength⟩ := mem_setAllocated hc
    rw [hmemory, hcapacity, hlength]
    exact h.memory d hd
  · have hpairs : ∀ chunks : List Chunk, Apart s.objectSize chunks ↔
        (chunks.map fun c => (c.memory, c.capacity)).Pairwise fun c d =>
          c.1 + c.2 * s.objectSize ≤ d.1 ∨ d.1 + d.2 * s.objectSize ≤ c.1 := by
      intro chunks
      rw [List.pairwise_map]
      rfl
    unfold Pool.setAllocated
    dsimp only
    rw [hpairs, map_places_modify, ← hpairs]
    exact h.apart

/-- One bit is set or cleared, and no other. -/
theorem isAllocated_setAllocated (h : s.Placed) (hlocate : s.locateObject obj = some (i, slot)) :
    (s.setAllocated i slot v).isAllocated obj' = if obj' = obj then v else s.isAllocated obj' := by
  obtain ⟨c, hc, hslot, hobj⟩ := (locateObject_eq_some h).1 hlocate
  have hbitmap := (h.memory c (List.mem_of_getElem? hc)).2
  unfold isAllocated
  rw [locateObject_setAllocated]
  cases hlocate' : s.locateObject obj' with
  | none =>
    rw [if_neg]
    rintro rfl
    rw [hlocate] at hlocate'
    cases hlocate'
  | some found =>
    obtain ⟨i', slot'⟩ := found
    obtain ⟨c', hc', hslot', hobj'⟩ := (locateObject_eq_some h).1 hlocate'
    dsimp only
    unfold setAllocated
    dsimp only
    by_cases hi : i = i'
    · subst hi
      obtain rfl := Option.some.inj (hc.symm.trans hc')
      have hsame : obj' = obj ↔ slot' = slot := by
        rw [hobj, hobj', Nat.add_left_cancel_iff, Nat.mul_left_inj (Nat.pos_iff_ne_zero.1 h.size)]
      rw [List.getElem?_modify_eq, hc]
      dsimp only [Option.map_eq_map, Option.map_some, Option.any_some]
      rw [slotIsAllocated_set v slot' (by omega)]
      exact if_congr hsame.symm rfl rfl
    · rw [List.getElem?_modify_ne _ _ hi, if_neg]
      rintro rfl
      rw [hlocate] at hlocate'
      exact hi (Prod.mk.inj (Option.some.inj hlocate')).1

/-! ### The invariant -/

def Newest (s : Pool) : Prop :=
  0 < s.bumpRemaining → ∃ c rest n, s.chunks = c :: rest ∧ n + s.bumpRemaining = c.capacity ∧
    s.bumpPtr = c.memory + n * s.objectSize

/-- The slots are in use, on the free list or in the bump tail, and the counts are theirs. -/
structure Accounted (s : Pool) (free : List ℕ) : Prop where
  placed : s.Placed
  newest : s.Newest
  chain : Chain s.words 0 s.freeList free
  split : Split s.slots s.live free s.tail
  allocatedCount : s.allocatedCount = s.live.length
  freeCount : s.freeCount = free.length
  totalCapacity : s.totalCapacity = s.slots.length
  bounded : s.maxCapacity ≠ 0 → s.totalCapacity ≤ s.maxCapacity

/-- Handing out sets a bit and counts it; only the words of the object may change. -/
theorem handOut_eq (s : Pool) (obj i slot : ℕ) : ∃ peak words, s.handOut obj i slot =
      (obj, { s.setAllocated i slot true with
        allocatedCount := s.allocatedCount + 1, peakUsage := peak, words }) ∧
    ∀ a, ¬(obj ≤ a ∧ a < obj + s.objectSize) → words a = s.words a := by
  have hzero : ∀ a, ¬(obj ≤ a ∧ a < obj + s.objectSize) →
      zero s.words obj s.objectSize a = s.words a := fun a ha => if_neg ha
  by_cases hpeak : s.peakUsage < s.allocatedCount + 1
  · by_cases hz : s.zeroOnAlloc = true
    · exact ⟨s.allocatedCount + 1, zero s.words obj s.objectSize,
        by simp [handOut, setAllocated, hpeak, hz], hzero⟩
    · exact ⟨s.allocatedCount + 1, s.words, by simp [handOut, setAllocated, hpeak, hz],
        fun _ _ => rfl⟩
  · by_cases hz : s.zeroOnAlloc = true
    · exact ⟨s.peakUsage, zero s.words obj s.objectSize,
        by simp [handOut, setAllocated, hpeak, hz], hzero⟩
    · exact ⟨s.peakUsage, s.words, by simp [handOut, setAllocated, hpeak, hz], fun _ _ => rfl⟩

theorem live_set (h : s.Placed) (hnodup : s.slots.Nodup)
    (hlocate : s.locateObject obj = some (i, slot)) (hbit : s.isAllocated obj = false) :
    (s.setAllocated i slot true).live.Perm (obj :: s.live) := by
  unfold live
  rw [slots_setAllocated]
  refine perm_filter_of_added hnodup ((mem_slots_iff h).2 ⟨_, hlocate⟩) hbit ?_ ?_
  · rw [isAllocated_setAllocated h hlocate, if_pos rfl]
  · intro b _ hb
    rw [isAllocated_setAllocated h hlocate, if_neg hb]

theorem live_clear (h : s.Placed) (hnodup : s.slots.Nodup)
    (hlocate : s.locateObject obj = some (i, slot)) (hbit : s.isAllocated obj = true) :
    s.live.Perm (obj :: (s.setAllocated i slot false).live) := by
  unfold live
  rw [slots_setAllocated]
  refine perm_filter_of_added hnodup ((mem_slots_iff h).2 ⟨_, hlocate⟩) ?_ hbit ?_
  · rw [isAllocated_setAllocated h hlocate, if_pos rfl]
  · intro b _ hb
    rw [isAllocated_setAllocated h hlocate, if_neg hb]

theorem Newest.setAllocated (h : s.Newest) : (s.setAllocated i slot v).Newest := by
  intro hpos
  obtain ⟨c, rest, n, hchunks, hcapacity, hptr⟩ := h hpos
  unfold Pool.setAllocated
  dsimp only
  rw [hchunks]
  cases i with
  | zero => exact ⟨slotSetAllocated c slot v, rest, n, rfl, hcapacity, hptr⟩
  | succ i => exact ⟨c, _, n, rfl, hcapacity, hptr⟩

/-! ### Handing out -/

/-- An object is taken out of the free list or of the tail, and its bit is still to be set. -/
structure Ready (s : Pool) (obj i slot : ℕ) (free : List ℕ) : Prop where
  placed : s.Placed
  newest : s.Newest
  chain : Chain s.words 0 s.freeList free
  located : s.locateObject obj = some (i, slot)
  clear : s.isAllocated obj = false
  split : ∀ used, used.Perm (obj :: s.live) → Split s.slots used free s.tail
  notMem : obj ∉ free
  allocatedCount : s.allocatedCount = s.live.length
  freeCount : s.freeCount = free.length
  totalCapacity : s.totalCapacity = s.slots.length
  bounded : s.maxCapacity ≠ 0 → s.totalCapacity ≤ s.maxCapacity

structure HandsOut (s : Pool) (r : ℕ × Pool) (free : List ℕ) : Prop where
  ne_null : r.1 ≠ 0
  notMem : r.1 ∉ s.live
  live : r.2.live.Perm (r.1 :: s.live)
  accounted : r.2.Accounted free

theorem Ready.handsOut (h : s.Ready obj i slot free) : s.HandsOut (s.handOut obj i slot) free := by
  obtain ⟨peak, words, heq, hwords⟩ := handOut_eq s obj i slot
  have hnodup : s.slots.Nodup := (h.split _ (List.Perm.refl _)).nodup
  have hmem : obj ∈ s.slots := (mem_slots_iff h.placed).2 ⟨_, h.located⟩
  have hlive := live_set h.placed hnodup h.located h.clear
  have hsplit := h.split _ hlive
  have hchain : Chain words 0 s.freeList free := by
    refine h.chain.congr fun a ha => hwords a fun ⟨hle, hlt⟩ => ?_
    have hslot : a ∈ s.slots := hsplit.mem_of_free ha
    rcases Nat.lt_or_eq_of_le hle with hless | rfl
    · have hspaced := slots_spaced h.placed hmem hslot hless
      omega
    · exact h.notMem ha
  have hplaced : (s.setAllocated i slot true).Placed := h.placed.setAllocated
  have hcount : s.allocatedCount + 1 = (s.setAllocated i slot true).live.length := by
    rw [hlive.length_eq, h.allocatedCount, List.length_cons]
  have hslots : (s.setAllocated i slot true).slots = s.slots := slots_setAllocated
  rw [heq]
  refine ⟨?_, ?_, hlive, ?_⟩
  · rintro rfl
    have hlocated := h.located
    rw [locateObject, if_pos rfl] at hlocated
    cases hlocated
  · rw [mem_live h.placed, h.clear]
    exact Bool.false_ne_true
  · refine ⟨⟨hplaced.size, hplaced.memory, hplaced.apart⟩, h.newest.setAllocated, hchain, ?_, hcount,
      h.freeCount, ?_, h.bounded⟩
    · exact hslots ▸ hsplit
    · exact h.totalCapacity.trans (congrArg List.length hslots.symm)

/-- The head of the free list. -/
theorem Accounted.ready_free (h : s.Accounted free) (hhead : s.freeList ≠ 0) :
    ∃ i slot rest, s.locateObject s.freeList = some (i, slot) ∧ s.isAllocated s.freeList = false ∧
      Ready { s with freeList := s.words s.freeList, freeCount := s.freeCount - 1 } s.freeList i slot
        rest := by
  obtain ⟨rest, hfree, hchain⟩ := h.chain.exists_cons hhead
  have hsplit : Split s.slots s.live (s.freeList :: rest) s.tail := hfree ▸ h.split
  obtain ⟨⟨i, slot⟩, hlocate⟩ := (mem_slots_iff h.placed).1 (hsplit.mem_of_free List.mem_cons_self)
  have hclear : s.isAllocated s.freeList = false := by
    have hnot := hsplit.notMem_used_of_free
    rw [mem_live h.placed] at hnot
    exact Bool.eq_false_iff.2 hnot
  have hnodup := (List.nodup_append.1 (List.nodup_append.1 hsplit.nodup_parts).1).2.1
  have hcount : s.freeCount - 1 = rest.length := by
    rw [h.freeCount, hfree, List.length_cons, Nat.add_sub_cancel]
  exact ⟨i, slot, rest, hlocate, hclear, ⟨h.placed.size, h.placed.memory, h.placed.apart⟩, h.newest,
    hchain, hlocate, hclear, fun used hused => hsplit.take_free hused, (List.nodup_cons.1 hnodup).1,
    h.allocatedCount, hcount, h.totalCapacity, h.bounded⟩

theorem tail_eq_cons (hpos : 0 < s.bumpRemaining) : s.tail = s.bumpPtr ::
    { s with bumpPtr := s.bumpPtr + s.objectSize, bumpRemaining := s.bumpRemaining - 1 }.tail := by
  obtain ⟨n, hn⟩ := Nat.exists_eq_succ_of_ne_zero (Nat.pos_iff_ne_zero.1 hpos)
  unfold tail
  dsimp only
  rw [hn, List.range_succ_eq_map, List.map_cons, List.map_map, Nat.zero_mul, Nat.add_zero,
    Nat.succ_sub_one]
  congr 1
  apply List.map_congr_left
  intro j _
  rw [Function.comp_apply, Nat.succ_mul]
  omega

theorem Accounted.ready_bump (h : s.Accounted free) (hpos : 0 < s.bumpRemaining) :
    ∃ slot, s.locateObject s.bumpPtr = some (0, slot) ∧
      (s.bumpPtr - ((s.chunks[0]?).map Chunk.memory).getD 0) / s.objectSize = slot ∧
      Ready { s with bumpPtr := s.bumpPtr + s.objectSize, bumpRemaining := s.bumpRemaining - 1 }
        s.bumpPtr 0 slot free := by
  obtain ⟨c, rest, n, hchunks, hcapacity, hptr⟩ := h.newest hpos
  have hfirst : s.chunks[0]? = some c := by rw [hchunks]; rfl
  have hlocate : s.locateObject s.bumpPtr = some (0, n) :=
    (locateObject_eq_some h.placed).2 ⟨c, hfirst, by omega, hptr⟩
  have hsplit := h.split
  rw [tail_eq_cons hpos] at hsplit
  have hclear : s.isAllocated s.bumpPtr = false := by
    have hnot := hsplit.notMem_used_of_tail
    rw [mem_live h.placed] at hnot
    exact Bool.eq_false_iff.2 hnot
  have hnotMem : s.bumpPtr ∉ free := fun hfree =>
    hsplit.notMem_tail_of_free hfree List.mem_cons_self
  have hnewest : Newest { s with
      bumpPtr := s.bumpPtr + s.objectSize, bumpRemaining := s.bumpRemaining - 1 } := by
    intro hmore
    dsimp only at hmore ⊢
    refine ⟨c, rest, n + 1, hchunks, by omega, ?_⟩
    rw [hptr, Nat.succ_mul, Nat.add_assoc]
  refine ⟨n, hlocate, ?_, ⟨h.placed.size, h.placed.memory, h.placed.apart⟩, hnewest, h.chain, hlocate,
    hclear, fun used hused => hsplit.take_tail hused, hnotMem, h.allocatedCount, h.freeCount,
    h.totalCapacity, h.bounded⟩
  rw [hfirst, Option.map_some, Option.getD_some, hptr, Nat.add_sub_cancel_left,
    Nat.mul_div_cancel _ h.placed.size]

/-! ### Growing -/

def withChunk (s : Pool) (c : Chunk) : Pool :=
  { s with
    bumpPtr := c.memory
    bumpRemaining := c.capacity
    totalCapacity := s.totalCapacity + c.capacity
    chunks := c :: s.chunks
    words := zero s.words c.memory (c.capacity * s.objectSize) }

theorem grow_eq_some : s.grow count heap = some s' ↔ ∃ n memory, s.growCount count = some n ∧
    ¬sizeMax / s.objectSize < n ∧ heap = some memory ∧
      s.withChunk ⟨memory, List.replicate (n / 8 + if n % 8 ≠ 0 then 1 else 0) 0, n⟩ = s' := by
  unfold grow
  cases hn : s.growCount count with
  | none =>
    constructor
    · exact nofun
    · rintro ⟨n, memory, hcount, -⟩
      cases hcount
  | some n =>
    dsimp only
    by_cases hlarge : sizeMax / s.objectSize < n
    · rw [if_pos hlarge]
      constructor
      · exact nofun
      · rintro ⟨n', memory, hcount, hsmall, -⟩
        obtain rfl := Option.some.inj hcount
        exact absurd hlarge hsmall
    · rw [if_neg hlarge]
      cases heap with
      | none =>
        constructor
        · exact nofun
        · rintro ⟨n', memory, -, -, hheap, -⟩
          cases hheap
      | some memory =>
        constructor
        · intro h
          exact ⟨n, memory, rfl, hlarge, rfl, Option.some.inj h⟩
        · rintro ⟨n', memory', hcount, -, hheap, rfl⟩
          obtain rfl := Option.some.inj hcount
          obtain rfl := Option.some.inj hheap
          rfl

theorem growCount_eq_some {n : ℕ} (h : s.growCount count = some n) :
    0 < n ∧ (s.maxCapacity ≠ 0 → s.totalCapacity + n ≤ s.maxCapacity) := by
  unfold growCount at h
  split_ifs at h with hzero hmax hfull
  · obtain rfl := Option.some.inj h
    split_ifs <;> omega
  · obtain rfl := Option.some.inj h
    omega

theorem slotIsAllocated_replicate {memory n bits : ℕ} :
    slotIsAllocated ⟨memory, List.replicate bits 0, n⟩ slot = false := by
  unfold slotIsAllocated
  rw [decide_eq_false_iff_not, not_not, List.getD_eq_getElem?_getD, List.getElem?_replicate]
  split_ifs <;> exact UInt8.zero_and

theorem notMem_slots (h : s.Placed)
    (hapart : ∀ d ∈ s.chunks, c.memory + c.capacity * s.objectSize ≤ d.memory ∨
      d.memory + d.capacity * s.objectSize ≤ c.memory)
    (hobj : obj ∈ slotsOf s.objectSize c) : obj ∉ s.slots := by
  intro hslots
  obtain ⟨slot, hslot, rfl⟩ := mem_slotsOf.1 hobj
  obtain ⟨d, hd, slot', hslot', hsame⟩ := mem_slots.1 hslots
  have hroom := @slot_lt s.objectSize slot c hslot
  have hroom' := @slot_lt s.objectSize slot' d hslot'
  have hsize := h.size
  rcases hapart d hd with hbefore | hbehind <;> omega

section WithChunk

variable (h : s.Placed) (hnull : c.memory ≠ 0) (hbits : c.capacity ≤ 8 * c.allocationBitmap.length)
  (hapart : ∀ d ∈ s.chunks, c.memory + c.capacity * s.objectSize ≤ d.memory ∨
    d.memory + d.capacity * s.objectSize ≤ c.memory)

include h hnull hbits hapart

theorem Placed.withChunk : (s.withChunk c).Placed := by
  refine ⟨h.size, fun d hd => ?_, List.pairwise_cons.2 ⟨hapart, h.apart⟩⟩
  rcases List.mem_cons.1 hd with rfl | hd
  · exact ⟨hnull, hbits⟩
  · exact h.memory d hd

theorem live_withChunk (hclear : ∀ slot, slotIsAllocated c slot = false) :
    (s.withChunk c).live = s.live := by
  have hplaced := h.withChunk hnull hbits hapart
  have hfresh : ∀ obj ∈ slotsOf s.objectSize c, (s.withChunk c).isAllocated obj = false := by
    intro obj hobj
    obtain ⟨slot, hslot, rfl⟩ := mem_slotsOf.1 hobj
    exact (@isAllocated_eq (s.withChunk c) 0 slot c hplaced rfl hslot).trans (hclear slot)
  have hold : ∀ obj ∈ s.slots, (s.withChunk c).isAllocated obj = s.isAllocated obj := by
    intro obj hobj
    obtain ⟨d, hd, slot, hslot, rfl⟩ := mem_slots.1 hobj
    obtain ⟨i, hi⟩ := List.mem_iff_getElem?.1 hd
    rw [isAllocated_eq h hi hslot]
    exact @isAllocated_eq (s.withChunk c) (i + 1) slot d hplaced hi hslot
  show (slotsOf s.objectSize c ++ s.slots).filter (s.withChunk c).isAllocated = s.live
  rw [List.filter_append, List.filter_eq_nil_iff.2 fun obj hobj => Bool.eq_false_iff.1 (hfresh obj hobj),
    List.nil_append]
  exact List.filter_congr hold

end WithChunk

theorem nodup_slotsOf {size : ℕ} (hsize : 0 < size) : (slotsOf size c).Nodup := by
  refine List.Nodup.map_on ?_ List.nodup_range
  intro a _ b _ hab
  exact Nat.eq_of_mul_eq_mul_right hsize (Nat.add_left_cancel hab)

/-- A new chunk, where no slot is free: its slots are the tail. -/
theorem Accounted.grow (h : s.Accounted []) (htail : s.bumpRemaining = 0)
    (hgrants : s.Grants count heap) (hgrow : s.grow count heap = some s') :
    s'.Accounted [] ∧ s'.live = s.live ∧ 0 < s'.bumpRemaining ∧
      s'.locateObject s'.bumpPtr = some (0, 0) := by
  obtain ⟨n, memory, hn, -, hheap, rfl⟩ := grow_eq_some.1 hgrow
  obtain ⟨hpos, hbounded⟩ := growCount_eq_some hn
  obtain ⟨hnull, hapart⟩ := hgrants n hn memory hheap
  have henough : n ≤ 8 * (List.replicate (n / 8 + if n % 8 ≠ 0 then 1 else 0) (0 : UInt8)).length := by
    rw [List.length_replicate]
    split_ifs <;> omega
  have hclear : ∀ slot, slotIsAllocated ⟨memory, List.replicate (n / 8 + if n % 8 ≠ 0 then 1 else 0) 0,
      n⟩ slot = false := fun slot => slotIsAllocated_replicate
  obtain ⟨c, hc⟩ : ∃ c : Chunk,
    c = ⟨memory, List.replicate (n / 8 + if n % 8 ≠ 0 then 1 else 0) 0, n⟩ := ⟨_, rfl⟩
  rw [← hc] at hclear ⊢
  have hmemory : c.memory = memory := by rw [hc]
  have hcapacity : c.capacity = n := by rw [hc]
  have hbits : c.capacity ≤ 8 * c.allocationBitmap.length := by rwa [hc]
  rw [← hmemory] at hnull hapart
  rw [← hcapacity] at hpos hapart hbounded
  have hplaced := h.placed.withChunk hnull hbits hapart
  have hlive := live_withChunk h.placed hnull hbits hapart hclear
  have hempty : s.tail = [] := by rw [tail, htail]; rfl
  have hsplit : Split (slotsOf s.objectSize c ++ s.slots) s.live [] (slotsOf s.objectSize c) :=
    (hempty ▸ h.split).extend (nodup_slotsOf h.placed.size) fun obj hobj =>
      notMem_slots h.placed hapart hobj
  have hslots : (slotsOf s.objectSize c ++ s.slots).length = s.slots.length + c.capacity := by
    rw [List.length_append, slotsOf, List.length_map, List.length_range, Nat.add_comm]
  refine ⟨⟨hplaced, fun _ => ⟨c, s.chunks, 0, rfl, Nat.zero_add _, ?_⟩, h.chain, ?_, ?_, h.freeCount,
    ?_, hbounded⟩, hlive, hpos, ?_⟩
  · rw [Nat.zero_mul]
    rfl
  · rw [hlive]
    exact hsplit
  · rw [hlive]
    exact h.allocatedCount
  · exact (congrArg (· + c.capacity) h.totalCapacity).trans hslots.symm
  · refine (locateObject_eq_some hplaced).2 ⟨c, rfl, hpos, ?_⟩
    rw [Nat.zero_mul]
    rfl

/-! ### Calls -/

theorem growSize_pos (s : Pool) : 0 < s.growSize := by
  unfold growSize
  dsimp only
  split_ifs <;> omega

/-- Nothing grows only where the pool is full or the heap has nothing to give. -/
theorem grow_eq_none (hsize : 0 < s.objectSize) (hcount : 0 < count)
    (h : s.grow count heap = none) :
    (s.maxCapacity ≠ 0 ∧ s.maxCapacity ≤ s.totalCapacity) ∨ heap = none ∨
      ∃ n, s.growCount count = some n ∧ sizeMax < n * s.objectSize := by
  unfold grow at h
  cases hn : s.growCount count with
  | none =>
    left
    unfold growCount at hn
    split_ifs at hn <;> omega
  | some n =>
    rw [hn] at h
    dsimp only at h
    by_cases hlarge : sizeMax / s.objectSize < n
    · exact Or.inr (Or.inr ⟨n, rfl, (Nat.div_lt_iff_lt_mul hsize).1 hlarge⟩)
    · rw [if_neg hlarge] at h
      cases heap with
      | none => exact Or.inr (Or.inl rfl)
      | some memory => cases h

/-- What a call of `alloc` does. -/
theorem Accounted.alloc (h : s.Accounted free) (hgrants : s.Grants s.growSize heap) :
    (s.alloc heap = (0, s) ∧ free = [] ∧ s.bumpRemaining = 0 ∧ s.grow s.growSize heap = none) ∨
      ∃ free', s.HandsOut (s.alloc heap) free' := by
  unfold Pool.alloc
  by_cases hhead : s.freeList ≠ 0
  · obtain ⟨i, slot, rest, hlocate, hclear, hready⟩ := h.ready_free hhead
    have hbit : (s.chunks[i]?).any (slotIsAllocated · slot) = false := by
      rw [isAllocated, hlocate] at hclear
      exact hclear
    rw [if_pos hhead, hlocate]
    dsimp only
    rw [hbit, if_neg Bool.false_ne_true]
    have hhands := hready.handsOut
    exact Or.inr ⟨rest, hhands.ne_null, hhands.notMem, hhands.live, hhands.accounted⟩
  · rw [if_neg hhead]
    have hempty : free = [] := by
      have hchain := h.chain
      rw [not_not.1 hhead] at hchain
      exact hchain.head_eq_null
    by_cases hpos : 0 < s.bumpRemaining
    · obtain ⟨slot, hlocate, hslot, hready⟩ := h.ready_bump hpos
      rw [if_pos hpos, hslot, allocBump]
      have hhands := hready.handsOut
      exact Or.inr ⟨free, hhands.ne_null, hhands.notMem, hhands.live, hhands.accounted⟩
    · rw [if_neg hpos]
      subst hempty
      have htail : s.bumpRemaining = 0 := Nat.eq_zero_of_not_pos hpos
      cases hgrow : s.grow s.growSize heap with
      | none => exact Or.inl ⟨rfl, rfl, htail, rfl⟩
      | some t =>
        obtain ⟨haccounted, hlive, hmore, hlocate⟩ := h.grow htail hgrants hgrow
        obtain ⟨slot, hlocate', -, hready⟩ := haccounted.ready_bump hmore
        obtain rfl : slot = 0 := by
          rw [hlocate] at hlocate'
          exact (Prod.mk.inj (Option.some.inj hlocate')).2.symm
        have hhands := hready.handsOut
        refine Or.inr ⟨[], hhands.ne_null, ?_, ?_, hhands.accounted⟩
        · rw [← hlive]
          exact hhands.notMem
        · rw [← hlive]
          exact hhands.live

theorem free_of_notMem (h : s.Placed) (hobj : obj ∉ s.live) : s.free obj = s := by
  rw [mem_live h, isAllocated] at hobj
  unfold Pool.free
  split
  · rfl
  next i slot hlocate =>
    rw [hlocate] at hobj
    have hbit : (s.chunks[i]?).any (slotIsAllocated · slot) = false := Bool.eq_false_iff.2 hobj
    rw [hbit]
    exact if_pos rfl

/-- A live object goes to the head of the free list. -/
theorem Accounted.giveBack (h : s.Accounted free) (hobj : obj ∈ s.live) :
    (s.free obj).Accounted (obj :: free) ∧ s.live.Perm (obj :: (s.free obj).live) := by
  have hbit := (mem_live h.placed).1 hobj
  have hmem : obj ∈ s.slots := List.mem_of_mem_filter hobj
  obtain ⟨⟨i, slot⟩, hlocate⟩ := (mem_slots_iff h.placed).1 hmem
  have hany : (s.chunks[i]?).any (slotIsAllocated · slot) = true := by
    rw [isAllocated, hlocate] at hbit
    exact hbit
  have hpositive : s.allocatedCount ≠ 0 := by
    rw [h.allocatedCount]
    exact Nat.pos_iff_ne_zero.1 (List.length_pos_of_mem hobj)
  have hlive := live_clear h.placed h.split.nodup hlocate hbit
  have hnull : obj ≠ 0 := by
    rintro rfl
    rw [locateObject, if_pos rfl] at hlocate
    cases hlocate
  have hslots : (s.setAllocated i slot false).slots = s.slots := slots_setAllocated
  have hplaced : (s.setAllocated i slot false).Placed := h.placed.setAllocated
  have hchain : Chain (Function.update s.words obj s.freeList) 0 obj (obj :: free) := by
    refine Chain.push (h.chain.congr fun a ha => ?_) hnull (Function.update_self _ _ _)
    refine Function.update_of_ne ?_ _ _
    rintro rfl
    exact h.split.notMem_free_of_used hobj ha
  have hcount : s.allocatedCount - 1 = (s.setAllocated i slot false).live.length := by
    rw [h.allocatedCount, hlive.length_eq, List.length_cons, Nat.add_sub_cancel]
  unfold Pool.free
  rw [hlocate]
  dsimp only
  rw [hany, if_neg (by decide), if_neg hpositive]
  refine ⟨⟨⟨hplaced.size, hplaced.memory, hplaced.apart⟩, h.newest.setAllocated, hchain, ?_, hcount, ?_,
    ?_, h.bounded⟩, hlive⟩
  · exact hslots ▸ h.split.give hlive
  · exact congrArg (· + 1) h.freeCount
  · exact h.totalCapacity.trans (congrArg List.length hslots.symm)

theorem Accounted.write {address : ℕ} (h : s.Accounted free) (hfreed : ¬s.Freed address)
    (value : ℕ) : Accounted { s with words := Function.update s.words address value } free := by
  refine ⟨⟨h.placed.size, h.placed.memory, h.placed.apart⟩, h.newest, ?_, h.split, h.allocatedCount,
    h.freeCount, h.totalCapacity, h.bounded⟩
  refine h.chain.congr fun a ha => Function.update_of_ne ?_ _ _
  rintro rfl
  exact hfreed ⟨a, h.split.mem_of_free ha, h.split.notMem_used_of_mem_free ha,
    h.split.notMem_tail_of_free ha, Nat.le_refl a, Nat.lt_add_of_pos_right h.placed.size⟩

end Pool

/-! ## Runs -/

theorem empty_accounted {size maxCapacity : ℕ} (hsize : 0 < size) (zeroOnAlloc : Bool)
    (words : ℕ → ℕ) :
    Pool.Accounted ⟨size, maxCapacity, zeroOnAlloc, 0, 0, 0, 0, [], 0, 0, 0, words⟩ [] :=
  ⟨⟨hsize, nofun, List.Pairwise.nil⟩, nofun, rfl, ⟨List.nodup_nil, List.Perm.refl _⟩, rfl, rfl, rfl,
    fun _ => Nat.zero_le _⟩

/-- A new pool, with its first chunk or without. -/
theorem create_accounted {config : Config} {words : ℕ → ℕ} {heap : Option ℕ} {s : Pool}
    (hheap : heap ≠ some 0) (h : create config words heap = some s) : s.Accounted [] := by
  have hptr : ptrSize = 8 := rfl
  unfold create at h
  obtain ⟨hsmall, h⟩ := Option.ite_none_left_eq_some.1 h
  obtain ⟨-, h⟩ := Option.ite_none_left_eq_some.1 h
  have hsize : 0 < if config.objectSize % ptrSize ≠ 0 then
      config.objectSize + (ptrSize - config.objectSize % ptrSize) else config.objectSize := by
    split_ifs <;> omega
  have hempty := @empty_accounted _ config.maxCapacity hsize config.zeroOnAlloc words
  dsimp only at h
  by_cases hinitial : 0 < config.initialCapacity
  · rw [if_pos hinitial] at h
    refine (hempty.grow rfl ?_ h).1
    intro n _ memory hmemory
    refine ⟨?_, nofun⟩
    rintro rfl
    exact hheap hmemory
  · rw [if_neg hinitial] at h
    obtain rfl := Option.some.inj h
    exact hempty

/-- One action keeps the accounts. -/
theorem step_accounted {s s' : Pool} {action : Action} (h : ∃ free, s.Accounted free)
    (hstep : step s action = some s') : ∃ free, s'.Accounted free := by
  obtain ⟨free, h⟩ := h
  cases action with
  | alloc heap =>
    obtain ⟨hgrants, hsome⟩ := Option.ite_none_right_eq_some.1 hstep
    obtain rfl := Option.some.inj hsome
    obtain ⟨hnull, -, -, -⟩ | ⟨free', hhands⟩ := h.alloc hgrants
    · rw [hnull]
      exact ⟨free, h⟩
    · exact ⟨free', hhands.accounted⟩
  | free obj =>
    obtain rfl := Option.some.inj hstep
    by_cases hobj : obj ∈ s.live
    · exact ⟨obj :: free, (h.giveBack hobj).1⟩
    · rw [Pool.free_of_notMem h.placed hobj]
      exact ⟨free, h⟩
  | resetStats =>
    obtain rfl := Option.some.inj hstep
    exact ⟨free, ⟨h.placed.size, h.placed.memory, h.placed.apart⟩, h.newest, h.chain, h.split,
      h.allocatedCount, h.freeCount, h.totalCapacity, h.bounded⟩
  | write address value =>
    obtain ⟨hfreed, hsome⟩ := Option.ite_none_left_eq_some.1 hstep
    obtain rfl := Option.some.inj hsome
    exact ⟨free, h.write hfreed value⟩

/-- After any actions: every slot is allocated, once on the free list or in the bump tail; the counts
are theirs; `alloc` returns a slot that was not allocated, or nothing where there is none; and only
freeing a live object changes anything. -/
theorem slot_accounting {config : Config} {words : ℕ → ℕ} {heap : Option ℕ} {s₀ s : Pool}
    {actions : List Action} (hheap : heap ≠ some 0) (hcreate : create config words heap = some s₀)
    (hrun : Transition.run step s₀ actions = some s) :
    (∃ free, Chain s.words 0 s.freeList free ∧ s.slots.Nodup ∧
      s.slots.Perm (s.live ++ free ++ s.tail) ∧ s.Newest ∧
      s.allocatedCount = s.live.length ∧
      s.freeCount + s.bumpRemaining = free.length + s.tail.length ∧
      s.totalCapacity = s.slots.length ∧
      (s.maxCapacity ≠ 0 → s.totalCapacity ≤ s.maxCapacity)) ∧
    (∀ heap, s.Grants s.growSize heap →
      ((s.alloc heap).1 ≠ 0 → (s.alloc heap).1 ∈ (s.alloc heap).2.slots ∧
        (s.alloc heap).1 ∉ s.live ∧ (s.alloc heap).2.live.Perm ((s.alloc heap).1 :: s.live)) ∧
      ((s.alloc heap).1 = 0 → (s.alloc heap).2 = s ∧ s.live.length = s.slots.length ∧
        ((s.maxCapacity ≠ 0 ∧ s.totalCapacity = s.maxCapacity) ∨ heap = none ∨
          ∃ n, s.growCount s.growSize = some n ∧ sizeMax < n * s.objectSize))) ∧
    ∀ obj, (obj ∉ s.live → s.free obj = s) ∧
      (obj ∈ s.live → s.live.Perm (obj :: (s.free obj).live)) := by
  obtain ⟨free, h⟩ := Transition.run_keeps (fun _ _ _ => step_accounted)
    ⟨[], create_accounted hheap hcreate⟩ hrun
  have htail : s.tail.length = s.bumpRemaining := by
    rw [Pool.tail, List.length_map, List.length_range]
  refine ⟨⟨free, h.chain, h.split.nodup, h.split.perm, h.newest, h.allocatedCount, ?_, h.totalCapacity,
    h.bounded⟩, fun heap hgrants => ?_, fun obj =>
    ⟨Pool.free_of_notMem h.placed, fun hobj => (h.giveBack hobj).2⟩⟩
  · rw [h.freeCount, htail]
  · obtain ⟨halloc, hfree, hbump, hgrow⟩ | ⟨free', hhands⟩ := h.alloc hgrants
    · rw [halloc]
      refine ⟨fun hne => absurd rfl hne, fun _ => ⟨rfl, ?_, ?_⟩⟩
      · rw [h.split.perm.length_eq, hfree, List.append_nil, List.length_append, htail, hbump,
          Nat.add_zero]
      · refine (Pool.grow_eq_none h.placed.size s.growSize_pos hgrow).imp_left fun hfull => ?_
        exact ⟨hfull.1, Nat.le_antisymm (h.bounded hfull.1) hfull.2⟩
    · refine ⟨fun _ => ⟨?_, hhands.notMem, hhands.live⟩, fun hnull => absurd hnull hhands.ne_null⟩
      have hmem := hhands.live.mem_iff.2 List.mem_cons_self
      exact List.mem_of_mem_filter hmem

/-- A pool of at most two objects, after two calls of `alloc` and one of `free`. -/
theorem slot_accounting_three : ∃ s₀ s, create ⟨8, 1, 2, true⟩ (fun _ => 0) (some 4096) = some s₀ ∧
    Transition.run step s₀ [.alloc none, .alloc (some 8192), .free 4096] = some s ∧
      s.live = [8192] ∧ s.maxCapacity ≠ 0 ∧ s.totalCapacity ≤ s.maxCapacity ∧ s.free 4096 = s := by
  obtain ⟨s₀, hcreate⟩ : ∃ s₀, create ⟨8, 1, 2, true⟩ (fun _ => 0) (some 4096) = some s₀ := ⟨_, rfl⟩
  obtain ⟨s, hrun⟩ : ∃ s, Transition.run step s₀ [.alloc none, .alloc (some 8192), .free 4096] =
      some s := by
    obtain rfl := Option.some.inj hcreate
    exact ⟨_, rfl⟩
  have h := slot_accounting (by decide) hcreate hrun
  have hlive : s.live = [8192] ∧ s.maxCapacity ≠ 0 := by
    obtain rfl := Option.some.inj hcreate
    obtain rfl := Option.some.inj hrun
    decide
  obtain ⟨⟨free, -, -, -, -, -, -, -, hbounded⟩, -, hfree⟩ := h
  refine ⟨s₀, s, hcreate, hrun, hlive.1, hlive.2, hbounded hlive.2, (hfree 4096).1 ?_⟩
  rw [hlive.1]
  decide

end ObjectPool
