import TurboUtils.Cstl.Hash.Table

/-! The hash map refines a bounded finite map over the classes of equal keys. -/
namespace Cstl.Hash

open BoundedMap (FMap Op Result toMap)

variable {K V : Type*}

def KeyTraits.setoid (t : KeyTraits K) : Setoid K := ⟨fun a b => t.equal a b = true, t.equivalence⟩

abbrev KeyTraits.Key (t : KeyTraits K) : Type _ := Quotient t.setoid

def KeyTraits.key (t : KeyTraits K) (k : K) : t.Key := Quotient.mk t.setoid k

instance (t : KeyTraits K) : DecidableEq t.Key :=
  @Quotient.decidableEq K t.setoid fun a b => inferInstanceAs (Decidable (t.equal a b = true))

theorem KeyTraits.key_eq (t : KeyTraits K) {a b : K} : t.key a = t.key b ↔ t.equal a b = true :=
  Quotient.eq (r := t.setoid)

theorem KeyTraits.hashOf_eq (t : KeyTraits K) {a b : K} (h : t.equal a b = true) :
    t.hashOf a = t.hashOf b := by
  unfold KeyTraits.hashOf
  rw [t.hash_eq a b h]

def Slot.binding (t : KeyTraits K) : Slot K V → Option (t.Key × V)
  | .occupied _ k v => some (t.key k, v)
  | _ => none

def bindings (t : KeyTraits K) (slots : List (Slot K V)) : List (t.Key × V) :=
  slots.filterMap (Slot.binding t)

def contents (t : KeyTraits K) (m : HashMap K V) : FMap t.Key V := toMap (bindings t m.slots)

structure Ok (t : KeyTraits K) (m : HashMap K V) : Prop where
  capacity : m.capacity = 0 ∨ (IsCapacity m.capacity ∧ m.capacity * 8 ≤ sizeMax)
  size_eq : m.size = m.slots.countP Slot.isOccupied
  tombstones_eq : m.tombstones = m.slots.countP Slot.isTombstone
  reach : ∀ i h k v, m.slots[i]? = some (.occupied h k v) → h = t.hashOf k ∧ Reaches m h i
  distinct : ((bindings t m.slots).map Prod.fst).Nodup

/-! ## Lists of slots around one index -/

theorem bindings_split (t : KeyTraits K) (a : List (Slot K V)) (s : Slot K V)
    (b : List (Slot K V)) :
    bindings t (a ++ s :: b) = bindings t a ++ (s.binding t).toList ++ bindings t b := by
  cases h : s.binding t <;> simp [bindings, h]

theorem split_at {slots : List (Slot K V)} {i : ℕ} {s : Slot K V} (h : slots[i]? = some s) :
    ∃ a b, slots = a ++ s :: b ∧ a.length = i ∧ ∀ x, slots.set i x = a ++ x :: b := by
  obtain ⟨hi, hs⟩ := List.getElem?_eq_some_iff.mp h
  refine ⟨slots.take i, slots.drop (i + 1), ?_, by rw [List.length_take]; omega, fun x => ?_⟩
  · rw [← hs, List.cons_getElem_drop_succ, List.take_append_drop]
  · rw [List.set_eq_take_append_cons_drop, if_pos hi]

theorem slot_getElem? {m : HashMap K V} {i : ℕ} (hi : i < m.capacity) :
    m.slots[i]? = some (m.slot i) := (slot_eq hi _).mp rfl

/-! ## Lookup -/

section lookup

variable {t : KeyTraits K} {m : HashMap K V} {key : K}

theorem Ok.isCapacity (h : Ok t m) {i : ℕ} (hi : i < m.capacity) : IsCapacity m.capacity := by
  rcases h.capacity with h0 | ⟨hc, -⟩
  · omega
  · exact hc

theorem findSlot_some {i : ℕ} (h : Ok t m) (hf : findSlot t m key = some i) :
    ∃ k v, m.slots[i]? = some (.occupied (t.hashOf key) k v) ∧ t.equal k key = true := by
  obtain ⟨⟨d, hi⟩, k, v, hslot, heq⟩ := findLoop_sound hf
  have hpos : 0 < m.capacity := by
    by_contra h0
    rw [findSlot, show m.capacity = 0 by omega] at hf
    exact absurd hf (by simp [findLoop])
  have hlt : i < m.capacity := by
    rw [hi]
    exact slotIndex_lt (h.isCapacity hpos) _ _
  exact ⟨k, v, (slot_eq hlt _).mp hslot, heq⟩

/-- A key that is bound is found. -/
theorem findSlot_none (h : Ok t m) (hf : findSlot t m key = none) :
    t.key key ∉ (bindings t m.slots).map Prod.fst := by
  intro hmem
  obtain ⟨x, hx, hkey⟩ := List.mem_map.mp hmem
  obtain ⟨s, hs, hb⟩ := List.mem_filterMap.mp hx
  cases s with
  | occupied hash k v =>
    obtain rfl := Option.some.inj hb
    have heq : t.equal k key = true := t.key_eq.mp hkey
    obtain ⟨i, hi⟩ := List.mem_iff_getElem?.mp hs
    obtain ⟨rfl, d, hd, rfl, hrun⟩ := h.reach i hash k v hi
    have hlt := slotIndex_lt (h.isCapacity (by omega)) (t.hashOf k) d
    have hsome : (findLoop t m key (t.hashOf k) m.capacity 0).isSome = true :=
      findLoop_complete (Nat.zero_le d) (by omega) ((slot_eq hlt _).mpr hi) heq hrun
    rw [t.hashOf_eq heq] at hsome
    rw [findSlot] at hf
    rw [hf] at hsome
    exact absurd hsome (by decide)
  | empty => exact absurd hb (by simp [Slot.binding])
  | tombstone => exact absurd hb (by simp [Slot.binding])

theorem Ok.apart (h : Ok t m) {a b : List (Slot K V)} {hash : ℕ} {k : K} {v : V}
    (hsplit : m.slots = a ++ .occupied hash k v :: b) :
    t.key k ∉ (bindings t a ++ bindings t b).map Prod.fst := by
  have hnodup := h.distinct
  rw [hsplit, bindings_split] at hnodup
  simp only [Slot.binding, Option.toList_some, List.append_assoc, List.map_append, List.map_cons,
    List.singleton_append] at hnodup
  rw [List.map_append]
  exact (List.nodup_middle.mp hnodup).notMem

theorem get_eq (h : Ok t m) : get t m key = (contents t m).lookup (t.key key) := by
  rw [contents, BoundedMap.lookup_toMap, get]
  cases hf : findSlot t m key with
  | none => rw [BoundedMap.assoc_eq_none (findSlot_none h hf)]
  | some i =>
    obtain ⟨k, v, hi, heq⟩ := findSlot_some h hf
    obtain ⟨a, b, hsplit, -, -⟩ := split_at hi
    have hslot : m.slot i = .occupied (t.hashOf key) k v := by
      rw [HashMap.slot, List.getD_eq_getElem?_getD, hi, Option.getD_some]
    have hapart := h.apart hsplit
    rw [List.map_append, List.mem_append, not_or] at hapart
    simp only [hslot]
    rw [hsplit, bindings_split, ← t.key_eq.mpr heq]
    simp only [Slot.binding, Option.toList_some, List.append_assoc, List.singleton_append]
    rw [BoundedMap.assoc_middle hapart.1]

theorem contents_card (h : Ok t m) : (contents t m).keys.card = m.size := by
  rw [contents, BoundedMap.card_keys_toMap h.distinct, h.size_eq, bindings]
  induction m.slots with
  | nil => rfl
  | cons s rest ih => cases s <;> simp [Slot.binding, Slot.isOccupied, List.filterMap_cons, List.countP_cons, ih]

end lookup

/-! ## One slot replaced -/

section replace

variable {t : KeyTraits K} {m m' : HashMap K V} {i : ℕ} {x : Slot K V}

theorem slot_set (hslots : m'.slots = m.slots.set i x) (hi : i < m.capacity) (j : ℕ) :
    m'.slot j = if j = i then x else m.slot j := by
  have hi : i < m.slots.length := hi
  rw [HashMap.slot, HashMap.slot, hslots, List.getD_eq_getElem?_getD, List.getD_eq_getElem?_getD,
    List.getElem?_set]
  by_cases hj : i = j
  · subst hj
    simp [hi]
  · simp [hj, Ne.symm hj]

theorem capacity_set (hslots : m'.slots = m.slots.set i x) : m'.capacity = m.capacity := by
  rw [HashMap.capacity, HashMap.capacity, hslots, List.length_set]

theorem Reaches.set {hash j : ℕ} (hslots : m'.slots = m.slots.set i x) (hi : i < m.capacity)
    (hx : x ≠ .empty) (h : Reaches m hash j) : Reaches m' hash j := by
  obtain ⟨d, hd, hat, hrun⟩ := h
  have hcap := capacity_set hslots
  refine ⟨d, by omega, by rw [hcap, hat], fun l hl => ?_⟩
  rw [hcap, slot_set hslots hi]
  split
  · exact hx
  · exact hrun l hl

/-- What is left to show of a table with one slot replaced. -/
theorem Ok.set (h : Ok t m) (hslots : m'.slots = m.slots.set i x) (hi : i < m.capacity)
    (hx : x ≠ .empty)
    (hsize : m'.size = m'.slots.countP Slot.isOccupied)
    (htombs : m'.tombstones = m'.slots.countP Slot.isTombstone)
    (hreach : ∀ hash k v, x = .occupied hash k v → hash = t.hashOf k ∧ Reaches m hash i)
    (hdistinct : ((bindings t m'.slots).map Prod.fst).Nodup) : Ok t m' := by
  refine ⟨by rw [capacity_set hslots]; exact h.capacity, hsize, htombs, ?_, hdistinct⟩
  intro j hash k v hj
  rw [hslots, List.getElem?_set] at hj
  have hold : m.slots[j]? = some (.occupied hash k v) ∨ (j = i ∧ x = .occupied hash k v) := by
    split at hj
    next hij =>
      split at hj
      · exact .inr ⟨hij.symm, Option.some.inj hj⟩
      · exact absurd hj (by simp)
    · exact .inl hj
  rcases hold with hj | ⟨rfl, hxeq⟩
  · exact ⟨(h.reach j hash k v hj).1, (h.reach j hash k v hj).2.set hslots hi hx⟩
  · exact ⟨(hreach hash k v hxeq).1, (hreach hash k v hxeq).2.set hslots hi hx⟩

end replace

/-! ## Entries in and out -/

section entries

variable {t : KeyTraits K} {m : HashMap K V}

theorem free_binding {s : Slot K V} (h : s.isOccupied = false) : s.binding t = none := by
  cases s with
  | occupied hash k v => exact absurd h (by simp [Slot.isOccupied])
  | empty => rfl
  | tombstone => rfl

/-- A new entry in a place for it. -/
theorem place_spec (h : Ok t m) {i : ℕ} {key : K} (hplace : Placement m (t.hashOf key) i)
    (hnew : t.key key ∉ (bindings t m.slots).map Prod.fst) (value : V) :
    Ok t (place m i (t.hashOf key) key value) ∧
      contents t (place m i (t.hashOf key) key value) =
        (contents t m).insert (t.key key) value := by
  obtain ⟨a, b, hsplit, -, hset⟩ := split_at (slot_getElem? hplace.lt)
  have hslots : (place m i (t.hashOf key) key value).slots =
      a ++ .occupied (t.hashOf key) key value :: b := hset _
  have hfree := free_binding (t := t) hplace.free
  have hsize := h.size_eq
  have htombs := h.tombstones_eq
  rw [hsplit] at hsize htombs hnew
  rw [bindings_split, hfree, Option.toList_none, List.append_nil] at hnew
  have hold : bindings t m.slots = bindings t a ++ bindings t b := by
    rw [hsplit, bindings_split, hfree, Option.toList_none, List.append_nil]
  have hbound : bindings t (place m i (t.hashOf key) key value).slots =
      bindings t a ++ (t.key key, value) :: bindings t b := by
    rw [hslots, bindings_split]
    simp [Slot.binding]
  have hdistinct := h.distinct
  rw [hold] at hdistinct
  have hnew' := hnew
  rw [List.map_append, List.mem_append, not_or] at hnew'
  constructor
  · apply h.set rfl hplace.lt (by simp)
    · rw [hslots]
      simp only [place, hsize, List.countP_append, List.countP_cons, hplace.free]
      simp [Slot.isOccupied, Nat.add_assoc]
    · rw [hslots]
      simp only [place, htombs, List.countP_append, List.countP_cons, Slot.isTombstone]
      split <;> simp_all
    · intro hash k v hocc
      obtain ⟨rfl, rfl, -⟩ := Slot.occupied.inj hocc
      exact ⟨rfl, hplace.reaches⟩
    · rw [hbound, List.map_append, List.map_cons]
      apply List.nodup_middle.mpr
      rw [← List.map_append]
      exact List.nodup_cons.mpr ⟨hnew, hdistinct⟩
  · rw [contents, contents, hbound, hold, BoundedMap.toMap_insert _ hnew'.1]

/-- A slot whose key is the wanted one takes a new value. -/
theorem replace_spec (h : Ok t m) {i : ℕ} {key k : K} {v : V}
    (hi : m.slots[i]? = some (.occupied (t.hashOf key) k v)) (heq : t.equal k key = true)
    (value : V) :
    Ok t { m with slots := m.slots.set i (.occupied (t.hashOf key) k value) } ∧
      contents t { m with slots := m.slots.set i (.occupied (t.hashOf key) k value) } =
        (contents t m).insert (t.key key) value := by
  obtain ⟨hlt, -⟩ := List.getElem?_eq_some_iff.mp hi
  obtain ⟨a, b, hsplit, -, hset⟩ := split_at hi
  have hapart := h.apart hsplit
  rw [List.map_append, List.mem_append, not_or] at hapart
  have hbound : ∀ w, bindings t (a ++ .occupied (t.hashOf key) k w :: b) =
      bindings t a ++ (t.key k, w) :: bindings t b := by
    intro w
    rw [bindings_split]
    simp [Slot.binding]
  have hsize := h.size_eq
  have htombs := h.tombstones_eq
  have hdistinct := h.distinct
  rw [hsplit] at hsize htombs hdistinct
  rw [hbound] at hdistinct
  constructor
  · apply h.set rfl hlt (by simp)
    · rw [hset]
      simpa [Slot.isOccupied, List.countP_cons] using hsize
    · rw [hset]
      simpa [Slot.isTombstone, List.countP_cons] using htombs
    · intro hash k' v' hocc
      obtain ⟨rfl, rfl, -⟩ := Slot.occupied.inj hocc
      exact h.reach i _ _ v hi
    · rw [hset, hbound]
      simpa using hdistinct
  · rw [contents, contents, hset, hsplit, hbound, hbound, ← t.key_eq.mpr heq,
      BoundedMap.toMap_replace _ hapart.1 v]

/-- A slot whose key is the wanted one becomes a tombstone. -/
theorem bury_spec (h : Ok t m) {i : ℕ} {key k : K} {v : V}
    (hi : m.slots[i]? = some (.occupied (t.hashOf key) k v)) (heq : t.equal k key = true) :
    Ok t { m with
      slots := m.slots.set i .tombstone, size := m.size - 1, tombstones := m.tombstones + 1 } ∧
      contents t { m with
        slots := m.slots.set i .tombstone, size := m.size - 1, tombstones := m.tombstones + 1 } =
        (contents t m).erase (t.key key) := by
  obtain ⟨hlt, -⟩ := List.getElem?_eq_some_iff.mp hi
  obtain ⟨a, b, hsplit, -, hset⟩ := split_at hi
  have hapart := h.apart hsplit
  have hgone : bindings t (a ++ .tombstone :: b) = bindings t a ++ bindings t b := by
    rw [bindings_split]
    simp [Slot.binding]
  have hsize := h.size_eq
  have htombs := h.tombstones_eq
  have hdistinct := h.distinct
  rw [hsplit] at hsize htombs hdistinct
  rw [bindings_split] at hdistinct
  simp only [Slot.binding, Option.toList_some, List.append_assoc, List.map_append, List.map_cons,
    List.singleton_append] at hdistinct
  constructor
  · apply h.set rfl hlt (by simp)
    · simp only [hset, hsize, List.countP_append, List.countP_cons, Slot.isOccupied]
      simp
    · simp only [hset, htombs, List.countP_append, List.countP_cons, Slot.isTombstone]
      simp
      omega
    · intro hash k' v' hocc
      exact absurd hocc (by simp)
    · simp only [hset]
      rw [hgone, List.map_append]
      exact (List.nodup_middle.mp hdistinct).of_cons
  · simp only [contents, hset]
    rw [hsplit, hgone, bindings_split, ← t.key_eq.mpr heq]
    simp only [Slot.binding, Option.toList_some, List.append_assoc, List.singleton_append]
    exact BoundedMap.toMap_erase hapart v

end entries

/-! ## Rehashing -/

section rehash

variable {t : KeyTraits K} {m next : HashMap K V} {rest : List (Slot K V)}

theorem Ok.exists_free (h : Ok t m) (hroom : m.size < m.capacity) :
    ∃ i < m.capacity, (m.slot i).isOccupied = false := by
  by_contra hnone
  push Not at hnone
  have hall : m.slots.countP Slot.isOccupied = m.slots.length := by
    apply List.countP_eq_length.mpr
    intro s hs
    obtain ⟨i, hi⟩ := List.mem_iff_getElem?.mp hs
    obtain ⟨hlt, -⟩ := List.getElem?_eq_some_iff.mp hi
    have hocc := hnone i hlt
    rw [(slot_eq hlt s).mpr hi] at hocc
    exact Bool.eq_true_of_not_eq_false hocc
  rw [← h.size_eq] at hall
  exact absurd hroom (by rw [hall]; exact lt_irrefl _)

theorem Ok.placement (h : Ok t m) (hroom : m.size < m.capacity) (hash : ℕ) :
    Placement m hash (insertSlot m hash) := by
  rcases h.capacity with h0 | ⟨hc, hbytes⟩
  · omega
  · exact insertSlot_placement hash hc (by omega) (h.exists_free hroom)

/-- What the loop of `hash_map_rehash` keeps: the new table holds no tombstone, and has room
for the entries that are still to be moved. -/
structure Filling (t : KeyTraits K) (next : HashMap K V) (rest : List (Slot K V)) : Prop where
  ok : Ok t next
  clean : next.tombstones = 0
  room : next.size + rest.countP Slot.isOccupied ≤ next.capacity
  hashes : ∀ hash k v, .occupied hash k v ∈ rest → hash = t.hashOf k
  distinct : ((bindings t next.slots ++ bindings t rest).map Prod.fst).Nodup

theorem Filling.skip {s : Slot K V} (h : Filling t next (s :: rest)) (hs : s.isOccupied = false) :
    Filling t next rest := by
  have hroom := h.room
  have hdistinct := h.distinct
  rw [List.countP_cons, hs] at hroom
  rw [bindings, bindings, List.filterMap_cons, free_binding hs] at hdistinct
  exact ⟨h.ok, h.clean, hroom, fun hash k v hmem => h.hashes hash k v (.tail _ hmem), hdistinct⟩

theorem rehashInsert_eq (h : Ok t next) (hclean : next.tombstones = 0) {hash : ℕ}
    (hplace : Placement next hash (insertSlot next hash)) (k : K) (v : V) :
    rehashInsert next hash k v = place next (insertSlot next hash) hash k v := by
  have hno : (next.slot (insertSlot next hash)).isTombstone = false := by
    have hcount := h.tombstones_eq
    rw [hclean] at hcount
    have hmem := List.mem_iff_getElem?.mpr ⟨_, slot_getElem? hplace.lt⟩
    exact Bool.eq_false_of_not_eq_true (List.countP_eq_zero.mp hcount.symm _ hmem)
  rw [rehashInsert, place, hno]
  rfl

theorem Filling.insert {hash : ℕ} {k : K} {v : V}
    (h : Filling t next (.occupied hash k v :: rest)) :
    insertSlot next hash < next.capacity ∧ Filling t (rehashInsert next hash k v) rest ∧
      toMap (bindings t (rehashInsert next hash k v).slots) =
        toMap (bindings t next.slots ++ [(t.key k, v)]) := by
  have hroom := h.room
  rw [List.countP_cons] at hroom
  simp only [Slot.isOccupied, if_true] at hroom
  obtain rfl := h.hashes hash k v (.head _)
  have hplace := h.ok.placement (by omega) (t.hashOf k)
  have hdistinct := h.distinct
  rw [show bindings t (.occupied (t.hashOf k) k v :: rest) = (t.key k, v) :: bindings t rest from
    rfl, List.map_append, List.map_cons] at hdistinct
  have hcons := List.nodup_middle.mp hdistinct
  have hnot := hcons.notMem
  rw [List.mem_append, not_or] at hnot
  obtain ⟨hok, hcontents⟩ := place_spec h.ok hplace hnot.1 v
  rw [← rehashInsert_eq h.ok h.clean hplace] at hok hcontents
  have hmap : toMap (bindings t (rehashInsert next (t.hashOf k) k v).slots) =
      toMap (bindings t next.slots ++ [(t.key k, v)]) := by
    rw [BoundedMap.toMap_insert _ hnot.1, List.append_nil]
    exact hcontents
  refine ⟨hplace.lt, ⟨hok, h.clean, ?_, ?_, ?_⟩, hmap⟩
  · rw [show (rehashInsert next (t.hashOf k) k v).capacity = next.capacity from capacity_set rfl]
    simp only [rehashInsert]
    omega
  · exact fun hash k v hmem => h.hashes hash k v (.tail _ hmem)
  · have hrest := List.nodup_append.mp hcons.of_cons
    rw [List.map_append]
    apply List.nodup_append.mpr
    refine ⟨hok.distinct, hrest.2.1, ?_⟩
    intro a ha b hb hab
    subst hab
    rw [← BoundedMap.mem_toMap, hmap, BoundedMap.mem_toMap, List.map_append, List.mem_append] at ha
    rcases ha with ha | ha
    · exact hrest.2.2 a ha a hb rfl
    · obtain rfl := List.mem_singleton.mp ha
      exact hnot.2 hb

/-- The loop over a part of the old slots. -/
theorem Filling.loop {moved : List (Slot K V)} (h : Filling t next (moved ++ rest)) :
    Filling t (rehashLoop moved next) rest ∧
      (rehashLoop moved next).capacity = next.capacity ∧
      (rehashLoop moved next).entryLimit = next.entryLimit ∧
      toMap (bindings t (rehashLoop moved next).slots) =
        toMap (bindings t next.slots ++ bindings t moved) := by
  induction moved generalizing next with
  | nil => exact ⟨h, rfl, rfl, by simp [rehashLoop, bindings]⟩
  | cons s moved ih =>
    cases s with
    | occupied hash k v =>
      obtain ⟨-, hnext, hmap⟩ := h.insert
      obtain ⟨hfill, hcap, hlimit, hloop⟩ := ih hnext
      refine ⟨hfill, hcap.trans (capacity_set rfl), hlimit, hloop.trans ?_⟩
      rw [BoundedMap.toMap_append_congr hmap, List.append_assoc]
      rfl
    | empty => exact ih (h.skip rfl)
    | tombstone => exact ih (h.skip rfl)

theorem freshTable_capacity (m : HashMap K V) (c : ℕ) : (freshTable m c).capacity = c :=
  List.length_replicate

theorem freshTable_bindings (m : HashMap K V) (c : ℕ) : bindings t (freshTable m c).slots = [] := by
  simp [bindings, freshTable, Slot.binding]

theorem freshTable_ok {c : ℕ} (hc : c = 0 ∨ (IsCapacity c ∧ c * 8 ≤ sizeMax)) :
    Ok t (freshTable m c) := by
  refine ⟨by rw [freshTable_capacity]; exact hc, ?_, ?_, ?_, ?_⟩
  · simp [freshTable, Slot.isOccupied, List.countP_replicate]
  · simp [freshTable, Slot.isTombstone, List.countP_replicate]
  · intro i hash k v hi
    exact absurd hi (by simp [freshTable, List.getElem?_replicate])
  · simp [freshTable_bindings]

theorem freshTable_filling (h : Ok t m) {c : ℕ} (hc : IsCapacity c) (hbytes : c * 8 ≤ sizeMax)
    (hsize : m.size ≤ c) : Filling t (freshTable m c) m.slots := by
  refine ⟨freshTable_ok (.inr ⟨hc, hbytes⟩), rfl, ?_, ?_, ?_⟩
  · rw [freshTable_capacity, ← h.size_eq]
    simpa [freshTable] using hsize
  · intro hash k v hmem
    obtain ⟨i, hi⟩ := List.mem_iff_getElem?.mp hmem
    exact (h.reach i hash k v hi).1
  · rw [freshTable_bindings]
    exact h.distinct

/-- The capacity that a rehash is called with. -/
theorem rehashCapacity_spec (h : Ok t m) {entries buckets : ℕ}
    (hb : bucketsForEntries entries = some buckets) (hmust : mustRehash m buckets = true) :
    IsCapacity (rehashCapacity m buckets) ∧ buckets ≤ rehashCapacity m buckets ∧
      m.size ≤ rehashCapacity m buckets := by
  have hsize : m.size ≤ m.capacity := by
    rw [h.size_eq]
    exact List.countP_le_length
  have hbuckets : buckets = 0 ∨ IsCapacity buckets := by
    rcases bucketsForEntries_spec hb with ⟨-, h0⟩ | ⟨hc, -⟩
    · exact .inl h0
    · exact .inr hc
  simp only [mustRehash, Bool.or_eq_true, Bool.and_eq_true, decide_eq_true_eq] at hmust
  unfold rehashCapacity
  split
  next hlt => exact ⟨h.isCapacity hlt, by omega, hsize⟩
  next hge =>
    refine ⟨hbuckets.resolve_left fun h0 => ?_, le_rfl, by omega⟩
    omega

/-- `hash_map_rehash` as its callers use it. -/
theorem rehash_spec (h : Ok t m) {alloc : ℕ → Bool} {entries buckets : ℕ} {m' : HashMap K V}
    (hb : bucketsForEntries entries = some buckets) (hmust : mustRehash m buckets = true)
    (hm' : rehash alloc m (rehashCapacity m buckets) = some m') :
    Ok t m' ∧ contents t m' = contents t m ∧ m'.entryLimit = m.entryLimit ∧
      buckets ≤ m'.capacity := by
  obtain ⟨hc, hle, hsize⟩ := rehashCapacity_spec h hb hmust
  unfold rehash at hm'
  split at hm'
  next halloc =>
    obtain rfl := Option.some.inj hm'
    simp only [allocate, Bool.and_eq_true, decide_eq_true_eq] at halloc
    have hfill := freshTable_filling h hc halloc.1 hsize
    rw [← List.append_nil m.slots] at hfill
    obtain ⟨hdone, hcap, hlimit, hmap⟩ := hfill.loop
    refine ⟨hdone.ok, ?_, hlimit, ?_⟩
    · rw [contents, hmap, freshTable_bindings, List.nil_append, contents]
    · rw [hcap, freshTable_capacity]
      exact hle
  · exact absurd hm' (by simp)

end rehash

/-! ## Calls -/

def absOp (t : KeyTraits K) : Op K V → Op t.Key V
  | .put k v => .put (t.key k) v
  | .remove k => .remove (t.key k)
  | .clear => .clear
  | .get k => .get (t.key k)

/-- The bounded finite map, with a `reserve` that changes nothing: it is refused above the
limit, and for a number of entries that no table can be sized for. -/
def specStep (t : KeyTraits K) (limit : ℕ) (f : FMap t.Key V) :
    Call K V → FMap t.Key V × Result V
  | .op o => BoundedMap.step limit f (absOp t o)
  | .reserve n =>
      (f, if n ≤ limit ∧ (bucketsForEntries n).isSome = true then ⟨.ok, none⟩
        else ⟨.capacityExceeded, none⟩)

def specRun (t : KeyTraits K) (limit : ℕ) (f : FMap t.Key V) :
    List (Call K V) → List (FMap t.Key V × Result V)
  | [] => []
  | c :: cs => specStep t limit f c :: specRun t limit (specStep t limit f c).1 cs

section calls

variable {t : KeyTraits K} {m : HashMap K V}

/-- The map after a call and its answer, against those of the bounded map. -/
structure Matches (t : KeyTraits K) (limit : ℕ) (x : HashMap K V × Option (Result V))
    (y : FMap t.Key V × Result V) : Prop where
  ok : Ok t x.1
  limit_eq : x.1.entryLimit = limit
  contents_eq : contents t x.1 = y.1
  answer_eq : x.2 = some y.2

theorem ensureInsert_spec (h : Ok t m) (alloc : ℕ → Bool) :
    ensureInsert alloc m ≠ .capacityExceeded ∧
      ∀ m', ensureInsert alloc m = .ok m' → Ok t m' ∧ contents t m' = contents t m ∧
        m'.entryLimit = m.entryLimit ∧ m'.size < m'.capacity := by
  have hsize : m.size ≤ m.capacity := by
    rw [h.size_eq]
    exact List.countP_le_length
  have hbound : m.capacity * 8 ≤ sizeMax := by
    rcases h.capacity with h0 | ⟨-, hbytes⟩ <;> omega
  simp only [sizeMax] at hbound
  obtain ⟨buckets, hb⟩ := Option.isSome_iff_exists.mp
    (show (bucketsForEntries (m.size + 1)).isSome = true from bucketsForEntries_isSome (by omega))
  have hlt : m.size + 1 < buckets := by
    rcases bucketsForEntries_spec hb with ⟨h0, -⟩ | ⟨-, hlt⟩ <;> omega
  unfold ensureInsert
  rw [if_neg (by simp only [sizeMax]; omega), hb]
  dsimp only
  split
  next hmust =>
    split
    · exact ⟨by simp, fun m' hm' => by simp at hm'⟩
    next grown hgrown =>
      obtain ⟨hok, hcontents, hlimit, hcap⟩ := rehash_spec h hb hmust hgrown
      refine ⟨by simp, fun m' hm' => ?_⟩
      obtain rfl := Grown.ok.inj hm'
      refine ⟨hok, hcontents, hlimit, ?_⟩
      rw [← contents_card hok, hcontents, contents_card h]
      omega
  next hmust =>
    refine ⟨by simp, fun m' hm' => ?_⟩
    obtain rfl := Grown.ok.inj hm'
    simp only [mustRehash, Bool.or_eq_true, decide_eq_true_eq, not_or] at hmust
    exact ⟨h, rfl, rfl, by omega⟩

theorem mem_contents {key : K} :
    t.key key ∈ contents t m ↔ t.key key ∈ (bindings t m.slots).map Prod.fst :=
  BoundedMap.mem_toMap

theorem put_matches (h : Ok t m) (alloc : ℕ → Bool) (key : K) (value : V)
    (hanswer : (put t alloc m key value).2 ≠ none) :
    Matches t m.entryLimit (put t alloc m key value)
      (BoundedMap.step m.entryLimit (contents t m) (.put (t.key key) value)) := by
  revert hanswer
  unfold put
  split
  next i hf =>
    intro _
    obtain ⟨k, v, hi, heq⟩ := findSlot_some h hf
    have hslot : m.slot i = .occupied (t.hashOf key) k v := by
      rw [HashMap.slot, List.getD_eq_getElem?_getD, hi, Option.getD_some]
    have hmem : t.key key ∈ contents t m := by
      rw [← Finmap.lookup_isSome, ← get_eq h, get, hf]
      simp [hslot]
    obtain ⟨hok, hcontents⟩ := replace_spec h hi heq value
    rw [BoundedMap.step, if_pos (.inl hmem), hslot]
    exact ⟨hok, rfl, hcontents, rfl⟩
  next hf =>
    have hnew := findSlot_none h hf
    have hmem : t.key key ∉ contents t m := fun hin => hnew (mem_contents.mp hin)
    have hcard := contents_card h
    split
    next hfull =>
      intro _
      rw [BoundedMap.step, if_neg (not_or.mpr ⟨hmem, by omega⟩)]
      exact ⟨h, rfl, rfl, rfl⟩
    next hroom =>
      obtain ⟨hnever, hgrown⟩ := ensureInsert_spec h alloc
      split
      next hcap => exact absurd hcap hnever
      · exact fun hnone => absurd rfl hnone
      next m' hm' =>
        intro _
        obtain ⟨hok', hcontents', hlimit', hfree⟩ := hgrown m' hm'
        have hnew' : t.key key ∉ (bindings t m'.slots).map Prod.fst := by
          rw [← mem_contents, hcontents']
          exact hmem
        obtain ⟨hok, hcontents⟩ :=
          place_spec hok' (hok'.placement hfree (t.hashOf key)) hnew' value
        rw [BoundedMap.step, if_pos (.inr (by omega))]
        exact ⟨hok, hlimit', by rw [hcontents, hcontents'], rfl⟩

theorem remove_matches (h : Ok t m) (key : K) :
    Matches t m.entryLimit ((remove t m key).1, some (remove t m key).2)
      (BoundedMap.step m.entryLimit (contents t m) (.remove (t.key key))) := by
  have hget : get t m key = (contents t m).lookup (t.key key) := get_eq h
  unfold remove
  split
  next hf =>
    rw [get, hf] at hget
    simp only [BoundedMap.step, ← hget]
    exact ⟨h, rfl, rfl, rfl⟩
  next i hf =>
    obtain ⟨k, v, hi, heq⟩ := findSlot_some h hf
    have hslot : m.slot i = .occupied (t.hashOf key) k v := by
      rw [HashMap.slot, List.getD_eq_getElem?_getD, hi, Option.getD_some]
    have hv : get t m key = some v := by
      rw [get, hf]
      simp [hslot]
    rw [hv] at hget
    obtain ⟨hok, hcontents⟩ := bury_spec h hi heq
    simp only [BoundedMap.step, ← hget, hv]
    exact ⟨hok, rfl, hcontents, rfl⟩

theorem clear_matches (h : Ok t m) :
    Matches t m.entryLimit (clear m, some ⟨.ok, none⟩)
      (BoundedMap.step m.entryLimit (contents t m) (.clear : Op t.Key V)) := by
  unfold clear
  split
  next hsize =>
    refine ⟨freshTable_ok h.capacity, rfl, ?_, rfl⟩
    exact congrArg toMap (freshTable_bindings m m.capacity)
  next hsize =>
    refine ⟨h, rfl, ?_, rfl⟩
    have hcard := contents_card h
    rw [not_not] at hsize
    rw [hsize, Finset.card_eq_zero] at hcard
    apply Finmap.ext_lookup
    intro k
    rw [BoundedMap.step, Finmap.lookup_empty, Finmap.lookup_eq_none, ← Finmap.mem_keys, hcard]
    exact Finset.notMem_empty k

theorem reserve_matches (h : Ok t m) (alloc : ℕ → Bool) (n : ℕ)
    (hanswer : (reserve alloc m n).2 ≠ none) :
    Matches t m.entryLimit (reserve alloc m n)
      (specStep t m.entryLimit (contents t m) (.reserve n)) := by
  revert hanswer
  rw [specStep, reserve]
  split
  next hlimit =>
    rw [if_neg fun hfits => absurd hfits.1 (by omega)]
    exact fun _ => ⟨h, rfl, rfl, rfl⟩
  next hlimit =>
    cases hb : bucketsForEntries n with
    | none =>
      rw [if_neg (by simp)]
      exact fun _ => ⟨h, rfl, rfl, rfl⟩
    | some buckets =>
      rw [if_pos ⟨by omega, rfl⟩]
      dsimp only
      split
      next hmust =>
        split
        · exact fun hnone => absurd rfl hnone
        next m' hm' =>
          obtain ⟨hok, hcontents, hlimit', -⟩ := rehash_spec h hb hmust hm'
          exact fun _ => ⟨hok, hlimit', hcontents, rfl⟩
      · exact fun _ => ⟨h, rfl, rfl, rfl⟩

theorem step_matches (h : Ok t m) (alloc : ℕ → Bool) (c : Call K V)
    (hanswer : (step t alloc m c).2 ≠ none) :
    Matches t m.entryLimit (step t alloc m c) (specStep t m.entryLimit (contents t m) c) := by
  cases c with
  | reserve n => exact reserve_matches h alloc n hanswer
  | op o =>
    cases o with
    | put k v => exact put_matches h alloc k v hanswer
    | remove k => exact remove_matches h k
    | clear => exact clear_matches h
    | get k =>
      refine ⟨h, rfl, rfl, ?_⟩
      rw [step, specStep, absOp, BoundedMap.step, get_eq h]

theorem run_matches (h : Ok t m) (alloc : ℕ → Bool) (calls : List (Call K V))
    (hanswer : ∀ x ∈ run t alloc m calls, x.2 ≠ none) :
    List.Forall₂ (Matches t m.entryLimit) (run t alloc m calls)
      (specRun t m.entryLimit (contents t m) calls) := by
  induction calls generalizing m with
  | nil => exact .nil
  | cons c cs ih =>
    have hstep := step_matches h alloc c (hanswer _ (.head _))
    have hrest := ih hstep.ok fun x hx => hanswer x (.tail _ hx)
    rw [hstep.limit_eq, hstep.contents_eq] at hrest
    exact .cons hstep hrest

end calls

/-! ## The refinement -/

/-- The representation after a call, and where `hash_map_insert_slot` leads from there: in
`hash_map_put` once `hash_map_ensure_insert` is through, and at every entry that a rehash
moves. -/
structure WellFormed (t : KeyTraits K) (alloc : ℕ → Bool) (m : HashMap K V) : Prop where
  capacity : m.capacity = 0 ∨ (16 ≤ m.capacity ∧ ∃ e, m.capacity = 2 ^ e)
  size_eq : m.size = m.slots.countP Slot.isOccupied
  tombstones_eq : m.tombstones = m.slots.countP Slot.isTombstone
  reach : ∀ i h k v, m.slots[i]? = some (.occupied h k v) → h = t.hashOf k ∧ Reaches m h i
  put_slot : ∀ m', ensureInsert alloc m = .ok m' → ∀ key,
    insertSlot m' (t.hashOf key) < m'.capacity
  rehash_slot : ∀ entries buckets m', bucketsForEntries entries = some buckets →
    mustRehash m buckets = true → rehash alloc m (rehashCapacity m buckets) = some m' →
    ∀ moved h k v rest, m.slots = moved ++ .occupied h k v :: rest →
      insertSlot (rehashLoop moved (freshTable m (rehashCapacity m buckets))) h <
        rehashCapacity m buckets

theorem Ok.wellFormed {t : KeyTraits K} {m : HashMap K V} (h : Ok t m) (alloc : ℕ → Bool) :
    WellFormed t alloc m := by
  refine ⟨?_, h.size_eq, h.tombstones_eq, h.reach, ?_, ?_⟩
  · rcases h.capacity with h0 | ⟨⟨e, h4, -, he⟩, -⟩
    · exact .inl h0
    · right
      refine ⟨?_, e, he⟩
      calc 16 = 2 ^ 4 := by norm_num
        _ ≤ 2 ^ e := Nat.pow_le_pow_right (by norm_num) h4
        _ = m.capacity := he.symm
  · intro m' hm' key
    obtain ⟨hok, -, -, hfree⟩ := (ensureInsert_spec h alloc).2 m' hm'
    exact (hok.placement hfree (t.hashOf key)).lt
  · intro entries buckets m' hb hmust hm' moved hash k v rest hsplit
    obtain ⟨hc, -, hsize⟩ := rehashCapacity_spec h hb hmust
    have halloc : allocate alloc (rehashCapacity m buckets) = true := by
      by_contra hno
      rw [rehash, if_neg hno] at hm'
      exact absurd hm' (by simp)
    simp only [allocate, Bool.and_eq_true, decide_eq_true_eq] at halloc
    have hfill := freshTable_filling h hc halloc.1 hsize
    rw [hsplit] at hfill
    obtain ⟨hnext, hcap, -, -⟩ := hfill.loop
    have hlt := hnext.insert.1
    rw [hcap, freshTable_capacity] at hlt
    exact hlt

/-- The map after a call and its answer agree with the bounded map's. -/
structure Agrees (t : KeyTraits K) (alloc : ℕ → Bool) (x : HashMap K V × Option (Result V))
    (y : FMap t.Key V × Result V) : Prop where
  wellFormed : WellFormed t alloc x.1
  contents_eq : contents t x.1 = y.1
  answer_eq : x.2 = some y.2

/-- Every sequence of calls whose allocations succeed answers like a finite map bounded by
`entry_limit`, over well-formed tables. -/
theorem hash_map_refines_bounded_map (t : KeyTraits K) (alloc : ℕ → Bool) (limit : ℕ)
    (calls : List (Call K V)) (h : ∀ x ∈ run t alloc (init K V limit) calls, x.2 ≠ none) :
    WellFormed t alloc (init K V limit) ∧
      List.Forall₂ (Agrees t alloc) (run t alloc (init K V limit) calls)
        (specRun t limit ∅ calls) := by
  have hinit : Ok t (init K V limit) := freshTable_ok (m := init K V limit) (.inl rfl)
  refine ⟨hinit.wellFormed alloc, ?_⟩
  have hrun := run_matches hinit alloc calls h
  apply List.Forall₂.imp _ hrun
  intro x y hxy
  exact ⟨hxy.ok.wellFormed alloc, hxy.contents_eq, hxy.answer_eq⟩

def natKeys : KeyTraits ℕ where
  hash k := k % 2 ^ 64
  equal a b := a == b
  hash_lt k := Nat.mod_lt _ (by norm_num)
  equivalence := by
    constructor
    · simp
    · exact fun h => beq_iff_eq.mpr (eq_of_beq h).symm
    · exact fun h h' => beq_iff_eq.mpr ((eq_of_beq h).trans (eq_of_beq h'))
  hash_eq a b h := by rw [eq_of_beq h]

/-- A table of two entries, one of them replaced by a tombstone. -/
theorem hash_map_refines_removal :
    List.Forall₂ (Agrees natKeys fun _ => true)
      (run natKeys (fun _ => true) (init ℕ ℕ 2)
        [.op (.put 1 10), .op (.put 17 20), .op (.remove 1), .op (.get 17), .reserve 3])
      (specRun natKeys 2 ∅
        [.op (.put 1 10), .op (.put 17 20), .op (.remove 1), .op (.get 17), .reserve 3]) :=
  (hash_map_refines_bounded_map natKeys (fun _ => true) 2 _ (by decide)).2

end Cstl.Hash
