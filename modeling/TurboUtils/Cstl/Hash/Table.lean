import TurboUtils.Lib.BoundedMap

/-! `hash_map_t`: open addressing with linear probing and tombstones. The arrays of states,
hashes, keys and values are one list of slots; the generation, which only iterators read,
is left out. -/
namespace Cstl.Hash

/-- `SIZE_MAX`. -/
def sizeMax : ℕ := 2 ^ 64 - 1

/-- `SALTS_HASH_MIN_BUCKETS`. -/
def minBuckets : ℕ := 16

/-- The hash and equality of a key type: an equivalence whose equal keys hash equally. -/
structure KeyTraits (K : Type*) where
  hash : K → ℕ
  equal : K → K → Bool
  hash_lt : ∀ k, hash k < 2 ^ 64
  equivalence : Equivalence fun a b => equal a b = true
  hash_eq : ∀ a b, equal a b = true → hash a = hash b

/-- `SALTS_HASH_EMPTY`, `SALTS_HASH_OCCUPIED` with what the slot holds, and
`SALTS_HASH_TOMBSTONE`. -/
inductive Slot (K V : Type*) where
  | empty
  | occupied (hash : ℕ) (key : K) (value : V)
  | tombstone
  deriving DecidableEq

def Slot.isOccupied {K V : Type*} : Slot K V → Bool
  | .occupied _ _ _ => true
  | _ => false

def Slot.isTombstone {K V : Type*} : Slot K V → Bool
  | .tombstone => true
  | _ => false

structure HashMap (K V : Type*) where
  slots : List (Slot K V)
  size : ℕ
  tombstones : ℕ
  entryLimit : ℕ

variable {K V : Type*}

/-- A map after `hash_map_init` with its limit. -/
def init (K V : Type*) (entryLimit : ℕ) : HashMap K V := ⟨[], 0, 0, entryLimit⟩

namespace HashMap

def capacity (m : HashMap K V) : ℕ := m.slots.length

def slot (m : HashMap K V) (i : ℕ) : Slot K V := m.slots.getD i .empty

end HashMap

/-! ## Sizing -/

/-- The doubling loop of `hash_buckets_for_entries`. -/
def growBuckets : ℕ → ℕ → ℕ → Option ℕ
  | 0, _, _ => none
  | fuel + 1, buckets, requested =>
      if buckets < requested then
        if sizeMax / 2 < buckets then none else growBuckets fuel (buckets * 2) requested
      else some buckets

/-- `hash_buckets_for_entries`; `none` is `STL_CAPACITY_EXCEEDED`. -/
def bucketsForEntries (entries : ℕ) : Option ℕ :=
  if entries = 0 then some 0
  else
    let quotient := entries / 7
    let remainder := entries % 7
    if sizeMax / 3 < quotient then none
    else
      let extra := quotient * 3 + (remainder * 3 + 6) / 7
      if sizeMax - entries < extra then none
      else
        let requested := entries + extra
        growBuckets 64 minBuckets (if requested < minBuckets then minBuckets else requested)

/-- `hash_map_allocate` succeeds: the array of hashes fits a `size_t`, and `alloc` stands
for the rest of the layout and for the allocator. -/
def allocate (alloc : ℕ → Bool) (capacity : ℕ) : Bool :=
  decide (capacity * 8 ≤ sizeMax) && alloc capacity

/-! ## Probing -/

/-- `hash_map_hash`. -/
def KeyTraits.hashOf (t : KeyTraits K) (key : K) : ℕ := if t.hash key = 0 then 1 else t.hash key

/-- `(hash + probe) & mask`. -/
def slotIndex (capacity hash probe : ℕ) : ℕ := (hash + probe) % 2 ^ 64 &&& (capacity - 1)

/-- The loop of `hash_map_find_slot`. -/
def findLoop (t : KeyTraits K) (m : HashMap K V) (key : K) (hash : ℕ) : ℕ → ℕ → Option ℕ
  | 0, _ => none
  | n + 1, probe =>
      let i := slotIndex m.capacity hash probe
      match m.slot i with
      | .empty => none
      | .tombstone => findLoop t m key hash n (probe + 1)
      | .occupied h k _ =>
          if h = hash ∧ t.equal k key then some i else findLoop t m key hash n (probe + 1)

/-- `hash_map_find_slot`. -/
def findSlot (t : KeyTraits K) (m : HashMap K V) (key : K) : Option ℕ :=
  findLoop t m key (t.hashOf key) m.capacity 0

/-- The loop of `hash_map_insert_slot`; `SIZE_MAX` stands for no tombstone yet. -/
def insertLoop (m : HashMap K V) (hash : ℕ) : ℕ → ℕ → ℕ → ℕ
  | 0, _, firstTombstone => firstTombstone
  | n + 1, probe, firstTombstone =>
      let i := slotIndex m.capacity hash probe
      match m.slot i with
      | .tombstone =>
          insertLoop m hash n (probe + 1) (if firstTombstone = sizeMax then i else firstTombstone)
      | .empty => if firstTombstone = sizeMax then i else firstTombstone
      | .occupied _ _ _ => insertLoop m hash n (probe + 1) firstTombstone

/-- `hash_map_insert_slot`. -/
def insertSlot (m : HashMap K V) (hash : ℕ) : ℕ := insertLoop m hash m.capacity 0 sizeMax

/-! ## Rehashing -/

/-- `hash_map_rehash_insert`. -/
def rehashInsert (m : HashMap K V) (hash : ℕ) (key : K) (value : V) : HashMap K V :=
  { m with
    slots := m.slots.set (insertSlot m hash) (.occupied hash key value)
    size := m.size + 1 }

/-- The loop of `hash_map_rehash` over the old slots. -/
def rehashLoop : List (Slot K V) → HashMap K V → HashMap K V
  | [], next => next
  | .occupied hash key value :: rest, next => rehashLoop rest (rehashInsert next hash key value)
  | .empty :: rest, next | .tombstone :: rest, next => rehashLoop rest next

/-- The map that `hash_map_rehash` fills. -/
def freshTable (m : HashMap K V) (capacity : ℕ) : HashMap K V :=
  { m with slots := List.replicate capacity .empty, size := 0, tombstones := 0 }

/-- `hash_map_rehash`; `none` when the allocation fails. -/
def rehash (alloc : ℕ → Bool) (m : HashMap K V) (capacity : ℕ) : Option (HashMap K V) :=
  if allocate alloc capacity then some (rehashLoop m.slots (freshTable m capacity)) else none

/-- The test of `hash_map_ensure_insert` and `hash_map_reserve`, and the capacity they
rehash to. -/
def mustRehash (m : HashMap K V) (buckets : ℕ) : Bool :=
  decide (m.capacity < buckets) || (decide (m.size < m.tombstones) && decide (m.capacity ≠ 0))

def rehashCapacity (m : HashMap K V) (buckets : ℕ) : ℕ :=
  if buckets < m.capacity then m.capacity else buckets

inductive Grown (K V : Type*) where
  | ok (m : HashMap K V)
  | capacityExceeded
  | noMemory

/-- `hash_map_ensure_insert`. -/
def ensureInsert (alloc : ℕ → Bool) (m : HashMap K V) : Grown K V :=
  if m.size = sizeMax then .capacityExceeded
  else
    match bucketsForEntries (m.size + 1) with
    | none => .capacityExceeded
    | some buckets =>
        if mustRehash m buckets then
          match rehash alloc m (rehashCapacity m buckets) with
          | none => .noMemory
          | some m => .ok m
        else .ok m

/-! ## Calls -/

open BoundedMap (Op Result Status)

inductive Call (K V : Type*) where
  | op (o : Op K V)
  | reserve (minEntries : ℕ)

/-- The tail of `hash_map_put`: a new entry in slot `i`. -/
def place (m : HashMap K V) (i hash : ℕ) (key : K) (value : V) : HashMap K V :=
  { m with
    slots := m.slots.set i (.occupied hash key value)
    tombstones := if (m.slot i).isTombstone then m.tombstones - 1 else m.tombstones
    size := m.size + 1 }

/-- `hash_map_put`; the answer is `none` when an allocation failed. -/
def put (t : KeyTraits K) (alloc : ℕ → Bool) (m : HashMap K V) (key : K) (value : V) :
    HashMap K V × Option (Result V) :=
  match findSlot t m key with
  | some i =>
      ({ m with
          slots := match m.slot i with
            | .occupied h k _ => m.slots.set i (.occupied h k value)
            | _ => m.slots }, some ⟨.ok, none⟩)
  | none =>
      if m.entryLimit ≤ m.size then (m, some ⟨.capacityExceeded, none⟩)
      else
        match ensureInsert alloc m with
        | .capacityExceeded => (m, some ⟨.capacityExceeded, none⟩)
        | .noMemory => (m, none)
        | .ok m => (place m (insertSlot m (t.hashOf key)) (t.hashOf key) key value, some ⟨.ok, none⟩)

/-- `hash_map_get`. -/
def get (t : KeyTraits K) (m : HashMap K V) (key : K) : Option V :=
  match findSlot t m key with
  | none => none
  | some i =>
      match m.slot i with
      | .occupied _ _ v => some v
      | _ => none

/-- `hash_map_remove`. -/
def remove (t : KeyTraits K) (m : HashMap K V) (key : K) : HashMap K V × Result V :=
  match findSlot t m key with
  | none => (m, ⟨.notFound, none⟩)
  | some i =>
      ({ m with
          slots := m.slots.set i .tombstone
          size := m.size - 1
          tombstones := m.tombstones + 1 }, ⟨.ok, get t m key⟩)

/-- `hash_map_clear`. -/
def clear (m : HashMap K V) : HashMap K V :=
  if m.size ≠ 0 then
    { m with
      slots := List.replicate m.capacity .empty
      size := 0
      tombstones := 0 }
  else m

/-- `hash_map_reserve`. -/
def reserve (alloc : ℕ → Bool) (m : HashMap K V) (minEntries : ℕ) :
    HashMap K V × Option (Result V) :=
  if m.entryLimit < minEntries then (m, some ⟨.capacityExceeded, none⟩)
  else
    match bucketsForEntries minEntries with
    | none => (m, some ⟨.capacityExceeded, none⟩)
    | some buckets =>
        if mustRehash m buckets then
          match rehash alloc m (rehashCapacity m buckets) with
          | none => (m, none)
          | some m => (m, some ⟨.ok, none⟩)
        else (m, some ⟨.ok, none⟩)

def step (t : KeyTraits K) (alloc : ℕ → Bool) (m : HashMap K V) :
    Call K V → HashMap K V × Option (Result V)
  | .op (.put k v) => put t alloc m k v
  | .op (.remove k) => ((remove t m k).1, some (remove t m k).2)
  | .op .clear => (clear m, some ⟨.ok, none⟩)
  | .op (.get k) => (m, some ⟨.ok, get t m k⟩)
  | .reserve n => reserve alloc m n

def run (t : KeyTraits K) (alloc : ℕ → Bool) (m : HashMap K V) :
    List (Call K V) → List (HashMap K V × Option (Result V))
  | [] => []
  | c :: cs => step t alloc m c :: run t alloc (step t alloc m c).1 cs

/-! Sizes and probe runs: how many buckets a number of entries gets, and what the two probe
loops find. -/

variable {K V : Type*}

/-! ## Sizes -/

def IsCapacity (c : ℕ) : Prop := ∃ e, 4 ≤ e ∧ e ≤ 63 ∧ c = 2 ^ e

theorem growBuckets_spec {fuel e requested c : ℕ} (h4 : 4 ≤ e) (h63 : e ≤ 63)
    (h : growBuckets fuel (2 ^ e) requested = some c) : IsCapacity c ∧ requested ≤ c := by
  induction fuel generalizing e with
  | zero => exact absurd h (by simp [growBuckets])
  | succ fuel ih =>
    unfold growBuckets at h
    split at h
    · split at h
      · exact absurd h (by simp)
      next hhalf =>
      have he : e < 63 := by
        by_contra hge
        obtain rfl : e = 63 := by omega
        exact hhalf (by decide)
      rw [← Nat.pow_succ] at h
      exact ih (by omega) he h
    next hdone =>
    obtain rfl := Option.some.inj h
    exact ⟨⟨e, h4, h63, rfl⟩, by omega⟩

/-- Doubling reaches every size up to half the range of a `size_t`. -/
theorem growBuckets_isSome {fuel e requested : ℕ} (h63 : e ≤ 63) (hfuel : 63 < e + fuel)
    (hreq : requested ≤ 2 ^ 63) : (growBuckets fuel (2 ^ e) requested).isSome = true := by
  induction fuel generalizing e with
  | zero => omega
  | succ fuel ih =>
    unfold growBuckets
    split
    next hlt =>
      have he : e < 63 := by
        by_contra hge
        obtain rfl : e = 63 := by omega
        omega
      have hpow : 2 ^ e ≤ 2 ^ 62 := Nat.pow_le_pow_right (by norm_num) (by omega)
      rw [if_neg (by simp only [sizeMax]; omega), ← Nat.pow_succ]
      exact ih he (by omega)
    · rfl

theorem bucketsForEntries_spec {entries c : ℕ} (h : bucketsForEntries entries = some c) :
    (entries = 0 ∧ c = 0) ∨ (IsCapacity c ∧ entries < c) := by
  unfold bucketsForEntries at h
  split at h
  next h0 => exact .inl ⟨h0, (Option.some.inj h).symm⟩
  next h0 =>
  dsimp only at h
  split at h
  · exact absurd h (by simp)
  split at h
  · exact absurd h (by simp)
  right
  obtain ⟨hcap, hle⟩ := growBuckets_spec (e := 4) le_rfl (by norm_num) h
  refine ⟨hcap, lt_of_lt_of_le ?_ hle⟩
  split <;> omega

theorem bucketsForEntries_isSome {entries : ℕ} (h : entries ≤ 2 ^ 62) :
    (bucketsForEntries entries).isSome = true := by
  unfold bucketsForEntries
  split
  · rfl
  dsimp only
  rw [if_neg (by simp only [sizeMax]; omega), if_neg (by simp only [sizeMax]; omega)]
  apply growBuckets_isSome (e := 4) (by norm_num) (by norm_num)
  split
  · simp only [minBuckets]
    norm_num
  · omega

/-! ## Probe runs -/

theorem slotIndex_eq {c : ℕ} (hc : IsCapacity c) (hash probe : ℕ) :
    slotIndex c hash probe = (hash + probe) % c := by
  obtain ⟨e, -, h63, rfl⟩ := hc
  rw [slotIndex, Nat.and_two_pow_sub_one_eq_mod, Nat.mod_mod_of_dvd]
  exact Nat.pow_dvd_pow 2 (by omega)

theorem IsCapacity.pos {c : ℕ} (h : IsCapacity c) : 0 < c := by
  obtain ⟨e, -, -, rfl⟩ := h
  exact Nat.two_pow_pos e

theorem slotIndex_lt {c : ℕ} (hc : IsCapacity c) (hash probe : ℕ) : slotIndex c hash probe < c := by
  rw [slotIndex_eq hc]
  exact Nat.mod_lt _ hc.pos

theorem exists_probe {c : ℕ} (hc : IsCapacity c) (hash : ℕ) {i : ℕ} (hi : i < c) :
    ∃ d < c, slotIndex c hash d = i := by
  have hlt := Nat.mod_lt hash hc.pos
  by_cases hle : hash % c ≤ i
  · refine ⟨i - hash % c, by omega, ?_⟩
    rw [slotIndex_eq hc, ← Nat.mod_add_mod, Nat.add_sub_cancel' hle, Nat.mod_eq_of_lt hi]
  · refine ⟨i + c - hash % c, by omega, ?_⟩
    rw [slotIndex_eq hc, ← Nat.mod_add_mod, Nat.add_sub_cancel' (by omega), Nat.add_mod_right,
      Nat.mod_eq_of_lt hi]

theorem slot_eq {m : HashMap K V} {i : ℕ} (hi : i < m.capacity) (s : Slot K V) :
    m.slot i = s ↔ m.slots[i]? = some s := by
  have hi : i < m.slots.length := hi
  rw [HashMap.slot, List.getD_eq_getElem?_getD, List.getElem?_eq_getElem hi, Option.some.injEq,
    Option.getD_some]

/-- What a hit of the find loop is. -/
theorem findLoop_sound {t : KeyTraits K} {m : HashMap K V} {key : K} {hash n probe i : ℕ}
    (h : findLoop t m key hash n probe = some i) :
    (∃ d, i = slotIndex m.capacity hash d) ∧
      ∃ k v, m.slot i = .occupied hash k v ∧ t.equal k key = true := by
  induction n generalizing probe with
  | zero => exact absurd h (by simp [findLoop])
  | succ n ih =>
    unfold findLoop at h
    dsimp only at h
    split at h
    · exact absurd h (by simp)
    · exact ih h
    next hs k v hslot =>
    split at h
    next heq =>
      obtain ⟨rfl, heq⟩ := heq
      obtain rfl := Option.some.inj h
      exact ⟨⟨probe, rfl⟩, k, v, hslot, heq⟩
    · exact ih h

/-- A key further along the probe run, with no empty slot before it, is found. -/
theorem findLoop_complete {t : KeyTraits K} {m : HashMap K V} {key k : K} {v : V}
    {hash n probe d : ℕ} (hd : probe ≤ d) (hn : d < probe + n)
    (hslot : m.slot (slotIndex m.capacity hash d) = .occupied hash k v)
    (heq : t.equal k key = true)
    (hrun : ∀ j < d, m.slot (slotIndex m.capacity hash j) ≠ .empty) :
    (findLoop t m key hash n probe).isSome = true := by
  induction n generalizing probe with
  | zero => omega
  | succ n ih =>
    have hnext : probe ≠ d → (findLoop t m key hash n (probe + 1)).isSome = true :=
      fun hne => ih (by omega) (by omega)
    unfold findLoop
    dsimp only
    by_cases hpd : probe = d
    · subst hpd
      simp [hslot, heq]
    · split
      next hempty => exact absurd hempty (hrun probe (by omega))
      · exact hnext hpd
      · split
        · rfl
        · exact hnext hpd

/-- Slot `i` is on the probe run of `hash`, with no empty slot before it. -/
def Reaches (m : HashMap K V) (hash i : ℕ) : Prop :=
  ∃ d < m.capacity, slotIndex m.capacity hash d = i ∧
    ∀ j < d, m.slot (slotIndex m.capacity hash j) ≠ .empty

/-- A place for a new entry: a free slot that the probe run reaches over no empty one. -/
structure Placement (m : HashMap K V) (hash i : ℕ) : Prop where
  lt : i < m.capacity
  free : (m.slot i).isOccupied = false
  reaches : Reaches m hash i

theorem insertLoop_placement {m : HashMap K V} {hash n probe first : ℕ}
    (hc : IsCapacity m.capacity) (hsize : m.capacity ≤ sizeMax)
    (hn : probe + n = m.capacity)
    (hseen : ∀ j < probe, m.slot (slotIndex m.capacity hash j) ≠ .empty)
    (hfirst : (first = sizeMax ∧
        ∀ j < probe, (m.slot (slotIndex m.capacity hash j)).isOccupied = true) ∨
      (first ≠ sizeMax ∧ Placement m hash first))
    (hfree : ∃ i < m.capacity, (m.slot i).isOccupied = false) :
    Placement m hash (insertLoop m hash n probe first) := by
  induction n generalizing probe first with
  | zero =>
    rcases hfirst with ⟨-, hall⟩ | ⟨-, hplace⟩
    · obtain ⟨i, hi, hno⟩ := hfree
      obtain ⟨d, hd, rfl⟩ := exists_probe hc hash hi
      rw [hall d (by omega)] at hno
      exact absurd hno (by decide)
    · exact hplace
  | succ n ih =>
    have hi := slotIndex_lt hc hash probe
    have hhere : (m.slot (slotIndex m.capacity hash probe)).isOccupied = false →
        Placement m hash (slotIndex m.capacity hash probe) :=
      fun hno => ⟨hi, hno, probe, by omega, rfl, hseen⟩
    unfold insertLoop
    dsimp only
    split
    next htomb =>
      apply ih (by omega)
      · intro j hj
        rcases Nat.lt_succ_iff_lt_or_eq.mp hj with hj | rfl
        · exact hseen j hj
        · rw [htomb]
          simp
      · right
        rcases hfirst with ⟨rfl, -⟩ | ⟨hne, hplace⟩
        · rw [if_pos rfl]
          exact ⟨by omega, hhere (by rw [htomb]; rfl)⟩
        · rw [if_neg hne]
          exact ⟨hne, hplace⟩
    next hempty =>
      rcases hfirst with ⟨rfl, -⟩ | ⟨hne, hplace⟩
      · rw [if_pos rfl]
        exact hhere (by rw [hempty]; rfl)
      · rw [if_neg hne]
        exact hplace
    next hs k v hocc =>
      apply ih (by omega)
      · intro j hj
        rcases Nat.lt_succ_iff_lt_or_eq.mp hj with hj | rfl
        · exact hseen j hj
        · rw [hocc]
          simp
      · rcases hfirst with ⟨rfl, hall⟩ | hplace
        · refine .inl ⟨rfl, fun j hj => ?_⟩
          rcases Nat.lt_succ_iff_lt_or_eq.mp hj with hj | rfl
          · exact hall j hj
          · rw [hocc]
            rfl
        · exact .inr hplace

theorem insertSlot_placement {m : HashMap K V} (hash : ℕ) (hc : IsCapacity m.capacity)
    (hsize : m.capacity ≤ sizeMax) (hfree : ∃ i < m.capacity, (m.slot i).isOccupied = false) :
    Placement m hash (insertSlot m hash) := by
  apply insertLoop_placement hc hsize (by omega) _ _ hfree
  · intro j hj
    omega
  · exact .inl ⟨rfl, fun j hj => by omega⟩

end Cstl.Hash
