import TurboUtils.Cstl.Hash.Table

/-! Objects and arrays of json_parser.c with the indexes that are made beside their lists, and why an
index changes no answer. A pointer to a pair is its place in the list. -/
namespace Json

open Cstl.Hash (sizeMax slotIndex growBuckets IsCapacity)

/-! ## The lookup table -/

/-- What a slot of `json_object_index_slot_t` holds: a key and its pair. -/
def slotAt {K : Type*} (slots : List (Option (K × ℕ))) (i : ℕ) : Option (K × ℕ) := slots.getD i none

theorem slotAt_set {K : Type*} {slots : List (Option (K × ℕ))} {i j : ℕ} {s : Option (K × ℕ)}
    (hi : i < slots.length) : slotAt (slots.set i s) j = if i = j then s else slotAt slots j := by
  simp only [slotAt, List.getD_eq_getElem?_getD, List.getElem?_set]
  split_ifs <;> simp_all

variable {K V : Type*} [DecidableEq K]

/-- `json_object_key_hash`. -/
def objectKeyHash (hash : K → ℕ) (key : K) : ℕ := if hash key = 0 then 1 else hash key

/-- The loop of `json_object_index_find_hashed` and of `json_object_index_insert`: the first slot that
is free or has the key. -/
def probeLoop (slots : List (Option (K × ℕ))) (key : K) (hash : ℕ) : ℕ → ℕ → Option ℕ
  | 0, _ => none
  | n + 1, i =>
      let here := slotIndex slots.length hash i
      match slotAt slots here with
      | none => some here
      | some (k, _) => if k = key then some here else probeLoop slots key hash n (i + 1)

/-- `json_object_index_find`. -/
def indexFind (hash : K → ℕ) (slots : List (Option (K × ℕ))) (key : K) : Option ℕ :=
  (probeLoop slots key (objectKeyHash hash key) slots.length 0).bind fun i =>
    (slotAt slots i).map Prod.snd

/-- `json_object_index_insert`: the slots, and what is added to `entry_count`. -/
def indexInsert (hash : K → ℕ) (slots : List (Option (K × ℕ))) (key : K) (pair : ℕ) :
    Option (List (Option (K × ℕ)) × ℕ) :=
  (probeLoop slots key (objectKeyHash hash key) slots.length 0).map fun i =>
    match slotAt slots i with
    | none => (slots.set i (some (key, pair)), 1)
    | some _ => (slots, 0)

/-- The loop of `json_object_build_index` and of `json_object_index_rehash`. -/
def insertAll (hash : K → ℕ) (pairs : List (K × V)) :
    List ℕ → List (Option (K × ℕ)) → ℕ → Option (List (Option (K × ℕ)) × ℕ)
  | [], slots, entries => some (slots, entries)
  | p :: rest, slots, entries =>
      match pairs[p]? with
      | none => none
      | some pair => (indexInsert hash slots pair.1 p).bind fun (slots, added) =>
          insertAll hash pairs rest slots (entries + added)

/-- `json_object_index_capacity_for`; its doubling loop is that of `hash_buckets_for_entries`. -/
def capacityFor (count : ℕ) : Option ℕ :=
  if (sizeMax - 1) / 10 < count then none else growBuckets 64 16 (count * 10 / 7 + 1)

/-! ## Objects -/

/-- `json_object_index_t`; `members` are those that were written. -/
structure ObjectIndex (K : Type*) where
  members : List ℕ
  membersCapacity : ℕ
  lookup : List (Option (K × ℕ))
  lookupCount : ℕ

/-- `members[i] = pair`. -/
def ObjectIndex.write (index : ObjectIndex K) (i pair : ℕ) : ObjectIndex K :=
  { index with members := index.members.take i ++ [pair] }

/-- `object_val` of `json_value_t`. -/
structure Object (K V : Type*) where
  pairs : List (K × V)
  count : ℕ
  index : Option (ObjectIndex K)

/-- Which requests of one call the arena grants. -/
structure Grants where
  key : Bool
  node : Bool
  index : Bool
  members : Bool
  slots : Bool

def fill (hash : K → ℕ) (granted : Bool) (pairs : List (K × V)) (positions : List ℕ) (capacity : ℕ) :
    Option (List (Option (K × ℕ)) × ℕ) :=
  if sizeMax / 24 < capacity then none
  else if granted then insertAll hash pairs positions (List.replicate capacity none) 0
  else none

namespace Object

/-- `json_object_build_index`. -/
def buildIndex (hash : K → ℕ) (g : Grants) (o : Object K V) : Object K V :=
  if o.count < 16 then o
  else if o.index.isSome then o
  else if sizeMax / 8 < o.count then o
  else
    match (capacityFor o.count).bind
      (fill hash (g.index && g.members && g.slots) o.pairs (List.range o.pairs.length)) with
    | none => o
    | some (slots, entries) =>
        if o.pairs.length = o.count then
          { o with index := some ⟨List.range o.pairs.length, o.count, slots, entries⟩ }
        else o

/-- `json_object_index_rehash`. -/
def rehash (hash : K → ℕ) (g : Grants) (o : Object K V) (index : ObjectIndex K) (capacity : ℕ) :
    Option (ObjectIndex K) :=
  (fill hash g.slots o.pairs (index.members.take o.count) capacity).map fun (slots, entries) =>
    { index with lookup := slots, lookupCount := entries }

/-- The part of `json_object_index_append` that makes room in `members`. -/
def growMembers (g : Grants) (o : Object K V) (index : ObjectIndex K) : Option (ObjectIndex K) :=
  if index.membersCapacity < o.count then
    if sizeMax / 2 < index.membersCapacity then none
    else
      let capacity := if index.membersCapacity = 0 then 16 else index.membersCapacity * 2
      if capacity < o.count ∨ sizeMax / 8 < capacity then none
      else if g.members then
        some { index with members := index.members.take (o.count - 1), membersCapacity := capacity }
      else none
  else some index

def indexPair (hash : K → ℕ) (g : Grants) (o : Object K V) (key : K) (pair : ℕ)
    (index : ObjectIndex K) : Option (ObjectIndex K) :=
  if index.lookupCount = sizeMax ∨
      index.lookup.length - index.lookup.length / 4 < index.lookupCount + 1 then
    if sizeMax / 2 < index.lookup.length then none
    else o.rehash hash g index (index.lookup.length * 2)
  else (indexInsert hash index.lookup key pair).map fun (slots, added) =>
    { index with lookup := slots, lookupCount := index.lookupCount + added }

/-- `json_object_index_append`; a failure drops the index. -/
def indexAppend (hash : K → ℕ) (g : Grants) (o : Object K V) (key : K) (pair : ℕ) : Object K V :=
  match o.index with
  | none => o.buildIndex hash g
  | some index =>
      { o with index := (o.growMembers g index).bind fun index =>
          o.indexPair hash g key pair (index.write (o.count - 1) pair) }

/-- The pair that `json_object_set_arena_ex` looks for. -/
def existing (hash : K → ℕ) (o : Object K V) (key : K) : Option ℕ :=
  (o.index.bind fun index => indexFind hash index.lookup key).or
    (o.pairs.findIdx? fun pair => pair.1 = key)

/-- `json_object_set_arena_ex`. -/
def setArenaEx (hash : K → ℕ) (g : Grants) (o : Object K V) (key : K) (value : V) : Object K V :=
  match o.existing hash key with
  | some p => { o with pairs := o.pairs.modify p fun pair => (pair.1, value) }
  | none =>
      if g.node then
        let o' : Object K V := { o with pairs := o.pairs ++ [(key, value)], count := o.count + 1 }
        if 16 ≤ o'.count then o'.indexAppend hash g key o.pairs.length else o'
      else o

/-- The members that json_grammar.y links, and the index that is built behind the last one. -/
def parsed (hash : K → ℕ) (g : Grants) (pairs : List (K × V)) : Object K V :=
  buildIndex hash g ⟨pairs, pairs.length, none⟩

/-- `json_object_get_v`. -/
def getV (hash : K → ℕ) (o : Object K V) (key : K) : Option V :=
  match o.index with
  | some index => (indexFind hash index.lookup key).bind fun p => o.pairs[p]?.map Prod.snd
  | none => (o.pairs.find? fun pair => pair.1 = key).map Prod.snd

/-- The pair that `json_object_key`, `json_object_key_len` and `json_object_value` look at. -/
def pairAt (o : Object K V) (i : ℕ) : Option (K × V) :=
  if o.count ≤ i then none
  else
    match o.index with
    | some index => index.members[i]?.bind (o.pairs[·]?)
    | none => o.pairs[i]?

end Object

/-! ## Arrays -/

/-- `array_val` of `json_value_t`; the index has the entries that were written, and a capacity. -/
structure Array (V : Type*) where
  elements : List V
  count : ℕ
  index : Option (List V)
  indexCapacity : ℕ

namespace Array

/-- The doubling loop of `json_array_index_reserve`. -/
def growCapacity : ℕ → ℕ → ℕ → ℕ
  | 0, capacity, _ => capacity
  | fuel + 1, capacity, needed =>
      if capacity < needed then
        if sizeMax / 2 < capacity then needed else growCapacity fuel (capacity * 2) needed
      else capacity

/-- `json_array_index_reserve`. -/
def indexReserve (granted : Bool) (a : Array V) (needed : ℕ) : Option (Array V) :=
  if needed ≤ a.indexCapacity then some a
  else
    let capacity := growCapacity 64 (if a.indexCapacity = 0 then 8 else a.indexCapacity) needed
    if sizeMax / 8 < capacity then none
    else if granted then
      some { a with
        index := match a.index with
          | some index => if 0 < a.count then some (index.take a.count) else some a.elements
          | none => some a.elements
        indexCapacity := capacity }
    else none

/-- `json_array_append_arena`. -/
def append (g : Grants) (a : Array V) (value : V) : Array V :=
  if a.count = sizeMax then a
  else
    let a := if a.index.isSome ∨ 8 ≤ a.count + 1 then
        (a.indexReserve g.index (a.count + 1)).getD { a with index := none, indexCapacity := 0 }
      else a
    if g.node then
      { a with
        elements := a.elements ++ [value]
        index := a.index.map fun index => index.take a.count ++ [value]
        count := a.count + 1 }
    else a

/-- `json_array_get`. -/
def get (a : Array V) (i : ℕ) : Option V :=
  if a.count ≤ i then none
  else
    match a.index with
    | some index => index[i]?
    | none => a.elements[i]?

end Array

/-! ## What a table says of the keys of a list -/

/-- The slots have the first position of every key, on the way that its hash goes. -/
structure Indexed (hash : K → ℕ) (keys : List K) (slots : List (Option (K × ℕ))) : Prop where
  capacity : IsCapacity slots.length
  sound : ∀ {i : ℕ} {k : K} {p : ℕ}, slotAt slots i = some (k, p) → keys.findIdx? (· = k) = some p
  reached : ∀ k ∈ keys, ∃ d < slots.length, (∃ p, slotAt slots
    (slotIndex slots.length (objectKeyHash hash k) d) = some (k, p)) ∧
      ∀ j < d, slotAt slots (slotIndex slots.length (objectKeyHash hash k) j) ≠ none
  used : slots.countP Option.isSome = keys.toFinset.card

section Tables

variable {hash : K → ℕ} {keys : List K} {slots : List (Option (K × ℕ))} {key : K}

/-- Where the loop stops. -/
theorem probeLoop_some {h n i here : ℕ} (hloop : probeLoop slots key h n i = some here) :
    ∃ d < i + n, i ≤ d ∧ here = slotIndex slots.length h d ∧
      (∀ k p, slotAt slots here = some (k, p) → k = key) ∧
      ∀ j, i ≤ j → j < d → ∃ k p, slotAt slots (slotIndex slots.length h j) = some (k, p) ∧ k ≠ key := by
  induction n generalizing i with
  | zero => cases hloop
  | succ n ih =>
    rw [probeLoop] at hloop
    split at hloop
    next hfree =>
      cases hloop
      exact ⟨i, by omega, le_rfl, rfl, by simp [hfree], by omega⟩
    next k p hslot =>
      split_ifs at hloop with hkey
      · cases hloop
        exact ⟨i, by omega, le_rfl, rfl, by simp [hslot, hkey], by omega⟩
      · obtain ⟨d, hd, hid, hhere, hown, hbefore⟩ := ih hloop
        refine ⟨d, by omega, by omega, hhere, hown, fun j hij hjd => ?_⟩
        rcases Nat.eq_or_lt_of_le hij with rfl | hij
        · exact ⟨k, p, hslot, hkey⟩
        · exact hbefore j hij hjd

theorem probeLoop_isSome {h n i d : ℕ} (hi : i ≤ d) (hd : d < i + n)
    (hstop : ∀ k p, slotAt slots (slotIndex slots.length h d) = some (k, p) → k = key) :
    (probeLoop slots key h n i).isSome = true := by
  induction n generalizing i with
  | zero => omega
  | succ n ih =>
    rw [probeLoop]
    split
    · rfl
    next k p hslot =>
      split_ifs with hkey
      · rfl
      · rcases Nat.eq_or_lt_of_le hi with rfl | hlt
        · exact absurd (hstop k p hslot) hkey
        · exact ih hlt (by omega)

theorem findIdx?_none (h : key ∉ keys) : keys.findIdx? (· = key) = none := by
  simp only [List.findIdx?_eq_none_iff, decide_eq_false_iff_not]
  rintro k hk rfl
  exact h hk

/-- A key of the list is found in its slot. -/
theorem Indexed.probe_mem (h : Indexed hash keys slots) (hmem : key ∈ keys) :
    ∃ here p, probeLoop slots key (objectKeyHash hash key) slots.length 0 = some here ∧
      slotAt slots here = some (key, p) ∧ keys.findIdx? (· = key) = some p := by
  obtain ⟨d, hd, ⟨p, hslot⟩, hbefore⟩ := h.reached key hmem
  obtain ⟨here, hloop⟩ := Option.isSome_iff_exists.1 (@probeLoop_isSome _ _ slots key
    (objectKeyHash hash key) slots.length 0 d (Nat.zero_le d) (by omega) (by simp [hslot]))
  obtain ⟨e, -, -, rfl, hown, hpassed⟩ := probeLoop_some hloop
  have hle : e ≤ d := by
    by_contra hlt
    obtain ⟨k, q, hother, hne⟩ := hpassed d (Nat.zero_le d) (by omega)
    simp [hslot, Ne.symm hne] at hother
  have htaken : slotAt slots (slotIndex slots.length (objectKeyHash hash key) e) ≠ none := by
    rcases Nat.eq_or_lt_of_le hle with rfl | hlt
    · simp [hslot]
    · exact hbefore e hlt
  obtain ⟨⟨k, q⟩, hfound⟩ := Option.ne_none_iff_exists'.1 htaken
  obtain rfl := hown k q hfound
  exact ⟨_, q, hloop, hfound, h.sound hfound⟩

theorem Indexed.probe_notMem (h : Indexed hash keys slots) (hmem : key ∉ keys) {here : ℕ}
    (hloop : probeLoop slots key (objectKeyHash hash key) slots.length 0 = some here) :
    slotAt slots here = none := by
  obtain ⟨d, -, -, -, hown, -⟩ := probeLoop_some hloop
  by_contra hne
  obtain ⟨⟨k, p⟩, hslot⟩ := Option.ne_none_iff_exists'.1 hne
  have hfirst := h.sound hslot
  rw [hown k p hslot, findIdx?_none hmem] at hfirst
  cases hfirst

theorem Indexed.indexFind_eq (h : Indexed hash keys slots) (key : K) :
    indexFind hash slots key = keys.findIdx? (· = key) := by
  rw [indexFind]
  by_cases hmem : key ∈ keys
  · obtain ⟨here, p, hloop, hslot, hfirst⟩ := h.probe_mem hmem
    simp [hloop, hslot, hfirst]
  · rw [findIdx?_none hmem, Option.bind_eq_none_iff]
    intro here hloop
    simp [h.probe_notMem hmem hloop]

theorem Indexed.exists_free (h : Indexed hash keys slots) (hroom : keys.toFinset.card < slots.length) :
    ∃ i < slots.length, slotAt slots i = none := by
  rw [← h.used, List.countP_lt_length_iff] at hroom
  obtain ⟨s, hs, hnone⟩ := hroom
  obtain ⟨i, hi, rfl⟩ := List.mem_iff_getElem.1 hs
  refine ⟨i, hi, ?_⟩
  simpa [slotAt, List.getD_eq_getElem?_getD, hi] using hnone

/-- The keys go on, and the table with them. -/
theorem Indexed.insert (h : Indexed hash keys slots) (hroom : (keys ++ [key]).toFinset.card < slots.length) :
    ∃ slots' added, indexInsert hash slots key keys.length = some (slots', added) ∧
      Indexed hash (keys ++ [key]) slots' ∧ slots'.length = slots.length ∧
      keys.toFinset.card + added = (keys ++ [key]).toFinset.card := by
  have hsound {i p : ℕ} {k : K} (hslot : slotAt slots i = some (k, p)) :
      (keys ++ [key]).findIdx? (· = k) = some p := by
    simp [List.findIdx?_append, h.sound hslot]
  by_cases hmem : key ∈ keys
  · obtain ⟨here, p, hloop, hslot, -⟩ := h.probe_mem hmem
    have hsame : (keys ++ [key]).toFinset = keys.toFinset := by
      simp [hmem]
    refine ⟨slots, 0, by simp [indexInsert, hloop, hslot], ⟨h.capacity, hsound, ?_, ?_⟩, rfl, ?_⟩
    · intro k hk
      exact h.reached k (by simp only [List.mem_append, List.mem_singleton] at hk; grind)
    · rw [hsame, h.used]
    · rw [hsame, Nat.add_zero]
  · have hcard : (keys ++ [key]).toFinset.card = keys.toFinset.card + 1 := by
      rw [List.toFinset_append, Finset.union_comm]
      simp [hmem]
    obtain ⟨i, hi, hfree⟩ := h.exists_free (by omega)
    obtain ⟨e, he, rfl⟩ := Cstl.Hash.exists_probe h.capacity (objectKeyHash hash key) hi
    obtain ⟨here, hloop⟩ := Option.isSome_iff_exists.1 (@probeLoop_isSome _ _ slots key
      (objectKeyHash hash key) slots.length 0 e (Nat.zero_le e) (by omega) (by simp [hfree]))
    have hnone := h.probe_notMem hmem hloop
    obtain ⟨d, hd, -, rfl, -, hpassed⟩ := probeLoop_some hloop
    have hlt := Cstl.Hash.slotIndex_lt h.capacity (objectKeyHash hash key) d
    refine ⟨_, 1, by simp only [indexInsert, hloop, Option.map_some, hnone]; rfl, ⟨?_, ?_, ?_, ?_⟩,
      List.length_set, hcard.symm⟩
    · simpa using h.capacity
    · intro j k p hslot
      rw [slotAt_set hlt] at hslot
      split_ifs at hslot
      · obtain ⟨rfl, rfl⟩ := by simpa using hslot
        simp [List.findIdx?_append, findIdx?_none hmem]
      · exact hsound hslot
    · intro k hk
      rw [List.length_set]
      rcases List.mem_append.1 hk with hk | hk
      · obtain ⟨e, he, ⟨p, hslot⟩, hbefore⟩ := h.reached k hk
        refine ⟨e, he, ⟨p, ?_⟩, fun j hj => ?_⟩
        · rw [slotAt_set hlt, if_neg, hslot]
          intro heq
          rw [← heq, hnone] at hslot
          cases hslot
        · rw [slotAt_set hlt]
          split_ifs
          · simp
          · exact hbefore j hj
      · obtain rfl := List.mem_singleton.1 hk
        refine ⟨d, by omega, ⟨keys.length, by rw [slotAt_set hlt, if_pos rfl]⟩, fun j hj => ?_⟩
        obtain ⟨k', p, hslot, -⟩ := hpassed j (Nat.zero_le j) hj
        rw [slotAt_set hlt]
        split_ifs <;> simp [hslot]
    · have hold : slots[slotIndex slots.length (objectKeyHash hash key) d] = none := by
        simpa [slotAt, List.getD_eq_getElem?_getD, hlt] using hnone
      rw [List.countP_set hlt, hold, h.used, hcard]
      simp

theorem indexed_empty {c : ℕ} (hc : IsCapacity c) :
    Indexed hash [] (List.replicate c none : List (Option (K × ℕ))) where
  capacity := by simpa using hc
  sound h := by
    simp only [slotAt, List.getD_eq_getElem?_getD, List.getElem?_replicate] at h
    split_ifs at h <;> cases h
  reached := nofun
  used := by simp

variable {pairs : List (K × V)}

theorem insertAll_indexed {m n : ℕ} (hlength : m + n = pairs.length)
    (h : Indexed hash ((pairs.take m).map Prod.fst) slots)
    (hroom : (pairs.map Prod.fst).toFinset.card < slots.length) :
    ∃ slots', insertAll hash pairs (List.range' m n) slots
        ((pairs.take m).map Prod.fst).toFinset.card = some (slots', (pairs.map Prod.fst).toFinset.card) ∧
      Indexed hash (pairs.map Prod.fst) slots' ∧ slots'.length = slots.length := by
  induction n generalizing m slots with
  | zero =>
    have htake : pairs.take m = pairs := List.take_of_length_le (by omega)
    rw [htake] at h ⊢
    exact ⟨slots, rfl, h, rfl⟩
  | succ n ih =>
    have hm : m < pairs.length := by omega
    have hkeys : (pairs.take m).map Prod.fst ++ [pairs[m].1] = (pairs.take (m + 1)).map Prod.fst := by
      rw [List.take_add_one, List.getElem?_eq_getElem hm, List.map_append]
      rfl
    have hpart : ((pairs.take (m + 1)).map Prod.fst).toFinset.card < slots.length := by
      refine lt_of_le_of_lt (Finset.card_le_card fun k hk => ?_) hroom
      simp only [List.mem_toFinset, List.mem_map] at hk ⊢
      obtain ⟨pair, hpair, rfl⟩ := hk
      exact ⟨pair, List.mem_of_mem_take hpair, rfl⟩
    obtain ⟨slots₁, added, hinsert, hnext, hlen, hcard⟩ := h.insert (by rw [hkeys]; exact hpart)
    rw [hkeys] at hnext hcard
    obtain ⟨slots', hall, hindexed, hlen'⟩ := ih (by omega) hnext (by rw [hlen]; exact hroom)
    have hplace : ((pairs.take m).map Prod.fst).length = m := by simp; omega
    rw [hplace] at hinsert
    refine ⟨slots', ?_, hindexed, by rw [hlen', hlen]⟩
    rw [List.range'_succ, insertAll, List.getElem?_eq_getElem hm]
    simp only [hinsert, Option.bind_some, hcard, hall]

theorem fill_indexed {granted : Bool} {c entries : ℕ} (hc : IsCapacity c)
    (hroom : (pairs.map Prod.fst).toFinset.card < c)
    (h : fill hash granted pairs (List.range pairs.length) c = some (slots, entries)) :
    Indexed hash (pairs.map Prod.fst) slots ∧ slots.length = c ∧
      entries = (pairs.map Prod.fst).toFinset.card := by
  rw [fill] at h
  split_ifs at h
  have hstart : Indexed hash ((pairs.take 0).map Prod.fst) _ := indexed_empty hc
  obtain ⟨slots', hall, hindexed, hlen⟩ :=
    insertAll_indexed (Nat.zero_add pairs.length) hstart (by simpa using hroom)
  rw [List.range_eq_range'] at h
  obtain ⟨rfl, rfl⟩ := by simpa using hall.symm.trans h
  exact ⟨hindexed, by simpa using hlen, rfl⟩

theorem capacityFor_some {count c : ℕ} (h : capacityFor count = some c) :
    IsCapacity c ∧ count * 10 / 7 + 1 ≤ c := by
  rw [capacityFor] at h
  split_ifs at h
  exact @Cstl.Hash.growBuckets_spec 64 4 _ _ le_rfl (by norm_num) h

end Tables

/-! ## Objects keep their index in step -/

structure ObjectIndex.Sound (hash : K → ℕ) (keys : List K) (index : ObjectIndex K) : Prop where
  members : index.members = List.range keys.length
  room : keys.length ≤ index.membersCapacity
  lookup : Indexed hash keys index.lookup
  count : index.lookupCount = keys.toFinset.card
  load : index.lookupCount ≤ index.lookup.length - index.lookup.length / 4

structure Object.Sound (hash : K → ℕ) (o : Object K V) : Prop where
  count : o.count = o.pairs.length
  index : ∀ index ∈ o.index, 16 ≤ o.count ∧ index.Sound hash (o.pairs.map Prod.fst)

section Objects

variable {hash : K → ℕ} {o : Object K V} {g : Grants} {index : ObjectIndex K} {key : K}

theorem Object.Sound.buildIndex (h : o.Sound hash) : (o.buildIndex hash g).Sound hash := by
  rw [Object.buildIndex]
  split_ifs with hfew
  · exact h
  · exact h
  · exact h
  · split
    · exact h
    next slots entries hfill =>
      obtain ⟨c, hcapacity, hfill⟩ := Option.bind_eq_some_iff.1 hfill
      obtain ⟨hc, hle⟩ := capacityFor_some hcapacity
      have hcard : (o.pairs.map Prod.fst).toFinset.card ≤ o.count := by
        simpa [h.count] using List.toFinset_card_le (o.pairs.map Prod.fst)
      obtain ⟨hindexed, hlen, rfl⟩ := fill_indexed hc (by omega) hfill
      refine ⟨h.count, fun index hindex => ?_⟩
      obtain rfl := Option.some.inj hindex
      refine ⟨Nat.le_of_not_lt hfew, by simp, by simp [h.count], hindexed, rfl, ?_⟩
      dsimp only
      rw [hlen]
      omega
  · split <;> exact h

theorem Object.existing_eq (h : o.Sound hash) (key : K) :
    o.existing hash key = (o.pairs.map Prod.fst).findIdx? (· = key) := by
  have hlist : (o.pairs.findIdx? fun pair => pair.1 = key) =
      (o.pairs.map Prod.fst).findIdx? (· = key) := by
    rw [List.findIdx?_map]
    rfl
  rw [Object.existing, hlist]
  cases hindex : o.index with
  | none => rfl
  | some index =>
    rw [Option.bind_some, (h.index index hindex).2.lookup.indexFind_eq]
    exact Option.or_self

/-- A new pair enters the table, or a larger one. -/
theorem Object.indexPair_sound {keys : List K} (hkeys : o.pairs.map Prod.fst = keys ++ [key])
    (hcount : o.count = o.pairs.length) (hnew : key ∉ keys)
    (hmembers : index.members = List.range (keys.length + 1))
    (hroom : keys.length + 1 ≤ index.membersCapacity) (hlookup : Indexed hash keys index.lookup)
    (hentries : index.lookupCount = keys.toFinset.card)
    (hload : index.lookupCount ≤ index.lookup.length - index.lookup.length / 4)
    {next : ObjectIndex K} (h : o.indexPair hash g key keys.length index = some next) :
    next.Sound hash (keys ++ [key]) := by
  have hlength : o.pairs.length = keys.length + 1 := by simpa using congrArg List.length hkeys
  have hcard : (keys ++ [key]).toFinset.card = index.lookupCount + 1 := by
    rw [List.toFinset_append, Finset.union_comm, hentries]
    simp [hnew]
  have hpos := hlookup.capacity.pos
  obtain ⟨e, he, hhigh, hpow⟩ := hlookup.capacity
  have hsixteen : 2 ^ 4 ≤ 2 ^ e := Nat.pow_le_pow_right (by norm_num) he
  rw [Object.indexPair] at h
  split_ifs at h with hfull
  · rw [Object.rehash, hmembers, List.take_of_length_le (by simp [hcount, hlength]), ← hlength,
      Option.map_eq_some_iff] at h
    obtain ⟨⟨slots, entries⟩, hfill, rfl⟩ := h
    have hbound : index.lookup.length * 2 ≤ sizeMax / 24 := by
      by_contra hlt
      rw [fill, if_pos (by omega)] at hfill
      cases hfill
    have hdouble : IsCapacity (index.lookup.length * 2) := by
      refine ⟨e + 1, by omega, ?_, by rw [hpow, Nat.pow_succ]⟩
      by_contra hlt
      have hlarge : 2 ^ 63 ≤ 2 ^ e := Nat.pow_le_pow_right (by norm_num) (by omega)
      simp only [sizeMax] at hbound
      omega
    obtain ⟨hindexed, hlen, rfl⟩ := fill_indexed hdouble (by rw [hkeys, hcard]; omega) hfill
    rw [hkeys] at hindexed
    refine ⟨by simp [hlength], by simpa using hroom, hindexed, by rw [hkeys], ?_⟩
    dsimp only
    rw [hkeys, hcard, hlen]
    omega
  · obtain ⟨⟨slots, added⟩, hinsert, rfl⟩ := Option.map_eq_some_iff.1 h
    obtain ⟨slots', added', hinsert', hindexed, hlen, hadded⟩ := hlookup.insert (by rw [hcard]; omega)
    obtain ⟨rfl, rfl⟩ := by simpa using hinsert'.symm.trans hinsert
    refine ⟨by simpa using hmembers, by simpa using hroom, hindexed, by rw [← hadded, hentries], ?_⟩
    dsimp only
    rw [hlen]
    omega

omit [DecidableEq K] in
theorem Object.growMembers_some {grown : ObjectIndex K} (h : o.growMembers g index = some grown) :
    o.count ≤ grown.membersCapacity ∧ grown.lookup = index.lookup ∧
      grown.lookupCount = index.lookupCount ∧
      (grown.members = index.members ∨ grown.members = index.members.take (o.count - 1)) := by
  rw [Object.growMembers] at h
  by_cases hfull : index.membersCapacity < o.count
  · rw [if_pos hfull] at h
    generalize (if index.membersCapacity = 0 then 16 else index.membersCapacity * 2) = capacity at h
    dsimp only at h
    split_ifs at h with hhalf hsmall
    cases h
    exact ⟨by dsimp only; omega, rfl, rfl, Or.inr rfl⟩
  · rw [if_neg hfull] at h
    cases h
    exact ⟨by omega, rfl, rfl, Or.inl rfl⟩

/-- A pair behind all others is entered into the index, or the index is dropped or built. -/
theorem Object.indexAppend_sound (h : o.Sound hash) (hnew : key ∉ o.pairs.map Prod.fst) {value : V}
    (hmany : 16 ≤ o.count + 1) :
    (Object.indexAppend hash g { o with pairs := o.pairs ++ [(key, value)], count := o.count + 1 }
      key o.pairs.length).Sound hash := by
  have hcount : o.count + 1 = (o.pairs ++ [(key, value)]).length := by simp [h.count]
  rw [Object.indexAppend]
  dsimp only
  split
  next hnone =>
    apply Object.Sound.buildIndex
    exact ⟨hcount, by simp [hnone]⟩
  next index hindex =>
    obtain ⟨-, hmembers, hroom, hlookup, hentries, hload⟩ := h.index index hindex
    refine ⟨hcount, fun next hnext => ⟨hmany, ?_⟩⟩
    obtain ⟨grown, hgrown, hnext⟩ := Option.bind_eq_some_iff.1 hnext
    have hlength : (o.pairs.map Prod.fst).length = o.count := by simp [h.count]
    obtain ⟨hcapacity, hslots, hcounted, hwritten⟩ := Object.growMembers_some hgrown
    have htake : grown.members.take o.count = List.range o.count := by
      rcases hwritten with hwritten | hwritten <;> simp [hwritten, hmembers, hlength]
    rw [← h.count, ← hlength] at hnext
    rw [List.map_append]
    apply Object.indexPair_sound (by simp) (by simp) hnew _ _ _ _ _ hnext
    · simp [ObjectIndex.write, htake, hlength, List.range_succ]
    · simpa [ObjectIndex.write, hlength] using hcapacity
    · simpa [ObjectIndex.write, hslots] using hlookup
    · simpa [ObjectIndex.write, hcounted] using hentries
    · simpa [ObjectIndex.write, hslots, hcounted] using hload

theorem Object.Sound.setArenaEx (h : o.Sound hash) (value : V) :
    (o.setArenaEx hash g key value).Sound hash := by
  rw [Object.setArenaEx, Object.existing_eq h]
  cases hfind : (o.pairs.map Prod.fst).findIdx? (· = key) with
  | some p =>
    have hkeys : (o.pairs.modify p fun pair => (pair.1, value)).map Prod.fst = o.pairs.map Prod.fst := by
      apply List.ext_getElem?
      intro i
      rw [List.getElem?_map, List.getElem?_modify, List.getElem?_map]
      cases o.pairs[i]? with
      | none => rfl
      | some pair =>
        dsimp only [Option.map_some, Option.map_eq_map]
        split_ifs <;> rfl
    exact ⟨by simp [h.count], fun index hindex => by simpa only [hkeys] using h.index index hindex⟩
  | none =>
    have hnew : key ∉ o.pairs.map Prod.fst := by
      intro hmem
      simpa using List.findIdx?_eq_none_iff.1 hfind key hmem
    dsimp only
    split_ifs with hnode hmany
    · exact Object.indexAppend_sound h hnew hmany
    · refine ⟨by simp [h.count], fun index hindex => ?_⟩
      have hfew := (h.index index hindex).1
      omega
    · exact h

theorem Object.buildIndex_pairs (g : Grants) (o : Object K V) :
    (o.buildIndex hash g).pairs = o.pairs := by
  rw [Object.buildIndex]
  split_ifs <;> [rfl; rfl; rfl; (split <;> rfl); (split <;> rfl)]

theorem Object.Sound.setArenaEx_cases (h : o.Sound hash) (g : Grants) (key : K) (value : V) :
    (∃ xs old ys, o.pairs = xs ++ (key, old) :: ys ∧ key ∉ xs.map Prod.fst ∧
        (o.setArenaEx hash g key value).pairs = xs ++ (key, value) :: ys) ∨
      (key ∉ o.pairs.map Prod.fst ∧ (o.setArenaEx hash g key value).pairs =
        if g.node then o.pairs ++ [(key, value)] else o.pairs) := by
  rw [Object.setArenaEx, Object.existing_eq h]
  cases hfind : (o.pairs.map Prod.fst).findIdx? (· = key) with
  | some p =>
    left
    obtain ⟨hp, hkey, hbefore⟩ := List.findIdx?_eq_some_iff_getElem.1 hfind
    have hlt : p < o.pairs.length := by simpa using hp
    have hpair : o.pairs[p].1 = key := by simpa using hkey
    refine ⟨o.pairs.take p, o.pairs[p].2, o.pairs.drop (p + 1), ?_, ?_, ?_⟩
    · rw [← hpair, ← List.drop_eq_getElem_cons hlt, List.take_append_drop]
    · intro hmem
      obtain ⟨j, hj, heq⟩ := List.getElem_of_mem hmem
      have hjp : j < p := by simp at hj; omega
      exact absurd (by simpa using heq) (by simpa using hbefore j hjp)
    · dsimp only
      rw [List.modify_eq_take_cons_drop hlt, hpair]
  | none =>
    right
    refine ⟨fun hmem => by simpa using List.findIdx?_eq_none_iff.1 hfind key hmem, ?_⟩
    dsimp only
    split_ifs
    · rw [Object.indexAppend]
      split
      · exact Object.buildIndex_pairs g _
      · rfl
    · rfl
    · rfl

theorem Object.parsed_sound (pairs : List (K × V)) : (Object.parsed hash g pairs).Sound hash := by
  apply Object.Sound.buildIndex
  exact ⟨rfl, nofun⟩

/-! ## The answers of an object -/

structure Object.Answers (hash : K → ℕ) (o : Object K V) : Prop where
  count : o.count = o.pairs.length
  getV : ∀ key, o.getV hash key = (o.pairs.find? fun pair => pair.1 = key).map Prod.snd
  pairAt : ∀ i, o.pairAt i = o.pairs[i]?
  unindexed : (∀ key, o.getV hash key = Object.getV hash { o with index := none } key) ∧
    ∀ i, o.pairAt i = Object.pairAt { o with index := none } i
  free : ∀ index ∈ o.index, ∃ i < index.lookup.length, slotAt index.lookup i = none

theorem Object.Sound.answers (h : o.Sound hash) : o.Answers hash := by
  have hget (key : K) : o.getV hash key = (o.pairs.find? fun pair => pair.1 = key).map Prod.snd := by
    rw [Object.getV]
    cases hindex : o.index with
    | none => rfl
    | some index =>
      dsimp only
      rw [(h.index index hindex).2.lookup.indexFind_eq, List.find?_eq_bind_findIdx?_getElem?,
        List.findIdx?_map, Option.map_bind]
      rfl
  have hat (i : ℕ) : o.pairAt i = o.pairs[i]? := by
    rw [Object.pairAt, h.count]
    split_ifs with hend
    · exact (List.getElem?_eq_none hend).symm
    · cases hindex : o.index with
      | none => rfl
      | some index =>
        dsimp only
        rw [(h.index index hindex).2.members, List.length_map,
          List.getElem?_range (Nat.lt_of_not_le hend), Option.bind_some]
  refine ⟨h.count, hget, hat, ⟨hget, fun i => ?_⟩, fun index hindex => ?_⟩
  · rw [hat, Object.pairAt, h.count]
    split_ifs with hend
    · exact List.getElem?_eq_none hend
    · rfl
  · obtain ⟨hmany, hindex⟩ := h.index index hindex
    apply hindex.lookup.exists_free
    have hload := hindex.load
    have hpos := hindex.lookup.capacity.pos
    obtain ⟨e, he, -, hpow⟩ := hindex.lookup.capacity
    have hsixteen : 2 ^ 4 ≤ 2 ^ e := Nat.pow_le_pow_right (by norm_num) he
    rw [← hindex.count]
    omega

end Objects

/-! ## Arrays -/

section Arrays

variable {V : Type*} {a : Array V} {g : Grants}

structure Array.Sound (a : Array V) : Prop where
  count : a.count = a.elements.length
  le : a.count ≤ sizeMax
  index : ∀ index ∈ a.index, index = a.elements ∧ a.count ≤ a.indexCapacity

theorem Array.growCapacity_ge {fuel capacity needed : ℕ} (hcapacity : sizeMax < capacity * 2 ^ fuel)
    (hneeded : needed ≤ sizeMax) : needed ≤ growCapacity fuel capacity needed := by
  induction fuel generalizing capacity with
  | zero =>
    rw [growCapacity]
    omega
  | succ fuel ih =>
    rw [growCapacity]
    split_ifs with hsmall
    · exact le_rfl
    · apply ih
      rwa [Nat.mul_assoc, ← Nat.pow_succ']
    · omega

/-- Room is made for one more entry, or nothing happens. -/
theorem Array.Sound.indexReserve (h : a.Sound) (hmore : a.count + 1 ≤ sizeMax) {granted : Bool}
    {a' : Array V} (hreserve : a.indexReserve granted (a.count + 1) = some a') :
    a'.Sound ∧ a'.elements = a.elements ∧ a'.count = a.count ∧
      (a'.index.isSome = true → a.count + 1 ≤ a'.indexCapacity) := by
  rw [Array.indexReserve] at hreserve
  by_cases hroom : a.count + 1 ≤ a.indexCapacity
  · rw [if_pos hroom] at hreserve
    cases hreserve
    exact ⟨h, rfl, rfl, fun _ => hroom⟩
  · rw [if_neg hroom] at hreserve
    have hgrown : a.count + 1 ≤
        growCapacity 64 (if a.indexCapacity = 0 then 8 else a.indexCapacity) (a.count + 1) := by
      apply growCapacity_ge _ hmore
      simp only [sizeMax]
      split_ifs <;> omega
    have hcopied : (match a.index with
        | some index => if 0 < a.count then some (index.take a.count) else some a.elements
        | none => some a.elements) = some a.elements := by
      cases hindex : a.index with
      | none => rfl
      | some index => simp [(h.index index hindex).1, h.count]
    rw [hcopied] at hreserve
    generalize growCapacity 64 (if a.indexCapacity = 0 then 8 else a.indexCapacity) (a.count + 1) =
      capacity at hgrown hreserve
    dsimp only at hreserve
    split_ifs at hreserve
    cases hreserve
    exact ⟨⟨h.count, h.le, fun index hindex => ⟨(Option.some.inj hindex).symm, by dsimp only; omega⟩⟩,
      rfl, rfl, fun _ => hgrown⟩

theorem Array.Sound.push (h : a.Sound) (hmore : a.count + 1 ≤ sizeMax)
    (hroom : a.index.isSome = true → a.count + 1 ≤ a.indexCapacity) (value : V) :
    Array.Sound { a with
      elements := a.elements ++ [value]
      index := a.index.map fun index => index.take a.count ++ [value]
      count := a.count + 1 } := by
  refine ⟨by simp [h.count], hmore, fun index hindex => ?_⟩
  obtain ⟨old, hold, rfl⟩ := Option.map_eq_some_iff.1 hindex
  refine ⟨?_, hroom (by rw [hold]; rfl)⟩
  rw [(h.index old hold).1, h.count, List.take_length]

theorem Array.Sound.append (h : a.Sound) (value : V) : (a.append g value).Sound := by
  rw [Array.append]
  by_cases hfull : a.count = sizeMax
  · rwa [if_pos hfull]
  · rw [if_neg hfull]
    have hmore : a.count + 1 ≤ sizeMax := by
      have hle := h.le
      omega
    generalize hb : (if a.index.isSome ∨ 8 ≤ a.count + 1 then
      (a.indexReserve g.index (a.count + 1)).getD { a with index := none, indexCapacity := 0 }
      else a) = b
    have hready : b.Sound ∧ b.count = a.count ∧
        (b.index.isSome = true → a.count + 1 ≤ b.indexCapacity) := by
      split_ifs at hb with hindexed
      · cases hreserve : a.indexReserve g.index (a.count + 1) with
        | none =>
          rw [hreserve, Option.getD_none] at hb
          obtain rfl := hb
          exact ⟨⟨h.count, h.le, nofun⟩, rfl, nofun⟩
        | some a' =>
          rw [hreserve, Option.getD_some] at hb
          obtain rfl := hb
          obtain ⟨hsound, -, hcount, hroom⟩ := h.indexReserve hmore hreserve
          exact ⟨hsound, hcount, hroom⟩
      · obtain rfl := hb
        exact ⟨h, rfl, fun hsome => absurd (Or.inl hsome) hindexed⟩
    obtain ⟨hsound, hcount, hroom⟩ := hready
    dsimp only
    split_ifs
    · exact hsound.push (by rwa [hcount]) (by rwa [hcount]) value
    · exact hsound

/-- What `json_array_get` says is what the list says. -/
structure Array.Answers (a : Array V) : Prop where
  count : a.count = a.elements.length
  get : ∀ i, a.get i = a.elements[i]?
  unindexed : ∀ i, a.get i = Array.get { a with index := none } i

theorem Array.Sound.answers (h : a.Sound) : a.Answers := by
  have hlist (i : ℕ) : Array.get { a with index := none } i = a.elements[i]? := by
    rw [Array.get, h.count]
    split_ifs with hend
    · exact (List.getElem?_eq_none hend).symm
    · rfl
  have hget (i : ℕ) : a.get i = a.elements[i]? := by
    rw [← hlist, Array.get, Array.get]
    cases hindex : a.index with
    | none => rfl
    | some index => rw [(h.index index hindex).1]
  exact ⟨h.count, hget, fun i => by rw [hget, hlist]⟩

end Arrays

/-! ## Runs -/

/-- `json_object_set_arena_ex`, `json_object_set_arena` and `json_object_add_n`, whose value comes
from an arena that can be adopted or not. -/
inductive ObjectCall (K V : Type*) where
  | setArenaEx (g : Grants) (key : K) (value : V)
  | setArena (g : Grants) (key : K) (value : V)
  | addN (g : Grants) (canTransfer : Bool) (key : K) (value : V)

def Object.step (hash : K → ℕ) (o : Object K V) : ObjectCall K V → Object K V
  | .setArenaEx g key value => o.setArenaEx hash g key value
  | .setArena g key value => if g.key then o.setArenaEx hash g key value else o
  | .addN g canTransfer key value =>
      if canTransfer && g.key then o.setArenaEx hash g key value else o

/-- `json_array_append_arena` and `json_array_add_checked`. -/
inductive ArrayCall (V : Type*) where
  | appendArena (g : Grants) (value : V)
  | addChecked (g : Grants) (canTransfer : Bool) (value : V)

def Array.step {V : Type*} (a : Array V) : ArrayCall V → Array V
  | .appendArena g value => a.append g value
  | .addChecked g canTransfer value => if canTransfer then a.append g value else a

def Array.empty (V : Type*) : Array V := ⟨[], 0, none, 0⟩

theorem Object.Sound.step {hash : K → ℕ} {o : Object K V} (h : o.Sound hash) (c : ObjectCall K V) :
    (o.step hash c).Sound hash := by
  cases c with
  | setArenaEx g key value => exact h.setArenaEx value
  | setArena g key value =>
    rw [Object.step]
    split_ifs
    · exact h.setArenaEx value
    · exact h
  | addN g canTransfer key value =>
    rw [Object.step]
    split_ifs
    · exact h.setArenaEx value
    · exact h

theorem Object.Sound.run {hash : K → ℕ} {o : Object K V} (h : o.Sound hash)
    (calls : List (ObjectCall K V)) : (calls.foldl (Object.step hash) o).Sound hash := by
  induction calls generalizing o with
  | nil => exact h
  | cons c calls ih => exact ih (h.step c)

theorem Array.Sound.run {V : Type*} {a : Array V} (h : a.Sound) (calls : List (ArrayCall V)) :
    (calls.foldl Array.step a).Sound := by
  induction calls generalizing a with
  | nil => exact h
  | cons c calls ih =>
    apply ih
    cases c with
    | appendArena g value => exact h.append value
    | addChecked g canTransfer value =>
      rw [Array.step]
      split_ifs
      · exact h.append value
      · exact h

/-- Whatever was parsed and then set or appended, and whichever requests were granted, an object and
an array answer what their lists say. -/
theorem indexes_keep_answers (hash : K → ℕ) (g : Grants) (pairs : List (K × V))
    (calls : List (ObjectCall K V)) (appends : List (ArrayCall V)) :
    (calls.foldl (Object.step hash) (Object.parsed hash g pairs)).Answers hash ∧
      (appends.foldl Array.step (Array.empty V)).Answers := by
  have hempty : (Array.empty V).Sound := ⟨rfl, Nat.zero_le _, nofun⟩
  exact ⟨((Object.parsed_sound pairs).run calls).answers, (hempty.run appends).answers⟩

end Json
