import TurboUtils.Json.Clone
import TurboUtils.Lib.BoundedMap

/-! An object as a finite map that keeps the order of its keys, and the copies that are made of it. -/
namespace Json

open BoundedMap

section Objects

variable {K V : Type*} [DecidableEq K] {hash : K → ℕ} {o : Object K V} {key : K}

/-! ## The abstract map -/

/-- A finite map and the order in which its keys came. -/
structure OrderedMap (K V : Type*) where
  keys : List K
  map : FMap K V

def OrderedMap.ofPairs (pairs : List (K × V)) : OrderedMap K V := ⟨pairs.map Prod.fst, toMap pairs⟩

def ObjectCall.binding : ObjectCall K V → Option (Bool × K × V)
  | .setArenaEx g key value => some (g.node, key, value)
  | .setArena g key value => if g.key then some (g.node, key, value) else none
  | .addN g canTransfer key value => if canTransfer && g.key then some (g.node, key, value) else none

def OrderedMap.step (m : OrderedMap K V) (c : ObjectCall K V) : OrderedMap K V :=
  match c.binding with
  | none => m
  | some (node, key, value) =>
      if key ∈ m.keys then ⟨m.keys, m.map.insert key value⟩
      else if node then ⟨m.keys ++ [key], m.map.insert key value⟩
      else m

/-! ## One call -/

theorem Object.Sound.ofPairs_setArenaEx (h : o.Sound hash) (g : Grants) (key : K) (value : V) :
    OrderedMap.ofPairs (o.setArenaEx hash g key value).pairs =
      (OrderedMap.ofPairs o.pairs).step (.setArenaEx g key value) := by
  simp only [OrderedMap.step, ObjectCall.binding]
  rcases h.setArenaEx_cases g key value with ⟨xs, old, ys, hpairs, hnew, hset⟩ | ⟨hnew, hset⟩
  · simp [OrderedMap.ofPairs, hset, hpairs, toMap_replace ys hnew old value]
  · have hkeys : key ∉ (OrderedMap.ofPairs o.pairs).keys := hnew
    rw [if_neg hkeys, hset]
    split_ifs
    · simpa [OrderedMap.ofPairs] using toMap_insert [] hnew value
    · rfl

theorem Object.Sound.ofPairs_step (h : o.Sound hash) (c : ObjectCall K V) :
    OrderedMap.ofPairs (o.step hash c).pairs = (OrderedMap.ofPairs o.pairs).step c := by
  cases c with
  | setArenaEx g key value => exact h.ofPairs_setArenaEx g key value
  | setArena g key value =>
    cases hg : g.key with
    | true => simpa [Object.step, OrderedMap.step, ObjectCall.binding, hg] using h.ofPairs_setArenaEx g key value
    | false => simp [Object.step, OrderedMap.step, ObjectCall.binding, hg]
  | addN g canTransfer key value =>
    cases hg : canTransfer && g.key with
    | true => simpa [Object.step, OrderedMap.step, ObjectCall.binding, hg] using h.ofPairs_setArenaEx g key value
    | false => simp [Object.step, OrderedMap.step, ObjectCall.binding, hg]

/-! ## Runs -/

theorem Object.Sound.ofPairs_run (h : o.Sound hash) (calls : List (ObjectCall K V)) :
    OrderedMap.ofPairs (calls.foldl (Object.step hash) o).pairs =
      calls.foldl OrderedMap.step (.ofPairs o.pairs) := by
  induction calls generalizing o with
  | nil => rfl
  | cons c calls ih => rw [List.foldl_cons, List.foldl_cons, ih (h.step c), h.ofPairs_step c]

theorem find?_eq_assoc (pairs : List (K × V)) (key : K) :
    (pairs.find? fun pair => pair.1 = key).map Prod.snd = assoc key pairs := by
  induction pairs with
  | nil => rfl
  | cons pair pairs ih => by_cases h : pair.1 = key <;> simp [assoc, h, ih]

/-- Whatever is granted, an object answers like a map that keeps the order of its keys, also where the
text that it was parsed from has a key twice. -/
theorem object_refines_ordered_map (hash : K → ℕ) (g : Grants) (pairs : List (K × V))
    (calls : List (ObjectCall K V)) :
    let o := calls.foldl (Object.step hash) (Object.parsed hash g pairs)
    let m := calls.foldl OrderedMap.step (OrderedMap.ofPairs pairs)
    (∀ key, o.getV hash key = m.map.lookup key) ∧
      (∀ i, (o.pairAt i).map Prod.fst = m.keys[i]?) ∧ o.count = m.keys.length := by
  have hparsed : (Object.parsed hash g pairs).Sound hash := Object.parsed_sound pairs
  have hpairs : (Object.parsed hash g pairs).pairs = pairs := Object.buildIndex_pairs g _
  have hanswers := (hparsed.run calls).answers
  have hrun := hparsed.ofPairs_run calls
  rw [hpairs] at hrun
  intro o m
  have hm : m = OrderedMap.ofPairs o.pairs := hrun.symm
  refine ⟨fun key => ?_, fun i => ?_, ?_⟩
  · rw [hanswers.getV, find?_eq_assoc, hm, OrderedMap.ofPairs, lookup_toMap]
  · rw [hanswers.pairAt, hm, OrderedMap.ofPairs, List.getElem?_map]
  · rw [hanswers.count, hm, OrderedMap.ofPairs, List.length_map]

end Objects

/-! ## Copies -/

theorem addAll_keeps {V : Type*} {P : V → Prop} {hash : List Char → ℕ} {o : Object (List Char) V}
    (h : o.Sound hash) (hkeys : (o.pairs.map Prod.fst).Nodup) (hvalues : ∀ pair ∈ o.pairs, P pair.2)
    {members : List (List Char × V)} (hmembers : ∀ member ∈ members, P member.2) :
    ((addAll hash members o).pairs.map Prod.fst).Nodup ∧
      ∀ pair ∈ (addAll hash members o).pairs, P pair.2 := by
  induction members generalizing o with
  | nil => exact ⟨hkeys, hvalues⟩
  | cons member members ih =>
    obtain ⟨hmember, hmembers⟩ := List.forall_mem_cons.1 hmembers
    rcases h.setArenaEx_cases Grants.all member.1 member.2 with
      ⟨xs, old, ys, hpairs, -, hset⟩ | ⟨hnew, hset⟩
    · rw [hpairs] at hkeys hvalues
      apply ih (h.setArenaEx member.2) _ _ hmembers <;> rw [hset]
      · simpa using hkeys
      · intro pair hpair
        rcases List.mem_append.1 hpair with hpair | hpair
        · exact hvalues pair (List.mem_append_left _ hpair)
        · rcases List.mem_cons.1 hpair with rfl | hpair
          · exact hmember
          · exact hvalues pair (by simp [hpair])
    · apply ih (h.setArenaEx member.2) _ _ hmembers <;> rw [hset, if_pos (show Grants.all.node = true from rfl)]
      · rw [List.map_append]
        exact List.nodup_append_comm.1 (List.nodup_cons.2 ⟨hnew, hkeys⟩)
      · exact List.forall_mem_append.2 ⟨hvalues, by simpa using hmember⟩

theorem membersDistinct_iff (members : List (List Char × Value)) :
    membersDistinct members ↔ ∀ member ∈ members, member.2.Distinct := by
  induction members with
  | nil => simp [membersDistinct]
  | cons member members ih => simp [membersDistinct, ih]

mutual

theorem Value.distinct_clone (hash : List Char → ℕ) (v : Value) : (v.clone hash).Distinct := by
  cases v with
  | null | bool _ | number _ | string _ => trivial
  | array elements => exact elementsDistinct_clone hash elements
  | object members =>
    have hmembers := (membersDistinct_iff _).1 (membersDistinct_clone hash members)
    obtain ⟨hkeys, hvalues⟩ := @addAll_keeps _ _ hash ⟨[], 0, none⟩ ⟨rfl, by simp⟩ .nil (by simp) _ hmembers
    exact ⟨hkeys, (membersDistinct_iff _).2 hvalues⟩

theorem elementsDistinct_clone (hash : List Char → ℕ) (values : List Value) :
    elementsDistinct (elementsClone hash values) := by
  cases values with
  | nil => trivial
  | cons value values => exact ⟨value.distinct_clone hash, elementsDistinct_clone hash values⟩

theorem membersDistinct_clone (hash : List Char → ℕ) (members : List (List Char × Value)) :
    membersDistinct (membersClone hash members) := by
  cases members with
  | nil => trivial
  | cons member members => exact ⟨member.2.distinct_clone hash, membersDistinct_clone hash members⟩

end

/-- A copy of any value has no key twice, so that copies of copies, with any hash, are all alike. -/
theorem clone_settles (hash hash' : List Char → ℕ) (v : Value) :
    (v.clone hash).Distinct ∧ (v.clone hash).Alike ((v.clone hash).clone hash') := by
  have hdistinct := v.distinct_clone hash
  refine ⟨hdistinct, ?_⟩
  rw [Value.clone_eq _ hdistinct]
  exact ⟨rfl, fun _ => rfl⟩

end Json
