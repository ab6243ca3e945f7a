import Mathlib.Data.Finmap
import Mathlib.Tactic

/-! Finite maps with a bound on the number of bindings, as an abstract machine, and the
association lists with distinct keys that represent them. -/
namespace BoundedMap

variable {K V : Type*} [DecidableEq K]

abbrev FMap (K V : Type*) := Finmap fun _ : K => V

inductive Op (K V : Type*) where
  | put (k : K) (v : V)
  | remove (k : K)
  | clear
  | get (k : K)

inductive Status where
  | ok | capacityExceeded | notFound
  deriving DecidableEq, Repr

/-- The answer to a call: its status and the value it hands out. -/
structure Result (V : Type*) where
  status : Status
  value : Option V
  deriving DecidableEq, Repr

/-- The bounded finite map: a new key is refused once `limit` bindings are held. -/
def step (limit : ℕ) (m : FMap K V) : Op K V → FMap K V × Result V
  | .put k v =>
      if k ∈ m ∨ m.keys.card < limit then (m.insert k v, ⟨.ok, none⟩)
      else (m, ⟨.capacityExceeded, none⟩)
  | .remove k =>
      match m.lookup k with
      | none => (m, ⟨.notFound, none⟩)
      | some v => (m.erase k, ⟨.ok, some v⟩)
  | .clear => (∅, ⟨.ok, none⟩)
  | .get k => (m, ⟨.ok, m.lookup k⟩)

def run (limit : ℕ) (m : FMap K V) : List (Op K V) → List (FMap K V × Result V)
  | [] => []
  | op :: ops => step limit m op :: run limit (step limit m op).1 ops

def toMap (l : List (K × V)) : FMap K V := (l.map fun x => (⟨x.1, x.2⟩ : Σ _ : K, V)).toFinmap

/-- The first binding of `k`. -/
def assoc (k : K) : List (K × V) → Option V
  | [] => none
  | x :: xs => if x.1 = k then some x.2 else assoc k xs

theorem lookup_toMap (k : K) (l : List (K × V)) : (toMap l).lookup k = assoc k l := by
  rw [toMap, Finmap.dlookup_list_toFinmap]
  induction l with
  | nil => rfl
  | cons x xs ih =>
    by_cases h : x.1 = k
    · subst h
      simp [assoc]
    · rw [List.map_cons, List.dlookup_cons_ne _ _ (Ne.symm h), ih]
      simp [assoc, h]

theorem assoc_append (k : K) (xs ys : List (K × V)) :
    assoc k (xs ++ ys) = (assoc k xs).or (assoc k ys) := by
  induction xs with
  | nil => rfl
  | cons x xs ih => by_cases h : x.1 = k <;> simp [assoc, h, ih]

theorem assoc_eq_none {k : K} {l : List (K × V)} (h : k ∉ l.map Prod.fst) : assoc k l = none := by
  induction l with
  | nil => rfl
  | cons x xs ih =>
    simp only [List.map_cons, List.mem_cons, not_or] at h
    simp [assoc, Ne.symm h.1, ih h.2]

theorem assoc_isSome {k : K} {l : List (K × V)} (h : k ∈ l.map Prod.fst) :
    ∃ v, assoc k l = some v := by
  induction l with
  | nil => simp at h
  | cons x xs ih =>
    by_cases hx : x.1 = k
    · exact ⟨x.2, by simp [assoc, hx]⟩
    · obtain ⟨v, hv⟩ := ih (by simpa [Ne.symm hx] using h)
      exact ⟨v, by simp [assoc, hx, hv]⟩

theorem mem_toMap {k : K} {l : List (K × V)} : k ∈ toMap l ↔ k ∈ l.map Prod.fst := by
  rw [← Finmap.lookup_isSome, lookup_toMap]
  constructor
  · intro h
    by_contra hk
    simp [assoc_eq_none hk] at h
  · intro h
    obtain ⟨v, hv⟩ := assoc_isSome h
    simp [hv]

theorem toMap_append_congr {l l' : List (K × V)} (h : toMap l = toMap l') (r : List (K × V)) :
    toMap (l ++ r) = toMap (l' ++ r) := by
  apply Finmap.ext_lookup
  intro k
  rw [lookup_toMap, lookup_toMap, assoc_append, assoc_append, ← lookup_toMap, ← lookup_toMap k l', h]

theorem card_keys_toMap {l : List (K × V)} (h : (l.map Prod.fst).Nodup) :
    (toMap l).keys.card = l.length := by
  have hkeys : (toMap l).keys = (l.map Prod.fst).toFinset := by
    ext k
    rw [Finmap.mem_keys, mem_toMap, List.mem_toFinset]
  rw [hkeys, List.toFinset_card_of_nodup h, List.length_map]

section splice

variable {xs ys : List (K × V)} {k : K}

theorem assoc_middle (hx : k ∉ xs.map Prod.fst) (v : V) :
    assoc k (xs ++ (k, v) :: ys) = some v := by
  rw [assoc_append, assoc_eq_none hx]
  simp [assoc]

theorem assoc_middle_ne {k' : K} (h : k' ≠ k) (v : V) :
    assoc k' (xs ++ (k, v) :: ys) = assoc k' (xs ++ ys) := by
  rw [assoc_append, assoc_append]
  simp [assoc, Ne.symm h]

theorem toMap_insert (ys : List (K × V)) (hx : k ∉ xs.map Prod.fst) (v : V) :
    toMap (xs ++ (k, v) :: ys) = (toMap (xs ++ ys)).insert k v := by
  apply Finmap.ext_lookup
  intro k'
  by_cases h : k' = k
  · subst h
    rw [lookup_toMap, assoc_middle hx, Finmap.lookup_insert]
  · rw [Finmap.lookup_insert_of_ne _ h, lookup_toMap, lookup_toMap, assoc_middle_ne h]

theorem toMap_replace (ys : List (K × V)) (hx : k ∉ xs.map Prod.fst) (v v' : V) :
    toMap (xs ++ (k, v') :: ys) = (toMap (xs ++ (k, v) :: ys)).insert k v' := by
  apply Finmap.ext_lookup
  intro k'
  by_cases h : k' = k
  · subst h
    rw [lookup_toMap, assoc_middle hx, Finmap.lookup_insert]
  · rw [Finmap.lookup_insert_of_ne _ h, lookup_toMap, lookup_toMap, assoc_middle_ne h,
      assoc_middle_ne h]

theorem toMap_erase (hxy : k ∉ (xs ++ ys).map Prod.fst) (v : V) :
    toMap (xs ++ ys) = (toMap (xs ++ (k, v) :: ys)).erase k := by
  apply Finmap.ext_lookup
  intro k'
  by_cases h : k' = k
  · subst h
    rw [Finmap.lookup_erase, lookup_toMap, assoc_eq_none hxy]
  · rw [Finmap.lookup_erase_ne h, lookup_toMap, lookup_toMap, assoc_middle_ne h]

end splice

end BoundedMap
