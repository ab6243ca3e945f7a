import TurboUtils.Json.Serialize
import TurboUtils.Json.ContainerIndex

/-! `json_clone`, which adds the members of an object one by one, and what is seen of the copy. -/
namespace Json

/-! ## Copying -/

def Grants.all : Grants := ⟨true, true, true, true, true⟩

/-- The calls of `json_object_add_n` for the members of a new object; the arena of every child is new
too, so that it is adopted. -/
def addAll {V : Type*} (hash : List Char → ℕ) (members : List (List Char × V)) :
    Object (List Char) V → Object (List Char) V :=
  members.foldl fun o member => o.setArenaEx hash Grants.all member.1 member.2

mutual

/-- `json_clone`. -/
def Value.clone (hash : List Char → ℕ) : Value → Value
  | .array elements => .array (elementsClone hash elements)
  | .object members => .object (addAll hash (membersClone hash members) ⟨[], 0, none⟩).pairs
  | value => value

def elementsClone (hash : List Char → ℕ) : List Value → List Value
  | [] => []
  | value :: values => value.clone hash :: elementsClone hash values

def membersClone (hash : List Char → ℕ) : List (List Char × Value) → List (List Char × Value)
  | [] => []
  | (key, value) :: members => (key, value.clone hash) :: membersClone hash members

end

/-! ## Looking -/

namespace Value

/-- `json_object_size`. -/
def objectSize : Value → ℕ
  | .object members => members.length
  | _ => 0

/-- `json_object_key`. -/
def objectKey (v : Value) (i : ℕ) : Option (List Char) :=
  match v with
  | .object members => members[i]?.map Prod.fst
  | _ => none

/-- `json_object_value`. -/
def objectValue (v : Value) (i : ℕ) : Option Value :=
  match v with
  | .object members => members[i]?.map Prod.snd
  | _ => none

/-- `json_object_get_v`. -/
def objectGet (v : Value) (key : List Char) : Option Value :=
  match v with
  | .object members => (members.find? fun member => member.1 = key).map Prod.snd
  | _ => none

/-- `json_array_get`. -/
def arrayGet (v : Value) (i : ℕ) : Option Value :=
  match v with
  | .array elements => elements[i]?
  | _ => none

/-- `json_number_text`. -/
def numberText : Value → Option (List Char)
  | .number lexeme => some lexeme
  | _ => none

end Value

inductive Look where
  | value (i : ℕ)
  | get (key : List Char)
  | element (i : ℕ)

def Look.at : Look → Value → Option Value
  | .value i, v => v.objectValue i
  | .get key, v => v.objectGet key
  | .element i, v => v.arrayGet i

def Value.walk (v : Value) : List Look → Option Value
  | [] => some v
  | look :: path => (look.at v).bind fun inner => inner.walk path

def Value.shown (v : Value) : ℕ × (ℕ → Option (List Char)) × Option (List Char) :=
  (v.objectSize, v.objectKey, v.numberText)

/-- Two values that are printed alike, and that every call tells the same of. -/
structure Value.Alike (v c : Value) : Prop where
  printed : jsonSerialize c = jsonSerialize v
  shown : ∀ path, (c.walk path).map Value.shown = (v.walk path).map Value.shown

mutual

/-- No object has two members with the same key. -/
def Value.Distinct : Value → Prop
  | .array elements => elementsDistinct elements
  | .object members => (members.map Prod.fst).Nodup ∧ membersDistinct members
  | _ => True

def elementsDistinct : List Value → Prop
  | [] => True
  | value :: values => value.Distinct ∧ elementsDistinct values

def membersDistinct : List (List Char × Value) → Prop
  | [] => True
  | (_, value) :: members => value.Distinct ∧ membersDistinct members

end

/-! ## Adding members -/

section Adding

variable {V : Type*} {hash : List Char → ℕ} {o : Object (List Char) V}

theorem Object.setArenaEx_pairs (h : o.Sound hash) (key : List Char) (value : V) :
    (key ∈ o.pairs.map Prod.fst ∧
        (o.setArenaEx hash Grants.all key value).pairs.length = o.pairs.length) ∨
      (key ∉ o.pairs.map Prod.fst ∧
        (o.setArenaEx hash Grants.all key value).pairs = o.pairs ++ [(key, value)]) := by
  rcases h.setArenaEx_cases Grants.all key value with ⟨xs, old, ys, hpairs, -, hset⟩ | ⟨hnew, hset⟩
  · left
    simp [hpairs, hset]
  · exact Or.inr ⟨hnew, hset⟩

def Fresh (o : Object (List Char) V) (members : List (List Char × V)) : Prop :=
  (members.map Prod.fst).Nodup ∧ ∀ key ∈ members.map Prod.fst, key ∉ o.pairs.map Prod.fst

/-- Members with new keys come behind the others; else there are fewer than were added. -/
theorem addAll_pairs (h : o.Sound hash) (members : List (List Char × V)) :
    Fresh o members ∧ (addAll hash members o).pairs = o.pairs ++ members ∨
      ¬Fresh o members ∧ (addAll hash members o).pairs.length < o.pairs.length + members.length := by
  induction members generalizing o with
  | nil => simp [Fresh, addAll]
  | cons member members ih =>
    have hstep : (o.setArenaEx hash Grants.all member.1 member.2).Sound hash := h.setArenaEx member.2
    have hrest := ih hstep
    rcases Object.setArenaEx_pairs h member.1 member.2 with ⟨hmem, hlength⟩ | ⟨hnew, hpairs⟩
    · right
      refine ⟨fun hfresh => hfresh.2 member.1 (by simp) hmem, ?_⟩
      rcases hrest with ⟨-, hall⟩ | ⟨-, hless⟩
      · have hall := congrArg List.length hall
        simp only [addAll, List.foldl_cons, List.length_append, hlength, List.length_cons] at hall ⊢
        omega
      · simp only [addAll, List.foldl_cons, List.length_cons, hlength] at hless ⊢
        omega
    · have hfresh : Fresh (o.setArenaEx hash Grants.all member.1 member.2) members ↔
          Fresh o (member :: members) := by
        simp only [Fresh, hpairs, List.map_append, List.map_cons, List.map_nil, List.mem_append,
          List.mem_singleton, List.nodup_cons, List.forall_mem_cons, not_or]
        grind
      rw [← hfresh]
      rcases hrest with ⟨hnodup, hall⟩ | ⟨hnot, hless⟩
      · left
        refine ⟨hnodup, ?_⟩
        simpa [addAll, hpairs] using hall
      · right
        refine ⟨hnot, ?_⟩
        simp only [addAll, List.foldl_cons, List.length_cons, hpairs, List.length_append,
          List.length_nil] at hless ⊢
        omega

theorem addAll_empty (hash : List Char → ℕ) (members : List (List Char × V)) :
    (members.map Prod.fst).Nodup ∧ (addAll hash members ⟨[], 0, none⟩).pairs = members ∨
      ¬(members.map Prod.fst).Nodup ∧
        (addAll hash members ⟨[], 0, none⟩).pairs.length ≠ members.length := by
  have hsound : Object.Sound hash (⟨[], 0, none⟩ : Object (List Char) V) := ⟨rfl, nofun⟩
  rcases addAll_pairs hsound members with ⟨hfresh, hall⟩ | ⟨hnot, hless⟩
  · exact Or.inl ⟨hfresh.1, hall⟩
  · refine Or.inr ⟨fun hnodup => hnot ⟨hnodup, by simp⟩, ?_⟩
    simp only [List.length_nil, Nat.zero_add] at hless
    exact Nat.ne_of_lt hless

end Adding

/-! ## What the copy of a value is -/

section Copies

variable {hash : List Char → ℕ}

theorem membersClone_keys (members : List (List Char × Value)) :
    (membersClone hash members).map Prod.fst = members.map Prod.fst := by
  induction members with
  | nil => rfl
  | cons member members ih => simp [membersClone, ih]

mutual

theorem Value.clone_eq (v : Value) (h : v.Distinct) : v.clone hash = v := by
  cases v with
  | null | bool _ | number _ | string _ => rfl
  | array elements => rw [Value.clone, elementsClone_eq elements h]
  | object members =>
    rcases addAll_empty hash (membersClone hash members) with ⟨-, hall⟩ | ⟨hnot, -⟩
    · rw [Value.clone, hall, membersClone_eq members h.2]
    · exact absurd (by rw [membersClone_keys]; exact h.1) hnot

theorem elementsClone_eq (values : List Value) (h : elementsDistinct values) :
    elementsClone hash values = values := by
  cases values with
  | nil => rfl
  | cons value values => rw [elementsClone, value.clone_eq h.1, elementsClone_eq values h.2]

theorem membersClone_eq (members : List (List Char × Value)) (h : membersDistinct members) :
    membersClone hash members = members := by
  match members with
  | [] => rfl
  | (key, value) :: members => rw [membersClone, value.clone_eq h.1, membersClone_eq members h.2]

end

def shownAt (values : List Value) (i : ℕ) (path : List Look) :
    Option (ℕ × (ℕ → Option (List Char)) × Option (List Char)) :=
  (values[i]?.bind fun inner => inner.walk path).map Value.shown

mutual

theorem Value.distinct_of_shown (v : Value)
    (h : ∀ path, ((v.clone hash).walk path).map Value.shown = (v.walk path).map Value.shown) :
    v.Distinct := by
  cases v with
  | null | bool _ | number _ | string _ => trivial
  | array elements =>
    apply elementsDistinct_of_shown elements
    exact fun i path => h (.element i :: path)
  | object members =>
    have hsize : (addAll hash (membersClone hash members) ⟨[], 0, none⟩).pairs.length =
        members.length := congrArg Prod.fst (Option.some.inj (h []))
    rcases addAll_empty hash (membersClone hash members) with ⟨hnodup, hall⟩ | ⟨-, hless⟩
    · refine ⟨by rwa [membersClone_keys] at hnodup, membersDistinct_of_shown members fun i path => ?_⟩
      have hvalue := h (.value i :: path)
      rw [Value.clone, hall] at hvalue
      simpa [shownAt, Value.walk, Look.at, Value.objectValue] using hvalue
    · refine absurd ?_ hless
      rw [hsize, ← List.length_map Prod.fst, ← @membersClone_keys hash, List.length_map]

theorem elementsDistinct_of_shown (values : List Value)
    (h : ∀ i path, shownAt (elementsClone hash values) i path = shownAt values i path) :
    elementsDistinct values := by
  cases values with
  | nil => trivial
  | cons value values =>
    exact ⟨value.distinct_of_shown fun path => h 0 path,
      elementsDistinct_of_shown values fun i path => h (i + 1) path⟩

theorem membersDistinct_of_shown (members : List (List Char × Value))
    (h : ∀ i path, shownAt ((membersClone hash members).map Prod.snd) i path =
      shownAt (members.map Prod.snd) i path) : membersDistinct members := by
  match members with
  | [] => trivial
  | (key, value) :: members =>
    exact ⟨value.distinct_of_shown fun path => h 0 path,
      membersDistinct_of_shown members fun i path => h (i + 1) path⟩

end

end Copies

/-- A copy looks like the value exactly where no object has a key twice. -/
theorem clone_alike_iff (hash : List Char → ℕ) (v : Value) :
    v.Alike (v.clone hash) ↔ v.Distinct := by
  constructor
  · exact fun h => v.distinct_of_shown h.shown
  · intro h
    rw [v.clone_eq h]
    exact ⟨rfl, fun _ => rfl⟩

/-- The object that `{"a":1,"a":1}` is parsed to loses a member. -/
theorem clone_drops_duplicate :
    JsonParses (jsonSerialize (.object [(['a'], .number ['1']), (['a'], .number ['1'])]))
        (.object [(['a'], .number ['1']), (['a'], .number ['1'])]) ∧
      ∀ hash, ¬Value.Alike (.object [(['a'], .number ['1']), (['a'], .number ['1'])])
        (Value.clone hash (.object [(['a'], .number ['1']), (['a'], .number ['1'])])) := by
  refine ⟨(Value.serialize_prints _ ?_).jsonParses_iff.2 rfl, fun hash h => ?_⟩
  · simp [Value.numbers, membersNumbers, isNumber_one]
  · have hdistinct := Value.distinct_of_shown _ h.shown
    simp [Value.Distinct] at hdistinct

end Json
