import TurboUtils.Lib.BoundedMap

/-! Ordered multimaps: a list of named entries, sorted by key, in which entries with equal keys stand
in the order in which they were made. Without equal keys it is a finite map on the classes of equal
keys. -/
namespace OrderedMultimap

open Std BoundedMap

structure Entry (K V : Type*) where
  name : ℕ
  key : K
  value : V

/-- The entries, and the number of entries made so far, which names the next one. -/
structure State (K V : Type*) where
  entries : List (Entry K V)
  created : ℕ

inductive Op (K V : Type*) where
  | put (k : K) (v : V)
  | drop (name : ℕ)
  | remove (k : K)
  | erase (k : K)

inductive Answer (V : Type*) where
  | inserted | replaced | capacityExceeded
  | removed (v : Option V)
  | erased (n : ℕ)
  deriving DecidableEq

variable {K V : Type*} (cmp : K → K → Ordering)

/-- The entries whose keys compare to `k` as `o`. -/
def rank (o : Ordering) (k : K) (es : List (Entry K V)) : List (Entry K V) :=
  es.filter fun e => cmp e.key k = o

/-- Without `dup` an entry with an equal key gets the value; otherwise the new entry stands behind
all entries whose keys are not greater. Of equal keys the last one is removed, or all are erased. -/
def step (dup : Bool) (limit : ℕ) (s : State K V) : Op K V → State K V × Answer V
  | .put k v =>
      if dup = false ∧ rank cmp .eq k s.entries ≠ [] then
        (⟨s.entries.map fun e => if cmp e.key k = .eq then { e with value := v } else e, s.created⟩,
          .replaced)
      else if limit ≤ s.entries.length then (s, .capacityExceeded)
      else
        (⟨rank cmp .lt k s.entries ++ rank cmp .eq k s.entries ++
          ⟨s.created, k, v⟩ :: rank cmp .gt k s.entries, s.created + 1⟩, .inserted)
  | .drop i =>
      (⟨s.entries.filter fun e => e.name ≠ i, s.created⟩,
        .removed ((s.entries.find? fun e => e.name = i).map Entry.value))
  | .remove k =>
      match (rank cmp .eq k s.entries).getLast? with
      | none => (s, .removed none)
      | some e => (⟨s.entries.filter fun x => x.name ≠ e.name, s.created⟩, .removed (some e.value))
  | .erase k =>
      (⟨s.entries.filter fun e => cmp e.key k ≠ .eq, s.created⟩,
        .erased (rank cmp .eq k s.entries).length)

def run (dup : Bool) (limit : ℕ) (s : State K V) : List (Op K V) → List (State K V × Answer V)
  | [] => []
  | op :: ops => step cmp dup limit s op :: run dup limit (step cmp dup limit s op).1 ops

/-- `a` stands before `b`. -/
def Before (a b : Entry K V) : Prop :=
  cmp a.key b.key = .lt ∨ cmp a.key b.key = .eq ∧ a.name < b.name

abbrev Sorted (es : List (Entry K V)) : Prop := es.Pairwise (Before cmp)

abbrev Apart (es : List (Entry K V)) : Prop := es.Pairwise fun a b => cmp a.key b.key = .lt

variable {cmp}

theorem mem_rank {o : Ordering} {k : K} {es : List (Entry K V)} {e : Entry K V} :
    e ∈ rank cmp o k es ↔ e ∈ es ∧ cmp e.key k = o := by simp [rank]

theorem Before.isLE {a b : Entry K V} (h : Before cmp a b) : (cmp a.key b.key).isLE := by
  rcases h with h | ⟨h, -⟩ <;> rw [h] <;> rfl

section Order

variable [TransCmp cmp] {k : K} {es : List (Entry K V)}

/-- A sorted list falls into the entries before a key, at it and after it. -/
theorem Sorted.split (h : Sorted cmp es) (k : K) :
    es = rank cmp .lt k es ++ rank cmp .eq k es ++ rank cmp .gt k es := by
  induction es with
  | nil => rfl
  | cons e es ih =>
    obtain ⟨he, hs⟩ := List.pairwise_cons.mp h
    have hrest := ih hs
    have hle : ∀ x ∈ es, (cmp e.key x.key).isLE := fun x hx => (he x hx).isLE
    cases hc : cmp e.key k with
    | lt => simpa [rank, hc] using hrest
    | eq =>
      have hlt : rank cmp .lt k es = [] := by
        rw [rank, List.filter_eq_nil_iff]
        intro x hx hxk
        have hek := TransCmp.lt_of_isLE_of_lt (hle x hx) (by simpa using hxk)
        exact absurd (hc.symm.trans hek) (by simp)
      rw [hlt] at hrest
      simp only [rank] at hlt hrest ⊢
      simpa [hc, hlt] using hrest
    | gt =>
      have hgt : ∀ x ∈ es, cmp x.key k = .gt := by
        intro x hx
        have hkx := TransCmp.lt_of_lt_of_isLE (OrientedCmp.lt_of_gt hc) (hle x hx)
        exact OrientedCmp.gt_of_lt hkx
      have hlt : rank cmp .lt k es = [] := by
        rw [rank, List.filter_eq_nil_iff]
        intro x hx
        simp [hgt x hx]
      have heq : rank cmp .eq k es = [] := by
        rw [rank, List.filter_eq_nil_iff]
        intro x hx
        simp [hgt x hx]
      have hall : rank cmp .gt k es = es := by
        rw [rank, List.filter_eq_self]
        intro x hx
        simp [hgt x hx]
      simp only [rank] at hlt heq hall ⊢
      simp [hc, hlt, heq, hall]

theorem Sorted.filter_eq (h : Sorted cmp es) (k : K) (p : Ordering → Bool) :
    es.filter (fun e => p (cmp e.key k)) = (if p .lt then rank cmp .lt k es else []) ++
      (if p .eq then rank cmp .eq k es else []) ++ (if p .gt then rank cmp .gt k es else []) := by
  have hpart (o : Ordering) : (rank cmp o k es).filter (fun e => p (cmp e.key k)) =
      if p o then rank cmp o k es else [] := by
    split_ifs with hp
    · rw [List.filter_eq_self]
      intro e he
      rw [(mem_rank.mp he).2, hp]
    · rw [List.filter_eq_nil_iff]
      intro e he
      rw [(mem_rank.mp he).2]
      exact hp
  conv_lhs => rw [h.split k]
  rw [List.filter_append, List.filter_append, hpart, hpart, hpart]

theorem Sorted.insert (h : Sorted cmp es) {n : ℕ} (hn : ∀ e ∈ es, e.name < n) (k : K) (v : V) :
    Sorted cmp (rank cmp .lt k es ++ rank cmp .eq k es ++ ⟨n, k, v⟩ :: rank cmp .gt k es) := by
  have hsplit := h.split k
  rw [hsplit, Sorted, List.pairwise_append] at h
  obtain ⟨hle, hgt, hcross⟩ := h
  rw [Sorted, List.pairwise_append, List.pairwise_cons]
  refine ⟨hle, ⟨fun b hb => ?_, hgt⟩, fun a ha b hb => ?_⟩
  · exact .inl (OrientedCmp.lt_of_gt (mem_rank.mp hb).2)
  · rw [List.mem_cons] at hb
    rcases hb with rfl | hb
    · rw [List.mem_append] at ha
      rcases ha with ha | ha
      · exact .inl (mem_rank.mp ha).2
      · exact .inr ⟨(mem_rank.mp ha).2, hn a (mem_rank.mp ha).1⟩
    · exact hcross a ha b hb

theorem Apart.eq_of_eq (h : Apart cmp es) {a b : Entry K V} (ha : a ∈ es) (hb : b ∈ es)
    (hak : cmp a.key k = .eq) (hbk : cmp b.key k = .eq) : a = b := by
  by_contra hab
  have hne : es.Pairwise fun x y => cmp x.key y.key ≠ .eq := by
    apply h.imp
    intro x y hxy
    simp [hxy]
  have hsymm : Std.Symm fun x y : Entry K V => cmp x.key y.key ≠ .eq :=
    ⟨fun x y hxy hyx => hxy (OrientedCmp.eq_symm hyx)⟩
  exact hne.forall ha hb hab (TransCmp.eq_trans hak (OrientedCmp.eq_symm hbk))

theorem Apart.insert (h : Apart cmp es) (hsplit : es = rank cmp .lt k es ++ rank cmp .eq k es ++
    rank cmp .gt k es) (hnone : rank cmp .eq k es = []) (n : ℕ) (v : V) :
    Apart cmp (rank cmp .lt k es ++ rank cmp .eq k es ++ ⟨n, k, v⟩ :: rank cmp .gt k es) := by
  rw [hnone, List.append_nil] at hsplit ⊢
  rw [hsplit, Apart, List.pairwise_append] at h
  obtain ⟨hlt, hgt, hcross⟩ := h
  rw [Apart, List.pairwise_append, List.pairwise_cons]
  refine ⟨hlt, ⟨fun b hb => OrientedCmp.lt_of_gt (mem_rank.mp hb).2, hgt⟩, fun a ha b hb => ?_⟩
  rw [List.mem_cons] at hb
  rcases hb with rfl | hb
  · exact (mem_rank.mp ha).2
  · exact hcross a ha b hb

end Order

/-! ## Without equal keys -/

section Classes

variable (cmp) [TransCmp cmp]

def equalKeys : Setoid K where
  r a b := cmp a b = .eq
  iseqv := ⟨fun _ => ReflCmp.compare_self, OrientedCmp.eq_symm, TransCmp.eq_trans⟩

abbrev Class : Type _ := Quotient (equalKeys cmp)

instance : DecidableEq (Class cmp) :=
  @Quotient.decidableEq K (equalKeys cmp) fun a b => inferInstanceAs (Decidable (cmp a b = .eq))

def classOf (k : K) : Class cmp := Quotient.mk (equalKeys cmp) k

theorem classOf_eq {a b : K} : classOf cmp a = classOf cmp b ↔ cmp a b = .eq :=
  Quotient.eq (r := equalKeys cmp)

def binding (e : Entry K V) : Class cmp × V := (classOf cmp e.key, e.value)

def contents (es : List (Entry K V)) : FMap (Class cmp) V := toMap (es.map (binding cmp))

def mapOp (s : State K V) : Op K V → Option (BoundedMap.Op (Class cmp) V)
  | .put k v => some (.put (classOf cmp k) v)
  | .drop i => (s.entries.find? fun e => e.name = i).map fun e => .remove (classOf cmp e.key)
  | .remove k => some (.remove (classOf cmp k))
  | .erase k => some (.remove (classOf cmp k))

def mapOps (dup : Bool) (limit : ℕ) (s : State K V) :
    List (Op K V) → Option (List (BoundedMap.Op (Class cmp) V))
  | [] => some []
  | op :: ops =>
      match mapOp cmp s op, mapOps dup limit (step cmp dup limit s op).1 ops with
      | some o, some os => some (o :: os)
      | _, _ => none

def Answer.Tells : Answer V → Result V → Prop
  | .inserted, r => r.status = .ok
  | .replaced, r => r.status = .ok
  | .capacityExceeded, r => r.status = .capacityExceeded
  | .removed none, r => r.status = .notFound
  | .removed (some v), r => r = ⟨.ok, some v⟩
  | .erased n, r => r.status = if n = 0 then .notFound else .ok

def MapAgrees (x : State K V × Answer V) (y : FMap (Class cmp) V × Result V) : Prop :=
  contents cmp x.1.entries = y.1 ∧ x.2.Tells y.2

variable {cmp} {k : K} {es xs ys : List (Entry K V)} {e : Entry K V}

theorem classOf_notMem (h : ∀ e ∈ es, cmp e.key k ≠ .eq) :
    classOf cmp k ∉ (es.map (binding cmp)).map Prod.fst := by
  rw [List.map_map, List.mem_map]
  rintro ⟨e, he, heq⟩
  exact h e he ((classOf_eq cmp).mp heq)

theorem Apart.nodup (h : Apart cmp es) : ((es.map (binding cmp)).map Prod.fst).Nodup := by
  rw [List.map_map, List.Nodup, List.pairwise_map]
  apply h.imp
  intro a b hab heq
  rw [(classOf_eq cmp).mp heq] at hab
  exact absurd hab (by simp)

theorem Apart.around (h : Apart cmp (xs ++ e :: ys)) (hk : cmp e.key k = .eq) :
    (∀ a ∈ xs, cmp a.key k ≠ .eq) ∧ ∀ a ∈ ys, cmp a.key k ≠ .eq := by
  rw [Apart, List.pairwise_append, List.pairwise_cons] at h
  obtain ⟨-, ⟨hright, -⟩, hleft⟩ := h
  constructor
  · intro a ha
    have hlt := TransCmp.lt_of_lt_of_eq (hleft a ha e (by simp)) hk
    simp [hlt]
  · intro a ha
    have hgt := TransCmp.lt_of_eq_of_lt (OrientedCmp.eq_symm hk) (hright a ha)
    simp [OrientedCmp.gt_of_lt hgt]

theorem lookup_contents (h : Apart cmp (xs ++ e :: ys)) (hk : cmp e.key k = .eq) :
    (contents cmp (xs ++ e :: ys)).lookup (classOf cmp k) = some e.value := by
  rw [contents, List.map_append, List.map_cons, ← (classOf_eq cmp).mpr hk, lookup_toMap, binding]
  apply assoc_middle
  rw [(classOf_eq cmp).mpr hk]
  exact classOf_notMem (h.around hk).1

theorem contents_erase (h : Apart cmp (xs ++ e :: ys)) (hk : cmp e.key k = .eq) :
    contents cmp (xs ++ ys) = (contents cmp (xs ++ e :: ys)).erase (classOf cmp k) := by
  rw [contents, contents, List.map_append, List.map_append, List.map_cons, ← (classOf_eq cmp).mpr hk]
  apply toMap_erase
  rw [(classOf_eq cmp).mpr hk, ← List.map_append]
  apply classOf_notMem
  intro a ha
  rw [List.mem_append] at ha
  exact ha.elim ((h.around hk).1 a) ((h.around hk).2 a)

theorem remove_mapAgrees (limit : ℕ) (h : Apart cmp (xs ++ e :: ys)) (hk : cmp e.key k = .eq) :
    BoundedMap.step limit (contents cmp (xs ++ e :: ys)) (.remove (classOf cmp k)) =
      (contents cmp (xs ++ ys), ⟨.ok, some e.value⟩) := by
  rw [BoundedMap.step, lookup_contents h hk, contents_erase h hk]

theorem mem_contents : classOf cmp k ∈ contents cmp es ↔ rank cmp .eq k es ≠ [] := by
  rw [contents, mem_toMap, List.map_map, List.mem_map]
  constructor
  · rintro ⟨e, he, heq⟩
    exact List.ne_nil_of_mem (mem_rank.mpr ⟨he, (classOf_eq cmp).mp heq⟩)
  · intro hany
    obtain ⟨e, he⟩ := List.exists_mem_of_ne_nil _ hany
    obtain ⟨he, heq⟩ := mem_rank.mp he
    exact ⟨e, he, (classOf_eq cmp).mpr heq⟩

/-- Around the only entry of a key. -/
theorem Apart.split_at (h : Apart cmp es) (he : e ∈ es) (hk : cmp e.key k = .eq) :
    ∃ xs ys, es = xs ++ e :: ys ∧ rank cmp .eq k es = [e] ∧
      es.filter (fun e => cmp e.key k ≠ .eq) = xs ++ ys := by
  obtain ⟨xs, ys, rfl⟩ := List.append_of_mem he
  obtain ⟨hleft, hright⟩ := h.around hk
  have hx : rank cmp .eq k xs = [] := List.filter_eq_nil_iff.mpr fun a ha => by simpa using hleft a ha
  have hy : rank cmp .eq k ys = [] := List.filter_eq_nil_iff.mpr fun a ha => by simpa using hright a ha
  have hx' : xs.filter (fun e => cmp e.key k ≠ .eq) = xs :=
    List.filter_eq_self.mpr fun a ha => by simpa using hleft a ha
  have hy' : ys.filter (fun e => cmp e.key k ≠ .eq) = ys :=
    List.filter_eq_self.mpr fun a ha => by simpa using hright a ha
  refine ⟨xs, ys, rfl, ?_, ?_⟩
  · rw [rank] at hx hy ⊢
    rw [List.filter_append, List.filter_cons_of_pos (by simpa using hk), hx, hy]
    rfl
  · rw [List.filter_append, List.filter_cons_of_neg (by simpa using hk), hx', hy']

theorem filter_name {xs ys : List (Entry K V)} {e : Entry K V}
    (h : ((xs ++ e :: ys).map Entry.name).Nodup) :
    (xs ++ e :: ys).filter (fun x => x.name ≠ e.name) = xs ++ ys := by
  rw [List.map_append, List.map_cons, List.nodup_middle, List.nodup_cons, ← List.map_append] at h
  have hother : ∀ x ∈ xs ++ ys, x.name ≠ e.name :=
    fun x hx heq => h.1 (heq ▸ List.mem_map_of_mem hx)
  have hx : xs.filter (fun x => x.name ≠ e.name) = xs :=
    List.filter_eq_self.mpr fun x hx => by simpa using hother x (List.mem_append_left _ hx)
  have hy : ys.filter (fun x => x.name ≠ e.name) = ys :=
    List.filter_eq_self.mpr fun x hx => by simpa using hother x (List.mem_append_right _ hx)
  rw [List.filter_append, List.filter_cons_of_neg (by simp), hx, hy]

theorem contents_replace (h : Apart cmp (xs ++ e :: ys)) (hk : cmp e.key k = .eq) (v : V) :
    contents cmp ((xs ++ e :: ys).map fun x => if cmp x.key k = .eq then { x with value := v } else x) =
      (contents cmp (xs ++ e :: ys)).insert (classOf cmp k) v := by
  obtain ⟨hleft, hright⟩ := h.around hk
  have hsame (us : List (Entry K V)) (hus : ∀ a ∈ us, cmp a.key k ≠ .eq) :
      us.map (fun x => if cmp x.key k = .eq then { x with value := v } else x) = us := by
    exact (List.map_congr_left fun a ha => if_neg (hus a ha)).trans (List.map_id us)
  rw [List.map_append, List.map_cons, hsame xs hleft, hsame ys hright, if_pos hk, contents, contents,
    List.map_append, List.map_append, List.map_cons, List.map_cons, ← (classOf_eq cmp).mpr hk]
  apply toMap_replace
  rw [(classOf_eq cmp).mpr hk]
  exact classOf_notMem hleft

theorem contents_insert (hs : Sorted cmp es) (hnone : rank cmp .eq k es = []) (n : ℕ) (v : V) :
    contents cmp (rank cmp .lt k es ++ rank cmp .eq k es ++ ⟨n, k, v⟩ :: rank cmp .gt k es) =
      (contents cmp es).insert (classOf cmp k) v := by
  have hsplit := hs.split k
  rw [hnone, List.append_nil] at hsplit ⊢
  rw [contents, contents, List.map_append, List.map_cons]
  conv_rhs => rw [hsplit, List.map_append]
  apply toMap_insert
  apply classOf_notMem
  intro e he
  simp [(mem_rank.mp he).2]

theorem remove_none (limit : ℕ) (hnone : rank cmp .eq k es = []) :
    BoundedMap.step limit (contents cmp es) (.remove (classOf cmp k)) =
      (contents cmp es, ⟨.notFound, none⟩) := by
  have hlookup : (contents cmp es).lookup (classOf cmp k) = none := by
    rw [Finmap.lookup_eq_none, mem_contents]
    exact fun hany => hany hnone
  rw [BoundedMap.step, hlookup]

/-- Without equal keys each operation is a call on the finite map. -/
theorem step_map (limit : ℕ) {s : State K V} (hs : Sorted cmp s.entries) (ha : Apart cmp s.entries)
    (hn : (s.entries.map Entry.name).Nodup) {op : Op K V} {o : BoundedMap.Op (Class cmp) V}
    (ho : mapOp cmp s op = some o) :
    MapAgrees cmp (step cmp false limit s op)
      (BoundedMap.step limit (contents cmp s.entries) o) := by
  have hcard : (contents cmp s.entries).keys.card = s.entries.length := by
    rw [contents, card_keys_toMap ha.nodup, List.length_map]
  cases op with
  | put k v =>
    obtain rfl := Option.some.inj ho
    by_cases hany : rank cmp .eq k s.entries = []
    · by_cases hfull : limit ≤ s.entries.length
      · have hput : ¬ (classOf cmp k ∈ contents cmp s.entries ∨
            (contents cmp s.entries).keys.card < limit) := by
          rw [mem_contents, hcard]
          simp [hany, hfull]
        rw [step, if_neg (by simp [hany]), if_pos hfull, BoundedMap.step, if_neg hput]
        exact ⟨rfl, rfl⟩
      · have hput : classOf cmp k ∈ contents cmp s.entries ∨
            (contents cmp s.entries).keys.card < limit := by
          rw [hcard]
          exact .inr (Nat.lt_of_not_le hfull)
        rw [step, if_neg (by simp [hany]), if_neg hfull, BoundedMap.step, if_pos hput]
        exact ⟨contents_insert hs hany _ _, rfl⟩
    · obtain ⟨e, he⟩ := List.exists_mem_of_ne_nil _ hany
      obtain ⟨he, hk⟩ := mem_rank.mp he
      rw [step, if_pos ⟨rfl, hany⟩, BoundedMap.step, if_pos (.inl (mem_contents.mpr hany))]
      obtain ⟨xs, ys, hsplit⟩ := List.append_of_mem he
      rw [hsplit] at ha ⊢
      exact ⟨contents_replace ha hk v, rfl⟩
  | drop i =>
    rw [mapOp, Option.map_eq_some_iff] at ho
    obtain ⟨e, hfind, rfl⟩ := ho
    have he := List.mem_of_find?_eq_some hfind
    have hname : e.name = i := by simpa using List.find?_some hfind
    obtain ⟨xs, ys, hsplit⟩ := List.append_of_mem he
    rw [step, hfind, ← hname, hsplit]
    rw [hsplit] at ha hn
    rw [filter_name hn, remove_mapAgrees limit ha ReflCmp.compare_self]
    exact ⟨rfl, rfl⟩
  | remove k =>
    obtain rfl := Option.some.inj ho
    by_cases hany : rank cmp .eq k s.entries = []
    · rw [remove_none limit hany, step, hany]
      exact ⟨rfl, rfl⟩
    · obtain ⟨e, he⟩ := List.exists_mem_of_ne_nil _ hany
      obtain ⟨he, hk⟩ := mem_rank.mp he
      obtain ⟨xs, ys, hsplit, hrank, -⟩ := ha.split_at he hk
      rw [step, hrank]
      rw [hsplit] at ha hn ⊢
      dsimp only [List.getLast?_singleton]
      rw [filter_name hn, remove_mapAgrees limit ha hk]
      exact ⟨rfl, rfl⟩
  | erase k =>
    obtain rfl := Option.some.inj ho
    by_cases hany : rank cmp .eq k s.entries = []
    · have hkept : s.entries.filter (fun e => cmp e.key k ≠ .eq) = s.entries := by
        rw [rank, List.filter_eq_nil_iff] at hany
        exact List.filter_eq_self.mpr fun e he => by simpa using hany e he
      rw [remove_none limit hany, step, hkept, hany]
      exact ⟨rfl, rfl⟩
    · obtain ⟨e, he⟩ := List.exists_mem_of_ne_nil _ hany
      obtain ⟨he, hk⟩ := mem_rank.mp he
      obtain ⟨xs, ys, hsplit, hrank, hkept⟩ := ha.split_at he hk
      rw [step, hrank, hkept]
      rw [hsplit] at ha ⊢
      rw [remove_mapAgrees limit ha hk]
      exact ⟨rfl, rfl⟩

end Classes

end OrderedMultimap
