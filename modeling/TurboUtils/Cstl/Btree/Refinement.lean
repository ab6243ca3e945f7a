import TurboUtils.Cstl.Btree.Tree

/-! `btree_t` refines a finite map bounded by its entry limit. The invariant ties the nodes,
the entry list and the size to one list of entries; every call changes that list at one
place. -/
namespace Cstl.Btree

open BoundedMap (Op Result FMap toMap)
open LinkedChain

variable {K V : Type*}

/-! ## Stores into the heap -/

def Link.payload (l : Link K V) : K × V := (l.key, l.value)

def storeAt (heap : ℕ → Option (Link K V)) (o : Option ℕ) (f : Link K V → Link K V) :
    ℕ → Option (Link K V) :=
  match o with
  | some i => store heap i f
  | none => heap

theorem storeAt_apply (heap : ℕ → Option (Link K V)) (o : Option ℕ) (f : Link K V → Link K V)
    (j : ℕ) : storeAt heap o f j = if o = some j then (heap j).map f else heap j := by
  cases o with
  | none => simp [storeAt]
  | some i =>
    by_cases h : i = j
    · subst h
      simp [storeAt, store]
    · simp [storeAt, store, h, Ne.symm h]

theorem store_apply (heap : ℕ → Option (Link K V)) (i : ℕ) (f : Link K V → Link K V) (j : ℕ) :
    store heap i f j = if i = j then (heap j).map f else heap j := by
  have h := storeAt_apply heap (some i) f j
  simp only [Option.some.injEq] at h
  exact h

theorem storeAt_payload (heap : ℕ → Option (Link K V)) (o : Option ℕ) (f : Link K V → Link K V)
    (hf : ∀ l, (f l).payload = l.payload) (j : ℕ) :
    (storeAt heap o f j).map Link.payload = (heap j).map Link.payload := by
  rw [storeAt_apply]
  split_ifs
  · cases heap j <;> simp [hf]
  · rfl

/-- The cell that ends up before a new one: the one before `next`, or the last of all. -/
def cellBefore (prv : ℕ → Option ℕ) (last next : Option ℕ) : Option ℕ :=
  match next with
  | some n => prv n
  | none => last

def SameNodes (b b' : Btree K V) : Prop :=
  b'.root = b.root ∧ b'.minDegree = b.minDegree ∧ b'.entryLimit = b.entryLimit ∧
    b'.size = b.size ∧ b'.unused = b.unused

/-- What linking a new cell between `prev` and `next` does to the pointers. -/
structure LinkedIn (b b' : Btree K V) (prev next : Option ℕ) (link : ℕ) : Prop where
  next_link : b'.next link = next
  previous_link : b'.previous link = prev
  next_prev : ∀ i ∈ prev, b'.next i = some link
  previous_next : ∀ i ∈ next, b'.previous i = some link
  next_other : ∀ i, i ≠ link → some i ≠ prev → b'.next i = b.next i
  previous_other : ∀ i, i ≠ link → some i ≠ next → b'.previous i = b.previous i
  first_eq : b'.first = if prev = none then some link else b.first
  last_eq : b'.last = if next = none then some link else b.last
  payload : ∀ i, (b'.heap i).map Link.payload = (b.heap i).map Link.payload
  same : SameNodes b b'

theorem linkInsertBefore_heap {b : Btree K V} {prev next : Option ℕ} {link : ℕ}
    (hprev : cellBefore b.previous b.last next = prev) :
    (b.linkInsertBefore next link).heap =
      storeAt (storeAt (store b.heap link fun l => { l with next := next, previous := prev })
        prev fun l => { l with next := some link }) next (fun l => { l with previous := some link }) ∧
    (b.linkInsertBefore next link).first = (if prev = none then some link else b.first) ∧
    (b.linkInsertBefore next link).last = (if next = none then some link else b.last) ∧
    SameNodes b (b.linkInsertBefore next link) := by
  subst hprev
  cases next with
  | none =>
    cases hl : b.last <;> simp [linkInsertBefore, cellBefore, hl, storeAt, SameNodes]
  | some n =>
    cases hp : b.previous n <;> simp [linkInsertBefore, cellBefore, hp, storeAt, SameNodes]

theorem linkInsertBefore_spec {b : Btree K V} {prev next : Option ℕ} {link : ℕ}
    (hprev : cellBefore b.previous b.last next = prev)
    (hlink : (b.heap link).isSome) (hn : ∀ n ∈ next, n ≠ link ∧ (b.heap n).isSome)
    (hp : ∀ p ∈ prev, p ≠ link ∧ (b.heap p).isSome) :
    LinkedIn b (b.linkInsertBefore next link) prev next link := by
  obtain ⟨hheap, hfirst, hlast, hsame⟩ := linkInsertBefore_heap hprev
  obtain ⟨l, hl⟩ := Option.isSome_iff_exists.mp hlink
  have hnl : next ≠ some link := fun h => (hn link h).1 rfl
  have hpl : prev ≠ some link := fun h => (hp link h).1 rfl
  have hnext : ∀ i, (b.linkInsertBefore next link).next i =
      if link = i then next else if prev = some i then some link else b.next i := by
    intro i
    rw [Btree.next, hheap, storeAt_apply, storeAt_apply, store_apply]
    by_cases h1 : link = i
    · subst h1
      simp [hnl, hpl, hl]
    · by_cases h2 : prev = some i
      · obtain ⟨lp, hlp⟩ := Option.isSome_iff_exists.mp (hp i h2).2
        by_cases h3 : next = some i <;> simp [h1, h2, h3, hlp]
      · by_cases h3 : next = some i
        · simp only [h1, h2, h3, if_true, if_false, Btree.next]
          cases b.heap i <;> rfl
        · simp [h1, h2, h3, Btree.next]
  have hprevious : ∀ i, (b.linkInsertBefore next link).previous i =
      if link = i then prev else if next = some i then some link else b.previous i := by
    intro i
    rw [Btree.previous, hheap, storeAt_apply, storeAt_apply, store_apply]
    by_cases h1 : link = i
    · subst h1
      simp [hnl, hpl, hl]
    · by_cases h3 : next = some i
      · obtain ⟨ln, hln⟩ := Option.isSome_iff_exists.mp (hn i h3).2
        by_cases h2 : prev = some i <;> simp [h1, h2, h3, hln]
      · by_cases h2 : prev = some i
        · simp only [h1, h2, h3, if_true, if_false, Btree.previous]
          cases b.heap i <;> rfl
        · simp [h1, h2, h3, Btree.previous]
  constructor
  · simp [hnext]
  · simp [hprevious]
  · intro i hi
    rw [hnext, if_neg (hp i hi).1.symm, if_pos (Option.mem_def.mp hi)]
  · intro i hi
    rw [hprevious, if_neg (hn i hi).1.symm, if_pos (Option.mem_def.mp hi)]
  · intro i hi hip
    rw [hnext, if_neg (Ne.symm hi), if_neg (Ne.symm hip)]
  · intro i hi hin
    rw [hprevious, if_neg (Ne.symm hi), if_neg (Ne.symm hin)]
  · exact hfirst
  · exact hlast
  · intro i
    rw [hheap, storeAt_payload, storeAt_payload]
    · apply storeAt_payload b.heap (some link)
      intro l
      rfl
    · intro l
      rfl
    · intro l
      rfl
  · exact hsame

/-- What unlinking a cell between `prev` and `next` does to the pointers. -/
structure Unlinked (b b' : Btree K V) (prev next : Option ℕ) : Prop where
  next_prev : ∀ i ∈ prev, b'.next i = next
  previous_next : ∀ i ∈ next, b'.previous i = prev
  next_other : ∀ i, some i ≠ prev → b'.next i = b.next i
  previous_other : ∀ i, some i ≠ next → b'.previous i = b.previous i
  first_eq : b'.first = if prev = none then next else b.first
  last_eq : b'.last = if next = none then prev else b.last
  payload : ∀ i, (b'.heap i).map Link.payload = (b.heap i).map Link.payload
  same : SameNodes b b'

theorem linkUnlink_heap {b : Btree K V} {prev next : Option ℕ} {link : ℕ}
    (hprev : b.previous link = prev) (hnext : b.next link = next) :
    (b.linkUnlink link).heap =
      storeAt (storeAt b.heap prev fun l => { l with next := next }) next
        (fun l => { l with previous := prev }) ∧
    (b.linkUnlink link).first = (if prev = none then next else b.first) ∧
    (b.linkUnlink link).last = (if next = none then prev else b.last) ∧
    SameNodes b (b.linkUnlink link) := by
  cases prev with
  | none =>
    cases next <;> simp [linkUnlink, hprev, hnext, storeAt, SameNodes]
  | some p =>
    cases next <;> simp [linkUnlink, hprev, hnext, storeAt, SameNodes]

theorem linkUnlink_spec {b : Btree K V} {prev next : Option ℕ} {link : ℕ}
    (hprev : b.previous link = prev) (hnext : b.next link = next)
    (hn : ∀ n ∈ next, (b.heap n).isSome) (hp : ∀ p ∈ prev, (b.heap p).isSome) :
    Unlinked b (b.linkUnlink link) prev next := by
  obtain ⟨hheap, hfirst, hlast, hsame⟩ := linkUnlink_heap hprev hnext
  have hnext' : ∀ i, (b.linkUnlink link).next i = if prev = some i then next else b.next i := by
    intro i
    rw [Btree.next, hheap, storeAt_apply, storeAt_apply]
    by_cases h2 : prev = some i
    · obtain ⟨lp, hlp⟩ := Option.isSome_iff_exists.mp (hp i h2)
      by_cases h3 : next = some i <;> simp [h2, h3, hlp]
    · by_cases h3 : next = some i
      · simp only [h2, h3, if_true, if_false, Btree.next]
        cases b.heap i <;> rfl
      · simp [h2, h3, Btree.next]
  have hprevious : ∀ i, (b.linkUnlink link).previous i =
      if next = some i then prev else b.previous i := by
    intro i
    rw [Btree.previous, hheap, storeAt_apply, storeAt_apply]
    by_cases h3 : next = some i
    · obtain ⟨ln, hln⟩ := Option.isSome_iff_exists.mp (hn i h3)
      by_cases h2 : prev = some i <;> simp [h2, h3, hln]
    · by_cases h2 : prev = some i
      · simp only [h2, h3, if_true, if_false, Btree.previous]
        cases b.heap i <;> rfl
      · simp [h2, h3, Btree.previous]
  constructor
  · intro i hi
    rw [hnext', if_pos (Option.mem_def.mp hi)]
  · intro i hi
    rw [hprevious, if_pos (Option.mem_def.mp hi)]
  · intro i hi
    rw [hnext', if_neg (Ne.symm hi)]
  · intro i hi
    rw [hprevious, if_neg (Ne.symm hi)]
  · exact hfirst
  · exact hlast
  · intro i
    rw [hheap, storeAt_payload, storeAt_payload]
    · intro l
      rfl
    · intro l
      rfl
  · exact hsame

/-! ## The invariant -/

def contents (b : Btree K V) : List (Entry K V) :=
  match b.root with
  | none => []
  | some n => inorder (n.levels - 1) n

def pairs (b : Btree K V) : List (K × V) := b.contents.map fun e => (e.key, e.value)

theorem pairs_keys (b : Btree K V) : b.pairs.map Prod.fst = b.contents.map Entry.key := by
  simp [pairs]

theorem contents_of_shape {b : Btree K V} {t lo h : ℕ} {n : Node K V} (hr : b.root = some n)
    (hs : Shape t lo h n) : b.contents = inorder h n := by
  simp [contents, hr, hs.levels_eq]

theorem map_payload {b : Btree K V} {es : List (Entry K V)}
    (h : ∀ e ∈ es, (b.heap e.link).map Link.payload = some (e.key, e.value)) :
    (es.map Entry.link).map (fun i => (b.heap i).map Link.payload) =
      (es.map fun e => (e.key, e.value)).map some := by
  rw [List.map_map, List.map_map]
  apply List.map_congr_left
  intro e he
  exact h e he

/-- A range loop in the middle of the list visits the rest of it. -/
theorem rangeLoop_from {b : Btree K V} {self : ℕ} {es : List (Entry K V)} {p : Option ℕ}
    {fuel : ℕ} (hf : es.length < fuel)
    (hp : ∀ e ∈ es, (b.heap e.link).map Link.payload = some (e.key, e.value))
    (hs : Seg b.next b.previous p (es.map Entry.link) none) :
    b.rangeLoop self fuel ⟨(es.map Entry.link).head?, some self⟩ =
      (es.map fun e => (e.key, e.value), true) := by
  induction es generalizing p fuel with
  | nil =>
    obtain ⟨fuel, rfl⟩ := Nat.exists_eq_succ_of_ne_zero (Nat.ne_zero_of_lt hf)
    simp [rangeLoop, rangeNext]
  | cons e es ih =>
    obtain ⟨fuel, rfl⟩ := Nat.exists_eq_succ_of_ne_zero (Nat.ne_zero_of_lt hf)
    obtain ⟨-, hnext, hrest⟩ := hs
    have hpay := hp e (by simp)
    cases hh : b.heap e.link with
    | none => simp [hh] at hpay
    | some l =>
      have hl : l.next = (es.map Entry.link).head? := by
        simpa [Btree.next, hh] using hnext
      have hkv : (l.key, l.value) = (e.key, e.value) := by
        simpa [hh, Link.payload] using hpay
      have hrec := ih (by simpa using hf) (fun x hx => hp x (by simp [hx])) hrest
      simp only [rangeLoop, rangeNext, List.map_cons, List.head?_cons, if_true, Option.bind_some,
        hh, Option.map_some, hl, hrec, hkv]

theorem nodup_links {xs ys : List (Entry K V)} {e : Entry K V}
    (h : ((xs ++ e :: ys).map Entry.link).Nodup) : ∀ x ∈ xs ++ ys, x.link ≠ e.link := by
  rw [List.map_append, List.map_cons, List.nodup_middle, List.nodup_cons, ← List.map_append] at h
  intro x hx heq
  exact h.1 (heq ▸ List.mem_map_of_mem hx)

/-- The root after a deletion. -/
theorem collapse_spec {t h : ℕ} (ht : 2 ≤ t) {n : Node K V} (hs : Shape t 0 h n) :
    (collapse n = none ∧ inorder h n = []) ∨
      ∃ m h', collapse n = some m ∧ Shape t 1 h' m ∧ inorder h' m = inorder h n := by
  by_cases hz : n.numKeys = 0
  · cases h with
    | zero =>
      left
      refine ⟨by simp [collapse, hz, hs.1], ?_⟩
      exact List.length_eq_zero_iff.mp hz
    | succ h =>
      right
      obtain ⟨l, r, cl, c, cr, he, hc, hl, hcl, hr, hchild⟩ := hs.cut (i := 0) (Nat.zero_le _)
      have hsc : Shape t (t - 1) h c := hs.2.2.2 c (by simp [hc])
      have hrnil : r = [] := by
        rw [Node.numKeys, he, List.length_append] at hz
        exact List.length_eq_zero_iff.mp (by omega)
      obtain rfl : l = [] := List.length_eq_zero_iff.mp hl
      obtain rfl : cl = [] := List.length_eq_zero_iff.mp hcl
      refine ⟨c, h, by simp [collapse, hz, hs.1, hchild], hsc.mono (by have := hsc.bounds.1; omega), ?_⟩
      rw [inorder_cut he hc rfl, hrnil]
      simp [pre, post]
  · right
    exact ⟨n, h, by simp [collapse, hz], hs.mono (by omega), rfl⟩

section invariant

variable [LinearOrder K]

structure Ok (b : Btree K V) : Prop where
  degree : 2 ≤ b.minDegree
  shape : ∀ n ∈ b.root, Shape b.minDegree 1 (n.levels - 1) n
  sorted : Sorted b.contents
  size_eq : b.size = b.contents.length
  linked : Linked b.next b.previous b.first b.last (b.contents.map Entry.link)
  payload : ∀ e ∈ b.contents, (b.heap e.link).map Link.payload = some (e.key, e.value)
  unused : ∀ i, b.unused ≤ i → b.heap i = none

theorem ok_init {minDegree : ℕ} (h : 2 ≤ minDegree) (entryLimit : ℕ) :
    Ok (init K V minDegree entryLimit) := by
  constructor
  · exact h
  · intro n hn
    simp [init] at hn
  · exact List.Pairwise.nil
  · rfl
  · exact ⟨rfl, rfl, List.nodup_nil, trivial⟩
  · intro e he
    simp [contents, init] at he
  · intro i hi
    rfl

theorem Ok.find_eq {b : Btree K V} (hb : Ok b) (key : K) : b.find key = lookup key b.contents := by
  cases hr : b.root with
  | none => simp [find, contents, hr, lookup]
  | some n =>
    have hs := hb.shape n hr
    have hsort := hb.sorted
    rw [contents_of_shape hr hs] at hsort ⊢
    have hl : n.levels = n.levels - 1 + 1 := hs.levels_eq
    rw [find, hr, Option.bind_some]
    exact findEntry_eq key n.levels 1 n (by omega) hs hsort

theorem Ok.heap_isSome {b : Btree K V} (hb : Ok b) {i : ℕ} (hi : i ∈ b.contents.map Entry.link) :
    (b.heap i).isSome := by
  obtain ⟨e, he, rfl⟩ := List.mem_map.mp hi
  have := hb.payload e he
  cases hh : b.heap e.link with
  | none => simp [hh] at this
  | some l => rfl

theorem Ok.unused_notMem {b : Btree K V} (hb : Ok b) :
    b.unused ∉ b.contents.map Entry.link := by
  intro h
  have := hb.heap_isSome h
  rw [hb.unused _ le_rfl] at this
  simp at this

theorem cut_pointers {nxt prv : ℕ → Option ℕ} {first last : Option ℕ} {xs ys : List ℕ}
    (h : Linked nxt prv first last (xs ++ ys)) :
    cellBefore prv last ys.head? = xs.getLast? := by
  cases ys with
  | nil =>
    change last = _
    rw [h.last_eq, List.append_nil]
  | cons y ys =>
    have hy := ((seg_append xs (y :: ys)).mp h.seg).2.1
    rw [Option.or_none] at hy
    exact hy

/-- `btree_put` on a new key, once the nodes hold it. -/
theorem ok_putNew {b : Btree K V} (hb : Ok b) {key : K} {value : V} {root' : Node K V}
    {next : Option ℕ} {h' : ℕ} (hs : Shape b.minDegree 1 h' root')
    (hsp : Spliced ⟨key, value, b.unused⟩ none b.contents (inorder h' root') next) :
    Ok (b.putNew key value (root', next)) ∧
      (b.putNew key value (root', next)).entryLimit = b.entryLimit ∧
      ∃ xs ys, b.contents = xs ++ ys ∧
        (b.putNew key value (root', next)).contents = xs ++ ⟨key, value, b.unused⟩ :: ys ∧
        (∀ x ∈ xs, x.key < key) ∧ ∀ y ∈ ys, key < y.key := by
  let b1 : Btree K V := { b with
    root := some root'
    heap := Function.update b.heap b.unused (some ⟨key, value, none, none⟩)
    unused := b.unused + 1 }
  let b2 := b1.linkInsertBefore next b.unused
  let b3 := { b2 with size := b2.size + 1, generation := b2.generation + 1 }
  change Ok b3 ∧ b3.entryLimit = b.entryLimit ∧ ∃ xs ys, b.contents = xs ++ ys ∧
    b3.contents = xs ++ ⟨key, value, b.unused⟩ :: ys ∧ _
  obtain ⟨xs, ys, hold, hnew, hlt, hgt, hnext⟩ := hsp
  rw [Option.or_none, ← List.head?_map] at hnext
  have hfresh := hb.unused_notMem
  have hheap1 : ∀ i, i ≠ b.unused → b1.heap i = b.heap i := fun i hi => by simp [b1, hi]
  have hnext1 : ∀ i, i ≠ b.unused → b1.next i = b.next i := fun i hi => by
    simp only [Btree.next, hheap1 i hi]
  have hprev1 : ∀ i, i ≠ b.unused → b1.previous i = b.previous i := fun i hi => by
    simp only [Btree.previous, hheap1 i hi]
  have hne : ∀ i ∈ b.contents.map Entry.link, i ≠ b.unused := by
    rintro i hi rfl
    exact hfresh hi
  have hlinked : Linked b1.next b1.previous b.first b.last (xs.map Entry.link ++ ys.map Entry.link) := by
    have hl := hb.linked
    rw [hold, List.map_append] at hl hne
    exact ⟨hl.first_eq, hl.last_eq, hl.nodup,
      seg_congr (fun i hi => ⟨hnext1 i (hne i hi), hprev1 i (hne i hi)⟩) hl.seg⟩
  have hcut : cellBefore b1.previous b1.last next = (xs.map Entry.link).getLast? := by
    rw [hnext]
    exact cut_pointers hlinked
  have hmem : ∀ i ∈ xs.map Entry.link ++ ys.map Entry.link,
      i ≠ b.unused ∧ (b1.heap i).isSome := by
    intro i hi
    rw [← List.map_append, ← hold] at hi
    exact ⟨hne i hi, by rw [hheap1 i (hne i hi)]; exact hb.heap_isSome hi⟩
  have hin : LinkedIn b1 b2 (xs.map Entry.link).getLast? next b.unused := by
    apply linkInsertBefore_spec hcut
    · simp [b1]
    · intro n hn
      rw [hnext] at hn
      exact hmem n (List.mem_append_right _ (List.mem_of_mem_head? hn))
    · intro p hp
      exact hmem p (List.mem_append_left _ (List.mem_of_mem_getLast? hp))
  have hroot : b3.root = some root' := hin.same.1
  have hcontents : b3.contents = xs ++ ⟨key, value, b.unused⟩ :: ys := by
    rw [contents_of_shape hroot hs, hnew]
  refine ⟨?_, hin.same.2.2.1, xs, ys, hold, hcontents, hlt, hgt⟩
  have hdeg : b3.minDegree = b.minDegree := hin.same.2.1
  constructor
  · rw [hdeg]
    exact hb.degree
  · intro n hn
    rw [hroot] at hn
    obtain rfl : root' = n := by simpa using hn
    rw [hdeg, hs.levels_eq]
    exact hs
  · rw [hcontents]
    have hsort := hb.sorted
    rw [hold] at hsort
    refine List.pairwise_append.mpr ⟨hsort.append.1, List.pairwise_cons.mpr ⟨hgt, hsort.append.2.1⟩, ?_⟩
    intro x hx y hy
    rcases List.mem_cons.mp hy with rfl | hy
    · exact hlt x hx
    · exact hsort.append.2.2 x hx y hy
  · have hsize : b2.size = b.size := hin.same.2.2.2.1
    change b2.size + 1 = _
    rw [hsize, hb.size_eq, hcontents, hold]
    simp
    omega
  · rw [hcontents, List.map_append, List.map_cons]
    have hl := hlinked.insert (by rw [← List.map_append, ← hold]; exact hfresh)
      (by rw [← hnext]; exact hin.next_link) hin.previous_link hin.next_prev
      (by rw [← hnext]; exact hin.previous_next)
      (fun i hi hil => hin.next_other i (hmem i hi).1 hil)
      (fun i hi hih => hin.previous_other i (hmem i hi).1 (by rw [hnext]; exact hih))
    have hfirst : b3.first = (xs.map Entry.link ++ b.unused :: ys.map Entry.link).head? := by
      change b2.first = _
      rw [hin.first_eq, show b1.first = b.first from rfl, hlinked.first_eq]
      rcases List.eq_nil_or_concat xs with rfl | ⟨zs, z, rfl⟩
      · simp
      · cases zs <;> simp
    have hlast : b3.last = (xs.map Entry.link ++ b.unused :: ys.map Entry.link).getLast? := by
      change b2.last = _
      rw [hin.last_eq, show b1.last = b.last from rfl, hlinked.last_eq, hnext]
      cases ys with
      | nil => simp
      | cons y ys => simp [List.getLast?_append, List.getLast?_cons]
    rw [← hfirst, ← hlast] at hl
    exact hl
  · intro e he
    rw [hcontents] at he
    change (b2.heap e.link).map Link.payload = _
    rw [hin.payload]
    by_cases heq : e.link = b.unused
    · rcases List.mem_append.mp he with he | he
      · exact absurd heq (hne _ (List.mem_map_of_mem (by rw [hold]; simp [he])))
      · rcases List.mem_cons.mp he with rfl | he
        · simp [b1, Link.payload]
        · exact absurd heq (hne _ (List.mem_map_of_mem (by rw [hold]; simp [he])))
    · rw [hheap1 _ heq]
      apply hb.payload
      rw [hold]
      rcases List.mem_append.mp he with he | he
      · simp [he]
      · rcases List.mem_cons.mp he with rfl | he
        · exact absurd rfl heq
        · simp [he]
  · intro i hi
    have hu : b3.unused = b.unused + 1 := hin.same.2.2.2.2
    rw [hu] at hi
    have hp := hin.payload i
    rw [hheap1 i (by omega), hb.unused i (by omega)] at hp
    change b2.heap i = none
    simpa using hp

/-- `btree_put` on a key the tree holds. -/
theorem ok_putExisting {b : Btree K V} (hb : Ok b) {n : Node K V} (hr : b.root = some n)
    {key : K} (value : V) {e : Entry K V} (he : e ∈ b.contents) (hk : e.key = key) :
    Ok (b.putExisting key value e) ∧ ∃ xs ys, b.contents = xs ++ e :: ys ∧
      (b.putExisting key value e).contents = xs ++ { e with value := value } :: ys := by
  let b1 := b.putExisting key value e
  change Ok b1 ∧ ∃ xs ys, b.contents = xs ++ e :: ys ∧
    b1.contents = xs ++ { e with value := value } :: ys
  have hs := hb.shape n hr
  have hin := contents_of_shape hr hs
  have hl : n.levels = n.levels - 1 + 1 := hs.levels_eq
  obtain ⟨hshape, xs, e', ys, hold, hnew, hk'⟩ := setValue_spec key value n.levels 1 n (by omega)
    hs (hin ▸ hb.sorted) ⟨e, hin ▸ he, hk⟩
  rw [← hin] at hold
  obtain rfl : e' = e := hb.sorted.eq_of_key (by simp [hold]) he (hk'.trans hk.symm)
  have hroot : b1.root = some (setValue key value n.levels n) := by simp [b1, putExisting, hr]
  have hcontents : b1.contents = xs ++ { e' with value := value } :: ys := by
    rw [contents_of_shape hroot hshape, hnew]
  have hlinks : b1.contents.map Entry.link = b.contents.map Entry.link := by
    rw [hcontents, hold]
    simp
  have hnext : b1.next = b.next := by
    funext i
    simp only [Btree.next, b1, putExisting, store_apply]
    split_ifs
    · cases b.heap i <;> rfl
    · rfl
  have hprev : b1.previous = b.previous := by
    funext i
    simp only [Btree.previous, b1, putExisting, store_apply]
    split_ifs
    · cases b.heap i <;> rfl
    · rfl
  refine ⟨?_, xs, ys, hold, hcontents⟩
  constructor
  · exact hb.degree
  · intro m hm
    rw [hroot] at hm
    obtain rfl : setValue key value n.levels n = m := by simpa using hm
    rw [hshape.levels_eq]
    exact hshape
  · have hsort := hb.sorted
    rw [hold] at hsort
    rw [hcontents]
    have hmap : (xs ++ { e' with value := value } :: ys).map Entry.key =
        (xs ++ e' :: ys).map Entry.key := by simp
    rw [Sorted, ← List.pairwise_map (f := Entry.key) (R := (· < ·))] at hsort ⊢
    rw [hmap]
    exact hsort
  · change b.size = _
    rw [hb.size_eq, hcontents, hold]
    simp
  · rw [hlinks, hnext, hprev]
    exact hb.linked
  · intro x hx
    have hnd := hb.linked.nodup
    rw [hold] at hnd
    have hother := nodup_links hnd
    have hsplit : x ∈ xs ++ ys ∨ x = { e' with value := value } := by
      rw [hcontents] at hx
      simp only [List.mem_append, List.mem_cons] at hx ⊢
      tauto
    rcases hsplit with hx | rfl
    · have hmem : x ∈ b.contents := by
        rw [hold]
        simp only [List.mem_append, List.mem_cons] at hx ⊢
        tauto
      simp only [b1, putExisting, store_apply, if_neg (hother x hx).symm]
      exact hb.payload x hmem
    · have hp := hb.payload e' he
      simp only [b1, putExisting, store_apply, if_true]
      cases hh : b.heap e'.link with
      | none => simp [hh] at hp
      | some l =>
        have hkey : l.key = e'.key := by
          rw [hh] at hp
          simp only [Option.map_some, Option.some.injEq, Link.payload, Prod.mk.injEq] at hp
          exact hp.1
        simp [Link.payload, hkey]
  · intro i hi
    have hnone := hb.unused i hi
    simp only [b1, putExisting, store_apply, hnone]
    simp

/-- `btree_remove` on a key the tree holds. -/
theorem ok_dropEntry {b : Btree K V} (hb : Ok b) {n' : Node K V} {h : ℕ} {e : Entry K V}
    (hs : Shape b.minDegree 0 h n') {xs ys : List (Entry K V)} (hold : b.contents = xs ++ e :: ys)
    (hnew : inorder h n' = xs ++ ys) :
    Ok (b.dropEntry n' e) ∧ (b.dropEntry n' e).entryLimit = b.entryLimit ∧
      (b.dropEntry n' e).contents = xs ++ ys := by
  let b1 : Btree K V := { b with root := collapse n' }
  let b2 := b1.linkUnlink e.link
  let b3 : Btree K V := { b2 with
    heap := Function.update b2.heap e.link none
    size := b2.size - 1
    generation := b2.generation + 1 }
  change Ok b3 ∧ b3.entryLimit = b.entryLimit ∧ b3.contents = xs ++ ys
  have hnd := hb.linked.nodup
  have hlinked := hb.linked
  rw [hold] at hnd hlinked
  have hother := nodup_links hnd
  rw [List.map_append, List.map_cons] at hlinked
  obtain ⟨-, hseg⟩ := (seg_append _ _).mp hlinked.seg
  have hprev : b1.previous e.link = (xs.map Entry.link).getLast? := by
    change b.previous e.link = _
    simpa using hseg.1
  have hnext : b1.next e.link = (ys.map Entry.link).head? := by
    change b.next e.link = _
    simpa using hseg.2.1
  have hsome : ∀ i ∈ xs.map Entry.link ++ ys.map Entry.link, (b1.heap i).isSome := by
    intro i hi
    apply hb.heap_isSome
    rw [hold]
    simp only [List.map_append, List.map_cons, List.mem_append, List.mem_cons] at hi ⊢
    tauto
  have hun : Unlinked b1 b2 (xs.map Entry.link).getLast? (ys.map Entry.link).head? := by
    apply linkUnlink_spec hprev hnext
    · intro i hi
      exact hsome i (List.mem_append_right _ (List.mem_of_mem_head? hi))
    · intro i hi
      exact hsome i (List.mem_append_left _ (List.mem_of_mem_getLast? hi))
  have hne : ∀ i ∈ xs.map Entry.link ++ ys.map Entry.link, i ≠ e.link := by
    intro i hi
    rw [← List.map_append] at hi
    obtain ⟨x, hx, rfl⟩ := List.mem_map.mp hi
    exact hother x hx
  have hheap3 : ∀ i, i ≠ e.link → b3.heap i = b2.heap i := fun i hi => by simp [b3, hi]
  have hcontents : b3.contents = xs ++ ys := by
    have hroot : b3.root = collapse n' := hun.same.1
    rcases collapse_spec hb.degree hs with ⟨hc, hnil⟩ | ⟨m, h', hc, hsm, hin⟩
    · rw [contents, hroot, hc, ← hnew, hnil]
    · rw [contents_of_shape (hroot.trans hc) hsm, hin, hnew]
  refine ⟨?_, hun.same.2.2.1, hcontents⟩
  constructor
  · exact hun.same.2.1.symm ▸ hb.degree
  · intro m hm
    have hroot : b3.root = collapse n' := hun.same.1
    have hdeg : b3.minDegree = b.minDegree := hun.same.2.1
    rw [hroot] at hm
    rcases collapse_spec hb.degree hs with ⟨hc, -⟩ | ⟨m', h', hc, hsm, -⟩
    · rw [hc] at hm
      simp at hm
    · rw [hc] at hm
      obtain rfl : m' = m := by simpa using hm
      rw [hdeg, hsm.levels_eq]
      exact hsm
  · have hsort := hb.sorted
    rw [hold] at hsort
    rw [hcontents]
    exact hsort.sublist (List.Sublist.append_left (List.sublist_cons_self e ys) xs)
  · have hsize : b2.size = b.size := hun.same.2.2.2.1
    change b2.size - 1 = _
    rw [hsize, hb.size_eq, hcontents, hold]
    simp only [List.length_append, List.length_cons]
    omega
  · rw [hcontents, List.map_append]
    have hn3 : ∀ i ∈ xs.map Entry.link ++ ys.map Entry.link, b3.next i = b2.next i := by
      intro i hi
      simp only [Btree.next, hheap3 i (hne i hi)]
    have hp3 : ∀ i ∈ xs.map Entry.link ++ ys.map Entry.link, b3.previous i = b2.previous i := by
      intro i hi
      simp only [Btree.previous, hheap3 i (hne i hi)]
    have hl : Linked b2.next b2.previous (xs.map Entry.link ++ ys.map Entry.link).head?
        (xs.map Entry.link ++ ys.map Entry.link).getLast? (xs.map Entry.link ++ ys.map Entry.link) :=
      Linked.remove hlinked hun.next_prev hun.previous_next
        (fun i _ hi => hun.next_other i hi) (fun i _ hi => hun.previous_other i hi)
    have hfirst : b3.first = (xs.map Entry.link ++ ys.map Entry.link).head? := by
      change b2.first = _
      rw [hun.first_eq, show b1.first = b.first from rfl, hlinked.first_eq]
      rcases List.eq_nil_or_concat xs with rfl | ⟨zs, z, rfl⟩
      · simp
      · cases zs <;> simp
    have hlast : b3.last = (xs.map Entry.link ++ ys.map Entry.link).getLast? := by
      change b2.last = _
      rw [hun.last_eq, show b1.last = b.last from rfl, hlinked.last_eq]
      cases ys with
      | nil => simp
      | cons y ys => simp [List.getLast?_append, List.getLast?_cons]
    exact ⟨hfirst, hlast, hl.nodup, seg_congr (fun i hi => ⟨hn3 i hi, hp3 i hi⟩) hl.seg⟩
  · intro x hx
    rw [hcontents] at hx
    rw [hheap3 _ (hother x hx), hun.payload]
    apply hb.payload
    rw [hold]
    simp only [List.mem_append, List.mem_cons] at hx ⊢
    tauto
  · intro i hi
    have hu : b3.unused = b.unused := hun.same.2.2.2.2
    rw [hu] at hi
    by_cases heq : i = e.link
    · simp [b3, heq]
    · have hp := hun.payload i
      rw [show b1.heap i = none from hb.unused i hi] at hp
      rw [hheap3 i heq]
      simpa using hp

/-! ## Calls against the map -/

theorem Ok.keys_nodup {b : Btree K V} (hb : Ok b) : (b.pairs.map Prod.fst).Nodup := by
  rw [pairs_keys]
  have hsort := hb.sorted
  rw [Sorted, ← List.pairwise_map (f := Entry.key) (R := (· < ·))] at hsort
  exact hsort.imp fun h => h.ne

theorem lookup_value (key : K) (xs : List (Entry K V)) :
    (lookup key xs).map Entry.value = BoundedMap.assoc key (xs.map fun e => (e.key, e.value)) := by
  induction xs with
  | nil => rfl
  | cons e xs ih =>
    by_cases h : e.key = key
    · simp [lookup, BoundedMap.assoc, h]
    · simp only [lookup, List.find?_cons, h, decide_false, List.map_cons, BoundedMap.assoc,
        if_false]
      exact ih

theorem Ok.lookup_pairs {b : Btree K V} (hb : Ok b) (key : K) :
    (toMap b.pairs).lookup key = (b.find key).map Entry.value := by
  rw [BoundedMap.lookup_toMap, hb.find_eq, lookup_value, pairs]

theorem Ok.mem_pairs {b : Btree K V} (hb : Ok b) (key : K) :
    key ∈ toMap b.pairs ↔ (b.find key).isSome := by
  rw [← Finmap.lookup_isSome, hb.lookup_pairs, Option.isSome_map]

/-- One call keeps the invariant and does to the pairs what the bounded map does. -/
def StepOk (b : Btree K V) (op : Op K V) : Prop :=
  Ok (b.step op).1 ∧ (b.step op).1.entryLimit = b.entryLimit ∧
    BoundedMap.step b.entryLimit (toMap b.pairs) op =
      (toMap (b.step op).1.pairs, (b.step op).2)

theorem put_ok {b : Btree K V} (hb : Ok b) (key : K) (value : V) : StepOk b (.put key value) := by
  have hfind := hb.find_eq key
  cases hf : b.find key with
  | some e =>
    rw [hf] at hfind
    have he : e ∈ b.contents := List.mem_of_find?_eq_some hfind.symm
    have hk : e.key = key := by simpa using List.find?_some hfind.symm
    obtain ⟨n, hr⟩ : ∃ n, b.root = some n := by
      cases hr : b.root with
      | none => simp [find, hr] at hf
      | some n => exact ⟨n, rfl⟩
    obtain ⟨hok, xs, ys, hold, hnew⟩ := ok_putExisting hb hr value he hk
    have hstep : b.step (.put key value) = (b.putExisting key value e, ⟨.ok, none⟩) := by
      simp [step, put, hf]
    rw [StepOk, hstep]
    refine ⟨hok, rfl, ?_⟩
    have hmem : key ∈ toMap b.pairs := (hb.mem_pairs key).mpr (by simp [hf])
    rw [BoundedMap.step, if_pos (Or.inl hmem)]
    have hx : key ∉ (xs.map fun e => (e.key, e.value)).map Prod.fst := by
      have hsort := hb.sorted
      rw [hold] at hsort
      intro hx
      simp only [List.map_map, List.mem_map, Function.comp_apply] at hx
      obtain ⟨x, hx, hxk⟩ := hx
      exact absurd (hsort.append.2.2 x hx e (by simp)) (by rw [hxk, hk]; exact lt_irrefl _)
    have := BoundedMap.toMap_replace (ys.map fun e => (e.key, e.value)) hx e.value value
    simp only [pairs, hold, hnew, List.map_append, List.map_cons, hk]
    rw [this]
  | none =>
    rw [hf] at hfind
    have hnot : key ∉ toMap b.pairs := by
      rw [hb.mem_pairs, hf]
      simp
    have hcard : (toMap b.pairs).keys.card = b.size := by
      rw [BoundedMap.card_keys_toMap hb.keys_nodup, hb.size_eq, pairs, List.length_map]
    by_cases hfull : b.entryLimit ≤ b.size
    · have hstep : b.step (.put key value) = (b, ⟨.capacityExceeded, none⟩) := by
        simp [step, put, hf, hfull]
      rw [StepOk, hstep]
      refine ⟨hb, rfl, ?_⟩
      rw [BoundedMap.step, if_neg]
      rintro (h | h)
      · exact hnot h
      · omega
    · have habs := lookup_eq_none.mp hfind.symm
      obtain ⟨h', hs, hsp⟩ : ∃ h',
          Shape b.minDegree 1 h' (insertPrepared b.minDegree b.root ⟨key, value, b.unused⟩).1 ∧
          Spliced ⟨key, value, b.unused⟩ none b.contents
            (inorder h' (insertPrepared b.minDegree b.root ⟨key, value, b.unused⟩).1)
            (insertPrepared b.minDegree b.root ⟨key, value, b.unused⟩).2 := by
        cases hr : b.root with
        | none =>
          have hdeg := hb.degree
          refine ⟨0, ⟨rfl, rfl, le_rfl, by simp [insertPrepared]; omega⟩, [], [], ?_, rfl, ?_, ?_, rfl⟩
          · simp [contents, hr]
          · simp
          · simp
        | some n =>
          have hs := hb.shape n hr
          have hin := contents_of_shape hr hs
          rw [hin] at habs ⊢
          exact insertPrepared_spec hb.degree _ hs le_rfl (hin ▸ hb.sorted) habs
      obtain ⟨hok, hlim, xs, ys, hold, hnew, hlt, hgt⟩ := ok_putNew hb hs hsp
      have hstep : b.step (.put key value) = (b.putNew key value
          (insertPrepared b.minDegree b.root ⟨key, value, b.unused⟩), ⟨.ok, none⟩) := by
        simp [step, put, hf, hfull]
      rw [StepOk, hstep]
      refine ⟨hok, hlim, ?_⟩
      rw [BoundedMap.step, if_pos (Or.inr (by omega))]
      have hx : key ∉ (xs.map fun e => (e.key, e.value)).map Prod.fst := by
        intro hx
        simp only [List.map_map, List.mem_map, Function.comp_apply] at hx
        obtain ⟨x, hx, hxk⟩ := hx
        exact (hlt x hx).ne hxk
      have := BoundedMap.toMap_insert (ys.map fun e => (e.key, e.value)) hx value
      simp only [pairs, hold, hnew, List.map_append, List.map_cons]
      rw [this]

theorem remove_ok {b : Btree K V} (hb : Ok b) (key : K) : StepOk b (.remove key) := by
  have hlookup := hb.lookup_pairs key
  cases hf : b.find key with
  | none =>
    have hstep : b.step (.remove key) = (b, ⟨.notFound, none⟩) := by
      cases hr : b.root <;> simp [step, remove, hf, hr]
    rw [hf, Option.map_none] at hlookup
    rw [StepOk, hstep]
    refine ⟨hb, rfl, ?_⟩
    simp [BoundedMap.step, hlookup]
  | some e =>
    have hfind := hb.find_eq key
    rw [hf] at hfind
    have he : e ∈ b.contents := List.mem_of_find?_eq_some hfind.symm
    have hk : e.key = key := by simpa using List.find?_some hfind.symm
    obtain ⟨n, hr⟩ : ∃ n, b.root = some n := by
      cases hr : b.root with
      | none => simp [find, hr] at hf
      | some n => exact ⟨n, rfl⟩
    have hs := hb.shape n hr
    have hl : n.levels = n.levels - 1 + 1 := hs.levels_eq
    have hin := contents_of_shape hr hs
    have hpos := hs.bounds.1
    have hs0 : Shape b.minDegree 0 (n.levels - 1) n := hs.mono (Nat.zero_le _)
    obtain ⟨n', e', hdel, hs', hk', xs, ys, hold, hnew⟩ :=
      deletesBelow hb.degree (n.levels - 1) (2 * n.levels) 0 n key (by omega) hs0 (by omega)
        (hin ▸ hb.sorted) ⟨e, hin ▸ he, hk⟩
    rw [← hin] at hold
    obtain rfl : e' = e := hb.sorted.eq_of_key (by simp [hold]) he (hk'.trans hk.symm)
    obtain ⟨hok, hlim, hcontents⟩ := ok_dropEntry hb hs' hold hnew
    have hstep : b.step (.remove key) = (b.dropEntry n' e', ⟨.ok, some e'.value⟩) := by
      simp [step, remove, hf, hr, hdel]
    rw [hf, Option.map_some] at hlookup
    rw [StepOk, hstep]
    refine ⟨hok, hlim, ?_⟩
    have hxy : key ∉ ((xs.map fun e => (e.key, e.value)) ++
        ys.map fun e => (e.key, e.value)).map Prod.fst := by
      have hsort := hb.sorted
      rw [hold] at hsort
      intro hx
      simp only [← List.map_append, List.map_map, List.mem_map, Function.comp_apply] at hx
      obtain ⟨x, hx, hxk⟩ := hx
      rcases List.mem_append.mp hx with hx | hx
      · exact (hsort.append.2.2 x hx e' (by simp)).ne (hxk.trans hk.symm)
      · exact ((List.pairwise_cons.mp hsort.append.2.1).1 x hx).ne' (hxk.trans hk.symm)
    have herase := BoundedMap.toMap_erase hxy e'.value
    simp only [BoundedMap.step, hlookup]
    simp only [pairs, hold, hcontents, List.map_append, List.map_cons, hk]
    rw [herase]

theorem clear_ok {b : Btree K V} (hb : Ok b) : StepOk b .clear := by
  cases hr : b.root with
  | none =>
    have hstep : b.step .clear = (b, ⟨.ok, none⟩) := by simp [step, clear, hr]
    rw [StepOk, hstep]
    refine ⟨hb, rfl, ?_⟩
    simp only [BoundedMap.step, pairs, contents, hr]
    rfl
  | some n =>
    have hcontents : b.clear.contents = [] := by simp [clear, hr, contents]
    refine ⟨?_, by simp [step, clear, hr], ?_⟩
    · change Ok b.clear
      constructor
      · simpa [clear, hr] using hb.degree
      · simp [clear, hr]
      · rw [hcontents]
        exact List.Pairwise.nil
      · rw [hcontents]
        simp [clear, hr]
      · rw [hcontents]
        exact ⟨by simp [clear, hr], by simp [clear, hr], List.nodup_nil, trivial⟩
      · simp [hcontents]
      · simp [clear, hr]
    · have hpairs : b.clear.pairs = [] := by rw [pairs, hcontents, List.map_nil]
      change _ = (toMap b.clear.pairs, _)
      rw [hpairs]
      rfl

theorem step_ok {b : Btree K V} (hb : Ok b) (op : Op K V) : StepOk b op := by
  cases op with
  | put k v => exact put_ok hb k v
  | remove k => exact remove_ok hb k
  | clear => exact clear_ok hb
  | get k =>
    refine ⟨hb, rfl, ?_⟩
    simp only [BoundedMap.step, step, hb.lookup_pairs]
    rfl

/-! ## What a caller sees -/

/-- The state of a tree between calls. -/
structure Observed (b : Btree K V) : Prop where
  balanced : ∀ n ∈ b.root, Shape b.minDegree 1 (n.levels - 1) n
  sorted : b.pairs.Pairwise fun x y => x.1 < y.1
  size_eq : b.size = b.pairs.length
  forward : ∀ fuel, b.size ≤ fuel →
    (walk b.next fuel b.first).map (fun i => (b.heap i).map Link.payload) = b.pairs.map some
  backward : ∀ fuel, b.size ≤ fuel →
    (walk b.previous fuel b.last).map (fun i => (b.heap i).map Link.payload) =
      b.pairs.reverse.map some
  range : ∀ self fuel, b.size < fuel → b.rangeLoop self fuel ⟨none, none⟩ = (b.pairs, true)
  keyAt_eq : ∀ i, b.keyAt i = b.pairs[i]?.map Prod.fst
  valueAt_eq : ∀ i, b.valueAt i = b.pairs[i]?.map Prod.snd

theorem Ok.rangeLoop_eq {b : Btree K V} (hb : Ok b) (self : ℕ) {fuel : ℕ} (hf : b.size < fuel) :
    b.rangeLoop self fuel ⟨none, none⟩ = (b.pairs, true) := by
  obtain ⟨fuel, rfl⟩ := Nat.exists_eq_succ_of_ne_zero (Nat.ne_zero_of_lt hf)
  -- the first round takes the head of the list, as a cursor already placed on it would
  have hstart : b.rangeLoop self (fuel + 1) ⟨none, none⟩ =
      b.rangeLoop self (fuel + 1) ⟨(b.contents.map Entry.link).head?, some self⟩ := by
    rw [← hb.linked.first_eq]
    simp [rangeLoop, rangeNext]
  rw [hstart]
  exact rangeLoop_from (by rw [← hb.size_eq]; exact hf) hb.payload hb.linked.seg

theorem Ok.pairAt_eq {b : Btree K V} (hb : Ok b) (i : ℕ) : b.pairAt i = b.pairs[i]? := by
  by_cases hi : i < b.size
  · rw [pairAt, if_pos hi, pairs, List.getElem?_map]
    cases hr : b.root with
    | none =>
      rw [hb.size_eq] at hi
      simp [contents, hr] at hi
    | some n =>
      have hs := hb.shape n hr
      have hl : n.levels = n.levels - 1 + 1 := hs.levels_eq
      have hcount := nth_counts i n.levels 1 n (by omega) hs 0 (Nat.zero_le _)
      have hin := contents_of_shape hr hs
      rw [hb.size_eq, hin] at hi
      rw [Nat.sub_zero, List.getElem?_eq_getElem hi] at hcount
      rw [Option.bind_some, hcount, hin, List.getElem?_eq_getElem hi]
  · rw [pairAt, if_neg hi, pairs, List.getElem?_eq_none (by rw [List.length_map, ← hb.size_eq]; omega)]

theorem Ok.observed {b : Btree K V} (hb : Ok b) : Observed b := by
  have hlen : b.size = (b.contents.map Entry.link).length := by rw [List.length_map, hb.size_eq]
  constructor
  · exact hb.shape
  · have hsort := hb.sorted
    rw [Sorted, ← List.pairwise_map (f := Entry.key) (R := (· < ·)), ← pairs_keys,
      List.pairwise_map] at hsort
    exact hsort
  · rw [hb.size_eq, pairs, List.length_map]
  · intro fuel hf
    rw [(hb.linked.walks (by omega)).1, map_payload hb.payload, pairs]
  · intro fuel hf
    rw [(hb.linked.walks (by omega)).2, List.map_reverse, map_payload hb.payload, pairs,
      List.map_reverse]
  · intro self fuel hf
    exact hb.rangeLoop_eq self hf
  · intro i
    rw [keyAt, hb.pairAt_eq]
  · intro i
    rw [valueAt, hb.pairAt_eq]

def Agrees (x : Btree K V × Result V) (y : FMap K V × Result V) : Prop :=
  x.2 = y.2 ∧ toMap x.1.pairs = y.1 ∧ Observed x.1

theorem run_agrees {b : Btree K V} (hb : Ok b) (ops : List (Op K V)) :
    List.Forall₂ Agrees (b.run ops) (BoundedMap.run b.entryLimit (toMap b.pairs) ops) := by
  induction ops generalizing b with
  | nil => exact List.Forall₂.nil
  | cons op ops ih =>
    obtain ⟨hok, hlim, hstep⟩ := step_ok hb op
    have hrest := ih hok
    rw [hlim] at hrest
    rw [run, BoundedMap.run, hstep]
    exact List.Forall₂.cons ⟨rfl, rfl, hok.observed⟩ hrest

/-- Every sequence of calls on a fresh tree is answered as the bounded map answers it, and
between any two calls the nodes, the entry list and the positions show that map. -/
theorem btree_refines_bounded_map (minDegree entryLimit : ℕ) (h : 2 ≤ minDegree)
    (ops : List (Op K V)) :
    List.Forall₂ Agrees ((init K V minDegree entryLimit).run ops)
      (BoundedMap.run entryLimit ∅ ops) :=
  run_agrees (ok_init h entryLimit) ops

end invariant

theorem btree_refines_bounded_map_small :
    2 ≤ 2 ∧ List.Forall₂ Agrees
      ((init ℕ ℕ 2 3).run [.put 5 1, .put 1 2, .put 3 3, .put 9 4, .remove 5, .get 1, .clear])
      (BoundedMap.run 3 ∅ [.put 5 1, .put 1 2, .put 3 3, .put 9 4, .remove 5, .get 1, .clear]) :=
  ⟨le_rfl, btree_refines_bounded_map 2 3 le_rfl _⟩

end Cstl.Btree
