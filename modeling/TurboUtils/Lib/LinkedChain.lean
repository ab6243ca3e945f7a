import Mathlib.Data.List.Nodup
import Mathlib.Tactic

/-! Doubly linked lists as two partial pointer functions. A segment fixes what stands
before and after it, so segments compose by append and a splice changes two pointers. -/
namespace LinkedChain

variable {ι : Type*}

/-- The cells `ids`, in order, with `p` before the first and `q` after the last. -/
def Seg (nxt prv : ι → Option ι) : Option ι → List ι → Option ι → Prop
  | _, [], _ => True
  | p, i :: is, q => prv i = p ∧ nxt i = is.head?.or q ∧ Seg nxt prv (some i) is q

structure Linked (nxt prv : ι → Option ι) (first last : Option ι) (ids : List ι) : Prop where
  first_eq : first = ids.head?
  last_eq : last = ids.getLast?
  nodup : ids.Nodup
  seg : Seg nxt prv none ids none

/-- The cells reached from `start`, at most `fuel` of them. -/
def walk (f : ι → Option ι) : ℕ → Option ι → List ι
  | 0, _ => []
  | _ + 1, none => []
  | fuel + 1, some i => i :: walk f fuel (f i)

variable {nxt prv nxt' prv' : ι → Option ι} {first last p q : Option ι}

theorem seg_append (xs ys : List ι) :
    Seg nxt prv p (xs ++ ys) q ↔
      Seg nxt prv p xs (ys.head?.or q) ∧ Seg nxt prv (xs.getLast?.or p) ys q := by
  induction xs generalizing p with
  | nil => simp [Seg]
  | cons x xs ih =>
    have hlast : (x :: xs).getLast?.or p = xs.getLast?.or (some x) := by
      cases xs with
      | nil => rfl
      | cons y ys => simp [List.getLast?_cons]
    have hhead : (xs ++ ys).head?.or q = xs.head?.or (ys.head?.or q) := by
      cases xs <;> simp
    simp only [List.cons_append, Seg, ih, hlast, hhead, and_assoc]

theorem seg_congr {ids : List ι} (h : ∀ i ∈ ids, nxt' i = nxt i ∧ prv' i = prv i)
    (hs : Seg nxt prv p ids q) : Seg nxt' prv' p ids q := by
  induction ids generalizing p with
  | nil => trivial
  | cons i is ih =>
    obtain ⟨h1, h2⟩ := h i (by simp)
    exact ⟨h2.trans hs.1, h1.trans hs.2.1, ih (fun j hj => h j (by simp [hj])) hs.2.2⟩

/-- Only the pointer after the last cell changes with what follows the segment. -/
theorem seg_retarget {xs : List ι} {q' : Option ι} (hn : xs.Nodup)
    (hlast : ∀ i ∈ xs.getLast?, nxt' i = q')
    (hnxt : ∀ i ∈ xs, some i ≠ xs.getLast? → nxt' i = nxt i)
    (hprv : ∀ i ∈ xs, prv' i = prv i) (hs : Seg nxt prv p xs q) : Seg nxt' prv' p xs q' := by
  rcases List.eq_nil_or_concat xs with rfl | ⟨zs, z, rfl⟩
  · trivial
  · rw [List.concat_eq_append] at *
    rw [seg_append] at hs ⊢
    have hz : z ∉ zs := by
      rw [List.nodup_append] at hn
      intro hz
      exact hn.2.2 z hz z (by simp) rfl
    constructor
    · apply seg_congr _ hs.1
      intro i hi
      refine ⟨hnxt i (by simp [hi]) ?_, hprv i (by simp [hi])⟩
      simp only [List.getLast?_append, List.getLast?_singleton, Option.some_or, ne_eq,
        Option.some.injEq]
      rintro rfl
      exact hz hi
    · refine ⟨(hprv z (by simp)).trans hs.2.1, ?_, trivial⟩
      simpa using hlast z (by simp)

theorem seg_resource {ys : List ι} {p' : Option ι} (hn : ys.Nodup)
    (hhead : ∀ i ∈ ys.head?, prv' i = p')
    (hprv : ∀ i ∈ ys, some i ≠ ys.head? → prv' i = prv i)
    (hnxt : ∀ i ∈ ys, nxt' i = nxt i) (hs : Seg nxt prv p ys q) : Seg nxt' prv' p' ys q := by
  cases ys with
  | nil => trivial
  | cons y ws =>
    have hy : y ∉ ws := (List.nodup_cons.mp hn).1
    refine ⟨hhead y (by simp), (hnxt y (by simp)).trans hs.2.1, ?_⟩
    apply seg_congr _ hs.2.2
    intro i hi
    refine ⟨hnxt i (by simp [hi]), hprv i (by simp [hi]) ?_⟩
    simp only [List.head?_cons, ne_eq, Option.some.injEq]
    rintro rfl
    exact hy hi

/-- A new cell `n` spliced in between `xs` and `ys`. -/
theorem Linked.insert {xs ys : List ι} {n : ι} (h : Linked nxt prv first last (xs ++ ys))
    (hn : n ∉ xs ++ ys) (hnn : nxt' n = ys.head?) (hpn : prv' n = xs.getLast?)
    (hlast : ∀ i ∈ xs.getLast?, nxt' i = some n) (hhead : ∀ i ∈ ys.head?, prv' i = some n)
    (hnxt : ∀ i ∈ xs ++ ys, some i ≠ xs.getLast? → nxt' i = nxt i)
    (hprv : ∀ i ∈ xs ++ ys, some i ≠ ys.head? → prv' i = prv i) :
    Linked nxt' prv' (xs ++ n :: ys).head? (xs ++ n :: ys).getLast? (xs ++ n :: ys) := by
  have hnd := List.nodup_append.mp h.nodup
  have hx : ∀ i ∈ xs, some i ≠ ys.head? := by
    intro i hi he
    exact hnd.2.2 i hi i (List.mem_of_mem_head? he.symm) rfl
  have hy : ∀ i ∈ ys, some i ≠ xs.getLast? := by
    intro i hi he
    exact hnd.2.2 i (List.mem_of_mem_getLast? he.symm) i hi rfl
  obtain ⟨hs1, hs2⟩ := (seg_append xs ys).mp h.seg
  refine ⟨rfl, rfl, ?_, ?_⟩
  · rw [List.nodup_middle, List.nodup_cons]
    exact ⟨hn, h.nodup⟩
  · rw [seg_append]
    constructor
    · exact seg_retarget hnd.1 hlast (fun i hi => hnxt i (by simp [hi]))
        (fun i hi => hprv i (by simp [hi]) (hx i hi)) hs1
    · refine ⟨by simpa using hpn, by simpa using hnn, ?_⟩
      exact seg_resource hnd.2.1 hhead (fun i hi => hprv i (by simp [hi]))
        (fun i hi => hnxt i (by simp [hi]) (hy i hi)) hs2

/-- The cell `n` unlinked from between `xs` and `ys`. -/
theorem Linked.remove {xs ys : List ι} {n : ι} (h : Linked nxt prv first last (xs ++ n :: ys))
    (hlast : ∀ i ∈ xs.getLast?, nxt' i = ys.head?) (hhead : ∀ i ∈ ys.head?, prv' i = xs.getLast?)
    (hnxt : ∀ i ∈ xs ++ ys, some i ≠ xs.getLast? → nxt' i = nxt i)
    (hprv : ∀ i ∈ xs ++ ys, some i ≠ ys.head? → prv' i = prv i) :
    Linked nxt' prv' (xs ++ ys).head? (xs ++ ys).getLast? (xs ++ ys) := by
  have hnodup : (xs ++ ys).Nodup := by
    have := h.nodup
    rw [List.nodup_middle, List.nodup_cons] at this
    exact this.2
  have hnd := List.nodup_append.mp hnodup
  have hx : ∀ i ∈ xs, some i ≠ ys.head? := by
    intro i hi he
    exact hnd.2.2 i hi i (List.mem_of_mem_head? he.symm) rfl
  have hy : ∀ i ∈ ys, some i ≠ xs.getLast? := by
    intro i hi he
    exact hnd.2.2 i (List.mem_of_mem_getLast? he.symm) i hi rfl
  obtain ⟨hs1, -, -, hs2⟩ := (seg_append xs (n :: ys)).mp h.seg
  refine ⟨rfl, rfl, hnodup, ?_⟩
  rw [seg_append]
  constructor
  · exact seg_retarget hnd.1 (fun i hi => by simpa using hlast i hi)
      (fun i hi => hnxt i (by simp [hi])) (fun i hi => hprv i (by simp [hi]) (hx i hi)) hs1
  · exact seg_resource hnd.2.1 (fun i hi => by simpa using hhead i hi)
      (fun i hi => hprv i (by simp [hi])) (fun i hi => hnxt i (by simp [hi]) (hy i hi)) hs2

section Splice

variable [DecidableEq ι] {xs ys : List ι} {n : ι} {first' last' : Option ι}

/-- `Linked.insert` where all pointers are known. -/
theorem Linked.splice (h : Linked nxt prv first last (xs ++ ys)) (hn : n ∉ xs ++ ys)
    (hnxt : ∀ i, nxt' i = if xs.getLast? = some i then some n else if i = n then ys.head? else nxt i)
    (hprv : ∀ i, prv' i = if ys.head? = some i then some n else if i = n then xs.getLast? else prv i)
    (hfirst : first' = if xs.getLast? = none then some n else first)
    (hlast : last' = if ys.head? = none then some n else last) :
    Linked nxt' prv' first' last' (xs ++ n :: ys) := by
  have hx : xs.getLast? ≠ some n := fun hx => hn (List.mem_append_left _ (List.mem_of_getLast? hx))
  have hy : ys.head? ≠ some n := fun hy => hn (List.mem_append_right _ (List.mem_of_mem_head? hy))
  have hne : ∀ i ∈ xs ++ ys, i ≠ n := fun i hi heq => hn (heq ▸ hi)
  have hnew : Linked nxt' prv' (xs ++ n :: ys).head? (xs ++ n :: ys).getLast? (xs ++ n :: ys) :=
    h.insert hn (by rw [hnxt, if_neg hx, if_pos rfl]) (by rw [hprv, if_neg hy, if_pos rfl])
    (fun i hi => (hnxt i).trans (if_pos hi)) (fun i hi => (hprv i).trans (if_pos hi))
    (fun i hi hi' => by rw [hnxt, if_neg (Ne.symm hi'), if_neg (hne i hi)])
    (fun i hi hi' => by rw [hprv, if_neg (Ne.symm hi'), if_neg (hne i hi)])
  have hf : first' = (xs ++ n :: ys).head? := by
    rw [hfirst, h.first_eq]
    cases xs <;> simp
  have hl : last' = (xs ++ n :: ys).getLast? := by
    rw [hlast, h.last_eq]
    cases ys <;> simp
  rwa [hf, hl]

/-- `Linked.remove` where all pointers are known. -/
theorem Linked.unsplice (h : Linked nxt prv first last (xs ++ n :: ys))
    (hnxt : ∀ i ≠ n, nxt' i = if xs.getLast? = some i then ys.head? else nxt i)
    (hprv : ∀ i ≠ n, prv' i = if ys.head? = some i then xs.getLast? else prv i)
    (hfirst : first' = if xs.getLast? = none then ys.head? else first)
    (hlast : last' = if ys.head? = none then xs.getLast? else last) :
    Linked nxt' prv' first' last' (xs ++ ys) := by
  have hnodup := h.nodup
  rw [List.nodup_middle, List.nodup_cons] at hnodup
  have hne : ∀ i ∈ xs ++ ys, i ≠ n := fun i hi heq => hnodup.1 (heq ▸ hi)
  have hx : ∀ i ∈ xs.getLast?, i ≠ n := fun i hi =>
    hne i (List.mem_append_left _ (List.mem_of_getLast? hi))
  have hy : ∀ i ∈ ys.head?, i ≠ n := fun i hi =>
    hne i (List.mem_append_right _ (List.mem_of_mem_head? hi))
  have hnew : Linked nxt' prv' (xs ++ ys).head? (xs ++ ys).getLast? (xs ++ ys) :=
    h.remove (fun i hi => (hnxt i (hx i hi)).trans (if_pos hi))
    (fun i hi => (hprv i (hy i hi)).trans (if_pos hi))
    (fun i hi hi' => by rw [hnxt i (hne i hi), if_neg (Ne.symm hi')])
    (fun i hi hi' => by rw [hprv i (hne i hi), if_neg (Ne.symm hi')])
  have hf : first' = (xs ++ ys).head? := by
    rw [hfirst, h.first_eq]
    cases xs <;> simp
  have hl : last' = (xs ++ ys).getLast? := by
    rw [hlast, h.last_eq]
    cases ys <;> simp
  rwa [hf, hl]

end Splice

/-- What stands around a cut of the list. -/
theorem Linked.cut {xs ys : List ι} (h : Linked nxt prv first last (xs ++ ys)) :
    (∀ y ∈ ys.head?, prv y = xs.getLast?) ∧ ∀ x ∈ xs.getLast?, nxt x = ys.head? := by
  have hseg := (seg_append xs ys).mp h.seg
  constructor
  · intro y hy
    cases ys with
    | nil => exact absurd hy (by simp)
    | cons z zs =>
      obtain rfl : z = y := by simpa using hy
      simpa using hseg.2.1
  · intro x hx
    rcases List.eq_nil_or_concat xs with rfl | ⟨zs, z, rfl⟩
    · exact absurd hx (by simp)
    · rw [List.concat_eq_append] at hx hseg
      obtain rfl : z = x := by simpa using hx
      have hz := ((seg_append zs [z]).mp hseg.1).2.2.1
      simpa using hz

theorem walk_seg {ids : List ι} {fuel : ℕ} (hf : ids.length ≤ fuel)
    (hs : Seg nxt prv p ids none) : walk nxt fuel ids.head? = ids := by
  induction ids generalizing p fuel with
  | nil => cases fuel <;> rfl
  | cons i is ih =>
    obtain ⟨fuel, rfl⟩ : ∃ m, fuel = m + 1 := ⟨fuel - 1, by simp at hf; omega⟩
    simp only [List.head?_cons, walk]
    rw [hs.2.1, Option.or_none, ih (by simpa using hf) hs.2.2]

theorem seg_reverse {ids : List ι} (hs : Seg nxt prv p ids q) : Seg prv nxt q ids.reverse p := by
  induction ids generalizing p with
  | nil => trivial
  | cons i is ih =>
    rw [List.reverse_cons, seg_append]
    constructor
    · simpa using ih hs.2.2
    · refine ⟨?_, by simpa using hs.1, trivial⟩
      rw [hs.2.1, List.getLast?_reverse]

theorem Linked.walks {ids : List ι} (h : Linked nxt prv first last ids) {fuel : ℕ}
    (hf : ids.length ≤ fuel) : walk nxt fuel first = ids ∧ walk prv fuel last = ids.reverse := by
  constructor
  · rw [h.first_eq]
    exact walk_seg hf h.seg
  · rw [h.last_eq, ← List.head?_reverse]
    exact walk_seg (by simpa using hf) (seg_reverse h.seg)

end LinkedChain
