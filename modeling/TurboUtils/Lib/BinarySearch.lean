import Mathlib.Data.List.Sort
import Mathlib.Tactic

/-! Sorted rows and the two binary searches over them. A comparison is a function into
`Ordering`, as the callback of a sort is. -/
namespace BinarySearch

/-! ## Sorting by a comparison -/

def sortBy {α : Type*} (cmp : α → α → Ordering) (rows : List α) : List α :=
  rows.insertionSort fun a b => (cmp a b).isLE

section Sorting

variable {α : Type*} (cmp : α → α → Ordering)

theorem sortBy_perm (rows : List α) : (sortBy cmp rows).Perm rows :=
  List.perm_insertionSort _ _

theorem sortBy_of_pairwise {rows : List α} (h : rows.Pairwise fun a b => (cmp a b).isLE) :
    sortBy cmp rows = rows :=
  h.insertionSort_eq

variable [Std.TransCmp cmp]

instance total_isLE : Std.Total fun a b => (cmp a b).isLE = true where
  total a b := by
    rw [@Std.OrientedCmp.eq_swap α cmp _ b a]
    cases cmp a b <;> simp

instance isTrans_isLE : IsTrans α fun a b => (cmp a b).isLE = true where
  trans _ _ _ := Std.TransCmp.isLE_trans

theorem sortBy_pairwise (rows : List α) :
    (sortBy cmp rows).Pairwise fun a b => (cmp a b).isLE :=
  List.pairwise_insertionSort _ _

end Sorting

/-! ## Comparing by one key after the other -/

section Keys

variable {α : Type*} {f : α → ℕ} {cmp : α → α → Ordering} {a b : α}

theorem compareOn_isLE : (compareOn f a b).isLE ↔ f a ≤ f b := Nat.isLE_compare

theorem compareLex_isLE :
    (compareLex (compareOn f) cmp a b).isLE ↔ f a < f b ∨ f a = f b ∧ (cmp a b).isLE := by
  rw [compareLex, Ordering.isLE_then_iff_or, compareOn, Nat.compare_eq_lt, Nat.compare_eq_eq]

end Keys

/-! ## Searching an index range -/

/-- Halves `[left, right)` until an index is left; the indices before it are the ones `below` the
place searched for. -/
def lowerBound (below : ℕ → Bool) : ℕ → ℕ → ℕ → ℕ
  | 0, left, _ => left
  | fuel + 1, left, right =>
      if left < right then
        let middle := left + (right - left) / 2
        if below middle then lowerBound below fuel (middle + 1) right
        else lowerBound below fuel left middle
      else left

/-- Halves `[left, right)` until an index compares equal. -/
def find (probe : ℕ → Ordering) : ℕ → ℕ → ℕ → Option ℕ
  | 0, _, _ => none
  | fuel + 1, left, right =>
      if left < right then
        let middle := left + (right - left) / 2
        match probe middle with
        | .eq => some middle
        | .lt => find probe fuel (middle + 1) right
        | .gt => find probe fuel left middle
      else none

/-- A search that knows where the boundary lies finds it. -/
theorem lowerBound_eq {below : ℕ → Bool} {boundary fuel left right : ℕ}
    (hfuel : right - left ≤ fuel) (hl : left ≤ boundary) (hr : boundary ≤ right)
    (hbelow : ∀ i < right, below i = decide (i < boundary)) :
    lowerBound below fuel left right = boundary := by
  induction fuel generalizing left right with
  | zero =>
    simp only [lowerBound]
    omega
  | succ fuel ih =>
    simp only [lowerBound]
    by_cases h : left < right
    · rw [if_pos h]
      have hm := hbelow (left + (right - left) / 2) (by omega)
      by_cases hb : left + (right - left) / 2 < boundary
      · rw [if_pos (by simpa [hb] using hm)]
        exact ih (by omega) (by omega) hr hbelow
      · rw [if_neg (by simpa [hb] using hm)]
        exact ih (by omega) hl (by omega) fun i hi => hbelow i (by omega)
    · rw [if_neg h]
      omega

theorem find_some {probe : ℕ → Ordering} {fuel left right i : ℕ}
    (h : find probe fuel left right = some i) : i < right ∧ probe i = .eq := by
  induction fuel generalizing left right with
  | zero => simp [find] at h
  | succ fuel ih =>
    simp only [find] at h
    split_ifs at h with hlt
    have hm : left + (right - left) / 2 < right := by omega
    cases hp : probe (left + (right - left) / 2) with
    | eq =>
      rw [hp] at h
      cases h
      exact ⟨hm, hp⟩
    | lt =>
      rw [hp] at h
      exact ih h
    | gt =>
      rw [hp] at h
      obtain ⟨hi, he⟩ := ih h
      exact ⟨hi.trans hm, he⟩

theorem find_eq {probe : ℕ → Ordering} {i fuel left right : ℕ} (hfuel : right - left ≤ fuel)
    (hl : left ≤ i) (hr : i < right) (hi : probe i = .eq) (hlt : ∀ j < i, probe j = .lt)
    (hgt : ∀ j < right, i < j → probe j = .gt) : find probe fuel left right = some i := by
  induction fuel generalizing left right with
  | zero => omega
  | succ fuel ih =>
    simp only [find, if_pos (hl.trans_lt hr)]
    rcases Nat.lt_trichotomy (left + (right - left) / 2) i with h | h | h
    · rw [hlt _ h]
      exact ih (by omega) h hr hgt
    · rw [h, hi]
    · rw [hgt _ (by omega) h]
      exact ih (by omega) hl h fun j hj => hgt j (by omega)

/-! ## The rows of a key -/

section rows

variable {α : Type*} {key : α → ℕ}

/-- In sorted rows those below a key come first. -/
theorem below_getElem (k : ℕ) {rows : List α} (h : rows.Pairwise fun a b => key a ≤ key b) (i : ℕ)
    (hi : i < rows.length) :
    decide (key rows[i] < k) = decide (i < rows.countP fun row => decide (key row < k)) := by
  induction rows generalizing i with
  | nil => exact absurd hi (Nat.not_lt_zero i)
  | cons row rows ih =>
    obtain ⟨hle, hrest⟩ := List.pairwise_cons.1 h
    by_cases hrow : key row < k
    · rw [List.countP_cons_of_pos (by simpa using hrow)]
      cases i with
      | zero => simp [hrow]
      | succ i => simpa using ih hrest i (by simpa using hi)
    · have hnone : ∀ b ∈ rows, ¬ key b < k := fun b hb hlt => hrow ((hle b hb).trans_lt hlt)
      rw [List.countP_cons_of_neg (by simpa using hrow), List.countP_eq_zero.2 (by simpa using hnone)]
      cases i with
      | zero => simpa using hrow
      | succ i => simpa using hnone _ (List.getElem_mem _)

theorem lowerBound_rows (k : ℕ) {rows : List α} (h : rows.Pairwise fun a b => key a ≤ key b) :
    lowerBound (fun i => rows[i]?.elim false fun row => key row < k) rows.length 0 rows.length =
      rows.countP fun row => decide (key row < k) := by
  apply lowerBound_eq (by omega) (Nat.zero_le _) List.countP_le_length
  intro i hi
  rw [List.getElem?_eq_getElem hi, Option.elim_some]
  exact below_getElem k h i hi

/-- From there on a loop that goes on while the key is met goes through its rows. -/
theorem takeWhile_drop_rows (k : ℕ) {rows : List α} (h : rows.Pairwise fun a b => key a ≤ key b) :
    (rows.drop (rows.countP fun row => decide (key row < k))).takeWhile (fun row => key row = k) =
      rows.filter fun row => key row = k := by
  induction rows with
  | nil => rfl
  | cons row rows ih =>
    obtain ⟨hle, hrest⟩ := List.pairwise_cons.1 h
    by_cases hrow : key row < k
    · rw [List.countP_cons_of_pos (by simpa using hrow), List.drop_succ_cons, ih hrest,
        List.filter_cons_of_neg (by simpa using hrow.ne)]
    · have hnone : (rows.countP fun row => decide (key row < k)) = 0 :=
        List.countP_eq_zero.2 (by simpa using fun b hb => (Nat.not_lt.1 hrow).trans (hle b hb))
      have ih := ih hrest
      rw [hnone, List.drop_zero] at ih
      rw [List.countP_cons_of_neg (by simpa using hrow), hnone, List.drop_zero]
      by_cases hkey : key row = k
      · rw [List.takeWhile_cons_of_pos (by simpa using hkey),
          List.filter_cons_of_pos (by simpa using hkey), ih]
      · rw [List.takeWhile_cons_of_neg (by simpa using hkey),
          List.filter_cons_of_neg (by simpa using hkey), eq_comm, List.filter_eq_nil_iff]
        -- the row lies behind the rows of the key, and so does everything after it
        intro b hb hbk
        have hle := hle b hb
        rw [decide_eq_true_iff] at hbk
        omega

end rows

end BinarySearch
