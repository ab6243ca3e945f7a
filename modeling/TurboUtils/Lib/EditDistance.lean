import Mathlib.Data.List.Basic
import Mathlib.Tactic

/-! Edit distance, and the nearest suffixes of a list: those of least distance, the longest of them
first. -/
namespace EditDistance

variable {α : Type*}

/-- One list becomes another by so many deletions, insertions and replacements. -/
inductive Edits : List α → List α → ℕ → Prop
  | nil : Edits [] [] 0
  | delete {xs ys n} (x : α) : Edits xs ys n → Edits (x :: xs) ys (n + 1)
  | insert {xs ys n} (y : α) : Edits xs ys n → Edits xs (y :: ys) (n + 1)
  | keep {xs ys n} (x : α) : Edits xs ys n → Edits (x :: xs) (x :: ys) n
  | replace {xs ys n} (x y : α) : Edits xs ys n → Edits (x :: xs) (y :: ys) (n + 1)

namespace Edits

variable {xs ys xs' ys' : List α} {m n : ℕ}

theorem append (h : Edits xs ys m) (h' : Edits xs' ys' n) :
    Edits (xs ++ xs') (ys ++ ys') (m + n) := by
  induction h with
  | nil => exact (Nat.zero_add n).symm ▸ h'
  | @delete xs ys m x h ih => exact (Nat.add_right_comm m 1 n) ▸ delete x ih
  | @insert xs ys m y h ih => exact (Nat.add_right_comm m 1 n) ▸ insert y ih
  | keep x h ih => exact keep x ih
  | @replace xs ys m x y h ih => exact (Nat.add_right_comm m 1 n) ▸ replace x y ih

theorem reverse (h : Edits xs ys n) : Edits xs.reverse ys.reverse n := by
  induction h with
  | nil => exact nil
  | @delete xs ys n x h ih =>
    rw [List.reverse_cons, ← List.append_nil ys.reverse]
    exact ih.append (delete x nil)
  | @insert xs ys n y h ih =>
    rw [List.reverse_cons, ← List.append_nil xs.reverse]
    exact ih.append (insert y nil)
  | @keep xs ys n x h ih =>
    rw [List.reverse_cons, List.reverse_cons]
    exact ih.append (keep x nil)
  | @replace xs ys n x y h ih =>
    rw [List.reverse_cons, List.reverse_cons]
    exact ih.append (replace x y nil)

end Edits

variable [DecidableEq α]

/-- The edit distance of two lists. -/
def dist : List α → List α → ℕ
  | [], ys => ys.length
  | x :: xs, [] => (x :: xs).length
  | x :: xs, y :: ys =>
      min (min (dist xs (y :: ys) + 1) (dist (x :: xs) ys + 1))
        (dist xs ys + if x = y then 0 else 1)
termination_by xs ys => xs.length + ys.length

section Dist

variable {xs ys : List α} {n : ℕ}

@[simp] theorem dist_nil_left (ys : List α) : dist [] ys = ys.length := by rw [dist]

@[simp] theorem dist_nil_right (xs : List α) : dist xs [] = xs.length := by
  cases xs with
  | nil => rw [dist_nil_left]
  | cons x xs => rw [dist]

theorem dist_cons_cons (x y : α) (xs ys : List α) : dist (x :: xs) (y :: ys) =
    min (min (dist xs (y :: ys) + 1) (dist (x :: xs) ys + 1))
      (dist xs ys + if x = y then 0 else 1) := by rw [dist]

theorem dist_cons_left_le (x : α) (xs ys : List α) : dist (x :: xs) ys ≤ dist xs ys + 1 := by
  cases ys with
  | nil => rw [dist_nil_right, dist_nil_right, List.length_cons]
  | cons y ys =>
    rw [dist_cons_cons]
    exact (min_le_left _ _).trans (min_le_left _ _)

theorem dist_cons_right_le (y : α) (xs ys : List α) : dist xs (y :: ys) ≤ dist xs ys + 1 := by
  cases xs with
  | nil => rw [dist_nil_left, dist_nil_left, List.length_cons]
  | cons x xs =>
    rw [dist_cons_cons]
    exact (min_le_left _ _).trans (min_le_right _ _)

theorem dist_cons_cons_le (x y : α) (xs ys : List α) :
    dist (x :: xs) (y :: ys) ≤ dist xs ys + if x = y then 0 else 1 := by
  rw [dist_cons_cons]
  exact min_le_right _ _

theorem dist_le (h : Edits xs ys n) : dist xs ys ≤ n := by
  induction h with
  | nil => rw [dist_nil_left, List.length_nil]
  | @delete xs ys n x h ih => exact (dist_cons_left_le x xs ys).trans (Nat.succ_le_succ ih)
  | @insert xs ys n y h ih => exact (dist_cons_right_le y xs ys).trans (Nat.succ_le_succ ih)
  | @keep xs ys n x h ih =>
    have hle := dist_cons_cons_le x x xs ys
    rw [if_pos rfl] at hle
    exact hle.trans ih
  | @replace xs ys n x y h ih =>
    have hle := dist_cons_cons_le x y xs ys
    split_ifs at hle <;> omega

/-- And there are so many. -/
theorem edits_dist (xs ys : List α) : Edits xs ys (dist xs ys) := by
  induction xs, ys using dist.induct with
  | case1 ys =>
    rw [dist_nil_left]
    induction ys with
    | nil => exact Edits.nil
    | cons y ys ih => exact ih.insert y
  | case2 x xs =>
    rw [dist_nil_right]
    have hdeletes : ∀ xs : List α, Edits xs [] xs.length := by
      intro xs
      induction xs with
      | nil => exact Edits.nil
      | cons x xs ih => exact ih.delete x
    exact hdeletes (x :: xs)
  | case3 x xs y ys ihdelete ihinsert ihboth =>
    rw [dist_cons_cons]
    have hboth : Edits (x :: xs) (y :: ys) (dist xs ys + if x = y then 0 else 1) := by
      by_cases hxy : x = y
      · rw [if_pos hxy, hxy]
        exact ihboth.keep y
      · rw [if_neg hxy]
        exact ihboth.replace x y
    rcases min_choice (min (dist xs (y :: ys) + 1) (dist (x :: xs) ys + 1))
      (dist xs ys + if x = y then 0 else 1) with hmin | hmin
    · rw [hmin]
      rcases min_choice (dist xs (y :: ys) + 1) (dist (x :: xs) ys + 1) with hmin | hmin
      · rw [hmin]
        exact ihdelete.delete x
      · rw [hmin]
        exact ihinsert.insert y
    · rw [hmin]
      exact hboth

theorem dist_reverse (xs ys : List α) : dist xs.reverse ys.reverse = dist xs ys := by
  apply Nat.le_antisymm
  · exact dist_le (edits_dist xs ys).reverse
  · have hback := (edits_dist xs.reverse ys.reverse).reverse
    rw [List.reverse_reverse, List.reverse_reverse] at hback
    exact dist_le hback

theorem dist_snoc_snoc (xs ys : List α) (x y : α) : dist (xs ++ [x]) (ys ++ [y]) =
    min (min (dist xs (ys ++ [y]) + 1) (dist (xs ++ [x]) ys + 1))
      (dist xs ys + if x = y then 0 else 1) := by
  have hsnoc : ∀ (zs : List α) z, (zs ++ [z]).reverse = z :: zs.reverse := fun zs z => by
    rw [List.reverse_append]
    rfl
  rw [← dist_reverse (xs ++ [x]), ← dist_reverse xs (ys ++ [y]), ← dist_reverse (xs ++ [x]) ys,
    ← dist_reverse xs ys, hsnoc, hsnoc, dist_cons_cons]

end Dist

/-! ## Nearest suffixes -/

/-- The suffix from `s` on is at the least distance `d`, and no longer one is. -/
structure Nearest (xs ys : List α) (d s : ℕ) : Prop where
  le : s ≤ ys.length
  dist_eq : dist xs (ys.drop s) = d
  least : ∀ s' ≤ ys.length, d < dist xs (ys.drop s') ∨ d = dist xs (ys.drop s') ∧ s ≤ s'

/-- The one of two candidates with the smaller distance, or else with the smaller start. -/
def better (a b : ℕ × ℕ) : ℕ × ℕ := if b.1 < a.1 ∨ b.1 = a.1 ∧ b.2 < a.2 then b else a

section Nearest

variable {xs ys : List α} {x y : α} {d s d' s' : ℕ}

theorem Nearest.unique (h : Nearest xs ys d s) (h' : Nearest xs ys d' s') : d = d' ∧ s = s' := by
  have hle := h.least s' h'.le
  have hge := h'.least s h.le
  rw [h'.dist_eq] at hle
  rw [h.dist_eq] at hge
  omega

theorem nearest_nil_left (ys : List α) : Nearest [] ys 0 ys.length := by
  refine ⟨Nat.le_refl _, ?_, fun s hs => ?_⟩
  · rw [dist_nil_left, List.drop_length, List.length_nil]
  · rw [dist_nil_left, List.length_drop]
    omega

theorem nearest_nil_right (xs : List α) : Nearest xs [] xs.length 0 := by
  refine ⟨Nat.le_refl _, ?_, fun s hs => ?_⟩
  · rw [List.drop_nil, dist_nil_right]
  · rw [List.drop_nil, dist_nil_right]
    omega

theorem Nearest.le_length (h : Nearest xs ys d s) : d ≤ xs.length := by
  have hleast := h.least ys.length (Nat.le_refl _)
  rw [List.drop_length, dist_nil_right] at hleast
  omega

theorem better_cases (a b : ℕ × ℕ) : (better a b = a ∨ better a b = b) ∧
    ((better a b).1 < a.1 ∨ (better a b).1 = a.1 ∧ (better a b).2 ≤ a.2) ∧
      ((better a b).1 < b.1 ∨ (better a b).1 = b.1 ∧ (better a b).2 ≤ b.2) := by
  unfold better
  split_ifs with h
  · exact ⟨Or.inr rfl, by omega, by omega⟩
  · exact ⟨Or.inl rfl, by omega, by omega⟩

/-! A candidate that is not behind another: it is nearer, or as near and starts no later. -/

theorem not_behind_trans {d e f s t u : ℕ} (h : d < e ∨ d = e ∧ s ≤ t)
    (h' : e < f ∨ e = f ∧ t ≤ u) : d < f ∨ d = f ∧ s ≤ u := by omega

theorem not_behind_add {d e s t : ℕ} (n : ℕ) (h : d < e ∨ d = e ∧ s ≤ t) :
    d + n < e + n ∨ d + n = e + n ∧ s ≤ t := by omega

theorem not_behind_min {d e f s t : ℕ} (h : d < e ∨ d = e ∧ s ≤ t) (h' : d < f ∨ d = f ∧ s ≤ t) :
    d < min e f ∨ d = min e f ∧ s ≤ t := by
  rcases min_choice e f with hmin | hmin
  · rwa [hmin]
  · rwa [hmin]

/-- The nearest suffix for one more element on either side, from those for one less. -/
theorem Nearest.snoc {up left diag best : ℕ × ℕ} (hup : Nearest (xs ++ [x]) ys up.1 up.2)
    (hleft : Nearest xs (ys ++ [y]) left.1 left.2) (hdiag : Nearest xs ys diag.1 diag.2)
    (hbest : best = better (better (up.1 + 1, up.2) (left.1 + 1, left.2))
      (diag.1 + (if x = y then 0 else 1), diag.2)) :
    Nearest (xs ++ [x]) (ys ++ [y]) best.1 best.2 := by
  have hlength : (ys ++ [y]).length = ys.length + 1 := List.length_append
  -- The distance of a suffix, from those of the three shorter problems.
  have hinside : ∀ s ≤ ys.length, dist (xs ++ [x]) ((ys ++ [y]).drop s) =
      min (min (dist xs ((ys ++ [y]).drop s) + 1) (dist (xs ++ [x]) (ys.drop s) + 1))
        (dist xs (ys.drop s) + if x = y then 0 else 1) := by
    intro s hs
    rw [List.drop_append_of_le_length hs, dist_snoc_snoc]
  have houtside : dist (xs ++ [x]) ((ys ++ [y]).drop (ys.length + 1)) =
      dist xs ((ys ++ [y]).drop (ys.length + 1)) + 1 := by
    rw [List.drop_of_length_le hlength.le, dist_nil_right, dist_nil_right, List.length_append]
    rfl
  obtain ⟨hchoice, hle, hlesub⟩ := better_cases (better (up.1 + 1, up.2) (left.1 + 1, left.2))
    (diag.1 + (if x = y then 0 else 1), diag.2)
  obtain ⟨hchoice', hledel, hleins⟩ := better_cases (up.1 + 1, up.2) (left.1 + 1, left.2)
  rw [← hbest] at hchoice hle hlesub
  -- No suffix is nearer than the best of the three.
  have hleast : ∀ s' ≤ (ys ++ [y]).length, best.1 < dist (xs ++ [x]) ((ys ++ [y]).drop s') ∨
      best.1 = dist (xs ++ [x]) ((ys ++ [y]).drop s') ∧ best.2 ≤ s' := by
    intro s' hs'
    have hins := not_behind_trans (not_behind_trans hle hleins)
      (not_behind_add 1 (hleft.least s' hs'))
    by_cases hin : s' ≤ ys.length
    · have hdel := not_behind_trans (not_behind_trans hle hledel)
        (not_behind_add 1 (hup.least s' hin))
      have hsub := not_behind_trans hlesub
        (not_behind_add (if x = y then 0 else 1) (hdiag.least s' hin))
      rw [hinside s' hin]
      exact not_behind_min (not_behind_min hins hdel) hsub
    · obtain rfl : s' = ys.length + 1 := by omega
      rw [houtside]
      exact hins
  -- And the best of the three is the distance of a suffix.
  have hattained : best.2 ≤ ys.length + 1 ∧ dist (xs ++ [x]) ((ys ++ [y]).drop best.2) ≤ best.1 := by
    have hdel : up.2 ≤ ys.length + 1 ∧ dist (xs ++ [x]) ((ys ++ [y]).drop up.2) ≤ up.1 + 1 := by
      have heq := hup.dist_eq
      have hs := hup.le
      rw [hinside _ hs]
      omega
    have hsub : diag.2 ≤ ys.length + 1 ∧ dist (xs ++ [x]) ((ys ++ [y]).drop diag.2) ≤
        diag.1 + if x = y then 0 else 1 := by
      have heq := hdiag.dist_eq
      have hs := hdiag.le
      rw [hinside _ hs]
      omega
    have hins : left.2 ≤ ys.length + 1 ∧ dist (xs ++ [x]) ((ys ++ [y]).drop left.2) ≤ left.1 + 1 := by
      have heq := hleft.dist_eq
      have hs := hleft.le
      rw [hlength] at hs
      refine ⟨hs, ?_⟩
      by_cases hin : left.2 ≤ ys.length
      · rw [hinside _ hin]
        omega
      · have hend : left.2 = ys.length + 1 := by omega
        rw [hend] at heq ⊢
        rw [houtside]
        omega
    rcases hchoice with h | h
    · rw [h]
      rcases hchoice' with h' | h'
      · rw [h']
        exact hdel
      · rw [h']
        exact hins
    · rw [h]
      exact hsub
  refine ⟨hlength ▸ hattained.1, ?_, hleast⟩
  have hself := hleast best.2 (hlength ▸ hattained.1)
  omega

end Nearest

end EditDistance
