import Mathlib.Data.List.Basic
import Mathlib.Tactic

/-! Longest prefixes of bounded weight. A queue that evicts from its old end until
its total weight fits a bound keeps exactly such a prefix of its newest-first list. -/
namespace WeightedPrefix

variable {α : Type*} (w : α → ℕ)

def total (l : List α) : ℕ := (l.map w).sum

/-- The longest prefix whose total weight is at most `limit`. -/
def keepWithin : ℕ → List α → List α
  | _, [] => []
  | limit, x :: xs => if w x ≤ limit then x :: keepWithin (limit - w x) xs else []

@[simp] theorem total_nil : total w [] = 0 := rfl

@[simp] theorem total_cons (x : α) (xs : List α) : total w (x :: xs) = w x + total w xs := by
  simp [total]

theorem total_append (xs ys : List α) : total w (xs ++ ys) = total w xs + total w ys := by
  simp [total]

theorem total_concat (xs : List α) (x : α) : total w (xs ++ [x]) = total w xs + w x := by
  rw [total_append]
  simp

@[simp] theorem keepWithin_nil (limit : ℕ) : keepWithin w limit [] = [] := rfl

theorem keepWithin_cons_of_le {limit : ℕ} {x : α} (xs : List α) (h : w x ≤ limit) :
    keepWithin w limit (x :: xs) = x :: keepWithin w (limit - w x) xs := if_pos h

theorem total_keepWithin_le (limit : ℕ) (l : List α) : total w (keepWithin w limit l) ≤ limit := by
  induction l generalizing limit with
  | nil => simp
  | cons x xs ih =>
    by_cases h : w x ≤ limit
    · rw [keepWithin_cons_of_le w xs h, total_cons]
      have := ih (limit - w x)
      omega
    · simp [keepWithin, h]

theorem keepWithin_isPrefix (limit : ℕ) (l : List α) : keepWithin w limit l <+: l := by
  induction l generalizing limit with
  | nil => simp
  | cons x xs ih =>
    by_cases h : w x ≤ limit
    · rw [keepWithin_cons_of_le w xs h]
      exact (List.prefix_cons_inj x).mpr (ih _)
    · simp [keepWithin, h]

theorem keepWithin_longest {limit : ℕ} {l start : List α} (h : start <+: l)
    (hlimit : total w start ≤ limit) : start <+: keepWithin w limit l := by
  induction l generalizing limit start with
  | nil => exact h
  | cons x xs ih =>
    cases start with
    | nil => exact List.nil_prefix
    | cons y ys =>
      obtain ⟨rfl, hrest⟩ := List.cons_prefix_cons.1 h
      rw [total_cons] at hlimit
      rw [keepWithin_cons_of_le w xs (by omega)]
      exact (List.prefix_cons_inj y).2 (ih hrest (by omega))

theorem keepWithin_of_total_le {limit : ℕ} {l : List α} (h : total w l ≤ limit) :
    keepWithin w limit l = l := by
  induction l generalizing limit with
  | nil => rfl
  | cons x xs ih =>
    rw [total_cons] at h
    rw [keepWithin_cons_of_le w xs (by omega), ih (by omega)]

theorem keepWithin_concat_of_lt {limit : ℕ} {l : List α} {x : α}
    (h : limit < total w (l ++ [x])) : keepWithin w limit (l ++ [x]) = keepWithin w limit l := by
  induction l generalizing limit with
  | nil =>
    have hx : ¬w x ≤ limit := by simpa using h
    simp [keepWithin, hx]
  | cons y ys ih =>
    by_cases hy : w y ≤ limit
    · rw [List.cons_append, keepWithin_cons_of_le w _ hy, keepWithin_cons_of_le w _ hy, ih]
      rw [List.cons_append, total_cons] at h
      omega
    · simp [keepWithin, hy]

theorem keepWithin_keepWithin (a b : ℕ) (l : List α) :
    keepWithin w a (keepWithin w b l) = keepWithin w (min a b) l := by
  induction l generalizing a b with
  | nil => rfl
  | cons x xs ih =>
    by_cases hb : w x ≤ b
    · rw [keepWithin_cons_of_le w xs hb]
      by_cases ha : w x ≤ a
      · rw [keepWithin_cons_of_le w _ ha, keepWithin_cons_of_le w xs (le_min ha hb), ih,
          show min (a - w x) (b - w x) = min a b - w x by omega]
      · simp [keepWithin, ha]
    · simp [keepWithin, hb]

end WeightedPrefix
