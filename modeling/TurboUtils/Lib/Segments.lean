import Mathlib.Data.List.Basic
import Mathlib.Tactic

/-! Segments of an array: reading one, and writing over one. -/
namespace Segments

variable {α : Type*}

def segment (l : List α) (offset count : ℕ) : List α := (l.drop offset).take count

def overwrite (l : List α) (start : ℕ) (xs : List α) : List α :=
  l.take start ++ xs ++ l.drop (start + xs.length)

@[simp] theorem overwrite_nil (l : List α) (start : ℕ) : overwrite l start [] = l := by
  simp [overwrite]

theorem getElem?_overwrite {l xs : List α} {start : ℕ} (h : start + xs.length ≤ l.length) (i : ℕ) :
    (overwrite l start xs)[i]? =
      if i < start then l[i]? else if i < start + xs.length then xs[i - start]? else l[i]? := by
  have hlen : (l.take start).length = start := List.length_take_of_le (by omega)
  rw [overwrite, List.append_assoc]
  by_cases h1 : i < start
  · rw [if_pos h1, List.getElem?_append_left (by omega), List.getElem?_take_of_lt h1]
  · rw [if_neg h1, List.getElem?_append_right (by omega), hlen]
    by_cases h2 : i < start + xs.length
    · rw [if_pos h2, List.getElem?_append_left (by omega)]
    · rw [if_neg h2, List.getElem?_append_right (by omega), List.getElem?_drop]
      congr 1
      omega

theorem length_overwrite {l xs : List α} {start : ℕ} (h : start + xs.length ≤ l.length) :
    (overwrite l start xs).length = l.length := by
  simp only [overwrite, List.length_append, List.length_take, List.length_drop]
  omega

/-- Writing one element and then the ones behind it. -/
theorem overwrite_set_cons {l xs : List α} {start : ℕ} {x : α}
    (h : start + (x :: xs).length ≤ l.length) :
    overwrite (l.set start x) (start + 1) xs = overwrite l start (x :: xs) := by
  rw [List.length_cons] at h
  apply List.ext_getElem?
  intro i
  rw [getElem?_overwrite (by rw [List.length_set]; omega),
    getElem?_overwrite (by rw [List.length_cons]; omega), List.length_cons]
  rcases Nat.lt_trichotomy i start with hi | rfl | hi
  · rw [if_pos (by omega), if_pos hi, List.getElem?_set_ne (by omega)]
  · simp [List.getElem?_set_self (show i < l.length by omega)]
  · obtain ⟨j, rfl⟩ := Nat.exists_eq_add_of_lt hi
    rw [if_neg (show ¬start + j + 1 < start + 1 by omega),
      if_neg (show ¬start + j + 1 < start by omega), List.getElem?_set_ne (by omega)]
    by_cases hj : start + j + 1 < start + 1 + xs.length
    · rw [if_pos hj, if_pos (by omega), show start + j + 1 - start = j + 1 by omega,
        List.getElem?_cons_succ]
      congr 1
      omega
    · rw [if_neg hj, if_neg (by omega)]

/-- Writing one element and then the ones before it. -/
theorem overwrite_set_snoc {l xs : List α} {start : ℕ} {x : α}
    (h : start + xs.length < l.length) :
    overwrite (l.set (start + xs.length) x) start xs = overwrite l start (xs ++ [x]) := by
  apply List.ext_getElem?
  intro i
  rw [getElem?_overwrite (by rw [List.length_set]; omega),
    getElem?_overwrite (by rw [List.length_append, List.length_singleton]; omega),
    List.length_append, List.length_singleton]
  by_cases h1 : i < start
  · rw [if_pos h1, if_pos h1, List.getElem?_set_ne (by omega)]
  · rw [if_neg h1, if_neg h1]
    rcases Nat.lt_trichotomy i (start + xs.length) with hi | rfl | hi
    · rw [if_pos hi, if_pos (by omega), List.getElem?_append_left (by omega)]
    · rw [if_neg (lt_irrefl _), if_pos (by omega), List.getElem?_set_self (by omega),
        Nat.add_sub_cancel_left]
      simp
    · rw [if_neg (by omega), if_neg (by omega), List.getElem?_set_ne (by omega)]

theorem segment_congr {l l' : List α} {offset count bound : ℕ} (hb : offset + count ≤ bound)
    (h : l.take bound = l'.take bound) : segment l offset count = segment l' offset count := by
  have htake : l.take (offset + count) = l'.take (offset + count) := by
    rw [← min_eq_left hb, ← List.take_take, h, List.take_take]
  rw [segment, segment, List.take_drop, List.take_drop, htake]

theorem take_overwrite {l xs : List α} {start : ℕ} (h : start ≤ l.length) :
    (overwrite l start xs).take start = l.take start := by
  have hlen : (l.take start).length = start := List.length_take_of_le h
  rw [overwrite, List.append_assoc, List.take_append_of_le_length hlen.ge, List.take_take, min_self]

theorem segment_overwrite {l xs : List α} {start : ℕ} (h : start ≤ l.length) :
    segment (overwrite l start xs) start xs.length = xs := by
  have hlen : (l.take start).length = start := List.length_take_of_le h
  rw [segment, overwrite, List.append_assoc, List.drop_append_of_le_length hlen.ge,
    List.drop_eq_nil_of_le hlen.le, List.nil_append, List.take_left]

theorem length_segment {l : List α} {offset count : ℕ} (h : offset + count ≤ l.length) :
    (segment l offset count).length = count := by
  rw [segment, List.length_take, List.length_drop]
  omega

@[simp] theorem segment_zero (l : List α) (offset : ℕ) : segment l offset 0 = [] := List.take_zero

theorem segment_add (l : List α) (offset m n : ℕ) :
    segment l offset (m + n) = segment l offset m ++ segment l (offset + m) n := by
  rw [segment, segment, segment, List.take_add, List.drop_drop]

theorem segment_overwrite_of_disjoint {l xs : List α} {start offset count : ℕ}
    (h : start + xs.length ≤ l.length)
    (hdisjoint : offset + count ≤ start ∨ start + xs.length ≤ offset) :
    segment (overwrite l start xs) offset count = segment l offset count := by
  apply List.ext_getElem?
  intro i
  unfold segment
  by_cases hi : i < count
  · rw [List.getElem?_take_of_lt hi, List.getElem?_take_of_lt hi, List.getElem?_drop,
      List.getElem?_drop, getElem?_overwrite h]
    rcases hdisjoint with hbefore | hbehind
    · rw [if_pos (by omega)]
    · rw [if_neg (by omega), if_neg (by omega)]
  · rw [List.getElem?_take_eq_none (by omega), List.getElem?_take_eq_none (by omega)]

/-- One write behind another. -/
theorem overwrite_append {l xs ys : List α} {start : ℕ} (h : start + (xs ++ ys).length ≤ l.length) :
    overwrite (overwrite l start xs) (start + xs.length) ys = overwrite l start (xs ++ ys) := by
  rw [List.length_append] at h
  have hlength : (overwrite l start xs).length = l.length := length_overwrite (by omega)
  apply List.ext_getElem?
  intro i
  rw [getElem?_overwrite (by omega), getElem?_overwrite (by omega),
    getElem?_overwrite (by rw [List.length_append]; omega), List.length_append]
  by_cases hfirst : i < start
  · rw [if_pos (by omega), if_pos hfirst, if_pos hfirst]
  · by_cases hxs : i < start + xs.length
    · rw [if_pos hxs, if_neg hfirst, if_pos hxs, if_neg hfirst, if_pos (by omega),
        List.getElem?_append_left (by omega)]
    · rw [if_neg hxs, if_neg hfirst, if_neg hxs, if_neg hfirst]
      by_cases hys : i < start + xs.length + ys.length
      · rw [if_pos hys, if_pos (by omega), List.getElem?_append_right (by omega), Nat.sub_sub]
      · rw [if_neg hys, if_neg (by omega)]

end Segments
