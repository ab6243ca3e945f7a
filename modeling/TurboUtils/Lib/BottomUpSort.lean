import Mathlib.Data.List.Sort
import Mathlib.Tactic.Common

/-! Merge sort from the bottom: passes over a list of sorted runs, which keep the order of equal
elements. -/
namespace BottomUpSort

variable {α : Type*} (cmp : α → α → Ordering)

/-- `cmp` up to a `≤`. -/
def le (x y : α) : Bool := (cmp x y).isLE

def Sorted (xs : List α) : Prop := xs.Pairwise fun x y => le cmp x y = true

/-- The elements that are equal to `x` in the order. -/
def equals (x : α) (xs : List α) : List α := xs.filter fun y => cmp x y = .eq

/-- The second list has the elements of the first one, and keeps the order of equal ones. -/
structure Rearranged (xs ys : List α) : Prop where
  perm : ys.Perm xs
  stable : ∀ x, equals cmp x ys = equals cmp x xs

/-- All runs of a width are sorted; the last one may be shorter. -/
def Runs (width : ℕ) (xs : List α) : Prop :=
  ∀ k, Sorted cmp ((xs.drop (k * width)).take width)

def pass (width : ℕ) (xs : List α) : List α :=
  if _ : 0 < width ∧ xs ≠ [] then
    (xs.take width).merge ((xs.drop width).take width) (le cmp) ++ pass width (xs.drop (width * 2))
  else xs
  termination_by xs.length
  decreasing_by
    have hlength := List.length_pos_of_ne_nil ‹0 < width ∧ xs ≠ []›.2
    rw [List.length_drop]
    omega

variable {cmp} {width : ℕ} {xs ys zs : List α}

/-! ## Rearrangements -/

theorem Rearranged.refl (xs : List α) : Rearranged cmp xs xs := ⟨.rfl, fun _ => rfl⟩

theorem Rearranged.trans (h : Rearranged cmp xs ys) (h' : Rearranged cmp ys zs) :
    Rearranged cmp xs zs := ⟨h'.perm.trans h.perm, fun x => (h'.stable x).trans (h.stable x)⟩

theorem Rearranged.append {xs' ys' : List α} (h : Rearranged cmp xs ys)
    (h' : Rearranged cmp xs' ys') : Rearranged cmp (xs ++ xs') (ys ++ ys') := by
  refine ⟨h.perm.append h'.perm, fun x => ?_⟩
  have hleft := h.stable x
  have hright := h'.stable x
  unfold equals at hleft hright ⊢
  rw [List.filter_append, List.filter_append, hleft, hright]

theorem equals_cons (x y : α) (ys : List α) :
    equals cmp x (y :: ys) = if cmp x y = .eq then y :: equals cmp x ys else equals cmp x ys := by
  unfold equals
  rw [List.filter_cons]
  simp only [decide_eq_true_eq]

section Merge

variable [Std.TransCmp cmp]

theorem equals_eq_nil {x y : α} (hxy : cmp x y = .eq) (hall : ∀ z ∈ xs, cmp y z = .lt) :
    equals cmp x xs = [] := by
  refine List.filter_eq_nil_iff.2 fun z hz heq => ?_
  rw [decide_eq_true_eq] at heq
  have hyz := Std.TransCmp.eq_trans (Std.OrientedCmp.eq_symm hxy) heq
  rw [hall z hz] at hyz
  cases hyz

theorem equals_merge (hxs : Sorted cmp xs) (x : α) :
    equals cmp x (xs.merge ys (le cmp)) = equals cmp x xs ++ equals cmp x ys := by
  induction xs generalizing ys with
  | nil => rw [List.nil_merge]; rfl
  | cons first xs ih =>
    obtain ⟨hfirst, hrest⟩ := List.pairwise_cons.1 hxs
    induction ys with
    | nil =>
      rw [List.merge_right]
      exact (List.append_nil _).symm
    | cons second ys ih' =>
      rw [List.cons_merge_cons]
      split_ifs with hle
      · rw [equals_cons, ih hrest, equals_cons x first xs]
        split_ifs <;> rfl
      · -- all elements of the first list come after the head of the second one
        have hlt : cmp second first = .lt := by
          unfold le at hle
          cases hcmp : cmp first second with
          | lt => simp [hcmp] at hle
          | eq => simp [hcmp] at hle
          | gt => exact Std.OrientedCmp.gt_iff_lt.1 hcmp
        have hafter (z : α) (hz : z ∈ first :: xs) : cmp second z = .lt := by
          rcases List.mem_cons.1 hz with rfl | hz
          · exact hlt
          · exact Std.TransCmp.lt_of_lt_of_isLE hlt (hfirst z hz)
        rw [equals_cons, ih', equals_cons x second ys]
        split_ifs with heq
        · rw [equals_eq_nil heq hafter]
          rfl
        · rfl

theorem merge_rearranged (hxs : Sorted cmp xs) :
    Rearranged cmp (xs ++ ys) (xs.merge ys (le cmp)) := by
  refine ⟨List.merge_perm_append (le cmp), fun x => ?_⟩
  rw [equals_merge hxs, equals, equals, equals, List.filter_append]

theorem merge_sorted (hxs : Sorted cmp xs) (hys : Sorted cmp ys) :
    Sorted cmp (xs.merge ys (le cmp)) := by
  refine List.pairwise_merge (fun x y z => Std.TransCmp.isLE_trans) (fun x y => ?_) xs ys hxs hys
  unfold le
  rw [show cmp y x = (cmp x y).swap from Std.OrientedCmp.eq_swap]
  cases cmp x y <;> rfl

/-! ## Passes -/

omit [Std.TransCmp cmp] in
theorem Runs.drop (h : Runs cmp width xs) (n : ℕ) : Runs cmp width (xs.drop (n * width)) := by
  intro k
  rw [List.drop_drop, ← Nat.add_mul]
  exact h _

omit [Std.TransCmp cmp] in
theorem Sorted.runs (h : Sorted cmp xs) (width : ℕ) : Runs cmp width xs := fun _ =>
  h.sublist ((List.take_sublist _ _).trans (List.drop_sublist _ _))

omit [Std.TransCmp cmp] in
theorem Runs.append (hxs : Sorted cmp xs) (hfull : ys ≠ [] → xs.length = width)
    (hys : Runs cmp width ys) : Runs cmp width (xs ++ ys) := by
  by_cases hnil : ys = []
  · rw [hnil, List.append_nil]
    exact hxs.runs width
  · have hwidth := hfull hnil
    intro k
    cases k with
    | zero =>
      rw [Nat.zero_mul, List.drop_zero, ← hwidth, List.take_left]
      exact hxs
    | succ k =>
      rw [Nat.succ_mul, Nat.add_comm, ← List.drop_drop, List.drop_left' hwidth]
      exact hys k

omit [Std.TransCmp cmp] in
theorem Runs.one (xs : List α) : Runs cmp 1 xs := by
  intro k
  cases xs.drop (k * 1) with
  | nil => exact .nil
  | cons x xs => exact List.pairwise_singleton _ x

omit [Std.TransCmp cmp] in
theorem Runs.sorted (h : Runs cmp width xs) (hlength : xs.length ≤ width) : Sorted cmp xs := by
  have hfirst := h 0
  rwa [Nat.zero_mul, List.drop_zero, List.take_of_length_le hlength] at hfirst

/-- A pass makes the runs twice as wide. -/
theorem pass_runs (h : Runs cmp width xs) (hpos : 0 < width) :
    Rearranged cmp xs (pass cmp width xs) ∧ Runs cmp (width * 2) (pass cmp width xs) := by
  fun_induction pass cmp width xs with
  | case1 xs hsome ih =>
    have hleft : Sorted cmp (xs.take width) := by
      have hfirst := h 0
      rwa [Nat.zero_mul, List.drop_zero] at hfirst
    have hright : Sorted cmp ((xs.drop width).take width) := by
      have hsecond := h 1
      rwa [Nat.one_mul] at hsecond
    obtain ⟨hrest, hruns⟩ := ih (Nat.mul_comm width 2 ▸ h.drop 2)
    have hsplit : xs = xs.take width ++ (xs.drop width).take width ++ xs.drop (width * 2) := by
      rw [List.append_assoc, Nat.mul_two, ← List.drop_drop, List.take_append_drop,
        List.take_append_drop]
    constructor
    · have hmerged : Rearranged cmp (xs.take width ++ (xs.drop width).take width)
          ((xs.take width).merge ((xs.drop width).take width) (le cmp)) := merge_rearranged hleft
      have hall := hmerged.append hrest
      rwa [← hsplit] at hall
    · have hlength : ((xs.take width).merge ((xs.drop width).take width) (le cmp)).length =
          min (width * 2) xs.length := by
        rw [List.length_merge, List.length_take, List.length_take, List.length_drop]
        omega
      refine Runs.append (merge_sorted hleft hright) (fun hne => ?_) hruns
      have hpass : (pass cmp width (xs.drop (width * 2))).length ≠ 0 := fun hzero =>
        hne (List.eq_nil_of_length_eq_zero hzero)
      rw [hrest.perm.length_eq, List.length_drop] at hpass
      rw [hlength]
      omega
  | case2 xs hnone =>
    have hnil : xs = [] := by
      by_contra hne
      exact hnone ⟨hpos, hne⟩
    rw [hnil]
    refine ⟨.refl _, fun k => ?_⟩
    rw [List.drop_nil, List.take_nil]
    exact .nil

end Merge

end BottomUpSort
