import Mathlib.Algebra.BigOperators.Intervals
import Mathlib.Tactic

/-! Totals over the parties `0, …, n - 1` of a system in which one party moves at a time. -/
namespace Census

variable {α : Type*}

def total (n : ℕ) (weight : α → ℕ) (state : ℕ → α) : ℕ := ∑ i ∈ Finset.range n, weight (state i)

variable {n k : ℕ} {weight : α → ℕ} {state : ℕ → α}

theorem total_update (hk : k < n) (weight : α → ℕ) (state : ℕ → α) (next : α) :
    total n weight (Function.update state k next) + weight (state k) =
      total n weight state + weight next := by
  have hmem : k ∈ Finset.range n := Finset.mem_range.mpr hk
  have hrest : ∑ i ∈ (Finset.range n).erase k, weight (Function.update state k next i) =
      ∑ i ∈ (Finset.range n).erase k, weight (state i) := by
    apply Finset.sum_congr rfl
    intro i hi
    rw [Function.update_of_ne (Finset.ne_of_mem_erase hi)]
  have hnew := Finset.add_sum_erase _ (fun i => weight (Function.update state k next i)) hmem
  have hold := Finset.add_sum_erase _ (fun i => weight (state i)) hmem
  rw [Function.update_self] at hnew
  unfold total
  omega

theorem total_join {next : α} (hnext : weight next = 0) :
    total (n + 1) weight (Function.update state n next) = total n weight state := by
  rw [total, Finset.sum_range_succ, Function.update_self, hnext, add_zero]
  apply Finset.sum_congr rfl
  intro i hi
  rw [Function.update_of_ne (Finset.mem_range.mp hi).ne]

theorem total_eq_zero (h : ∀ i < n, weight (state i) = 0) : total n weight state = 0 :=
  Finset.sum_eq_zero fun i hi => h i (Finset.mem_range.mp hi)

theorem weight_le_total (hk : k < n) (weight : α → ℕ) (state : ℕ → α) :
    weight (state k) ≤ total n weight state :=
  Finset.single_le_sum (f := fun i => weight (state i)) (fun _ _ => Nat.zero_le _)
    (Finset.mem_range.mpr hk)

theorem weight_eq_one (hle : ∀ a, weight a ≤ 1) (h : n ≤ total n weight state) (hk : k < n) :
    weight (state k) = 1 := by
  have htotal : ∑ i ∈ Finset.range n, weight (state i) = ∑ i ∈ Finset.range n, 1 := by
    refine le_antisymm (Finset.sum_le_sum fun i _ => hle _) ?_
    rw [Finset.sum_const, Finset.card_range, smul_eq_mul, mul_one]
    exact h
  exact (Finset.sum_eq_sum_iff_of_le fun i _ => hle _).1 htotal k (Finset.mem_range.mpr hk)

theorem le_total {m : ℕ} (hm : m ≤ n) (h : ∀ i < m, weight (state i) = 1) :
    m ≤ total n weight state := by
  calc m = ∑ i ∈ Finset.range m, weight (state i) := by
        rw [Finset.sum_congr rfl fun i hi => h i (Finset.mem_range.mp hi)]
        simp
    _ ≤ total n weight state := Finset.sum_le_sum_of_subset (Finset.range_mono hm)

end Census
