import TurboUtils.Lib.Word
import Mathlib.Order.Interval.Finset.Nat

/-! Cursors that tolerate gaps. Numbers are closed in any order; a number that cannot move the
cursor leaves a mark in a table of `cap` cells, and the cursor moves over marks when the gap
before them closes. -/
namespace GapCursor

/-- The cursor stands at `c`, numbers up to `t` exist and those of `p` are still open. Every
closed number past the cursor has its mark, and no mark is of an open number. The range past
the cursor may exceed the table by one, since the number next to the cursor needs no mark. -/
structure Gap (cap : ℕ) (marks : ℕ → ℕ) (c t : ℕ) (p : Finset ℕ) : Prop where
  le : c ≤ t
  width : t ≤ c + cap + 1
  opens : ∀ x ∈ p, c < x ∧ x ≤ t
  marked : ∀ x, c < x → x ≤ t → x ∉ p → marks (x % cap) = x
  sound : ∀ i, marks i ≠ 0 → marks i ≤ t ∧ marks i ∉ p

/-- The cursor stands before an open number, or before none at all. -/
def Settled (c t : ℕ) (p : Finset ℕ) : Prop := c < t → c + 1 ∈ p

variable {cap : ℕ} {marks : ℕ → ℕ} {c t : ℕ} {p : Finset ℕ}

theorem Gap.init (cap : ℕ) : Gap cap (fun _ => 0) 0 0 ∅ :=
  ⟨le_rfl, by omega, by simp, by omega, fun _ h => absurd rfl h⟩

/-- New numbers are open. -/
theorem Gap.extend (h : Gap cap marks c t p) {n : ℕ} (hn : t + n ≤ c + cap + 1) :
    Gap cap marks c (t + n) (p ∪ Finset.Ioc t (t + n)) := by
  have hle := h.le
  refine ⟨by omega, hn, ?_, ?_, ?_⟩
  · intro x hx
    rcases Finset.mem_union.mp hx with hx | hx
    · have := h.opens x hx
      omega
    · have := Finset.mem_Ioc.mp hx
      omega
  · intro x hcx hxt hx
    rw [Finset.mem_union, Finset.mem_Ioc, not_or] at hx
    exact h.marked x hcx (by omega) hx.1
  · intro i hi
    obtain ⟨hit, hip⟩ := h.sound i hi
    rw [Finset.mem_union, Finset.mem_Ioc, not_or]
    exact ⟨by omega, hip, by omega⟩

theorem Settled.extend (h : Settled c t p) (hle : c ≤ t) (n : ℕ) :
    Settled c (t + n) (p ∪ Finset.Ioc t (t + n)) := by
  intro hlt
  rw [Finset.mem_union, Finset.mem_Ioc]
  rcases Nat.lt_or_eq_of_le hle with hct | rfl
  · exact .inl (h hct)
  · exact .inr ⟨by omega, by omega⟩

theorem eq_of_cell {x y : ℕ} (hxy : x < y) (hy : y ≤ x + cap)
    (hcell : x % cap = y % cap) : y = x + cap := by
  by_contra hne
  refine Word.mod_ne (n := cap) (p := x) (i := 0) (j := y - x) (by omega) (by omega) ?_
  rw [Nat.add_zero, Nat.add_sub_cancel' hxy.le, hcell]

/-- A closed number leaves its mark. Next to the cursor it may only do so within a table. -/
theorem Gap.mark (h : Gap cap marks c t p) (hs : Settled c t p) {x : ℕ} (hx : x ∈ p)
    (hfar : x ≠ c + 1 ∨ t ≤ c + cap) :
    Gap cap (Function.update marks (x % cap) x) c t (p.erase x) := by
  obtain ⟨hcx, hxt⟩ := h.opens x hx
  have hwidth := h.width
  refine ⟨h.le, hwidth, fun y hy => h.opens y (Finset.mem_of_mem_erase hy), ?_, ?_⟩
  · intro y hcy hyt hy
    by_cases hyx : y = x
    · rw [hyx, Function.update_self]
    have hyp : y ∉ p := fun hyp => hy (Finset.mem_erase.mpr ⟨hyx, hyp⟩)
    rw [Function.update_of_ne, h.marked y hcy hyt hyp]
    intro hcell
    -- only the number next to the cursor shares its cell with another
    rcases Nat.lt_or_gt_of_ne hyx with hlt | hlt
    · have heq := eq_of_cell hlt (by omega) hcell
      obtain rfl : y = c + 1 := by omega
      exact hyp (hs (by omega))
    · have heq := eq_of_cell hlt (by omega) hcell.symm
      omega
  · intro i hi
    by_cases hix : i = x % cap
    · subst hix
      rw [Function.update_self]
      exact ⟨hxt, Finset.notMem_erase x p⟩
    · rw [Function.update_of_ne hix] at hi ⊢
      obtain ⟨hit, hip⟩ := h.sound i hi
      exact ⟨hit, fun hmem => hip (Finset.mem_of_mem_erase hmem)⟩

theorem Gap.jump (h : Gap cap marks c t p) {b : ℕ} (hb : c < b)
    (hrun : ∀ x, c < x → x ≤ b → x ∈ p) : Gap cap marks b t (p \ Finset.Icc (c + 1) b) := by
  obtain ⟨-, hbt⟩ := h.opens b (hrun b hb le_rfl)
  have hwidth := h.width
  refine ⟨hbt, by omega, ?_, ?_, ?_⟩
  · intro x hx
    rw [Finset.mem_sdiff, Finset.mem_Icc] at hx
    have := h.opens x hx.1
    omega
  · intro x hbx hxt hx
    rw [Finset.mem_sdiff, Finset.mem_Icc] at hx
    exact h.marked x (by omega) hxt fun hxp => hx ⟨hxp, by omega⟩
  · intro i hi
    obtain ⟨hit, hip⟩ := h.sound i hi
    exact ⟨hit, fun hmem => hip (Finset.mem_sdiff.mp hmem).1⟩

/-- The cursor moves over the marks that follow it. -/
theorem Gap.advance (h : Gap cap marks c t p) {c' : ℕ} (hle : c ≤ c')
    (hall : ∀ x, c < x → x ≤ c' → marks (x % cap) = x) :
    Gap cap marks c' t p := by
  have hct := h.le
  have hwidth := h.width
  have hrun : ∀ x, c < x → x ≤ c' → x ≤ t ∧ x ∉ p := by
    intro x hcx hxc
    have hmark := hall x hcx hxc
    have hsound := h.sound (x % cap) (by omega)
    rw [hmark] at hsound
    exact hsound
  have hbound : c' ≤ t := by
    rcases Nat.lt_or_eq_of_le hle with hlt | rfl
    · exact (hrun c' hlt le_rfl).1
    · exact hct
  refine ⟨hbound, by omega, ?_, fun x hx hxt => h.marked x (by omega) hxt, h.sound⟩
  intro x hx
  obtain ⟨hcx, hxt⟩ := h.opens x hx
  refine ⟨?_, hxt⟩
  by_contra hxc
  exact (hrun x hcx (by omega)).2 hx

theorem Gap.settled (h : Gap cap marks c t p) (hstop : marks ((c + 1) % cap) ≠ c + 1) :
    Settled c t p := by
  intro hlt
  by_contra hnot
  exact hstop (h.marked (c + 1) (by omega) (by omega) hnot)

theorem Gap.le_iff (h : Gap cap marks c t p) (hs : Settled c t p) {x : ℕ} (hx : x ≤ t) :
    x ≤ c ↔ ∀ y ≤ x, y ∉ p := by
  constructor
  · intro hxc y hy hyp
    have := h.opens y hyp
    omega
  · intro hall
    by_contra hlt
    exact hall (c + 1) (by omega) (hs (by omega))

end GapCursor
