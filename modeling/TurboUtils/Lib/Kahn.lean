import Mathlib.Logic.Relation
import Mathlib.Order.WellFounded
import Mathlib.Data.Fintype.Order
import Mathlib.Algebra.BigOperators.Intervals
import Mathlib.Tactic

/-! Kahn's algorithm on the graph with nodes `0, …, n - 1` and an edge from `u` to every element
of `succ u`: it visits every node if and only if the graph has no cycle. -/
namespace Kahn

def indegrees (n : ℕ) (succ : ℕ → List ℕ) : ℕ → ℕ :=
  (List.range n).foldl (fun f u =>
    (succ u).foldl (fun f v => Function.update f v (f v + 1)) f) fun _ => 0

def relax : List ℕ → (ℕ → ℕ) → (ℕ → ℕ) × List ℕ
  | [], f => (f, [])
  | v :: vs, f =>
      let rest := relax vs (Function.update f v (f v - 1))
      (rest.1, if f v - 1 = 0 then v :: rest.2 else rest.2)

def loop (succ : ℕ → List ℕ) : ℕ → (ℕ → ℕ) → List ℕ → ℕ → ℕ
  | 0, _, _, visited => visited
  | _ + 1, _, [], visited => visited
  | k + 1, f, u :: queue, visited =>
      loop succ k (relax (succ u) f).1 (queue ++ (relax (succ u) f).2) (visited + 1)

def visited (n : ℕ) (succ : ℕ → List ℕ) : ℕ :=
  loop succ n (indegrees n succ) ((List.range n).filter fun v => indegrees n succ v = 0) 0

/-- No node reaches itself. -/
def Acyclic {α : Type*} (edge : α → α → Prop) : Prop := ∀ v, ¬Relation.TransGen edge v v

/-! ## Counting edges -/

theorem foldl_bump (l : List ℕ) (f : ℕ → ℕ) (v : ℕ) :
    l.foldl (fun f v => Function.update f v (f v + 1)) f v = f v + l.count v := by
  induction l generalizing f with
  | nil => rfl
  | cons x l ih =>
    rw [List.foldl_cons, ih, List.count_cons]
    by_cases h : x = v
    · subst h
      simp only [Function.update_self, beq_self_eq_true, if_true]
      omega
    · rw [Function.update_of_ne (Ne.symm h)]
      simp [h]

theorem indegrees_eq (n : ℕ) (succ : ℕ → List ℕ) (v : ℕ) :
    indegrees n succ v = ∑ u ∈ Finset.range n, (succ u).count v := by
  induction n with
  | zero => rfl
  | succ n ih =>
    rw [Finset.sum_range_succ, ← ih, indegrees, List.range_succ, List.foldl_append,
      List.foldl_cons, List.foldl_nil, foldl_bump]
    rfl

/-- Taking the edges of a list away empties exactly the nodes it names often enough. -/
theorem relax_spec (l : List ℕ) (f : ℕ → ℕ) (h : ∀ v, l.count v ≤ f v) :
    (∀ v, (relax l f).1 v = f v - l.count v) ∧ (relax l f).2.Nodup ∧
      ∀ v, v ∈ (relax l f).2 ↔ v ∈ l ∧ f v = l.count v := by
  induction l generalizing f with
  | nil => simp [relax]
  | cons x l ih =>
    have hx := h x
    rw [List.count_cons_self] at hx
    have hrest : ∀ v, l.count v ≤ Function.update f x (f x - 1) v := by
      intro v
      by_cases hv : v = x
      · rw [hv, Function.update_self]
        omega
      · have := h v
        rw [List.count_cons_of_ne (Ne.symm hv)] at this
        rwa [Function.update_of_ne hv]
    obtain ⟨hvalue, hnodup, hmem⟩ := ih _ hrest
    refine ⟨fun v => ?_, ?_, fun v => ?_⟩
    · rw [relax, hvalue]
      by_cases hv : v = x
      · rw [hv, Function.update_self, List.count_cons_self]
        omega
      · rw [Function.update_of_ne hv, List.count_cons_of_ne (Ne.symm hv)]
    · rw [relax]
      split
      next hzero =>
        refine List.nodup_cons.mpr ⟨fun hin => ?_, hnodup⟩
        obtain ⟨hxl, hcount⟩ := (hmem x).mp hin
        rw [Function.update_self] at hcount
        have := List.count_pos_iff.mpr hxl
        omega
      · exact hnodup
    · have hmemrest : v ∈ (relax (x :: l) f).2 ↔
          (v = x ∧ f x - 1 = 0) ∨ v ∈ (relax l (Function.update f x (f x - 1))).2 := by
        rw [relax]
        split <;> simp_all
      rw [hmemrest, hmem]
      by_cases hv : v = x
      · subst hv
        rw [Function.update_self, List.count_cons_self]
        constructor
        · rintro (⟨-, hzero⟩ | ⟨-, hcount⟩)
          · exact ⟨.head _, by omega⟩
          · exact ⟨.head _, by omega⟩
        · rintro ⟨-, hcount⟩
          by_cases hvl : v ∈ l
          · exact .inr ⟨hvl, by omega⟩
          · have := List.count_eq_zero.mpr hvl
            exact .inl ⟨rfl, by omega⟩
      · rw [Function.update_of_ne hv, List.count_cons_of_ne (Ne.symm hv)]
        simp [hv]

/-! ## The rounds -/

/-- The nodes of `done` have been visited, those of `queue` are next; together they are the
nodes without an edge from a node that is still to be visited, each after all its
predecessors. -/
structure Round (n : ℕ) (succ : ℕ → List ℕ) (f : ℕ → ℕ) (done queue : List ℕ) : Prop where
  count_eq : ∀ v, f v = ∑ u ∈ (Finset.range n).filter (· ∉ done), (succ u).count v
  nodup : (done ++ queue).Nodup
  mem : ∀ v, v ∈ done ++ queue ↔ v < n ∧ f v = 0
  ordered : ∀ a v b, done ++ queue = a ++ v :: b → ∀ u < n, v ∈ succ u → u ∈ a

variable {n : ℕ} {succ : ℕ → List ℕ} {f : ℕ → ℕ} {done queue : List ℕ}

theorem Round.init (n : ℕ) (succ : ℕ → List ℕ) :
    Round n succ (indegrees n succ) []
      ((List.range n).filter fun v => indegrees n succ v = 0) := by
  refine ⟨fun v => ?_, ?_, fun v => by simp, ?_⟩
  · rw [indegrees_eq, Finset.filter_true_of_mem]
    simp
  · exact List.nodup_range.filter _
  · intro a v b hsplit u hu hv
    have hmem : v ∈ (List.range n).filter fun v => indegrees n succ v = 0 := by
      rw [List.nil_append] at hsplit
      rw [hsplit]
      simp
    simp only [List.mem_filter, List.mem_range, decide_eq_true_eq, indegrees_eq,
      Finset.sum_eq_zero_iff, Finset.mem_range] at hmem
    exact absurd hv (List.count_eq_zero.mp (hmem.2 u hu))

theorem Round.next (h : Round n succ f done (u :: queue)) (hsucc : ∀ u < n, ∀ v ∈ succ u, v < n) :
    Round n succ (relax (succ u) f).1 (done ++ [u]) (queue ++ (relax (succ u) f).2) := by
  have hnodup := h.nodup
  obtain ⟨hu, hfu⟩ := (h.mem u).mp (by simp)
  have hdone : u ∉ done := by
    intro hin
    exact (List.nodup_append.mp hnodup).2.2 u hin u (.head _) rfl
  -- the edges out of `u` are among those still counted
  have hsum : ∀ v, f v = (succ u).count v +
      ∑ w ∈ (Finset.range n).filter (· ∉ done ++ [u]), (succ w).count v := by
    intro v
    have hset : (Finset.range n).filter (· ∉ done) =
        insert u ((Finset.range n).filter (· ∉ done ++ [u])) := by
      ext w
      simp only [Finset.mem_filter, Finset.mem_range, Finset.mem_insert, List.mem_append,
        List.mem_singleton, not_or]
      constructor
      · rintro ⟨hw, hnot⟩
        by_cases hwu : w = u
        · exact .inl hwu
        · exact .inr ⟨hw, hnot, hwu⟩
      · rintro (rfl | ⟨hw, hnot, -⟩)
        · exact ⟨hu, hdone⟩
        · exact ⟨hw, hnot⟩
    rw [h.count_eq, hset, Finset.sum_insert (by simp)]
  obtain ⟨hvalue, hnew, hmem⟩ := relax_spec (succ u) f fun v => by rw [hsum v]; omega
  have hassoc : done ++ [u] ++ (queue ++ (relax (succ u) f).2) =
      (done ++ u :: queue) ++ (relax (succ u) f).2 := by simp
  have hfresh : ∀ v ∈ (relax (succ u) f).2, v ∉ done ++ u :: queue := by
    intro v hv hold
    obtain ⟨hvu, hcount⟩ := (hmem v).mp hv
    have := List.count_pos_iff.mpr hvu
    have := ((h.mem v).mp hold).2
    omega
  have hpred : ∀ v ∈ (relax (succ u) f).2, ∀ w < n, v ∈ succ w → w ∈ done ++ u :: queue := by
    intro v hv w hw hvw
    obtain ⟨hvu, hcount⟩ := (hmem v).mp hv
    by_contra hnot
    have hzero : ∑ w ∈ (Finset.range n).filter (· ∉ done ++ [u]), (succ w).count v = 0 := by
      have := hsum v
      omega
    rw [Finset.sum_eq_zero_iff] at hzero
    have hstill : w ∉ done ++ [u] := by
      simp only [List.mem_append, List.mem_cons, not_or] at hnot ⊢
      exact ⟨hnot.1, hnot.2.1, List.not_mem_nil⟩
    have hcount := hzero w (Finset.mem_filter.mpr ⟨Finset.mem_range.mpr hw, hstill⟩)
    exact List.count_eq_zero.mp hcount hvw
  refine ⟨fun v => ?_, ?_, fun v => ?_, ?_⟩
  · rw [hvalue, hsum v, Nat.add_sub_cancel_left]
  · rw [hassoc]
    refine List.nodup_append.mpr ⟨hnodup, hnew, ?_⟩
    rintro a ha b hb rfl
    exact hfresh a hb ha
  · rw [hassoc, List.mem_append, h.mem, hmem, hvalue]
    constructor
    · rintro (⟨hv, hzero⟩ | ⟨hv, hcount⟩)
      · exact ⟨hv, by omega⟩
      · exact ⟨hsucc u hu v hv, by omega⟩
    · rintro ⟨hv, hzero⟩
      by_cases hvu : v ∈ succ u
      · exact .inr ⟨hvu, by have := hsum v; omega⟩
      · rw [List.count_eq_zero.mpr hvu] at hzero
        exact .inl ⟨hv, by omega⟩
  · intro a v b hsplit w hw hvw
    rw [hassoc] at hsplit
    rcases List.append_eq_append_iff.mp hsplit with ⟨c, rfl, hc⟩ | ⟨c, hold, hc⟩
    · -- a node of the new part: everything before it is visited
      have hv : v ∈ (relax (succ u) f).2 := by
        rw [hc]
        simp
      exact List.mem_append_left _ (hpred v hv w hw hvw)
    · cases c with
      | nil =>
        rw [List.append_nil] at hold
        have hv : v ∈ (relax (succ u) f).2 := by
          rw [List.nil_append] at hc
          rw [← hc]
          simp
        rw [← hold]
        exact hpred v hv w hw hvw
      | cons x c =>
        obtain ⟨rfl, -⟩ := List.cons.inj hc
        exact h.ordered a v c hold w hw hvw

/-- Rounds go on until the queue is empty. -/
theorem loop_spec (hsucc : ∀ u < n, ∀ v ∈ succ u, v < n) {k : ℕ}
    (h : Round n succ f done queue) (hk : n ≤ k + done.length) :
    ∃ f' done', Round n succ f' done' [] ∧ loop succ k f queue done.length = done'.length := by
  induction k generalizing f done queue with
  | zero =>
    have hqueue : queue = [] := by
      have hsub : (done ++ queue).length ≤ n := by
        have hrange : done ++ queue ⊆ List.range n := fun v hv =>
          List.mem_range.mpr ((h.mem v).mp hv).1
        simpa using (h.nodup.subperm hrange).length_le
      rw [List.length_append] at hsub
      exact List.eq_nil_of_length_eq_zero (by omega)
    subst hqueue
    exact ⟨f, done, h, rfl⟩
  | succ k ih =>
    cases queue with
    | nil => exact ⟨f, done, h, rfl⟩
    | cons u queue =>
      have hlength : (done ++ [u]).length = done.length + 1 := by simp
      obtain ⟨f', done', hround, hloop⟩ := ih (h.next hsucc) (by omega)
      rw [hlength] at hloop
      exact ⟨f', done', hround, hloop⟩

/-! ## Cycles -/

def Edge (n : ℕ) (succ : ℕ → List ℕ) (u v : ℕ) : Prop := u < n ∧ v ∈ succ u

theorem Round.index_lt (h : Round n succ f done []) (hall : ∀ v < n, v ∈ done)
    (hsucc : ∀ u < n, ∀ v ∈ succ u, v < n) {u v : ℕ} (huv : Edge n succ u v) :
    done.idxOf u < done.idxOf v := by
  obtain ⟨a, b, hsplit⟩ := List.append_of_mem (hall v (hsucc u huv.1 v huv.2))
  have hnodup := h.nodup
  rw [List.append_nil] at hnodup
  have hu := h.ordered a v b (by rw [List.append_nil, hsplit]) u huv.1 huv.2
  have hva : v ∉ a := by
    rw [hsplit] at hnodup
    exact fun hin => (List.nodup_append.mp hnodup).2.2 v hin v (.head _) rfl
  rw [hsplit, List.idxOf_append_of_mem hu, List.idxOf_append_of_notMem hva, List.idxOf_cons_self]
  have := List.idxOf_lt_length_of_mem hu
  omega

/-- A node that is not visited has such a predecessor, so some of them form a cycle. -/
theorem Round.exists_cycle (h : Round n succ f done []) {v : ℕ} (hv : v < n) (hnot : v ∉ done) :
    ¬Acyclic (Edge n succ) := by
  intro hacyclic
  have hpred : ∀ x < n, x ∉ done → ∃ u < n, u ∉ done ∧ x ∈ succ u := by
    intro x hx hxnot
    have hne : f x ≠ 0 := by
      intro hzero
      have := (h.mem x).mpr ⟨hx, hzero⟩
      rw [List.append_nil] at this
      exact hxnot this
    rw [h.count_eq] at hne
    obtain ⟨u, hu, hcount⟩ := Finset.exists_ne_zero_of_sum_ne_zero hne
    rw [Finset.mem_filter, Finset.mem_range] at hu
    exact ⟨u, hu.1, hu.2, List.count_pos_iff.mp (by omega)⟩
  let below : Fin n → Fin n → Prop := fun x y => Relation.TransGen (Edge n succ) x y
  have htrans : IsTrans (Fin n) below := ⟨fun _ _ _ hxy hyz => hxy.trans hyz⟩
  have hirrefl : Std.Irrefl below := ⟨fun x => hacyclic x⟩
  have hwf : WellFounded below := Finite.wellFounded_of_trans_of_irrefl below
  obtain ⟨m, hm, hmin⟩ := hwf.has_min {x : Fin n | x.1 ∉ done} ⟨⟨v, hv⟩, hnot⟩
  obtain ⟨u, hu, hunot, hmu⟩ := hpred m m.2 hm
  exact hmin ⟨u, hu⟩ hunot (.single ⟨hu, hmu⟩)

theorem visited_eq_iff (hsucc : ∀ u < n, ∀ v ∈ succ u, v < n) :
    visited n succ = n ↔ Acyclic (Edge n succ) := by
  obtain ⟨f', done, hround, hloop⟩ := loop_spec (k := n) hsucc (Round.init n succ) (by simp)
  have hnodup := hround.nodup
  rw [List.append_nil] at hnodup
  have hsub : done ⊆ List.range n := by
    intro v hv
    have := (hround.mem v).mp (by rw [List.append_nil]; exact hv)
    exact List.mem_range.mpr this.1
  have hvisited : visited n succ = done.length := hloop
  rw [hvisited]
  constructor
  · intro hlength v hcycle
    have hall : ∀ v < n, v ∈ done := by
      intro v hv
      have hperm := (hnodup.subperm hsub).perm_of_length_le (by simp [hlength])
      exact hperm.mem_iff.mpr (List.mem_range.mpr hv)
    have hlt : ∀ x y, Relation.TransGen (Edge n succ) x y → done.idxOf x < done.idxOf y := by
      intro x y hxy
      induction hxy with
      | single hxy => exact hround.index_lt hall hsucc hxy
      | tail _ hyz ih => exact ih.trans (hround.index_lt hall hsucc hyz)
    exact lt_irrefl _ (hlt v v hcycle)
  · intro hacyclic
    have hall : List.range n ⊆ done := by
      intro v hv
      by_contra hnot
      exact hround.exists_cycle (List.mem_range.mp hv) hnot hacyclic
    have hle := (List.nodup_range.subperm hall).length_le
    have hge := (hnodup.subperm hsub).length_le
    rw [List.length_range] at hle hge
    omega

end Kahn
