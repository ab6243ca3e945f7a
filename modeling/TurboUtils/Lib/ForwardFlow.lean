import Mathlib.Data.Set.Basic
import Mathlib.Logic.Function.Basic
import Mathlib.Tactic.Basic

/-! Facts that hold on every path of a graph whose edges point forward, found in one sweep. -/
namespace ForwardFlow

variable {β : Type*} (next : ℕ → List ℕ) (merge : β → β → β) (transfer : ℕ → β → β)

/-! ## The sweep -/

def join (marks : ℕ → Option β) (b : β) (j : ℕ) : ℕ → Option β :=
  Function.update marks j (some (match marks j with
    | none => b
    | some old => merge old b))

def visit (marks : ℕ → Option β) (i : ℕ) : ℕ → Option β :=
  match marks i with
  | none => marks
  | some b => (next i).foldl (fun marks j => join merge marks (transfer i b) j) marks

def sweep (marks : ℕ → Option β) (n : ℕ) : ℕ → Option β :=
  (List.range n).foldl (visit next merge transfer) marks

def initial (b : β) : ℕ → Option β := Function.update (fun _ => none) 0 (some b)

/-! ## Paths -/

inductive Path : ℕ → List ℕ → Prop
  | start : Path 0 []
  | step {i j : ℕ} {nodes : List ℕ} (path : Path i nodes) (edge : j ∈ next i) :
      Path j (nodes ++ [i])

def paths (k j : ℕ) : Set (List ℕ) := {nodes | Path next j nodes ∧ ∀ i ∈ nodes, i < k}

variable {next merge transfer}

theorem Path.lt (hnext : ∀ i, ∀ j ∈ next i, i < j) {j : ℕ} {nodes : List ℕ}
    (h : Path next j nodes) : ∀ i ∈ nodes, i < j := by
  induction h with
  | start => exact fun _ hmem => absurd hmem List.not_mem_nil
  | step path edge ih =>
    intro i hmem
    have hlt := hnext _ _ edge
    rcases List.mem_append.1 hmem with hmem | hmem
    · exact (ih i hmem).trans hlt
    · rw [List.mem_singleton.1 hmem]
      exact hlt

theorem Path.length_le (hnext : ∀ i, ∀ j ∈ next i, i < j) {j : ℕ} {nodes : List ℕ}
    (h : Path next j nodes) : nodes.length ≤ j := by
  induction h with
  | start => exact Nat.zero_le _
  | step path edge ih =>
    have hlt := hnext _ _ edge
    rw [List.length_append, List.length_singleton]
    omega

theorem paths_of_le (hnext : ∀ i, ∀ j ∈ next i, i < j) {k j : ℕ} (hjk : j ≤ k) :
    paths next k j = {nodes | Path next j nodes} :=
  Set.ext fun _ => ⟨fun h => h.1, fun h => ⟨h, fun i hmem => (h.lt hnext i hmem).trans_le hjk⟩⟩

theorem paths_zero (j : ℕ) : paths next 0 j = {nodes | j = 0 ∧ nodes = []} := by
  ext nodes
  constructor
  · rintro ⟨hpath, hlt⟩
    cases hpath with
    | start => exact ⟨rfl, rfl⟩
    | step path edge =>
      exact absurd (hlt _ (List.mem_append_right _ (List.mem_singleton_self _))) (Nat.not_lt_zero _)
  · rintro ⟨rfl, rfl⟩
    exact ⟨.start, fun _ hmem => absurd hmem List.not_mem_nil⟩

/-- A path that may leave the node `k` does so last, or not at all. -/
theorem paths_succ (hnext : ∀ i, ∀ j ∈ next i, i < j) (k j : ℕ) : paths next (k + 1) j =
    paths next k j ∪ {nodes | j ∈ next k ∧ ∃ before ∈ paths next k k, nodes = before ++ [k]} := by
  ext nodes
  constructor
  · rintro ⟨hpath, hlt⟩
    cases hpath with
    | start => exact .inl ⟨.start, fun _ hmem => absurd hmem List.not_mem_nil⟩
    | @step i _ before path edge =>
      have hik : i < k + 1 := hlt i (List.mem_append_right _ (List.mem_singleton_self _))
      rcases Nat.lt_succ_iff_lt_or_eq.1 hik with hik | rfl
      · refine .inl ⟨path.step edge, fun i' hmem => ?_⟩
        rcases List.mem_append.1 hmem with hmem | hmem
        · exact (path.lt hnext i' hmem).trans hik
        · rw [List.mem_singleton.1 hmem]
          exact hik
      · exact .inr ⟨edge, before, ⟨path, path.lt hnext⟩, rfl⟩
  · rintro (⟨hpath, hlt⟩ | ⟨hedge, before, ⟨hpath, hlt⟩, rfl⟩)
    · exact ⟨hpath, fun i hmem => (hlt i hmem).trans (Nat.lt_succ_self k)⟩
    · refine ⟨hpath.step hedge, fun i hmem => ?_⟩
      rcases List.mem_append.1 hmem with hmem | hmem
      · exact (hlt i hmem).trans (Nat.lt_succ_self k)
      · rw [List.mem_singleton.1 hmem]
        exact Nat.lt_succ_self k

/-- A graph that goes on from every node before the last one comes to the last one. -/
theorem exists_path {n : ℕ} (hnext : ∀ i, ∀ j ∈ next i, i < j)
    (hon : ∀ i < n, ∃ j ∈ next i, j ≤ n) : ∃ nodes, Path next n nodes := by
  have hfar : ∀ k ≤ n, ∃ j, k ≤ j ∧ j ≤ n ∧ ∃ nodes, Path next j nodes := by
    intro k
    induction k with
    | zero => exact fun _ => ⟨0, le_rfl, Nat.zero_le _, [], .start⟩
    | succ k ih =>
      intro hk
      obtain ⟨j, hkj, hjn, nodes, hpath⟩ := ih (by omega)
      by_cases hlt : k < j
      · exact ⟨j, hlt, hjn, nodes, hpath⟩
      · obtain ⟨j', hedge, hj'⟩ := hon j (by omega)
        have hforward := hnext j j' hedge
        exact ⟨j', by omega, hj', _, hpath.step hedge⟩
  obtain ⟨j, hnj, hjn, nodes, hpath⟩ := hfar n le_rfl
  obtain rfl : j = n := le_antisymm hjn hnj
  exact ⟨nodes, hpath⟩

/-! ## What the marks say -/

variable {ρ : Type*} (holds : ρ → β → Prop) (along : ρ → List ℕ → Prop)

/-- A mark says which facts hold along all of these paths, and that there is one. -/
def Describes (nodes : Set (List ℕ)) : Option β → Prop
  | none => nodes = ∅
  | some b => nodes.Nonempty ∧ ∀ r, holds r b ↔ ∀ path ∈ nodes, along r path

variable {holds along} {marks : ℕ → Option β}

theorem Describes.join (hmerge : ∀ r a b, holds r (merge a b) ↔ holds r a ∧ holds r b)
    {old new : Set (List ℕ)} {j : ℕ} {b : β} (hold : Describes holds along old (marks j))
    (hnew : Describes holds along new (some b)) :
    Describes holds along (old ∪ new) (join merge marks b j j) := by
  unfold ForwardFlow.join
  rw [Function.update_self]
  cases hj : marks j with
  | none =>
    rw [hj] at hold
    have hempty : old = ∅ := hold
    rw [hempty, Set.empty_union]
    exact hnew
  | some a =>
    rw [hj] at hold
    refine ⟨hold.1.mono Set.subset_union_left, fun r => ?_⟩
    rw [hmerge, hold.2, hnew.2]
    simp only [Set.mem_union, or_imp, forall_and]

/-- The edges of one node. -/
theorem describes_edges (hmerge : ∀ r a b, holds r (merge a b) ↔ holds r a ∧ holds r b)
    {new : Set (List ℕ)} {b : β} (hnew : Describes holds along new (some b)) :
    ∀ (edges : List ℕ) (old : ℕ → Set (List ℕ)) (marks : ℕ → Option β),
      (∀ j, Describes holds along (old j) (marks j)) →
        ∀ j, Describes holds along (old j ∪ {nodes | j ∈ edges ∧ nodes ∈ new})
          (edges.foldl (fun marks j => join merge marks b j) marks j) := by
  intro edges
  induction edges with
  | nil =>
    intro old marks h j
    have hnone : {nodes | j ∈ ([] : List ℕ) ∧ nodes ∈ new} = ∅ := by simp
    rw [hnone, Set.union_empty]
    exact h j
  | cons e edges ih =>
    intro old marks h j
    rw [List.foldl_cons]
    have hnext := ih (fun j => old j ∪ {nodes | j = e ∧ nodes ∈ new}) (join merge marks b e)
      (fun j => ?_) j
    · rw [Set.union_assoc] at hnext
      have heq : {nodes | j ∈ e :: edges ∧ nodes ∈ new} =
          {nodes | j = e ∧ nodes ∈ new} ∪ {nodes | j ∈ edges ∧ nodes ∈ new} := by
        ext nodes
        simp only [Set.mem_union, Set.mem_ofPred_eq, List.mem_cons, or_and_right]
      rw [heq]
      exact hnext
    · by_cases hje : j = e
      · subst hje
        have heq : {nodes | j = j ∧ nodes ∈ new} = new := by simp
        rw [heq]
        exact (h j).join hmerge hnew
      · have heq : {nodes | j = e ∧ nodes ∈ new} = ∅ := by simp [hje]
        rw [heq, Set.union_empty]
        unfold ForwardFlow.join
        rw [Function.update_of_ne hje]
        exact h j

/-- The sweep marks every node with what holds along all paths to it. -/
theorem sweep_describes (hnext : ∀ i, ∀ j ∈ next i, i < j)
    (hmerge : ∀ r a b, holds r (merge a b) ↔ holds r a ∧ holds r b) {g : ℕ → ρ → Prop}
    (htransfer : ∀ r i b, holds r (transfer i b) ↔ holds r b ∨ g i r)
    (halong : ∀ r nodes i, along r (nodes ++ [i]) ↔ along r nodes ∨ g i r) {b₀ : β}
    (hstart : ∀ r, holds r b₀ ↔ along r []) (k j : ℕ) :
    Describes holds along (paths next k j) (sweep next merge transfer (initial b₀) k j) := by
  induction k generalizing j with
  | zero =>
    rw [paths_zero]
    unfold sweep initial
    rw [List.range_zero, List.foldl_nil]
    by_cases hj : j = 0
    · subst hj
      rw [Function.update_self]
      refine ⟨⟨[], rfl, rfl⟩, fun r => ?_⟩
      rw [hstart]
      exact ⟨by rintro h _ ⟨-, rfl⟩; exact h, fun h => h [] ⟨rfl, rfl⟩⟩
    · rw [Function.update_of_ne hj]
      exact Set.eq_empty_iff_forall_notMem.2 fun nodes h => hj h.1
  | succ k ih =>
    have hsweep : sweep next merge transfer (initial b₀) (k + 1) =
        visit next merge transfer (sweep next merge transfer (initial b₀) k) k := by
      unfold sweep
      rw [List.range_succ, List.foldl_append]
      rfl
    rw [hsweep, paths_succ hnext]
    have hk := ih k
    unfold visit
    cases hmark : sweep next merge transfer (initial b₀) k k with
    | none =>
      rw [hmark] at hk
      have hempty : paths next k k = ∅ := hk
      have hnone : {nodes | j ∈ next k ∧ ∃ before ∈ paths next k k, nodes = before ++ [k]} = ∅ := by
        rw [hempty]
        simp
      rw [hnone, Set.union_empty]
      exact ih j
    | some b =>
      rw [hmark] at hk
      have hnew : Describes holds along {nodes | ∃ before ∈ paths next k k, nodes = before ++ [k]}
          (some (transfer k b)) := by
        obtain ⟨⟨before, hmem⟩, hholds⟩ := hk
        refine ⟨⟨before ++ [k], before, hmem, rfl⟩, fun r => ?_⟩
        rw [htransfer, hholds]
        constructor
        · rintro h _ ⟨before, hmem, rfl⟩
          rw [halong]
          exact h.imp_left fun h => h before hmem
        · intro h
          by_cases hg : g k r
          · exact .inr hg
          · refine .inl fun before hmem => ?_
            have hlong := h _ ⟨before, hmem, rfl⟩
            rw [halong] at hlong
            exact hlong.resolve_right hg
      exact describes_edges hmerge hnew (next k) (paths next k) _ ih j

end ForwardFlow
