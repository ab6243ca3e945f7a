import Mathlib.Data.List.TakeWhile
import Mathlib.Tactic

/-! Sorted pieces that are joined where they meet, and rows that are selected piece by piece. -/
namespace Coalesce

/-- Pieces sorted by where they start: pieces that overlap have a join, and of pieces that do not,
one ends before the other starts. -/
structure Pieces (α σ : Type*) where
  Le : α → α → Prop
  overlaps : α → α → Bool
  join : α → α → α
  Mem : α → σ → Prop
  Before : α → α → Prop
  le_refl : ∀ a, Le a a
  le_trans : ∀ {a b c}, Le a b → Le b c → Le a c
  join_le : ∀ {a b c}, Le a c → Le (join a b) c
  le_join : ∀ {a b c}, Le a b → Le a (join b c)
  mem_join : ∀ {a b}, Le a b → overlaps a b = true → ∀ x, Mem (join a b) x ↔ Mem a x ∨ Mem b x
  before_of_le : ∀ {a b}, Le a b → overlaps a b = false → Before a b
  before_trans : ∀ {a b c}, Before a b → Le b c → Before a c

variable {α σ : Type*}

/-- The pieces after the first one, each joined to the last one that was kept or kept itself. -/
def mergeFrom (overlaps : α → α → Bool) (join : α → α → α) (last : α) : List α → List α
  | [] => [last]
  | a :: rest =>
      if overlaps last a then mergeFrom overlaps join (join last a) rest
      else last :: mergeFrom overlaps join a rest

def merge (overlaps : α → α → Bool) (join : α → α → α) : List α → List α
  | [] => []
  | a :: rest => mergeFrom overlaps join a rest

theorem forall_mem_mergeFrom {overlaps : α → α → Bool} {join : α → α → α} {p : α → Prop}
    (hjoin : ∀ a b, p a → p (join a b)) {last : α} {rest : List α} (hlast : p last)
    (hrest : ∀ a ∈ rest, p a) : ∀ a ∈ mergeFrom overlaps join last rest, p a := by
  induction rest generalizing last with
  | nil => exact List.forall_mem_singleton.2 hlast
  | cons first rest ih =>
    obtain ⟨hfirst, hrest⟩ := List.forall_mem_cons.1 hrest
    unfold mergeFrom
    split_ifs
    · exact ih (hjoin last first hlast) hrest
    · exact List.forall_mem_cons.2 ⟨hlast, ih hfirst hrest⟩

theorem forall_mem_merge {overlaps : α → α → Bool} {join : α → α → α} {p : α → Prop}
    (hjoin : ∀ a b, p a → p (join a b)) {pieces : List α} (h : ∀ a ∈ pieces, p a) :
    ∀ a ∈ merge overlaps join pieces, p a := by
  cases pieces with
  | nil => exact nofun
  | cons a rest =>
    obtain ⟨ha, hrest⟩ := List.forall_mem_cons.1 h
    exact forall_mem_mergeFrom hjoin ha hrest

namespace Pieces

variable (P : Pieces α σ)

theorem le_of_mem_mergeFrom {last : α} {rest : List α} (hrest : rest.Pairwise P.Le)
    (hlast : ∀ a ∈ rest, P.Le last a) :
    ∀ a ∈ mergeFrom P.overlaps P.join last rest, P.Le last a := by
  induction rest generalizing last with
  | nil =>
    intro a ha
    rw [List.mem_singleton.1 ha]
    exact P.le_refl last
  | cons first rest ih =>
    obtain ⟨hfirst, hrest⟩ := List.pairwise_cons.1 hrest
    obtain ⟨hle, hlast⟩ := List.forall_mem_cons.1 hlast
    intro a ha
    unfold mergeFrom at ha
    split_ifs at ha
    · exact P.le_trans (P.le_join (P.le_refl last))
        (ih hrest (fun b hb => P.join_le (hlast b hb)) a ha)
    · rcases List.mem_cons.1 ha with rfl | ha
      · exact P.le_refl a
      · exact P.le_trans hle (ih hrest hfirst a ha)

theorem mem_mergeFrom {last : α} {rest : List α} (hrest : rest.Pairwise P.Le)
    (hlast : ∀ a ∈ rest, P.Le last a) (x : σ) :
    (∃ a ∈ mergeFrom P.overlaps P.join last rest, P.Mem a x) ↔ ∃ a ∈ last :: rest, P.Mem a x := by
  induction rest generalizing last with
  | nil => exact Iff.rfl
  | cons first rest ih =>
    obtain ⟨hfirst, hrest⟩ := List.pairwise_cons.1 hrest
    obtain ⟨hle, hlast⟩ := List.forall_mem_cons.1 hlast
    unfold mergeFrom
    by_cases hoverlaps : P.overlaps last first = true
    · rw [if_pos hoverlaps, ih hrest fun b hb => P.join_le (hlast b hb)]
      simp only [List.exists_mem_cons_iff, P.mem_join hle hoverlaps, or_assoc]
    · rw [if_neg hoverlaps, List.exists_mem_cons_iff, ih hrest hfirst,
        List.exists_mem_cons_iff _ last]

theorem mergeFrom_before {last : α} {rest : List α} (hrest : rest.Pairwise P.Le)
    (hlast : ∀ a ∈ rest, P.Le last a) :
    (mergeFrom P.overlaps P.join last rest).Pairwise P.Before := by
  induction rest generalizing last with
  | nil => exact List.pairwise_singleton _ _
  | cons first rest ih =>
    obtain ⟨hfirst, hrest⟩ := List.pairwise_cons.1 hrest
    obtain ⟨hle, hlast⟩ := List.forall_mem_cons.1 hlast
    unfold mergeFrom
    by_cases hoverlaps : P.overlaps last first = true
    · rw [if_pos hoverlaps]
      exact ih hrest fun b hb => P.join_le (hlast b hb)
    · rw [if_neg hoverlaps]
      have hbefore := P.before_of_le hle (Bool.eq_false_iff.2 hoverlaps)
      exact List.pairwise_cons.2 ⟨fun a ha => P.before_trans hbefore
        (P.le_of_mem_mergeFrom hrest hfirst a ha), ih hrest hfirst⟩

theorem mem_merge {pieces : List α} (h : pieces.Pairwise P.Le) (x : σ) :
    (∃ a ∈ merge P.overlaps P.join pieces, P.Mem a x) ↔ ∃ a ∈ pieces, P.Mem a x := by
  cases pieces with
  | nil => exact Iff.rfl
  | cons a rest =>
    obtain ⟨ha, hrest⟩ := List.pairwise_cons.1 h
    exact P.mem_mergeFrom hrest ha x

theorem merge_before {pieces : List α} (h : pieces.Pairwise P.Le) :
    (merge P.overlaps P.join pieces).Pairwise P.Before := by
  cases pieces with
  | nil => exact List.Pairwise.nil
  | cons a rest =>
    obtain ⟨ha, hrest⟩ := List.pairwise_cons.1 h
    exact P.mergeFrom_before hrest ha

end Pieces

/-! ## Sorted rows -/

section Sorted

variable {R : σ → σ → Prop} {rows : List σ}

/-- In sorted rows, two selections of which one comes before the other are one selection. -/
theorem filter_append_filter [Std.Refl R] (hrows : rows.Pairwise R) {p q : σ → Bool}
    (h : ∀ x y, p x = true → q y = true → ¬R y x) :
    rows.filter p ++ rows.filter q = rows.filter fun x => p x || q x := by
  induction rows with
  | nil => rfl
  | cons x rows ih =>
    obtain ⟨hx, hrows⟩ := List.pairwise_cons.1 hrows
    have hrest := ih hrows
    by_cases hp : p x = true
    · have hq : q x ≠ true := fun hq => h x x hp hq (Std.Refl.refl x)
      rw [List.filter_cons_of_pos hp, List.filter_cons_of_neg hq,
        List.filter_cons_of_pos (by rw [hp, Bool.true_or]), List.cons_append, hrest]
    · by_cases hq : q x = true
      · -- after a row of the later selection there is none of the earlier one
        have hnone : rows.filter p = [] :=
          List.filter_eq_nil_iff.2 fun y hy hpy => h y x hpy hq (hx y hy)
        rw [hnone, List.nil_append] at hrest
        rw [List.filter_cons_of_neg hp, hnone, List.nil_append, List.filter_cons_of_pos hq,
          List.filter_cons_of_pos (by rw [hq, Bool.or_true]), hrest]
      · rw [List.filter_cons_of_neg hp, List.filter_cons_of_neg hq, hrest,
          List.filter_cons_of_neg (by rw [Bool.or_eq_true]; tauto)]

theorem flatMap_filter [Std.Refl R] (hrows : rows.Pairwise R) {p : α → σ → Bool}
    {pieces : List α}
    (h : pieces.Pairwise fun a b => ∀ x y, p a x = true → p b y = true → ¬R y x) :
    (pieces.flatMap fun a => rows.filter (p a)) = rows.filter fun x => pieces.any (p · x) := by
  induction pieces with
  | nil => exact (List.filter_eq_nil_iff.2 fun x _ hx => Bool.false_ne_true hx).symm
  | cons a pieces ih =>
    obtain ⟨ha, hpieces⟩ := List.pairwise_cons.1 h
    rw [List.flatMap_cons, ih hpieces, filter_append_filter hrows]
    · rfl
    · intro x y hx hy
      obtain ⟨b, hb, hy⟩ := List.any_eq_true.1 hy
      exact ha b hb x y hx hy

end Sorted

/-! ## Rows of which the first ones are selected -/

section First

variable {rows : List σ} {p : σ → Bool}

theorem not_of_not_head {x : σ} (hx : ∀ y ∈ rows, p y = true → p x = true)
    (hp : ¬p x = true) : ∀ y ∈ x :: rows, ¬p y = true :=
  List.forall_mem_cons.2 ⟨hp, fun y hy hpy => hp (hx y hy hpy)⟩

theorem filter_eq_takeWhile (h : rows.Pairwise fun x y => p y = true → p x = true) :
    rows.filter p = rows.takeWhile p := by
  induction rows with
  | nil => rfl
  | cons x rows ih =>
    obtain ⟨hx, hrows⟩ := List.pairwise_cons.1 h
    by_cases hp : p x = true
    · rw [List.filter_cons_of_pos hp, List.takeWhile_cons_of_pos hp, ih hrows]
    · rw [List.takeWhile_cons_of_neg hp]
      exact List.filter_eq_nil_iff.2 (not_of_not_head hx hp)

theorem getElem_lt_countP (h : rows.Pairwise fun x y => p y = true → p x = true) {i : ℕ}
    (hi : i < rows.length) : p rows[i] = decide (i < rows.countP p) := by
  induction rows generalizing i with
  | nil => exact absurd hi (Nat.not_lt_zero i)
  | cons x rows ih =>
    obtain ⟨hx, hrows⟩ := List.pairwise_cons.1 h
    by_cases hp : p x = true
    · rw [List.countP_cons_of_pos hp]
      cases i with
      | zero => simp [hp]
      | succ i => simpa using ih hrows (Nat.lt_of_succ_lt_succ hi)
    · have hnone := not_of_not_head hx hp
      rw [List.countP_eq_zero.2 hnone]
      simpa using hnone _ (List.getElem_mem hi)

theorem drop_countP (h : rows.Pairwise fun x y => p y = true → p x = true) :
    rows.drop (rows.countP p) = rows.filter fun x => !p x := by
  induction rows with
  | nil => rfl
  | cons x rows ih =>
    obtain ⟨hx, hrows⟩ := List.pairwise_cons.1 h
    by_cases hp : p x = true
    · rw [List.countP_cons_of_pos hp, List.drop_succ_cons, ih hrows,
        List.filter_cons_of_neg (by simpa using hp)]
    · have hnone := not_of_not_head hx hp
      rw [List.countP_eq_zero.2 hnone, List.drop_zero]
      exact (List.filter_eq_self.2 fun y hy => by simpa using hnone y hy).symm

end First

end Coalesce
