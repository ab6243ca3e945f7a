import Mathlib.Data.List.Basic
import Mathlib.Tactic

/-! Reducing a list with an operation that may fail, and reducing it in chunks. -/
namespace PartialReduce

variable {α : Type*} (op : α → α → Option α)

def reduce : List α → Option α
  | [] => none
  | a :: rest => rest.foldlM op a

/-- Both ways to combine three values fail together, or have one result. -/
def Associative : Prop := ∀ a b c, (op a b).bind (op · c) = (op b c).bind (op a)

variable {op} {a b : α} {l l' : List α}

theorem foldlM_append (a : α) (l l' : List α) :
    (l ++ l').foldlM op a = (l.foldlM op a).bind (l'.foldlM op ·) :=
  List.foldlM_append

/-- What stands in front of a list may be combined before or after the list. -/
theorem Associative.foldlM_op (h : Associative op) (a b : α) (l : List α) :
    (op a b).bind (l.foldlM op ·) = (l.foldlM op b).bind (op a) := by
  induction l generalizing b with
  | nil =>
    calc (op a b).bind (([] : List α).foldlM op ·) = op a b := Option.bind_fun_some _
      _ = (([] : List α).foldlM op b).bind (op a) := rfl
  | cons c l ih =>
    calc (op a b).bind ((c :: l).foldlM op ·)
        = ((op a b).bind (op · c)).bind (l.foldlM op ·) := by
          rw [Option.bind_assoc]
          rfl
      _ = ((op b c).bind (op a)).bind (l.foldlM op ·) := by rw [h]
      _ = (op b c).bind fun d => (l.foldlM op d).bind (op a) := by
          rw [Option.bind_assoc]
          exact congrArg _ (funext ih)
      _ = ((c :: l).foldlM op b).bind (op a) := by
          rw [List.foldlM_cons, ← Option.bind_assoc]
          rfl

theorem Associative.reduce_append (h : Associative op) (hl : l ≠ []) (hl' : l' ≠ []) :
    reduce op (l ++ l') = (reduce op l).bind fun a => (reduce op l').bind (op a) := by
  obtain ⟨a, rest, rfl⟩ := List.exists_cons_of_ne_nil hl
  obtain ⟨b, rest', rfl⟩ := List.exists_cons_of_ne_nil hl'
  calc reduce op (a :: rest ++ b :: rest')
      = (rest.foldlM op a).bind ((b :: rest').foldlM op ·) := foldlM_append a rest _
    _ = (rest.foldlM op a).bind fun c => (op c b).bind (rest'.foldlM op ·) := rfl
    _ = (rest.foldlM op a).bind fun c => (rest'.foldlM op b).bind (op c) :=
        congrArg _ (funext fun c => h.foldlM_op c b rest')

theorem mapM_eq_of_getElem {β : Type*} {f : α → Option β} {results : ℕ → β}
    (h : ∀ i (hi : i < l.length), f l[i] = some (results i)) :
    l.mapM f = some ((List.range l.length).map results) := by
  induction l generalizing results with
  | nil => rfl
  | cons a l ih =>
    have hfirst := h 0 (Nat.succ_pos _)
    have hrest := ih fun i hi => h (i + 1) (Nat.succ_lt_succ hi)
    rw [List.getElem_cons_zero] at hfirst
    rw [List.mapM_cons, hfirst, hrest, List.length_cons, List.range_succ_eq_map, List.map_cons,
      List.map_map]
    rfl

/-- The results of all chunks, reduced, are the result of the whole list. -/
theorem Associative.reduce_flatten (h : Associative op) {chunks : List (List α)}
    (hchunks : ∀ chunk ∈ chunks, chunk ≠ []) :
    (chunks.mapM (reduce op)).bind (reduce op) = reduce op chunks.flatten := by
  induction chunks with
  | nil => rfl
  | cons chunk rest ih =>
    obtain ⟨hchunk, hrest⟩ := List.forall_mem_cons.1 hchunks
    have hmap : ((chunk :: rest).mapM (reduce op)).bind (reduce op) =
        (reduce op chunk).bind fun a => (rest.mapM (reduce op)).bind (List.foldlM op a) := by
      rw [List.mapM_cons]
      cases reduce op chunk with
      | none => rfl
      | some a => cases rest.mapM (reduce op) <;> rfl
    rw [hmap, List.flatten_cons]
    cases hcases : rest with
    | nil =>
      rw [List.flatten_nil, List.append_nil]
      exact Option.bind_fun_some _
    | cons second rest' =>
      have hne : rest.flatten ≠ [] := by
        rw [hcases, List.flatten_cons]
        have hsecond := hrest second (hcases ▸ List.mem_cons_self)
        simp [hsecond]
      rw [← hcases, h.reduce_append hchunk hne, ← ih hrest]
      refine congrArg _ (funext fun a => ?_)
      rw [Option.bind_assoc]
      refine Option.bind_congr fun results hresults => ?_
      -- There is a result for each chunk, so there is one at least.
      have hlength : results ≠ [] := by
        rintro rfl
        rw [hcases, List.mapM_cons] at hresults
        cases hsecond : reduce op second with
        | none => rw [hsecond] at hresults; cases hresults
        | some b =>
          rw [hsecond] at hresults
          cases hmore : rest'.mapM (reduce op) <;> rw [hmore] at hresults <;> cases hresults
      obtain ⟨b, more, rfl⟩ := List.exists_cons_of_ne_nil hlength
      exact h.foldlM_op a b more

end PartialReduce
