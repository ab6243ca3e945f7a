import TurboUtils.Cstl.Btree.Refinement
import TurboUtils.Cstl.Hash.Refinement

/-! Hash maps and B-trees of the same keys cannot be told apart by their answers. -/
namespace Cstl

open BoundedMap (Op FMap)

variable {K V : Type*} {t : Hash.KeyTraits K}

theorem specRun_op [inst : DecidableEq t.Key] (limit : ℕ) (f : FMap t.Key V) (ops : List (Op K V)) :
    Hash.specRun t limit f (ops.map .op) =
      @BoundedMap.run t.Key V inst limit f (ops.map (Hash.absOp t)) := by
  obtain rfl : inst = Hash.instDecidableEqKey t := Subsingleton.elim _ _
  induction ops generalizing f with
  | nil => rfl
  | cons op ops ih => exact congrArg (List.cons _) (ih _)

/-- A hash map that gets its memory and a B-tree of any degree, whose comparison tells apart what the
equality of the map does, have the same answers to every sequence of calls. -/
theorem containers_answer_alike [LinearOrder t.Key] (alloc : ℕ → Bool) {minDegree : ℕ}
    (hdegree : 2 ≤ minDegree) (limit : ℕ) (ops : List (Op K V))
    (halloc : ∀ x ∈ Hash.run t alloc (Hash.init K V limit) (ops.map .op), x.2 ≠ none) :
    (Hash.run t alloc (Hash.init K V limit) (ops.map .op)).map Prod.snd =
      ((Btree.init t.Key V minDegree limit).run (ops.map (Hash.absOp t))).map fun x => some x.2 := by
  have hhash := Hash.run_matches (Hash.freshTable_ok (m := Hash.init K V limit) (.inl rfl)) alloc _ halloc
  have htree := Btree.run_agrees (Btree.ok_init (K := t.Key) (V := V) hdegree limit)
    (ops.map (Hash.absOp t))
  -- Both runs answer as the bounded map does.
  have hleft := List.forall₂_map_left_iff.2 (List.forall₂_map_right_iff.2
    (hhash.imp fun _ y (h : Hash.Matches t _ _ y) => h.answer_eq))
  have hright := List.forall₂_map_left_iff.2 (List.forall₂_map_right_iff.2
    (htree.imp fun _ y (h : Btree.Agrees _ y) => congrArg some h.1))
  rw [List.forall₂_eq_eq_eq] at hleft hright
  have hspec := @specRun_op K V t LinearOrder.toDecidableEq limit ∅ ops
  exact (hleft.trans (congrArg (List.map _) hspec)).trans hright.symm

instance natKeysOrder : LinearOrder Hash.natKeys.Key :=
  .lift' (Quotient.lift id fun _ _ => eq_of_beq) fun x y =>
    Quotient.inductionOn₂ x y fun _ _ h => Quotient.sound (beq_iff_eq.2 h)

theorem containers_answer_alike_nat :
    (Hash.run Hash.natKeys (fun _ => true) (Hash.init ℕ ℕ 2)
      ([.put 1 10, .put 17 20, .put 33 30, .remove 1, .get 17].map .op)).map Prod.snd =
    ((Btree.init Hash.natKeys.Key ℕ 2 2).run ([.put 1 10, .put 17 20, .put 33 30, .remove 1,
      .get 17].map (Hash.absOp Hash.natKeys))).map fun x => some x.2 :=
  containers_answer_alike _ le_rfl 2 _ (by decide)

end Cstl
