import Mathlib.Data.List.Basic
import Mathlib.Tactic

/-! Records of what happened to a state: every entry comes with the state as it was at that
moment. A property of a record and a state can be asked of the present and of every moment
on the way there. -/
namespace History

variable {I V : Type*}

/-- `P` holds of the record and the state, and held at every entry of the record of the kind
`Q`. -/
structure Along (Q : I → Prop) (P : List (I × V) → V → Prop) (log : List (I × V)) (v : V) :
    Prop where
  now : P log v
  past : ∀ pre e post, log = pre ++ e :: post → Q e.1 → P pre e.2

variable {Q : I → Prop} {P : List (I × V) → V → Prop} {log : List (I × V)} {v : V}

theorem Along.start (h : P [] v) : Along Q P [] v :=
  ⟨h, fun pre e post heq => absurd heq (by simp)⟩

theorem Along.change (h : Along Q P log v) {v' : V} (hv : P log v') : Along Q P log v' :=
  ⟨hv, h.past⟩

theorem Along.enter (h : Along Q P log v) {i : I} {w v' : V} (hw : Q i → P log w)
    (hv : P (log ++ [(i, w)]) v') : Along Q P (log ++ [(i, w)]) v' := by
  refine ⟨hv, fun pre e post heq hq => ?_⟩
  rcases List.eq_nil_or_concat post with rfl | ⟨post', x, rfl⟩
  · obtain ⟨rfl, he⟩ := List.append_inj' heq rfl
    obtain rfl := List.head_eq_of_cons_eq he
    exact hw hq
  · have hcut : log ++ [(i, w)] = (pre ++ e :: post') ++ [x] := by rw [heq]; simp
    obtain ⟨hlog, -⟩ := List.append_inj' hcut rfl
    exact h.past pre e post' hlog hq

theorem Along.past_map {W : Type*} {f : W → V} {full : List (I × W)}
    (h : Along Q P (full.map fun e => (e.1, f e.2)) v) {pre post : List (I × W)} {i : I} {w : W}
    (heq : full = pre ++ (i, w) :: post) (hq : Q i) :
    P (pre.map fun e => (e.1, f e.2)) (f w) := by
  apply h.past _ (i, f w) (post.map fun e => (e.1, f e.2)) _ hq
  rw [heq]
  simp

def total (f : I → ℕ) (log : List (I × V)) : ℕ := (log.map fun e => f e.1).sum

@[simp] theorem total_nil (f : I → ℕ) : total f ([] : List (I × V)) = 0 := rfl

@[simp] theorem total_append (f : I → ℕ) (a b : List (I × V)) :
    total f (a ++ b) = total f a + total f b := by
  simp [total]

@[simp] theorem total_single (f : I → ℕ) (i : I) (v : V) : total f [(i, v)] = f i := by
  simp [total]

@[simp] theorem total_map {W : Type*} (f : I → ℕ) (g : W → V) (full : List (I × W)) :
    total f (full.map fun e => (e.1, g e.2)) = total f full := by
  simp [total, Function.comp_def]

end History
