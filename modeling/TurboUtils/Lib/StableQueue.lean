import Mathlib.Data.List.Basic
import Mathlib.Logic.Function.Basic
import Mathlib.Tactic.Common

/-! Stable priority queues: the elements of a level leave in the order in which they came, those of the
highest level first. -/
namespace StableQueue

variable {α : Type*}

/-- The highest level below `n` that has elements. -/
def highest (q : ℕ → List α) : ℕ → Option ℕ
  | 0 => none
  | n + 1 => if (q n).isEmpty then highest q n else some n

def pop (n : ℕ) (q : ℕ → List α) : Option (α × (ℕ → List α)) :=
  match highest q n with
  | none => none
  | some p =>
      match q p with
      | [] => none
      | x :: rest => some (x, Function.update q p rest)

def pops (n : ℕ) : ℕ → (ℕ → List α) → List α × (ℕ → List α)
  | 0, q => ([], q)
  | k + 1, q =>
      match pop n q with
      | none => ([], q)
      | some (x, q') => (x :: (pops n k q').1, (pops n k q').2)

section Rules

variable {q : ℕ → List α} {n p k m : ℕ}

theorem highest_eq_none : highest q n = none ↔ ∀ p < n, q p = [] := by
  induction n with
  | zero => exact iff_of_true rfl nofun
  | succ n ih =>
    rw [highest]
    split_ifs with hempty
    · rw [ih, Nat.forall_lt_succ_right]
      exact (and_iff_left (List.isEmpty_iff.1 hempty)).symm
    · refine iff_of_false nofun fun hall => hempty ?_
      rw [hall n (Nat.lt_succ_self n)]
      rfl

theorem highest_eq_some : highest q n = some p ↔
    p < n ∧ q p ≠ [] ∧ ∀ p' < n, p < p' → q p' = [] := by
  induction n with
  | zero => exact iff_of_false nofun fun h => absurd h.1 (Nat.not_lt_zero p)
  | succ n ih =>
    rw [highest]
    split_ifs with hempty
    · rw [ih]
      have hn : q n = [] := List.isEmpty_iff.1 hempty
      constructor
      · rintro ⟨hlt, hne, hall⟩
        refine ⟨Nat.lt_succ_of_lt hlt, hne, fun p' hp' hless => ?_⟩
        rcases Nat.lt_succ_iff_lt_or_eq.1 hp' with hbelow | rfl
        · exact hall p' hbelow hless
        · exact hn
      · rintro ⟨hlt, hne, hall⟩
        have hpn : p ≠ n := fun h => hne (h ▸ hn)
        exact ⟨by omega, hne, fun p' hp' => hall p' (Nat.lt_succ_of_lt hp')⟩
    · have hn : q n ≠ [] := fun h => hempty (List.isEmpty_iff.2 h)
      constructor
      · intro h
        obtain rfl := Option.some.inj h
        exact ⟨Nat.lt_succ_self n, hn, fun p' hp' hless => absurd hp' (by omega)⟩
      · rintro ⟨hlt, -, hall⟩
        rcases Nat.lt_succ_iff_lt_or_eq.1 hlt with hbelow | rfl
        · exact absurd (hall n (Nat.lt_succ_self n) hbelow) hn
        · rfl

theorem pop_eq_none : pop n q = none ↔ ∀ p < n, q p = [] := by
  rw [← highest_eq_none, pop]
  cases h : highest q n with
  | none => exact iff_of_true rfl rfl
  | some p =>
    obtain ⟨-, hne, -⟩ := highest_eq_some.1 h
    dsimp only
    cases hp : q p with
    | nil => exact absurd hp hne
    | cons x rest => exact iff_of_false nofun nofun

theorem pop_of_highest (h : highest q n = some p) {x : α} {rest : List α} (hp : q p = x :: rest) :
    pop n q = some (x, Function.update q p rest) := by
  rw [pop, h]
  dsimp only
  rw [hp]

theorem pops_of_empty (h : ∀ p < n, q p = []) (k : ℕ) : pops n k q = ([], q) := by
  cases k with
  | zero => rfl
  | succ k => rw [pops, pop_eq_none.2 h]

theorem pops_add (n k m : ℕ) (q : ℕ → List α) : pops n (k + m) q =
    ((pops n k q).1 ++ (pops n m (pops n k q).2).1, (pops n m (pops n k q).2).2) := by
  induction k generalizing q with
  | zero =>
    rw [Nat.zero_add]
    rfl
  | succ k ih =>
    rw [Nat.succ_add, pops, pops]
    cases hpop : pop n q with
    | none =>
      rw [pops_of_empty (pop_eq_none.1 hpop)]
      rfl
    | some r =>
      dsimp only
      rw [ih]
      rfl

/-- Pops that stay in the highest level. -/
theorem pops_of_highest (h : highest q n = some p) (hk : k ≤ (q p).length) :
    pops n k q = ((q p).take k, Function.update q p ((q p).drop k)) := by
  induction k generalizing q with
  | zero =>
    rw [pops, List.take_zero, List.drop_zero, Function.update_eq_self]
  | succ k ih =>
    obtain ⟨hlt, hne, hall⟩ := highest_eq_some.1 h
    cases hp : q p with
    | nil => exact absurd hp hne
    | cons x rest =>
      rw [hp, List.length_cons] at hk
      rw [pops, pop_of_highest h hp]
      dsimp only
      have hself : Function.update q p rest p = rest := Function.update_self p rest q
      cases k with
      | zero => rfl
      | succ k =>
        have hstill : highest (Function.update q p rest) n = some p := by
          refine highest_eq_some.2 ⟨hlt, ?_, fun p' hp' hless => ?_⟩
          · rw [hself]
            intro hnil
            rw [hnil, List.length_nil] at hk
            omega
          · rw [Function.update_of_ne (Nat.ne_of_gt hless)]
            exact hall p' hp' hless
        rw [ih hstill (by rw [hself]; omega), hself, Function.update_idem]
        rfl

end Rules

/-! ## Runs -/

inductive Operation (α : Type*) where
  | push (p : ℕ) (x : α)
  | pop
  | popBatch (k : ℕ)
  | peek
  | reserve (capacity : ℕ)
  | clear

inductive Outcome (α : Type*) where
  | pushed (ok : Bool)
  | value (x : Option α)
  | values (xs : List α)
  | reserved (ok : Bool)
  | cleared
  deriving DecidableEq

/-- What an operation answers, and the queue that it leaves. Whether memory was reserved is open. -/
inductive Step (n : ℕ) : (ℕ → List α) → Operation α → Outcome α → (ℕ → List α) → Prop
  | push {q : ℕ → List α} {p : ℕ} (x : α) (hp : p < n) :
      Step n q (.push p x) (.pushed true) (Function.update q p (q p ++ [x]))
  | refuse {q : ℕ → List α} {p : ℕ} (x : α) (hp : ¬p < n) : Step n q (.push p x) (.pushed false) q
  | pop (q : ℕ → List α) : Step n q .pop (.value ((StableQueue.pop n q).map Prod.fst))
      (((StableQueue.pop n q).map Prod.snd).getD q)
  | popBatch (q : ℕ → List α) (k : ℕ) : Step n q (.popBatch k) (.values (pops n k q).1) (pops n k q).2
  | peek (q : ℕ → List α) : Step n q .peek (.value ((StableQueue.pop n q).map Prod.fst)) q
  | reserve (q : ℕ → List α) (capacity : ℕ) (ok : Bool) : Step n q (.reserve capacity) (.reserved ok) q
  | clear (q : ℕ → List α) : Step n q .clear .cleared fun _ => []

inductive Runs (n : ℕ) : (ℕ → List α) → List (Operation α × Outcome α) → (ℕ → List α) → Prop
  | nil (q : ℕ → List α) : Runs n q [] q
  | cons {q q' q'' : ℕ → List α} {operation : Operation α} {outcome : Outcome α}
      {log : List (Operation α × Outcome α)} (hstep : Step n q operation outcome q')
      (h : Runs n q' log q'') : Runs n q ((operation, outcome) :: log) q''

end StableQueue
