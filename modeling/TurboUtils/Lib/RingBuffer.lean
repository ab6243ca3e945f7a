import Mathlib.Data.List.Basic
import Mathlib.Data.List.Range
import Mathlib.Data.Nat.ModEq
import Mathlib.Tactic.Common

/-! The runs of a bounded double-ended queue: a list with a limit. -/
namespace BoundedDeque

inductive Operation (α : Type*) where
  | pushBack (x : α)
  | pushFront (x : α)
  | popBack
  | popFront
  | set (index : ℕ) (x : α)
  | reserve (capacity : ℕ)
  | clear

/-- What an operation comes to; it starves for want of memory. -/
inductive Outcome (α : Type*) where
  | done (out : Option α)
  | refused
  | starved
  deriving DecidableEq, Repr

variable {α : Type*}

def perform (limit : ℕ) (xs : List α) : Operation α → Option (List α × Option α)
  | .pushBack x => if xs.length < limit then some (xs ++ [x], none) else none
  | .pushFront x => if xs.length < limit then some (x :: xs, none) else none
  | .popBack => xs.getLast?.map fun x => (xs.dropLast, some x)
  | .popFront => xs.head?.map fun x => (xs.tail, some x)
  | .set index x => if index < xs.length then some (xs.set index x, none) else none
  | .reserve capacity => if capacity ≤ limit then some (xs, none) else none
  | .clear => some ([], none)

inductive Runs (limit : ℕ) : List α → List (Operation α × Outcome α) → List α → Prop
  | nil (xs : List α) : Runs limit xs [] xs
  | done {xs ys zs : List α} {out : Option α} {operation : Operation α}
      {log : List (Operation α × Outcome α)} (hperform : perform limit xs operation = some (ys, out))
      (h : Runs limit ys log zs) : Runs limit xs ((operation, .done out) :: log) zs
  | refused {xs zs : List α} {operation : Operation α} {log : List (Operation α × Outcome α)}
      (hperform : perform limit xs operation = none) (h : Runs limit xs log zs) :
      Runs limit xs ((operation, .refused) :: log) zs
  | starved {xs zs : List α} {operation : Operation α} {log : List (Operation α × Outcome α)}
      (h : Runs limit xs log zs) : Runs limit xs ((operation, .starved) :: log) zs

end BoundedDeque

/-! Ring buffers: a window of an array that goes round at the end. -/
namespace RingBuffer

variable {α : Type*}

def slot (capacity head i : ℕ) : ℕ := (head + i) % capacity

variable {capacity head n i j : ℕ}

theorem slot_lt (h : 0 < capacity) (i : ℕ) : slot capacity head i < capacity := Nat.mod_lt _ h

theorem slot_zero (h : head < capacity) : slot capacity head 0 = head := Nat.mod_eq_of_lt h

theorem slot_inj (hi : i < capacity) (hj : j < capacity)
    (h : slot capacity head i = slot capacity head j) : i = j := by
  have hmod : i ≡ j [MOD capacity] := Nat.ModEq.add_left_cancel' head h
  exact hmod.eq_of_lt_of_lt hi hj

theorem slot_slot (i j : ℕ) : slot capacity (slot capacity head i) j = slot capacity head (i + j) := by
  unfold slot
  rw [Nat.mod_add_mod, Nat.add_assoc]

theorem slot_pred (h : head < capacity) :
    slot capacity (if head = 0 then capacity - 1 else head - 1) 1 = head := by
  unfold slot
  split_ifs with hzero
  · rw [Nat.sub_add_cancel (Nat.zero_lt_of_lt h), Nat.mod_self, hzero]
  · rw [Nat.sub_add_cancel (Nat.pos_of_ne_zero hzero), Nat.mod_eq_of_lt h]

def window (f : ℕ → α) (capacity head n : ℕ) : List α :=
  (List.range n).map fun i => f (slot capacity head i)

variable {f g : ℕ → α}

@[simp] theorem length_window : (window f capacity head n).length = n := by simp [window]

theorem getElem?_window :
    (window f capacity head n)[i]? = if i < n then some (f (slot capacity head i)) else none := by
  unfold window
  rw [List.getElem?_map]
  split_ifs with hi
  · rw [List.getElem?_range hi]
    rfl
  · rw [List.getElem?_eq_none (by rw [List.length_range]; exact not_lt.1 hi)]
    rfl

theorem window_congr (h : ∀ i < n, g (slot capacity head i) = f (slot capacity head i)) :
    window g capacity head n = window f capacity head n :=
  List.map_congr_left fun i hi => h i (List.mem_range.1 hi)

theorem window_frame (hn : n < capacity) (h : ∀ k, k ≠ slot capacity head n → g k = f k) :
    window g capacity head n = window f capacity head n :=
  window_congr fun _ hi => h _ fun heq => hi.ne (slot_inj (hi.trans hn) hn heq)

theorem window_succ : window f capacity head (n + 1) =
    window f capacity head n ++ [f (slot capacity head n)] := by
  simp [window, List.range_succ]

theorem window_cons : window f capacity head (n + 1) =
    f (slot capacity head 0) :: window f capacity (slot capacity head 1) n := by
  unfold window
  rw [List.range_succ_eq_map, List.map_cons, List.map_map]
  congr 2
  funext i
  rw [slot_slot, Nat.add_comm 1 i]
  rfl

theorem window_pushBack (hn : n < capacity) (x : α) :
    window (Function.update f (slot capacity head n) x) capacity head (n + 1) =
      window f capacity head n ++ [x] := by
  rw [window_succ, Function.update_self, window_frame hn]
  exact fun k hk => Function.update_of_ne hk _ _

theorem window_pushFront {front : ℕ} (hfront : front < capacity) (hn : n < capacity)
    (hhead : slot capacity front 1 = head) (x : α) :
    window (Function.update f front x) capacity front (n + 1) = x :: window f capacity head n := by
  rw [window_cons, slot_zero hfront, Function.update_self, hhead]
  congr 1
  refine window_congr fun i hi => Function.update_of_ne (fun heq => ?_) _ _
  rw [← hhead, slot_slot] at heq
  have hwrap : slot capacity front (1 + i) = slot capacity front 0 := heq.trans (slot_zero hfront).symm
  exact absurd (slot_inj (by omega) (by omega) hwrap) (by omega)

theorem window_set (hi : i < n) (hn : n ≤ capacity) (x : α) :
    window (Function.update f (slot capacity head i) x) capacity head n =
      (window f capacity head n).set i x := by
  refine List.ext_getElem? fun k => ?_
  rw [getElem?_window, List.getElem?_set, length_window, getElem?_window]
  by_cases hk : k < n
  · by_cases heq : i = k
    · rw [if_pos hk, if_pos heq, ← heq, if_pos hi, Function.update_self]
    · have hne : slot capacity head k ≠ slot capacity head i := fun h =>
        heq (slot_inj (hk.trans_le hn) (hi.trans_le hn) h).symm
      rw [if_pos hk, if_neg heq, if_pos hk, Function.update_of_ne hne]
  · have hne : i ≠ k := by omega
    rw [if_neg hk, if_neg hne, if_neg hk]

end RingBuffer
