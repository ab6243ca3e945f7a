import Mathlib.Data.Nat.ModEq
import Mathlib.Tactic

/-! Unsigned machine arithmetic on natural numbers below `2 ^ w`, and the residues that
free-running counters leave in a table whose size divides the range. -/
namespace Word

def add (w a b : ℕ) : ℕ := (a + b) % 2 ^ w

def sub (w a b : ℕ) : ℕ := (a + (2 ^ w - b % 2 ^ w)) % 2 ^ w

variable {w a b : ℕ}

theorem add_lt (w a b : ℕ) : add w a b < 2 ^ w := Nat.mod_lt _ (Nat.two_pow_pos w)

theorem sub_lt (w a b : ℕ) : sub w a b < 2 ^ w := Nat.mod_lt _ (Nat.two_pow_pos w)

theorem add_of_lt (h : a + b < 2 ^ w) : add w a b = a + b := Nat.mod_eq_of_lt h

theorem sub_of_le (h : b ≤ a) (ha : a < 2 ^ w) : sub w a b = a - b := by
  have hb : b % 2 ^ w = b := Nat.mod_eq_of_lt (by omega)
  rw [sub, hb, show a + (2 ^ w - b) = a - b + 2 ^ w by omega, Nat.add_mod_right,
    Nat.mod_eq_of_lt (by omega)]

theorem sub_add_cancel (ha : a < 2 ^ w) (hb : b < 2 ^ w) : sub w (add w a b) a = b := by
  by_cases h : a + b < 2 ^ w
  · rw [add_of_lt h, sub_of_le (by omega) h]
    omega
  · have hadd : add w a b = a + b - 2 ^ w := by
      rw [add, Nat.mod_eq_sub_mod (by omega), Nat.mod_eq_of_lt (by omega)]
    rw [hadd, sub, Nat.mod_eq_of_lt ha, show a + b - 2 ^ w + (2 ^ w - a) = b by omega,
      Nat.mod_eq_of_lt hb]

theorem add_add (w a b c : ℕ) : add w (add w a b) c = add w a (b + c) := by
  rw [add, add, add, Nat.mod_add_mod, Nat.add_assoc]

theorem add_mod {n : ℕ} (h : n ∣ 2 ^ w) (a b : ℕ) : add w a b % n = (a + b) % n :=
  Nat.mod_mod_of_dvd _ h

theorem mod_ne {n p i j : ℕ} (hij : i < j) (hj : j < i + n) : (p + i) % n ≠ (p + j) % n := by
  intro h
  have hdvd := (Nat.modEq_iff_dvd' (by omega)).mp (show p + i ≡ p + j [MOD n] from h)
  rw [Nat.add_sub_add_left] at hdvd
  exact absurd (Nat.le_of_dvd (by omega) hdvd) (by omega)

end Word
