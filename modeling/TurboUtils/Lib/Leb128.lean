import Mathlib.Tactic

/-! Canonical unsigned LEB128: a number as bytes of seven bits each, the lowest first, in which all
bytes but the last have their high bit set. -/
namespace Leb128

def encode (n : ℕ) : List UInt8 :=
  if n < 128 then [UInt8.ofNat n] else UInt8.ofNat (n % 128 + 128) :: encode (n / 128)

def Continues (b : UInt8) : Prop := 128 ≤ b.toNat

variable {n k : ℕ} {b : UInt8} {l l' : List UInt8}

theorem encode_of_lt (h : n < 128) : encode n = [UInt8.ofNat n] := by
  rw [encode, if_pos h]

theorem encode_of_le (h : 128 ≤ n) :
    encode n = UInt8.ofNat (n % 128 + 128) :: encode (n / 128) := by
  rw [encode, if_neg (Nat.not_lt_of_le h)]

theorem encode_ne_nil (n : ℕ) : encode n ≠ [] := by
  rw [encode]
  split_ifs <;> simp

theorem encode_toNat (h : ¬Continues b) : encode b.toNat = [b] := by
  rw [encode_of_lt (Nat.lt_of_not_le h), UInt8.ofNat_toNat]

theorem cons_encode (h : Continues b) (hk : 0 < k) :
    b :: encode k = encode (b.toNat - 128 + 128 * k) := by
  unfold Continues at h
  have hb := b.toNat_lt
  have hmod : (b.toNat - 128 + 128 * k) % 128 = b.toNat - 128 := by omega
  have hdiv : (b.toNat - 128 + 128 * k) / 128 = k := by omega
  have hle : 128 ≤ b.toNat - 128 + 128 * k := by omega
  rw [encode_of_le hle, hmod, hdiv, Nat.sub_add_cancel h, UInt8.ofNat_toNat]

theorem continues_ofNat (n : ℕ) : Continues (UInt8.ofNat (n % 128 + 128)) := by
  rw [Continues, UInt8.toNat_ofNat']
  omega

/-- The first byte of a number, and what stands behind it. -/
theorem cons_eq_encode_append {rest : List UInt8} : b :: l = encode n ++ rest ↔
    (¬Continues b ∧ n = b.toNat ∧ l = rest) ∨
      (Continues b ∧ ∃ k, 0 < k ∧ n = b.toNat - 128 + 128 * k ∧ l = encode k ++ rest) := by
  constructor
  · intro h
    by_cases hn : n < 128
    · rw [encode_of_lt hn, List.singleton_append] at h
      obtain ⟨rfl, rfl⟩ := List.cons.inj h
      have hbyte : (UInt8.ofNat n).toNat = n := by
        rw [UInt8.toNat_ofNat']
        omega
      refine .inl ⟨?_, hbyte.symm, rfl⟩
      rw [Continues, hbyte]
      exact Nat.not_le_of_lt hn
    · have hle := Nat.le_of_not_lt hn
      rw [encode_of_le hle, List.cons_append] at h
      obtain ⟨rfl, rfl⟩ := List.cons.inj h
      refine .inr ⟨continues_ofNat n, n / 128, by omega, ?_, rfl⟩
      rw [UInt8.toNat_ofNat']
      omega
  · rintro (⟨hb, rfl, rfl⟩ | ⟨hb, k, hk, rfl, rfl⟩)
    · rw [encode_toNat hb, List.singleton_append]
    · rw [← cons_encode hb hk, List.cons_append]

/-- So many bytes are enough. -/
theorem length_encode_le : (encode n).length ≤ k + 1 ↔ n < 128 ^ (k + 1) := by
  induction k generalizing n with
  | zero =>
    by_cases h : n < 128
    · simp [encode_of_lt h, h]
    · have hne := List.length_pos_of_ne_nil (encode_ne_nil (n / 128))
      rw [encode_of_le (Nat.le_of_not_lt h), List.length_cons]
      constructor <;> omega
  | succ k ih =>
    have hpow : 128 ^ (k + 1 + 1) = 128 * 128 ^ (k + 1) := by ring
    by_cases h : n < 128
    · have hpos : 0 < 128 ^ (k + 1) := by positivity
      rw [encode_of_lt h, List.length_singleton, hpow]
      constructor <;> omega
    · rw [encode_of_le (Nat.le_of_not_lt h), List.length_cons, Nat.add_le_add_iff_right, ih, hpow,
        Nat.div_lt_iff_lt_mul (by decide), Nat.mul_comm]

theorem continues_of_encode_append (h : encode n = l ++ l') (hl' : l' ≠ []) :
    ∀ b ∈ l, Continues b := by
  induction l generalizing n with
  | nil => exact fun _ hb => absurd hb List.not_mem_nil
  | cons b l ih =>
    by_cases hn : n < 128
    · rw [encode_of_lt hn, List.cons_append] at h
      exact absurd (List.append_eq_nil_iff.1 (List.cons.inj h).2.symm).2 hl'
    · have hle := Nat.le_of_not_lt hn
      rw [encode_of_le hle, List.cons_append] at h
      obtain ⟨rfl, hrest⟩ := List.cons.inj h
      exact List.forall_mem_cons.2 ⟨continues_ofNat n, ih hrest⟩

theorem append_encode (h : ∀ b ∈ l, Continues b) (hk : 0 < k) :
    ∃ m, 0 < m ∧ m < (k + 1) * 128 ^ l.length ∧ l ++ encode k = encode m := by
  induction l with
  | nil => exact ⟨k, hk, by simp, rfl⟩
  | cons b l ih =>
    obtain ⟨hb, hl⟩ := List.forall_mem_cons.1 h
    obtain ⟨m, hm, hlt, heq⟩ := ih hl
    refine ⟨b.toNat - 128 + 128 * m, by omega, ?_, ?_⟩
    · have hbyte := b.toNat_lt
      have hpow : (k + 1) * 128 ^ (b :: l).length = 128 * ((k + 1) * 128 ^ l.length) := by
        rw [List.length_cons, Nat.pow_succ]
        ring
      omega
    · rw [List.cons_append, heq, cons_encode hb hm]

end Leb128
