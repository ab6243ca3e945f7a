import TurboUtils.Lib.Leb128

/-! The varints of LTV messages: `ltv_decode_varint` accepts the canonical encodings of the values
below `2 ^ 32`. -/
namespace Ltv

open Leb128 (Continues)

def maxVarintBytes : ℕ := 5

/-- `ltv_varint_size`. -/
def varintSize (value : ℕ) : ℕ :=
  if value < 2 ^ 7 then 1
  else if value < 2 ^ 14 then 2
  else if value < 2 ^ 21 then 3
  else if value < 2 ^ 28 then 4
  else 5

/-- What `ltv_decode_varint` returns, with the value that it stores. -/
inductive Varint where
  | needMore
  | malformed
  | decoded (value size : ℕ)
  deriving DecidableEq

/-- The loop of `ltv_decode_varint`, of `len` bytes, from the byte `i` on. No shift overflows: the
fifth byte has at most four bits. -/
def decodeLoop (len i result : ℕ) : List UInt8 → Varint
  | [] => if maxVarintBytes ≤ len then .malformed else .needMore
  | byte :: rest =>
      if i < maxVarintBytes then
        if i = maxVarintBytes - 1 ∧ byte &&& 0xF0 ≠ 0 then .malformed
        else
          let result := result ||| (byte &&& 0x7F).toNat <<< (7 * i)
          if byte &&& 0x80 = 0 then
            if varintSize result ≠ i + 1 then .malformed else .decoded result (i + 1)
          else decodeLoop len (i + 1) result rest
      else if maxVarintBytes ≤ len then .malformed else .needMore

/-- `ltv_decode_varint`. -/
def decodeVarint (data : List UInt8) : Varint :=
  if data.isEmpty then .needMore else decodeLoop data.length 0 0 data

/-- `ltv_encode_varint`. -/
def encodeVarint (value : ℕ) : List UInt8 :=
  if value < 0x80 then [UInt8.ofNat value]
  else UInt8.ofNat (value ||| 0x80) :: encodeVarint (value >>> 7)
termination_by value
decreasing_by
  rw [Nat.shiftRight_eq_div_pow]
  omega

/-! ## Bits -/

section Bits

variable {b : UInt8}

instance (b : UInt8) : Decidable (Continues b) := inferInstanceAs (Decidable (128 ≤ b.toNat))

theorem forall_byte {P : UInt8 → Prop} (h : ∀ n : Fin 256, P (UInt8.ofFin n)) (b : UInt8) : P b :=
  h b.toFin

set_option maxRecDepth 4000 in
theorem and_0x80 (b : UInt8) : b &&& 0x80 = 0 ↔ ¬Continues b :=
  forall_byte (P := fun b => b &&& 0x80 = 0 ↔ ¬Continues b) (by decide) b

set_option maxRecDepth 4000 in
theorem and_0xF0 (b : UInt8) : b &&& 0xF0 ≠ 0 ↔ 16 ≤ b.toNat :=
  forall_byte (P := fun b => b &&& 0xF0 ≠ 0 ↔ 16 ≤ b.toNat) (by decide) b

set_option maxRecDepth 4000 in
theorem and_0x7F (b : UInt8) : (b &&& 0x7F).toNat = b.toNat % 128 :=
  forall_byte (P := fun b => (b &&& 0x7F).toNat = b.toNat % 128) (by decide) b

set_option maxRecDepth 4000 in
theorem ofNat_or_0x80 (n : ℕ) : UInt8.ofNat (n ||| 0x80) = UInt8.ofNat (n % 128 + 128) := by
  have hbyte : ∀ m : Fin 256, m.val ||| 128 = m.val % 128 + 128 := by decide
  have hmod : (n ||| 0x80) % 2 ^ 8 = n % 128 + 128 := by
    rw [Nat.or_mod_two_pow]
    have hlow := hbyte ⟨n % 256, Nat.mod_lt n (by decide)⟩
    dsimp only at hlow
    rw [Nat.mod_mod_of_dvd n (by decide : 128 ∣ 256)] at hlow
    exact hlow
  apply UInt8.toNat_inj.1
  rw [UInt8.toNat_ofNat', UInt8.toNat_ofNat', hmod]
  omega

end Bits

theorem encodeVarint_eq (value : ℕ) : encodeVarint value = Leb128.encode value := by
  induction value using Nat.strongRecOn with
  | ind value ih =>
    rw [encodeVarint]
    split_ifs with h
    · exact (Leb128.encode_of_lt h).symm
    · have hle : 128 ≤ value := Nat.le_of_not_lt h
      have hshift : value >>> 7 = value / 128 := Nat.shiftRight_eq_div_pow value 7
      rw [Leb128.encode_of_le hle, ofNat_or_0x80, hshift, ih _ (by omega)]

/-! ## Decoding -/

theorem varintSize_eq_iff {value i : ℕ} (hi : i < 5) (hvalue : value < 2 ^ 32) :
    varintSize value = i + 1 ↔ value < 128 ^ (i + 1) ∧ (i = 0 ∨ 128 ^ i ≤ value) := by
  unfold varintSize
  interval_cases i <;> norm_num <;> split_ifs <;> omega

theorem or_shift {result i n : ℕ} (h : result < 128 ^ i) :
    result ||| n <<< (7 * i) = result + n * 128 ^ i := by
  have hpow : (128 : ℕ) ^ i = 2 ^ (7 * i) := by rw [Nat.pow_mul]
  rw [hpow] at h ⊢
  rw [Nat.shiftLeft_eq, Nat.or_comm, Nat.mul_comm n, ← Nat.two_pow_add_eq_or_of_lt h, Nat.add_comm]

section Loop

variable {len i result value size : ℕ} {byte : UInt8} {data : List UInt8}

theorem decodeLoop_continues (hi : i < 4) (hresult : result < 128 ^ i) (hbyte : Continues byte) :
    decodeLoop len i result (byte :: data) =
      decodeLoop len (i + 1) (result + (byte.toNat - 128) * 128 ^ i) data := by
  have hmod : byte.toNat % 128 = byte.toNat - 128 := by
    have hlt := byte.toNat_lt
    unfold Continues at hbyte
    omega
  have hmore : ¬byte &&& 0x80 = 0 := by rwa [and_0x80, not_not]
  rw [decodeLoop, if_pos (show i < maxVarintBytes by unfold maxVarintBytes; omega),
    if_neg (fun h => by have h4 := h.1; unfold maxVarintBytes at h4; omega)]
  dsimp only
  rw [if_neg hmore, and_0x7F, hmod, or_shift hresult]

theorem decodeLoop_fifth (hbyte : Continues byte) :
    decodeLoop len 4 result (byte :: data) = .malformed := by
  have hhigh : 16 ≤ byte.toNat := le_trans (by decide) hbyte
  rw [decodeLoop, if_pos (by decide), if_pos ⟨rfl, (and_0xF0 byte).2 hhigh⟩]

/-- The last byte, if it is the only one or is not zero. -/
theorem decodeLoop_last (hi : i < 5) (hresult : result < 128 ^ i) (hbyte : ¬Continues byte) :
    decodeLoop len i result (byte :: data) =
      if result + byte.toNat * 128 ^ i < 2 ^ 32 ∧ (i = 0 ∨ 0 < byte.toNat) then
        .decoded (result + byte.toNat * 128 ^ i) (i + 1)
      else .malformed := by
  unfold Continues at hbyte
  have hmod : byte.toNat % 128 = byte.toNat := Nat.mod_eq_of_lt (Nat.lt_of_not_le hbyte)
  rw [decodeLoop, if_pos (show i < maxVarintBytes from hi)]
  dsimp only
  rw [if_pos ((and_0x80 byte).2 hbyte), and_0x7F, hmod, or_shift hresult]
  by_cases hhigh : i = maxVarintBytes - 1 ∧ byte &&& 0xF0 ≠ 0
  · have hlarge := (and_0xF0 byte).1 hhigh.2
    have hfour : i = 4 := hhigh.1
    rw [if_pos hhigh, if_neg (by rw [hfour]; omega)]
  · rw [if_neg hhigh]
    rw [and_0xF0, show maxVarintBytes - 1 = 4 from rfl] at hhigh
    have hvalue : result + byte.toNat * 128 ^ i < 2 ^ 32 := by
      interval_cases i <;> norm_num at * <;> omega
    have hcanonical : (i = 0 ∨ 0 < byte.toNat) ↔ varintSize (result + byte.toNat * 128 ^ i) = i + 1 := by
      rw [varintSize_eq_iff hi hvalue]
      interval_cases i <;> norm_num at * <;> omega
    by_cases h : i = 0 ∨ 0 < byte.toNat
    · rw [if_neg (not_not.2 (hcanonical.1 h)), if_pos ⟨hvalue, h⟩]
    · rw [if_pos (fun heq => h (hcanonical.2 heq)), if_neg fun hand => h hand.2]

/-- From the byte `i` on, the loop accepts a number that is canonical behind the bits there are. -/
theorem decodeLoop_decoded (hi : i ≤ 4) (hresult : result < 128 ^ i) :
    decodeLoop len i result data = .decoded value size ↔
      ∃ high rest, data = Leb128.encode high ++ rest ∧ value = result + high * 128 ^ i ∧
        size = i + (Leb128.encode high).length ∧ value < 2 ^ 32 ∧ (0 < i → 0 < high) := by
  induction data generalizing i result with
  | nil =>
    have hnone : ∀ high rest, [] ≠ Leb128.encode high ++ rest := fun high rest h =>
      Leb128.encode_ne_nil high (List.append_eq_nil_iff.1 h.symm).1
    rw [decodeLoop]
    split_ifs <;> simp [hnone]
  | cons byte data ih =>
    simp only [Leb128.cons_eq_encode_append]
    by_cases hbyte : Continues byte
    · rcases Nat.lt_or_eq_of_le hi with hlt | rfl
      · have hbound : result + (byte.toNat - 128) * 128 ^ i < 128 ^ (i + 1) := by
          have hbyteLt := byte.toNat_lt
          have hstep : (byte.toNat - 128) * 128 ^ i ≤ 127 * 128 ^ i :=
            Nat.mul_le_mul_right _ (by omega)
          rw [Nat.pow_succ]
          omega
        have hvalue : ∀ high, result + (byte.toNat - 128) * 128 ^ i + high * 128 ^ (i + 1) =
            result + (byte.toNat - 128 + 128 * high) * 128 ^ i := fun high => by ring
        rw [decodeLoop_continues hlt hresult hbyte, ih hlt hbound]
        constructor
        · rintro ⟨high, rest, rfl, rfl, rfl, hlt32, hpos⟩
          refine ⟨byte.toNat - 128 + 128 * high, rest, .inr ⟨hbyte, high, hpos (Nat.succ_pos i), rfl,
            rfl⟩, hvalue high, ?_, hlt32, fun _ => by have := hpos (Nat.succ_pos i); omega⟩
          rw [← Leb128.cons_encode hbyte (hpos (Nat.succ_pos i)), List.length_cons]
          omega
        · rintro ⟨high, rest, ⟨hlast, -⟩ | ⟨-, k, hk, rfl, rfl⟩, rfl, rfl, hlt32, -⟩
          · exact absurd hbyte hlast
          · refine ⟨k, rest, rfl, (hvalue k).symm, ?_, hlt32, fun _ => hk⟩
            rw [← Leb128.cons_encode hbyte hk, List.length_cons]
            omega
      · -- A fifth byte that continues makes the value too large.
        rw [decodeLoop_fifth hbyte]
        refine ⟨fun h => (by cases h), ?_⟩
        rintro ⟨high, rest, ⟨hlast, -⟩ | ⟨-, k, hk, rfl, -⟩, rfl, -, hlt32, -⟩
        · exact absurd hbyte hlast
        · omega
    · rw [decodeLoop_last (Nat.lt_succ_of_le hi) hresult hbyte]
      constructor
      · intro h
        split_ifs at h with hok
        cases h
        refine ⟨byte.toNat, data, .inl ⟨hbyte, rfl, rfl⟩, rfl, ?_, hok.1, fun hpos => by omega⟩
        rw [Leb128.encode_toNat hbyte]
        rfl
      · rintro ⟨high, rest, ⟨-, rfl, rfl⟩ | ⟨hcontinues, -⟩, rfl, rfl, hlt, hpos⟩
        · rw [if_pos ⟨hlt, by omega⟩, Leb128.encode_toNat hbyte]
          rfl
        · exact absurd hcontinues hbyte

/-- More bytes are needed as long as there are fewer than five, and all of them continue. -/
theorem decodeLoop_needMore (hi : i ≤ 4) (hresult : result < 128 ^ i)
    (hlen : len = i + data.length) :
    decodeLoop len i result data = .needMore ↔ len < 5 ∧ ∀ b ∈ data, Continues b := by
  induction data generalizing i result with
  | nil =>
    have hlt : ¬maxVarintBytes ≤ len := by
      rw [hlen, List.length_nil]
      unfold maxVarintBytes
      omega
    rw [decodeLoop, if_neg hlt]
    exact ⟨fun _ => ⟨Nat.lt_of_not_le hlt, fun _ hb => absurd hb List.not_mem_nil⟩, fun _ => rfl⟩
  | cons byte data ih =>
    rw [List.length_cons] at hlen
    rw [List.forall_mem_cons]
    by_cases hbyte : Continues byte
    · rcases Nat.lt_or_eq_of_le hi with hlt | rfl
      · have hbound : result + (byte.toNat - 128) * 128 ^ i < 128 ^ (i + 1) := by
          have hbyteLt := byte.toNat_lt
          have hstep : (byte.toNat - 128) * 128 ^ i ≤ 127 * 128 ^ i :=
            Nat.mul_le_mul_right _ (by omega)
          rw [Nat.pow_succ]
          omega
        rw [decodeLoop_continues hlt hresult hbyte, ih hlt hbound (by omega)]
        simp [hbyte]
      · rw [decodeLoop_fifth hbyte]
        refine ⟨fun h => (by cases h), fun h => ?_⟩
        omega
    · rw [decodeLoop_last (Nat.lt_succ_of_le hi) hresult hbyte]
      refine ⟨fun h => ?_, fun h => absurd h.2.1 hbyte⟩
      split_ifs at h

end Loop

/-- The decoder accepts the canonical encodings of the values below `2 ^ 32`. -/
theorem decodeVarint_decoded {data : List UInt8} {value size : ℕ} :
    decodeVarint data = .decoded value size ↔ value < 2 ^ 32 ∧
      ∃ rest, data = encodeVarint value ++ rest ∧ size = (encodeVarint value).length := by
  unfold decodeVarint
  rw [encodeVarint_eq]
  split_ifs with hempty
  · rw [List.isEmpty_iff] at hempty
    rw [hempty]
    refine ⟨fun h => (by cases h), fun ⟨_, rest, hnil, _⟩ => ?_⟩
    exact absurd (List.append_eq_nil_iff.1 hnil.symm).1 (Leb128.encode_ne_nil value)
  · rw [decodeLoop_decoded (Nat.zero_le 4) (Nat.one_pos)]
    simp only [Nat.zero_add, Nat.pow_zero, Nat.mul_one]
    constructor
    · rintro ⟨high, rest, hdata, rfl, rfl, hlt, -⟩
      exact ⟨hlt, rest, hdata, rfl⟩
    · rintro ⟨hlt, rest, hdata, rfl⟩
      exact ⟨value, rest, hdata, rfl, rfl, hlt, fun h => absurd h (Nat.lt_irrefl 0)⟩

theorem decodeVarint_encode {value : ℕ} (h : value < 2 ^ 32) (rest : List UInt8) :
    decodeVarint (encodeVarint value ++ rest) = .decoded value (encodeVarint value).length :=
  decodeVarint_decoded.2 ⟨h, rest, rfl, rfl⟩

theorem decodeVarint_needMore {data : List UInt8} :
    decodeVarint data = .needMore ↔ data.length < 5 ∧ ∀ b ∈ data, Continues b := by
  unfold decodeVarint
  split_ifs with hempty
  · rw [List.isEmpty_iff] at hempty
    rw [hempty]
    exact ⟨fun _ => ⟨by decide, fun _ hb => absurd hb List.not_mem_nil⟩, fun _ => rfl⟩
  · exact decodeLoop_needMore (Nat.zero_le 4) Nat.one_pos (Nat.zero_add _).symm

/-- That is: as long as the bytes are the beginning of an encoding. -/
theorem decodeVarint_needMore_iff {data : List UInt8} : decodeVarint data = .needMore ↔
    ∃ value < 2 ^ 32, ∃ rest, rest ≠ [] ∧ encodeVarint value = data ++ rest := by
  rw [decodeVarint_needMore]
  constructor
  · rintro ⟨hlength, hcontinues⟩
    obtain ⟨m, -, hlt, hm⟩ := Leb128.append_encode hcontinues Nat.one_pos
    refine ⟨m, ?_, Leb128.encode 1, Leb128.encode_ne_nil 1, (encodeVarint_eq m).trans hm.symm⟩
    calc m < (1 + 1) * 128 ^ data.length := hlt
      _ ≤ (1 + 1) * 128 ^ 4 := Nat.mul_le_mul_left _ (Nat.pow_le_pow_right (by decide) (by omega))
      _ < 2 ^ 32 := by decide
  · rintro ⟨value, hlt, rest, hrest, heq⟩
    rw [encodeVarint_eq] at heq
    refine ⟨?_, Leb128.continues_of_encode_append heq hrest⟩
    have hlength := (Leb128.length_encode_le (n := value) (k := 4)).2 (by omega)
    rw [heq, List.length_append] at hlength
    have hpos := List.length_pos_of_ne_nil hrest
    omega

end Ltv
