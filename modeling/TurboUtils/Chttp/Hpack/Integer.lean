import TurboUtils.Chttp.Hpack.Primitive

/-! Prefix integers against RFC 7541 section 5.1, where an integer has no bound: the reader adds
modulo `2 ^ 32` and only limits the number of groups. -/
namespace Chttp.Hpack

/-! ## The integer of an encoding -/

def septets : Bytes → Option (ℕ × Bytes)
  | [] => none
  | byte :: rest =>
      if byte.toNat < 128 then some (byte.toNat, rest)
      else (septets rest).map fun r => (byte.toNat % 128 + 128 * r.1, r.2)

def rfcInteger (input : Bytes) (prefixBits : ℕ) : Option (ℕ × Bytes) :=
  match input with
  | [] => none
  | byte :: rest =>
      let first := 2 ^ prefixBits - 1
      if byte.toNat % 2 ^ prefixBits < first then some (byte.toNat % 2 ^ prefixBits, rest)
      else (septets rest).map fun r => (first + r.1, r.2)

/-- The reader answers with the integer that is encoded, or not at all. -/
def ReadsExactly (input : Bytes) (prefixBits : ℕ) : Prop :=
  ∀ value rest, hpackGetInt input prefixBits = some (value, rest) →
    rfcInteger input prefixBits = some (value, rest) ∧ value < 2 ^ 32

/-- The encodings with a fifth group that reaches bit 32: the group is 16 or more, or it is 15 and
the groups before it carry into it. -/
def overruns (input : Bytes) (prefixBits : ℕ) : Bool :=
  match input with
  | b₀ :: b₁ :: b₂ :: b₃ :: b₄ :: b₅ :: _ =>
      b₀.toNat % 2 ^ prefixBits = 2 ^ prefixBits - 1 && 128 ≤ b₁.toNat && 128 ≤ b₂.toNat &&
        128 ≤ b₃.toNat && 128 ≤ b₄.toNat && b₅.toNat < 128 &&
        (16 ≤ b₅.toNat || b₅.toNat = 15 && 2 ^ 28 ≤ 2 ^ prefixBits - 1 + (b₁.toNat % 128 +
          128 * (b₂.toNat % 128 + 128 * (b₃.toNat % 128 + 128 * (b₄.toNat % 128)))))
  | _ => false

/-! ## The groups the reader takes -/

/-- At most so many groups. -/
def septetsWithin : ℕ → Bytes → Option (ℕ × Bytes)
  | 0, _ => none
  | _ + 1, [] => none
  | groups + 1, byte :: rest =>
      if byte.toNat < 128 then some (byte.toNat, rest)
      else (septetsWithin groups rest).map fun r => (byte.toNat % 128 + 128 * r.1, r.2)

theorem septets_of_within {groups : ℕ} {input : Bytes} {r : ℕ × Bytes}
    (h : septetsWithin groups input = some r) : septets input = some r := by
  induction groups generalizing input r with
  | zero => cases h
  | succ groups ih =>
    cases input with
    | nil => cases h
    | cons byte rest =>
      rw [septetsWithin] at h
      rw [septets]
      split_ifs at h ⊢ with hlast
      · exact h
      · obtain ⟨r', hr', rfl⟩ := Option.map_eq_some_iff.1 h
        rw [ih hr', Option.map_some]

/-- The reader adds the groups to its value, modulo `2 ^ 32`. -/
theorem getIntLoop_eq {groups : ℕ} (hg : groups ≤ 5) {value : ℕ} (hv : value < 2 ^ 32)
    (input : Bytes) : getIntLoop input (35 - 7 * groups) value =
      (septetsWithin groups input).map fun r =>
        ((value + r.1 * 2 ^ (35 - 7 * groups)) % 2 ^ 32, r.2) := by
  induction groups generalizing value input with
  | zero => cases input <;> simp [getIntLoop, septetsWithin]
  | succ groups ih =>
    cases input with
    | nil => simp [getIntLoop, septetsWithin]
    | cons byte rest =>
      have hshift : 35 - 7 * (groups + 1) + 7 = 35 - 7 * groups := by omega
      have hpow : 2 ^ (35 - 7 * groups) = 2 ^ (35 - 7 * (groups + 1)) * 128 := by
        rw [← hshift, pow_add]
        norm_num
      rw [getIntLoop, if_neg (by omega), septetsWithin]
      split_ifs with hlast
      · rw [Option.map_some, Nat.mod_eq_of_lt hlast]
      · rw [hshift, ih (by omega) (Nat.mod_lt _ (by norm_num)), Option.map_map]
        refine congrArg₂ Option.map (funext fun r => ?_) rfl
        simp only [Function.comp_apply, Prod.mk.injEq, and_true]
        rw [Nat.mod_add_mod, hpow]
        congr 1
        ring

theorem septetsWithin_large {groups : ℕ} {input : Bytes} {n : ℕ} {rest : Bytes}
    (h : septetsWithin (groups + 1) input = some (n, rest)) (hn : 128 ≤ n) :
    ∃ byte tail m, input = byte :: tail ∧ 128 ≤ byte.toNat ∧
      septetsWithin groups tail = some (m, rest) ∧ n = byte.toNat % 128 + 128 * m := by
  cases input with
  | nil => cases h
  | cons byte tail =>
    rw [septetsWithin] at h
    split_ifs at h with hlast
    · cases h
      omega
    · obtain ⟨⟨m, rest'⟩, hm, he⟩ := Option.map_eq_some_iff.1 h
      cases he
      exact ⟨byte, tail, m, rfl, Nat.not_lt.1 hlast, hm, rfl⟩

theorem septetsWithin_one {input : Bytes} {n : ℕ} {rest : Bytes}
    (h : septetsWithin 1 input = some (n, rest)) :
    ∃ byte, input = byte :: rest ∧ byte.toNat < 128 ∧ n = byte.toNat := by
  cases input with
  | nil => cases h
  | cons byte tail =>
    rw [septetsWithin] at h
    split_ifs at h with hlast
    · cases h
      exact ⟨byte, rfl, hlast, rfl⟩
    · cases h

/-! ## What the reader answers -/

theorem hpackGetInt_full {prefixBits : ℕ} (h1 : 1 ≤ prefixBits) (h8 : prefixBits ≤ 8)
    {byte : UInt8} {tail : Bytes} (hfull : byte.toNat % 2 ^ prefixBits = 2 ^ prefixBits - 1) :
    hpackGetInt (byte :: tail) prefixBits = (septetsWithin 5 tail).map fun r =>
      ((2 ^ prefixBits - 1 + r.1) % 2 ^ 32, r.2) := by
  have hpow : 2 ^ prefixBits ≤ 2 ^ 8 := Nat.pow_le_pow_right (by norm_num) h8
  have hloop := getIntLoop_eq (le_refl 5) (show 2 ^ prefixBits - 1 < 2 ^ 32 by omega) tail
  simp only [show 35 - 7 * 5 = 0 by norm_num, pow_zero, mul_one] at hloop
  simp only [hpackGetInt, show ¬(prefixBits < 1 ∨ 8 < prefixBits) by omega, if_false, hfull,
    lt_irrefl, hloop]

/-- The groups reach bit 32 together with the first byte in the listed encodings only. -/
theorem overruns_iff {prefixBits : ℕ} (h8 : prefixBits ≤ 8) {byte : UInt8} {tail : Bytes}
    (hfull : byte.toNat % 2 ^ prefixBits = 2 ^ prefixBits - 1) :
    overruns (byte :: tail) prefixBits = true ↔
      ∃ n rest, septetsWithin 5 tail = some (n, rest) ∧ 2 ^ 32 ≤ 2 ^ prefixBits - 1 + n := by
  have hpow : 2 ^ prefixBits ≤ 2 ^ 8 := Nat.pow_le_pow_right (by norm_num) h8
  constructor
  · intro h
    match tail with
    | b₁ :: b₂ :: b₃ :: b₄ :: b₅ :: rest =>
      simp only [overruns, Bool.and_eq_true, Bool.or_eq_true, decide_eq_true_eq] at h
      obtain ⟨⟨⟨⟨⟨⟨-, h₁⟩, h₂⟩, h₃⟩, h₄⟩, h₅⟩, hlarge⟩ := h
      refine ⟨b₁.toNat % 128 + 128 * (b₂.toNat % 128 + 128 * (b₃.toNat % 128 +
        128 * (b₄.toNat % 128 + 128 * b₅.toNat))), rest, ?_, by omega⟩
      simp only [septetsWithin, if_neg (Nat.not_lt.2 h₁), if_neg (Nat.not_lt.2 h₂),
        if_neg (Nat.not_lt.2 h₃), if_neg (Nat.not_lt.2 h₄), if_pos h₅, Option.map_some]
    | [] | [_] | [_, _] | [_, _, _] | [_, _, _, _] => simp [overruns] at h
  · rintro ⟨n, rest, h, hlarge⟩
    obtain ⟨b₁, tail₁, n₁, rfl, h₁, hw₁, hn⟩ := septetsWithin_large h (by omega)
    obtain ⟨b₂, tail₂, n₂, rfl, h₂, hw₂, hn₁⟩ := septetsWithin_large hw₁ (by omega)
    obtain ⟨b₃, tail₃, n₃, rfl, h₃, hw₃, hn₂⟩ := septetsWithin_large hw₂ (by omega)
    obtain ⟨b₄, tail₄, n₄, rfl, h₄, hw₄, hn₃⟩ := septetsWithin_large hw₃ (by omega)
    obtain ⟨b₅, rfl, h₅, hn₄⟩ := septetsWithin_one hw₄
    simp only [overruns, Bool.and_eq_true, Bool.or_eq_true, decide_eq_true_eq]
    refine ⟨⟨⟨⟨⟨⟨hfull, h₁⟩, h₂⟩, h₃⟩, h₄⟩, h₅⟩, ?_⟩
    omega

/-- What the encoder stores is read back, and a byte input is read as the integer it encodes unless
its fifth group overruns bit 32. -/
theorem prefix_integers_exact_iff {prefixBits : ℕ} (h1 : 1 ≤ prefixBits) (h8 : prefixBits ≤ 8) :
    (∀ b b' value mark, value < 2 ^ 32 → mark % 2 ^ prefixBits = 0 → mark + 2 ^ prefixBits ≤ 256 →
      integerEncode b value prefixBits mark = some b' →
      ∃ bytes, b' = b.append bytes ∧
        ∀ rest, hpackGetInt (bytes ++ rest) prefixBits = some (value, rest)) ∧
    ∀ input, ReadsExactly input prefixBits ↔ overruns input prefixBits = false := by
  constructor
  · intro b b' value mark hv hmark hlt h
    unfold integerEncode at h
    rw [if_neg (by omega)] at h
    dsimp only at h
    split_ifs at h
    cases h
    exact ⟨_, rfl, fun rest => hpackGetInt_integerBytes value prefixBits mark rest h1 h8 hv hmark hlt⟩
  · intro input
    have hpow : 2 ^ prefixBits ≤ 2 ^ 8 := Nat.pow_le_pow_right (by norm_num) h8
    have hpos : 0 < 2 ^ prefixBits := Nat.two_pow_pos _
    cases input with
    | nil =>
      have hnone : hpackGetInt [] prefixBits = none := by simp [hpackGetInt]
      exact ⟨fun _ => rfl, fun _ value rest h => by simp [hnone] at h⟩
    | cons byte tail =>
      by_cases hshort : byte.toNat % 2 ^ prefixBits < 2 ^ prefixBits - 1
      · have hget : hpackGetInt (byte :: tail) prefixBits =
            some (byte.toNat % 2 ^ prefixBits, tail) := by
          rw [hpackGetInt, if_neg (by omega)]
          simp only [if_pos hshort]
        refine ⟨fun _ => ?_, fun _ value rest h => ?_⟩
        · rw [Bool.eq_false_iff]
          intro h
          unfold overruns at h
          split at h
          · simp only [Bool.and_eq_true, decide_eq_true_eq] at h
            rename_i heq
            cases heq
            omega
          · cases h
        · rw [hget] at h
          cases h
          exact ⟨by simp [rfcInteger, hshort], by omega⟩
      · have hfull : byte.toNat % 2 ^ prefixBits = 2 ^ prefixBits - 1 := by
          have := Nat.mod_lt byte.toNat hpos
          omega
        rw [← Bool.not_eq_true, overruns_iff h8 hfull, ReadsExactly, hpackGetInt_full h1 h8 hfull]
        constructor
        · rintro hexact ⟨n, rest, hn, hlarge⟩
          obtain ⟨hrfc, hlt⟩ := hexact _ rest (by rw [hn, Option.map_some])
          simp only [rfcInteger, if_neg hshort, septets_of_within hn, Option.map_some,
            Option.some.injEq, Prod.mk.injEq, and_true] at hrfc
          omega
        · intro hno value rest h
          obtain ⟨⟨n, rest'⟩, hn, he⟩ := Option.map_eq_some_iff.1 h
          cases he
          have hlt : 2 ^ prefixBits - 1 + n < 2 ^ 32 := by
            by_contra hge
            exact hno ⟨n, rest', hn, Nat.not_lt.1 hge⟩
          rw [Nat.mod_eq_of_lt hlt]
          refine ⟨?_, hlt⟩
          simp only [rfcInteger, if_neg hshort, septets_of_within hn, Option.map_some]

theorem prefix_integers_exact_seven :
    ReadsExactly [0x7f, 0x9a, 0x0a] 7 ∧
      hpackGetInt [0x7f, 0x9a, 0x0a] 7 = some (1433, []) :=
  ⟨((prefix_integers_exact_iff (by norm_num) (by norm_num)).2 _).2 (by decide), by decide⟩

/-- The encoding of `2 ^ 32 + 255` is read as 255. -/
theorem prefix_integers_not_exact :
    ¬ ∀ prefixBits input, 1 ≤ prefixBits → prefixBits ≤ 8 → ReadsExactly input prefixBits := by
  intro h
  obtain ⟨hrfc, -⟩ := h 8 [0xff, 0x80, 0x80, 0x80, 0x80, 0x10] (by norm_num) (by norm_num) 255 []
    (by decide)
  exact absurd hrfc (by decide)

end Chttp.Hpack
