import TurboUtils.Chttp.Hpack.HuffmanStrings

/-! String literals read back after they were written. A literal that carries the Huffman code of a
nonempty string is not read back: its H flag stands behind the length. -/
namespace Chttp.Hpack

/-! ## No string is its own code -/

set_option maxRecDepth 8000 in
theorem symbolBits_high {c : UInt8} (hc : 128 ≤ c.toNat) :
    List.replicate 8 true <+: symbolBits c := by
  have hall : ∀ n < 256, 128 ≤ n →
      (List.replicate 8 true).isPrefixOf (huffCodes.getD n []) = true := by decide
  exact List.isPrefixOf_iff_prefix.1 (hall c.toNat c.toNat_lt hc)

set_option maxRecDepth 8000 in
theorem symbolBits_five (c : UInt8) : 5 ≤ (symbolBits c).length := by
  have hall : ∀ n < 256, 5 ≤ (huffCodes.getD n []).length := by decide
  exact hall c.toNat c.toNat_lt

theorem flatMap_symbolBits_five (s : Bytes) : 5 * s.length ≤ (s.flatMap symbolBits).length := by
  induction s with
  | nil => rfl
  | cons c s ih =>
    have := symbolBits_five c
    rw [List.flatMap_cons, List.length_append, List.length_cons]
    omega

def selfCoded : Bytes :=
  [0xff, 0xff, 0xfb, 0xbf, 0xff, 0xfe, 0xef, 0xff, 0xff, 0xdb,
    0xff, 0xff, 0xc7, 0xff, 0xff, 0xee, 0xff, 0xff, 0xfe, 0x1f]

set_option maxRecDepth 8000 in
theorem selfCoded_next : ∀ k < 20, 0 < k →
    (selfCoded.take (k + 1)).flatMap byteBits <+: (selfCoded.take k).flatMap symbolBits := by
  have hall : ∀ k < 20, 0 < k → ((selfCoded.take (k + 1)).flatMap byteBits).isPrefixOf
      ((selfCoded.take k).flatMap symbolBits) = true := by decide
  exact fun k hk h0 => List.isPrefixOf_iff_prefix.1 (hall k hk h0)

set_option maxRecDepth 8000 in
theorem selfCoded_bits : (selfCoded.flatMap symbolBits).length = 518 := by
  decide

/-- Bytes are equal when the bits of the one are the first bits of the other. -/
theorem take_of_bits {s w : Bytes} (h : w.flatMap byteBits <+: s.flatMap byteBits) :
    w.length ≤ s.length ∧ s.take w.length = w := by
  have hlen := h.length_le
  simp only [flatMap_byteBits_length] at hlen
  have hle : w.length ≤ s.length := by omega
  have htake : (s.take w.length).flatMap byteBits <+: s.flatMap byteBits := by
    conv_rhs => rw [← List.take_append_drop w.length s, List.flatMap_append]
    exact List.prefix_append _ _
  have hbits : (s.take w.length).flatMap byteBits = w.flatMap byteBits := by
    refine (List.prefix_of_prefix_length_le htake h ?_).eq_of_length ?_ <;>
      simp only [flatMap_byteBits_length, List.length_take] <;> omega
  refine ⟨hle, ?_⟩
  have hpack := congrArg (packBits w.length) hbits
  rw [packBits_flatMap] at hpack
  have hs := packBits_flatMap (s.take w.length)
  rw [List.length_take, Nat.min_eq_left hle] at hs
  rw [← hs, hpack]

/-- A string that is its own code follows `selfCoded`. -/
theorem take_selfCoded {s : Bytes} (hs : huffEncode s = s) (h0 : s.take 1 = [0xff]) :
    ∀ k < 20, k + 1 ≤ s.length ∧ s.take (k + 1) = selfCoded.take (k + 1) := by
  have hbits := flatMap_huffEncode s
  rw [hs, huffEncodeBits_eq] at hbits
  intro k hk
  induction k with
  | zero =>
    refine ⟨?_, h0⟩
    have := congrArg List.length h0
    rw [List.length_take, List.length_singleton] at this
    omega
  | succ k ih =>
    obtain ⟨-, hsame⟩ := ih (by omega)
    have hnext : (selfCoded.take (k + 1 + 1)).flatMap byteBits <+: s.flatMap byteBits := by
      refine (selfCoded_next (k + 1) hk (by omega)).trans ?_
      rw [← hsame, hbits]
      refine List.IsPrefix.trans ?_ (List.prefix_append _ _)
      conv_rhs => rw [← List.take_append_drop (k + 1) s, List.flatMap_append]
      exact List.prefix_append _ _
    have hlen : (selfCoded.take (k + 1 + 1)).length = k + 1 + 1 := by
      rw [List.length_take]
      exact Nat.min_eq_left hk
    have := take_of_bits hnext
    rwa [hlen] at this

theorem huffEncode_ne_self {s : Bytes} (hlen : s.length < 127) (h0 : s.take 1 = [0xff]) :
    huffEncode s ≠ s := by
  intro hs
  obtain ⟨hle, hsame⟩ := take_selfCoded hs h0 19 (by norm_num)
  have hbits := congrArg List.length (flatMap_huffEncode s)
  rw [hs, flatMap_byteBits_length, huffEncodeBits_eq, List.length_append,
    ← List.take_append_drop 20 s, hsame, List.flatMap_append, List.length_append,
    List.length_append, List.take_of_length_le (by decide), selfCoded_bits] at hbits
  have hrest := flatMap_symbolBits_five (s.drop 20)
  have hself : selfCoded.length = 20 := rfl
  rw [List.length_drop] at hrest hbits
  omega

/-! ## The literal -/

theorem huffEncode_length (s : Bytes) : 5 * s.length ≤ 8 * (huffEncode s).length := by
  have hbits := congrArg List.length (flatMap_huffEncode s)
  rw [flatMap_byteBits_length, huffEncodeBits_eq, List.length_append] at hbits
  have := flatMap_symbolBits_five s
  omega

theorem huffmanLiteral_nil : huffmanLiteral [] = [0] := by
  decide

theorem huffEncode_high {c d : UInt8} {s ds : Bytes} (hc : 128 ≤ c.toNat)
    (h : huffEncode (c :: s) = d :: ds) : d = 0xff := by
  have hbits := flatMap_huffEncode (c :: s)
  rw [h, huffEncodeBits_eq, List.flatMap_cons, List.flatMap_cons, List.append_assoc] at hbits
  have hones : List.replicate 8 true <+: byteBits d ++ ds.flatMap byteBits :=
    hbits ▸ (symbolBits_high hc).trans (List.prefix_append _ _)
  have hd : List.replicate 8 true = byteBits d :=
    (List.prefix_of_prefix_length_le hones (List.prefix_append _ _)
      (by rw [byteBits_length]; rfl)).eq_of_length (by rw [byteBits_length]; rfl)
  rw [← bitsToByte_byteBits d, ← hd]
  rfl

/-- A nonempty string is not its code with the flag in the first byte. -/
theorem huffEncode_flag_ne {s : Bytes} (hs : s ≠ []) (hlen : s.length < 127) :
    (huffEncode s).modifyHead (· ||| 0x80) ≠ s := by
  intro hsame
  obtain ⟨c, s, rfl⟩ := List.exists_cons_of_ne_nil hs
  cases hcode : huffEncode (c :: s) with
  | nil =>
    rw [hcode] at hsame
    cases hsame
  | cons d ds =>
    rw [hcode, List.modifyHead_cons] at hsame
    obtain ⟨hc, hds⟩ := List.cons.inj hsame
    have hhigh : 128 ≤ c.toNat := by
      rw [← hc, UInt8.toNat_or]
      exact Nat.right_le_or
    obtain rfl := huffEncode_high hhigh hcode
    refine huffEncode_ne_self hlen ?_ (hcode.trans ?_)
    · rw [← hc]
      rfl
    · rw [← hc, hds]
      rfl

theorem huffmanLiteral_eq (s : Bytes) : huffmanLiteral s =
    integerBytes ((huffEncode s).length % 2 ^ 32) 7 0 ++ ((0 :: huffEncode s).drop
      (integerBytes ((huffEncode s).length % 2 ^ 32) 7 0).length).modifyHead (· ||| 0x80) := by
  dsimp only [huffmanLiteral]
  rw [List.modify_eq_take_drop, List.take_left, List.drop_left]

theorem hpackGetString_flagless (t : HuffTree) {max n : ℕ} (hn : n < 2 ^ 32) {tail : Bytes}
    {r : Bytes × Bytes} (h : hpackGetString t max (integerBytes n 7 0 ++ tail) = some r) :
    n ≤ tail.length ∧ r = (tail.take n, tail.drop n) := by
  obtain ⟨b, bs, hb, -, hlow⟩ := integerBytes_head n 7 0 (by norm_num)
  have hint := hpackGetInt_integerBytes n 7 0 tail (by norm_num) (by norm_num) hn (by norm_num)
    (by norm_num)
  rw [hb, List.cons_append] at hint h
  simp only [hpackGetString, hint] at h
  split_ifs at h with hshort hbig hflag
  · omega
  · exact ⟨Nat.not_lt.1 hshort, (Option.some.inj h).symm⟩

/-- The Huffman literal of a nonempty string is not read back. -/
theorem huffmanLiteral_lost (t : HuffTree) {max : ℕ} {s : Bytes} (hs : s ≠ []) (rest : Bytes) :
    hpackGetString t max (huffmanLiteral s ++ rest) ≠ some (s, rest) := by
  intro h
  have hmod : (huffEncode s).length % 2 ^ 32 < 2 ^ 32 := Nat.mod_lt _ (by norm_num)
  have hle := Nat.mod_le (huffEncode s).length (2 ^ 32)
  rw [huffmanLiteral_eq, List.append_assoc] at h
  obtain ⟨hroom, hr⟩ := hpackGetString_flagless t hmod h
  obtain ⟨hs', hrest⟩ := Prod.mk.inj hr
  have hpos := List.length_pos_iff.2 hs
  have hcode := huffEncode_length s
  have hlen := congrArg List.length hrest
  rw [List.length_drop] at hlen
  rw [List.length_append, List.length_modifyHead, List.length_drop, List.length_cons] at hroom hlen
  by_cases hshort : (huffEncode s).length % 2 ^ 32 < 127
  · -- The code is read as the string, with the flag in its first byte.
    have hone : integerBytes ((huffEncode s).length % 2 ^ 32) 7 0 =
        [UInt8.ofNat ((huffEncode s).length % 2 ^ 32)] := by
      rw [integerBytes]
      simp only [show (huffEncode s).length % 2 ^ 32 < 2 ^ 7 - 1 from hshort, if_true, zero_add]
    rw [hone, List.length_singleton] at hlen
    have hexact : (huffEncode s).length % 2 ^ 32 = (huffEncode s).length := by omega
    rw [hone, List.length_singleton, List.drop_succ_cons, List.drop_zero, hexact,
      List.take_left' List.length_modifyHead] at hs'
    refine huffEncode_flag_ne hs ?_ hs'.symm
    have hsame := congrArg List.length hs'
    rw [List.length_modifyHead] at hsame
    omega
  · -- The length runs into the code, and the reader goes past the end of the literal.
    have htwo : 2 ≤ (integerBytes ((huffEncode s).length % 2 ^ 32) 7 0).length := by
      have := continuationBytes_length 4 ((huffEncode s).length % 2 ^ 32 - (2 ^ 7 - 1))
      rw [integerBytes]
      simp only [show ¬(huffEncode s).length % 2 ^ 32 < 2 ^ 7 - 1 from hshort, if_false,
        List.length_cons]
      omega
    have hsix := integerBytes_length ((huffEncode s).length % 2 ^ 32) 7 0
    omega

/-! ## Both encodings -/

theorem hpackPutString_huffman {b b' : Buffer} {s : Bytes}
    (h : hpackPutString b s true = some b') : b' = b.append (huffmanLiteral s) := by
  unfold hpackPutString at h
  rw [if_pos rfl] at h
  split_ifs at h
  exact (Option.some.inj h).symm

/-- What a literal appends is read back with the position just past it exactly when it was written
raw or is empty. -/
theorem string_literals_read_back_iff {b b' : Buffer} {s : Bytes} {huffman : Bool} {max : ℕ}
    (h : hpackPutString b s huffman = some b') (hm : s.length ≤ max) :
    ∃ bytes, b' = b.append bytes ∧ ∀ rest,
      (hpackGetString huffTreeBuild max (bytes ++ rest) = some (s, rest) ↔
        huffman = false ∨ s = []) := by
  cases huffman with
  | false =>
    obtain ⟨hb, hlen⟩ := hpackPutString_raw h
    exact ⟨_, hb, fun rest => iff_of_true (hpackGetString_raw _ rest hlen hm) (Or.inl rfl)⟩
  | true =>
    refine ⟨_, hpackPutString_huffman h, fun rest => ?_⟩
    by_cases hs : s = []
    · subst hs
      rw [huffmanLiteral_nil]
      exact iff_of_true (hpackGetString_raw _ rest (by norm_num) hm) (Or.inr rfl)
    · exact iff_of_false (huffmanLiteral_lost _ hs rest) (by simp [hs])

theorem string_literals_read_back_example : ∃ bytes,
    (⟨[], 64⟩ : Buffer).append [1, 0x9f] = (⟨[], 64⟩ : Buffer).append bytes ∧ ∀ rest,
      (hpackGetString huffTreeBuild 64 (bytes ++ rest) = some (ascii "a", rest) ↔
        true = false ∨ ascii "a" = []) :=
  string_literals_read_back_iff (by decide) (by decide)

/-- A one-letter string with the Huffman flag is written as 01 9f and read as the byte 9f. -/
theorem string_literals_not_read_back :
    ¬∀ (b b' : Buffer) (s : Bytes) (huffman : Bool) (max : ℕ), s.length ≤ max →
      hpackPutString b s huffman = some b' → ∀ bytes, b' = b.append bytes →
        hpackGetString huffTreeBuild max bytes = some (s, []) := by
  intro hall
  have := hall ⟨[], 64⟩ ⟨[1, 0x9f], 64⟩ (ascii "a") true 64 (by decide) (by decide)
    [1, 0x9f] rfl
  revert this
  decide

end Chttp.Hpack
