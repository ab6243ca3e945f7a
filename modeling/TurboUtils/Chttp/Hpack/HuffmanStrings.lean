import TurboUtils.Chttp.Hpack.Huffman

/-! The Huffman decoder on whole strings: it returns a string exactly for the string's code with its
padding. -/
namespace Chttp.Hpack

/-! ## Bits and bytes -/

theorem byteBits_length (b : UInt8) : (byteBits b).length = 8 := by simp [byteBits]

theorem byteBits_bitsToByte {bits : List Bool} (h : bits.length = 8) :
    byteBits (bitsToByte bits) = bits := by
  match bits with
  | [b₀, b₁, b₂, b₃, b₄, b₅, b₆, b₇] =>
    revert b₀ b₁ b₂ b₃ b₄ b₅ b₆ b₇
    decide

set_option maxRecDepth 4000 in
theorem bitsToByte_byteBits (b : UInt8) : bitsToByte (byteBits b) = b := by
  have hall : ∀ n < 256, bitsToByte (byteBits (UInt8.ofNat n)) = UInt8.ofNat n := by decide
  have := hall b.toNat b.toNat_lt
  rwa [UInt8.ofNat_toNat] at this

theorem packBits_flatMap (input : Bytes) :
    packBits input.length (input.flatMap byteBits) = input := by
  induction input with
  | nil => rfl
  | cons b input ih =>
    rw [List.length_cons, packBits, List.flatMap_cons, List.take_left' (byteBits_length b),
      List.drop_left' (byteBits_length b), bitsToByte_byteBits, ih]

theorem flatMap_packBits {n : ℕ} {bits : List Bool} (h : bits.length = 8 * n) :
    (packBits n bits).flatMap byteBits = bits := by
  induction n generalizing bits with
  | zero =>
    have hnil : bits = [] := List.length_eq_zero_iff.1 (by omega)
    rw [packBits, List.flatMap_nil, hnil]
  | succ n ih =>
    rw [packBits, List.flatMap_cons, byteBits_bitsToByte (by simp; omega),
      ih (by simp; omega), List.take_append_drop]

theorem flatMap_byteBits_length (input : Bytes) :
    (input.flatMap byteBits).length = 8 * input.length := by
  rw [List.length_flatMap]
  simp [byteBits_length, Nat.mul_comm]

/-! ## The code of a string -/

def symbolBits (c : UInt8) : List Bool := huffCodes.getD c.toNat []

theorem symbolBits_eq (c : UInt8) : huffCodes[c.toNat]? = some (symbolBits c) := by
  have hc : c.toNat < huffCodes.length := by
    have := c.toNat_lt
    rw [huffCodes_length]
    omega
  rw [symbolBits, List.getD_eq_getElem _ _ hc, List.getElem?_eq_getElem hc]

theorem huffEncodeBits_eq (s : Bytes) : huffEncodeBits s = s.flatMap symbolBits ++
    List.replicate ((8 - (s.flatMap symbolBits).length % 8) % 8) true := by
  have hrow : (fun c : UInt8 => (List.range (huffSym.getD c.toNat ⟨0, 0⟩).nbits).map
      (codeBit (huffSym.getD c.toNat ⟨0, 0⟩).code)) = symbolBits := by
    funext c
    have := symbolBits_eq c
    rw [huffCodes, List.getElem?_map, Option.map_eq_some_iff] at this
    obtain ⟨row, hrow, hbits⟩ := this
    rw [← hbits, List.getD_eq_getElem?_getD, hrow]
    rfl
  simp only [huffEncodeBits, hrow]

theorem huffEncodeBits_length (s : Bytes) :
    (huffEncodeBits s).length = 8 * ((huffEncodeBits s).length / 8) := by
  rw [huffEncodeBits_eq, List.length_append, List.length_replicate]
  omega

theorem flatMap_huffEncode (s : Bytes) : (huffEncode s).flatMap byteBits = huffEncodeBits s :=
  flatMap_packBits (huffEncodeBits_length s)

theorem eq_huffEncode {input s : Bytes} (h : input.flatMap byteBits = huffEncodeBits s) :
    input = huffEncode s := by
  have hlen := flatMap_byteBits_length input
  rw [huffEncode, ← h, hlen, Nat.mul_div_cancel_left _ (by norm_num), packBits_flatMap]

/-! ## One bit -/

def HuffState.Placed (s : HuffState) : Prop := huffTreeBuild.walk 0 s.pad = some s.node

theorem huffDecodeBit_inner {max : ℕ} {s : HuffState} (hs : s.Placed) {bit : Bool} {i : ℕ}
    (hw : huffTreeBuild.walk 0 (s.pad ++ [bit]) = some i)
    (hsym : (huffTreeBuild.node i).sym < 0) :
    huffDecodeBit huffTreeBuild max s bit = some { s with node := i, pad := s.pad ++ [bit] } := by
  rw [HuffTree.walk_append, hs, Option.bind_some, HuffTree.walk] at hw
  split_ifs at hw with hneg
  cases hw
  rw [huffDecodeBit]
  simp only [if_neg hneg, if_pos hsym]

theorem huffDecodeBit_symbol {max : ℕ} {s : HuffState} (hs : s.Placed) {bit : Bool} {i k : ℕ}
    (hw : huffTreeBuild.walk 0 (s.pad ++ [bit]) = some i)
    (hsym : (huffTreeBuild.node i).sym = k) (hk : k ≠ 256) :
    huffDecodeBit huffTreeBuild max s bit =
      (huffGrow max s).map fun cap => ⟨0, [], s.out ++ [UInt8.ofNat k], cap⟩ := by
  rw [HuffTree.walk_append, hs, Option.bind_some, HuffTree.walk] at hw
  split_ifs at hw with hneg
  cases hw
  rw [huffDecodeBit]
  simp only [if_neg hneg, hsym, if_neg (show ¬((k : ℤ) < 0) by omega),
    if_neg (show ¬((k : ℤ) = 256) by omega), Int.toNat_natCast]
  cases huffGrow max s <;> rfl

/-- What a bit that is accepted adds: it continues a code, or it ends the code of a byte. -/
theorem huffDecodeBit_some {max : ℕ} {s s' : HuffState} (hs : s.Placed) {bit : Bool}
    (h : huffDecodeBit huffTreeBuild max s bit = some s') :
    s'.Placed ∧ s'.out.flatMap symbolBits ++ s'.pad =
      s.out.flatMap symbolBits ++ s.pad ++ [bit] := by
  obtain ⟨path, hcodes⟩ := huffTreeBuild_codes
  rw [huffDecodeBit] at h
  simp only at h
  split_ifs at h with hneg hsym heos
  · have hw : huffTreeBuild.walk 0 (s.pad ++ [bit]) =
        some ((huffTreeBuild.node s.node).child bit).toNat := by
      rw [HuffTree.walk_append, hs, Option.bind_some, HuffTree.walk, if_neg hneg]
      rfl
    cases h
    exact ⟨hw, (List.append_assoc _ _ _).symm⟩
  · have hw : huffTreeBuild.walk 0 (s.pad ++ [bit]) =
        some ((huffTreeBuild.node s.node).child bit).toNat := by
      rw [HuffTree.walk_append, hs, Option.bind_some, HuffTree.walk, if_neg hneg]
      rfl
    have hcode := hcodes.sym_code hw (Int.not_lt.1 hsym)
    split at h
    · cases h
    · cases h
      refine ⟨rfl, ?_⟩
      have hlt := (List.getElem?_eq_some_iff.1 hcode).1
      rw [huffCodes_length] at hlt
      have hbits := symbolBits_eq (UInt8.ofNat (huffTreeBuild.node
        ((huffTreeBuild.node s.node).child bit).toNat).sym.toNat)
      rw [UInt8.toNat_ofNat', Nat.mod_eq_of_lt (by omega), hcode, Option.some_inj] at hbits
      simp only [List.flatMap_append, List.flatMap_singleton, ← hbits, List.append_nil,
        List.append_assoc]

theorem huffDecodeBits_some {max : ℕ} {bits : List Bool} {s s' : HuffState} (hs : s.Placed)
    (h : bits.foldlM (huffDecodeBit huffTreeBuild max) s = some s') :
    s'.out.flatMap symbolBits ++ s'.pad = s.out.flatMap symbolBits ++ s.pad ++ bits := by
  induction bits generalizing s with
  | nil =>
    cases h
    rw [List.append_nil]
  | cons bit bits ih =>
    rw [List.foldlM_cons, Option.bind_eq_bind, Option.bind_eq_some_iff] at h
    obtain ⟨mid, hmid, hrest⟩ := h
    obtain ⟨hplaced, hsame⟩ := huffDecodeBit_some hs hmid
    rw [ih hplaced hrest, hsame, List.append_assoc _ [bit], List.singleton_append]

/-! ## One symbol -/

theorem walk_inner {k : ℕ} {code bits : List Bool} (hk : huffCodes[k]? = some code)
    (hp : bits <+: code) (hne : bits ≠ code) :
    ∃ i, huffTreeBuild.walk 0 bits = some i ∧ (huffTreeBuild.node i).sym < 0 := by
  obtain ⟨path, hcodes⟩ := huffTreeBuild_codes
  obtain ⟨j, hj, -⟩ := hcodes.found k code hk
  obtain ⟨more, rfl⟩ := hp
  rw [HuffTree.walk_append, Option.bind_eq_some_iff] at hj
  obtain ⟨i, hi, -⟩ := hj
  refine ⟨i, hi, ?_⟩
  by_contra hsym
  have hother := hcodes.sym_code hi (Int.not_lt.1 hsym)
  have hsame := huffCodes_prefix_free hother hk (List.prefix_append bits more)
  rw [hsame, hk, Option.some_inj] at hother
  exact hne hother.symm

/-- The bits of a beginning of a code are kept. -/
theorem huffDecodeBits_inner (max : ℕ) {k : ℕ} {code : List Bool}
    (hk : huffCodes[k]? = some code) :
    ∀ (bits : List Bool) (s : HuffState), s.Placed → s.pad ++ bits <+: code →
      s.pad ++ bits ≠ code →
      ∃ i, bits.foldlM (huffDecodeBit huffTreeBuild max) s =
          some { s with node := i, pad := s.pad ++ bits } ∧
        HuffState.Placed { s with node := i, pad := s.pad ++ bits }
  | [], s, hs, _, _ => ⟨s.node, by simp, by simpa using hs⟩
  | bit :: bits, s, hs, hp, hne => by
    have hfirst : s.pad ++ [bit] <+: s.pad ++ bit :: bits :=
      (List.prefix_append_right_inj _).2 (by simp)
    have hinner : s.pad ++ [bit] ≠ code := by
      rintro rfl
      exact hne (hp.eq_of_length_le hfirst.length_le)
    obtain ⟨i, hi, hsym⟩ := walk_inner hk (hfirst.trans hp) hinner
    rw [List.foldlM_cons, huffDecodeBit_inner hs hi hsym, Option.bind_eq_bind, Option.bind_some]
    have hcons : s.pad ++ bit :: bits = s.pad ++ [bit] ++ bits := by
      rw [List.append_assoc, List.singleton_append]
    rw [hcons] at hp hne ⊢
    exact huffDecodeBits_inner max hk bits { s with node := i, pad := s.pad ++ [bit] } hi hp hne

theorem huffGrow_some {max : ℕ} {s : HuffState} (h0 : 0 < s.outCap) (hm : s.outCap ≤ max)
    (hlt : s.out.length < max) : ∃ cap, huffGrow max s = some cap ∧ 0 < cap ∧ cap ≤ max := by
  unfold huffGrow
  by_cases hfull : s.out.length ≥ s.outCap
  · rw [if_pos hfull]
    dsimp only
    by_cases hhalf : s.outCap > max / 2
    · rw [if_pos hhalf, if_neg (by omega)]
      exact ⟨max, rfl, by omega, le_rfl⟩
    · rw [if_neg hhalf, if_neg (by omega)]
      exact ⟨s.outCap * 2, rfl, by omega, by omega⟩
  · rw [if_neg hfull]
    exact ⟨s.outCap, rfl, h0, hm⟩

theorem symbolBits_ne_nil (c : UInt8) : symbolBits c ≠ [] := by
  have hc := symbolBits_eq c
  rw [huffCodes, List.getElem?_map, Option.map_eq_some_iff] at hc
  obtain ⟨row, hrow, hbits⟩ := hc
  intro hnil
  have := congrArg List.length (hbits.trans hnil)
  have := (huffSym_bounded row (List.mem_of_getElem? hrow)).1
  simp [HuffSym.bits] at *
  omega

/-- The code of a byte is decoded to the byte. -/
theorem huffDecodeBits_symbol {max : ℕ} {s : HuffState} (c : UInt8) (hpad : s.pad = [])
    (hs : s.Placed) (h0 : 0 < s.outCap) (hm : s.outCap ≤ max) (hlt : s.out.length < max) :
    ∃ cap, (symbolBits c).foldlM (huffDecodeBit huffTreeBuild max) s =
        some ⟨0, [], s.out ++ [c], cap⟩ ∧ 0 < cap ∧ cap ≤ max := by
  obtain ⟨path, hcodes⟩ := huffTreeBuild_codes
  obtain ⟨init, last, hcode⟩ := (List.eq_nil_or_concat' _).resolve_left (symbolBits_ne_nil c)
  have hk := symbolBits_eq c
  obtain ⟨i, hi, hsym⟩ := hcodes.found _ _ hk
  rw [hcode] at hk hi ⊢
  obtain ⟨j, hj, hplaced⟩ := huffDecodeBits_inner max hk init s hs
    (by simp [hpad]) (by simp [hpad])
  simp only [hpad, List.nil_append] at hj hplaced
  have hgrow : huffGrow max { s with node := j, pad := init } = huffGrow max s := rfl
  obtain ⟨cap, hcap, hpos, hle⟩ := huffGrow_some h0 hm hlt
  refine ⟨cap, ?_, hpos, hle⟩
  rw [List.foldlM_append, hj, Option.bind_eq_bind, Option.bind_some, List.foldlM_cons,
    huffDecodeBit_symbol hplaced hi hsym (by have := c.toNat_lt; omega), hgrow, hcap,
    UInt8.ofNat_toNat]
  rfl

/-- The codes of a string are decoded to the string. -/
theorem huffDecodeBits_string {max : ℕ} : ∀ (str : Bytes) (s : HuffState), s.pad = [] → s.Placed →
    0 < s.outCap → s.outCap ≤ max → s.out.length + str.length ≤ max →
    ∃ cap, (str.flatMap symbolBits).foldlM (huffDecodeBit huffTreeBuild max) s =
      some ⟨0, [], s.out ++ str, cap⟩
  | [], s, hpad, hs, _, _, _ => by
    obtain ⟨node, pad, out, cap⟩ := s
    obtain rfl : pad = [] := hpad
    obtain rfl : 0 = node := Option.some.inj hs
    exact ⟨cap, by simp⟩
  | c :: str, s, hpad, hs, h0, hm, hlen => by
    rw [List.length_cons] at hlen
    obtain ⟨cap, hc, hpos, hle⟩ := huffDecodeBits_symbol c hpad hs h0 hm (by omega)
    obtain ⟨cap', hrest⟩ := huffDecodeBits_string str
      ⟨0, [], s.out ++ [c], cap⟩ rfl rfl hpos hle (by simp; omega)
    refine ⟨cap', ?_⟩
    rw [List.flatMap_cons, List.foldlM_append, hc, Option.bind_eq_bind, Option.bind_some, hrest]
    simp

/-! ## The decoder -/

theorem huffCodes_eos : huffCodes[256]? = some (List.replicate 30 true) := by
  decide

/-- The decoder returns a string for its padded code, and for nothing else. An input above the
bound on its length is longer than any array in memory. -/
theorem huffman_decodes_exactly {max : ℕ} (h0 : 0 < max) :
    (∀ s : Bytes, s.length ≤ max → (huffEncode s).length ≤ max →
      (huffEncode s).length ≤ (sizeMax - 16) / 2 →
      hpackHuffDecode huffTreeBuild max (huffEncode s) = some s) ∧
    ∀ input s, hpackHuffDecode huffTreeBuild max input = some s → input = huffEncode s := by
  constructor
  · intro s hs henc hmem
    have hcap : 0 < min ((huffEncode s).length * 2 + 16) max := by omega
    obtain ⟨cap, hbits⟩ := huffDecodeBits_string s
      ⟨0, [], [], min ((huffEncode s).length * 2 + 16) max⟩ rfl rfl hcap
      (Nat.min_le_right _ _) (by simpa using hs)
    have hpad : (8 - (s.flatMap symbolBits).length % 8) % 8 < 8 := Nat.mod_lt _ (by norm_num)
    obtain ⟨i, hones, -⟩ := huffDecodeBits_inner max huffCodes_eos
      (List.replicate ((8 - (s.flatMap symbolBits).length % 8) % 8) true) ⟨0, [], s, cap⟩ rfl
      ⟨List.replicate (30 - (8 - (s.flatMap symbolBits).length % 8) % 8) true, by
        rw [List.nil_append, List.replicate_append_replicate]
        congr 1
        omega⟩
      (fun h => by
        have := congrArg List.length h
        simp at this
        omega)
    rw [hpackHuffDecode, if_neg (by omega)]
    simp only [if_neg hcap.ne', flatMap_huffEncode, huffEncodeBits_eq, List.foldlM_append, hbits,
      Option.bind_eq_bind, Option.bind_some]
    rw [List.nil_append, hones]
    simp only [List.nil_append, List.length_replicate]
    rw [if_neg]
    simp
    omega
  · intro input s h
    rw [hpackHuffDecode] at h
    split_ifs at h with hlong
    dsimp only at h
    split_ifs at h with hcap
    split at h
    · cases h
    · rename_i s' hs'
      split_ifs at h with hpad
      cases h
      have hbits := huffDecodeBits_some (s := ⟨0, [], [], _⟩) rfl hs'
      simp only [List.flatMap_nil, List.nil_append] at hbits
      apply eq_huffEncode
      simp only [not_or, not_lt, Bool.not_eq_true, List.any_eq_false, Bool.not_eq_true'] at hpad
      have hones : s'.pad = List.replicate s'.pad.length true :=
        List.eq_replicate_of_mem fun b hb => by simpa using hpad.2 b hb
      have hlen := flatMap_byteBits_length input
      rw [← hbits, List.length_append] at hlen
      rw [← hbits, huffEncodeBits_eq]
      congr 1
      rw [hones]
      congr 1
      omega

set_option maxRecDepth 8000 in
theorem huffman_decodes_exactly_www :
    hpackHuffDecode huffTreeBuild 64 (huffEncode (ascii "www.example.com")) =
      some (ascii "www.example.com") :=
  (huffman_decodes_exactly (by norm_num)).1 _ (by decide) (by decide)
    (by decide)

end Chttp.Hpack
