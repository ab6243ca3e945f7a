import TurboUtils.Json.Rfc

/-! Both parsers decode the strings whose surrogates are paired. -/
namespace Json

section Escapes

variable {input raw rest s : List Char} {n : ℕ}

theorem hex4_cons {h₁ h₂ h₃ h₄ : Char}
    (hhex : (isHex h₁ && isHex h₂ && isHex h₃ && isHex h₄) = true) (rest : List Char) :
    hex4 (h₁ :: h₂ :: h₃ :: h₄ :: rest) = some (hexCode h₁ h₂ h₃ h₄, rest) := by
  rw [hex4, if_pos hhex]
  rfl

theorem hex4_some (h : hex4 input = some (n, rest)) : ∃ h₁ h₂ h₃ h₄,
    input = h₁ :: h₂ :: h₃ :: h₄ :: rest ∧
      (isHex h₁ && isHex h₂ && isHex h₃ && isHex h₄) = true ∧ n = hexCode h₁ h₂ h₃ h₄ := by
  match input with
  | h₁ :: h₂ :: h₃ :: h₄ :: tail =>
    rw [hex4] at h
    split_ifs at h with hhex
    obtain ⟨rfl, rfl⟩ := Prod.mk.inj (Option.some.inj h)
    exact ⟨h₁, h₂, h₃, h₄, rfl, hhex, rfl⟩

/-- An escape that is decoded is no surrogate, or a pair of them. -/
theorem decodeEscape_some (h : decodeEscape input = some (n, rest)) :
    (hex4 input = some (n, rest) ∧ ¬IsHighSurrogate n ∧ ¬IsLowSurrogate n) ∨
    ∃ high low mid, hex4 input = some (high, '\\' :: 'u' :: mid) ∧ hex4 mid = some (low, rest) ∧
      IsHighSurrogate high ∧ IsLowSurrogate low ∧
        n = 0x10000 + (high - 0xD800) * 0x400 + (low - 0xDC00) := by
  obtain ⟨⟨high, tail⟩, hhigh, h⟩ := Option.bind_eq_some_iff.1 h
  dsimp only at h
  by_cases hsurrogate : 0xD800 ≤ high ∧ high ≤ 0xDBFF
  · rw [if_pos hsurrogate] at h
    split at h
    · rename_i b u mid
      by_cases hpair : b = '\\' ∧ u = 'u'
      · rw [if_pos hpair] at h
        obtain ⟨rfl, rfl⟩ := hpair
        obtain ⟨⟨low, last⟩, hlow, h⟩ := Option.bind_eq_some_iff.1 h
        dsimp only at h
        by_cases hrange : low < 0xDC00 ∨ 0xDFFF < low
        · rw [if_pos hrange] at h
          cases h
        · rw [if_neg hrange] at h
          obtain ⟨hn, rfl⟩ := Prod.mk.inj (Option.some.inj h)
          exact Or.inr ⟨high, low, mid, hhigh, hlow, hsurrogate,
            ⟨by omega, by omega⟩, hn.symm⟩
      · rw [if_neg hpair] at h
        cases h
    · cases h
  · rw [if_neg hsurrogate] at h
    by_cases hlow : 0xDC00 ≤ high ∧ high ≤ 0xDFFF
    · rw [if_pos hlow] at h
      cases h
    · rw [if_neg hlow] at h
      obtain ⟨rfl, rfl⟩ := Prod.mk.inj (Option.some.inj h)
      exact Or.inl ⟨hhigh, hsurrogate, hlow⟩

theorem decodeEscape_single (h : hex4 input = some (n, rest)) (hhigh : ¬IsHighSurrogate n)
    (hlow : ¬IsLowSurrogate n) : decodeEscape input = some (n, rest) := by
  rw [decodeEscape, h, Option.bind_some]
  exact (if_neg hhigh).trans (if_neg hlow)

theorem decodeEscape_pair {high low : ℕ} {mid : List Char}
    (hhigh : hex4 input = some (high, '\\' :: 'u' :: mid)) (hlow : hex4 mid = some (low, rest))
    (hh : IsHighSurrogate high) (hl : IsLowSurrogate low) : decodeEscape input =
      some (0x10000 + (high - 0xD800) * 0x400 + (low - 0xDC00), rest) := by
  rw [decodeEscape, hhigh, Option.bind_some]
  refine (if_pos hh).trans ?_
  dsimp only
  rw [if_pos ⟨rfl, rfl⟩, hlow, Option.bind_some]
  refine if_neg ?_
  obtain ⟨h₁, h₂⟩ := hl
  omega

/-! ## Whole strings -/

theorem simple_ne_u {e : Char} (he : isSimpleEscape e = true) : e ≠ 'u' := by
  rintro rfl
  revert he
  decide

theorem Decodes.unescape (h : Decodes raw s) : unescape raw = some s := by
  induction h with
  | nil => rw [Json.unescape]
  | plain hquote hslash hcontrol h ih =>
    rw [Json.unescape.eq_def]
    dsimp only
    rw [if_neg hslash, ih, Option.map_some]
  | escape he h ih =>
    rw [Json.unescape, if_pos rfl, if_neg (simple_ne_u he), ih, Option.map_some]
  | unicode hhex hhigh hlow h ih =>
    rw [Json.unescape, if_pos rfl, if_pos rfl]
    split
    · rename_i hnone
      rw [decodeEscape_single (hex4_cons hhex _) hhigh hlow] at hnone
      cases hnone
    · rename_i codepoint rest hsome
      rw [decodeEscape_single (hex4_cons hhex _) hhigh hlow] at hsome
      obtain ⟨rfl, rfl⟩ := Prod.mk.inj (Option.some.inj hsome)
      rw [ih, Option.map_some]
  | pair hhex lhex hhigh hlow h ih =>
    rw [Json.unescape, if_pos rfl, if_pos rfl]
    split
    · rename_i hnone
      rw [decodeEscape_pair (hex4_cons hhex _) (hex4_cons lhex _) hhigh hlow] at hnone
      cases hnone
    · rename_i codepoint rest hsome
      rw [decodeEscape_pair (hex4_cons hhex _) (hex4_cons lhex _) hhigh hlow] at hsome
      obtain ⟨rfl, rfl⟩ := Prod.mk.inj (Option.some.inj hsome)
      rw [ih, Option.map_some]

theorem RawChars.unicode_tail {h₁ h₂ h₃ h₄ : Char}
    (h : RawChars ('\\' :: 'u' :: h₁ :: h₂ :: h₃ :: h₄ :: raw)) : RawChars raw := by
  cases h with
  | plain _ hslash => exact absurd rfl hslash
  | escape he => exact absurd rfl (simple_ne_u he)
  | unicode _ h => exact h

theorem RawChars.decodes (h : RawChars raw) (hs : Json.unescape raw = some s) : Decodes raw s := by
  fun_induction Json.unescape raw generalizing s with
  | case1 =>
    cases hs
    exact .nil
  | case2 =>
    cases h with
    | plain _ hslash => exact absurd rfl hslash
  | case3 => cases hs
  | case4 rest codepoint tail hdecode ih =>
    obtain ⟨s', hs', rfl⟩ := Option.map_eq_some_iff.1 hs
    rcases decodeEscape_some hdecode with
      ⟨hfirst, hhigh, hlow⟩ | ⟨high, low, mid, hfirst, hsecond, hh, hl, hn⟩
    · obtain ⟨h₁, h₂, h₃, h₄, rfl, hhex, rfl⟩ := hex4_some hfirst
      exact .unicode hhex hhigh hlow (ih h.unicode_tail hs')
    · obtain ⟨h₁, h₂, h₃, h₄, rfl, hhex, rfl⟩ := hex4_some hfirst
      obtain ⟨l₁, l₂, l₃, l₄, rfl, lhex, rfl⟩ := hex4_some hsecond
      rw [hn]
      exact .pair hhex lhex hh hl (ih h.unicode_tail.unicode_tail hs')
  | case5 e rest he ih =>
    obtain ⟨s', hs', rfl⟩ := Option.map_eq_some_iff.1 hs
    cases h with
    | plain _ hslash => exact absurd rfl hslash
    | escape hsimple h => exact .escape hsimple (ih h hs')
    | unicode _ _ => exact absurd rfl he
  | case6 c rest hslash ih =>
    obtain ⟨s', hs', rfl⟩ := Option.map_eq_some_iff.1 hs
    cases h with
    | plain hquote _ hcontrol h => exact .plain hquote hslash hcontrol (ih h hs')
    | escape => exact absurd rfl hslash
    | unicode => exact absurd rfl hslash

theorem decodes_iff (h : RawChars raw) : Json.unescape raw = some s ↔ Decodes raw s :=
  ⟨h.decodes, Decodes.unescape⟩

theorem RawChars.decodes_self (h : RawChars raw) (hslash : raw.contains '\\' = false) :
    Decodes raw raw := by
  induction h with
  | nil => exact .nil
  | plain hquote hne hcontrol h ih =>
    rw [List.contains_cons, Bool.or_eq_false_iff] at hslash
    exact .plain hquote hne hcontrol (ih hslash.2)
  | escape => simp at hslash
  | unicode => simp at hslash

/-- The bytes that are handed on are those that the string stands for. -/
theorem text_iff (h : RawChars raw) :
    Machine.text raw (raw.contains '\\') = .ok s ↔ Decodes raw s := by
  unfold Machine.text
  cases hslash : raw.contains '\\' with
  | false =>
    rw [if_neg (by decide)]
    have hself := h.decodes_self hslash
    constructor
    · intro hs
      cases hs
      exact hself
    · intro hs
      rw [Option.some.inj (hs.unescape.symm.trans hself.unescape)]
  | true =>
    rw [if_pos rfl, ← decodes_iff h]
    cases Json.unescape raw <;> simp

def Token.Scanned : Token → Prop
  | .string raw hasEscape => RawChars raw ∧ hasEscape = raw.contains '\\'
  | _ => True

theorem Machine.text_ok {hasEscape : Bool} (h : (Token.string raw hasEscape).Scanned) :
    text raw hasEscape = .ok s ↔ Decodes raw s := by
  obtain ⟨hraw, rfl⟩ := h
  exact text_iff hraw

theorem Spells.scanned {token : Token} {bytes : List Char} (h : Spells token bytes) :
    token.Scanned := by
  cases h with
  | structural h =>
    unfold Json.structural at h
    split_ifs at h <;> cases h <;> trivial
  | literal h =>
    unfold Json.literal at h
    split_ifs at h <;> cases h <;> trivial
  | string h => exact ⟨h, rfl⟩
  | number h => trivial

theorem Spread.scanned {ts : List Token} (h : Spread ts input) : ∀ t ∈ ts, t.Scanned := by
  induction h with
  | nil => nofun
  | cons _ h _ ih => exact List.forall_mem_cons.2 ⟨h.scanned, ih⟩

end Escapes

end Json
