import Mathlib.Data.List.TakeWhile
import Mathlib.Tactic

/-! UTF-8 in salts_vstr.c: the check of a text, which skips ASCII in blocks, and the code points one
after the other. No pointer is null, and blocks are compared like the bytes in them. -/
namespace Utf8

/-- `tstr_utf8_is_cont`. -/
def isCont (c : UInt8) : Bool := c &&& 0xC0 = 0x80

/-- `tstr_utf8_ascii_prefix_simde`, and so `tstr_utf8_ascii_prefix_scalar`. -/
def asciiPrefix (data : List UInt8) : ℕ := (data.takeWhile (· < 0x80)).length

/-- `tstr_utf8_decode_one`: the code point and its width. -/
def decodeOne (data : List UInt8) : Option (UInt32 × ℕ) :=
  let s := fun i => data.getD i 0
  let bits := fun i (mask : UInt8) => (s i &&& mask).toUInt32
  if data.length = 0 then none
  else if s 0 < 0x80 then some ((s 0).toUInt32, 1)
  else if 0xC2 ≤ s 0 ∧ s 0 ≤ 0xDF then
    if data.length < 2 ∨ !isCont (s 1) then none
    else some (bits 0 0x1F <<< 6 ||| bits 1 0x3F, 2)
  else if s 0 = 0xE0 then
    if data.length < 3 ∨ s 1 < 0xA0 ∨ 0xBF < s 1 ∨ !isCont (s 2) then none
    else some (bits 0 0x0F <<< 12 ||| bits 1 0x3F <<< 6 ||| bits 2 0x3F, 3)
  else if (0xE1 ≤ s 0 ∧ s 0 ≤ 0xEC) ∨ (0xEE ≤ s 0 ∧ s 0 ≤ 0xEF) then
    if data.length < 3 ∨ !isCont (s 1) ∨ !isCont (s 2) then none
    else some (bits 0 0x0F <<< 12 ||| bits 1 0x3F <<< 6 ||| bits 2 0x3F, 3)
  else if s 0 = 0xED then
    if data.length < 3 ∨ s 1 < 0x80 ∨ 0x9F < s 1 ∨ !isCont (s 2) then none
    else some (bits 0 0x0F <<< 12 ||| bits 1 0x3F <<< 6 ||| bits 2 0x3F, 3)
  else if s 0 = 0xF0 then
    if data.length < 4 ∨ s 1 < 0x90 ∨ 0xBF < s 1 ∨ !isCont (s 2) ∨ !isCont (s 3) then none
    else some (bits 0 0x07 <<< 18 ||| bits 1 0x3F <<< 12 ||| bits 2 0x3F <<< 6 ||| bits 3 0x3F, 4)
  else if 0xF1 ≤ s 0 ∧ s 0 ≤ 0xF3 then
    if data.length < 4 ∨ !isCont (s 1) ∨ !isCont (s 2) ∨ !isCont (s 3) then none
    else some (bits 0 0x07 <<< 18 ||| bits 1 0x3F <<< 12 ||| bits 2 0x3F <<< 6 ||| bits 3 0x3F, 4)
  else if s 0 = 0xF4 then
    if data.length < 4 ∨ s 1 < 0x80 ∨ 0x8F < s 1 ∨ !isCont (s 2) ∨ !isCont (s 3) then none
    else some (bits 0 0x07 <<< 18 ||| bits 1 0x3F <<< 12 ||| bits 2 0x3F <<< 6 ||| bits 3 0x3F, 4)
  else none

/-- The inner loop of `vstr_utf8_invalid_offset`, in so many rounds at most; no offset is
`VSTR_NPOS`. -/
def decodeLoop : ℕ → List UInt8 → ℕ → Option ℕ
  | 0, _, _ => none
  | fuel + 1, rest, offset =>
      if rest.isEmpty then none
      else
        match decodeOne rest with
        | none => some offset
        | some (_, width) => decodeLoop fuel (rest.drop width) (offset + width)

/-- The loop of `vstr_utf8_invalid_offset`. -/
def invalidOffsetLoop : ℕ → List UInt8 → ℕ → Bool → Option ℕ
  | 0, _, _, _ => none
  | fuel + 1, rest, offset, useSimde =>
      if rest.isEmpty then none
      else if !useSimde then decodeLoop (fuel + 1) rest offset
      else
        let ascii := asciiPrefix rest
        let useSimde := !(ascii < if rest.length < 16 then rest.length else 16)
        let rest := rest.drop ascii
        if rest.isEmpty then none
        else
          match decodeOne rest with
          | none => some (offset + ascii)
          | some (_, width) =>
              invalidOffsetLoop fuel (rest.drop width) (offset + ascii + width) useSimde

/-- `vstr_utf8_invalid_offset`. -/
def invalidOffset (data : List UInt8) : Option ℕ := invalidOffsetLoop data.length data 0 true

/-- `vstr_utf8_valid`. -/
def valid (data : List UInt8) : Bool := (invalidOffset data).isNone

/-- `vstr_utf8_next`: the code point, and the rest. -/
def next (rest : List UInt8) : Option (UInt32 × List UInt8) :=
  if rest.length = 0 then none
  else (decodeOne rest).map fun found => (found.1, rest.drop found.2)

/-- A loop over `vstr_utf8_next`, in so many rounds at most. -/
def codePointsLoop : ℕ → List UInt8 → Option (List UInt32)
  | 0, _ => some []
  | fuel + 1, rest =>
      if rest.isEmpty then some []
      else (next rest).bind fun found => (codePointsLoop fuel found.2).map (found.1 :: ·)

def codePoints (data : List UInt8) : Option (List UInt32) := codePointsLoop data.length data

/-! ## What the loops decide -/

inductive Spells : List UInt8 → List UInt32 → Prop
  | nil : Spells [] []
  | cons {data cp width cps} : decodeOne data = some (cp, width) → Spells (data.drop width) cps →
      Spells data (cp :: cps)

section Spells

variable {data rest : List UInt8} {cp : UInt32} {cps : List UInt32} {width fuel offset : ℕ} {b : UInt8}

theorem decodeOne_ascii (h : b < 0x80) (rest : List UInt8) :
    decodeOne (b :: rest) = some (b.toUInt32, 1) := by
  unfold decodeOne
  dsimp only
  rw [if_neg (List.cons_ne_nil b rest ∘ List.eq_nil_of_length_eq_zero)]
  exact if_pos h

theorem ite_pos {c : Prop} [Decidable c] {a b : Option (UInt32 × ℕ)} (ha : ∀ r ∈ a, 0 < r.2)
    (hb : ∀ r ∈ b, 0 < r.2) : ∀ r ∈ if c then a else b, 0 < r.2 := by
  by_cases hc : c
  · rwa [if_pos hc]
  · rwa [if_neg hc]

theorem some_pos {cp : UInt32} (h : 0 < width) : ∀ r ∈ some (cp, width), 0 < r.2 := by
  rintro r hr
  obtain rfl := Option.some.inj hr
  exact h

theorem decodeOne_pos (h : decodeOne data = some (cp, width)) : 0 < width := by
  have hpos : ∀ r ∈ decodeOne data, 0 < r.2 := by
    unfold decodeOne
    dsimp only
    refine ite_pos nofun (ite_pos (some_pos (by decide)) ?_)
    refine ite_pos (ite_pos nofun (some_pos (by decide))) ?_
    refine ite_pos (ite_pos nofun (some_pos (by decide))) ?_
    refine ite_pos (ite_pos nofun (some_pos (by decide))) ?_
    refine ite_pos (ite_pos nofun (some_pos (by decide))) ?_
    refine ite_pos (ite_pos nofun (some_pos (by decide))) ?_
    refine ite_pos (ite_pos nofun (some_pos (by decide))) ?_
    exact ite_pos (ite_pos nofun (some_pos (by decide))) nofun
  exact hpos _ h

theorem decodeOne_ne_nil (h : decodeOne data = some (cp, width)) : data ≠ [] := by
  rintro rfl
  cases h

theorem length_drop_lt (h : decodeOne data = some (cp, width)) :
    (data.drop width).length < data.length := by
  have hpos := decodeOne_pos h
  have hlength := List.length_pos_of_ne_nil (decodeOne_ne_nil h)
  rw [List.length_drop]
  omega

theorem spells_iff (h : decodeOne data = some (cp, width)) :
    (∃ cps, Spells data cps) ↔ ∃ cps, Spells (data.drop width) cps := by
  constructor
  · rintro ⟨cps, hspells⟩
    cases hspells with
    | nil => cases h
    | cons hdecode hrest =>
      obtain ⟨-, rfl⟩ := Prod.mk.inj (Option.some.inj (hdecode.symm.trans h))
      exact ⟨_, hrest⟩
  · rintro ⟨cps, hrest⟩
    exact ⟨cp :: cps, Spells.cons h hrest⟩

theorem not_spells (hdata : data ≠ []) (h : decodeOne data = none) : ¬∃ cps, Spells data cps := by
  rintro ⟨cps, hspells⟩
  cases hspells with
  | nil => exact hdata rfl
  | cons hdecode hrest =>
    rw [h] at hdecode
    cases hdecode

theorem spells_drop_ascii (data : List UInt8) :
    (∃ cps, Spells data cps) ↔ ∃ cps, Spells (data.drop (asciiPrefix data)) cps := by
  induction data with
  | nil => exact Iff.rfl
  | cons b rest ih =>
    unfold asciiPrefix at ih ⊢
    by_cases hb : b < 0x80
    · rw [List.takeWhile_cons_of_pos (by simpa using hb), List.length_cons, List.drop_succ_cons,
        spells_iff (decodeOne_ascii hb rest)]
      exact ih
    · rw [List.takeWhile_cons_of_neg (by simpa using hb)]
      exact Iff.rfl

theorem decodeLoop_eq_none (h : data.length ≤ fuel) :
    decodeLoop fuel data offset = none ↔ ∃ cps, Spells data cps := by
  induction fuel generalizing data offset with
  | zero =>
    obtain rfl := List.eq_nil_of_length_eq_zero (Nat.le_zero.1 h)
    exact iff_of_true rfl ⟨[], Spells.nil⟩
  | succ fuel ih =>
    unfold decodeLoop
    by_cases hnil : data = []
    · rw [hnil]
      exact iff_of_true rfl ⟨[], Spells.nil⟩
    · rw [if_neg (by rwa [List.isEmpty_iff])]
      cases hdecode : decodeOne data with
      | none => exact iff_of_false nofun (not_spells hnil hdecode)
      | some found =>
        have hless := length_drop_lt hdecode
        rw [spells_iff hdecode]
        exact ih (by omega)

theorem invalidOffsetLoop_eq_none {useSimde : Bool} (h : data.length ≤ fuel) :
    invalidOffsetLoop fuel data offset useSimde = none ↔ ∃ cps, Spells data cps := by
  induction fuel generalizing data offset useSimde with
  | zero =>
    obtain rfl := List.eq_nil_of_length_eq_zero (Nat.le_zero.1 h)
    exact iff_of_true rfl ⟨[], Spells.nil⟩
  | succ fuel ih =>
    unfold invalidOffsetLoop
    by_cases hnil : data = []
    · rw [hnil]
      exact iff_of_true rfl ⟨[], Spells.nil⟩
    · rw [if_neg (by rwa [List.isEmpty_iff])]
      cases useSimde with
      | false => exact decodeLoop_eq_none h
      | true =>
        rw [if_neg (by decide), spells_drop_ascii]
        dsimp only
        by_cases hrest : data.drop (asciiPrefix data) = []
        · rw [hrest]
          exact iff_of_true rfl ⟨[], Spells.nil⟩
        · rw [if_neg (by rwa [List.isEmpty_iff])]
          cases hdecode : decodeOne (data.drop (asciiPrefix data)) with
          | none => exact iff_of_false nofun (not_spells hrest hdecode)
          | some found =>
            have hless := length_drop_lt hdecode
            have hdrop := List.length_drop (i := asciiPrefix data) (l := data)
            rw [spells_iff hdecode]
            exact ih (by omega)

theorem codePointsLoop_eq_some (h : data.length ≤ fuel) :
    codePointsLoop fuel data = some cps ↔ Spells data cps := by
  induction fuel generalizing data cps with
  | zero =>
    obtain rfl := List.eq_nil_of_length_eq_zero (Nat.le_zero.1 h)
    constructor
    · intro hsome
      cases hsome
      exact Spells.nil
    · rintro (_ | ⟨hdecode, -⟩)
      · rfl
      · cases hdecode
  | succ fuel ih =>
    unfold codePointsLoop
    by_cases hnil : data = []
    · subst hnil
      constructor
      · intro hsome
        cases hsome
        exact Spells.nil
      · rintro (_ | ⟨hdecode, -⟩)
        · rfl
        · cases hdecode
    · have hlength : data.length ≠ 0 := fun h => hnil (List.eq_nil_of_length_eq_zero h)
      rw [if_neg (by rwa [List.isEmpty_iff]), next, if_neg hlength]
      constructor
      · intro hsome
        obtain ⟨found, hfound, hmap⟩ := Option.bind_eq_some_iff.1 hsome
        obtain ⟨⟨cp, width⟩, hdecode, rfl⟩ := Option.map_eq_some_iff.1 hfound
        obtain ⟨later, hlater, rfl⟩ := Option.map_eq_some_iff.1 hmap
        have hless := length_drop_lt hdecode
        exact Spells.cons hdecode ((ih (by omega)).1 hlater)
      · intro hspells
        cases hspells with
        | nil => exact absurd rfl hnil
        | @cons _ cp width later hdecode hrest =>
          have hless := length_drop_lt hdecode
          rw [hdecode]
          dsimp only [Option.map_some, Option.bind_some]
          rw [(ih (by omega)).2 hrest]
          rfl

theorem codePoints_eq_some : codePoints data = some cps ↔ Spells data cps :=
  codePointsLoop_eq_some (Nat.le_refl _)

theorem valid_iff : valid data = true ↔ ∃ cps, codePoints data = some cps := by
  rw [valid, Option.isNone_iff_eq_none, invalidOffset, invalidOffsetLoop_eq_none (Nat.le_refl _)]
  exact exists_congr fun cps => codePoints_eq_some.symm

theorem codePoints_ascii (h : ∀ b ∈ data, b < 0x80) :
    codePoints data = some (data.map UInt8.toUInt32) := by
  rw [codePoints_eq_some]
  induction data with
  | nil => exact Spells.nil
  | cons b rest ih =>
    exact Spells.cons (decodeOne_ascii (h b List.mem_cons_self) rest)
      (ih fun c hc => h c (List.mem_cons_of_mem b hc))

end Spells

section Append

variable {data rest : List UInt8} {r : UInt32 × ℕ} {n : ℕ}

theorem ite_append {c : Prop} [Decidable c] {a a' b b' : Option (UInt32 × ℕ)}
    (ha : a = some r → a' = some r) (hb : b = some r → b' = some r) :
    (if c then a else b) = some r → (if c then a' else b') = some r := by
  by_cases h : c
  · rw [if_pos h, if_pos h]
    exact ha
  · rw [if_neg h, if_neg h]
    exact hb

theorem guard_append {c c' : Prop} [Decidable c] [Decidable c'] {b b' : Option (UInt32 × ℕ)}
    (hc : ¬data.length < n → (c ↔ c')) (hb : ¬data.length < n → b = b') :
    (if data.length < n ∨ c then none else b) = some r →
      (if (data ++ rest).length < n ∨ c' then none else b') = some r := by
  by_cases h : data.length < n ∨ c
  · rw [if_pos h]
    nofun
  · obtain ⟨hlen, hno⟩ := not_or.1 h
    have hmore : ¬((data ++ rest).length < n ∨ c') := by
      rintro (hlt | hyes)
      · rw [List.length_append] at hlt
        omega
      · exact hno ((hc hlen).2 hyes)
    rw [if_neg h, if_neg hmore, hb hlen]
    exact id

theorem getD_append (h : ¬data.length < n) {i : ℕ} (hi : i < n) :
    (data ++ rest).getD i 0 = data.getD i 0 := by
  rw [List.getD_eq_getElem?_getD, List.getD_eq_getElem?_getD, List.getElem?_append_left (by omega)]

/-- More bytes do not change the code point. -/
theorem decodeOne_append (h : decodeOne data = some r) (rest : List UInt8) :
    decodeOne (data ++ rest) = some r := by
  have hpos : ¬data.length < 1 := by
    intro hlt
    obtain rfl := List.eq_nil_of_length_eq_zero (Nat.lt_one_iff.1 hlt)
    cases h
  have hzero : (data ++ rest).getD 0 0 = data.getD 0 0 := getD_append hpos Nat.one_pos
  have hlen : (data ++ rest).length ≠ 0 := by
    rw [List.length_append]
    omega
  have one : ∀ {k : ℕ}, 1 < k + 2 := by omega
  have two : ∀ {k : ℕ}, 2 < k + 3 := by omega
  revert h
  unfold decodeOne
  simp only [hzero]
  rw [if_neg (by omega), if_neg hlen]
  refine ite_append id ?_
  refine ite_append (guard_append (fun h => by simp only [getD_append h one])
    fun h => by simp only [getD_append h one]) ?_
  refine ite_append (guard_append (fun h => by simp only [getD_append h one, getD_append h two])
    fun h => by simp only [getD_append h one, getD_append h two]) ?_
  refine ite_append (guard_append (fun h => by simp only [getD_append h one, getD_append h two])
    fun h => by simp only [getD_append h one, getD_append h two]) ?_
  refine ite_append (guard_append (fun h => by simp only [getD_append h one, getD_append h two])
    fun h => by simp only [getD_append h one, getD_append h two]) ?_
  have three : 3 < 4 := by decide
  refine ite_append (guard_append
    (fun h => by simp only [getD_append h one, getD_append h two, getD_append h three])
    fun h => by simp only [getD_append h one, getD_append h two, getD_append h three]) ?_
  refine ite_append (guard_append
    (fun h => by simp only [getD_append h one, getD_append h two, getD_append h three])
    fun h => by simp only [getD_append h one, getD_append h two, getD_append h three]) ?_
  exact ite_append (guard_append
    (fun h => by simp only [getD_append h one, getD_append h two, getD_append h three])
    fun h => by simp only [getD_append h one, getD_append h two, getD_append h three]) id

theorem ite_le {c : Prop} [Decidable c] {a b : Option (UInt32 × ℕ)} (ha : ∀ r ∈ a, r.2 ≤ n)
    (hb : ∀ r ∈ b, r.2 ≤ n) : ∀ r ∈ if c then a else b, r.2 ≤ n := by
  by_cases hc : c
  · rwa [if_pos hc]
  · rwa [if_neg hc]

theorem guard_le {c : Prop} [Decidable c] {cp : UInt32} :
    ∀ r ∈ if data.length < n ∨ c then none else some (cp, n), r.2 ≤ data.length := by
  by_cases h : data.length < n ∨ c
  · rw [if_pos h]
    nofun
  · rw [if_neg h]
    rintro r hr
    obtain rfl := Option.some.inj hr
    exact Nat.not_lt.1 (not_or.1 h).1

theorem decodeOne_le (h : decodeOne data = some r) : r.2 ≤ data.length := by
  have hle : ∀ r ∈ decodeOne data, r.2 ≤ data.length := by
    unfold decodeOne
    dsimp only
    by_cases hnil : data.length = 0
    · rw [if_pos hnil]
      nofun
    · rw [if_neg hnil]
      refine ite_le ?_ (ite_le guard_le (ite_le guard_le (ite_le guard_le (ite_le guard_le
        (ite_le guard_le (ite_le guard_le (ite_le guard_le nofun)))))))
      rintro r hr
      obtain rfl := Option.some.inj hr
      exact Nat.one_le_iff_ne_zero.2 hnil
  exact hle r h

theorem Spells.append {cps cps' : List UInt32} (h : Spells data cps) (h' : Spells rest cps') :
    Spells (data ++ rest) (cps ++ cps') := by
  induction h with
  | nil => exact h'
  | cons hdecode _ ih =>
    refine Spells.cons (decodeOne_append hdecode rest) ?_
    rw [List.drop_append_of_le_length (decodeOne_le hdecode)]
    exact ih

theorem codePoints_concat {cps : List UInt32} (h : codePoints data = some cps) :
    codePoints (data ++ [0]) = some (cps ++ [0]) :=
  codePoints_eq_some.2 ((codePoints_eq_some.1 h).append (Spells.cons rfl Spells.nil))

end Append

end Utf8
