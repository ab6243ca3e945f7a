import TurboUtils.Lib.Segments

/-! The byte ring of ring_buffer.c: it hands out regions without a gap, and skips the end of the array
where the end is too short. Asserts are compiled out. -/
namespace ByteRing

open Segments

/-- `ring_data_type`. -/
structure Ring where
  size : ℕ
  data : List UInt8
  r : ℕ
  w : ℕ
  i : ℕ
  writeWrapped : Bool
  readWrapped : Bool

/-- `ring_init`. -/
def init (data : List UInt8) (size : ℕ) : Ring := ⟨size, data, 0, 0, 0, false, false⟩

/-- `calc_free`. -/
def calcFree (w r size : ℕ) : ℕ := if w < r then r - w - 1 else size - (w - r) - 1

/-- `ring_write_acquire`: the offset of the region. -/
def writeAcquire (inst : Ring) (freeRequired : ℕ) : Option ℕ × Ring :=
  let free := calcFree inst.w inst.r inst.size
  let linearSpace := inst.size - inst.w
  let linearFree := if free < linearSpace then free else linearSpace
  if freeRequired ≤ linearFree then (some inst.w, inst)
  else if freeRequired ≤ free - linearFree then (some 0, { inst with writeWrapped := true })
  else (none, inst)

/-- `ring_write_release`. -/
def writeRelease (inst : Ring) (written : ℕ) : Ring :=
  let i := if inst.writeWrapped then inst.w else inst.i
  let w := if inst.writeWrapped then 0 else inst.w
  let w := w + written
  let i := if i < w then w else i
  let w := if w = inst.size then 0 else w
  { inst with writeWrapped := false, i, w }

/-- `ring_read_acquire`: the offset of the region and its length. -/
def readAcquire (inst : Ring) : Option ℕ × ℕ × Ring :=
  if inst.r = inst.w then (none, 0, inst)
  else if inst.r < inst.w then (some inst.r, inst.w - inst.r, inst)
  else if inst.r = inst.i then (some 0, inst.w, { inst with readWrapped := true })
  else (some inst.r, inst.i - inst.r, inst)

/-- `ring_read_release`. -/
def readRelease (inst : Ring) (read : ℕ) : Ring :=
  let r := if inst.readWrapped then 0 else inst.r
  let r := r + read
  { inst with readWrapped := false, r := if r = inst.size then 0 else r }

/-! ## What a ring holds -/

inductive Ring.Regions (inst : Ring) (held : List UInt8) : Prop
  | one (hle : inst.r ≤ inst.w) (hw : inst.w < inst.size)
      (hheld : held = segment inst.data inst.r (inst.w - inst.r))
  | two (hlt : inst.w < inst.r) (hr : inst.r ≤ inst.i) (hrs : inst.r < inst.size)
      (hw : inst.w = 0 → inst.i = inst.size)
      (hheld : held = segment inst.data inst.r (inst.i - inst.r) ++ segment inst.data 0 inst.w)

structure Ring.Holds (inst : Ring) (held : List UInt8) : Prop where
  writeWrapped : inst.writeWrapped = false
  readWrapped : inst.readWrapped = false
  length : inst.data.length = inst.size
  i : inst.i ≤ inst.size
  regions : inst.Regions held

section Calls

variable {inst inst' : Ring} {held bytes : List UInt8} {n k offset available : ℕ}

theorem init_holds {data : List UInt8} (hdata : data ≠ []) : (init data data.length).Holds [] :=
  ⟨rfl, rfl, rfl, Nat.zero_le _,
    Ring.Regions.one (Nat.le_refl _) (List.length_pos_of_ne_nil hdata) (segment_zero data 0).symm⟩

/-- A region that was acquired lies behind the bytes held, or at the start of the array. -/
theorem writeAcquire_cases (_ : 0 < n) (h : writeAcquire inst n = (some offset, inst')) :
    (offset = inst.w ∧ inst' = inst ∧ n ≤ inst.size - inst.w ∧
      n ≤ calcFree inst.w inst.r inst.size) ∨
    (offset = 0 ∧ inst' = { inst with writeWrapped := true } ∧
      inst.size - inst.w + n ≤ calcFree inst.w inst.r inst.size) := by
  unfold writeAcquire at h
  dsimp only at h
  by_cases hfree : calcFree inst.w inst.r inst.size < inst.size - inst.w
  · rw [if_pos hfree] at h
    split_ifs at h with hend hstart
    · cases h
      exact Or.inl ⟨rfl, rfl, by omega, hend⟩
    · omega
    · cases h
  · rw [if_neg hfree] at h
    split_ifs at h with hend hstart
    · cases h
      exact Or.inl ⟨rfl, rfl, hend, by omega⟩
    · cases h
      exact Or.inr ⟨rfl, rfl, by omega⟩
    · cases h

theorem writeAcquire_none (h : writeAcquire inst n = (none, inst')) : inst' = inst := by
  unfold writeAcquire at h
  dsimp only at h
  by_cases hend : n ≤ if calcFree inst.w inst.r inst.size < inst.size - inst.w then
      calcFree inst.w inst.r inst.size else inst.size - inst.w
  · rw [if_pos hend] at h
    cases h
  · rw [if_neg hend] at h
    split_ifs at h
    all_goals
      cases h
    · rfl
    · rfl

/-- What is copied into a region that was acquired, and released, is held behind the rest. -/
theorem Ring.Holds.write (h : inst.Holds held) (hbytes : 0 < bytes.length)
    (hacquire : writeAcquire inst bytes.length = (some offset, inst')) :
    (writeRelease { inst' with data := overwrite inst'.data offset bytes } bytes.length).Holds
      (held ++ bytes) := by
  have hlength := h.length
  have hi := h.i
  have hnot := h.writeWrapped
  have hnew : ∀ start, start ≤ inst.data.length →
      segment (overwrite inst.data start bytes) start bytes.length = bytes :=
    fun start hstart => segment_overwrite hstart
  cases h.regions with
  | one hle hw hheld =>
    have hfree : calcFree inst.w inst.r inst.size = inst.size - (inst.w - inst.r) - 1 :=
      if_neg (Nat.not_lt_of_le hle)
    have hold : ∀ start, start + bytes.length ≤ inst.size →
        inst.w ≤ start ∨ start + bytes.length ≤ inst.r →
          segment (overwrite inst.data start bytes) inst.r (inst.w - inst.r) = held := by
      intro start hstart hdisjoint
      rw [hheld]
      exact segment_overwrite_of_disjoint (by omega) (by omega)
    obtain ⟨rfl, hsame, hlinear, hroom⟩ | ⟨rfl, rfl, hroom⟩ := writeAcquire_cases hbytes hacquire
    · subst inst'
      rw [hfree] at hroom
      have hsum : segment (overwrite inst.data inst.w bytes) inst.r
          (inst.w - inst.r + bytes.length) = held ++ bytes := by
        rw [segment_add, hold inst.w (by omega) (Or.inl (Nat.le_refl _)),
          show inst.r + (inst.w - inst.r) = inst.w by omega, hnew inst.w (by omega)]
      unfold writeRelease
      rw [hnot]
      dsimp only
      rw [if_neg Bool.false_ne_true, if_neg Bool.false_ne_true]
      by_cases hfull : inst.w + bytes.length = inst.size
      · have hend : (if inst.i < inst.w + bytes.length then inst.w + bytes.length else inst.i) =
            inst.size := by
          split_ifs <;> omega
        rw [if_pos hfull, hend]
        refine ⟨rfl, h.readWrapped, (length_overwrite (by omega)).trans hlength, Nat.le_refl _,
          Ring.Regions.two ?_ ?_ ?_ (fun _ => rfl) ?_⟩
        · show 0 < inst.r
          omega
        · show inst.r ≤ inst.size
          omega
        · show inst.r < inst.size
          omega
        · show held ++ bytes = segment (overwrite inst.data inst.w bytes) inst.r
            (inst.size - inst.r) ++ segment (overwrite inst.data inst.w bytes) 0 0
          rw [segment_zero, List.append_nil, ← hsum]
          congr 1
          omega
      · rw [if_neg hfull]
        refine ⟨rfl, h.readWrapped, (length_overwrite (by omega)).trans hlength, ?_,
          Ring.Regions.one ?_ ?_ ?_⟩
        · show (if inst.i < inst.w + bytes.length then inst.w + bytes.length else inst.i) ≤ inst.size
          split_ifs <;> omega
        · show inst.r ≤ inst.w + bytes.length
          omega
        · show inst.w + bytes.length < inst.size
          omega
        · show held ++ bytes = segment (overwrite inst.data inst.w bytes) inst.r
            (inst.w + bytes.length - inst.r)
          rw [← hsum]
          congr 1
          omega
    · rw [hfree] at hroom
      have hsmall : bytes.length < inst.r := by omega
      unfold writeRelease
      dsimp only
      rw [if_pos rfl, if_pos rfl, Nat.zero_add, if_neg (show ¬inst.w < bytes.length by omega),
        if_neg (show ¬bytes.length = inst.size by omega)]
      refine ⟨rfl, h.readWrapped, (length_overwrite (by omega)).trans hlength, hw.le,
        Ring.Regions.two hsmall hle (hle.trans_lt hw) (fun hzero => ?_) ?_⟩
      · exact absurd hzero (Nat.pos_iff_ne_zero.1 hbytes)
      · show held ++ bytes = segment (overwrite inst.data 0 bytes) inst.r (inst.w - inst.r) ++
          segment (overwrite inst.data 0 bytes) 0 bytes.length
        rw [hold 0 (by omega) (Or.inr (by omega)), hnew 0 (Nat.zero_le _)]
  | two hlt hr hrs hw hheld =>
    have hfree : calcFree inst.w inst.r inst.size = inst.r - inst.w - 1 := if_pos hlt
    obtain ⟨rfl, hsame, hlinear, hroom⟩ | ⟨rfl, rfl, hroom⟩ := writeAcquire_cases hbytes hacquire
    · subst inst'
      rw [hfree] at hroom
      unfold writeRelease
      rw [hnot]
      dsimp only
      rw [if_neg Bool.false_ne_true, if_neg Bool.false_ne_true,
        if_neg (show ¬inst.i < inst.w + bytes.length by omega),
        if_neg (show ¬inst.w + bytes.length = inst.size by omega)]
      refine ⟨rfl, h.readWrapped, (length_overwrite (by omega)).trans hlength, hi,
        Ring.Regions.two ?_ hr hrs (fun hzero => ?_) ?_⟩
      · show inst.w + bytes.length < inst.r
        omega
      · have hzero : inst.w + bytes.length = 0 := hzero
        omega
      · show held ++ bytes = segment (overwrite inst.data inst.w bytes) inst.r (inst.i - inst.r) ++
          segment (overwrite inst.data inst.w bytes) 0 (inst.w + bytes.length)
        have hback := @segment_overwrite_of_disjoint UInt8 inst.data bytes inst.w inst.r
          (inst.i - inst.r) (by omega) (by omega)
        have hfront := @segment_overwrite_of_disjoint UInt8 inst.data bytes inst.w 0 inst.w
          (by omega) (by omega)
        rw [segment_add, hback, hfront, Nat.zero_add, hnew inst.w (by omega), hheld,
          List.append_assoc]
    · rw [hfree] at hroom
      omega

/-- What is read from a region that was acquired comes from the front of what is held, and is not held
any more when it is released. -/
theorem Ring.Holds.read (h : inst.Holds held) (hheld : held ≠ []) :
    ∃ offset available inst', readAcquire inst = (some offset, available, inst') ∧ 0 < available ∧
      inst'.data = inst.data ∧ segment inst.data offset available = held.take available ∧
      available ≤ held.length ∧ ∀ k ≤ available, (readRelease inst' k).Holds (held.drop k) := by
  have hlength := h.length
  have hi := h.i
  have hnot := h.readWrapped
  -- The front of a region in two parts.
  have hparts : ∀ offset count k, k ≤ count → segment inst.data offset count =
      segment inst.data offset k ++ segment inst.data (offset + k) (count - k) := by
    intro offset count k hk
    rw [← segment_add, Nat.add_sub_cancel' hk]
  cases h.regions with
  | one hle hw hone =>
    have hpos : inst.r < inst.w := by
      by_contra hnone
      rw [Nat.sub_eq_zero_of_le (by omega), segment_zero] at hone
      exact hheld hone
    have hcount : held.length = inst.w - inst.r := by
      rw [hone, length_segment (by omega)]
    refine ⟨inst.r, inst.w - inst.r, inst, ?_, by omega, rfl, ?_, hcount.ge, fun k hk => ?_⟩
    · rw [readAcquire, if_neg (Nat.ne_of_lt hpos), if_pos hpos]
    · rw [← hcount, List.take_length, hcount, hone]
    · have hk' := @length_segment UInt8 inst.data inst.r k (by omega)
      unfold readRelease
      rw [hnot]
      dsimp only
      rw [if_neg Bool.false_ne_true, if_neg (show ¬inst.r + k = inst.size by omega)]
      refine ⟨h.writeWrapped, rfl, hlength, hi, Ring.Regions.one ?_ hw ?_⟩
      · show inst.r + k ≤ inst.w
        omega
      · show held.drop k = segment inst.data (inst.r + k) (inst.w - (inst.r + k))
        rw [hone, hparts _ _ k hk, List.drop_left' hk', Nat.sub_sub]
  | two hlt hr hrs hw htwo =>
    by_cases hend : inst.r = inst.i
    · have hpos : 0 < inst.w := by
        by_contra hzero
        have hfull := hw (by omega)
        omega
      rw [hend, Nat.sub_self, segment_zero, List.nil_append] at htwo
      have hcount : held.length = inst.w := by rw [htwo, length_segment (by omega)]
      refine ⟨0, inst.w, { inst with readWrapped := true }, ?_, hpos, rfl, ?_, hcount.ge,
        fun k hk => ?_⟩
      · rw [readAcquire, if_neg (Nat.ne_of_gt hlt), if_neg (Nat.lt_asymm hlt), if_pos hend]
      · rw [← hcount, List.take_length, hcount, htwo]
      · have hk' := @length_segment UInt8 inst.data 0 k (by omega)
        unfold readRelease
        dsimp only
        rw [if_pos rfl, Nat.zero_add, if_neg (show ¬k = inst.size by omega)]
        refine ⟨h.writeWrapped, rfl, hlength, hi, Ring.Regions.one hk ?_ ?_⟩
        · show inst.w < inst.size
          omega
        · show held.drop k = segment inst.data k (inst.w - k)
          rw [htwo, hparts _ _ k hk, List.drop_left' hk', Nat.zero_add]
    · have hfront : (segment inst.data inst.r (inst.i - inst.r)).length = inst.i - inst.r :=
        length_segment (by omega)
      have hcount : held.length = inst.i - inst.r + inst.w := by
        rw [htwo, List.length_append, hfront, length_segment (by omega)]
      refine ⟨inst.r, inst.i - inst.r, inst, ?_, by omega, rfl, ?_, by omega, fun k hk => ?_⟩
      · rw [readAcquire, if_neg (Nat.ne_of_gt hlt), if_neg (Nat.lt_asymm hlt), if_neg hend]
      · rw [htwo, List.take_left' hfront]
      · have hk' := @length_segment UInt8 inst.data inst.r k (by omega)
        have hrest : held.drop k = segment inst.data (inst.r + k) (inst.i - inst.r - k) ++
            segment inst.data 0 inst.w := by
          rw [htwo, hparts _ _ k hk, List.append_assoc, List.drop_left' hk']
        unfold readRelease
        rw [hnot]
        dsimp only
        rw [if_neg Bool.false_ne_true]
        by_cases hfull : inst.r + k = inst.size
        · rw [if_pos hfull]
          refine ⟨h.writeWrapped, rfl, hlength, hi, Ring.Regions.one (Nat.zero_le _) ?_ ?_⟩
          · show inst.w < inst.size
            omega
          · show held.drop k = segment inst.data 0 inst.w
            rw [hrest, show inst.i - inst.r - k = 0 by omega, segment_zero, List.nil_append]
        · rw [if_neg hfull]
          refine ⟨h.writeWrapped, rfl, hlength, hi, Ring.Regions.two ?_ ?_ ?_ hw ?_⟩
          · show inst.w < inst.r + k
            omega
          · show inst.r + k ≤ inst.i
            omega
          · show inst.r + k < inst.size
            omega
          · show held.drop k = segment inst.data (inst.r + k) (inst.i - (inst.r + k)) ++
              segment inst.data 0 inst.w
            rw [hrest, Nat.sub_sub]

end Calls

end ByteRing
