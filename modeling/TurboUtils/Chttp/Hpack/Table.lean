import TurboUtils.Chttp.Hpack.Primitive
import TurboUtils.Lib.WeightedPrefix

/-! The dynamic table and the HPACK context. The table is a newest-first list, so
`memmove` by one slot is `cons` and evicting the last slot is `dropLast`. -/
namespace Chttp.Hpack
open WeightedPrefix

/-- `name_len + value_len + 32`. -/
def entrySize (h : Header) : ℕ := h.name.length + h.value.length + 32

structure Entry where
  header : Header
  size : ℕ
  deriving DecidableEq, Repr

/-- `hpack_dyn_table_t`; `count` is the length of `entries`. -/
structure DynTable where
  entries : List Entry
  capacity : ℕ
  maxEntries : ℕ
  size : ℕ
  maxSize : ℕ
  deriving DecidableEq, Repr

namespace DynTable

def count (t : DynTable) : ℕ := t.entries.length

def headers (t : DynTable) : List Header := t.entries.map Entry.header

end DynTable

/-- The loop of `dyn_table_evict`; each round drops one entry. -/
def evictLoop : ℕ → DynTable → DynTable
  | 0, t => t
  | fuel + 1, t =>
      match t.entries.getLast? with
      | none => t
      | some last =>
          if t.maxSize < t.size then
            evictLoop fuel { t with entries := t.entries.dropLast, size := t.size - last.size }
          else t

def dynTableEvict (t : DynTable) : DynTable := evictLoop t.count t

/-- The capacity after `dyn_table_add` has made room for one more entry. -/
def growEntries (t : DynTable) : Option ℕ :=
  if t.capacity ≤ t.count then
    if t.maxEntries ≤ t.count then none
    else
      let ncap := min (if t.capacity ≠ 0 then t.capacity * 2 else 8) t.maxEntries
      if ncap ≤ t.capacity ∨ sizeMax / 40 < ncap then none else some ncap
  else some t.capacity

/-- `dyn_table_add`; `none` is the return value -1, which leaves the table alone. -/
def dynTableAdd (t : DynTable) (h : Header) : Option DynTable :=
  if sizeMax - h.value.length < h.name.length ∨
      sizeMax - 32 < h.name.length + h.value.length then none
  else if t.maxSize < entrySize h then some t
  else
    match growEntries t with
    | none => none
    | some cap =>
        some (dynTableEvict { t with
          entries := ⟨h, entrySize h⟩ :: t.entries
          capacity := cap
          size := t.size + entrySize h })

/-- `dyn_table_find`: the index counted from 62, or 0. -/
def dynTableFind (t : DynTable) (p : Header → Bool) : ℕ :=
  match t.entries.findIdx? fun e => p e.header with
  | some i => 62 + i
  | none => 0

/-- `static_find_full` and `static_find_name`: the index counted from 1, or 0. -/
def staticFind (p : Header → Bool) : ℕ :=
  match staticTable.findIdx? p with
  | some i => i + 1
  | none => 0

def fullMatch (h : Header) (e : Header) : Bool := decide (e.name = h.name ∧ e.value = h.value)

def nameMatch (h : Header) (e : Header) : Bool := decide (e.name = h.name)

structure HpackConfig where
  maxDynamicTableBytes : ℕ
  maxHeaderBlockBytes : ℕ
  maxStringBytes : ℕ
  deriving DecidableEq, Repr

/-- `chttp_h2_hpack_s`. -/
structure Context where
  encoder : DynTable
  decoder : DynTable
  huff : HuffTree
  decoderMaxSize : ℕ
  encoderPendingMinSize : ℕ
  encoderPendingFinalSize : ℕ
  encoderSizeUpdatePending : Bool
  maxDynamicTableBytes : ℕ
  maxHeaderBlockBytes : ℕ
  maxStringBytes : ℕ
  deriving DecidableEq, Repr

/-- `chttp_h2_hpack_create`. -/
def hpackCreate (c : HpackConfig) : Option Context :=
  if uint32Max < c.maxDynamicTableBytes ∨ c.maxHeaderBlockBytes = 0 ∨ c.maxStringBytes = 0 then none
  else
    let table : DynTable := ⟨[], 0, c.maxDynamicTableBytes / 32, 0, c.maxDynamicTableBytes⟩
    some ⟨table, table, huffTreeBuild, c.maxDynamicTableBytes, 0, 0, false,
      c.maxDynamicTableBytes, c.maxHeaderBlockBytes, c.maxStringBytes⟩

/-- `chttp_h2_hpack_encoder_set_max_size`; the flag is the return value 0. -/
def encoderSetMaxSize (h : Context) (maxSize : ℕ) : Context × Bool :=
  if h.maxDynamicTableBytes < maxSize then (h, false)
  else
    let h :=
      if maxSize ≠ h.encoder.maxSize then
        { h with
          encoderPendingMinSize :=
            if !h.encoderSizeUpdatePending || decide (maxSize < h.encoderPendingMinSize)
            then maxSize else h.encoderPendingMinSize
          encoderPendingFinalSize := maxSize
          encoderSizeUpdatePending := true }
      else h
    ({ h with encoder := dynTableEvict { h.encoder with maxSize := maxSize } }, true)

/-- `chttp_h2_hpack_decoder_set_max_size`. -/
def decoderSetMaxSize (h : Context) (maxSize : ℕ) : Context × Bool :=
  if h.maxDynamicTableBytes < maxSize then (h, false)
  else
    ({ h with
      decoder := dynTableEvict { h.decoder with maxSize := maxSize }
      decoderMaxSize := maxSize }, true)

/-- `chttp_h2_hpack_decoder_table_size_update`, as an update of the decoder table. -/
def decoderTableSizeUpdate (limit : ℕ) (t : DynTable) (newSize : ℕ) : Option DynTable :=
  if limit < newSize then none else some (dynTableEvict { t with maxSize := newSize })

/-- `table_get`. -/
def tableGet (t : DynTable) (index : ℕ) : Option Header :=
  if index = 0 then none
  else if index ≤ 61 then staticTable[index - 1]?
  else (t.entries[index - 62]?).map Entry.header

/-! ## Invariant of a table -/

/-- What every table of a context satisfies between calls; `bound` is the
configured `max_dynamic_table_bytes`. -/
structure DynTable.Wf (bound : ℕ) (t : DynTable) : Prop where
  entry_size : ∀ e ∈ t.entries, e.size = entrySize e.header
  size_eq : t.size = total entrySize t.headers
  size_le : t.size ≤ t.maxSize
  maxSize_le : t.maxSize ≤ bound
  maxEntries_eq : t.maxEntries = bound / 32
  count_le : t.count ≤ t.capacity
  capacity_le : t.capacity ≤ t.maxEntries

theorem headers_dropLast (t : DynTable) {e : Entry} {es : List Entry}
    (h : t.entries = es ++ [e]) : t.headers = es.map Entry.header ++ [e.header] := by
  simp [DynTable.headers, h]

/-- Eviction keeps the longest prefix that fits, and the recorded size follows. -/
theorem evictLoop_spec (fuel : ℕ) (t : DynTable) (hf : t.count ≤ fuel)
    (he : ∀ e ∈ t.entries, e.size = entrySize e.header)
    (hs : t.size = total entrySize t.headers) :
    (evictLoop fuel t).headers = keepWithin entrySize t.maxSize t.headers ∧
      (evictLoop fuel t).entries <+: t.entries ∧
      (evictLoop fuel t).size = total entrySize (evictLoop fuel t).headers ∧
      (evictLoop fuel t).capacity = t.capacity ∧ (evictLoop fuel t).maxEntries = t.maxEntries ∧
      (evictLoop fuel t).maxSize = t.maxSize := by
  induction fuel generalizing t with
  | zero =>
    have hnil : t.entries = [] := List.length_eq_zero_iff.mp (Nat.le_zero.mp hf)
    simp [evictLoop, DynTable.headers, hnil, hs]
  | succ fuel ih =>
    rcases List.eq_nil_or_concat t.entries with hnil | ⟨es, e, hcat⟩
    · simp [evictLoop, DynTable.headers, hnil, hs]
    · rw [List.concat_eq_append] at hcat
      have hlast : t.entries.getLast? = some e := by simp [hcat]
      have hhead := headers_dropLast t hcat
      by_cases hgt : t.maxSize < t.size
      · have hstep : evictLoop (fuel + 1) t =
            evictLoop fuel { t with entries := es, size := t.size - e.size } := by
          simp [evictLoop, hgt, hcat]
        have hsize : t.size = total entrySize (es.map Entry.header) + entrySize e.header := by
          rw [hs, hhead, total_concat]
        have hes : e.size = entrySize e.header := he e (by simp [hcat])
        have hcount : es.length ≤ fuel := by simpa [DynTable.count, hcat] using hf
        obtain ⟨h1, h2, h3, h4, h5, h6⟩ := ih { t with entries := es, size := t.size - e.size }
          hcount (fun x hx => he x (by simp [hcat, hx]))
          (by simp only [DynTable.headers, hsize, hes]; omega)
        rw [hstep]
        refine ⟨?_, ?_, h3, h4, h5, h6⟩
        · rw [h1, hhead, keepWithin_concat_of_lt]
          · rfl
          · rw [total_concat, ← hsize]
            exact hgt
        · exact h2.trans (by simp [hcat])
      · have hstop : evictLoop (fuel + 1) t = t := by simp [evictLoop, hlast, hgt]
        rw [hstop, keepWithin_of_total_le entrySize (by rw [← hs]; omega)]
        exact ⟨rfl, List.prefix_rfl, hs, rfl, rfl, rfl⟩

section evict

variable {bound : ℕ} {t : DynTable} (he : ∀ e ∈ t.entries, e.size = entrySize e.header)
  (hs : t.size = total entrySize t.headers)

include he hs

theorem dynTableEvict_headers :
    (dynTableEvict t).headers = keepWithin entrySize t.maxSize t.headers :=
  (evictLoop_spec t.count t le_rfl he hs).1

theorem dynTableEvict_wf (hm : t.maxSize ≤ bound) (hb : t.maxEntries = bound / 32)
    (hc : t.count ≤ t.capacity) (hcap : t.capacity ≤ t.maxEntries) :
    (dynTableEvict t).Wf bound := by
  obtain ⟨h1, h2, h3, h4, h5, h6⟩ := evictLoop_spec t.count t le_rfl he hs
  refine ⟨fun e h => he e (h2.subset h), h3, ?_, ?_, ?_, ?_, ?_⟩
  · change (evictLoop t.count t).size ≤ (evictLoop t.count t).maxSize
    rw [h3, h6, h1]
    exact total_keepWithin_le ..
  · exact h6.trans_le hm
  · exact h5.trans hb
  · exact (h2.length_le.trans hc).trans_eq h4.symm
  · exact (h4.trans_le hcap).trans_eq h5.symm

theorem dynTableEvict_maxSize : (dynTableEvict t).maxSize = t.maxSize :=
  (evictLoop_spec t.count t le_rfl he hs).2.2.2.2.2

end evict

namespace DynTable.Wf

variable {bound : ℕ} {t : DynTable}

theorem count_le_maxEntries (h : t.Wf bound) : t.count ≤ t.maxEntries :=
  h.count_le.trans h.capacity_le

/-- Room for one more entry is found exactly while the entry bound is not reached. -/
theorem growEntries_isSome (h : t.Wf bound) (hb : bound ≤ uint32Max) (hc : t.count < t.maxEntries) :
    ∃ cap, growEntries t = some cap ∧ t.count < cap ∧ cap ≤ t.maxEntries := by
  have hent := h.maxEntries_eq
  have hcap := h.capacity_le
  have hle := h.count_le
  unfold uint32Max at hb
  by_cases hfull : t.capacity ≤ t.count
  · let ncap := min (if t.capacity ≠ 0 then t.capacity * 2 else 8) t.maxEntries
    have hgt : t.capacity < ncap := by
      simp only [ncap]
      split_ifs <;> omega
    have hle : ncap ≤ t.maxEntries := Nat.min_le_right ..
    refine ⟨ncap, ?_, by omega, hle⟩
    simp only [growEntries, if_pos hfull, if_neg (show ¬t.maxEntries ≤ t.count by omega)]
    exact if_neg (by simp only [sizeMax]; omega)
  · exact ⟨t.capacity, if_neg hfull, by omega, hcap⟩

theorem growEntries_none (h : t.Wf bound) (hc : t.maxEntries ≤ t.count) : growEntries t = none := by
  have := h.count_le_maxEntries
  have := h.capacity_le
  simp [growEntries, hc, show t.capacity ≤ t.count by omega]

theorem resize (h : t.Wf bound) {n : ℕ} (hn : n ≤ bound) :
    (dynTableEvict { t with maxSize := n }).Wf bound :=
  dynTableEvict_wf h.entry_size h.size_eq hn h.maxEntries_eq h.count_le h.capacity_le

theorem resize_headers (h : t.Wf bound) (n : ℕ) :
    (dynTableEvict { t with maxSize := n }).headers = keepWithin entrySize n t.headers :=
  dynTableEvict_headers (t := { t with maxSize := n }) h.entry_size h.size_eq

theorem resize_maxSize (h : t.Wf bound) (n : ℕ) :
    (dynTableEvict { t with maxSize := n }).maxSize = n :=
  dynTableEvict_maxSize (t := { t with maxSize := n }) h.entry_size h.size_eq

/-- An addition that fits, on a table below its entry bound. -/
theorem add (h : t.Wf bound) (hb : bound ≤ uint32Max) {e : Header} (hsz : entrySize e ≤ t.maxSize)
    (hc : t.count < t.maxEntries) :
    ∃ t', dynTableAdd t e = some t' ∧ t'.Wf bound ∧ t'.maxSize = t.maxSize ∧
      t'.headers = e :: keepWithin entrySize (t.maxSize - entrySize e) t.headers := by
  obtain ⟨cap, hgrow, hlt, hcap⟩ := h.growEntries_isSome hb hc
  have hsmall : e.name.length + e.value.length + 32 ≤ uint32Max :=
    (hsz.trans h.maxSize_le).trans hb
  simp only [uint32Max] at hsmall
  let t1 : DynTable := { t with
    entries := ⟨e, entrySize e⟩ :: t.entries, capacity := cap, size := t.size + entrySize e }
  have he1 : ∀ x ∈ t1.entries, x.size = entrySize x.header := by
    intro x hx
    rcases List.mem_cons.mp hx with rfl | hx
    · rfl
    · exact h.entry_size x hx
  have hs1 : t1.size = total entrySize t1.headers := by
    simp only [t1, DynTable.headers, List.map_cons, total_cons, h.size_eq]
    omega
  refine ⟨dynTableEvict t1, ?_, ?_, ?_, ?_⟩
  · simp only [dynTableAdd, hgrow, t1]
    rw [if_neg (by simp only [sizeMax]; omega), if_neg (by omega)]
  · exact dynTableEvict_wf he1 hs1 h.maxSize_le h.maxEntries_eq hlt hcap
  · exact dynTableEvict_maxSize he1 hs1
  · rw [dynTableEvict_headers he1 hs1]
    exact keepWithin_cons_of_le entrySize _ hsz

/-- Every outcome of `dyn_table_add` on a well-formed table. -/
theorem add_cases (h : t.Wf bound) (hb : bound ≤ uint32Max) (e : Header) :
    (dynTableAdd t e = none ∧ (sizeMax < entrySize e ∨
        entrySize e ≤ t.maxSize ∧ t.maxEntries ≤ t.count)) ∨
      (dynTableAdd t e = some t ∧ t.maxSize < entrySize e) ∨
      (∃ t', dynTableAdd t e = some t' ∧ entrySize e ≤ t.maxSize ∧ t.count < t.maxEntries ∧
        t'.Wf bound ∧ t'.maxSize = t.maxSize ∧
        t'.headers = e :: keepWithin entrySize (t.maxSize - entrySize e) t.headers) := by
  by_cases hov : sizeMax < entrySize e
  · refine .inl ⟨?_, .inl hov⟩
    unfold dynTableAdd
    rw [if_pos]
    simp only [entrySize, sizeMax] at hov ⊢
    omega
  by_cases hsz : entrySize e ≤ t.maxSize
  · by_cases hc : t.count < t.maxEntries
    · obtain ⟨t', h1, h2, h3, h4⟩ := h.add hb hsz hc
      exact .inr (.inr ⟨t', h1, hsz, hc, h2, h3, h4⟩)
    · refine .inl ⟨?_, .inr ⟨hsz, by omega⟩⟩
      simp [dynTableAdd, h.growEntries_none (by omega), show ¬t.maxSize < entrySize e by omega]
  · refine .inr (.inl ⟨?_, by omega⟩)
    unfold dynTableAdd
    rw [if_neg, if_pos (by omega)]
    simp only [entrySize, sizeMax] at hov ⊢
    omega

end DynTable.Wf

end Chttp.Hpack
