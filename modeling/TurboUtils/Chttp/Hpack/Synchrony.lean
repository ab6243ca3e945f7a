import TurboUtils.Chttp.Hpack.Codec

/-! A decoder that reads every block of an encoder stays entry for entry on the
encoder's table, across indexed and literal representations and size updates. -/
namespace Chttp.Hpack
open WeightedPrefix

/-! ## What the encoder appends -/

def stringBytes (s : Bytes) : Bytes := integerBytes s.length 7 0 ++ s

def literalBytes (hd : Header) (nameIdx prefixBits mark : ℕ) : Bytes :=
  integerBytes nameIdx prefixBits mark ++
    ((if nameIdx = 0 then stringBytes hd.name else []) ++ stringBytes hd.value)

theorem integerEncode_some {b b' : Buffer} {value prefixBits mark : ℕ}
    (h : integerEncode b value prefixBits mark = some b') :
    b' = b.append (integerBytes value prefixBits mark) ∧ b'.data.length ≤ b'.maxCapacity := by
  unfold integerEncode at h
  dsimp only at h
  split_ifs at h with hp hr
  obtain rfl := Option.some.inj h
  have hr := (Buffer.reserve_iff ..).mp hr
  have hpos := List.length_pos_iff.mpr (integerBytes_ne_nil value prefixBits mark)
  refine ⟨rfl, ?_⟩
  simp only [Buffer.append_data, List.length_append, Buffer.append_maxCapacity]
  omega

theorem putString_some {b b' : Buffer} {s : Bytes} (h : hpackPutString b s false = some b') :
    b' = b.append (stringBytes s) ∧ s.length ≤ 0x7fffffff ∧ b'.data.length ≤ b'.maxCapacity := by
  obtain ⟨hb, hs⟩ := hpackPutString_raw h
  refine ⟨hb, hs, ?_⟩
  unfold hpackPutString at h
  rw [if_neg (by omega), if_neg (by decide)] at h
  split at h
  · exact absurd h (by simp)
  · next b1 h1 =>
    split_ifs at h with hr
    obtain rfl := Option.some.inj h
    have hr := (Buffer.reserve_iff ..).mp hr
    have := (integerEncode_some h1).2
    simp only [Buffer.append_data, List.length_append, Buffer.append_maxCapacity]
    omega

theorem putLiteral_some {b b' : Buffer} {hd : Header} {nameIdx prefixBits mark : ℕ}
    (h : putLiteral b hd nameIdx prefixBits mark = some b') :
    b' = b.append (literalBytes hd nameIdx prefixBits mark) ∧ b'.data.length ≤ b'.maxCapacity ∧
      (nameIdx = 0 → hd.name.length ≤ 0x7fffffff) ∧ hd.value.length ≤ 0x7fffffff := by
  unfold putLiteral at h
  split at h
  · exact absurd h (by simp)
  next b1 h1 =>
  obtain ⟨rfl, -⟩ := integerEncode_some h1
  split at h
  · exact absurd h (by simp)
  next b2 h2 =>
  obtain ⟨hb', hv, hle⟩ := putString_some h
  split_ifs at h2 with hz
  · obtain ⟨rfl, hn, -⟩ := putString_some h2
    refine ⟨?_, hle, fun _ => hn, hv⟩
    rw [hb', Buffer.append_append, Buffer.append_append, literalBytes, if_pos hz]
  · obtain rfl := Option.some.inj h2
    refine ⟨?_, hle, fun h0 => absurd h0 hz, hv⟩
    rw [hb', Buffer.append_append, literalBytes, if_neg hz, List.nil_append]

/-! ## Table lookups -/

theorem tableGet_eq_headers (t : DynTable) {i : ℕ} (h : 61 < i) :
    tableGet t i = t.headers[i - 62]? := by
  simp [tableGet, DynTable.headers, show i ≠ 0 by omega, show ¬i ≤ 61 by omega]

theorem tableGet_congr {t u : DynTable} (h : t.headers = u.headers) (i : ℕ) :
    tableGet t i = tableGet u i := by
  by_cases hi : 61 < i
  · rw [tableGet_eq_headers t hi, tableGet_eq_headers u hi, h]
  · simp [tableGet, show i ≤ 61 by omega]

/-- A nonzero index names an entry that matches, and fits `uint32_t`. -/
theorem findIndex_spec {h : Context} {bound : ℕ} (hw : h.encoder.Wf bound)
    (hb : bound ≤ uint32Max) (p : Header → Bool) (hne : findIndex h p ≠ 0) :
    findIndex h p < 2 ^ 32 ∧ ∃ e, tableGet h.encoder (findIndex h p) = some e ∧ p e = true := by
  unfold findIndex at hne ⊢
  split_ifs at hne ⊢ with hz
  · unfold dynTableFind at hne ⊢
    split at hne
    · next i hi =>
      obtain ⟨hlt, hp, -⟩ := List.findIdx?_eq_some_iff_getElem.mp hi
      have hcount : i < h.encoder.count := hlt
      have := hw.count_le_maxEntries
      have := hw.maxEntries_eq
      simp only [uint32Max] at hb
      refine ⟨by omega, (h.encoder.entries[i]).header, ?_, hp⟩
      rw [tableGet_eq_headers _ (by omega), show 62 + i - 62 = i by omega, DynTable.headers,
        List.getElem?_map, List.getElem?_eq_getElem hlt]
      rfl
    · exact absurd rfl hne
  · unfold staticFind at hne ⊢
    split at hne
    · next i hi =>
      obtain ⟨hlt, hp, -⟩ := List.findIdx?_eq_some_iff_getElem.mp hi
      rw [staticTable_length] at hlt
      refine ⟨by omega, staticTable.get ⟨i, hlt⟩, ?_, hp⟩
      simp [tableGet, show i + 1 ≤ 61 by omega]
    · exact absurd rfl hne

theorem findIndex_lt {h : Context} {bound : ℕ} (hw : h.encoder.Wf bound)
    (hb : bound ≤ uint32Max) (p : Header → Bool) : findIndex h p < 2 ^ 32 := by
  by_cases h0 : findIndex h p = 0
  · rw [h0]
    norm_num
  · exact (findIndex_spec hw hb p h0).1

theorem findIndex_name {h : Context} {bound : ℕ} (hw : h.encoder.Wf bound)
    (hb : bound ≤ uint32Max) {t : DynTable} (ht : t.headers = h.encoder.headers) (hd : Header)
    (hne : findIndex h (nameMatch hd) ≠ 0) :
    ∃ e, tableGet t (findIndex h (nameMatch hd)) = some e ∧ e.name = hd.name := by
  obtain ⟨-, e, he, hm⟩ := findIndex_spec hw hb (nameMatch hd) hne
  exact ⟨e, by rw [tableGet_congr ht, he], of_decide_eq_true hm⟩

/-! ## One representation -/

theorem integerBytes_cons (value prefixBits mark : ℕ) (rest : Bytes)
    (hlt : mark + 2 ^ prefixBits ≤ 256) :
    ∃ b bs, integerBytes value prefixBits mark ++ rest = b :: bs ∧ mark ≤ b.toNat ∧
      b.toNat < mark + 2 ^ prefixBits := by
  obtain ⟨b, bs, hb, h1, h2⟩ := integerBytes_head value prefixBits mark hlt
  exact ⟨b, bs ++ rest, by simp [hb], h1, h2⟩

theorem decodeField_indexed (h : Context) (t : DynTable) {index : ℕ} (rest : Bytes)
    (hi : index < 2 ^ 32) :
    decodeField h t (integerBytes index 7 0x80 ++ rest) =
      (tableGet t index).map fun e => (.header e false, rest) := by
  have hint := hpackGetInt_integerBytes index 7 0x80 rest
    (by norm_num) (by norm_num) hi (by norm_num) (by norm_num)
  obtain ⟨b, bs, hb, h1, -⟩ := integerBytes_cons index 7 0x80
    rest (by norm_num)
  rw [hb] at hint ⊢
  simp only [decodeField, if_pos h1, hint]

theorem decodeField_sizeUpdate (h : Context) (t : DynTable) {n : ℕ} (rest : Bytes)
    (hn : n < 2 ^ 32) :
    decodeField h t (integerBytes n 5 0x20 ++ rest) = some (.sizeUpdate n, rest) := by
  have hint := hpackGetInt_integerBytes n 5 0x20 rest
    (by norm_num) (by norm_num) hn (by norm_num) (by norm_num)
  obtain ⟨b, bs, hb, h1, h2⟩ := integerBytes_cons n 5 0x20
    rest (by norm_num)
  norm_num at h2
  rw [hb] at hint ⊢
  simp only [decodeField, if_neg (show ¬128 ≤ b.toNat by omega),
    if_neg (show ¬64 ≤ b.toNat by omega), if_pos h1, hint, Option.map_some]

theorem getString_stringBytes (h : Context) {s : Bytes} (rest : Bytes)
    (hs : s.length ≤ 0x7fffffff) (hm : s.length ≤ h.maxStringBytes) :
    hpackGetString h.huff h.maxStringBytes (stringBytes s ++ rest) = some (s, rest) :=
  hpackGetString_raw h.huff rest hs hm

theorem decodeLiteral_literalBytes (h : Context) (t : DynTable) {hd : Header} {nameIdx : ℕ}
    (rest : Bytes) (hname : nameIdx = 0 → hd.name.length ≤ 0x7fffffff)
    (hvalue : hd.value.length ≤ 0x7fffffff) (hmn : hd.name.length ≤ h.maxStringBytes)
    (hmv : hd.value.length ≤ h.maxStringBytes)
    (hidx : nameIdx ≠ 0 → ∃ e, tableGet t nameIdx = some e ∧ e.name = hd.name) :
    decodeLiteral h t nameIdx
      ((if nameIdx = 0 then stringBytes hd.name else []) ++ stringBytes hd.value ++ rest) =
      some (hd, rest) := by
  by_cases hz : nameIdx = 0
  · have h1 := getString_stringBytes h (stringBytes hd.value ++ rest) (hname hz) hmn
    have h2 := getString_stringBytes h rest hvalue hmv
    simp only [decodeLiteral, if_pos hz, List.append_assoc, h1, h2]
  · obtain ⟨e, he, hen⟩ := hidx hz
    have h2 := getString_stringBytes h rest hvalue hmv
    simp only [decodeLiteral, if_neg hz, List.nil_append, he, Option.map_some, h2, hen]

theorem decodeField_literal (h : Context) (t : DynTable) {hd : Header} {nameIdx : ℕ} (rest : Bytes)
    (indexing : Bool) (hi : nameIdx < 2 ^ 32)
    (hname : nameIdx = 0 → hd.name.length ≤ 0x7fffffff)
    (hvalue : hd.value.length ≤ 0x7fffffff) (hmn : hd.name.length ≤ h.maxStringBytes)
    (hmv : hd.value.length ≤ h.maxStringBytes)
    (hidx : nameIdx ≠ 0 → ∃ e, tableGet t nameIdx = some e ∧ e.name = hd.name) :
    decodeField h t ((if indexing then literalBytes hd nameIdx 6 0x40
      else literalBytes hd nameIdx 4 0) ++ rest) = some (.header hd indexing, rest) := by
  have hlit := decodeLiteral_literalBytes h t rest hname hvalue hmn hmv hidx
  cases indexing with
  | true =>
    have hint := hpackGetInt_integerBytes nameIdx 6 0x40
      ((if nameIdx = 0 then stringBytes hd.name else []) ++ stringBytes hd.value ++ rest)
      (by norm_num) (by norm_num) hi (by norm_num) (by norm_num)
    obtain ⟨b, bs, hb, h1, h2⟩ := integerBytes_cons nameIdx 6 0x40
      ((if nameIdx = 0 then stringBytes hd.name else []) ++ stringBytes hd.value ++ rest)
      (by norm_num)
    norm_num at h2
    rw [if_pos rfl, literalBytes, List.append_assoc]
    rw [hb] at hint ⊢
    simp only [decodeField, if_neg (show ¬128 ≤ b.toNat by omega), if_pos h1, hint, hlit,
      Option.map_some]
  | false =>
    have hint := hpackGetInt_integerBytes nameIdx 4 0
      ((if nameIdx = 0 then stringBytes hd.name else []) ++ stringBytes hd.value ++ rest)
      (by norm_num) (by norm_num) hi (by norm_num) (by norm_num)
    obtain ⟨b, bs, hb, h1, h2⟩ := integerBytes_cons nameIdx 4 0
      ((if nameIdx = 0 then stringBytes hd.name else []) ++ stringBytes hd.value ++ rest)
      (by norm_num)
    norm_num at h2
    rw [if_neg (by decide), literalBytes, List.append_assoc]
    rw [hb] at hint ⊢
    simp only [decodeField, if_neg (show ¬128 ≤ b.toNat by omega),
      if_neg (show ¬64 ≤ b.toNat by omega), if_neg (show ¬32 ≤ b.toNat by omega), hint, hlit,
      Option.map_some]

/-! ## One header -/

/-- A decoder table that mirrors an encoder table. The configured bounds may differ
while the encoder keeps its table switched off. -/
structure TablesSync (bt bu : ℕ) (t u : DynTable) : Prop where
  decoder : t.Wf bt
  encoder : u.Wf bu
  headers : t.headers = u.headers
  maxSize : t.maxSize = u.maxSize

theorem entries_eq_of_wf {bound : ℕ} {t : DynTable} (h : t.Wf bound) :
    t.entries = t.headers.map fun hd => ⟨hd, entrySize hd⟩ := by
  rw [DynTable.headers, List.map_map]
  conv_lhs => rw [← List.map_id t.entries]
  refine List.map_congr_left fun e he => ?_
  simp only [id, Function.comp_apply, ← h.entry_size e he]

theorem TablesSync.entries {bt bu : ℕ} {t u : DynTable} (h : TablesSync bt bu t u) :
    t.entries = u.entries := by
  rw [entries_eq_of_wf h.decoder, entries_eq_of_wf h.encoder, h.headers]

theorem TablesSync.count {bt bu : ℕ} {t u : DynTable} (h : TablesSync bt bu t u) :
    t.count = u.count := congrArg List.length h.entries

/-- Both sides add, skip or refuse an entry together. -/
theorem TablesSync.add {bound : ℕ} {t u u' : DynTable} (h : TablesSync bound bound t u)
    (hb : bound ≤ uint32Max) {hd : Header} (hu : dynTableAdd u hd = some u') :
    ∃ t', dynTableAdd t hd = some t' ∧ TablesSync bound bound t' u' ∧ u'.maxSize = u.maxSize := by
  have hmax := h.maxSize
  have hcount := h.count
  have hent := h.decoder.maxEntries_eq.trans h.encoder.maxEntries_eq.symm
  rcases h.encoder.add_cases hb hd with ⟨hnone, -⟩ | ⟨hsame, hbig⟩ | ⟨u1, hsome, hfit, hlt, hw, hm, hh⟩
  · exact absurd (hnone.symm.trans hu) (by simp)
  · obtain rfl : u = u' := Option.some.inj (hsame.symm.trans hu)
    refine ⟨t, ?_, h, rfl⟩
    unfold dynTableAdd at hsame ⊢
    split_ifs at hsame ⊢ with h1 h2
    · rfl
    · omega
  · obtain rfl : u1 = u' := Option.some.inj (hsome.symm.trans hu)
    obtain ⟨t', ht, hw', hm', hh'⟩ := h.decoder.add hb (e := hd) (by omega) (by omega)
    exact ⟨t', ht, ⟨hw', hw, by rw [hh, hh', hmax, h.headers], by rw [hm, hm', hmax]⟩, hm⟩

/-- One header of a block: the bytes appended, and what a mirroring decoder reads in
them. -/
theorem encodeHeader_decodes {bt bu : ℕ} {e e' : Context} {out out' : Buffer} {hd : Header}
    (henc : encodeHeader e out hd = (e', some out')) (d : Context) {t : DynTable}
    (hsync : TablesSync bt bu t e.encoder) (hsame : e.encoder.maxSize ≠ 0 → bt = bu)
    (hb : bu ≤ uint32Max) (hstr : e.maxStringBytes ≤ d.maxStringBytes) :
    ∃ bytes indexing t', out' = out.append bytes ∧ bytes ≠ [] ∧
      out'.data.length ≤ out'.maxCapacity ∧
      (∀ rest, decodeField d t (bytes ++ rest) = some (.header hd indexing, rest)) ∧
      (if indexing then dynTableAdd t hd = some t' else t' = t) ∧
      TablesSync bt bu t' e'.encoder ∧ e' = { e with encoder := e'.encoder } ∧
      e'.encoder.maxSize = e.encoder.maxSize := by
  unfold encodeHeader at henc
  dsimp only at henc
  split_ifs at henc with hlen hfull hzero
  · exact absurd henc (by simp)
  · -- an indexed field: the entry found is the header itself
    obtain ⟨rfl, hput⟩ := Prod.mk.inj henc
    obtain ⟨hout, hle⟩ := integerEncode_some hput
    obtain ⟨hlt, en, hen, hmatch⟩ := findIndex_spec hsync.encoder hb (fullMatch hd) hfull
    have hen' : en = hd := by
      have hm : en.name = hd.name ∧ en.value = hd.value := of_decide_eq_true hmatch
      cases en; cases hd; simp_all
    refine ⟨_, false, t, hout, integerBytes_ne_nil _ _ _, hle, fun rest => ?_, rfl, hsync, rfl, rfl⟩
    rw [decodeField_indexed d t rest hlt, tableGet_congr hsync.headers, hen, hen', Option.map_some]
  · -- a literal while the table is switched off
    obtain ⟨rfl, hput⟩ := Prod.mk.inj henc
    obtain ⟨hout, hle, hname, hvalue⟩ := putLiteral_some hput
    refine ⟨_, false, t, hout, ?_, hle, fun rest => ?_, rfl, hsync, rfl, rfl⟩
    · exact List.append_ne_nil_of_left_ne_nil (integerBytes_ne_nil _ _ _) _
    · exact decodeField_literal d t rest false (findIndex_lt hsync.encoder hb _) hname hvalue
        (by omega) (by omega) (findIndex_name hsync.encoder hb hsync.headers hd)
  · split at henc
    · exact absurd henc (by simp)
    next out1 hput =>
    split at henc
    · exact absurd henc (by simp)
    next u' hadd =>
    obtain ⟨rfl, hsome⟩ := Prod.mk.inj henc
    obtain rfl := Option.some.inj hsome
    obtain ⟨hout, hle, hname, hvalue⟩ := putLiteral_some hput
    obtain rfl := hsame hzero
    obtain ⟨t', ht', hsync', hmax⟩ := hsync.add hb hadd
    refine ⟨_, true, t', hout, ?_, hle, fun rest => ?_, ht', hsync', rfl, hmax⟩
    · exact List.append_ne_nil_of_left_ne_nil (integerBytes_ne_nil _ _ _) _
    · exact decodeField_literal d t rest true (findIndex_lt hsync.encoder hb _) hname hvalue
        (by omega) (by omega) (findIndex_name hsync.encoder hb hsync.headers hd)

/-! ## Whole blocks -/

section block

variable {σ : Type*} (cb : σ → Header → σ × Int)

def deliver (s : σ) (hdrs : List Header) : σ := hdrs.foldl (fun s hd => (cb s hd).1) s

/-- The rest of a block after its size updates. A limit on the header list can only
turn the result into `tooLarge`; the tables agree in either case. -/
theorem decodeLoop_encodeLoop {bt bu : ℕ} {hdrs : List Header} {e e' : Context} {out out' : Buffer}
    (henc : encodeLoop e out hdrs = (e', some out')) (d : Context) {t : DynTable}
    (hsync : TablesSync bt bu t e.encoder) (hsame : e.encoder.maxSize ≠ 0 → bt = bu)
    (hb : bu ≤ uint32Max) (hstr : e.maxStringBytes ≤ d.maxStringBytes) (hcb : ∀ s hd, (cb s hd).2 = 0) (limit : ℕ) :
    ∃ bytes t', out' = out.append bytes ∧
      (bytes = [] ∨ out'.data.length ≤ out'.maxCapacity) ∧
      TablesSync bt bu t' e'.encoder ∧ e' = { e with encoder := e'.encoder } ∧
      e'.encoder.maxSize = e.encoder.maxSize ∧
      ∀ fuel, bytes.length ≤ fuel → ∀ lb s, ∃ s' st,
        decodeLoop d cb limit fuel t lb s bytes = (t', s', st) ∧ (st = .ok ∨ st = .tooLarge) ∧
        (limit = 0 → lb.isSome = true → st = .ok ∧ s' = deliver cb s hdrs) := by
  induction hdrs generalizing e out t with
  | nil =>
    obtain ⟨rfl, hout⟩ := Prod.mk.inj henc
    obtain rfl := Option.some.inj hout
    refine ⟨[], t, (Buffer.append_nil out).symm, .inl rfl, hsync, rfl, rfl, fun fuel _ lb s => ?_⟩
    refine ⟨s, if lb.isSome then .ok else .tooLarge, by cases fuel <;> simp [decodeLoop], ?_, ?_⟩
    · cases lb <;> simp
    · intro _ hlb
      simp [hlb, deliver]
  | cons hd hdrs ih =>
    rw [encodeLoop] at henc
    split at henc
    · exact absurd henc (by simp)
    next e1 out1 h1 =>
    obtain ⟨b1, indexing, t1, rfl, hne, hle1, hfield, hadd, hsync1, he1, hmax⟩ :=
      encodeHeader_decodes h1 d hsync hsame hb hstr
    have hstr1 : e1.maxStringBytes ≤ d.maxStringBytes := by rw [he1]; exact hstr
    obtain ⟨b2, t2, hout, hle2, hsync2, he2, hmax2, hdec⟩ := ih henc hsync1 (by rwa [hmax]) hstr1
    have hb1 := List.length_pos_iff.mpr hne
    refine ⟨b1 ++ b2, t2, by rw [hout, Buffer.append_append], .inr ?_, hsync2, ?_,
      hmax2.trans hmax, ?_⟩
    · rcases hle2 with rfl | hle2
      · rw [hout, Buffer.append_nil]
        exact hle1
      · exact hle2
    · rw [he2, he1]
    · intro fuel hfuel lb s
      rw [List.length_append] at hfuel
      obtain ⟨fuel, rfl⟩ : ∃ n, fuel = n + 1 := ⟨fuel - 1, by omega⟩
      let lb' := lb.bind fun n => addHeaderListSize n hd limit
      let s1 := (if lb'.isSome then cb s hd else (s, 0)).1
      have hzero : (if lb'.isSome = true then cb s hd else (s, 0)).2 = 0 := by
        split_ifs
        · exact hcb s hd
        · rfl
      have hstep : decodeLoop d cb limit (fuel + 1) t lb s (b1 ++ b2) =
          decodeLoop d cb limit fuel t1 lb' s1 b2 := by
        obtain ⟨c, cs, hcons⟩ := List.exists_cons_of_ne_nil hne
        have hf := hfield b2
        rw [hcons, List.cons_append] at hf ⊢
        simp only [decodeLoop, hf]
        rw [if_neg (by rw [hzero]; simp)]
        cases indexing with
        | true => simp only [if_true] at hadd ⊢; rw [hadd]
        | false => simp only [Bool.false_eq_true, if_false] at hadd ⊢; rw [hadd]
      obtain ⟨s', st, hrun, hst, hexact⟩ := hdec fuel (by omega) lb' s1
      refine ⟨s', st, hstep.trans hrun, hst, fun hl hlb => ?_⟩
      have hlb' : lb' = lb := by
        obtain ⟨n, rfl⟩ := Option.isSome_iff_exists.mp hlb
        simp [lb', addHeaderListSize, hl]
      have hs1 : s1 = (cb s hd).1 := by simp only [s1, hlb', hlb, if_true]
      obtain ⟨h1, h2⟩ := hexact hl (by rw [hlb', hlb])
      exact ⟨h1, by rw [h2, hs1, deliver, deliver, List.foldl_cons]⟩

/-- The contexts between two blocks: sizes the encoder changed since the last block
are announced before its next one. -/
structure ContextSync (e d : Context) : Prop where
  encoder : e.encoder.Wf e.maxDynamicTableBytes
  decoder : d.decoder.Wf d.maxDynamicTableBytes
  bound : e.maxDynamicTableBytes ≤ uint32Max
  same : e.encoder.maxSize ≠ 0 → d.maxDynamicTableBytes = e.maxDynamicTableBytes
  advertised : d.decoderMaxSize ≤ d.maxDynamicTableBytes
  string : e.maxStringBytes ≤ d.maxStringBytes
  settled : e.encoderSizeUpdatePending = false →
    d.decoder.headers = e.encoder.headers ∧ d.decoder.maxSize = e.encoder.maxSize
  pending : e.encoderSizeUpdatePending = true →
    e.encoder.headers = keepWithin entrySize e.encoderPendingMinSize d.decoder.headers ∧
      e.encoder.maxSize = e.encoderPendingFinalSize ∧
      e.encoderPendingMinSize ≤ e.encoderPendingFinalSize ∧
      e.encoderPendingFinalSize ≤ d.decoderMaxSize

theorem putTableSizeUpdate_some {b b' : Buffer} {n : ℕ} (hn : n < 2 ^ 32)
    (h : putTableSizeUpdate b n = some b') :
    b' = b.append (integerBytes n 5 0x20) ∧ b'.data.length ≤ b'.maxCapacity := by
  rw [putTableSizeUpdate, Nat.mod_eq_of_lt hn] at h
  exact integerEncode_some h

theorem decodeLoop_sizeUpdate (d : Context) (limit : ℕ) {fuel n : ℕ} {t : DynTable} (lb : Option ℕ)
    (s : σ) (rest : Bytes) (hn : n < 2 ^ 32) (hle : n ≤ d.decoderMaxSize) :
    decodeLoop d cb limit (fuel + 1) t lb s (integerBytes n 5 0x20 ++ rest) =
      decodeLoop d cb limit fuel (dynTableEvict { t with maxSize := n }) lb s rest := by
  have hf := decodeField_sizeUpdate d t rest hn
  obtain ⟨b, bs, hb, -, -⟩ := integerBytes_cons n 5 0x20 rest
    (by norm_num)
  rw [hb] at hf ⊢
  simp only [decodeLoop, hf, decoderTableSizeUpdate, if_neg (not_lt.mpr hle)]

/-- The size updates in front of a block bring the decoder's table to the encoder's. -/
theorem encodePending_decodes {e e1 d : Context} {out out1 : Buffer} (hs : ContextSync e d)
    (henc : encodePending e out = (e1, some out1)) (limit : ℕ) :
    ∃ bytes t1, out1 = out.append bytes ∧ (bytes = [] ∨ out1.data.length ≤ out1.maxCapacity) ∧
      e1 = { e with encoderSizeUpdatePending := false } ∧
      TablesSync d.maxDynamicTableBytes e.maxDynamicTableBytes t1 e.encoder ∧
      ∀ fuel lb s rest, bytes.length ≤ fuel → ∃ left, fuel - bytes.length ≤ left ∧
        decodeLoop d cb limit fuel d.decoder lb s (bytes ++ rest) =
          decodeLoop d cb limit left t1 lb s rest := by
  have hbound := hs.bound
  have hadv := hs.advertised
  simp only [uint32Max] at hbound
  unfold encodePending at henc
  split_ifs at henc with hp hdiff
  · obtain ⟨hhead, hmax, hmin, hfin⟩ := hs.pending hp
    have hfinal := hmax ▸ hs.encoder.maxSize_le
    have hmin' := hs.decoder.resize (n := e.encoderPendingMinSize) (by omega)
    split at henc
    · exact absurd henc (by simp)
    next b1 hput1 =>
    obtain ⟨rfl, hle1⟩ := putTableSizeUpdate_some (by omega) hput1
    split at henc
    · exact absurd henc (by simp)
    next b2 hput2 =>
    obtain ⟨rfl, hle2⟩ := putTableSizeUpdate_some (by omega) hput2
    obtain ⟨rfl, hout⟩ := Prod.mk.inj henc
    obtain rfl := Option.some.inj hout
    refine ⟨_, _, Buffer.append_append .., .inr hle2, rfl,
      ⟨hmin'.resize (n := e.encoderPendingFinalSize) (by omega), hs.encoder, ?_, ?_⟩, ?_⟩
    · rw [hmin'.resize_headers, hs.decoder.resize_headers, keepWithin_keepWithin, hhead,
        Nat.min_eq_right hmin]
    · rw [hmin'.resize_maxSize, hmax]
    · intro fuel lb s rest hfuel
      have hl1 := List.length_pos_iff.mpr (integerBytes_ne_nil e.encoderPendingMinSize 5 0x20)
      have hl2 := List.length_pos_iff.mpr (integerBytes_ne_nil e.encoderPendingFinalSize 5 0x20)
      rw [List.length_append] at hfuel ⊢
      obtain ⟨n, rfl⟩ : ∃ n, fuel = n + 1 + 1 := ⟨fuel - 2, by omega⟩
      refine ⟨n, by omega, ?_⟩
      rw [List.append_assoc, decodeLoop_sizeUpdate cb d limit lb s _ (by omega) (by omega),
        decodeLoop_sizeUpdate cb d limit lb s _ (by omega) (by omega)]
  · obtain ⟨hhead, hmax, hmin, hfin⟩ := hs.pending hp
    have hfinal := hmax ▸ hs.encoder.maxSize_le
    split at henc
    · exact absurd henc (by simp)
    next b1 hput1 =>
    obtain ⟨rfl, hle1⟩ := putTableSizeUpdate_some (by omega) hput1
    obtain ⟨rfl, hout⟩ := Prod.mk.inj henc
    obtain rfl := Option.some.inj hout
    refine ⟨_, _, rfl, .inr hle1, rfl,
      ⟨hs.decoder.resize (n := e.encoderPendingMinSize) (by omega), hs.encoder, ?_, ?_⟩, ?_⟩
    · rw [hs.decoder.resize_headers, hhead]
    · rw [hs.decoder.resize_maxSize, hmax]
      omega
    · intro fuel lb s rest hfuel
      have hl1 := List.length_pos_iff.mpr (integerBytes_ne_nil e.encoderPendingMinSize 5 0x20)
      obtain ⟨n, rfl⟩ : ∃ n, fuel = n + 1 := ⟨fuel - 1, by omega⟩
      exact ⟨n, by omega, decodeLoop_sizeUpdate cb d limit lb s _ (by omega) (by omega)⟩
  · obtain ⟨rfl, hout⟩ := Prod.mk.inj henc
    obtain rfl := Option.some.inj hout
    have hp' : e.encoderSizeUpdatePending = false := by simpa using hp
    obtain ⟨h1, h2⟩ := hs.settled hp'
    refine ⟨[], d.decoder, (Buffer.append_nil out).symm, .inl rfl, by rw [← hp'],
      ⟨hs.decoder, hs.encoder, h1, h2⟩, fun fuel lb s rest _ => ⟨fuel, by simp, rfl⟩⟩

/-- A successful block is decoded completely, and leaves the contexts in step. -/
theorem hpackDecode_hpackEncode {hdrs : List Header} {e e' d : Context} {out out' : Buffer}
    (hs : ContextSync e d) (hblk : e.maxHeaderBlockBytes ≤ d.maxHeaderBlockBytes)
    (henc : hpackEncode e out hdrs = (e', some out')) (hcb : ∀ s hd, (cb s hd).2 = 0)
    (limit : ℕ) (s : σ) :
    ∃ block t' s' st, out' = out.append block ∧
      hpackDecode d cb limit s block = (t', s', st, block.length) ∧ (st = .ok ∨ st = .tooLarge) ∧
      (limit = 0 → st = .ok ∧ s' = deliver cb s hdrs) ∧ t'.entries = e'.encoder.entries ∧
      ContextSync e' { d with decoder := t' } ∧
      e' = { e with encoder := e'.encoder, encoderSizeUpdatePending := false } := by
  unfold hpackEncode at henc
  split_ifs at henc with hcap
  · exact absurd henc (by simp)
  split at henc
  · exact absurd henc (by simp)
  next e1 out1 hpend =>
  obtain ⟨b1, t1, rfl, hle1, rfl, hsync1, hdec1⟩ := encodePending_decodes cb hs hpend limit
  obtain ⟨b2, t2, rfl, hle2, hsync2, he2, hmax2, hdec2⟩ := decodeLoop_encodeLoop cb henc d hsync1 hs.same
    hs.bound hs.string hcb limit
  have hlen : (b1 ++ b2).length ≤ d.maxHeaderBlockBytes := by
    rw [List.length_append]
    simp only [Buffer.append_data, List.length_append, Buffer.append_maxCapacity] at hle1 hle2
    rcases hle2 with rfl | hle2
    · rcases hle1 with rfl | hle1
      · simp
      · simp only [List.length_nil, add_zero] at *
        omega
    · omega
  obtain ⟨left, hleft, hrun1⟩ := hdec1 (b1 ++ b2).length (some 0) s b2 (by simp)
  obtain ⟨s', st, hrun2, hst, hexact⟩ := hdec2 left (by rw [List.length_append] at hleft; omega)
    (some 0) s
  refine ⟨b1 ++ b2, t2, s', st, Buffer.append_append .., ?_, hst, fun hl => hexact hl rfl,
    hsync2.entries, ?_, he2⟩
  · unfold hpackDecode
    rw [if_neg (not_lt.mpr hlen), hrun1, hrun2]
    simp [hst]
  · rw [he2]
    exact ⟨hsync2.encoder, hsync2.decoder, hs.bound, fun hne => hs.same (by rwa [← hmax2]),
      hs.advertised, hs.string, fun _ => ⟨hsync2.headers, hsync2.maxSize⟩,
      fun h => absurd h (by simp)⟩

end block

/-! ## A whole connection -/

inductive EncoderOp where
  | setMaxSize (n : ℕ)
  | encode (out : Buffer) (hdrs : List Header)

def collect (seen : List Header) (hd : Header) : List Header × Int := (seen ++ [hd], 0)

/-- Along the run, each block a successful encode appends is decoded by `d` with return
value 0 and every byte consumed, the callback receives the encoded list, and the two tables
agree afterwards. A failed encode ends the run. -/
def RunInSync : Context → Context → List EncoderOp → Prop
  | _, _, [] => True
  | e, d, .setMaxSize n :: ops => RunInSync (encoderSetMaxSize e n).1 d ops
  | e, d, .encode out hdrs :: ops =>
      match hpackEncode e out hdrs with
      | (_, none) => True
      | (e', some out') =>
          let block := out'.data.drop out.data.length
          let r := hpackDecode d collect 0 [] block
          r.2.2.1 = .ok ∧ r.2.2.2 = block.length ∧ r.2.1 = hdrs ∧
            r.1.entries = e'.encoder.entries ∧ RunInSync e' { d with decoder := r.1 } ops

theorem deliver_collect (seen hdrs : List Header) : deliver collect seen hdrs = seen ++ hdrs := by
  induction hdrs generalizing seen with
  | nil => simp [deliver]
  | cons hd hdrs ih =>
    change deliver collect (seen ++ [hd]) hdrs = _
    rw [ih, List.append_assoc, List.singleton_append]

theorem contextSync_create {c : HpackConfig} {h : Context} (hc : hpackCreate c = some h) :
    ContextSync h h ∧ h.decoderMaxSize = h.maxDynamicTableBytes := by
  unfold hpackCreate at hc
  split_ifs at hc with hbad
  obtain rfl := Option.some.inj hc
  have hw : DynTable.Wf c.maxDynamicTableBytes
      ⟨[], 0, c.maxDynamicTableBytes / 32, 0, c.maxDynamicTableBytes⟩ :=
    ⟨by simp, rfl, Nat.zero_le _, le_rfl, rfl, le_rfl, Nat.zero_le _⟩
  refine ⟨⟨hw, hw, ?_, fun _ => rfl, le_rfl, le_rfl, fun _ => ⟨rfl, rfl⟩,
    fun h => absurd h (by simp)⟩, rfl⟩
  simp only
  omega

/-- A size change evicts on the encoder's side now and is announced later. -/
theorem contextSync_setMaxSize {e d : Context} (hs : ContextSync e d)
    (hadv : d.decoderMaxSize = e.maxDynamicTableBytes)
    (hsame : d.maxDynamicTableBytes = e.maxDynamicTableBytes) (n : ℕ) :
    ContextSync (encoderSetMaxSize e n).1 d := by
  by_cases hn : e.maxDynamicTableBytes < n
  · simpa [encoderSetMaxSize, hn] using hs
  have hn' : n ≤ e.maxDynamicTableBytes := not_lt.mp hn
  have hw := hs.encoder.resize hn'
  have hhead := hs.encoder.resize_headers n
  have hmax := hs.encoder.resize_maxSize n
  have hsize := hs.encoder.size_eq ▸ hs.encoder.size_le
  by_cases heq : n = e.encoder.maxSize
  · have hcode : (encoderSetMaxSize e n).1 =
        { e with encoder := dynTableEvict { e.encoder with maxSize := n } } := by
      unfold encoderSetMaxSize
      rw [if_neg hn, if_neg (not_not.mpr heq)]
    have hkeep : (dynTableEvict { e.encoder with maxSize := n }).headers = e.encoder.headers := by
      rw [hhead, keepWithin_of_total_le entrySize (by omega)]
    rw [hcode]
    refine ⟨hw, hs.decoder, hs.bound, fun _ => hsame, hs.advertised, hs.string, fun hp => ?_,
      fun hp => ?_⟩
    · obtain ⟨h1, h2⟩ := hs.settled hp
      exact ⟨h1.trans hkeep.symm, by rw [h2, hmax, heq]⟩
    · obtain ⟨h1, h2, h3, h4⟩ := hs.pending hp
      exact ⟨hkeep.trans h1, by rw [hmax, heq, h2], h3, h4⟩
  · cases hp : e.encoderSizeUpdatePending with
    | false =>
      have hcode : (encoderSetMaxSize e n).1 =
          { e with
            encoderPendingMinSize := n, encoderPendingFinalSize := n
            encoderSizeUpdatePending := true
            encoder := dynTableEvict { e.encoder with maxSize := n } } := by
        simp [encoderSetMaxSize, hn, heq, hp]
      rw [hcode]
      refine ⟨hw, hs.decoder, hs.bound, fun _ => hsame, hs.advertised, hs.string,
        fun h => absurd h (by simp), fun _ => ⟨?_, hmax, le_rfl, by simpa [hadv] using hn'⟩⟩
      exact hhead.trans (by rw [(hs.settled hp).1])
    | true =>
      obtain ⟨h1, h2, h3, h4⟩ := hs.pending hp
      have hcode : (encoderSetMaxSize e n).1 =
          { e with
            encoderPendingMinSize := min n e.encoderPendingMinSize, encoderPendingFinalSize := n
            encoderSizeUpdatePending := true
            encoder := dynTableEvict { e.encoder with maxSize := n } } := by
        have hmin : (if n < e.encoderPendingMinSize then n else e.encoderPendingMinSize) =
            min n e.encoderPendingMinSize := by
          split_ifs <;> omega
        simp [encoderSetMaxSize, hn, heq, hp, hmin]
      rw [hcode]
      refine ⟨hw, hs.decoder, hs.bound, fun _ => hsame, hs.advertised, hs.string,
        fun h => absurd h (by simp), fun _ => ⟨?_, hmax, Nat.min_le_left .., by simpa [hadv] using hn'⟩⟩
      exact hhead.trans (by rw [h1, keepWithin_keepWithin])

theorem encoderSetMaxSize_bounds (e : Context) (n : ℕ) :
    (encoderSetMaxSize e n).1.maxDynamicTableBytes = e.maxDynamicTableBytes ∧
      (encoderSetMaxSize e n).1.maxHeaderBlockBytes = e.maxHeaderBlockBytes := by
  unfold encoderSetMaxSize
  dsimp only
  split_ifs <;> exact ⟨rfl, rfl⟩

theorem runInSync_of_sync {e d : Context} (hs : ContextSync e d)
    (hadv : d.decoderMaxSize = e.maxDynamicTableBytes)
    (hsame : d.maxDynamicTableBytes = e.maxDynamicTableBytes)
    (hblk : e.maxHeaderBlockBytes ≤ d.maxHeaderBlockBytes) (ops : List EncoderOp) :
    RunInSync e d ops := by
  induction ops generalizing e d with
  | nil => trivial
  | cons op ops ih =>
    cases op with
    | setMaxSize n =>
      obtain ⟨h1, h2⟩ := encoderSetMaxSize_bounds e n
      exact ih (contextSync_setMaxSize hs hadv hsame n) (by rw [h1, hadv]) (by rw [h1, hsame])
        (by rw [h2]; exact hblk)
    | encode out hdrs =>
      simp only [RunInSync]
      split
      · trivial
      next e' out' henc =>
      obtain ⟨block, t', s', st, rfl, hdec, -, hexact, hent, hsync, he'⟩ :=
        hpackDecode_hpackEncode collect hs hblk henc (fun _ _ => rfl) 0 []
      obtain ⟨rfl, hs'⟩ := hexact rfl
      simp only [Buffer.append_data, List.drop_left, hdec]
      refine ⟨trivial, trivial, ?_, hent, ih hsync ?_ ?_ ?_⟩
      · rw [hs', deliver_collect, List.nil_append]
      · rw [he']
        exact hadv
      · rw [he']
        exact hsame
      · rw [he']
        exact hblk

/-- Two contexts of one configuration stay in step over a whole connection. -/
theorem hpack_connection_in_sync {c : HpackConfig} {h : Context} (hc : hpackCreate c = some h)
    (ops : List EncoderOp) : RunInSync h h ops :=
  runInSync_of_sync (contextSync_create hc).1 (contextSync_create hc).2 rfl le_rfl ops

/-- Size changes, an indexed and a literal header, and a repeated header. -/
theorem hpack_connection_in_sync_example :
    ∃ h, hpackCreate ⟨4096, 4096, 4096⟩ = some h ∧
      RunInSync h h [.setMaxSize 0, .setMaxSize 1024,
        .encode ⟨[], 4096⟩ [⟨ascii ":method", ascii "GET"⟩, ⟨ascii "x", ascii "y"⟩],
        .encode ⟨[], 4096⟩ [⟨ascii "x", ascii "y"⟩]] :=
  ⟨_, rfl, hpack_connection_in_sync (c := ⟨4096, 4096, 4096⟩) rfl _⟩

end Chttp.Hpack
