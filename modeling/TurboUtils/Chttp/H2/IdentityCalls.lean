import TurboUtils.Chttp.H2.Identity

/-! The calls of the engine and its send path turn pages. -/
namespace Chttp.H2

open Chttp.Hpack (Header)

variable {σ : Type*}

/-! ## Changes of an engine -/

/-- A change of fields that tables and ids do not depend on. -/
theorem SameTable.of_eq {p p' : Proto} (hmode : p'.mode = p.mode) (hconfig : p'.config = p.config)
    (hnext : p'.nextStreamId = p.nextStreamId) (hpeer : p'.maxPeerStreamId = p.maxPeerStreamId)
    (hfailed : p.failed = true → p'.failed = true) (hsettings : p'.peerSettings = p.peerSettings)
    (hstreams : p'.streams = p.streams) (hresets : p'.localResetIds = p.localResetIds)
    (hheader : p'.inHeaders = p.inHeaders) (hstream : p'.inHeadersStream = p.inHeadersStream) :
    SameTable p p' where
  mode := hmode
  config := hconfig
  next := hnext.ge
  peer := hpeer.ge
  failed := hfailed
  frame h := by
    unfold Proto.PeerFrameSize at h ⊢
    rw [hsettings]
    exact h
  own h := by
    unfold Proto.OwnNext Proto.peerInitiated at h ⊢
    rw [hmode, hnext]
    exact h
  header id h := by
    unfold Proto.Expects at h
    rw [hheader, hstream] at h
    exact Or.inl h
  keys := by
    unfold Proto.keys
    rw [hstreams]
  resets id h := by
    unfold Proto.Reset at h
    rw [hresets, hstreams] at h
    exact h

theorem keys_getElem? (p : Proto) (slot : ℕ) : p.keys[slot]? = p.streams[slot]?.map Stream.key :=
  List.getElem?_map ..

theorem key_of_open {p : Proto} {slot : ℕ} (h : (p.stream slot).closed = false) :
    p.keys[slot]? = some ((p.stream slot).id, false) := by
  have hlt := slot_lt_of_open h
  rw [keys_getElem?, List.getElem?_eq_getElem hlt, Option.map_some, ← stream_eq hlt, Stream.key, h]

theorem open_mem {p : Proto} {slot : ℕ} (h : (p.stream slot).closed = false) :
    ((p.stream slot).id, false) ∈ p.keys :=
  List.mem_of_getElem? (key_of_open h)

theorem keys_modifyStream_same (p : Proto) (slot : ℕ) {f : Stream → Stream}
    (hf : ∀ s, (f s).key = s.key) : (p.modifyStream slot f).keys = p.keys := by
  apply List.ext_getElem?
  intro i
  rw [keys_getElem?, keys_getElem?]
  change (List.modify p.streams slot f)[i]?.map Stream.key = _
  rw [List.getElem?_modify]
  cases p.streams[i]? with
  | none => rfl
  | some s =>
    simp only [Option.map_eq_map, Option.map_some]
    split_ifs
    · rw [hf]
    · rfl

theorem reset_modifyStream_cases {p : Proto} {slot : ℕ} {f : Stream → Stream}
    (hid : ∀ s, (f s).id = s.id) {id : ℕ} (h : (p.modifyStream slot f).Reset id) :
    p.Reset id ∨ id = (p.stream slot).id ∧ (f (p.stream slot)).localReset = true := by
  rcases h with h | ⟨s, hs, hsid, hreset⟩
  · exact Or.inl (Or.inl h)
  · obtain ⟨i, hi⟩ := List.mem_iff_getElem?.1 hs
    change (List.modify p.streams slot f)[i]? = some s at hi
    rw [List.getElem?_modify] at hi
    obtain ⟨t, ht, hst⟩ := Option.map_eq_some_iff.1 hi
    by_cases hslot : slot = i
    · subst hslot
      rw [if_pos rfl] at hst
      have hstream : p.stream slot = t := by
        obtain ⟨hlt, hget⟩ := List.getElem?_eq_some_iff.1 ht
        rw [stream_eq hlt, hget]
      subst hst
      rw [hstream]
      exact Or.inr ⟨hsid.symm.trans (hid t), hreset⟩
    · rw [if_neg hslot] at hst
      subst hst
      exact Or.inl (Or.inr ⟨t, List.mem_of_getElem? ht, hsid, hreset⟩)

theorem reset_modifyStream {p : Proto} {slot : ℕ} {f : Stream → Stream}
    (hid : ∀ s, (f s).id = s.id) (hf : ∀ s, (f s).localReset = true → s.localReset = true) {id : ℕ}
    (h : (p.modifyStream slot f).Reset id) : p.Reset id := by
  rcases reset_modifyStream_cases hid h with h | ⟨rfl, hreset⟩
  · exact h
  · by_cases hlt : slot < p.streams.length
    · exact Or.inr ⟨_, stream_mem hlt, rfl, hf _ hreset⟩
    · have hsame : p.modifyStream slot f = p := by
        unfold Proto.modifyStream
        rw [List.modify_eq_self (Nat.not_lt.1 hlt)]
      rw [hsame] at h
      exact h

theorem SameTable.modify (p : Proto) (slot : ℕ) {f : Stream → Stream} (hf : ∀ s, (f s).key = s.key)
    (hreset : ∀ s, (f s).localReset = true → s.localReset = true) :
    SameTable p (p.modifyStream slot f) where
  toSteady := ⟨rfl, rfl, le_refl _, le_refl _, id, id, id, fun _ h => Or.inl h⟩
  keys := keys_modifyStream_same p slot hf
  resets _ h := reset_modifyStream (fun s => congrArg Prod.fst (hf s)) hreset h

/-- A change of one stream that closes it. -/
theorem keys_modifyStream_closed {p : Proto} {slot : ℕ} (h : slot < p.streams.length)
    {f : Stream → Stream} (hid : ∀ s, (f s).id = s.id) (hclosed : ∀ s, (f s).closed = true) :
    (p.modifyStream slot f).keys = p.keys.set slot ((p.stream slot).id, true) := by
  apply List.ext_getElem?
  intro i
  rw [keys_getElem?, List.getElem?_set, keys_getElem?]
  change (List.modify p.streams slot f)[i]?.map Stream.key = _
  rw [List.getElem?_modify]
  by_cases hi : slot = i
  · subst hi
    have hlt : slot < p.keys.length := by
      unfold Proto.keys
      rw [List.length_map]
      exact h
    rw [if_pos rfl, if_pos hlt, List.getElem?_eq_getElem h, stream_eq h]
    simp only [Option.map_eq_map, Option.map_some, if_true, Stream.key, hid, hclosed]
  · rw [if_neg hi]
    cases p.streams[i]? with
    | none => rfl
    | some s => simp only [Option.map_eq_map, Option.map_some, if_neg hi]

theorem ClosesStream.modify {p : Proto} {slot : ℕ} (hopen : (p.stream slot).closed = false)
    {f : Stream → Stream} (hid : ∀ s, (f s).id = s.id) (hclosed : ∀ s, (f s).closed = true)
    (hreset : ∀ s, (f s).localReset = true → s.localReset = true) :
    ClosesStream p (p.modifyStream slot f) (p.stream slot).id where
  toSteady := ⟨rfl, rfl, le_refl _, le_refl _, id, id, id, fun _ h => Or.inl h⟩
  keys := ⟨slot, key_of_open hopen, keys_modifyStream_closed (slot_lt_of_open hopen) hid hclosed⟩
  resets _ h := Or.inl (reset_modifyStream hid hreset h)

/-! ## Single turns -/

theorem turns_setP {st : St σ} {p : Proto} (h : SameTable st.p p) :
    Turns st.page (st.setP p).page :=
  .single (.quiet st.page h)

theorem turns_record {st : St σ} {i : Item} (hclosing : i.closing = none)
    (h : ∀ id, i.announcing = some id → (id, false) ∈ st.p.keys ∨ st.p.Expects id) :
    Turns st.page (st.record i).page :=
  .single (.note st.page hclosing h)

theorem turns_plain (st : St σ) {i : Item} (hclosing : i.closing = none)
    (h : i.announcing = none) : Turns st.page (st.record i).page :=
  turns_record hclosing fun id hid => by
    rw [h] at hid
    cases hid

theorem sameTable_out (p : Proto) (out : Buffer) : SameTable p { p with out := out } :=
  .of_eq rfl rfl rfl rfl (fun h => h) rfl rfl rfl rfl rfl

theorem turns_push {st : St σ} {i : Item} (bs : Bytes) (hclosing : i.closing = none)
    (h : ∀ id, i.announcing = some id → (id, false) ∈ st.p.keys ∨ st.p.Expects id) :
    Turns st.page (push st i bs).page :=
  (turns_record hclosing h).trans (@turns_setP σ (st.record i) _ (sameTable_out st.p _))

theorem turns_outFrame (st : St σ) (f : Frame)
    (h : f.type = .headers → (f.streamId, false) ∈ st.p.keys) :
    Turns st.page (outFrame st f).1.page := by
  rcases outFrame_cases st f with hno | ⟨hok, -, -⟩
  · rw [hno]
  · rw [hok]
    refine turns_push _ rfl fun id hid => Or.inl ?_
    unfold Item.announcing at hid
    dsimp only at hid
    split_ifs at hid with htype
    cases hid
    exact h htype

theorem turns_of_eq {α : Type*} {st st' : St σ} {r : St σ × α} {ok : α}
    (h : Turns st.page r.1.page) (hr : r = (st', ok)) : Turns st.page st'.page := by
  rw [hr] at h
  exact h

theorem submitSettings_turns (st : St σ) : Turns st.page (submitSettings st).1.page := by
  have hout := turns_outFrame st ⟨.settings, 0, 0, settingsBytes (settingsValues st.p)⟩ nofun
  unfold submitSettings
  split
  next st₁ hst₁ => exact turns_of_eq hout hst₁
  next st₁ hst₁ =>
    refine (turns_of_eq hout hst₁).trans (turns_setP ?_)
    exact .of_eq rfl rfl rfl rfl (fun h => h) rfl rfl rfl rfl rfl

theorem ensurePreface_turns (st : St σ) : Turns st.page (ensurePreface st).1.page := by
  unfold ensurePreface
  split
  · split_ifs
    · exact .refl
    · refine ((turns_push preface rfl fun _ hid => by cases hid).trans (turns_setP ?_)).trans (submitSettings_turns _)
      exact .of_eq rfl rfl rfl rfl (fun h => h) rfl rfl rfl rfl rfl
    · exact .refl
  · split_ifs
    · exact submitSettings_turns st
    · exact .refl

theorem submitGoaway_turns (st : St σ) (last error : ℕ) :
    Turns st.page (submitGoaway st last error).1.page := by
  have hpreface := ensurePreface_turns st
  unfold submitGoaway
  split_ifs
  · exact .refl
  split
  next st₁ hst₁ => exact turns_of_eq hpreface hst₁
  next st₁ hst₁ =>
    have hout := turns_outFrame st₁ ⟨.goaway, 0, 0, goawayBytes last error⟩ nofun
    split
    next st₂ hst₂ => exact (turns_of_eq hpreface hst₁).trans (turns_of_eq hout hst₂)
    next st₂ hst₂ =>
      refine ((turns_of_eq hpreface hst₁).trans (turns_of_eq hout hst₂)).trans (turns_setP ?_)
      exact .of_eq rfl rfl rfl rfl (fun h => h) rfl rfl rfl rfl rfl

theorem protoFail_turns (st : St σ) (error : ℕ) : Turns st.page (protoFail st error).page := by
  unfold protoFail
  split_ifs
  · exact .refl
  · refine (turns_setP ?_).trans (submitGoaway_turns _ _ _)
    exact .of_eq rfl rfl rfl rfl (fun _ => rfl) rfl rfl rfl rfl rfl

/-! ## Callbacks and closing -/

def Host.Turning (host : Host σ) (start : Proto) : Prop :=
  ∀ ev (st : St σ), Kept start st.page → Turns st.page (host.notify ev st).1.page

section host

variable {host : Host σ} {start : Proto}

theorem callback_turns (hh : host.Turning start) {st : St σ} (hk : Kept start st.page) {ev : Event}
    (hclosing : (Item.callback ev).closing = none)
    (h : ∀ id, (Item.callback ev).announcing = some id →
      (id, false) ∈ st.p.keys ∨ st.p.Expects id) :
    Turns st.page (callback host st ev).1.page := by
  have hrecord := @turns_record σ st (.callback ev) hclosing h
  exact hrecord.trans (hh ev _ (hrecord.keeps hk))

theorem callback_plain (hh : host.Turning start) {st : St σ} (hk : Kept start st.page) {ev : Event}
    (hclosing : (Item.callback ev).closing = none) (h : (Item.callback ev).announcing = none) :
    Turns st.page (callback host st ev).1.page :=
  callback_turns hh hk hclosing fun id hid => by
    rw [h] at hid
    cases hid

theorem close_turns (hh : host.Turning start) {st : St σ} (hk : Kept start st.page) {p : Proto}
    {id : ℕ} (error : ℕ) (h : ClosesStream st.p p id) :
    Turns st.page (callback host (st.setP p) (.streamClose id error)).1.page := by
  have hclose : Turns st.page ((st.setP p).record (.callback (.streamClose id error))).page :=
    .single (.closes st.page error h)
  exact hclose.trans (hh _ _ (hclose.keeps hk))

theorem maybeClose_turns (hh : host.Turning start) {st : St σ} (hk : Kept start st.page)
    (slot : ℕ) : Turns st.page (maybeClose host st slot).page := by
  unfold maybeClose
  dsimp only
  split_ifs with hclosed hboth
  · exact .refl
  · apply close_turns hh hk
    exact .modify (Bool.eq_false_of_not_eq_true hclosed) (fun _ => rfl) (fun _ => rfl) fun _ h => h
  · exact .refl

theorem forSlots_turns {f : ℕ → St σ → St σ}
    (hf : ∀ slot (st : St σ), Kept start st.page → Turns st.page (f slot st).page) (fuel slot : ℕ)
    {st : St σ} (hk : Kept start st.page) : Turns st.page (forSlots f fuel slot st).page := by
  induction fuel generalizing slot st with
  | zero => exact .refl
  | succ fuel ih =>
    unfold forSlots
    split_ifs
    · have hround := hf slot st hk
      exact hround.trans (ih _ (hround.keeps hk))
    · exact .refl

/-! ## Control frames -/

theorem submitPing_turns (st : St σ) (opaqueBytes : Bytes) :
    Turns st.page (submitPing st opaqueBytes).1.page := by
  have hpreface := ensurePreface_turns st
  unfold submitPing
  split_ifs
  · exact .refl
  split
  next st₁ hst₁ => exact turns_of_eq hpreface hst₁
  next st₁ hst₁ => exact (turns_of_eq hpreface hst₁).trans (turns_outFrame _ _ nofun)

theorem addCredit_same {p p' : Proto} {streamId increment : ℕ}
    (h : addCredit p streamId increment = some p') : SameTable p p' := by
  unfold addCredit at h
  dsimp only at h
  split_ifs at h
  · cases h
    exact .of_eq rfl rfl rfl rfl (fun h => h) rfl rfl rfl rfl rfl
  · split at h
    · cases h
    · split_ifs at h
      cases h
      exact .modify p _ (fun _ => rfl) fun _ h => h

theorem submitWindowUpdate_turns (st : St σ) (streamId increment : ℕ) :
    Turns st.page (submitWindowUpdate st streamId increment).1.page := by
  have hrecord := @turns_plain σ st (.creditStart streamId increment) rfl rfl
  have hpreface := hrecord.trans (ensurePreface_turns _)
  unfold submitWindowUpdate
  split
  next st₁ hst₁ => exact turns_of_eq hpreface hst₁
  next st₁ hst₁ =>
    have hst₁ := turns_of_eq hpreface hst₁
    split_ifs
    · exact hst₁
    split
    · exact hst₁
    next p hp => exact (hst₁.trans (turns_setP (addCredit_same hp))).trans (turns_outFrame _ _ nofun)

/-- A local reset closes its stream and is remembered. -/
theorem closesStream_reset {p : Proto} {slot : ℕ} (hopen : (p.stream slot).closed = false)
    {f : Stream → Stream} (hid : ∀ s, (f s).id = s.id) (hclosed : ∀ s, (f s).closed = true) :
    ClosesStream p ((p.modifyStream slot f).localResetRecord (p.stream slot).id)
      (p.stream slot).id := by
  have hclose := keys_modifyStream_closed (slot_lt_of_open hopen) hid hclosed
  have hreset : ∀ x, (p.modifyStream slot f).Reset x → p.Reset x ∨ x = (p.stream slot).id :=
    fun x hx => (reset_modifyStream_cases hid hx).imp_right And.left
  unfold Proto.localResetRecord
  split_ifs
  · exact ⟨⟨rfl, rfl, le_refl _, le_refl _, id, id, id, fun _ h => Or.inl h⟩,
      ⟨slot, key_of_open hopen, hclose⟩, hreset⟩
  · refine ⟨⟨rfl, rfl, le_refl _, le_refl _, id, id, id, fun _ h => Or.inl h⟩,
      ⟨slot, key_of_open hopen, hclose⟩, fun x hx => ?_⟩
    rcases hx with ⟨h0, hx⟩ | hx
    · rcases List.mem_or_eq_of_mem_set hx with hx | hx
      · exact Or.inl (Or.inl ⟨h0, hx⟩)
      · exact Or.inr hx
    · exact hreset x (Or.inr hx)

theorem submitRstStream_turns (hh : host.Turning start) {st : St σ} (hk : Kept start st.page)
    (streamId errorCode : ℕ) : Turns st.page (submitRstStream host st streamId errorCode).1.page := by
  have hpreface := ensurePreface_turns st
  unfold submitRstStream
  split_ifs
  · exact .refl
  split
  next st₁ hst₁ => exact turns_of_eq hpreface hst₁
  next st₁ hst₁ =>
    have hst₁ := turns_of_eq hpreface hst₁
    split
    · exact hst₁
    next slot hslot =>
    split_ifs with hclosed
    · exact hst₁
    have hout := turns_outFrame st₁ ⟨.rstStream, 0, streamId, u32Bytes errorCode⟩ nofun
    split
    next st₂ hst₂ => exact hst₁.trans (turns_of_eq hout hst₂)
    next st₂ hst₂ =>
      have hst₂' : Turns st.page st₂.page := hst₁.trans (turns_of_eq hout hst₂)
      obtain ⟨hpush, -⟩ := outFrame_true hst₂
      have hid := (find_spec hslot).2
      have hstream : st₂.p.stream slot = st₁.p.stream slot := by rw [hpush]; rfl
      have hopen : (st₂.p.stream slot).closed = false := by
        rw [hstream]
        exact Bool.eq_false_of_not_eq_true hclosed
      have hclose := @closesStream_reset st₂.p slot hopen
        (fun s => { s with closed := true, localReset := true, body := none, bodyOff := 0,
                           trailersPending := false
                           trailers := if s.trailersPending then [] else s.trailers })
        (fun _ => rfl) fun _ => rfl
      rw [hstream, hid] at hclose
      exact hst₂'.trans (close_turns hh (hst₂'.keeps hk) errorCode hclose)

/-! ## Header blocks -/

theorem sameTable_withHpack (p : Proto) (hpack : Hpack.Context) :
    SameTable p (p.withHpack hpack) :=
  .of_eq rfl rfl rfl rfl id rfl rfl rfl rfl rfl

theorem turns_pushAll {st : St σ} {fs : List Frame}
    (h : ∀ f ∈ fs, f.type = .headers → (f.streamId, false) ∈ st.p.keys) :
    Turns st.page (pushAll st fs).page := by
  induction fs generalizing st with
  | nil => exact .refl
  | cons f fs ih =>
    obtain ⟨hf, hfs⟩ := List.forall_mem_cons.1 h
    have hpush : Turns st.page (push st (.out f) f.bytes).page := by
      refine turns_push f.bytes rfl fun id hid => Or.inl ?_
      unfold Item.announcing at hid
      dsimp only at hid
      split_ifs at hid with htype
      cases hid
      exact hf htype
    exact hpush.trans (ih hfs)

/-- A header block of an open stream turns pages. -/
theorem outHeaders_turns {st : St σ} (hk : Kept start st.page) {streamId : ℕ}
    (hopen : (streamId, false) ∈ st.p.keys) (hdrs : List Header) (endStream : Bool)
    (priority : Option Priority) :
    Turns st.page (outHeaders st streamId hdrs endStream priority).1.page := by
  have hlimit : 0 < st.p.peerSettings.maxFrameSize :=
    lt_of_lt_of_le (show 0 < defaultFrameBytes by decide) hk.frame.1
  rcases @outHeaders_cases σ st streamId hdrs endStream priority (hk.table.range _ hopen).2.1 hlimit
    hk.frame.2 with ⟨hpack, h⟩ | ⟨hpack, h⟩ | ⟨hpack, block, h⟩
  · rw [h]
    exact turns_setP (sameTable_withHpack _ _)
  · rw [h]
    exact (turns_setP (sameTable_withHpack _ _)).trans (protoFail_turns _ _)
  · rw [h]
    refine (turns_setP (sameTable_withHpack st.p hpack)).trans (turns_pushAll fun f hf _ => ?_)
    have hid := ((blockFrames_isBlock streamId endStream priority.isSome hlimit _ true block
      (Nat.lt_succ_self _)).bounded f hf).2
    rw [hid]
    exact hopen

end host

/-! ## Failing in silence -/

/-- Output that announces nothing and leaves the table alone. -/
structure Silent (st st' : St σ) : Prop where
  announced : ∀ id, Announced st'.log id → Announced st.log id
  streams : st'.p.streams = st.p.streams
  resets : st'.p.localResetIds = st.p.localResetIds
  header : st'.p.inHeaders = st.p.inHeaders
  stream : st'.p.inHeadersStream = st.p.inHeadersStream

theorem Silent.refl (st : St σ) : Silent st st := ⟨fun _ h => h, rfl, rfl, rfl, rfl⟩

theorem Silent.trans {st st' st'' : St σ} (h : Silent st st') (h' : Silent st' st'') :
    Silent st st'' :=
  ⟨fun id hid => h.announced id (h'.announced id hid), h'.streams.trans h.streams,
    h'.resets.trans h.resets, h'.header.trans h.header, h'.stream.trans h.stream⟩

theorem push_silent (st : St σ) (i : Item) (h : i.announcing = none) (bs : Bytes) :
    Silent st (push st i bs) := by
  refine ⟨fun id hid => ?_, rfl, rfl, rfl, rfl⟩
  rcases announced_append.1 hid with hid | hid
  · exact hid
  · rw [h] at hid
    cases hid

theorem outFrame_silent (st : St σ) {f : Frame} (hf : f.type ≠ .headers) :
    Silent st (outFrame st f).1 := by
  rcases outFrame_cases st f with hno | ⟨hok, -, -⟩
  · rw [hno]
    exact .refl st
  · rw [hok]
    exact push_silent st (.out f) (if_neg hf) _

theorem submitSettings_silent (st : St σ) : Silent st (submitSettings st).1 := by
  have hout := @outFrame_silent σ st ⟨.settings, 0, 0, settingsBytes (settingsValues st.p)⟩ nofun
  unfold submitSettings
  split
  next st₁ hst₁ =>
    rw [hst₁] at hout
    exact hout
  next st₁ hst₁ =>
    rw [hst₁] at hout
    exact hout.trans ⟨fun _ h => h, rfl, rfl, rfl, rfl⟩

theorem ensurePreface_silent (st : St σ) : Silent st (ensurePreface st).1 := by
  unfold ensurePreface
  split
  · split_ifs
    · exact .refl st
    · refine (push_silent st .preface rfl preface).trans (Silent.trans ?_ (submitSettings_silent _))
      exact ⟨fun _ h => h, rfl, rfl, rfl, rfl⟩
    · exact .refl st
  · split_ifs
    · exact submitSettings_silent st
    · exact .refl st

theorem submitGoaway_silent (st : St σ) (last error : ℕ) :
    Silent st (submitGoaway st last error).1 := by
  have hpreface := ensurePreface_silent st
  unfold submitGoaway
  split_ifs
  · exact .refl st
  split
  next st₁ hst₁ =>
    rw [hst₁] at hpreface
    exact hpreface
  next st₁ hst₁ =>
    rw [hst₁] at hpreface
    have hout := @outFrame_silent σ st₁ ⟨.goaway, 0, 0, goawayBytes last error⟩ nofun
    split
    next st₂ hst₂ =>
      rw [hst₂] at hout
      exact hpreface.trans hout
    next st₂ hst₂ =>
      rw [hst₂] at hout
      exact (hpreface.trans hout).trans ⟨fun _ h => h, rfl, rfl, rfl, rfl⟩

theorem protoFail_silent (st : St σ) (error : ℕ) : Silent st (protoFail st error) := by
  unfold protoFail
  split_ifs
  · exact .refl st
  · refine Silent.trans ?_ (submitGoaway_silent _ _ _)
    exact ⟨fun _ h => h, rfl, rfl, rfl, rfl⟩

/-! ## Requests -/

/-- The slots after `proto_new_stream`. -/
theorem newStream_keys {p q : Proto} {id slot : ℕ} (h : p.newStream id = some (q, slot)) :
    (∃ old, p.keys[slot]? = some (old, true) ∧ q.keys = p.keys.set slot (id, false)) ∨
      (p.keys.length < p.config.streamCapacity ∧ slot = p.keys.length ∧
        q.keys = p.keys ++ [(id, false)]) := by
  unfold Proto.newStream at h
  dsimp only at h
  generalize (if p.peerInitiated id ∧ p.lastProcStreamId < id then id
    else p.lastProcStreamId) = lastProc at h
  have hlength : p.keys.length = p.streams.length := List.length_map _
  split at h
  next i hi =>
    obtain ⟨hlt, hclosed, -⟩ := List.findIdx?_eq_some_iff_getElem.1 hi
    rw [Option.some.injEq, Prod.mk.injEq] at h
    obtain ⟨rfl, rfl⟩ := h
    refine Or.inl ⟨p.streams[i].id, ?_, ?_⟩
    · rw [keys_getElem?, List.getElem?_eq_getElem hlt, Option.map_some, Stream.key, hclosed]
    · exact List.map_set
  next hnone =>
    split_ifs at h with hfull
    rw [Option.some.injEq, Prod.mk.injEq] at h
    obtain ⟨rfl, rfl⟩ := h
    refine Or.inr ⟨by omega, hlength.symm, ?_⟩
    exact List.map_append

theorem newStream_reset {p q : Proto} {id slot : ℕ} (h : p.newStream id = some (q, slot)) {x : ℕ}
    (hx : q.Reset x) : p.Reset x := by
  unfold Proto.newStream at h
  dsimp only at h
  generalize (if p.peerInitiated id ∧ p.lastProcStreamId < id then id
    else p.lastProcStreamId) = lastProc at h
  -- the new stream has no reset
  have hold : ∀ s, s ∈ p.streams ∨ s = p.freshStream id → s.id = x ∧ s.localReset = true →
      ∃ t ∈ p.streams, t.id = x ∧ t.localReset = true := by
    rintro s (hs | rfl) hreset
    · exact ⟨s, hs, hreset⟩
    · cases hreset.2
  split at h
  · rw [Option.some.injEq, Prod.mk.injEq] at h
    obtain ⟨rfl, rfl⟩ := h
    rcases hx with hx | ⟨s, hs, hreset⟩
    · exact Or.inl hx
    · exact Or.inr (hold s (List.mem_or_eq_of_mem_set hs) hreset)
  · split_ifs at h
    rw [Option.some.injEq, Prod.mk.injEq] at h
    obtain ⟨rfl, rfl⟩ := h
    rcases hx with hx | ⟨s, hs, hreset⟩
    · exact Or.inl hx
    · exact Or.inr (hold s (by simpa using hs) hreset)

theorem newStream_set {p q : Proto} {id slot : ℕ} (h : p.newStream id = some (q, slot)) :
    q.keys.set slot (id, false) = q.keys := by
  obtain ⟨-, hlt, hfresh, -⟩ := newStream_spec h
  have hself : q.keys[slot]? = some (id, false) := by
    rw [keys_getElem?, List.getElem?_eq_getElem hlt, ← stream_eq hlt, hfresh]
    rfl
  obtain ⟨hltk, hget⟩ := List.getElem?_eq_some_iff.1 hself
  rw [← hget, List.set_getElem_self]

/-- A new stream with its fields set, possibly closed again at once. -/
theorem OpensStream.of_newStream {p₀ p q p' : Proto} {id slot : ℕ} {dropped : Bool}
    (hnew : p.newStream id = some (q, slot)) (hkeys₀ : p.keys = p₀.keys)
    (hconfig : p.config = p₀.config) (hsteady : Steady p₀ p') (hserving : p₀.failed = false)
    (hfresh : ¬ p₀.Seen id) (hseen : p'.Seen id) (hrange : 0 < id ∧ id < 2 ^ 31)
    (hkeys : p'.keys = q.keys.set slot (id, dropped)) (hresets : ∀ x, p'.Reset x → p₀.Reset x) :
    OpensStream p₀ p' id dropped := by
  refine ⟨hsteady, hserving, hfresh, hseen, hrange, ?_, hresets⟩
  rw [hkeys]
  rcases newStream_keys hnew with ⟨old, hold, hq⟩ | ⟨hroom, rfl, hq⟩
  · rw [hkeys₀] at hold hq
    rw [hq, List.set_set]
    exact Or.inl ⟨slot, old, hold, rfl⟩
  · rw [hkeys₀, hconfig] at hroom
    rw [hq, hkeys₀]
    refine Or.inr ⟨hroom, ?_⟩
    rw [List.set_append_right _ _ (le_refl _), Nat.sub_self]
    rfl

def Proto.skipId (p : Proto) : Proto := { p with nextStreamId := p.nextStreamId + 2 }

theorem sameTable_skip (p : Proto) : SameTable p p.skipId where
  mode := rfl
  config := rfl
  next := Nat.le_add_right _ _
  peer := le_refl _
  failed := id
  frame := id
  own h := by
    unfold Proto.OwnNext Proto.peerInitiated at h ⊢
    unfold Proto.skipId
    dsimp only
    rw [Nat.add_mod_right]
    exact h
  header _ h := Or.inl h
  keys := rfl
  resets _ h := h

theorem setBody_same (p : Proto) (slot : ℕ) (body : Option Bytes) (source : Option ℕ) :
    SameTable p (setBody p slot body source) := by
  unfold setBody
  split
  · exact .modify p slot (fun _ => rfl) fun _ h => h
  · split_ifs
    · exact .refl p
    · exact .modify p slot (fun _ => rfl) fun _ h => h
  · exact .refl p

theorem Kept.next_fresh {start : Proto} {g : Page} (h : Kept start g) :
    ¬ g.p.Seen g.p.nextStreamId := by
  have hown := h.own.2
  unfold Proto.OwnNext at hown
  unfold Proto.Seen
  rw [if_neg (by rw [hown]; exact Bool.false_ne_true)]
  exact lt_irrefl _

theorem Kept.expects_seen {start : Proto} {g : Page} (h : Kept start g) {id : ℕ}
    (hid : g.p.Expects id) : g.p.Seen id := by
  rcases h.header id hid with hk | hone
  · exact h.table.seen hk
  · exact h.known id (Or.inr (by omega))

section requests

variable {host : Host σ} {start : Proto}

theorem Steady.with_streams {p₀ p : Proto} (h : Steady p₀ p) (streams : List Stream) (last : ℕ) :
    Steady p₀ { p with streams := streams, lastProcStreamId := last } :=
  ⟨h.mode, h.config, h.next, h.peer, h.failed, h.frame, h.own, h.header⟩

theorem skipId_seen {p : Proto} (h : p.OwnNext) : p.skipId.Seen p.nextStreamId := by
  have hside : p.skipId.peerInitiated p.nextStreamId = false := h
  unfold Proto.Seen
  rw [hside, if_neg Bool.false_ne_true]
  exact Nat.lt_add_of_pos_right (by decide)

theorem openRequest_eq (st : St σ) (hdrs : List Header) (endStream : Bool)
    (priority : Option Priority) : openRequest st hdrs endStream priority =
      match st.p.skipId.newStream st.p.nextStreamId with
      | none => (st.setP st.p.skipId, none)
      | some (p, slot) =>
          match outHeaders (st.setP (p.modifyStream slot fun s => { s with endStreamSent := endStream }))
              st.p.nextStreamId hdrs endStream priority with
          | (st', false) =>
              (st'.setP (st'.p.modifyStream slot fun s =>
                { s with closed := true, body := none, source := none }), none)
          | (st', true) => (st', some (st.p.nextStreamId, slot)) :=
  rfl

/-- A request turns pages: its stream is opened and announced, opened and dropped at once, or dropped
by an engine that failed. -/
theorem openRequest_turns {st : St σ} (hk : Kept start st.page) (hserving : st.p.failed = false)
    (hmax : st.p.nextStreamId < 2 ^ 31) (hdrs : List Header) (endStream : Bool)
    (priority : Option Priority) :
    Turns st.page (openRequest st hdrs endStream priority).1.page := by
  rw [openRequest_eq]
  have hskip := sameTable_skip st.p
  have hrange : 0 < st.p.nextStreamId ∧ st.p.nextStreamId < 2 ^ 31 := ⟨hk.own.1, hmax⟩
  split
  · exact turns_setP hskip
  next q slot hnew =>
    obtain ⟨⟨streams, last, hq⟩, hlt, hfresh, -⟩ := newStream_spec hnew
    -- the engine with the new stream, before its header block
    generalize hp : q.modifyStream slot (fun s => { s with endStreamSent := endStream }) = p
    have hltp : slot < p.streams.length := by rw [← hp]; exact lt_modifyStream hlt _
    have hstream : (p.stream slot).id = st.p.nextStreamId ∧ (p.stream slot).closed = false := by
      rw [← hp, stream_modifyStream hlt, hfresh]
      exact ⟨rfl, rfl⟩
    have hkeysp : p.keys = q.keys := by
      rw [← hp]
      exact keys_modifyStream_same q slot fun _ => rfl
    have hresetp : ∀ x, p.Reset x → st.p.Reset x := by
      intro x hx
      rw [← hp] at hx
      apply newStream_reset hnew
      apply reset_modifyStream _ _ hx
      · exact fun _ => rfl
      · exact fun _ h => h
    have hsteadyp : Steady st.p p := by
      rw [← hp, hq]
      exact hskip.toSteady.with_streams _ last
    have hseenp : p.Seen st.p.nextStreamId := by
      rw [← hp, hq]
      exact skipId_seen hk.own.2
    have hopens : OpensStream st.p p st.p.nextStreamId false := by
      refine .of_newStream hnew hskip.keys hskip.config hsteadyp hserving hk.next_fresh hseenp hrange
        ?_ hresetp
      rw [hkeysp, newStream_set hnew]
    have hopen : Turns st.page (st.setP p).page := .single (.opens st.page hopens)
    have hkp := hopen.keeps hk
    have hmem : (st.p.nextStreamId, false) ∈ p.keys := by
      have h := open_mem hstream.2
      rw [hstream.1] at h
      exact h
    -- a block that did not go out leaves the stream closed
    have hdrop : ∀ hpack, OpensStream st.p ((p.withHpack hpack).modifyStream slot fun s =>
        { s with closed := true, body := none, source := none }) st.p.nextStreamId true := by
      intro hpack
      refine .of_newStream hnew hskip.keys hskip.config ?_ hserving hk.next_fresh hseenp hrange ?_
        fun x hx => ?_
      · exact ⟨hsteadyp.mode, hsteadyp.config, hsteadyp.next, hsteadyp.peer, hsteadyp.failed,
          hsteadyp.frame, hsteadyp.own, hsteadyp.header⟩
      · have hkeys := @keys_modifyStream_closed (p.withHpack hpack) slot hltp
          (fun s => { s with closed := true, body := none, source := none }) (fun _ => rfl) fun _ => rfl
        rw [show (p.withHpack hpack).keys = q.keys from hkeysp,
          show ((p.withHpack hpack).stream slot).id = st.p.nextStreamId from hstream.1] at hkeys
        exact hkeys
      · apply hresetp
        apply @reset_modifyStream (p.withHpack hpack) slot _ _ _ x hx
        · exact fun _ => rfl
        · exact fun _ h => h
    have hlimit : 0 < p.peerSettings.maxFrameSize :=
      lt_of_lt_of_le (show 0 < defaultFrameBytes by decide) hkp.frame.1
    have hturns := @outHeaders_turns σ start (st.setP p) hkp st.p.nextStreamId hmem hdrs endStream
      priority
    rcases @outHeaders_cases σ (st.setP p) st.p.nextStreamId hdrs endStream priority hmax hlimit
      hkp.frame.2 with ⟨hpack, he⟩ | ⟨hpack, he⟩ | ⟨hpack, block, he⟩
    · rw [he]
      exact .single (.opens st.page (hdrop hpack))
    · rw [he] at hturns ⊢
      dsimp only at hturns ⊢
      have hsilent := protoFail_silent ((st.setP p).setP (p.withHpack hpack)) errInternalError
      have hfailed := protoFail_failed ((st.setP p).setP (p.withHpack hpack)) errInternalError
      have hstreams := protoFail_streams ((st.setP p).setP (p.withHpack hpack)) errInternalError
      generalize hst₃ : protoFail ((st.setP p).setP (p.withHpack hpack)) errInternalError = st₃
        at hturns hsilent hfailed hstreams
      rw [show protoFail ((st.setP p).setP ((st.setP p).p.withHpack hpack)) errInternalError = st₃
        from hst₃] at hturns ⊢
      have hstream₃ : st₃.p.stream slot = p.stream slot := by
        unfold Proto.stream
        rw [hstreams]
        rfl
      have hopen₃ : (st₃.p.stream slot).closed = false := by
        rw [hstream₃]
        exact hstream.2
      have hclose := @ClosesStream.modify st₃.p slot hopen₃
        (fun s => { s with closed := true, body := none, source := none }) (fun _ => rfl)
        (fun _ => rfl) fun _ h => h
      rw [hstream₃, hstream.1] at hclose
      refine (hopen.trans hturns).trans (.single (.drops st₃.page hclose hfailed ?_ ?_ ?_))
      · exact fun h => hk.next_fresh (hk.known _ (Or.inl (hsilent.announced _ h)))
      · rintro ⟨hin, hid⟩
        refine hk.next_fresh (hk.expects_seen ⟨?_, ?_⟩)
        · have hin' := hsilent.header.symm.trans hin
          rw [← hp, hq] at hin'
          exact hin'
        · have hid' := hsilent.stream.symm.trans hid
          rw [← hp, hq] at hid'
          exact hid'
      · intro x hx
        apply reset_modifyStream _ _ hx
        · exact fun _ => rfl
        · exact fun _ h => h
    · rw [he] at hturns ⊢
      exact hopen.trans hturns

theorem ensurePreface_table {st st₁ : St σ} {ok : Bool} (h : ensurePreface st = (st₁, ok)) :
    st₁.p.failed = st.p.failed ∧ st₁.p.nextStreamId = st.p.nextStreamId ∧
      st₁.p.streams = st.p.streams := by
  obtain ⟨out, sent, done, hp, -⟩ := (ensurePreface_greeted st).engine
  rw [h] at hp
  rw [hp]
  exact ⟨rfl, rfl, rfl⟩

theorem mayOpen_serving {p : Proto} (h : ¬ ¬ mayOpen p = true) : p.failed = false := by
  have h := not_not.1 h
  unfold mayOpen at h
  simp only [Bool.and_eq_true, Bool.not_eq_true'] at h
  exact h.1.2

theorem submitRequestEx_turns {st : St σ} (hk : Kept start st.page) (hdrs : List Header)
    (body : Option Bytes) (source : Option ℕ) (weight : ℕ) (dep : Int) (exclusive : Bool) :
    Turns st.page (submitRequestEx st hdrs body source weight dep exclusive).1.page := by
  have hpreface := ensurePreface_turns st
  unfold submitRequestEx
  by_cases hrefused : ¬ mayOpen st.p ∨ (body.isSome ∧ source.isSome) ∨ 256 < weight
  · rw [if_pos hrefused]
  rw [if_neg hrefused]
  dsimp only
  by_cases hid : 0x7ffffffe < st.p.nextStreamId ∨ dep = st.p.nextStreamId
  · rw [if_pos hid]
  rw [if_neg hid]
  split
  next st₁ hst₁ => exact turns_of_eq hpreface hst₁
  next st₁ hst₁ =>
    have hst₁' := turns_of_eq hpreface hst₁
    obtain ⟨hfailed, hnext, -⟩ := ensurePreface_table hst₁
    have hserving : st₁.p.failed = false :=
      hfailed.trans (mayOpen_serving fun h => hrefused (Or.inl h))
    have hmax : st₁.p.nextStreamId < 2 ^ 31 := by
      rw [hnext]
      omega
    have hopen := openRequest_turns (hst₁'.keeps hk) hserving hmax hdrs
    split
    next st₂ hst₂ => exact hst₁'.trans (turns_of_eq (hopen _ _) hst₂)
    next st₂ id slot hst₂ =>
      exact (hst₁'.trans (turns_of_eq (hopen _ _) hst₂)).trans (turns_setP (setBody_same _ _ _ _))

theorem submitRequestHeaders_turns {st : St σ} (hk : Kept start st.page) (hdrs : List Header)
    (endStream : Bool) : Turns st.page (submitRequestHeaders st hdrs endStream).1.page := by
  have hpreface := ensurePreface_turns st
  unfold submitRequestHeaders
  split_ifs with hrefused
  · exact .refl
  split
  next st₁ hst₁ => exact turns_of_eq hpreface hst₁
  next st₁ hst₁ =>
    have hst₁' := turns_of_eq hpreface hst₁
    obtain ⟨hfailed, hnext, -⟩ := ensurePreface_table hst₁
    have hserving : st₁.p.failed = false :=
      hfailed.trans (mayOpen_serving fun h => hrefused (Or.inl h))
    have hmax : st₁.p.nextStreamId < 2 ^ 31 := by
      rw [hnext]
      omega
    exact hst₁'.trans (openRequest_turns (hst₁'.keeps hk) hserving hmax hdrs endStream none)

/-! ## The other calls -/

theorem findOpen_key {p : Proto} {id slot : ℕ} (h : p.findOpen id = some slot) :
    (id, false) ∈ p.keys := by
  obtain ⟨-, hid, hclosed⟩ := findOpen_spec h
  have hmem := open_mem hclosed
  rw [hid] at hmem
  exact hmem

theorem ensurePreface_open {st st₁ : St σ} {ok : Bool} (h : ensurePreface st = (st₁, ok))
    {id slot : ℕ} (hslot : st.p.findOpen id = some slot) : (id, false) ∈ st₁.p.keys := by
  have hmem := findOpen_key hslot
  unfold Proto.keys at hmem ⊢
  rw [(ensurePreface_table h).2.2]
  exact hmem

theorem submitHeaders_turns (hh : host.Turning start) {st : St σ} (hk : Kept start st.page)
    (streamId : ℕ) (hdrs : List Header) (endStream : Bool) :
    Turns st.page (submitHeaders host st streamId hdrs endStream).1.page := by
  have hpreface := ensurePreface_turns st
  unfold submitHeaders
  split
  · exact .refl
  split
  · exact .refl
  next slot hslot =>
  split
  next st₁ hst₁ => exact turns_of_eq hpreface hst₁
  next st₁ hst₁ =>
    have hst₁' := turns_of_eq hpreface hst₁
    have hblock := outHeaders_turns (hst₁'.keeps hk) (ensurePreface_open hst₁ hslot) hdrs endStream
      none
    split
    next st₂ hst₂ => exact hst₁'.trans (turns_of_eq hblock hst₂)
    next st₂ hst₂ =>
      have hst₂' := hst₁'.trans (turns_of_eq hblock hst₂)
      split_ifs
      · have hsent : Turns st.page (st₂.setP (st₂.p.modifyStream slot fun s =>
            { s with endStreamSent := true })).page :=
          hst₂'.trans (turns_setP (.modify _ _ (fun _ => rfl) fun _ h => h))
        exact hsent.trans (maybeClose_turns hh (hsent.keeps hk) slot)
      · exact hst₂'

theorem submitResponseEx_turns (hh : host.Turning start) {st : St σ} (hk : Kept start st.page)
    (streamId : ℕ) (hdrs : List Header) (body : Option Bytes) (source : Option ℕ) :
    Turns st.page (submitResponseEx host st streamId hdrs body source).1.page := by
  have hpreface := ensurePreface_turns st
  unfold submitResponseEx
  split_ifs
  · exact .refl
  split
  · exact .refl
  next slot hslot =>
  split
  next st₁ hst₁ => exact turns_of_eq hpreface hst₁
  next st₁ hst₁ =>
    have hst₁' := turns_of_eq hpreface hst₁
    dsimp only
    generalize (decide (bodyLen body = 0) && source.isNone) = endStream
    have hsame : SameTable st₁.p (st₁.p.modifyStream slot fun s =>
        { s with endStreamSent := endStream }) := .modify _ _ (fun _ => rfl) fun _ h => h
    have hflag := hst₁'.trans (turns_setP hsame)
    have hopen : (streamId, false) ∈
        (st₁.p.modifyStream slot fun s => { s with endStreamSent := endStream }).keys := by
      rw [hsame.keys]
      exact ensurePreface_open hst₁ hslot
    have hblock := outHeaders_turns (Turns.keeps hflag hk) hopen hdrs endStream none
    split
    next st₂ hst₂ => exact hflag.trans (turns_of_eq hblock hst₂)
    next st₂ hst₂ =>
      have hst₂' := hflag.trans (turns_of_eq hblock hst₂)
      split_ifs
      · exact hst₂'.trans (maybeClose_turns hh (Turns.keeps hst₂' hk) slot)
      · exact hst₂'.trans (turns_setP (setBody_same _ _ _ _))

theorem submitData_turns (st : St σ) (streamId : ℕ) (data : Bytes) (endStream : Bool) :
    Turns st.page (submitData st streamId data endStream).1.page := by
  have hpreface := ensurePreface_turns st
  unfold submitData
  split_ifs
  · exact .refl
  split
  · exact .refl
  next slot hslot =>
  dsimp only
  split_ifs
  · exact .refl
  split
  next st₁ hst₁ => exact turns_of_eq hpreface hst₁
  next st₁ hst₁ =>
    exact (turns_of_eq hpreface hst₁).trans (turns_setP (.modify _ _ (fun _ => rfl) fun _ h => h))

theorem submitTrailers_turns (hh : host.Turning start) {st : St σ} (hk : Kept start st.page)
    (streamId : ℕ) (hdrs : List Header) :
    Turns st.page (submitTrailers host st streamId hdrs).1.page := by
  have hpreface := ensurePreface_turns st
  unfold submitTrailers
  split_ifs
  · exact .refl
  split
  · exact .refl
  next slot hslot =>
  split
  next st₁ hst₁ => exact turns_of_eq hpreface hst₁
  next st₁ hst₁ =>
    have hst₁' := turns_of_eq hpreface hst₁
    dsimp only
    split_ifs
    · exact hst₁'
    · split
      · exact hst₁'
      next blk hblk =>
        split
        · exact hst₁'.trans (turns_setP (sameTable_withHpack _ _))
        next hpack blk' henc =>
          have hsame := sameTable_withHpack st₁.p hpack
          exact hst₁'.trans (turns_setP (hsame.trans (.modify _ _ (fun _ => rfl) fun _ h => h)))
    · have hsame : SameTable st₁.p (st₁.p.modifyStream slot fun s =>
          { s with endStreamSent := true, bodyEof := false }) :=
        .modify _ _ (fun _ => rfl) fun _ h => h
      have hflag := hst₁'.trans (turns_setP hsame)
      have hopen : (streamId, false) ∈ (st₁.p.modifyStream slot fun s =>
          { s with endStreamSent := true, bodyEof := false }).keys := by
        rw [hsame.keys]
        exact ensurePreface_open hst₁ hslot
      have hblock := outHeaders_turns (Turns.keeps hflag hk) hopen hdrs true none
      split
      next st₂ hst₂ => exact hflag.trans (turns_of_eq hblock hst₂)
      next st₂ hst₂ =>
        have hst₂' := hflag.trans (turns_of_eq hblock hst₂)
        exact hst₂'.trans (maybeClose_turns hh (Turns.keeps hst₂' hk) slot)

theorem consumeConnection_turns (st : St σ) (bytes : ℕ) :
    Turns st.page (consumeConnection st bytes).1.page := by
  have hrecord := @turns_plain σ st (.consumeStart bytes) rfl rfl
  have hset : ∀ consumed, SameTable st.p { st.p with connConsumed := consumed } :=
    fun consumed => .of_eq rfl rfl rfl rfl (fun h => h) rfl rfl rfl rfl rfl
  unfold consumeConnection
  dsimp only
  split_ifs
  · exact hrecord
  · exact hrecord
  · have hzero := hrecord.trans (@turns_setP σ (st.record (.consumeStart bytes)) _ (hset 0))
    exact hzero.trans (submitWindowUpdate_turns _ _ _)
  · exact hrecord.trans (@turns_setP σ (st.record (.consumeStart bytes)) _ (hset _))

theorem consumeStream_turns (st : St σ) (streamId bytes : ℕ) :
    Turns st.page (consumeStream st streamId bytes).1.page := by
  unfold consumeStream
  split_ifs
  · exact .refl
  split
  · exact .refl
  · exact submitWindowUpdate_turns st streamId bytes

theorem resumeSource_turns (hh : host.Turning start) {st : St σ} (hk : Kept start st.page)
    (streamId : ℕ) : Turns st.page (resumeSource host st streamId).1.page := by
  unfold resumeSource
  split
  · exact .refl
  next slot hslot =>
  dsimp only
  split_ifs
  · exact .refl
  · have hset : Turns st.page (st.setP (st.p.modifyStream slot fun s =>
        { s with sourceWaiting := false })).page :=
      turns_setP (.modify _ _ (fun _ => rfl) fun _ h => h)
    exact hset.trans (callback_plain hh (hset.keeps hk) rfl rfl)

theorem terminate_turns (hh : host.Turning start) {st : St σ} (hk : Kept start st.page)
    (errorCode : ℕ) : Turns st.page (terminate host st errorCode).1.page := by
  have hgoaway := submitGoaway_turns st st.p.lastProcStreamId errorCode
  unfold terminate
  split
  next st₁ hst₁ => exact turns_of_eq hgoaway hst₁
  next st₁ hst₁ =>
    have hst₁' := turns_of_eq hgoaway hst₁
    refine hst₁'.trans (forSlots_turns (fun slot st₂ hk₂ => ?_) _ _ (hst₁'.keeps hk))
    dsimp only
    split_ifs with hclosed
    · exact .refl
    · apply close_turns hh hk₂
      exact .modify (Bool.eq_false_of_not_eq_true hclosed) (fun _ => rfl) (fun _ => rfl) fun _ h => h

theorem setLocalSettings_turns (st : St σ) (a b c d e f : ℕ) :
    Turns st.page (setLocalSettings st a b c d e f).1.page := by
  unfold setLocalSettings
  dsimp only
  split_ifs
  · exact .refl
  split
  · exact .refl
  · exact turns_setP (.of_eq rfl rfl rfl rfl (fun h => h) rfl rfl rfl rfl rfl)

/-- Every call turns pages. -/
theorem call_turns (hh : host.Turning start) {st : St σ} (hk : Kept start st.page) (c : Call) :
    Turns st.page (call host st c).1.page := by
  have hrecord := @turns_plain σ st (.call c) rfl rfl
  have hk' := hrecord.keeps hk
  unfold call
  refine hrecord.trans ?_
  cases c with
  | submitRequestEx hdrs body source weight dep exclusive =>
    exact submitRequestEx_turns hk' hdrs body source weight dep exclusive
  | submitRequestHeaders hdrs endStream => exact submitRequestHeaders_turns hk' hdrs endStream
  | submitHeaders streamId hdrs endStream => exact submitHeaders_turns hh hk' streamId hdrs endStream
  | submitResponseEx streamId hdrs body source =>
    exact submitResponseEx_turns hh hk' streamId hdrs body source
  | submitData streamId data endStream => exact submitData_turns _ streamId data endStream
  | submitTrailers streamId hdrs => exact submitTrailers_turns hh hk' streamId hdrs
  | submitSettings => exact submitSettings_turns _
  | submitPing opaqueBytes => exact submitPing_turns _ opaqueBytes
  | submitWindowUpdate streamId increment => exact submitWindowUpdate_turns _ streamId increment
  | submitRstStream streamId errorCode => exact submitRstStream_turns hh hk' streamId errorCode
  | submitGoaway lastStreamId errorCode => exact submitGoaway_turns _ lastStreamId errorCode
  | resumeSource streamId => exact resumeSource_turns hh hk' streamId
  | consumeConnection bytes => exact consumeConnection_turns _ bytes
  | consumeStream streamId bytes => exact consumeStream_turns _ streamId bytes
  | terminate errorCode => exact terminate_turns hh hk' errorCode
  | setSendChunk chunk =>
    exact turns_setP (.of_eq rfl rfl rfl rfl (fun h => h) rfl rfl rfl rfl rfl)
  | setLocalSettings a b c d e f => exact setLocalSettings_turns _ a b c d e f
  | setLocalEnableConnectProtocol enable =>
    exact turns_setP (.of_eq rfl rfl rfl rfl (fun h => h) rfl rfl rfl rfl rfl)

end requests

end Chttp.H2
