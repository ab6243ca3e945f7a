import TurboUtils.Chttp.H2.IdentitySend

/-! The receive path turns pages. -/
namespace Chttp.H2

open Chttp.Hpack (Header)

variable {σ : Type*}

/-! ## SETTINGS -/

theorem SameTable.of_settings {p : Proto} {peer : Settings}
    (h : p.PeerFrameSize → { p with peerSettings := peer }.PeerFrameSize) :
    SameTable p { p with peerSettings := peer } :=
  ⟨⟨rfl, rfl, le_refl _, le_refl _, id, h, id, fun _ h => Or.inl h⟩, rfl, fun _ h => h⟩

theorem shiftWindows_same (p : Proto) (value : ℕ) : SameTable p (shiftWindows p value) where
  toSteady := ⟨rfl, rfl, le_refl _, le_refl _, id, id, id, fun _ h => Or.inl h⟩
  keys := by
    unfold shiftWindows Proto.keys
    rw [List.map_map]
    refine List.map_congr_left fun s _ => ?_
    simp only [Function.comp_apply]
    split_ifs <;> rfl
  resets id h := by
    rcases h with h | ⟨s, hs, hid, hreset⟩
    · exact Or.inl h
    · obtain ⟨t, ht, rfl⟩ := List.mem_map.1 hs
      refine Or.inr ⟨t, ht, ?_⟩
      split_ifs at hid hreset
      · exact ⟨hid, hreset⟩
      · exact ⟨hid, hreset⟩

theorem applyPeerSetting_same (p : Proto) (id value : ℕ) :
    SameTable p (applyPeerSetting p id value).1 := by
  unfold applyPeerSetting
  dsimp only
  split
  · exact .of_settings fun h => h
  split
  · split
    · exact .refl p
    · exact .of_settings fun h => h
  split
  · split
    · exact .refl p
    · exact .of_settings fun h => h
  split
  · exact .of_settings fun h => h
  split
  · split
    · exact .refl p
    split
    · exact shiftWindows_same p value
    · exact .refl p
  split
  · split
    · exact .refl p
    next hrange =>
      refine .of_settings fun _ => ?_
      rw [not_or, Nat.not_lt, Nat.not_lt] at hrange
      exact hrange
  split
  · exact .of_settings fun h => h
  · exact .refl p

theorem applyPeerSettings_same (p : Proto) (values : List (ℕ × ℕ)) :
    SameTable p (applyPeerSettings p values).1 := by
  induction values generalizing p with
  | nil => exact .refl p
  | cons v values ih =>
    obtain ⟨id, value⟩ := v
    have hone := applyPeerSetting_same p id value
    unfold applyPeerSettings
    generalize applyPeerSetting p id value = r at hone
    obtain ⟨p', error⟩ := r
    dsimp only at hone ⊢
    split
    · exact hone
    · exact hone.trans (ih p')

theorem turns_reply (st : St σ) {f : Frame} (hf : f.type ≠ .headers) (error : ℕ) :
    Turns st.page (match outFrame st f with
      | (st, false) => protoFail st error
      | (st, true) => st).page := by
  have hout := turns_outFrame st f fun h => absurd h hf
  split
  next st₁ hst₁ => exact (turns_of_eq hout hst₁).trans (protoFail_turns _ _)
  next st₁ hst₁ => exact turns_of_eq hout hst₁

section host

variable {host : Host σ} {start : Proto}

theorem dispatchSettings_turns (hh : host.Turning start) {st : St σ} (hk : Kept start st.page)
    (hdr : FrameHeader) (payload : Bytes) :
    Turns st.page (dispatchSettings host st hdr payload).page := by
  unfold dispatchSettings
  split
  · exact protoFail_turns st _
  split
  · split
    · exact protoFail_turns st _
    · have hacked : Turns st.page (st.setP { st.p with settingsAcked := true }).page :=
        turns_setP (.of_eq rfl rfl rfl rfl (fun h => h) rfl rfl rfl rfl rfl)
      exact hacked.trans (callback_plain hh (hacked.keeps hk) rfl rfl)
  split
  · exact protoFail_turns st _
  next values hvalues =>
  have hrecord := @turns_plain σ st (.settingsIn values) rfl rfl
  have happly := applyPeerSettings_same (st.record (.settingsIn values)).p values
  dsimp only
  generalize applyPeerSettings (st.record (.settingsIn values)).p values = r at happly
  obtain ⟨p, error⟩ := r
  have happlied : Turns st.page ((st.record (.settingsIn values)).setP p).page :=
    hrecord.trans (turns_setP happly)
  dsimp only
  split
  · exact happlied.trans (protoFail_turns _ _)
  have hreceived : Turns st.page ((st.record (.settingsIn values)).setP
      { p with peerSettingsReceived := true }).page :=
    happlied.trans (@turns_setP σ ((st.record (.settingsIn values)).setP p) _
      (.of_eq rfl rfl rfl rfl (fun h => h) rfl rfl rfl rfl rfl))
  have hcalled := @callback_plain σ host start hh _ (hreceived.keeps hk) (.settings values) rfl rfl
  exact (hreceived.trans hcalled).trans (@turns_reply σ _ ⟨.settings, flagAck, 0, []⟩ nofun _)

/-! ## Single frames -/

theorem dispatchWindowUpdate_turns (hh : host.Turning start) {st : St σ} (hk : Kept start st.page)
    (hdr : FrameHeader) (payload : Bytes) :
    Turns st.page (dispatchWindowUpdate host st hdr payload).page := by
  have hnotify : ∀ st₁ : St σ, Turns st.page st₁.page → ∀ inc, Turns st.page
      (callback host (callback host st₁ (.windowUpdate hdr.streamId inc)).1 .wakeWrite).1.page := by
    intro st₁ h₁ inc
    have hcalled := h₁.trans (@callback_plain σ host start hh st₁ (h₁.keeps hk)
      (.windowUpdate hdr.streamId inc) rfl rfl)
    exact hcalled.trans (callback_plain hh (Turns.keeps hcalled hk) rfl rfl)
  unfold dispatchWindowUpdate
  split
  · exact protoFail_turns st _
  dsimp only
  generalize readU32 payload % 2 ^ 31 = inc
  generalize windowAccepted st.p hdr.streamId inc = accepted
  have hrecord := @turns_plain σ st (.windowIn hdr.streamId inc accepted) rfl rfl
  split
  · exact hrecord.trans (protoFail_turns _ _)
  split
  · split
    · exact hrecord.trans (protoFail_turns _ _)
    · apply hnotify
      exact hrecord.trans (turns_setP (.of_eq rfl rfl rfl rfl (fun h => h) rfl rfl rfl rfl rfl))
  split
  · split
    · exact hrecord
    · exact hrecord.trans (protoFail_turns _ _)
  split
  · exact hrecord
  split
  · exact hrecord.trans (protoFail_turns _ _)
  · apply hnotify
    exact hrecord.trans (turns_setP (.modify _ _ (fun _ => rfl) fun _ h => h))

theorem localResetForget_same (p : Proto) (id : ℕ) : SameTable p (p.localResetForget id) := by
  unfold Proto.localResetForget
  split
  · exact .refl p
  · refine ⟨⟨rfl, rfl, le_refl _, le_refl _, fun h => h, fun h => h, fun h => h, fun _ h => Or.inl h⟩,
      rfl, fun x hx => ?_⟩
    rcases hx with ⟨h0, hx⟩ | hx
    · obtain ⟨y, hy, hyx⟩ := List.mem_map.1 hx
      split_ifs at hyx
      · exact absurd hyx.symm h0
      · exact Or.inl ⟨h0, hyx ▸ hy⟩
    · exact Or.inr hx

theorem turns_forget {st : St σ} (slot id : ℕ) {f : Stream → Stream} (hf : ∀ s, (f s).key = s.key)
    (hreset : ∀ s, (f s).localReset = false) :
    Turns st.page (st.setP ((st.p.modifyStream slot f).localResetForget id)).page := by
  refine turns_setP (SameTable.trans (.modify st.p slot hf fun s h => ?_) (localResetForget_same _ id))
  rw [hreset] at h
  cases h

theorem dispatchRstStream_turns (hh : host.Turning start) {st : St σ} (hk : Kept start st.page)
    (hdr : FrameHeader) (payload : Bytes) :
    Turns st.page (dispatchRstStream host st hdr payload).page := by
  unfold dispatchRstStream
  split
  · exact protoFail_turns st _
  split
  · exact protoFail_turns st _
  split
  · split
    · exact turns_setP (localResetForget_same _ _)
    · exact protoFail_turns st _
  next slot hslot =>
  have hid := (find_spec hslot).2
  dsimp only
  have hclosed : Turns st.page (if (st.p.stream slot).closed then st
      else (callback host (st.setP (st.p.modifyStream slot Stream.dropOutput))
        (.streamClose hdr.streamId (readU32 payload))).1).page := by
    split
    · exact .refl
    next hopen =>
      have hclose := @ClosesStream.modify st.p slot (Bool.eq_false_of_not_eq_true hopen)
        Stream.dropOutput (fun _ => rfl) (fun _ => rfl) fun _ h => h
      rw [hid] at hclose
      exact close_turns hh hk _ hclose
  have hforgot := hclosed.trans (turns_forget slot hdr.streamId
    (f := fun s => { s with localReset := false }) (fun _ => rfl) fun _ => rfl)
  exact hforgot.trans (callback_plain hh (Turns.keeps hforgot hk) rfl rfl)

theorem dispatchGoaway_turns (hh : host.Turning start) {st : St σ} (hk : Kept start st.page)
    (hdr : FrameHeader) (payload : Bytes) :
    Turns st.page (dispatchGoaway host st hdr payload).page := by
  unfold dispatchGoaway
  split
  · exact protoFail_turns st _
  generalize frameGoawayParse payload = parsed
  obtain ⟨last, error⟩ := parsed
  have hdraining : Turns st.page (st.setP { st.p with
      goawayReceivedLast := some last, goawayReceivedError := error, draining := true }).page :=
    turns_setP (.of_eq rfl rfl rfl rfl (fun h => h) rfl rfl rfl rfl rfl)
  have hcalled := hdraining.trans
    (@callback_plain σ host start hh _ (hdraining.keeps hk) (.goaway last error) rfl rfl)
  refine hcalled.trans (forSlots_turns (fun slot st₁ hk₁ => ?_) _ _ (Turns.keeps hcalled hk))
  dsimp only
  split
  next h =>
    apply close_turns hh hk₁
    exact .modify (Bool.eq_false_of_not_eq_true h.1) (fun _ => rfl) (fun _ => rfl) fun _ h => h
  · exact .refl

theorem dispatchPing_turns (hh : host.Turning start) {st : St σ} (hk : Kept start st.page)
    (hdr : FrameHeader) (payload : Bytes) :
    Turns st.page (dispatchPing host st hdr payload).page := by
  unfold dispatchPing
  split
  · exact protoFail_turns st _
  split
  · exact callback_plain hh hk rfl rfl
  · exact @turns_reply σ st ⟨.ping, flagAck, 0, payload⟩ nofun _

/-! ## DATA -/

theorem drainConnection_turns (st : St σ) (length : ℕ) :
    Turns st.page (drainConnection st length).1.page := by
  unfold drainConnection
  split
  · exact consumeConnection_turns st length
  · exact .refl

theorem creditHidden_turns (st : St σ) (streamId hidden : ℕ) :
    Turns st.page (creditHidden st streamId hidden).1.page := by
  have hstream := consumeStream_turns st streamId hidden
  unfold creditHidden
  split
  · exact .refl
  split
  next st₁ hst₁ => exact turns_of_eq hstream hst₁
  next st₁ hst₁ => exact (turns_of_eq hstream hst₁).trans (consumeConnection_turns _ _)

theorem finishData_turns (hh : host.Turning start) {st : St σ} (hk : Kept start st.page)
    (slot : ℕ) (hdr : FrameHeader) (status : Int) :
    Turns st.page (finishData host st slot hdr status).page := by
  unfold finishData
  dsimp only
  split
  · exact turns_setP (.of_eq rfl rfl rfl rfl (fun h => h) rfl rfl rfl rfl rfl)
  split
  · exact protoFail_turns st _
  split
  · have hforgot : Turns st.page (if (st.p.stream slot).localReset then
        st.setP ((st.p.modifyStream slot fun s => { s with localReset := false }).localResetForget
          hdr.streamId)
        else st).page := by
      split
      · exact turns_forget slot hdr.streamId (fun _ => rfl) fun _ => rfl
      · exact .refl
    exact hforgot.trans (maybeClose_turns hh (hforgot.keeps hk) slot)
  · exact .refl

theorem turns_drained {st : St σ} {r : St σ × Bool} (hr : Turns st.page r.1.page) (error : ℕ)
    {k : St σ → St σ} (hk : ∀ st₁ : St σ, Turns st₁.page (k st₁).page) :
    Turns st.page (match r with
      | (st, false) => protoFail st error
      | (st, true) => k st).page := by
  split
  · exact hr.trans (protoFail_turns _ _)
  · exact hr.trans (hk _)

theorem dataOnStream_turns (hh : host.Turning start) {st : St σ} (hk : Kept start st.page)
    (slot : ℕ) (hdr : FrameHeader) (data : Bytes) :
    Turns st.page (dataOnStream host st slot hdr data).page := by
  unfold dataOnStream
  dsimp only
  split
  · exact protoFail_turns st _
  split
  · refine turns_drained (drainConnection_turns st hdr.length) _ fun st₁ => ?_
    split
    · exact turns_forget slot hdr.streamId (fun _ => rfl) fun _ => rfl
    · exact .refl
  split
  · exact protoFail_turns st _
  have hcharged : Turns st.page (st.setP (st.p.modifyStream slot fun s =>
      { s with recvWindow := int32 (s.recvWindow - hdr.length) })).page :=
    turns_setP (.modify _ _ (fun _ => rfl) fun _ h => h)
  have hcredit := hcharged.trans (creditHidden_turns _ hdr.streamId (hdr.length - data.length))
  split
  next st₁ hst₁ => exact (turns_of_eq hcredit hst₁).trans (protoFail_turns _ _)
  next st₁ hst₁ =>
    have hst₁' := turns_of_eq hcredit hst₁
    have hended : Turns st.page (if hasFlag hdr.flags flagEndStream then
        st₁.setP (st₁.p.modifyStream slot fun s => { s with remoteEndStream := true })
        else st₁).page := by
      split
      · exact hst₁'.trans (turns_setP (.modify _ _ (fun _ => rfl) fun _ h => h))
      · exact hst₁'
    have hcalled := hended.trans (@callback_plain σ host start hh _ (hended.keeps hk)
      (.data hdr.streamId data) rfl rfl)
    exact hcalled.trans (finishData_turns hh (Turns.keeps hcalled hk) slot hdr _)

theorem dispatchData_turns (hh : host.Turning start) {st : St σ} (hk : Kept start st.page)
    (hdr : FrameHeader) (payload : Bytes) :
    Turns st.page (dispatchData host st hdr payload).page := by
  unfold dispatchData
  generalize dataConnAccepted st.p hdr payload = conn
  generalize dataStreamAccepted st.p hdr payload = stream
  have hrecord := @turns_plain σ st (.dataIn hdr.streamId hdr.length conn stream) rfl rfl
  dsimp only
  split
  · exact hrecord.trans (protoFail_turns _ _)
  split
  · exact hrecord.trans (protoFail_turns _ _)
  next data hdata =>
  split
  · exact hrecord.trans (protoFail_turns _ _)
  have hcharged := hrecord.trans (@turns_setP σ (st.record (.dataIn hdr.streamId hdr.length conn stream))
    { st.p with connRecvWindow := int32 (st.p.connRecvWindow - hdr.length) }
    (.of_eq rfl rfl rfl rfl (fun h => h) rfl rfl rfl rfl rfl))
  split
  next slot hslot =>
    exact hcharged.trans (dataOnStream_turns hh (Turns.keeps hcharged hk) slot hdr data)
  next hslot =>
    split
    · exact hcharged.trans (protoFail_turns _ _)
    · refine hcharged.trans (turns_drained (drainConnection_turns _ hdr.length) _ fun st₁ => ?_)
      split
      · exact turns_setP (localResetForget_same _ _)
      · exact .refl

/-! ## Header blocks -/

theorem headerCallback_turns (hh : host.Turning start) {ctx : HeaderContext σ}
    (hk : Kept start ctx.st.page) {ev : Event} (hclosing : (Item.callback ev).closing = none)
    (h : ∀ id, (Item.callback ev).announcing = some id →
      (id, false) ∈ ctx.st.p.keys ∨ ctx.st.p.Expects id) :
    Turns ctx.st.page (headerCallback host ctx ev).st.page := by
  have hcall := callback_turns hh hk hclosing h
  unfold headerCallback
  split
  · exact .refl
  split
  next st₁ r hst₁ =>
    have hst₁' := turns_of_eq hcall hst₁
    split
    · exact hst₁'
    · exact hst₁'

theorem decodeBlock_turns (hh : host.Turning start) {ctx : HeaderContext σ}
    (hk : Kept start ctx.st.page) : Turns ctx.st.page (decodeBlock host ctx).1.st.page := by
  unfold decodeBlock
  dsimp only
  have hkeep := @Hpack.hpackDecode_induction _ ctx.st.p.hpack
    (headerDecode host ctx.st.p.inHeadersStream) (fun c => Turns ctx.st.page c.st.page)
    (fun c hd hc => hc.trans (headerCallback_turns hh (Turns.keeps hc hk) rfl fun id hid => by
      cases hid))
    ctx.st.p.localSettings.maxHeaderListSize ctx .refl ctx.st.p.inBlock.data
  generalize Hpack.hpackDecode ctx.st.p.hpack (headerDecode host ctx.st.p.inHeadersStream)
    ctx.st.p.localSettings.maxHeaderListSize ctx ctx.st.p.inBlock.data = r at hkeep ⊢
  obtain ⟨decoder, c, status, used⟩ := r
  have hto : Turns ctx.st.page
      (c.st.setP { c.st.p with hpack := { c.st.p.hpack with decoder } }).page :=
    hkeep.trans (turns_setP (.of_eq rfl rfl rfl rfl (fun h => h) rfl rfl rfl rfl rfl))
  cases status with
  | ok => exact hto
  | tooLarge => exact hto
  | aborted => exact hto.trans (protoFail_turns _ _)
  | error => exact hto.trans (protoFail_turns _ _)

theorem markRemoteEnd_turns (st : St σ) (slot : Option ℕ) (initiallyIgnored : Bool) :
    Turns st.page (markRemoteEnd st slot initiallyIgnored).page := by
  unfold markRemoteEnd
  dsimp only
  split
  · split
    next slot =>
      have hmark : SameTable st.p (st.p.modifyStream slot fun s => { s with remoteEndStream := true }) :=
        .modify _ _ (fun _ => rfl) fun _ h => h
      split
      · exact (turns_setP hmark).trans (turns_forget slot _ (fun _ => rfl) fun _ => rfl)
      · exact turns_setP hmark
    · split
      · exact turns_setP (localResetForget_same _ _)
      · exact .refl
  · exact .refl

theorem settle_turns (hh : host.Turning start) {st : St σ} (hk : Kept start st.page)
    (slot : Option ℕ) (r : St σ × ℕ) (id : ℕ) (endStream : Bool) (hto : Turns st.page r.1.page) :
    Turns st.page (match r with
      | (st, error) =>
        match slot with
        | none => st
        | some slot =>
            if st.p.failed ∨ (st.p.stream slot).closed then st
            else if error ≠ errNoError then
              match submitRstStream host st id error with
              | (st, false) => protoFail st errInternalError
              | (st, true) =>
                  if endStream then
                    st.setP ((st.p.modifyStream slot fun s =>
                      { s with localReset := false }).localResetForget id)
                  else st
            else maybeClose host st slot).page := by
  obtain ⟨st₁, error⟩ := r
  have hk₁ := Turns.keeps hto hk
  dsimp only
  split
  · exact hto
  split
  · exact hto
  split
  · refine hto.trans (turns_drained (submitRstStream_turns hh hk₁ id error) _ fun st₂ => ?_)
    split
    · exact turns_forget _ _ (fun _ => rfl) fun _ => rfl
    · exact .refl
  · exact hto.trans (maybeClose_turns hh hk₁ _)

theorem settleBlock_turns (hh : host.Turning start) {st : St σ} (hk : Kept start st.page)
    (slot : Option ℕ) (ignore callbackFailed : Bool) (error : ℕ) :
    Turns st.page (settleBlock host st slot ignore callbackFailed error).page := by
  unfold settleBlock
  dsimp only
  apply settle_turns hh hk
  split_ifs <;> first | exact callback_plain hh hk rfl rfl | exact .refl

theorem sameTable_finished (p : Proto) (inBlock : Buffer) :
    SameTable p { p with inHeaders := false, inBlock := inBlock } := by
  refine ⟨⟨rfl, rfl, le_refl _, le_refl _, fun h => h, fun h => h, fun h => h, fun id h => ?_⟩,
    rfl, fun _ h => h⟩
  exact absurd h.1 Bool.false_ne_true

/-- A block that is finished announces its stream first. -/
theorem finishHeaders_turns (hh : host.Turning start) {st : St σ} (hk : Kept start st.page)
    (hin : st.p.inHeaders = true) : Turns st.page (finishHeaders host st).page := by
  unfold finishHeaders
  dsimp only
  generalize (_ || st.p.localResetContains st.p.inHeadersStream) = ignored
  have hbegin := @headerCallback_turns σ host start hh ⟨st, ignored, false⟩ hk
    (.beginHeaders st.p.inHeadersStream) rfl fun id hid => by
      cases hid
      exact Or.inr ⟨hin, rfl⟩
  generalize headerCallback host ⟨st, ignored, false⟩ (.beginHeaders st.p.inHeadersStream) = ctx
    at hbegin ⊢
  have hdecode := decodeBlock_turns hh (Turns.keeps hbegin hk)
  generalize decodeBlock host ctx = r at hdecode ⊢
  obtain ⟨ctx₁, error⟩ := r
  have hmark := (hbegin.trans hdecode).trans
    (markRemoteEnd_turns ctx₁.st (st.p.find st.p.inHeadersStream) ignored)
  dsimp only
  generalize markRemoteEnd ctx₁.st (st.p.find st.p.inHeadersStream) ignored = st₁ at hmark ⊢
  have hsettle : Turns st.page (if st₁.p.failed ∨ ignored then st₁ else settleBlock host st₁
      (st.p.find st.p.inHeadersStream) ctx₁.ignore ctx₁.callbackFailed error).page := by
    split
    · exact hmark
    · exact hmark.trans (settleBlock_turns hh (Turns.keeps hmark hk) _ _ _ _)
  exact hsettle.trans (turns_setP (sameTable_finished _ _))

theorem appendBlock_turns (hh : host.Turning start) {st : St σ} (hk : Kept start st.page)
    (hin : st.p.inHeaders = true) (flags : UInt8) (bytes : Bytes) :
    Turns st.page (appendBlock host st flags bytes).page := by
  unfold appendBlock
  split
  · have hgrown : Turns st.page (st.setP { st.p with inBlock := st.p.inBlock.append bytes }).page :=
      turns_setP (.of_eq rfl rfl rfl rfl (fun h => h) rfl rfl rfl rfl rfl)
    dsimp only
    split
    · exact hgrown.trans (finishHeaders_turns hh (hgrown.keeps hk) hin)
    · exact hgrown
  · exact protoFail_turns st _

/-- The engine is as before, or a server opened the stream with an id its peer had not used. -/
theorem headersStream_table (p : Proto) (streamId : ℕ) (reset : Bool) :
    (∀ slot, (headersStream p streamId reset).2.1 = some slot →
        (headersStream p streamId reset).1.find streamId = some slot) ∧
      ((headersStream p streamId reset).1 = p ∨
        reset = false ∧ p.mode = .server ∧ streamId % 2 ≠ 0 ∧ p.maxPeerStreamId < streamId ∧
          ∃ q slot, p.newStream streamId = some (q, slot) ∧
            (headersStream p streamId reset).1 = { q with maxPeerStreamId := streamId }) := by
  unfold headersStream
  split
  next hmode hnone =>
    split
    · exact ⟨nofun, Or.inl rfl⟩
    next hreset =>
    split
    · exact ⟨nofun, Or.inl rfl⟩
    next hid =>
    split
    · exact ⟨nofun, Or.inl rfl⟩
    split
    · exact ⟨nofun, Or.inl rfl⟩
    next q slot hnew =>
      refine ⟨fun _ h => h, Or.inr ⟨Bool.eq_false_of_not_eq_true hreset, hmode, ?_, ?_, q, slot, hnew, rfl⟩⟩
      · exact fun h => hid (Or.inl h)
      · exact Nat.lt_of_not_le fun h => hid (Or.inr h)
  · exact ⟨fun _ h => h, Or.inl rfl⟩

theorem headersStream_turns {st : St σ} (hserving : st.p.failed = false) {streamId : ℕ}
    (hmax : streamId < 2 ^ 31) (reset : Bool) :
    Turns st.page (st.setP (headersStream st.p streamId reset).1).page := by
  rcases (headersStream_table st.p streamId reset).2 with h | ⟨-, hmode, hodd, hpeer, q, slot, hnew, h⟩
  · rw [h]
    exact turns_setP (.refl _)
  rw [h]
  obtain ⟨⟨streams, last, hq⟩, -⟩ := newStream_spec hnew
  have hside : ∀ p' : Proto, p'.mode = .server → p'.peerInitiated streamId = true := by
    intro p' hp'
    unfold Proto.peerInitiated
    rw [hp']
    exact bne_iff_ne.2 hodd
  have hfresh : ¬ st.p.Seen streamId := by
    unfold Proto.Seen
    rw [if_pos (hside _ hmode)]
    exact Nat.not_le.2 hpeer
  have hseen : { q with maxPeerStreamId := streamId }.Seen streamId := by
    unfold Proto.Seen
    rw [if_pos (hside _ (by rw [hq]; exact hmode))]
  have hsteady : Steady st.p { q with maxPeerStreamId := streamId } := by
    rw [hq]
    exact ⟨rfl, rfl, le_refl _, hpeer.le, id, id, id, fun _ h => Or.inl h⟩
  have hopens : OpensStream st.p { q with maxPeerStreamId := streamId } streamId false := by
    refine .of_newStream hnew rfl rfl hsteady hserving hfresh hseen
      ⟨Nat.pos_of_ne_zero fun h0 => hodd ?_, hmax⟩ (newStream_set hnew).symm fun x hx => ?_
    · rw [h0]
    · exact newStream_reset hnew hx
  exact .single (.opens st.page hopens)

theorem sameTable_begun {p : Proto} {streamId : ℕ} (endStream : Bool) (inBlock : Buffer)
    (h : (streamId, false) ∈ p.keys ∨ p.Reset streamId) :
    SameTable p { p with
      inHeaders := true, inHeadersStream := streamId, inHeadersEndStream := endStream
      inBlock := inBlock } := by
  refine ⟨⟨rfl, rfl, le_refl _, le_refl _, fun h => h, fun h => h, fun h => h, fun id hid => ?_⟩,
    rfl, fun _ h => h⟩
  obtain ⟨-, rfl⟩ := hid
  exact Or.inr h

theorem dispatchHeaders_turns (hh : host.Turning start) {st : St σ} (hk : Kept start st.page)
    (hserving : st.p.failed = false) {hdr : FrameHeader} (hmax : hdr.streamId < 2 ^ 31)
    (payload : Bytes) : Turns st.page (dispatchHeaders host st hdr payload).page := by
  unfold dispatchHeaders
  split
  · exact protoFail_turns st _
  next hzero =>
  split
  · exact protoFail_turns st _
  next block hblock =>
  dsimp only
  generalize hreset : st.p.localResetContains hdr.streamId = reset
  have hopened := @headersStream_turns σ st hserving hdr.streamId hmax reset
  obtain ⟨hfind, hcases⟩ := headersStream_table st.p hdr.streamId reset
  have hresets : reset = true → (headersStream st.p hdr.streamId reset).1 = st.p := by
    intro h
    rcases hcases with hsame | ⟨hno, -⟩
    · exact hsame
    · rw [hno] at h
      cases h
  generalize headersStream st.p hdr.streamId reset = r at hopened hfind hresets
  obtain ⟨p, slot, error⟩ := r
  dsimp only at hopened hfind hresets ⊢
  split
  · exact hopened.trans (protoFail_turns _ _)
  have hkept : reset = true → p.Reset hdr.streamId := by
    intro h
    rw [hresets h]
    rw [h] at hreset
    unfold Proto.localResetContains at hreset
    rw [Bool.and_eq_true, decide_eq_true_iff, List.contains_iff_mem] at hreset
    exact Or.inl hreset
  have hblock : (hdr.streamId, false) ∈ p.keys ∨ p.Reset hdr.streamId → Turns st.page
      (appendBlock host ((st.setP p).setP { p with
        inHeaders := true, inHeadersStream := hdr.streamId
        inHeadersEndStream := hasFlag hdr.flags flagEndStream
        inBlock := { p.inBlock with data := [] } }) hdr.flags block).page := by
    intro h
    have hstarted := hopened.trans (@turns_setP σ (st.setP p) _
      (sameTable_begun (hasFlag hdr.flags flagEndStream) { p.inBlock with data := [] } h))
    exact hstarted.trans (appendBlock_turns hh (Turns.keeps hstarted hk) rfl _ _)
  cases slot with
  | none =>
    split
    · exact hopened.trans (protoFail_turns _ _)
    next hserved => exact hblock (Or.inr (hkept (not_not.1 fun h => hserved ⟨h, rfl⟩)))
  | some slot =>
    obtain ⟨hlt, hid⟩ := find_spec (hfind slot rfl)
    split
    · exact hopened.trans (protoFail_turns _ _)
    next hserved =>
      apply hblock
      by_cases hlocal : (p.stream slot).localReset = true
      · exact Or.inr (Or.inr ⟨_, stream_mem hlt, hid, hlocal⟩)
      by_cases hr : reset = true
      · exact Or.inr (hkept hr)
      · have hopen : (p.stream slot).closed = false := by
          apply Bool.eq_false_of_not_eq_true
          intro hclosed
          refine hserved ⟨hr, ?_⟩
          simp [hlocal, hclosed]
        have hmem := open_mem hopen
        rw [hid] at hmem
        exact Or.inl hmem

theorem dispatchContinuation_turns (hh : host.Turning start) {st : St σ} (hk : Kept start st.page)
    (hdr : FrameHeader) (payload : Bytes) :
    Turns st.page (dispatchContinuation host st hdr payload).page := by
  unfold dispatchContinuation
  split
  · exact protoFail_turns st _
  next h =>
    rw [not_or, not_or, not_not] at h
    exact appendBlock_turns hh hk h.2.1 _ _

/-! ## The receive loop -/

theorem dispatch_turns (hh : host.Turning start) {st : St σ} (hk : Kept start st.page)
    (hserving : st.p.failed = false) {hdr : FrameHeader} (hmax : hdr.streamId < 2 ^ 31)
    (payload : Bytes) : Turns st.page (dispatch host st hdr payload).page := by
  unfold dispatch
  split
  · exact protoFail_turns st _
  split
  · exact protoFail_turns st _
  split
  · exact dispatchSettings_turns hh hk hdr payload
  · exact dispatchWindowUpdate_turns hh hk hdr payload
  · exact dispatchRstStream_turns hh hk hdr payload
  · exact dispatchGoaway_turns hh hk hdr payload
  · exact dispatchPing_turns hh hk hdr payload
  · exact dispatchData_turns hh hk hdr payload
  · exact dispatchHeaders_turns hh hk hserving hmax payload
  · exact dispatchContinuation_turns hh hk hdr payload
  · split_ifs
    · exact protoFail_turns st _
    · exact protoFail_turns st _
    · exact .refl
  · exact protoFail_turns st _
  · exact .refl

theorem recvLoop_turns (hh : host.Turning start) (fuel : ℕ) {st : St σ} (hk : Kept start st.page)
    (input : Bytes) : Turns st.page (recvLoop host fuel st input).1.page := by
  induction fuel generalizing st input with
  | zero => exact .refl
  | succ fuel ih =>
    unfold recvLoop
    split
    · exact .refl
    next hstop =>
    rw [not_or] at hstop
    split
    · exact .refl
    · exact protoFail_turns st _
    next hdr payload rest hframe =>
      have hround := dispatch_turns hh hk (Bool.eq_false_of_not_eq_true hstop.1)
        (parseFrame_frame hframe).1 payload
      exact hround.trans (ih (hround.keeps hk) rest)

theorem recvFrames_turns (hh : host.Turning start) {st : St σ} (hk : Kept start st.page)
    (inbuf : Buffer) (input : Bytes) :
    Turns st.page (recvFrames host st inbuf input).1.st.page :=
  recvLoop_turns hh (input.length + 1) hk input

theorem recvPreface_turns (hh : host.Turning start) {ep : Endpoint σ} (hk : Kept start ep.st.page) :
    Turns ep.st.page (recvPreface host ep).1.st.page := by
  unfold recvPreface
  dsimp only
  split
  · exact protoFail_turns ep.st _
  split
  · exact .refl
  have hseen : Turns ep.st.page (ep.st.setP { ep.st.p with serverPrefaceSeen := true }).page :=
    turns_setP (.of_eq rfl rfl rfl rfl (fun h => h) rfl rfl rfl rfl rfl)
  have hpreface := hseen.trans (ensurePreface_turns _)
  split
  next st₁ hst₁ => exact (turns_of_eq hpreface hst₁).trans (protoFail_turns _ _)
  next st₁ hst₁ =>
    have hst₁' := turns_of_eq hpreface hst₁
    exact hst₁'.trans (recvFrames_turns hh (Turns.keeps hst₁' hk) _ _)

theorem recv_turns (hh : host.Turning start) {ep : Endpoint σ} (hk : Kept start ep.st.page)
    (bytes : Bytes) : Turns ep.st.page (recv host ep bytes).1.st.page := by
  unfold recv process
  split
  · split
    · exact .refl
    split
    · exact @recvPreface_turns σ host start hh { ep with inbuf := ep.inbuf.append bytes } hk
    · exact recvFrames_turns hh hk _ _
  · exact .refl

theorem unpause_turns (hh : host.Turning start) {st : St σ} (hk : Kept start st.page)
    (streamId : ℕ) : Turns st.page (unpause host st streamId).page := by
  have hlifted : Turns st.page (st.setP { st.p with
      inputPaused := false, inputPausedStream := 0, inputPausedEndStream := false }).page :=
    turns_setP (.of_eq rfl rfl rfl rfl (fun h => h) rfl rfl rfl rfl rfl)
  unfold unpause
  dsimp only
  split
  next slot hslot =>
    split
    · exact hlifted.trans (maybeClose_turns hh (hlifted.keeps hk) slot)
    · exact hlifted
  · exact hlifted

theorem resumeInput_turns (hh : host.Turning start) {ep : Endpoint σ} (hk : Kept start ep.st.page)
    (streamId : ℕ) : Turns ep.st.page (resumeInput host ep streamId).1.st.page := by
  have hlifted := unpause_turns hh hk streamId
  unfold resumeInput
  split
  · exact .refl
  dsimp only
  split
  · exact hlifted
  · exact hlifted.trans
      (@recv_turns σ host start hh ⟨unpause host ep.st streamId, ep.inbuf⟩ (hlifted.keeps hk) [])

theorem step_turns (hh : host.Turning start) {ep : Endpoint σ} (hk : Kept start ep.st.page)
    (op : Op) : Turns ep.st.page (step host ep op).1.st.page := by
  cases op with
  | call c => exact call_turns hh hk c
  | send => exact protoSend_turns hh hk
  | recv bytes => exact recv_turns hh hk bytes
  | resumeInput streamId => exact resumeInput_turns hh hk streamId

/-! ## Applications -/

theorem runScript_turns (hh : host.Turning start) (s : Script σ) {st : St σ}
    (hk : Kept start st.page) : Turns st.page (runScript host s st).1.page := by
  induction s generalizing st with
  | done app ret => exact .refl
  | call app c k ih =>
    have hcall : Turns st.page (call host { st with app } c).1.page :=
      @call_turns σ host start hh { st with app } hk c
    exact hcall.trans (ih _ _ _ (hcall.keeps hk))

end host

theorem App.host_turning (app : App σ) (start : Proto) (n : ℕ) : (app.host n).Turning start := by
  induction n with
  | zero => exact fun _ _ _ => .refl
  | succ n ih => exact fun ev st hk => runScript_turns ih _ hk

end Chttp.H2
