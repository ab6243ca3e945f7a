import TurboUtils.Chttp.H2.SendSimulation

/-! A frame that arrives is one `Take`, followed by moves of the engine. -/
namespace Chttp.H2

open Chttp.Hpack (Header Context)
open Relation (ReflTransGen)

variable {σ : Type*} {host : Host σ}

/-- An engine between two frames: healthy, with a server's SETTINGS out. -/
structure Serving (p : Proto) : Prop where
  sane : p.view.Sane
  alive : p.failed = false
  met : p.view.Met
  sent : p.mode = .server → p.settingsSent = true

/-- Frame `hdr` with its payload leads from one trace to another. -/
def Dispatches (hdr : FrameHeader) (payload : Bytes) (t t' : Trace) : Prop :=
  ∃ t₁, Take hdr payload t t₁ ∧ Steps t₁ t'

theorem protoFail_from {st : St σ} (h : st.p.failed = false) (error : ℕ) :
    Steps (st.trace.setView { st.p.view with failed := true, lastError := error })
      (protoFail st error).trace := by
  unfold protoFail
  rw [if_neg (by simp [h])]
  exact submitGoaway_steps (st.setP { st.p with failed := true, lastError := error }) _ _

theorem refuses {st : St σ} (h : st.p.failed = false) (hdr : FrameHeader) (payload : Bytes)
    {error : ℕ} (he : error ≠ errFlowControlError) :
    Dispatches hdr payload st.trace (protoFail st error).trace :=
  ⟨_, .refuse st.trace he, protoFail_from h error⟩

/-! ## SETTINGS -/

theorem applyPeerSettings_keeps (p : Proto) (values : List (ℕ × ℕ)) :
    (applyPeerSettings p values).1.failed = p.failed ∧
      (applyPeerSettings p values).1.mode = p.mode ∧
      (applyPeerSettings p values).1.settingsSent = p.settingsSent := by
  apply applyPeerSettings_induction (fun q => q.failed = p.failed ∧ q.mode = p.mode ∧
    q.settingsSent = p.settingsSent)
  · exact fun q ps hq _ _ => hq
  · exact fun q value _ _ hq => hq
  · exact ⟨rfl, rfl, rfl⟩

theorem dispatchSettings_dispatches (hh : host.Faithful) {st : St σ} (hs : Serving st.p)
    {hdr : FrameHeader} {payload : Bytes} (ht : hdr.type = .settings) :
    Dispatches hdr payload st.trace (dispatchSettings host st hdr payload).trace := by
  unfold dispatchSettings
  split
  · exact refuses hs.alive _ _ (by decide)
  split
  next hack =>
    split
    · exact refuses hs.alive _ _ (by decide)
    · refine ⟨_, .skip st.trace ⟨by simp [ht], by simp [ht], fun _ => hack⟩, ?_⟩
      apply callback_setP_steps hh hs.sane
      rfl
  split
  · exact refuses hs.alive _ _ (by decide)
  next values hparse =>
  dsimp only
  have hkeep := applyPeerSettings_keeps st.p values
  have hsane := applyPeerSettings_sane values hs.sane
  rcases happly : applyPeerSettings st.p values with ⟨p', error⟩
  rw [happly] at hkeep hsane
  have htake := @Take.settings hdr payload st.trace st.p p' values error rfl ht hparse happly
  refine ⟨_, htake, ?_⟩
  simp only [St.record_p, happly]
  by_cases he : error = errNoError
  · rw [if_neg (not_not.mpr he), if_pos he]
    have hcb := @callback_steps σ host hh ((st.record (.settingsIn values)).setP
      { p' with peerSettingsReceived := true }) hsane.withPeerSettingsReceived (.settings values)
    rw [trace_setP, trace_record] at hcb
    apply Steps.trans hcb
    split
    next st₂ h₂ =>
      rw [outFrame_false h₂]
      exact protoFail_steps _ (by decide)
    next st₂ h₂ =>
      rw [(outFrame_true h₂).1, trace_push]
      exact (Step.control _ .settingsAck).steps
  · rw [if_pos he, if_neg he]
    have hfrom := @protoFail_from σ ((st.record (.settingsIn values)).setP p')
      (hkeep.1.trans hs.alive) error
    rw [trace_setP, trace_record] at hfrom
    exact hfrom

/-! ## Single frames -/

theorem dispatchWindowUpdate_dispatches (hh : host.Faithful) {st : St σ} (hs : Serving st.p)
    {hdr : FrameHeader} {payload : Bytes} (ht : hdr.type = .windowUpdate) :
    Dispatches hdr payload st.trace (dispatchWindowUpdate host st hdr payload).trace := by
  unfold dispatchWindowUpdate
  split
  · exact refuses hs.alive _ _ (by decide)
  dsimp only
  generalize hinc : readU32 payload % 2 ^ 31 = inc
  -- the two callbacks behind an update that was taken
  have hnotify : ∀ st' : St σ, st'.p.view.Sane → Steps st'.trace
      (callback host (callback host st' (.windowUpdate hdr.streamId inc)).1 .wakeWrite).1.trace := by
    intro st' hs'
    have h₁ := callback_steps hh hs' (.windowUpdate hdr.streamId inc)
    exact h₁.trans (callback_steps hh (h₁.sane hs') .wakeWrite)
  have hfail : ∀ (item : Item) (error : ℕ), Steps ((st.trace.record item).setView
      { st.p.view with failed := true, lastError := error })
      (protoFail (st.record item) error).trace := by
    intro item error
    have hfrom := @protoFail_from σ (st.record item) hs.alive error
    rw [trace_record] at hfrom
    exact hfrom
  split
  next h0 =>
    have hacc : windowAccepted st.p hdr.streamId inc = false := by simp [windowAccepted, h0]
    rw [hacc]
    exact ⟨_, .windowRefused st.trace ht hinc.symm (.inr (.inl h0)), hfail _ _⟩
  next h0 =>
  split
  next hid =>
    split
    next hw =>
      have hacc : windowAccepted st.p hdr.streamId inc = false := by
        simp only [windowAccepted, hid, if_true, Bool.and_eq_false_iff, decide_eq_false_iff_not]
        exact .inr (not_le.mpr hw)
      rw [hacc]
      exact ⟨_, .windowRefused st.trace ht hinc.symm (.inr (.inr (.inl ⟨hid, hw⟩))), hfail _ _⟩
    next hw =>
      have hacc : windowAccepted st.p hdr.streamId inc = true := by
        simp only [windowAccepted, hid, if_true, Bool.and_eq_true, decide_eq_true_eq]
        exact ⟨h0, not_lt.mp hw⟩
      rw [hacc, hid]
      have htake := Take.windowConn st.trace ht hinc.symm h0 hid (not_lt.mp hw)
      refine ⟨_, htake, ?_⟩
      have hto := hnotify ((st.record (.windowIn 0 inc true)).setP
        { st.p with connSendWindow := int32 (st.p.connSendWindow + inc) })
        (hs.sane.withSendWindow _)
      rw [trace_setP, trace_record, hid] at hto
      exact hto
  next hid =>
  split
  next hnone =>
    have hacc : windowAccepted st.p hdr.streamId inc = false := by
      have hopen : st.p.findOpen hdr.streamId = none := by
        simp only [Proto.findOpen]
        rw [show st.p.find hdr.streamId = none from hnone]
      simp [windowAccepted, hid, hopen]
    rw [hacc]
    split
    · refine ⟨_, .windowIgnored st.trace ht hinc.symm, ?_⟩
      rw [trace_record]
    · exact ⟨_, .windowRefused st.trace ht hinc.symm (.inl (by decide)), hfail _ _⟩
  next slot hslot =>
  obtain ⟨hlt, hsid⟩ := find_spec (p := st.p) hslot
  have hmem := stream_view_mem hlt
  split
  next hc =>
    have hacc : windowAccepted st.p hdr.streamId inc = false := by
      have hopen : st.p.findOpen hdr.streamId = none := by
        simp only [Proto.findOpen]
        rw [show st.p.find hdr.streamId = some slot from hslot]
        exact if_pos hc
      simp [windowAccepted, hid, hopen]
    rw [hacc]
    refine ⟨_, .windowIgnored st.trace ht hinc.symm, ?_⟩
    rw [trace_record]
  next hc =>
  have hc : (st.p.stream slot).closed = false := Bool.eq_false_of_not_eq_true hc
  have hopen : st.p.findOpen hdr.streamId = some slot := by
    simp only [Proto.findOpen]
    rw [show st.p.find hdr.streamId = some slot from hslot]
    simp [hc]
  split
  next hw =>
    have hacc : windowAccepted st.p hdr.streamId inc = false := by
      simp only [windowAccepted, hid, if_false, hopen, Bool.and_eq_false_iff,
        decide_eq_false_iff_not]
      exact .inr (not_le.mpr hw)
    rw [hacc]
    exact ⟨_, .windowRefused st.trace ht hinc.symm
      (.inr (.inr (.inr ⟨_, hmem, hsid, hc, hw⟩))), hfail _ _⟩
  next hw =>
    have hacc : windowAccepted st.p hdr.streamId inc = true := by
      simp only [windowAccepted, hid, if_false, hopen, Bool.and_eq_true, decide_eq_true_eq]
      exact ⟨h0, not_lt.mp hw⟩
    rw [hacc]
    have htake := Take.windowStream st.trace ht hinc.symm h0 hmem hsid.symm hc (not_lt.mp hw)
    refine ⟨_, htake, ?_⟩
    have hview := modifyStream_view hs.sane hlt (fun s : Stream =>
      { s with sendWindow := int32 (s.sendWindow + inc) }) rfl
    have hto := hnotify ((st.record (.windowIn hdr.streamId inc true)).setP
      (st.p.modifyStream slot fun s => { s with sendWindow := int32 (s.sendWindow + inc) }))
      (by rw [St.setP_p, hview]; exact hs.sane.put hmem rfl (hs.sane.body _ hmem :))
    rw [trace_setP, trace_record, hview, ← hsid] at hto
    rw [← hsid]
    exact hto

theorem skips {st : St σ} {hdr : FrameHeader} {payload : Bytes} {t' : Trace}
    (h : hdr.type ≠ .data ∧ hdr.type ≠ .windowUpdate ∧
      (hdr.type = .settings → hasFlag hdr.flags flagAck = true)) (hto : Steps st.trace t') :
    Dispatches hdr payload st.trace t' :=
  ⟨_, .skip st.trace h, hto⟩

theorem forget_view (p : Proto) (slot id : ℕ) {f : Stream → Stream} (hf : ∀ s, (f s).view = s.view) :
    ((p.modifyStream slot f).localResetForget id).view = p.view := by
  rw [localResetForget_view]
  exact modifyStream_view_of_same slot hf

theorem dropOutput_steps {st : St σ} (hs : st.p.view.Sane) {slot : ℕ}
    (h : slot < st.p.streams.length) :
    Steps st.trace (st.setP (st.p.modifyStream slot Stream.dropOutput)).trace :=
  close_steps hs h (fun _ => rfl) (fun _ => rfl)

theorem dispatchRstStream_steps (hh : host.Faithful) {st : St σ} (hs : st.p.view.Sane)
    (hdr : FrameHeader) (payload : Bytes) :
    Steps st.trace (dispatchRstStream host st hdr payload).trace := by
  unfold dispatchRstStream
  split
  · exact protoFail_steps st (by decide)
  split
  · exact protoFail_steps st (by decide)
  split
  · split
    · rw [trace_setP_of_view (localResetForget_view _ _)]
    · exact protoFail_steps st (by decide)
  next slot hslot =>
  obtain ⟨hlt, -⟩ := find_spec hslot
  dsimp only
  have hclose : ∀ st₁ : St σ, Steps st.trace st₁.trace → Steps st.trace
      (callback host (st₁.setP ((st₁.p.modifyStream slot fun s =>
        { s with localReset := false }).localResetForget hdr.streamId))
        (.rstReceived hdr.streamId (readU32 payload))).1.trace := by
    intro st₁ hto
    apply hto.trans
    apply callback_setP_steps hh (hto.sane hs)
    exact forget_view _ _ _ (fun _ => rfl)
  apply hclose
  split
  · exact .refl
  · have hdrop := dropOutput_steps hs hlt
    exact hdrop.trans (callback_steps hh (hdrop.sane hs) _)

theorem dispatchGoaway_steps (hh : host.Faithful) {st : St σ} (hs : st.p.view.Sane)
    (hdr : FrameHeader) (payload : Bytes) :
    Steps st.trace (dispatchGoaway host st hdr payload).trace := by
  unfold dispatchGoaway
  split
  · exact protoFail_steps st (by decide)
  rcases frameGoawayParse payload with ⟨last, error⟩
  have hcb := @callback_setP_steps σ host hh st hs { st.p with
    goawayReceivedLast := some last, goawayReceivedError := error, draining := true } rfl
    (.goaway last error)
  apply Steps.trans hcb
  apply forSlots_steps _ _ _ (Steps.sane hcb hs)
  intro slot st hs
  dsimp only
  split
  next hc =>
    have hdrop := dropOutput_steps hs (slot_lt_of_open (Bool.eq_false_of_not_eq_true hc.1))
    exact hdrop.trans (callback_steps hh (hdrop.sane hs) _)
  · exact .refl

theorem dispatchPing_steps (hh : host.Faithful) {st : St σ} (hs : st.p.view.Sane)
    {hdr : FrameHeader} {payload : Bytes} (hlen : payload.length = hdr.length) :
    Steps st.trace (dispatchPing host st hdr payload).trace := by
  unfold dispatchPing
  split
  · exact protoFail_steps st (by decide)
  next hok =>
  split
  · exact callback_steps hh hs _
  · split
    next st₁ h₁ =>
      rw [outFrame_false h₁]
      exact protoFail_steps st (by decide)
    next st₁ h₁ =>
      rw [(outFrame_true h₁).1, trace_push]
      exact (Step.control st.trace (.ping (by omega))).steps

/-! ## DATA -/

theorem drainConnection_steps {st : St σ} (hs : st.p.view.Sane) (length : ℕ) :
    Steps st.trace (drainConnection st length).1.trace := by
  unfold drainConnection
  split
  · exact consumeConnection_steps hs length
  · exact .refl

theorem creditHidden_steps {st : St σ} (hs : st.p.view.Sane) (streamId hidden : ℕ) :
    Steps st.trace (creditHidden st streamId hidden).1.trace := by
  unfold creditHidden
  split
  · exact .refl
  have hstream := consumeStream_steps hs streamId hidden
  split
  next st₁ h₁ =>
    rw [h₁] at hstream
    exact hstream
  next st₁ h₁ =>
    rw [h₁] at hstream
    exact hstream.trans (consumeConnection_steps (hstream.sane hs) hidden)

theorem finishData_steps (hh : host.Faithful) {st : St σ} (hs : st.p.view.Sane)
    (hm : st.p.view.Met) (slot : ℕ) (hdr : FrameHeader) (status : Int) :
    Steps st.trace (finishData host st slot hdr status).trace := by
  unfold finishData
  dsimp only
  split
  · exact (Step.pause st.trace true hm).steps
  split
  · exact protoFail_steps st (by decide)
  split
  · split
    · have hview := forget_view st.p slot hdr.streamId
        (f := fun s : Stream => { s with localReset := false }) (fun _ => rfl)
      have hto := @maybeClose_steps σ host hh (st.setP ((st.p.modifyStream slot fun s =>
        { s with localReset := false }).localResetForget hdr.streamId))
        (by rw [St.setP_p, hview]; exact hs) slot
      rw [trace_setP_of_view hview] at hto
      exact hto
    · exact maybeClose_steps hh hs slot
  · exact .refl

/-- DATA for a known slot, once the connection window is charged: an overrun of the stream,
or the stream window charged as well, or neither. -/
theorem dataOnStream_cases (hh : host.Faithful) {st : St σ} (hs : st.p.view.Sane)
    (hm : st.p.view.Met) (halive : st.p.failed = false) {slot : ℕ} (hlt : slot < st.p.streams.length) (hdr : FrameHeader)
    (data : Bytes) :
    ((st.p.stream slot).closed = false ∧ (st.p.stream slot).remoteEndStream = false ∧
      (st.p.stream slot).localReset = false ∧
      ((hdr.length : Int) ≤ (st.p.stream slot).recvWindow ∧
        Steps (st.trace.put { (st.p.stream slot).view with
          recvWindow := int32 ((st.p.stream slot).recvWindow - hdr.length) })
          (dataOnStream host st slot hdr data).trace ∨
      (st.p.stream slot).recvWindow < hdr.length ∧
        Steps (st.trace.setView { st.p.view with
          failed := true, lastError := errFlowControlError })
          (dataOnStream host st slot hdr data).trace)) ∨
    (¬ ((st.p.stream slot).closed = false ∧ (st.p.stream slot).remoteEndStream = false ∧
        (st.p.stream slot).localReset = false) ∧
      Steps st.trace (dataOnStream host st slot hdr data).trace) := by
  unfold dataOnStream
  dsimp only
  split
  next hgone =>
    right
    refine ⟨?_, protoFail_steps st (by decide)⟩
    rintro ⟨hc, hr, -⟩
    rw [hc, hr] at hgone
    simp at hgone
  next hkeep =>
  split
  next hreset =>
    right
    refine ⟨fun h => by simp [h.2.2] at hreset, ?_⟩
    have hdrain := drainConnection_steps hs hdr.length
    split
    next st₁ h₁ =>
      rw [h₁] at hdrain
      exact hdrain.trans (protoFail_steps st₁ (by decide))
    next st₁ h₁ =>
      rw [h₁] at hdrain
      split
      · apply hdrain.setP
        exact forget_view _ _ _ (fun _ => rfl)
      · exact hdrain
  next hreset =>
  left
  have hreset : (st.p.stream slot).localReset = false := Bool.eq_false_of_not_eq_true hreset
  have hc : (st.p.stream slot).closed = false := by
    cases h : (st.p.stream slot).closed with
    | false => rfl
    | true => exact absurd ⟨by simp [hreset], .inl h⟩ hkeep
  have hr : (st.p.stream slot).remoteEndStream = false := by
    cases h : (st.p.stream slot).remoteEndStream with
    | false => rfl
    | true => exact absurd ⟨by simp [hreset], .inr h⟩ hkeep
  refine ⟨hc, hr, hreset, ?_⟩
  split
  next hw => exact .inr ⟨hw, protoFail_from halive _⟩
  next hw =>
  left
  refine ⟨not_lt.mp hw, ?_⟩
  have hset := trace_modifyStream hs hlt (fun s : Stream =>
    { s with recvWindow := int32 (s.recvWindow - hdr.length) }) rfl
  have hs₁ : (st.p.modifyStream slot fun s : Stream =>
      { s with recvWindow := int32 (s.recvWindow - hdr.length) }).view.Sane := by
    rw [modifyStream_view hs hlt _ rfl]
    exact hs.put (stream_view_mem hlt) rfl (hs.body _ (stream_view_mem hlt) :)
  generalize st.p.modifyStream slot (fun s : Stream =>
    { s with recvWindow := int32 (s.recvWindow - hdr.length) }) = p₁ at hset hs₁ ⊢
  have hhidden := @creditHidden_steps σ (st.setP p₁) hs₁ hdr.streamId (hdr.length - data.length)
  rw [hset] at hhidden
  have hsput : (st.trace.put { (st.p.stream slot).view with
      recvWindow := int32 ((st.p.stream slot).recvWindow - hdr.length) }).view.Sane := by
    have : st.trace.put { (st.p.stream slot).view with
      recvWindow := int32 ((st.p.stream slot).recvWindow - hdr.length) } = (st.setP p₁).trace :=
      hset.symm
    rw [this]
    exact hs₁
  split
  next st₂ h₂ =>
    rw [h₂] at hhidden
    exact Steps.trans hhidden (protoFail_steps st₂ (by decide))
  next st₂ h₂ =>
  rw [h₂] at hhidden
  have hs₂ : st₂.p.view.Sane := Steps.sane hhidden hsput
  apply Steps.trans hhidden
  have hmark : (if hasFlag hdr.flags flagEndStream then
      st₂.setP (st₂.p.modifyStream slot fun s => { s with remoteEndStream := true })
      else st₂).trace = st₂.trace := by
    split
    · exact trace_setP_of_view (modifyStream_view_of_same slot (fun _ => rfl))
    · rfl
  generalize (if hasFlag hdr.flags flagEndStream then
      st₂.setP (st₂.p.modifyStream slot fun s => { s with remoteEndStream := true })
      else st₂) = st₃ at hmark ⊢
  have hs₃ : st₃.p.view.Sane := by
    rw [← trace_view, hmark]
    exact hs₂
  have hm₃ : st₃.p.view.Met := by
    rw [← trace_view, hmark]
    exact (Steps.fixed hhidden).met hm
  rw [← hmark]
  have hcb := callback_steps hh hs₃ (.data hdr.streamId data)
  exact hcb.trans (finishData_steps hh (hcb.sane hs₃) (hcb.fixed.met hm₃) slot hdr _)

theorem dispatchData_dispatches (hh : host.Faithful) {st : St σ} (hs : Serving st.p)
    {hdr : FrameHeader} {payload : Bytes} (ht : hdr.type = .data) :
    Dispatches hdr payload st.trace (dispatchData host st hdr payload).trace := by
  unfold dispatchData
  dsimp only
  have hfail : ∀ (item : Item) (error : ℕ), Steps ((st.trace.record item).setView
      { st.p.view with failed := true, lastError := error })
      (protoFail (st.record item) error).trace := by
    intro item error
    have hfrom := @protoFail_from σ (st.record item) hs.alive error
    rw [trace_record] at hfrom
    exact hfrom
  split
  next h0 =>
    have hconn : dataConnAccepted st.p hdr payload = false := by simp [dataConnAccepted, h0]
    rw [dataStreamAccepted, hconn, Bool.false_and]
    exact ⟨_, .dataRefused st.trace ht (.inl (by decide)), hfail _ _⟩
  next h0 =>
  split
  next hnone =>
    have hconn : dataConnAccepted st.p hdr payload = false := by simp [dataConnAccepted, hnone]
    rw [dataStreamAccepted, hconn, Bool.false_and]
    exact ⟨_, .dataRefused st.trace ht (.inl (by decide)), hfail _ _⟩
  next data hdata =>
  split
  next hw =>
    have hconn : dataConnAccepted st.p hdr payload = false := by
      simp only [dataConnAccepted, Bool.and_eq_false_iff, decide_eq_false_iff_not]
      exact .inr (not_le.mpr hw)
    rw [dataStreamAccepted, hconn, Bool.false_and]
    exact ⟨_, .dataRefused st.trace ht (.inr hw), hfail _ _⟩
  next hw =>
  have hw : (hdr.length : Int) ≤ st.p.connRecvWindow := not_lt.mp hw
  have hconn : dataConnAccepted st.p hdr payload = true := by
    simp [dataConnAccepted, hdata, h0, hw]
  rw [hconn]
  -- the engine with the connection window charged
  generalize hp₁ : ({ (st.record (.dataIn hdr.streamId hdr.length true
      (dataStreamAccepted st.p hdr payload))).p with
    connRecvWindow := int32 ((st.record (.dataIn hdr.streamId hdr.length true
      (dataStreamAccepted st.p hdr payload))).p.connRecvWindow - hdr.length) } : Proto) = p₁
  have hview₁ : p₁.view =
      { st.p.view with connRecvWindow := int32 (st.p.connRecvWindow - hdr.length) } := by
    rw [← hp₁]
    rfl
  have hs₁ : p₁.view.Sane := by
    rw [hview₁]
    exact hs.sane.withRecvWindow _
  have hm₁ : p₁.view.Met := by
    rw [hview₁]
    exact hs.met
  have halive₁ : p₁.failed = false := by
    rw [← hp₁]
    exact hs.alive
  have hstreams : p₁.streams = st.p.streams := by
    rw [← hp₁]
    rfl
  split
  next slot hslot =>
    have hslot : st.p.find hdr.streamId = some slot := hslot
    obtain ⟨hlt, hid⟩ := find_spec hslot
    have hstream : p₁.stream slot = st.p.stream slot := by
      rw [Proto.stream, hstreams, Proto.stream]
    have hcases := @dataOnStream_cases σ host hh ((st.record (.dataIn hdr.streamId hdr.length true
      (dataStreamAccepted st.p hdr payload))).setP p₁) hs₁ hm₁ halive₁ slot
      (by rw [St.setP_p, hstreams]; exact hlt) hdr data
    simp only [St.setP_p, hstream, trace_setP, trace_record] at hcases
    rcases hcases with ⟨hc, hr, hl, ⟨hsw, hto⟩ | ⟨hsw, hto⟩⟩ | ⟨hno, hto⟩
    · have hacc : dataStreamAccepted st.p hdr payload = true := by
        simp [dataStreamAccepted, hconn, hslot, hc, hr, hl, hsw]
      rw [hacc] at hto ⊢
      refine ⟨_, .dataStream st.trace ht hw (stream_view_mem hlt) hid.symm hc hsw, ?_⟩
      rw [hview₁] at hto
      exact hto
    · have hacc : dataStreamAccepted st.p hdr payload = false := by
        simp [dataStreamAccepted, hconn, hslot, hc, hr, hl, hsw]
      rw [hacc] at hto ⊢
      refine ⟨_, .dataOverrun st.trace ht hw (stream_view_mem hlt) hid.symm hc hsw, ?_⟩
      rw [hview₁] at hto
      exact hto
    · have hacc : dataStreamAccepted st.p hdr payload = false := by
        simp only [dataStreamAccepted, hconn, hslot, Bool.true_and, Bool.and_eq_false_iff]
        left
        cases hc : (st.p.stream slot).closed <;> cases hr : (st.p.stream slot).remoteEndStream <;>
          cases hl : (st.p.stream slot).localReset <;> simp_all
      rw [hacc] at hto ⊢
      refine ⟨_, .dataConn st.trace ht hw, ?_⟩
      rw [hview₁] at hto
      exact hto
  next hnone =>
    have hnone : st.p.find hdr.streamId = none := hnone
    have hacc : dataStreamAccepted st.p hdr payload = false := by
      simp [dataStreamAccepted, hnone]
    rw [hacc]
    refine ⟨_, .dataConn st.trace ht hw, ?_⟩
    have htrace : ((st.record (.dataIn hdr.streamId hdr.length true false)).setP p₁).trace =
        (st.trace.record (.dataIn hdr.streamId hdr.length true false)).setView
          { st.p.view with connRecvWindow := int32 (st.p.view.connRecvWindow - hdr.length) } := by
      rw [trace_setP, trace_record, hview₁]
      rfl
    rw [trace_view, ← htrace]
    generalize hst₁ : (st.record (.dataIn hdr.streamId hdr.length true false)).setP p₁ = st₁
    have hs₁ : st₁.p.view.Sane := by
      rw [← hst₁]
      exact hs₁
    split
    · exact protoFail_steps st₁ (by decide)
    have hdrain := drainConnection_steps hs₁ hdr.length
    split
    next st₂ h₂ =>
      rw [h₂] at hdrain
      exact hdrain.trans (protoFail_steps st₂ (by decide))
    next st₂ h₂ =>
      rw [h₂] at hdrain
      split
      · exact hdrain.setP (localResetForget_view _ _)
      · exact hdrain

/-! ## Header blocks -/

end Chttp.H2

namespace Chttp.Hpack

variable {σ : Type*}

/-- What every call of the callback keeps, the decoder keeps. -/
theorem hpackDecode_induction (h : Context) {cb : σ → Header → σ × Int} (P : σ → Prop)
    (hcb : ∀ s hd, P s → P (cb s hd).1) (maxSize : ℕ) {s : σ} (hs : P s) (input : Bytes) :
    P (hpackDecode h cb maxSize s input).2.1 := by
  have hloop : ∀ fuel t lb s input, P s → P (decodeLoop h cb maxSize fuel t lb s input).2.1 := by
    intro fuel
    induction fuel with
    | zero =>
      intro t lb s input hs
      cases input <;> exact hs
    | succ fuel ih =>
      intro t lb s input hs
      cases input with
      | nil => exact hs
      | cons b bs =>
        unfold decodeLoop
        split
        · exact hs
        · split
          · exact hs
          · exact ih _ _ _ _ hs
        next hd indexing rest _ =>
          have hcalled : P (if (lb.bind fun n => addHeaderListSize n hd maxSize).isSome
              then cb s hd else (s, 0)).1 := by
            split
            · exact hcb s hd hs
            · exact hs
          dsimp only
          generalize (if (lb.bind fun n => addHeaderListSize n hd maxSize).isSome
            then cb s hd else (s, 0)) = called at hcalled ⊢
          split
          · exact hcalled
          split
          · split
            · exact hcalled
            · exact ih _ _ _ _ hcalled
          · exact ih _ _ _ _ hcalled
  unfold hpackDecode
  split
  · exact hs
  · exact hloop _ _ _ _ _ hs

end Chttp.Hpack

namespace Chttp.H2

open Chttp.Hpack (Header Context)
open Relation (ReflTransGen)

variable {σ : Type*} {host : Host σ}

theorem headerCallback_steps (hh : host.Faithful) {ctx : HeaderContext σ}
    (hs : ctx.st.p.view.Sane) (ev : Event) :
    Steps ctx.st.trace (headerCallback host ctx ev).st.trace := by
  unfold headerCallback
  split
  · exact .refl
  have hcb := callback_steps hh hs ev
  dsimp only
  split <;> exact hcb

theorem decodeBlock_steps (hh : host.Faithful) {ctx : HeaderContext σ}
    (hs : ctx.st.p.view.Sane) : Steps ctx.st.trace (decodeBlock host ctx).1.st.trace := by
  unfold decodeBlock
  dsimp only
  have hkeep := @Hpack.hpackDecode_induction _ ctx.st.p.hpack
    (headerDecode host ctx.st.p.inHeadersStream) (fun c => Steps ctx.st.trace c.st.trace)
    (fun c hd hc => hc.trans (headerCallback_steps hh (hc.sane hs) _))
    ctx.st.p.localSettings.maxHeaderListSize ctx .refl ctx.st.p.inBlock.data
  generalize Hpack.hpackDecode ctx.st.p.hpack (headerDecode host ctx.st.p.inHeadersStream)
    ctx.st.p.localSettings.maxHeaderListSize ctx ctx.st.p.inBlock.data = r at hkeep ⊢
  obtain ⟨decoder, c, status, used⟩ := r
  have hto : Steps ctx.st.trace (c.st.setP { c.st.p with hpack := { c.st.p.hpack with decoder } }).trace :=
    hkeep.trans (Step.recode c.st.trace { c.st.p.hpack with decoder }).steps
  cases status with
  | ok => exact hto
  | tooLarge => exact hto
  | aborted => exact hto.trans (protoFail_steps _ (by decide))
  | error => exact hto.trans (protoFail_steps _ (by decide))

theorem markRemoteEnd_trace (st : St σ) (slot : Option ℕ) (initiallyIgnored : Bool) :
    (markRemoteEnd st slot initiallyIgnored).trace = st.trace := by
  unfold markRemoteEnd
  dsimp only
  split
  · split
    next slot =>
      have hmark : (st.p.modifyStream slot fun s => { s with remoteEndStream := true }).view =
          st.p.view := modifyStream_view_of_same slot (fun _ => rfl)
      split
      · apply trace_setP_of_view
        apply Eq.trans _ hmark
        exact forget_view _ _ _ (fun _ => rfl)
      · exact trace_setP_of_view hmark
    · split
      · exact trace_setP_of_view (localResetForget_view _ _)
      · rfl
  · rfl

theorem settle_steps (hh : host.Faithful) {st : St σ} (hs : st.p.view.Sane)
    (slot : Option ℕ) (r : St σ × ℕ) (id : ℕ) (endStream : Bool) (hto : Steps st.trace r.1.trace) :
    Steps st.trace (match r with
      | (st, error) =>
        match slot with
        | none => st
        | some slot =>
            if st.p.failed ∨ (st.p.stream slot).closed then st
            else if error ≠ errNoError then
              match submitRstStream host st id error with
              | (st, false) => protoFail st errInternalError
              | (st, true) =>
                  if endStream then
                    st.setP ((st.p.modifyStream slot fun s =>
                      { s with localReset := false }).localResetForget id)
                  else st
            else maybeClose host st slot).trace := by
  obtain ⟨st₁, error⟩ := r
  have hs₁ : st₁.p.view.Sane := Steps.sane hto hs
  dsimp only
  split
  · exact hto
  split
  · exact hto
  split
  · have hrst := submitRstStream_steps hh hs₁ id error
    split
    next st₂ h₂ =>
      rw [h₂] at hrst
      exact (hto.trans hrst).trans (protoFail_steps st₂ (by decide))
    next st₂ h₂ =>
      rw [h₂] at hrst
      split
      · apply (hto.trans hrst).setP
        exact forget_view _ _ _ (fun _ => rfl)
      · exact hto.trans hrst
  · exact hto.trans (maybeClose_steps hh hs₁ _)

theorem settleBlock_steps (hh : host.Faithful) {st : St σ} (hs : st.p.view.Sane)
    (slot : Option ℕ) (ignore callbackFailed : Bool) (error : ℕ) :
    Steps st.trace (settleBlock host st slot ignore callbackFailed error).trace := by
  unfold settleBlock
  dsimp only
  apply settle_steps hh hs
  split_ifs <;> first | exact callback_steps hh hs _ | exact .refl

theorem finishHeaders_steps (hh : host.Faithful) {st : St σ} (hs : st.p.view.Sane) :
    Steps st.trace (finishHeaders host st).trace := by
  unfold finishHeaders
  dsimp only
  generalize (_ || st.p.localResetContains st.p.inHeadersStream) = ignored
  have hbegin := @headerCallback_steps σ host hh ⟨st, ignored, false⟩ hs
    (.beginHeaders st.p.inHeadersStream)
  generalize headerCallback host ⟨st, ignored, false⟩ (.beginHeaders st.p.inHeadersStream) = ctx
    at hbegin ⊢
  have hdecode := decodeBlock_steps hh (Steps.sane hbegin hs)
  generalize decodeBlock host ctx = r at hdecode ⊢
  obtain ⟨ctx₁, error⟩ := r
  have hto : Steps st.trace ctx₁.st.trace := Steps.trans hbegin hdecode
  dsimp only
  have hmark := markRemoteEnd_trace ctx₁.st (st.p.find st.p.inHeadersStream) ignored
  generalize markRemoteEnd ctx₁.st (st.p.find st.p.inHeadersStream) ignored = st₁ at hmark ⊢
  rw [← hmark] at hto
  have hsettle : Steps st.trace (if st₁.p.failed ∨ ignored then st₁ else settleBlock host st₁
      (st.p.find st.p.inHeadersStream) ctx₁.ignore ctx₁.callbackFailed error).trace := by
    split
    · exact hto
    · exact hto.trans (settleBlock_steps hh (hto.sane hs) _ _ _ _)
  exact hsettle.setP rfl

theorem appendBlock_steps (hh : host.Faithful) {st : St σ} (hs : st.p.view.Sane) (flags : UInt8)
    (bytes : Bytes) : Steps st.trace (appendBlock host st flags bytes).trace := by
  unfold appendBlock
  split
  · split
    · exact @finishHeaders_steps σ host hh (st.setP { st.p with inBlock := st.p.inBlock.append bytes }) hs
    · exact .refl
  · exact protoFail_steps st (by decide)

/-- A HEADERS frame opens a stream, or leaves the table alone. -/
theorem headersStream_cases (p : Proto) (streamId : ℕ) (reset : Bool) :
    (headersStream p streamId reset).2.2 ≠ errFlowControlError ∧
    ((headersStream p streamId reset).1 = p ∨
      (p.mode = .server ∧ p.maxPeerStreamId < streamId ∧
        ∃ streams, (headersStream p streamId reset).1.view =
            { p.view with streams, maxPeerStreamId := streamId } ∧
          p.view.Opens (p.view.fresh streamId false) streams)) := by
  unfold headersStream
  split
  next hmode hnone =>
    split_ifs with h1 h2 h3
    · exact ⟨show errNoError ≠ _ by decide, .inl rfl⟩
    · exact ⟨show errProtocolError ≠ _ by decide, .inl rfl⟩
    · exact ⟨show errEnhanceYourCalm ≠ _ by decide, .inl rfl⟩
    split
    · exact ⟨show errEnhanceYourCalm ≠ _ by decide, .inl rfl⟩
    next p' slot hnew =>
    obtain ⟨streams, hview, hopens, -, -⟩ := newStream_view hnew (fun s => s)
    rw [modifyStream_id] at hview
    refine ⟨show errNoError ≠ _ by decide, .inr ⟨hmode, by omega, streams, ?_, ?_⟩⟩
    · dsimp only
      have : ({ p' with maxPeerStreamId := streamId } : Proto).view =
        { p'.view with maxPeerStreamId := streamId } := rfl
      rw [this, hview]
    · have hfresh : (p.freshStream streamId).view = p.view.fresh streamId false := by
        simp only [Stream.view, Proto.freshStream, View.fresh, Stream.bodyPending, Proto.view,
          Option.isSome_none]
      rw [← hfresh]
      exact hopens
  · exact ⟨show errNoError ≠ _ by decide, .inl rfl⟩

theorem dispatchHeaders_dispatches (hh : host.Faithful) {st : St σ} (hs : Serving st.p)
    {hdr : FrameHeader} {payload : Bytes} (ht : hdr.type = .headers)
    (hid : hdr.streamId < 2 ^ 31) :
    Dispatches hdr payload st.trace (dispatchHeaders host st hdr payload).trace := by
  unfold dispatchHeaders
  split
  · exact refuses hs.alive _ _ (by decide)
  split
  · exact refuses hs.alive _ _ (by decide)
  next block hblock =>
  dsimp only
  have hcases := headersStream_cases st.p hdr.streamId (st.p.localResetContains hdr.streamId)
  generalize headersStream st.p hdr.streamId (st.p.localResetContains hdr.streamId) = r at hcases ⊢
  obtain ⟨p, slot, error⟩ := r
  dsimp only at hcases ⊢
  obtain ⟨he, hcases⟩ := hcases
  have htake : Take hdr payload st.trace (st.setP p).trace := by
    rcases hcases with rfl | ⟨hmode, hnew, streams, hview, hopens⟩
    · exact .skip st.trace (by simp [ht])
    · rw [trace_setP, hview]
      exact .openRemote st.trace ht hmode (hs.sent hmode) hid hnew hopens
  have hp : p.view.Sane := htake.sane hs.sane
  refine ⟨_, htake, ?_⟩
  split
  · exact protoFail_steps (st.setP p) he
  split_ifs
  · exact protoFail_steps (st.setP p) (by decide)
  · exact @appendBlock_steps σ host hh ((st.setP p).setP { p with
      inHeaders := true, inHeadersStream := hdr.streamId
      inHeadersEndStream := hasFlag hdr.flags flagEndStream
      inBlock := { p.inBlock with data := [] } }) hp _ _

theorem dispatchContinuation_steps (hh : host.Faithful) {st : St σ} (hs : st.p.view.Sane)
    (hdr : FrameHeader) (payload : Bytes) :
    Steps st.trace (dispatchContinuation host st hdr payload).trace := by
  unfold dispatchContinuation
  split
  · exact protoFail_steps st (by decide)
  · exact appendBlock_steps hh hs _ _

/-! ## Dispatch -/

theorem dispatch_dispatches (hh : host.Faithful) {st : St σ} (hs : Serving st.p)
    {hdr : FrameHeader} {payload : Bytes} (hid : hdr.streamId < 2 ^ 31)
    (hlen : payload.length = hdr.length) :
    Dispatches hdr payload st.trace (dispatch host st hdr payload).trace := by
  unfold dispatch
  split
  · exact refuses hs.alive _ _ (by decide)
  split
  · exact refuses hs.alive _ _ (by decide)
  split
  next ht => exact dispatchSettings_dispatches hh hs ht
  next ht => exact dispatchWindowUpdate_dispatches hh hs ht
  next ht => exact skips (by simp [ht]) (dispatchRstStream_steps hh hs.sane hdr payload)
  next ht => exact skips (by simp [ht]) (dispatchGoaway_steps hh hs.sane hdr payload)
  next ht => exact skips (by simp [ht]) (dispatchPing_steps hh hs.sane hlen)
  next ht => exact dispatchData_dispatches hh hs ht
  next ht => exact dispatchHeaders_dispatches hh hs ht hid
  next ht => exact skips (by simp [ht]) (dispatchContinuation_steps hh hs.sane hdr payload)
  next ht =>
    split
    · exact refuses hs.alive _ _ (by decide)
    split
    · exact refuses hs.alive _ _ (by decide)
    · exact skips (by simp [ht]) .refl
  next ht => exact refuses hs.alive _ _ (by decide)
  next ht => exact skips (by simp [ht]) .refl

end Chttp.H2
