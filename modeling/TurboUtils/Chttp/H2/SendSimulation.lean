import TurboUtils.Chttp.H2.Simulation

/-! The send path makes only moves of the engine. -/
namespace Chttp.H2

open Relation (ReflTransGen)

variable {σ : Type*} {host : Host σ}

theorem modifyStream_modifyStream (p : Proto) (slot : ℕ) (f g : Stream → Stream) :
    (p.modifyStream slot f).modifyStream slot g = p.modifyStream slot fun s => g (f s) := by
  simp only [Proto.modifyStream, List.modify_modify_eq]
  rfl

theorem modifyStream_id (p : Proto) (slot : ℕ) : (p.modifyStream slot fun s => s) = p := by
  have hid : p.streams.modify slot (fun s => s) = p.streams := List.modify_id slot p.streams
  rw [Proto.modifyStream, hid]

theorem lt_modifyStream {p : Proto} {slot : ℕ} (h : slot < p.streams.length)
    (f : Stream → Stream) : slot < (p.modifyStream slot f).streams.length := by
  simpa [Proto.modifyStream] using h

theorem stream_modifyStream {p : Proto} {slot : ℕ} (h : slot < p.streams.length)
    (f : Stream → Stream) : (p.modifyStream slot f).stream slot = f (p.stream slot) := by
  rw [stream_eq (lt_modifyStream h f), stream_eq h]
  simp [Proto.modifyStream]

@[simp] theorem setP_setP (st : St σ) (p q : Proto) : (st.setP p).setP q = st.setP q := rfl

@[simp] theorem trace_app (st : St σ) (app : σ) : ({ st with app } : St σ).trace = st.trace := rfl

theorem trace_sendData {st : St σ} (hs : st.p.view.Sane) {slot : ℕ}
    (h : slot < st.p.streams.length) (f : Frame) (g : Stream → Stream) (hid : ∀ s, (g s).id = s.id) :
    ((push st (.out f) f.bytes).setP ((chargeData (push st (.out f) f.bytes).p slot
      f.payload.length).modifyStream slot g)).trace =
    st.trace.sendData f (g { st.p.stream slot with
      sendWindow := int32 ((st.p.stream slot).sendWindow - f.payload.length) }).view := by
  rw [trace_setP, chargeData, modifyStream_modifyStream, trace_push]
  have hs₁ : ({ (push st (.out f) f.bytes).p with
      connSendWindow := int32 (st.p.connSendWindow - f.payload.length) } : Proto).view.Sane :=
    (hs.withOut _).withSendWindow _
  have hview := modifyStream_view hs₁ h (fun s => g { s with
    sendWindow := int32 (s.sendWindow - f.payload.length) }) (hid _)
  exact congrArg (fun v => (st.trace.push (.out f) f.bytes).setView v) hview

theorem trace_push_modifyStream {st : St σ} (hs : st.p.view.Sane) {slot : ℕ}
    (h : slot < st.p.streams.length) (fr : Frame) (f : Stream → Stream) (hid : ∀ s, (f s).id = s.id) :
    ((push st (.out fr) fr.bytes).setP ((push st (.out fr) fr.bytes).p.modifyStream slot f)).trace =
      (st.trace.pushFrame fr).put (f (st.p.stream slot)).view := by
  have hset := @trace_modifyStream σ (push st (.out fr) fr.bytes) (hs.withOut _) slot h f (hid _)
  rw [hset, trace_push]
  rfl

theorem stream_chargeData {p : Proto} {slot : ℕ} (h : slot < p.streams.length) (n : ℕ)
    (g : Stream → Stream) : ((chargeData p slot n).modifyStream slot g).stream slot =
      g { p.stream slot with sendWindow := int32 ((p.stream slot).sendWindow - n) } := by
  rw [chargeData, modifyStream_modifyStream]
  exact @stream_modifyStream { p with connSendWindow := int32 (p.connSendWindow - n) } slot h _

theorem dataChunk_le (p : Proto) (s : Stream) (available : ℕ) :
    dataChunk p s available ≤ available ∧ dataChunk p s available ≤ p.connSendWindow.toNat ∧
      dataChunk p s available ≤ s.sendWindow.toNat := by
  unfold dataChunk
  dsimp only
  split_ifs <;> omega

theorem sourceRound_steps (hh : host.Faithful) {st : St σ} (hs : st.p.view.Sane) {slot : ℕ}
    {source available : ℕ} (hopen : (st.p.stream slot).closed = false)
    (hsrc : (st.p.stream slot).source = some source)
    (hav : available ≤ st.p.peerSettings.maxFrameSize) :
    Steps st.trace (sourceRound host st slot source available).1.trace := by
  have hlt := slot_lt_of_open hopen
  have hmem := stream_view_mem hlt
  have hhas : (st.p.stream slot).view.hasSource = true := by simp [Stream.view, hsrc]
  have hid := (hs.known _ hmem).2.1
  have hchunk := dataChunk_le st.p (st.p.stream slot) available
  unfold sourceRound
  dsimp only
  generalize host.pull source (dataChunk st.p (st.p.stream slot) available) st.app = pulled
  split
  · exact .refl
  split
  · exact protoFail_steps st (by decide)
  -- the application of the new state is no part of its trace
  have hdrop : Steps st.trace (St.setP { st with app := pulled.1 } (dropSource st.p slot)).trace := by
    have hset := trace_modifyStream hs hlt (fun s => { s with source := none }) rfl
    have hstep := (Step.dropSource st.trace hmem).steps
    exact hset ▸ hstep
  have habort := hdrop.trans (protoFail_steps (St.setP { st with app := pulled.1 }
    (dropSource st.p slot)) (show errInternalError ≠ errFlowControlError by decide))
  split
  · split
    · exact habort
    · have hview : (st.p.modifyStream slot fun s => { s with sourceWaiting := true }).view =
          st.p.view := modifyStream_view_of_same slot (fun _ => rfl)
      have hsame := @trace_setP_of_view σ { st with app := pulled.1 } _ hview
      exact hsame ▸ .refl
  · exact hdrop.trans (submitRstStream_steps hh (hdrop.sane hs) _ _)
  · split
    · exact habort
    next hn =>
    split
    · have hsend := @trace_sendData σ { st with app := pulled.1 } hs slot hlt
        ⟨.data, 0, (st.p.stream slot).id, pulled.2.bytes⟩ (fun s => s) (fun _ => rfl)
      rw [modifyStream_id] at hsend
      have hstep := @Step.data st.trace _ pulled.2.bytes _ _ hmem hopen (.inr hhas) (by omega)
        (by simp only [trace_view, Proto.view]; omega) (by simp only [trace_view, Proto.view]; omega)
        (by simp only [Stream.view]; omega) (fun hb => hb) (fun h => h)
      exact hsend ▸ hstep.steps
    · exact protoFail_steps { st with app := pulled.1 } (by decide)
  · split
    · exact habort
    -- the empty frame that ends the stream, then the flag
    have hset := @trace_modifyStream σ { st with app := pulled.1 } hs slot hlt
      (fun s => { s with source := none, sourceDone := true }) rfl
    have hstream := stream_modifyStream hlt (fun s => { s with source := none, sourceDone := true })
    have hlt₁ := lt_modifyStream hlt (fun s => { s with source := none, sourceDone := true })
    generalize st.p.modifyStream slot (fun s => { s with source := none, sourceDone := true }) = p₁
      at hset hstream hlt₁ ⊢
    have hdrop₁ : Steps st.trace (St.setP { st with app := pulled.1 } p₁).trace :=
      hset ▸ (Step.dropSource st.trace hmem).steps
    generalize hst₁ : St.setP { st with app := pulled.1 } p₁ = st₁ at hset hdrop₁ ⊢
    have hp₁ : st₁.p = p₁ := by rw [← hst₁]; rfl
    split
    · have hs₂ : (push st₁ (.out ⟨.data, flagEndStream, (st.p.stream slot).id, []⟩)
          (Frame.bytes ⟨.data, flagEndStream, (st.p.stream slot).id, []⟩)).p.view.Sane :=
        (hdrop₁.sane hs).withOut _
      have hend := trace_modifyStream hs₂ (show slot < _ by rw [push, St.setP_p, hp₁]; exact hlt₁)
        (fun s => { s with endStreamSent := true }) rfl
      have hview : (push st₁ (.out ⟨.data, flagEndStream, (st.p.stream slot).id, []⟩)
          (Frame.bytes ⟨.data, flagEndStream, (st.p.stream slot).id, []⟩)).p.stream slot =
          { st.p.stream slot with source := none, sourceDone := true } := by
        rw [← hstream, ← hp₁]
        rfl
      rw [hview, trace_push, hset] at hend
      have hstep := (Step.endSource st.trace hmem hopen hhas).steps
      exact (hend ▸ hstep).trans (maybeClose_steps hh ((hend ▸ hstep :).sane hs) slot)
    · exact hdrop₁.trans (protoFail_steps st₁ (by decide))
  · exact habort

/-- The deferred trailers behind the last DATA frame of a body. -/
theorem finishBody_trailers_steps {st : St σ} (hs : st.p.view.Sane) {slot : ℕ} (endStream : Bool)
    (hopen : (st.p.stream slot).closed = false) (hbody : (st.p.stream slot).body.isSome = true)
    (hsrc : (st.p.stream slot).source = none) (heof : (st.p.stream slot).bodyEof = true)
    (hpending : (st.p.stream slot).trailersPending = true) :
    Steps st.trace (finishBody st slot endStream).1.trace := by
  have hlt := slot_lt_of_open hopen
  have hmem := stream_view_mem hlt
  unfold finishBody
  dsimp only
  rw [if_pos heof, if_pos hpending]
  have hset := trace_modifyStream hs hlt (fun s => { s with trailersPending := false }) rfl
  have hstream := stream_modifyStream hlt (fun s => { s with trailersPending := false })
  have hlt₁ := lt_modifyStream hlt (fun s => { s with trailersPending := false })
  generalize st.p.modifyStream slot (fun s => { s with trailersPending := false }) = p₁
    at hset hstream hlt₁ ⊢
  have hdrop : Steps st.trace (st.setP p₁).trace := hset ▸ (Step.dropTrailers st.trace hmem).steps
  split
  next st₂ h₂ =>
    rw [outFrame_false h₂]
    exact hdrop.trans (protoFail_steps (st.setP p₁) (by decide))
  next st₂ h₂ =>
    obtain ⟨rfl, hlen⟩ := outFrame_true h₂
    rw [trace_push_modifyStream (hdrop.sane hs) hlt₁ _ (fun s => { s.bodyEnded with trailers := [] })
      (fun _ => rfl), hset, St.setP_p, hstream]
    exact (Step.trailersOut st.trace hmem hopen hbody (by simp [Stream.view, hsrc]) hpending hlen).steps

theorem finishBody_more {st : St σ} {slot : ℕ} (endStream : Bool)
    (heof : (st.p.stream slot).bodyEof = false) : finishBody st slot endStream =
      (st.setP (st.p.modifyStream slot fun s => { s with body := none, bodyOff := 0 }), true) := by
  simp [finishBody, heof]

theorem finishBody_last {st : St σ} {slot : ℕ} (heof : (st.p.stream slot).bodyEof = true)
    (hpending : (st.p.stream slot).trailersPending = false) : finishBody st slot true =
      (st.setP (st.p.modifyStream slot Stream.bodyEnded), true) := by
  simp [finishBody, heof, hpending]

/-- One round of a flat body. -/
theorem flatRound_steps (hh : host.Faithful) {st : St σ} (hs : st.p.view.Sane) {slot : ℕ}
    {available : ℕ} (hopen : (st.p.stream slot).closed = false)
    (hsrc : (st.p.stream slot).source = none)
    (hav : available ≤ st.p.peerSettings.maxFrameSize) :
    Steps st.trace (flatRound host st slot available).1.trace := by
  have hlt := slot_lt_of_open hopen
  have hmem := stream_view_mem hlt
  have hnosrc : (st.p.stream slot).view.hasSource = false := by simp [Stream.view, hsrc]
  unfold flatRound
  dsimp only
  split
  · exact .refl
  next body hbody =>
  have hhas : (st.p.stream slot).view.hasBody = true := by simp [Stream.view, hbody]
  have hchunk := dataChunk_le st.p (st.p.stream slot)
    (min (body.length - (st.p.stream slot).bodyOff) available)
  generalize dataChunk st.p (st.p.stream slot)
    (min (body.length - (st.p.stream slot).bodyOff) available) = chunk at hchunk ⊢
  split
  · exact .refl
  next hgo =>
  simp only [not_or, not_not] at hgo
  split
  swap
  · exact protoFail_steps st (by decide)
  have hlen : (((body.drop (st.p.stream slot).bodyOff).take chunk).length) = chunk := by
    rw [List.length_take, List.length_drop]
    omega
  generalize (body.drop (st.p.stream slot).bodyOff).take chunk = payload at hlen ⊢
  have hmax : payload.length ≤ st.p.peerSettings.maxFrameSize := by omega
  have hconn : (payload.length : Int) ≤ st.p.connSendWindow := by omega
  have hwin : (payload.length : Int) ≤ (st.p.stream slot).sendWindow := by omega
  have h0 : 0 < payload.length := by omega
  rw [← hlen]
  -- the DATA frame with the flags and the stream it leaves behind
  have hsend := fun (flags : UInt8) (g : Stream → Stream) (hid : ∀ s, (g s).id = s.id) =>
    trace_sendData hs hlt ⟨.data, flags, (st.p.stream slot).id, payload⟩ g hid
  have hplain : ∀ g : Stream → Stream, (∀ s, (g s).id = s.id) → ∀ hasBody bodyPending,
      (hasBody = true → bodyPending = true) →
      (g { st.p.stream slot with
        sendWindow := int32 ((st.p.stream slot).sendWindow - payload.length) }).view =
        { (st.p.stream slot).view with
          sendWindow := int32 ((st.p.stream slot).sendWindow - payload.length)
          hasBody, bodyPending } →
      Steps st.trace ((push st (.out ⟨.data, 0, (st.p.stream slot).id, payload⟩)
        (Frame.bytes ⟨.data, 0, (st.p.stream slot).id, payload⟩)).setP
          ((chargeData (push st (.out ⟨.data, 0, (st.p.stream slot).id, payload⟩)
            (Frame.bytes ⟨.data, 0, (st.p.stream slot).id, payload⟩)).p slot
              payload.length).modifyStream slot g)).trace := by
    intro g hid hasBody bodyPending hbp hview
    have hstep := @Step.data st.trace _ payload hasBody bodyPending hmem hopen (.inl hhas) h0 hmax
      hconn hwin (fun _ => hhas) (fun _ => hbp)
    have hto := hsend 0 g hid
    simp only [hview] at hto
    exact hto ▸ hstep.steps
  by_cases hlast : (st.p.stream slot).bodyOff + payload.length = body.length
  · simp only [decide_eq_true hlast, Bool.true_and, if_true]
    have hstream := fun flags : UInt8 => @stream_chargeData
      (push st (.out ⟨.data, flags, (st.p.stream slot).id, payload⟩)
        (Frame.bytes ⟨.data, flags, (st.p.stream slot).id, payload⟩)).p slot hlt payload.length
        (fun s => { s with bodyOff := s.bodyOff + payload.length })
    cases heof : (st.p.stream slot).bodyEof with
    | false =>
      simp only [Bool.false_and, Bool.false_eq_true, if_false]
      have hto := hplain (fun s => { s with body := none, bodyOff := 0 })
        (fun _ => rfl) false false (fun h => h) (by simp [Stream.view, Stream.bodyPending])
      rw [finishBody_more false (by rw [St.setP_p, hstream 0]; exact heof)]
      simp only [St.setP_p, setP_setP, modifyStream_modifyStream]
      exact hto.trans (maybeClose_steps hh (hto.sane hs) slot)
    | true =>
      cases hpending : (st.p.stream slot).trailersPending with
      | false =>
        simp only [Bool.not_false, Bool.and_true, if_true]
        rw [finishBody_last (by rw [St.setP_p, hstream]; exact heof)
          (by rw [St.setP_p, hstream]; exact hpending)]
        simp only [St.setP_p, setP_setP, modifyStream_modifyStream]
        have hto := hsend flagEndStream (fun s => Stream.bodyEnded
          { s with bodyOff := s.bodyOff + payload.length }) (fun _ => rfl)
        have hstep := (Step.dataEnd st.trace hmem hopen hhas hnosrc h0 hmax hconn hwin).steps
        have hto : Steps st.trace _ := hto ▸ hstep
        exact hto.trans (maybeClose_steps hh (hto.sane hs) slot)
      | true =>
        simp only [Bool.not_true, Bool.and_false, Bool.false_eq_true, if_false]
        have hto := hplain (fun s => { s with bodyOff := s.bodyOff + payload.length }) (fun _ => rfl)
          true true (fun h => h) (by simp [Stream.view, Stream.bodyPending, hbody, heof])
        have htr := @finishBody_trailers_steps σ _ (hto.sane hs) slot false
          (by rw [St.setP_p, hstream 0]; exact hopen) (by rw [St.setP_p, hstream 0]; exact hhas)
          (by rw [St.setP_p, hstream 0]; exact hsrc) (by rw [St.setP_p, hstream 0]; exact heof)
          (by rw [St.setP_p, hstream 0]; exact hpending)
        have hto := hto.trans htr
        split
        next st₃ h₃ =>
          rw [h₃] at hto
          exact hto
        next st₃ h₃ =>
          rw [h₃] at hto
          exact hto.trans (maybeClose_steps hh (hto.sane hs) slot)
  · simp only [decide_eq_false hlast, Bool.false_and, Bool.false_eq_true, if_false]
    have hmore : (st.p.stream slot).bodyOff + payload.length < body.length := by omega
    have hto := hplain (fun s => { s with bodyOff := s.bodyOff + payload.length }) (fun _ => rfl)
      true true (fun h => h) (by simp [Stream.view, Stream.bodyPending, hbody, hmore])
    exact hto.trans (maybeClose_steps hh (hto.sane hs) slot)

theorem emptyRound_steps (hh : host.Faithful) {st : St σ} (hs : st.p.view.Sane) {slot : ℕ}
    (remaining : ℕ) (hopen : (st.p.stream slot).closed = false)
    (hsrc : (st.p.stream slot).source = none) (hbody : (st.p.stream slot).body.isSome = true) :
    Steps st.trace (emptyRound host st slot remaining).trace := by
  have hlt := slot_lt_of_open hopen
  unfold emptyRound
  split
  · exact .refl
  split
  next st₁ h₁ =>
    rw [outFrame_false h₁]
    exact protoFail_steps st (by decide)
  next st₁ h₁ =>
    obtain ⟨rfl, -⟩ := outFrame_true h₁
    have hset := trace_push_modifyStream hs hlt ⟨.data, flagEndStream, (st.p.stream slot).id, []⟩
      Stream.bodyEnded (fun _ => rfl)
    have hstep := (Step.endBody st.trace (stream_view_mem hlt) hopen hbody
      (by simp [Stream.view, hsrc])).steps
    have hto : Steps st.trace _ := hset ▸ hstep
    exact hto.trans (maybeClose_steps hh (hto.sane hs) slot)

theorem emitAgain_steps {slot fuel : ℕ} {st : St σ} (hs : st.p.view.Sane)
    (ih : ∀ {st : St σ}, st.p.view.Sane → Steps st.trace (emitData host slot fuel st).trace)
    (r : St σ × Bool) (hround : Steps st.trace r.1.trace) : Steps st.trace
      (match r with
        | (st, false) => st
        | (st, true) => emitData host slot fuel st).trace := by
  obtain ⟨st₂, _ | _⟩ := r
  · exact hround
  · exact hround.trans (ih (hround.sane hs))

theorem emitData_steps (hh : host.Faithful) (slot fuel : ℕ) {st : St σ} (hs : st.p.view.Sane) :
    Steps st.trace (emitData host slot fuel st).trace := by
  induction fuel generalizing st with
  | zero => exact .refl
  | succ fuel ih =>
    unfold emitData
    dsimp only
    split
    · exact .refl
    next hc =>
    have hopen : (st.p.stream slot).closed = false := Bool.eq_false_of_not_eq_true hc
    split
    · exact protoFail_steps st (by decide)
    split
    next hempty => exact emptyRound_steps hh hs _ hopen hempty.1 (by simp [hempty.2.1])
    split
    · exact .refl
    generalize hav : min st.p.peerSettings.maxFrameSize _ = available
    have hav : available ≤ st.p.peerSettings.maxFrameSize := by omega
    apply emitAgain_steps hs ih
    split
    next source hsrc => exact sourceRound_steps hh hs hopen hsrc hav
    next hsrc => exact flatRound_steps hh hs hopen hsrc hav

/-- `send`: moves of the engine, after which the output goes to the transport. -/
theorem protoSend_cases (hh : host.Faithful) {st : St σ} (hs : st.p.view.Sane) :
    (∃ st' : St σ, protoSend host st = (st', none) ∧ Steps st.trace st'.trace) ∨
    (∃ st' : St σ, protoSend host st = (st'.setP { st'.p with out := { st'.p.out with data := [] } },
        some st'.p.out.data) ∧ Steps st.trace st'.trace) := by
  unfold protoSend
  have hg := ensurePreface_greeted st
  split
  next st₁ h =>
    rw [h] at hg
    exact .inl ⟨st₁, rfl, hg.steps⟩
  next st₁ h =>
    rw [h] at hg
    have hs₁ : st₁.p.view.Sane := hg.steps.sane hs
    refine .inr ⟨_, rfl, hg.steps.trans ?_⟩
    split
    · exact .refl
    · exact forSlots_steps (fun slot st hs => emitData_steps hh slot _ hs) _ _ hs₁

end Chttp.H2
