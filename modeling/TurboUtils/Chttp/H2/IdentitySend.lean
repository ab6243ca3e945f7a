import TurboUtils.Chttp.H2.IdentityCalls

/-! The send path turns pages. -/
namespace Chttp.H2

variable {σ : Type*}

theorem SameTable.stays_open {p p' : Proto} (h : SameTable p p') {slot : ℕ}
    (hopen : (p.stream slot).closed = false) :
    (p'.stream slot).id = (p.stream slot).id ∧ (p'.stream slot).closed = false := by
  have hkey := key_of_open hopen
  rw [← h.keys, keys_getElem?] at hkey
  obtain ⟨s, hs, hskey⟩ := Option.map_eq_some_iff.1 hkey
  obtain ⟨hlt, hget⟩ := List.getElem?_eq_some_iff.1 hs
  rw [stream_eq hlt, hget]
  exact ⟨congrArg Prod.fst hskey, congrArg Prod.snd hskey⟩

theorem turns_pushFrame (st : St σ) {f : Frame} (hf : f.type ≠ .headers) :
    Turns st.page (push st (.out f) f.bytes).page :=
  turns_push f.bytes rfl fun id hid => by
    rw [Item.announcing, if_neg hf] at hid
    cases hid

theorem chargeData_same (p : Proto) (slot n : ℕ) : SameTable p (chargeData p slot n) := by
  refine SameTable.trans ?_ (.modify { p with connSendWindow := int32 (p.connSendWindow - n) } slot
    (fun _ => rfl) fun _ h => h)
  exact .of_eq rfl rfl rfl rfl (fun h => h) rfl rfl rfl rfl rfl

theorem dropSource_same (p : Proto) (slot : ℕ) : SameTable p (dropSource p slot) :=
  .modify p slot (fun _ => rfl) fun _ h => h

section host

variable {host : Host σ} {start : Proto}

theorem turns_fail {st : St σ} {p : Proto} (h : SameTable st.p p) (error : ℕ) :
    Turns st.page (protoFail (st.setP p) error).page :=
  (turns_setP h).trans (protoFail_turns _ _)

theorem sourceRound_turns (hh : host.Turning start) {st : St σ} (hk : Kept start st.page)
    (slot source available : ℕ) :
    Turns st.page (sourceRound host st slot source available).1.page := by
  unfold sourceRound
  dsimp only
  split
  · exact .refl
  split
  · exact protoFail_turns st _
  generalize host.pull source _ st.app = pulled
  -- what the source did is no part of the page
  obtain ⟨app, status, bytes⟩ := pulled
  have habort : Turns st.page (protoFail (({ st with app } : St σ).setP (dropSource st.p slot))
      errInternalError).page :=
    @turns_fail σ { st with app } _ (dropSource_same st.p slot) errInternalError
  cases status with
  | wait =>
    dsimp only
    split
    · exact habort
    · exact @turns_setP σ { st with app } _ (.modify _ _ (fun _ => rfl) fun _ h => h)
  | error =>
    have hdrop : Turns st.page (({ st with app } : St σ).setP (dropSource st.p slot)).page :=
      @turns_setP σ { st with app } _ (dropSource_same st.p slot)
    exact hdrop.trans (submitRstStream_turns hh (Turns.keeps hdrop hk) _ _)
  | data =>
    dsimp only
    split
    · exact habort
    split
    · have hpush : Turns st.page _ := @turns_pushFrame σ { st with app }
        ⟨.data, 0, (st.p.stream slot).id, bytes⟩ nofun
      exact hpush.trans (turns_setP (chargeData_same _ _ _))
    · exact @protoFail_turns σ { st with app } _
  | eof =>
    dsimp only
    split
    · exact habort
    have hdone : Turns st.page (({ st with app } : St σ).setP (st.p.modifyStream slot fun s =>
        { s with source := none, sourceDone := true })).page :=
      @turns_setP σ { st with app } _ (.modify _ _ (fun _ => rfl) fun _ h => h)
    split
    · have hpush := hdone.trans (@turns_pushFrame σ _
        ⟨.data, flagEndStream, (st.p.stream slot).id, []⟩ nofun)
      refine hpush.trans ?_
      refine Relation.ReflTransGen.trans (turns_setP ?_) (maybeClose_turns hh (Turns.keeps (hpush.trans (turns_setP ?_)) hk) slot)
      · exact .modify _ _ (fun _ => rfl) fun _ h => h
      · exact .modify _ _ (fun _ => rfl) fun _ h => h
    · exact hdone.trans (protoFail_turns _ _)
  | invalid => exact habort

theorem finishBody_turns {st : St σ} {slot : ℕ} (hopen : (st.p.stream slot).closed = false)
    (endStream : Bool) : Turns st.page (finishBody st slot endStream).1.page := by
  unfold finishBody
  dsimp only
  split
  · split
    · have hsame : SameTable st.p (st.p.modifyStream slot fun s =>
          { s with trailersPending := false }) := .modify _ _ (fun _ => rfl) fun _ h => h
      have hflag : Turns st.page (st.setP (st.p.modifyStream slot fun s =>
          { s with trailersPending := false })).page := turns_setP hsame
      have hout := turns_outFrame (st.setP (st.p.modifyStream slot fun s =>
          { s with trailersPending := false }))
        ⟨.headers, flagEndHeaders ||| flagEndStream, (st.p.stream slot).id,
          (st.p.stream slot).trailers⟩ fun _ => by
        rw [St.setP_p, hsame.keys]
        exact open_mem hopen
      split
      next st₁ hst₁ => exact (hflag.trans (turns_of_eq hout hst₁)).trans (protoFail_turns _ _)
      next st₁ hst₁ =>
        exact (hflag.trans (turns_of_eq hout hst₁)).trans
          (turns_setP (.modify _ _ (fun _ => rfl) fun _ h => h))
    · split
      · exact turns_setP (.modify _ _ (fun _ => rfl) fun _ h => h)
      · exact turns_setP (.modify _ _ (fun _ => rfl) fun _ h => h)
  · exact turns_setP (.modify _ _ (fun _ => rfl) fun _ h => h)

def Proto.framed (p : Proto) (slot chunk : ℕ) : Proto :=
  (chargeData p slot chunk).modifyStream slot fun s => { s with bodyOff := s.bodyOff + chunk }

theorem framed_same (p : Proto) (slot chunk : ℕ) : SameTable p (p.framed slot chunk) :=
  (chargeData_same p slot chunk).trans (.modify _ _ (fun _ => rfl) fun _ h => h)

theorem afterFrame_turns (hh : host.Turning start) {st : St σ} (hk : Kept start st.page) {slot : ℕ}
    (hopen : (st.p.stream slot).closed = false) (last endStream : Bool) :
    Turns st.page (if last then
        match finishBody st slot endStream with
        | (st, false) => (st, false)
        | (st, true) => (maybeClose host st slot, true)
      else (maybeClose host st slot, true)).1.page := by
  have hfinish := finishBody_turns hopen endStream
  split
  · split
    next st₁ hst₁ => exact turns_of_eq hfinish hst₁
    next st₁ hst₁ =>
      have hst₁' := turns_of_eq hfinish hst₁
      exact hst₁'.trans (maybeClose_turns hh (Turns.keeps hst₁' hk) slot)
  · exact maybeClose_turns hh hk slot

theorem flatRound_turns (hh : host.Turning start) {st : St σ} (hk : Kept start st.page) {slot : ℕ}
    (hopen : (st.p.stream slot).closed = false) (available : ℕ) :
    Turns st.page (flatRound host st slot available).1.page := by
  unfold flatRound
  dsimp only
  split
  · exact .refl
  next body hbody =>
  split
  · exact .refl
  generalize dataChunk st.p (st.p.stream slot)
    (min (body.length - (st.p.stream slot).bodyOff) available) = chunk
  split
  · have hpush (flags : UInt8) : Turns st.page (push st (.out ⟨.data, flags, (st.p.stream slot).id,
        (body.drop (st.p.stream slot).bodyOff).take chunk⟩) _).page :=
      turns_pushFrame st nofun
    have hframed (flags : UInt8) := (hpush flags).trans (turns_setP (framed_same _ slot chunk))
    refine (hframed _).trans (afterFrame_turns hh (Turns.keeps (hframed _) hk) ?_ _ _)
    exact ((framed_same _ slot chunk).stays_open hopen).2
  · exact protoFail_turns st _

theorem emptyRound_turns (hh : host.Turning start) {st : St σ} (hk : Kept start st.page)
    (slot remaining : ℕ) : Turns st.page (emptyRound host st slot remaining).page := by
  have hout := turns_outFrame st ⟨.data, flagEndStream, (st.p.stream slot).id, []⟩ nofun
  unfold emptyRound
  split
  · exact .refl
  split
  next st₁ hst₁ => exact (turns_of_eq hout hst₁).trans (protoFail_turns _ _)
  next st₁ hst₁ =>
    have hended : Turns st.page (st₁.setP (st₁.p.modifyStream slot Stream.bodyEnded)).page :=
      (turns_of_eq hout hst₁).trans (turns_setP (.modify _ _ (fun _ => rfl) fun _ h => h))
    exact hended.trans (maybeClose_turns hh (hended.keeps hk) slot)

theorem emitRound_turns (hh : host.Turning start) {st : St σ} (hk : Kept start st.page) {slot : ℕ}
    (hopen : (st.p.stream slot).closed = false) (available : ℕ) :
    Turns st.page (match (st.p.stream slot).source with
      | some source => sourceRound host st slot source available
      | none => flatRound host st slot available).1.page := by
  split
  · exact sourceRound_turns hh hk slot _ available
  · exact flatRound_turns hh hk hopen available

theorem emitData_turns (hh : host.Turning start) (slot fuel : ℕ) {st : St σ}
    (hk : Kept start st.page) : Turns st.page (emitData host slot fuel st).page := by
  induction fuel generalizing st with
  | zero => exact .refl
  | succ fuel ih =>
    unfold emitData
    dsimp only
    split
    · exact .refl
    next hclosed =>
    have hopen := Bool.eq_false_of_not_eq_true hclosed
    split
    · exact protoFail_turns st _
    split
    · exact emptyRound_turns hh hk slot _
    split
    · exact .refl
    generalize min st.p.peerSettings.maxFrameSize
      (st.p.config.outputBufferBytes - st.p.out.size - frameHeaderSize) = available
    have hround := emitRound_turns hh hk hopen available
    split
    next st₁ hst₁ => exact turns_of_eq hround hst₁
    next st₁ hst₁ =>
      have hst₁' := turns_of_eq hround hst₁
      exact hst₁'.trans (ih (Turns.keeps hst₁' hk))

theorem protoSend_turns (hh : host.Turning start) {st : St σ} (hk : Kept start st.page) :
    Turns st.page (protoSend host st).1.page := by
  have hpreface := ensurePreface_turns st
  unfold protoSend
  split
  next st₁ hst₁ => exact turns_of_eq hpreface hst₁
  next st₁ hst₁ =>
    have hst₁' := turns_of_eq hpreface hst₁
    have hslots := hst₁'.trans (forSlots_turns
      (fun slot (st : St σ) hk => emitData_turns hh slot (st.p.config.outputBufferBytes + 1) hk)
      st₁.p.config.streamCapacity 0 (Turns.keeps hst₁' hk))
    dsimp only
    split
    · exact hst₁'.trans (turns_setP (sameTable_out _ _))
    · exact hslots.trans (turns_setP (sameTable_out _ _))

end host

end Chttp.H2
