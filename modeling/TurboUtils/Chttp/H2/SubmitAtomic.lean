import TurboUtils.Chttp.H2.HeaderBounds
import TurboUtils.Chttp.H2.SendCredit

/-! The submit calls that answer -1 on an engine that still serves: what they may have changed by
then, and the exits that come after the encoder or the `end_stream_sent` flag was written. -/
namespace Chttp.H2

open Chttp.Hpack (Header hpackEncode)

variable {σ : Type*}

/-! ## Failure and the greeting -/

theorem submitGoaway_failed (st : St σ) (last error : ℕ) :
    (submitGoaway st last error).1.p.failed = st.p.failed := by
  unfold submitGoaway
  split_ifs
  · rfl
  · obtain ⟨out, sent, done, hp, -⟩ := (ensurePreface_greeted st).engine
    have hfailed : (ensurePreface st).1.p.failed = st.p.failed := by rw [hp]
    split
    next st₁ h =>
      rw [h] at hfailed
      exact hfailed
    next st₁ h =>
      rw [h] at hfailed
      rcases outFrame_cases st₁ ⟨.goaway, 0, 0, goawayBytes last error⟩ with ho | ⟨ho, -, -⟩
      · rw [ho]
        exact hfailed
      · rw [ho]
        exact hfailed

theorem protoFail_failed (st : St σ) (error : ℕ) : (protoFail st error).p.failed = true := by
  unfold protoFail
  split_ifs with hfailed
  · exact hfailed
  · exact submitGoaway_failed _ _ _

/-- The SETTINGS frame of `chttp_h2_proto_submit_settings`. -/
def Proto.settingsFrame (p : Proto) : Frame := ⟨.settings, 0, 0, settingsBytes (settingsValues p)⟩

/-- The output is as before, or one greeting longer: the preface and SETTINGS of a client, the
SETTINGS of a server. -/
inductive OnlyGreets (p p' : Proto) : Prop
  | same (h : p'.out = p.out)
  | client (hmode : p.mode = .client) (hnew : p.clientPrefaceDone = false)
      (h : p'.out = p.out.append (preface ++ p.settingsFrame.bytes))
  | server (hmode : p.mode = .server) (hnew : p.settingsSent = false)
      (h : p'.out = p.out.append p.settingsFrame.bytes)

theorem submitSettings_out (st : St σ) :
    ((submitSettings st).2 = false ∧ (submitSettings st).1 = st) ∨
      (submitSettings st).1.p.out = st.p.out.append st.p.settingsFrame.bytes := by
  unfold submitSettings
  rcases outFrame_cases st st.p.settingsFrame with h | ⟨h, -, -⟩
  · left
    unfold Proto.settingsFrame at h
    rw [h]
    exact ⟨rfl, rfl⟩
  · right
    unfold Proto.settingsFrame at h
    rw [h]
    rfl

/-- Nothing but the greeting goes out with `proto_ensure_preface`. -/
theorem ensurePreface_onlyGreets (st : St σ) : OnlyGreets st.p (ensurePreface st).1.p := by
  unfold ensurePreface
  split
  next hmode =>
    split_ifs with hdone hroom
    · exact .same rfl
    · dsimp only
      generalize hst : (push st Item.preface preface).setP
        { (push st Item.preface preface).p with clientPrefaceDone := true } = st₁
      have hout : st₁.p.out = st.p.out.append preface := by rw [← hst]; rfl
      have hcount : st₁.p.view.settingsCount = st.p.view.settingsCount := by rw [← hst]; rfl
      have hframe : st₁.p.settingsFrame = st.p.settingsFrame := by rw [← hst]; rfl
      -- the reservation covers the preface and the largest SETTINGS frame
      have hfits : st₁.p.out.reserve (frameHeaderSize + 6 * st₁.p.view.settingsCount) = true := by
        have hmax := settingsCount_le st.p.view
        have hlen : preface.length = prefaceLen := by decide
        have hroom := (Buffer.reserve_iff ..).1 hroom
        rw [Buffer.reserve_iff, hcount, hout, Buffer.append_data, Buffer.append_maxCapacity,
          List.length_append]
        simp only [prefaceLen, frameHeaderSize] at hroom hlen ⊢
        omega
      rcases submitSettings_cases st₁ with ⟨-, hno⟩ | ⟨hok, -⟩
      · rw [hfits] at hno
        cases hno
      · rcases submitSettings_out st₁ with ⟨hno, -⟩ | hsettings
        · rw [hok] at hno
          cases hno
        · apply OnlyGreets.client hmode (Bool.eq_false_of_not_eq_true hdone)
          rw [hsettings, hout, hframe, Buffer.append_append]
    · exact .same rfl
  next hmode =>
    split_ifs with hneed
    · rcases submitSettings_out st with ⟨-, h⟩ | h
      · exact .same (congrArg (fun st => st.p.out) h)
      · rw [Bool.and_eq_true, Bool.not_eq_true'] at hneed
        exact .server hmode hneed.2 h
    · exact .same rfl

/-! ## The exits of a header block -/

/-- The block is refused before anything is encoded: a size bound, or the room in the output. -/
def Proto.refusesBlock (p : Proto) (hdrs : List Header) (hasPriority : Bool) : Bool :=
  match headerBounds p hdrs hasPriority with
  | none => true
  | some (_, wireBound) => !p.out.reserve wireBound

def Proto.encodeBlock (p : Proto) (hdrs : List Header) : Hpack.Context × Option Buffer :=
  hpackEncode p.hpack ⟨[], p.config.headerBlockBytes⟩ hdrs

theorem outHeaders_of_refuses {st : St σ} {streamId : ℕ} {hdrs : List Header} {endStream : Bool}
    {priority : Option Priority} (h : st.p.refusesBlock hdrs priority.isSome = true) :
    outHeaders st streamId hdrs endStream priority = (st, false) := by
  unfold Proto.refusesBlock at h
  unfold outHeaders
  cases hb : headerBounds st.p hdrs priority.isSome with
  | none => rfl
  | some bounds =>
    rw [hb] at h
    dsimp only at h ⊢
    rw [Bool.not_eq_true'] at h
    rw [if_neg (by rw [h]; exact Bool.false_ne_true)]

theorem blockLoop_false {streamId : ℕ} {endStream hasPriority : Bool} {fuel : ℕ} {first : Bool}
    {rest : Bytes} {st st' : St σ}
    (h : blockLoop streamId endStream hasPriority fuel first rest st = (st', false)) :
    st'.p.failed = true := by
  induction fuel generalizing first rest st with
  | zero => cases h
  | succ fuel ih =>
    unfold blockLoop at h
    dsimp only at h
    split at h
    · cases h
      exact protoFail_failed _ _
    · split_ifs at h
      · cases h
      · exact ih h

/-- What is behind a block that was not refused: the encoder, then the priority, then the frames. -/
theorem outHeaders_of_accepts {st : St σ} {streamId : ℕ} {hdrs : List Header} {endStream : Bool}
    {priority : Option Priority} (h : st.p.refusesBlock hdrs priority.isSome = false) :
    outHeaders st streamId hdrs endStream priority =
      match st.p.encodeBlock hdrs with
      | (hpack, none) => (protoFail (st.setP (st.p.withHpack hpack)) errInternalError, false)
      | (hpack, some blk) =>
          match priorityPrefix st.p blk.data priority with
          | none => (st.setP (st.p.withHpack hpack), false)
          | some pre =>
              blockLoop streamId endStream priority.isSome ((pre ++ blk.data).length + 1) true
                (pre ++ blk.data) (st.setP (st.p.withHpack hpack)) := by
  unfold Proto.refusesBlock at h
  split at h
  · cases h
  next encodedBound wireBound hb =>
  rw [Bool.not_eq_false'] at h
  obtain ⟨hencoded, hblock⟩ := headerBounds_encoded hb
  have hinit : Buffer.init (min encodedBound 256) st.p.config.headerBlockBytes =
      some ⟨[], st.p.config.headerBlockBytes⟩ := by
    unfold Buffer.init
    rw [if_neg]
    unfold hpackPendingUpdateBytes at hencoded
    omega
  unfold outHeaders
  rw [hb]
  dsimp only
  rw [if_pos h, hinit]
  rfl

/-- A header block that did not go out and did not fail the engine: it was refused, or its priority
was, after the encoder had moved on. -/
theorem outHeaders_false {st st' : St σ} {streamId : ℕ} {hdrs : List Header} {endStream : Bool}
    {priority : Option Priority}
    (h : outHeaders st streamId hdrs endStream priority = (st', false))
    (hserving : st'.p.failed = false) :
    (st.p.refusesBlock hdrs priority.isSome = true ∧ st' = st) ∨
      (st.p.refusesBlock hdrs priority.isSome = false ∧ ∃ hpack blk,
        st.p.encodeBlock hdrs = (hpack, some blk) ∧
          priorityPrefix st.p blk.data priority = none ∧ st' = st.setP (st.p.withHpack hpack)) := by
  cases hrefuses : st.p.refusesBlock hdrs priority.isSome with
  | true =>
    rw [outHeaders_of_refuses hrefuses] at h
    cases h
    exact .inl ⟨rfl, rfl⟩
  | false =>
    rw [outHeaders_of_accepts hrefuses] at h
    split at h
    · cases h
      rw [protoFail_failed] at hserving
      cases hserving
    next hpack blk he =>
    split at h
    next hpre =>
      cases h
      exact .inr ⟨rfl, hpack, blk, he, hpre, rfl⟩
    · rw [blockLoop_false h] at hserving
      cases hserving

/-! ## What a failed submit may have changed -/

/-- The encoder side of two HPACK contexts is the same: the table and the pending size update. -/
structure SameEncoder (h h' : Hpack.Context) : Prop where
  table : h'.encoder = h.encoder
  pending : h'.encoderSizeUpdatePending = h.encoderSizeUpdatePending
  minSize : h'.encoderPendingMinSize = h.encoderPendingMinSize
  finalSize : h'.encoderPendingFinalSize = h.encoderPendingFinalSize

theorem SameEncoder.refl (h : Hpack.Context) : SameEncoder h h := ⟨rfl, rfl, rfl, rfl⟩

/-- The slot of a closed stream was given to the stream a request opened. -/
def Recycled (p p' : Proto) (slot : ℕ) : Prop :=
  (p.stream slot).closed = true ∧ (p'.stream slot).id = p.nextStreamId ∧
    p'.nextStreamId = p.nextStreamId + 2

/-- The `end_stream_sent` flags of the streams there were are as before. -/
def SameFlags (p p' : Proto) : Prop :=
  ∀ slot < p.streams.length,
    (p'.stream slot).endStreamSent = (p.stream slot).endStreamSent ∨ Recycled p p' slot

/-- Output, encoder and flags as before, the greeting apart. -/
structure Untouched (p p' : Proto) : Prop where
  out : OnlyGreets p p'
  encoder : SameEncoder p.hpack p'.hpack
  flags : SameFlags p p'

theorem sameFlags_of_streams {p p' : Proto} (h : p'.streams = p.streams) : SameFlags p p' :=
  fun slot _ => Or.inl (congrArg (fun streams => (streams.getD slot
    { id := 0, closed := true }).endStreamSent) h)

theorem untouched_refl (p : Proto) : Untouched p p :=
  ⟨.same rfl, .refl _, fun _ _ => Or.inl rfl⟩

/-! ## The greeting from the engine alone -/

/-- The engine with its greeting out; `none` when there is no room for it. -/
def Proto.greeted (p : Proto) : Option Proto :=
  match ensurePreface (⟨p, (), []⟩ : St Unit) with
  | (st, true) => some st.p
  | (_, false) => none

theorem outFrame_engine {τ : Type*} {st : St σ} {st₁ : St τ} (h : st.p = st₁.p) (f : Frame) :
    (outFrame st f).1.p = (outFrame st₁ f).1.p ∧ (outFrame st f).2 = (outFrame st₁ f).2 := by
  unfold outFrame
  rw [h]
  split_ifs
  · exact ⟨by rw [push, push, St.setP_p, St.setP_p, h], rfl⟩
  · exact ⟨h, rfl⟩

theorem submitSettings_engine {τ : Type*} {st : St σ} {st₁ : St τ} (h : st.p = st₁.p) :
    (submitSettings st).1.p = (submitSettings st₁).1.p ∧
      (submitSettings st).2 = (submitSettings st₁).2 := by
  have hout := outFrame_engine h ⟨.settings, 0, 0, settingsBytes (settingsValues st.p)⟩
  unfold submitSettings
  rw [← h]
  generalize outFrame st _ = r at hout ⊢
  generalize outFrame st₁ _ = r₁ at hout ⊢
  obtain ⟨st', ok⟩ := r
  obtain ⟨st₁', ok₁⟩ := r₁
  obtain ⟨hp, rfl⟩ := hout
  cases ok with
  | false => exact ⟨hp, rfl⟩
  | true => exact ⟨by rw [St.setP_p, St.setP_p, show st'.p = st₁'.p from hp], rfl⟩

/-- The greeting reads nothing but the engine. -/
theorem ensurePreface_engine {τ : Type*} {st : St σ} {st₁ : St τ} (h : st.p = st₁.p) :
    (ensurePreface st).1.p = (ensurePreface st₁).1.p ∧
      (ensurePreface st).2 = (ensurePreface st₁).2 := by
  unfold ensurePreface
  rw [← h]
  cases st.p.mode with
  | client =>
    dsimp only
    split_ifs
    · exact ⟨h, rfl⟩
    · apply submitSettings_engine
      rw [St.setP_p, St.setP_p, push, push, St.setP_p, St.setP_p, h]
    · exact ⟨h, rfl⟩
  | server =>
    dsimp only
    split_ifs
    · exact submitSettings_engine h
    · exact ⟨h, rfl⟩

theorem greeted_of_ensurePreface {st st₁ : St σ} (h : ensurePreface st = (st₁, true)) :
    st.p.greeted = some st₁.p := by
  obtain ⟨hp, hok⟩ := ensurePreface_engine (show st.p = (⟨st.p, (), []⟩ : St Unit).p from rfl)
  rw [h] at hp hok
  unfold Proto.greeted
  generalize ensurePreface (⟨st.p, (), []⟩ : St Unit) = r at hp hok ⊢
  obtain ⟨st₂, ok⟩ := r
  cases hok
  exact congrArg some hp.symm

theorem ensurePreface_of_greeted {st : St σ} {q : Proto} (h : st.p.greeted = some q) :
    ∃ st₁, ensurePreface st = (st₁, true) ∧ st₁.p = q := by
  obtain ⟨hp, hok⟩ := ensurePreface_engine (show st.p = (⟨st.p, (), []⟩ : St Unit).p from rfl)
  unfold Proto.greeted at h
  generalize ensurePreface (⟨st.p, (), []⟩ : St Unit) = r at hp hok h
  generalize ensurePreface st = r₁ at hp hok ⊢
  obtain ⟨st₂, ok⟩ := r
  obtain ⟨st₁, ok₁⟩ := r₁
  cases hok
  cases ok with
  | false => cases h
  | true =>
    cases h
    exact ⟨st₁, rfl, hp⟩

theorem greeted_fields {p q : Proto} (h : p.greeted = some q) :
    q.hpack = p.hpack ∧ q.config = p.config ∧ q.streams = p.streams ∧ q.mode = p.mode ∧
      q.failed = p.failed ∧ q.nextStreamId = p.nextStreamId := by
  obtain ⟨st, hst, rfl⟩ := @ensurePreface_of_greeted Unit ⟨p, (), []⟩ q h
  obtain ⟨out, sent, done, hp, -⟩ := (ensurePreface_greeted ⟨p, (), []⟩).engine
  rw [hst] at hp
  rw [show st.p = _ from hp]
  exact ⟨rfl, rfl, rfl, rfl, rfl, rfl⟩

/-! ## Requests -/

def Proto.hasSlot (p : Proto) : Bool :=
  p.streams.any Stream.closed || decide (p.streams.length < p.config.streamCapacity)

theorem newStream_isSome (p : Proto) (id : ℕ) : (p.newStream id).isSome = p.hasSlot := by
  unfold Proto.newStream Proto.hasSlot
  dsimp only
  generalize (if p.peerInitiated id ∧ p.lastProcStreamId < id then id
    else p.lastProcStreamId) = lastProc
  rw [← List.findIdx?_isSome]
  cases p.streams.findIdx? Stream.closed with
  | some i => rfl
  | none =>
    dsimp only
    split_ifs with hfull
    · simp [hfull]
    · simp [Nat.lt_of_not_le hfull]

/-- A new stream changes one slot, which was past the end or held a closed stream. -/
theorem newStream_spec {p p' : Proto} {id slot : ℕ} (h : p.newStream id = some (p', slot)) :
    (∃ streams last, p' = { p with streams, lastProcStreamId := last }) ∧
      slot < p'.streams.length ∧ p'.stream slot = p.freshStream id ∧
      ∀ i < p.streams.length,
        (i ≠ slot ∧ p'.stream i = p.stream i) ∨ (i = slot ∧ (p.stream i).closed = true) := by
  unfold Proto.newStream at h
  dsimp only at h
  generalize (if p.peerInitiated id ∧ p.lastProcStreamId < id then id
    else p.lastProcStreamId) = lastProc at h
  split at h
  next i hi =>
    obtain ⟨hlt, hclosed, -⟩ := List.findIdx?_eq_some_iff_getElem.1 hi
    rw [Option.some.injEq, Prod.mk.injEq] at h
    obtain ⟨rfl, rfl⟩ := h
    refine ⟨⟨_, _, rfl⟩, by simpa using hlt, by simp [Proto.stream, List.getD, hlt], fun j hj => ?_⟩
    by_cases hij : j = i
    · refine Or.inr ⟨hij, ?_⟩
      subst hij
      rw [stream_eq hj]
      exact hclosed
    · refine Or.inl ⟨hij, ?_⟩
      unfold Proto.stream
      rw [List.getD_eq_getElem?_getD, List.getD_eq_getElem?_getD, List.getElem?_set_ne (Ne.symm hij)]
  next hnone =>
    split_ifs at h
    rw [Option.some.injEq, Prod.mk.injEq] at h
    obtain ⟨rfl, rfl⟩ := h
    refine ⟨⟨_, _, rfl⟩, by simp, by simp [Proto.stream, List.getD], fun j hj =>
      Or.inl ⟨Nat.ne_of_lt hj, ?_⟩⟩
    unfold Proto.stream
    rw [List.getD_eq_getElem?_getD, List.getD_eq_getElem?_getD, List.getElem?_append_left hj]

theorem stream_modifyStream_ne {p : Proto} {slot i : ℕ} (h : i ≠ slot) (f : Stream → Stream) :
    (p.modifyStream slot f).stream i = p.stream i := by
  change (p.streams.modify slot f).getD i _ = p.streams.getD i _
  rw [List.getD_eq_getElem?_getD, List.getD_eq_getElem?_getD, List.getElem?_modify]
  simp only [Ne.symm h, if_false, Option.map_eq_map, Option.map_id_fun', id_eq]

/-- A request that got no stream: nothing was encoded, or the priority was refused behind the
encoder. The new stream is the only one that changed. -/
theorem openRequest_none {st st' : St σ} {hdrs : List Header} {endStream : Bool}
    {priority : Option Priority} (h : openRequest st hdrs endStream priority = (st', none))
    (hserving : st'.p.failed = false) :
    st'.p.out = st.p.out ∧ SameFlags st.p st'.p ∧
      (st'.p.hpack = st.p.hpack ∨
        (st.p.hasSlot = true ∧ st.p.refusesBlock hdrs priority.isSome = false ∧ ∃ hpack blk,
          st.p.encodeBlock hdrs = (hpack, some blk) ∧
            priorityPrefix st.p blk.data priority = none ∧ st'.p.hpack = hpack)) := by
  have hslots := newStream_isSome { st.p with nextStreamId := st.p.nextStreamId + 2 } st.p.nextStreamId
  unfold openRequest at h
  dsimp only at h
  rw [St.setP_p] at h
  split at h
  · cases h
    exact ⟨rfl, sameFlags_of_streams rfl, Or.inl rfl⟩
  next p slot hnew =>
    rw [hnew] at hslots
    obtain ⟨⟨streams, last, rfl⟩, hlt, hfresh, hothers⟩ := newStream_spec hnew
    dsimp only at h
    split at h
    next st₁ hout =>
      cases h
      -- the new stream is closed again, in the slot it was given
      have hflags : ∀ q : Proto, q.streams = streams.modify slot
            (fun s => { s with endStreamSent := endStream }) →
          q.nextStreamId = st.p.nextStreamId + 2 → SameFlags st.p (q.modifyStream slot fun s =>
            { s with closed := true, body := none, source := none }) := by
        intro q hq hnext i hi
        have hstream : q.stream = (Proto.modifyStream { st.p with
            nextStreamId := st.p.nextStreamId + 2, streams, lastProcStreamId := last } slot
              fun s => { s with endStreamSent := endStream }).stream := by
          funext j
          unfold Proto.stream
          rw [hq]
          rfl
        have hltq : slot < q.streams.length := by rw [hq, List.length_modify]; exact hlt
        rcases hothers i hi with ⟨hslot, hsame⟩ | ⟨rfl, hclosed⟩
        · left
          rw [stream_modifyStream_ne hslot, hstream, stream_modifyStream_ne hslot, hsame]
          rfl
        · refine Or.inr ⟨hclosed, ?_, hnext⟩
          rw [stream_modifyStream hltq, hstream, stream_modifyStream hlt, hfresh]
          rfl
      rcases outHeaders_false hout hserving with ⟨-, rfl⟩ | ⟨haccepts, hpack, blk, he, hpre, rfl⟩
      · exact ⟨rfl, hflags _ rfl rfl, Or.inl rfl⟩
      · exact ⟨rfl, hflags _ rfl rfl, Or.inr ⟨hslots.symm, haccepts, hpack, blk, he, hpre, rfl⟩⟩
    · cases h

/-- A request whose priority is refused gets no stream, and the encoder has moved on. -/
theorem openRequest_late {st : St σ} {hdrs : List Header} (endStream : Bool)
    {priority : Option Priority} {hpack : Hpack.Context} {blk : Buffer}
    (hslot : st.p.hasSlot = true) (haccepts : st.p.refusesBlock hdrs priority.isSome = false)
    (he : st.p.encodeBlock hdrs = (hpack, some blk))
    (hpre : priorityPrefix st.p blk.data priority = none) :
    ∃ st', openRequest st hdrs endStream priority = (st', none) ∧ st'.p.hpack = hpack ∧
      st'.p.failed = st.p.failed := by
  have hslots : (Proto.newStream { st.p with nextStreamId := st.p.nextStreamId + 2 }
      st.p.nextStreamId).isSome = true := (newStream_isSome ..).trans hslot
  obtain ⟨⟨p, slot⟩, hnew⟩ := Option.isSome_iff_exists.1 hslots
  obtain ⟨⟨streams, last, rfl⟩, -⟩ := newStream_spec hnew
  unfold openRequest
  dsimp only
  rw [St.setP_p, hnew]
  dsimp only
  have hout := @outHeaders_of_accepts σ ((st.setP { st.p with
      nextStreamId := st.p.nextStreamId + 2 }).setP (Proto.modifyStream { st.p with
        nextStreamId := st.p.nextStreamId + 2, streams, lastProcStreamId := last } slot
          fun s => { s with endStreamSent := endStream })) st.p.nextStreamId hdrs endStream priority
            haccepts
  have he' : Proto.encodeBlock (Proto.modifyStream { st.p with
        nextStreamId := st.p.nextStreamId + 2, streams, lastProcStreamId := last } slot
          fun s => { s with endStreamSent := endStream }) hdrs = (hpack, some blk) := he
  rw [St.setP_p, he'] at hout
  dsimp only at hout
  rw [show priorityPrefix (Proto.modifyStream { st.p with
        nextStreamId := st.p.nextStreamId + 2, streams, lastProcStreamId := last } slot
          fun s => { s with endStreamSent := endStream }) blk.data priority = none from hpre] at hout
  rw [hout]
  exact ⟨_, rfl, rfl, rfl⟩

/-! ## The exits that come too late -/

theorem untouched_after {st st₁ : St σ} {ok : Bool} (h : ensurePreface st = (st₁, ok)) {p' : Proto}
    (hout : p'.out = st₁.p.out) (hencoder : SameEncoder st₁.p.hpack p'.hpack)
    (hflags : SameFlags st₁.p p') : Untouched st.p p' := by
  have hgreets := ensurePreface_onlyGreets st
  obtain ⟨out, sent, done, hp, -⟩ := (ensurePreface_greeted st).engine
  rw [h] at hgreets hp
  have hsame : OnlyGreets st.p p' := by
    cases hgreets with
    | same h => exact .same (hout.trans h)
    | client hmode hnew h => exact .client hmode hnew (hout.trans h)
    | server hmode hnew h => exact .server hmode hnew (hout.trans h)
  rw [show st₁.p = _ from hp] at hencoder hflags
  exact ⟨hsame, hencoder, hflags⟩

/-- The priority of a request cannot be framed: a dependency that is no stream id, or no room for
it in front of the block. -/
def Proto.refusesPriority (p : Proto) (blk : Buffer) (dep : Int) : Prop :=
  p.config.headerBlockBytes < blk.size + priorityBytes ∨ dep < 0 ∨ 2 ^ 31 ≤ dep

/-- The submits that answer -1 after they changed the encoder or a flag: a request whose priority is
refused behind the encoder, a response or trailers whose flag is written in front of a refused
block, and trailers behind a body whose encoding breaks off. -/
def Spoils (p : Proto) : Call → Prop
  | .submitRequestEx hdrs body source weight dep exclusive =>
      (mayOpen p = true ∧ ¬ (body.isSome = true ∧ source.isSome = true) ∧ weight ≤ 256) ∧
        (p.nextStreamId ≤ 0x7ffffffe ∧ dep ≠ p.nextStreamId ∧ p.hasSlot = true) ∧
        (weight ≠ 0 ∨ 0 < dep ∨ exclusive = true) ∧
        ∃ q hpack blk, p.greeted = some q ∧ q.refusesBlock hdrs true = false ∧
          p.encodeBlock hdrs = (hpack, some blk) ∧ p.refusesPriority blk dep ∧
          ¬ SameEncoder p.hpack hpack
  | .submitResponseEx streamId hdrs body source =>
      p.mode = .server ∧ ¬ (body.isSome = true ∧ source.isSome = true) ∧
        ∃ slot q, p.findOpen streamId = some slot ∧ p.greeted = some q ∧
          q.refusesBlock hdrs false = true ∧
          (p.stream slot).endStreamSent ≠ (decide (bodyLen body = 0) && source.isNone)
  | .submitTrailers streamId hdrs =>
      p.mode = .server ∧ ∃ slot q, p.findOpen streamId = some slot ∧ p.greeted = some q ∧
        (p.stream slot).trailersPending = false ∧
        if (p.stream slot).bodyPending = true then
          p.config.headerBlockBytes ≠ 0 ∧ ∃ hpack, p.encodeBlock hdrs = (hpack, none) ∧
            ¬ SameEncoder p.hpack hpack
        else q.refusesBlock hdrs false = true ∧ (p.stream slot).endStreamSent = false
  | _ => False

theorem priorityPrefix_none {p : Proto} {blk : Buffer} {weight : ℕ} {dep : Int} {exclusive : Bool}
    (h0 : weight ≠ 0) (hmax : weight ≤ 256) :
    priorityPrefix p blk.data (some ⟨weight, dep, exclusive⟩) = none ↔ p.refusesPriority blk dep := by
  have hroom := Buffer.reserve_iff ⟨blk.data, p.config.headerBlockBytes⟩ priorityBytes
  unfold Proto.refusesPriority Buffer.size
  unfold priorityPrefix framePriorityEncode
  dsimp only at hroom ⊢
  by_cases hfits : (⟨blk.data, p.config.headerBlockBytes⟩ : Buffer).reserve priorityBytes = true
  · rw [if_pos hfits]
    rw [hfits, eq_self_iff_true, true_iff] at hroom
    unfold priorityBytes at hroom ⊢
    split_ifs with hbad
    · simp only [true_iff]
      omega
    · simp only [false_iff]
      omega
  · rw [if_neg hfits]
    rw [iff_false_left hfits] at hroom
    simp only [true_iff]
    unfold priorityBytes at hroom ⊢
    omega

theorem outHeaders_plain_false {st st' : St σ} {streamId : ℕ} {hdrs : List Header}
    {endStream : Bool} (h : outHeaders st streamId hdrs endStream none = (st', false))
    (hserving : st'.p.failed = false) : st.p.refusesBlock hdrs false = true ∧ st' = st := by
  rcases outHeaders_false h hserving with hrefused | ⟨-, hpack, blk, -, hpre, -⟩
  · exact hrefused
  · cases hpre

theorem ensurePreface_untouched {st st₁ : St σ} {ok : Bool} (h : ensurePreface st = (st₁, ok)) :
    Untouched st.p st₁.p :=
  untouched_after h rfl (.refl _) fun _ _ => Or.inl rfl

/-- The priority a request asks for; a weight of 0 stands for 16. -/
theorem requestPriority_cases {weight : ℕ} (hweight : weight ≤ 256) (dep : Int) (exclusive : Bool)
    {priority : Option Priority}
    (h : (if (decide (weight ≠ 0) || decide (0 < dep) || exclusive) = true then
      some ⟨if weight ≠ 0 then weight else 16, dep, exclusive⟩ else none) = priority) :
    (priority = none ∧ ¬ (weight ≠ 0 ∨ 0 < dep ∨ exclusive = true)) ∨
      ((weight ≠ 0 ∨ 0 < dep ∨ exclusive = true) ∧
        ∃ w, w ≠ 0 ∧ w ≤ 256 ∧ priority = some ⟨w, dep, exclusive⟩) := by
  have hasked : (decide (weight ≠ 0) || decide (0 < dep) || exclusive) = true ↔
      (weight ≠ 0 ∨ 0 < dep ∨ exclusive = true) := by
    rw [Bool.or_eq_true, Bool.or_eq_true, decide_eq_true_iff, decide_eq_true_iff, or_assoc]
  by_cases hask : weight ≠ 0 ∨ 0 < dep ∨ exclusive = true
  · rw [if_pos (hasked.2 hask)] at h
    refine Or.inr ⟨hask, _, ?_, ?_, h.symm⟩
    · split_ifs with hw
      · exact hw
      · decide
    · split_ifs
      · exact hweight
      · decide
  · rw [if_neg fun hyes => hask (hasked.1 hyes)] at h
    exact Or.inl ⟨h.symm, hask⟩

theorem encodeBlock_greeted {p q : Proto} (h : p.greeted = some q) (hdrs : List Header) :
    q.encodeBlock hdrs = p.encodeBlock hdrs := by
  obtain ⟨hhpack, hconfig, -⟩ := greeted_fields h
  unfold Proto.encodeBlock
  rw [hhpack, hconfig]

theorem refusesPriority_greeted {p q : Proto} (h : p.greeted = some q) (blk : Buffer) (dep : Int) :
    q.refusesPriority blk dep ↔ p.refusesPriority blk dep := by
  obtain ⟨-, hconfig, -⟩ := greeted_fields h
  unfold Proto.refusesPriority
  rw [hconfig]

theorem hasSlot_greeted {p q : Proto} (h : p.greeted = some q) : q.hasSlot = p.hasSlot := by
  obtain ⟨-, hconfig, hstreams, -⟩ := greeted_fields h
  unfold Proto.hasSlot
  rw [hconfig, hstreams]

theorem submitRequestEx_none {st st' : St σ} {hdrs : List Header} {body : Option Bytes}
    {source : Option ℕ} {weight : ℕ} {dep : Int} {exclusive : Bool}
    (h : submitRequestEx st hdrs body source weight dep exclusive = (st', none))
    (hserving : st'.p.failed = false) :
    Untouched st.p st'.p ∨ Spoils st.p (.submitRequestEx hdrs body source weight dep exclusive) := by
  unfold submitRequestEx at h
  by_cases hguard : ¬ mayOpen st.p = true ∨ body.isSome = true ∧ source.isSome = true ∨ 256 < weight
  · rw [if_pos hguard] at h
    cases h
    exact Or.inl (untouched_refl _)
  rw [if_neg hguard] at h
  dsimp only at h
  by_cases hid : 0x7ffffffe < st.p.nextStreamId ∨ dep = st.p.nextStreamId
  · rw [if_pos hid] at h
    cases h
    exact Or.inl (untouched_refl _)
  rw [if_neg hid] at h
  obtain ⟨hmay, hguard⟩ := not_or.1 hguard
  obtain ⟨hboth, hweight⟩ := not_or.1 hguard
  obtain ⟨hmax, hdep⟩ := not_or.1 hid
  generalize hpriority : (if (decide (weight ≠ 0) || decide (0 < dep) || exclusive) = true then
    some (⟨if weight ≠ 0 then weight else 16, dep, exclusive⟩ : Priority) else none) = priority at h
  split at h
  next st₁ hst₁ =>
    cases h
    exact Or.inl (ensurePreface_untouched hst₁)
  next st₁ hst₁ =>
    have hgreeted := greeted_of_ensurePreface hst₁
    split at h
    next st₂ hopen =>
      cases h
      obtain ⟨hout, hflags, hsame | ⟨hslot, haccepts, hpack, blk, he, hpre, hhpack⟩⟩ :=
        openRequest_none hopen hserving
      · exact Or.inl (untouched_after hst₁ hout (hsame ▸ .refl _) hflags)
      · by_cases hencoder : SameEncoder st.p.hpack hpack
        · have hhpack₁ := (greeted_fields hgreeted).1
          exact Or.inl (untouched_after hst₁ hout (by rw [hhpack, hhpack₁]; exact hencoder) hflags)
        · rcases requestPriority_cases (Nat.not_lt.1 hweight) dep exclusive hpriority with
            ⟨rfl, -⟩ | ⟨hask, w, h0, hmaxw, rfl⟩
          · cases hpre
          · rw [encodeBlock_greeted hgreeted] at he
            rw [priorityPrefix_none h0 hmaxw, refusesPriority_greeted hgreeted] at hpre
            rw [hasSlot_greeted hgreeted] at hslot
            exact Or.inr ⟨⟨not_not.1 hmay, hboth, Nat.not_lt.1 hweight⟩,
              ⟨Nat.not_lt.1 hmax, hdep, hslot⟩, hask, st₁.p, hpack, blk, hgreeted, haccepts, he, hpre,
              hencoder⟩
    · cases h

/-- A request that reaches the refused priority answers -1 on an engine that still serves. -/
theorem submitRequestEx_spoils {st : St σ} (hserving : st.p.failed = false) {hdrs : List Header}
    {body : Option Bytes} {source : Option ℕ} {weight : ℕ} {dep : Int} {exclusive : Bool}
    (h : Spoils st.p (.submitRequestEx hdrs body source weight dep exclusive)) :
    ∃ st', submitRequestEx st hdrs body source weight dep exclusive = (st', none) ∧
      st'.p.failed = false ∧ ¬ Untouched st.p st'.p := by
  obtain ⟨⟨hmay, hboth, hweight⟩, ⟨hmax, hdep, hslot⟩, hask, q, hpack, blk, hgreeted, haccepts, he,
    hrefuses, hencoder⟩ := h
  obtain ⟨st₁, hst₁, rfl⟩ := ensurePreface_of_greeted hgreeted
  unfold submitRequestEx
  rw [if_neg (by rintro (h | h | h); exacts [h hmay, hboth h, absurd h (Nat.not_lt.2 hweight)])]
  dsimp only
  rw [if_neg (by rintro (h | h); exacts [absurd h (Nat.not_lt.2 hmax), hdep h])]
  generalize hpriority : (if (decide (weight ≠ 0) || decide (0 < dep) || exclusive) = true then
    some (⟨if weight ≠ 0 then weight else 16, dep, exclusive⟩ : Priority) else none) = priority
  rw [hst₁]
  rcases requestPriority_cases hweight dep exclusive hpriority with ⟨-, hno⟩ | ⟨-, w, h0, hmaxw, rfl⟩
  · exact absurd hask hno
  · rw [← encodeBlock_greeted hgreeted] at he
    rw [← refusesPriority_greeted hgreeted, ← priorityPrefix_none h0 hmaxw] at hrefuses
    rw [← hasSlot_greeted hgreeted] at hslot
    obtain ⟨st', hopen, hhpack, hfailed⟩ := openRequest_late
      (source.isNone && decide (bodyLen body = 0)) hslot haccepts he hrefuses
    dsimp only
    rw [hopen]
    refine ⟨st', rfl, ?_, fun huntouched => hencoder ?_⟩
    · rw [hfailed, (greeted_fields hgreeted).2.2.2.2.1, hserving]
    · rw [← hhpack]
      exact huntouched.encoder

theorem submitRequestHeaders_none {st st' : St σ} {hdrs : List Header} {endStream : Bool}
    (h : submitRequestHeaders st hdrs endStream = (st', none)) (hserving : st'.p.failed = false) :
    Untouched st.p st'.p := by
  unfold submitRequestHeaders at h
  by_cases hguard : ¬ mayOpen st.p = true ∨ 0x7ffffffe < st.p.nextStreamId
  · rw [if_pos hguard] at h
    cases h
    exact untouched_refl _
  rw [if_neg hguard] at h
  split at h
  next st₁ hst₁ =>
    cases h
    exact ensurePreface_untouched hst₁
  next st₁ hst₁ =>
    dsimp only at h
    generalize hr : openRequest st₁ hdrs endStream none = r at h
    obtain ⟨st₂, opened⟩ := r
    rw [Prod.mk.injEq, Option.map_eq_none_iff] at h
    obtain ⟨rfl, rfl⟩ := h
    obtain ⟨hout, hflags, hsame | ⟨-, -, hpack, blk, -, hpre, -⟩⟩ := openRequest_none hr hserving
    · exact untouched_after hst₁ hout (hsame ▸ .refl _) hflags
    · cases hpre

/-! ## Responses and trailers -/

theorem submitHeaders_false {host : Host σ} {st st' : St σ} {streamId : ℕ} {hdrs : List Header}
    {endStream : Bool} (h : submitHeaders host st streamId hdrs endStream = (st', false))
    (hserving : st'.p.failed = false) : Untouched st.p st'.p := by
  unfold submitHeaders at h
  by_cases hmode : st.p.mode ≠ .server
  · rw [if_pos hmode] at h
    cases h
    exact untouched_refl _
  rw [if_neg hmode] at h
  split at h
  · cases h
    exact untouched_refl _
  next slot hslot =>
  split at h
  next st₁ hst₁ =>
    cases h
    exact ensurePreface_untouched hst₁
  next st₁ hst₁ =>
  split at h
  next st₂ hout =>
    cases h
    obtain ⟨-, rfl⟩ := outHeaders_plain_false hout hserving
    exact ensurePreface_untouched hst₁
  · split_ifs at h
    all_goals cases h

/-- Only a flag was written, in the slot of an open stream: it shows exactly when it was another. -/
theorem untouched_flag_iff {st st₁ : St σ} (h : ensurePreface st = (st₁, true)) {streamId slot : ℕ}
    (hslot : st.p.findOpen streamId = some slot) {f : Stream → Stream} {flag : Bool}
    (hf : ∀ s, (f s).endStreamSent = flag) :
    Untouched st.p (st₁.p.modifyStream slot f) ↔ (st.p.stream slot).endStreamSent = flag := by
  obtain ⟨hlt, -, hopen⟩ := findOpen_spec hslot
  obtain ⟨-, -, hstreams, -⟩ := greeted_fields (greeted_of_ensurePreface h)
  have hlt₁ : slot < st₁.p.streams.length := by rw [hstreams]; exact hlt
  constructor
  · intro huntouched
    rcases huntouched.flags slot hlt with hsame | ⟨hclosed, -⟩
    · rw [← hsame, stream_modifyStream hlt₁]
      exact hf _
    · rw [hopen] at hclosed
      cases hclosed
  · intro hflag
    refine untouched_after h rfl (.refl _) fun i _ => ?_
    left
    by_cases hi : i = slot
    · subst hi
      rw [stream_modifyStream hlt₁, hf, ← hflag]
      unfold Proto.stream
      rw [hstreams]
    · rw [stream_modifyStream_ne hi]

theorem submitResponseEx_false {host : Host σ} {st st' : St σ} {streamId : ℕ} {hdrs : List Header}
    {body : Option Bytes} {source : Option ℕ}
    (h : submitResponseEx host st streamId hdrs body source = (st', false))
    (hserving : st'.p.failed = false) :
    Untouched st.p st'.p ∨ Spoils st.p (.submitResponseEx streamId hdrs body source) := by
  unfold submitResponseEx at h
  by_cases hguard : st.p.mode ≠ .server ∨ body.isSome = true ∧ source.isSome = true
  · rw [if_pos hguard] at h
    cases h
    exact Or.inl (untouched_refl _)
  rw [if_neg hguard] at h
  obtain ⟨hmode, hboth⟩ := not_or.1 hguard
  split at h
  · cases h
    exact Or.inl (untouched_refl _)
  next slot hslot =>
  split at h
  next st₁ hst₁ =>
    cases h
    exact Or.inl (ensurePreface_untouched hst₁)
  next st₁ hst₁ =>
  dsimp only at h
  split at h
  next st₂ hout =>
    cases h
    obtain ⟨hrefuses, rfl⟩ := outHeaders_plain_false hout hserving
    by_cases hflag : (st.p.stream slot).endStreamSent =
        (decide (bodyLen body = 0) && source.isNone)
    · left
      apply (untouched_flag_iff hst₁ hslot _).2 hflag
      exact fun _ => rfl
    · exact Or.inr ⟨not_not.1 hmode, hboth, slot, st₁.p, hslot, greeted_of_ensurePreface hst₁,
        hrefuses, hflag⟩
  · split_ifs at h
    all_goals cases h

theorem submitResponseEx_spoils (host : Host σ) {st : St σ} (hserving : st.p.failed = false)
    {streamId : ℕ} {hdrs : List Header} {body : Option Bytes} {source : Option ℕ}
    (h : Spoils st.p (.submitResponseEx streamId hdrs body source)) :
    ∃ st', submitResponseEx host st streamId hdrs body source = (st', false) ∧
      st'.p.failed = false ∧ ¬ Untouched st.p st'.p := by
  obtain ⟨hmode, hboth, slot, q, hslot, hgreeted, hrefuses, hflag⟩ := h
  obtain ⟨st₁, hst₁, rfl⟩ := ensurePreface_of_greeted hgreeted
  unfold submitResponseEx
  rw [if_neg (by rintro (h | h); exacts [h hmode, hboth h]), hslot]
  dsimp only
  rw [hst₁]
  dsimp only
  rw [@outHeaders_of_refuses σ (st₁.setP (st₁.p.modifyStream slot fun s =>
    { s with endStreamSent := decide (bodyLen body = 0) && source.isNone })) streamId hdrs _ none
      hrefuses]
  refine ⟨_, rfl, ?_, fun huntouched => hflag ?_⟩
  · exact (greeted_fields hgreeted).2.2.2.2.1.trans hserving
  · apply (untouched_flag_iff hst₁ hslot _).1 huntouched
    exact fun _ => rfl

theorem trailersBuffer_eq {p : Proto} {blk : Buffer}
    (h : Buffer.init (min p.config.headerBlockBytes 64) p.config.headerBlockBytes = some blk) :
    p.config.headerBlockBytes ≠ 0 ∧ blk = ⟨[], p.config.headerBlockBytes⟩ := by
  unfold Buffer.init at h
  split_ifs at h with hbad
  exact ⟨(not_or.1 hbad).1, (Option.some.inj h).symm⟩

theorem submitTrailers_false {host : Host σ} {st st' : St σ} {streamId : ℕ} {hdrs : List Header}
    (h : submitTrailers host st streamId hdrs = (st', false)) (hserving : st'.p.failed = false) :
    Untouched st.p st'.p ∨ Spoils st.p (.submitTrailers streamId hdrs) := by
  unfold submitTrailers at h
  by_cases hmode : st.p.mode ≠ .server
  · rw [if_pos hmode] at h
    cases h
    exact Or.inl (untouched_refl _)
  rw [if_neg hmode] at h
  split at h
  · cases h
    exact Or.inl (untouched_refl _)
  next slot hslot =>
  split at h
  next st₁ hst₁ =>
    cases h
    exact Or.inl (ensurePreface_untouched hst₁)
  next st₁ hst₁ =>
  have hgreeted := greeted_of_ensurePreface hst₁
  have hstream : st₁.p.stream slot = st.p.stream slot := by
    have hsame := (ensurePreface_greeted st).stream slot
    rw [hst₁] at hsame
    exact hsame
  dsimp only at h
  rw [hstream] at h
  by_cases hpending : (st.p.stream slot).trailersPending = true
  · rw [if_pos hpending] at h
    cases h
    exact Or.inl (ensurePreface_untouched hst₁)
  rw [if_neg hpending] at h
  by_cases hbody : (st.p.stream slot).bodyPending = true
  · rw [if_pos hbody] at h
    split at h
    · cases h
      exact Or.inl (ensurePreface_untouched hst₁)
    next blk hblk =>
    obtain ⟨hbytes, rfl⟩ := trailersBuffer_eq hblk
    split at h
    next hpack he =>
      cases h
      have he : st₁.p.encodeBlock hdrs = (hpack, none) := he
      rw [encodeBlock_greeted hgreeted] at he
      rw [(greeted_fields hgreeted).2.1] at hbytes
      by_cases hencoder : SameEncoder st.p.hpack hpack
      · have hhpack₁ := (greeted_fields hgreeted).1
        exact Or.inl (untouched_after hst₁ rfl (by rw [hhpack₁]; exact hencoder)
          (sameFlags_of_streams rfl))
      · refine Or.inr ⟨not_not.1 hmode, slot, st₁.p, hslot, hgreeted,
          Bool.eq_false_of_not_eq_true hpending, ?_⟩
        rw [if_pos hbody]
        exact ⟨hbytes, hpack, he, hencoder⟩
    · cases h
  · rw [if_neg hbody] at h
    split at h
    next st₂ hout =>
      cases h
      obtain ⟨hrefuses, rfl⟩ := outHeaders_plain_false hout hserving
      cases hflag : (st.p.stream slot).endStreamSent with
      | true =>
        left
        apply (untouched_flag_iff hst₁ hslot _).2 hflag
        exact fun _ => rfl
      | false =>
        refine Or.inr ⟨not_not.1 hmode, slot, st₁.p, hslot, hgreeted,
          Bool.eq_false_of_not_eq_true hpending, ?_⟩
        rw [if_neg hbody]
        exact ⟨hrefuses, hflag⟩
    · cases h

theorem submitTrailers_spoils (host : Host σ) {st : St σ} (hserving : st.p.failed = false)
    {streamId : ℕ} {hdrs : List Header} (h : Spoils st.p (.submitTrailers streamId hdrs)) :
    ∃ st', submitTrailers host st streamId hdrs = (st', false) ∧
      st'.p.failed = false ∧ ¬ Untouched st.p st'.p := by
  obtain ⟨hmode, slot, q, hslot, hgreeted, hpending, hlate⟩ := h
  obtain ⟨st₁, hst₁, rfl⟩ := ensurePreface_of_greeted hgreeted
  have hstream : st₁.p.stream slot = st.p.stream slot := by
    have hsame := (ensurePreface_greeted st).stream slot
    rw [hst₁] at hsame
    exact hsame
  have hfailed : st₁.p.failed = false := (greeted_fields hgreeted).2.2.2.2.1.trans hserving
  unfold submitTrailers
  rw [if_neg (not_not.2 hmode), hslot]
  dsimp only
  rw [hst₁]
  dsimp only
  rw [hstream, hpending, if_neg Bool.false_ne_true]
  by_cases hbody : (st.p.stream slot).bodyPending = true
  · rw [if_pos hbody] at hlate ⊢
    obtain ⟨hbytes, hpack, he, hencoder⟩ := hlate
    rw [← encodeBlock_greeted hgreeted] at he
    have hbytes₁ : st₁.p.config.headerBlockBytes ≠ 0 := by
      rw [(greeted_fields hgreeted).2.1]
      exact hbytes
    have hinit : Buffer.init (min st₁.p.config.headerBlockBytes 64) st₁.p.config.headerBlockBytes =
        some ⟨[], st₁.p.config.headerBlockBytes⟩ := by
      unfold Buffer.init
      rw [if_neg]
      omega
    rw [hinit]
    dsimp only
    rw [show hpackEncode st₁.p.hpack ⟨[], st₁.p.config.headerBlockBytes⟩ hdrs = (hpack, none) from he]
    exact ⟨_, rfl, hfailed, fun huntouched => hencoder huntouched.encoder⟩
  · rw [if_neg hbody] at hlate ⊢
    obtain ⟨hrefuses, hflag⟩ := hlate
    rw [@outHeaders_of_refuses σ (st₁.setP (st₁.p.modifyStream slot fun s =>
      { s with endStreamSent := true, bodyEof := false })) streamId hdrs true none hrefuses]
    refine ⟨_, rfl, hfailed, fun huntouched => ?_⟩
    have hsame : (st.p.stream slot).endStreamSent = true := by
      apply (untouched_flag_iff hst₁ hslot _).1 huntouched
      exact fun _ => rfl
    rw [hflag] at hsame
    cases hsame

/-! ## Every submit call -/

def Call.SubmitsHeaders : Call → Prop
  | .submitRequestEx .. | .submitRequestHeaders .. | .submitHeaders .. | .submitResponseEx ..
  | .submitTrailers .. => True
  | _ => False

/-- The call leaves no trace when it answers -1 and the engine still serves. -/
def FailsCleanly (host : Host σ) (st : St σ) (c : Call) : Prop :=
  ∀ st', call host st c = (st', none) → st'.p.failed = false → Untouched st.p st'.p

theorem answer_none {r : St σ × Bool} {st' : St σ} (h : callBody.answer r = (st', none)) :
    r = (st', false) := by
  obtain ⟨st, ok⟩ := r
  cases ok with
  | true => cases h
  | false =>
    cases h
    rfl

end Chttp.H2
