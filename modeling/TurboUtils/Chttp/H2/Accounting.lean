import TurboUtils.Chttp.H2.RunSimulation
import TurboUtils.Lib.History

/-! What the moves of an engine do to its flow-control windows, and the sums over the record
that the windows are compared with. -/
namespace Chttp.H2

open Relation (ReflTransGen)
open History (Along total)

/-! ## Weights of the record -/

/-- The increment of an accepted WINDOW_UPDATE for a stream, or for the connection as 0. -/
def Item.increment (streamId : ℕ) : Item → ℕ
  | .windowIn id inc true => if id = streamId then inc else 0
  | _ => 0

def Item.dataSent : Item → ℕ
  | .out f => if f.type = .data then f.payload.length else 0
  | _ => 0

def Item.dataSentOn (streamId : ℕ) : Item → ℕ
  | .out f => if f.type = .data ∧ f.streamId = streamId then f.payload.length else 0
  | _ => 0

def Item.credited (streamId : ℕ) : Item → ℕ
  | .out f => if f.type = .windowUpdate ∧ f.streamId = streamId then readU32 f.payload else 0
  | _ => 0

def Item.dataTaken : Item → ℕ
  | .dataIn _ length true _ => length
  | _ => 0

def Item.dataTakenOn (streamId : ℕ) : Item → ℕ
  | .dataIn id length _ true => if id = streamId then length else 0
  | _ => 0

def Item.Neutral : Item → Prop
  | .out f => f.type ≠ .windowUpdate ∧ (f.type = .data → f.payload = [])
  | .dataIn _ _ conn stream => conn = false ∧ stream = false
  | .windowIn _ _ accepted => accepted = false
  | .settingsIn _ => False
  | _ => True

theorem Item.Neutral.weightless {i : Item} (h : i.Neutral) (id : ℕ) :
    i.increment id = 0 ∧ i.dataSent = 0 ∧ i.dataSentOn id = 0 ∧ i.credited id = 0 ∧
      i.dataTaken = 0 ∧ i.dataTakenOn id = 0 := by
  cases i with
  | out f =>
    obtain ⟨hw, hd⟩ := h
    by_cases ht : f.type = .data
    · simp [increment, dataSent, dataSentOn, credited, dataTaken, dataTakenOn, hd ht, ht]
    · simp [increment, dataSent, dataSentOn, credited, dataTaken, dataTakenOn, ht, hw]
  | dataIn id length conn stream =>
    obtain ⟨rfl, rfl⟩ := h
    exact ⟨rfl, rfl, rfl, rfl, rfl, rfl⟩
  | windowIn id inc accepted =>
    obtain rfl : accepted = false := h
    exact ⟨rfl, rfl, rfl, rfl, rfl, rfl⟩
  | _ => exact ⟨rfl, rfl, rfl, rfl, rfl, rfl⟩

/-! ## Moves that leave the windows alone -/

/-- The windows of the streams that were open stay; a new stream starts with the initial
windows. -/
structure View.Calm (v v' : View) : Prop where
  send : v'.connSendWindow = v.connSendWindow
  recv : v'.connRecvWindow = v.connRecvWindow
  peer : v'.peerSettings.initialWindowSize = v.peerSettings.initialWindowSize
  own : v'.localSettings.initialWindowSize = v.localSettings.initialWindowSize
  known : ∀ i, v.Known i → v'.Known i
  streams : ∀ s' ∈ v'.streams, s'.closed = false →
    (∃ s ∈ v.streams, s.closed = false ∧ s'.id = s.id ∧ s'.sendWindow = s.sendWindow ∧
      s'.recvWindow = s.recvWindow) ∨
    (¬ v.Known s'.id ∧ v'.Known s'.id ∧ s'.sendWindow = v.peerSettings.initialWindowSize ∧
      s'.recvWindow = v.localSettings.initialWindowSize)

/-- The send side alone. -/
structure View.SendCalm (v v' : View) : Prop where
  conn : v'.connSendWindow = v.connSendWindow
  peer : v'.peerSettings.initialWindowSize = v.peerSettings.initialWindowSize
  known : ∀ i, v.Known i → v'.Known i
  streams : ∀ s' ∈ v'.streams, s'.closed = false →
    (∃ s ∈ v.streams, s.closed = false ∧ s'.id = s.id ∧ s'.sendWindow = s.sendWindow) ∨
    (¬ v.Known s'.id ∧ s'.sendWindow = v.peerSettings.initialWindowSize)

/-- The receive side alone. -/
structure View.RecvCalm (v v' : View) : Prop where
  conn : v'.connRecvWindow = v.connRecvWindow
  own : v'.localSettings.initialWindowSize = v.localSettings.initialWindowSize
  known : ∀ i, v.Known i → v'.Known i
  streams : ∀ s' ∈ v'.streams, s'.closed = false →
    (∃ s ∈ v.streams, s.closed = false ∧ s'.id = s.id ∧ s'.recvWindow = s.recvWindow) ∨
    (¬ v.Known s'.id ∧ s'.recvWindow = v.localSettings.initialWindowSize)

theorem View.Calm.sendCalm {v v' : View} (h : v.Calm v') : v.SendCalm v' := by
  refine ⟨h.send, h.peer, h.known, fun x hx hopen => ?_⟩
  rcases h.streams x hx hopen with ⟨s, hs, hc, hid, hsend, -⟩ | ⟨hnew, -, hsend, -⟩
  · exact .inl ⟨s, hs, hc, hid, hsend⟩
  · exact .inr ⟨hnew, hsend⟩

inductive Quiet : Trace → Trace → Prop
  | view {t : Trace} {v : View} (h : t.view.Calm v) : Quiet t (t.setView v)
  | entry {t : Trace} {i : Item} {v : View} (hi : i.Neutral) (h : t.view.Calm v) :
      Quiet t ((t.record i).setView v)

abbrev Quiets : Trace → Trace → Prop := ReflTransGen Quiet

structure SendsData (t : Trace) (s s' : StreamView) (f : Frame) : Prop where
  mem : s ∈ t.view.streams
  isOpen : s.closed = false
  type : f.type = .data
  id : f.streamId = s.id
  pos : 0 < f.payload.length
  conn : (f.payload.length : Int) ≤ t.view.connSendWindow
  stream : (f.payload.length : Int) ≤ s.sendWindow
  sameId : s'.id = s.id
  recv : s'.recvWindow = s.recvWindow
  send : s'.sendWindow = int32 (s.sendWindow - f.payload.length)

inductive Effect : Trace → Trace → Prop
  | quiet {t t' : Trace} (h : Quiets t t') : Effect t t'
  | data {t : Trace} {s s' : StreamView} {f : Frame} (h : SendsData t s s' f) :
      Effect t (t.sendData f s')
  | credit {t : Trace} {i inc : ℕ} {v : View} (h : t.view.Credit i inc v) (hmax : inc ≤ 0x7fffffff) :
      Effect t ((t.setView v).pushFrame ⟨.windowUpdate, 0, i, u32Bytes inc⟩)
  | creditLost {t : Trace} {i inc : ℕ} {v q : View} (h : t.view.Credit i inc v)
      (h0 : inc ≠ 0) (hmax : inc ≤ 0x7fffffff) (hq : (.creditStart i inc, q) ∈ t.log)
      (hroom : ¬ q.RoomFor (frameHeaderSize + 4)) : Effect t (t.setView v)
  | configure {t : Trace} (localSettings : Settings) (hnone : t.view.streams = []) :
      Effect t (t.setView { t.view with localSettings })
  | settings {t : Trace} {p p' : Proto} {values : List (ℕ × ℕ)} {error : ℕ} (v : View)
      (hp : p.view = t.view) (happly : applyPeerSettings p values = (p', error))
      (hv : p'.view.Calm v) : Effect t ((t.record (.settingsIn values)).setView v)
  | windowConn {t : Trace} {inc : ℕ} (h : t.view.connSendWindow ≤ maxWindow - inc) :
      Effect t ((t.record (.windowIn 0 inc true)).setView
        { t.view with connSendWindow := int32 (t.view.connSendWindow + inc) })
  | windowStream {t : Trace} {inc : ℕ} {s : StreamView} (hs : s ∈ t.view.streams)
      (hopen : s.closed = false) (h : s.sendWindow ≤ maxWindow - inc) :
      Effect t ((t.record (.windowIn s.id inc true)).setView
        (t.view.put { s with sendWindow := int32 (s.sendWindow + inc) }))
  | dataConn {t : Trace} (id length : ℕ) (v : View) (h : (length : Int) ≤ t.view.connRecvWindow)
      (hv : { t.view with connRecvWindow := int32 (t.view.connRecvWindow - length) }.Calm v) :
      Effect t ((t.record (.dataIn id length true false)).setView v)
  | dataStream {t : Trace} {length : ℕ} {s : StreamView}
      (h : (length : Int) ≤ t.view.connRecvWindow) (hs : s ∈ t.view.streams)
      (hopen : s.closed = false) (hw : (length : Int) ≤ s.recvWindow) :
      Effect t ((t.record (.dataIn s.id length true true)).setView
        ({ t.view with connRecvWindow := int32 (t.view.connRecvWindow - length) }.put
          { s with recvWindow := int32 (s.recvWindow - length) }))

namespace View.Calm

theorem same {v v' : View} (hsend : v'.connSendWindow = v.connSendWindow)
    (hrecv : v'.connRecvWindow = v.connRecvWindow)
    (hpeer : v'.peerSettings.initialWindowSize = v.peerSettings.initialWindowSize)
    (hown : v'.localSettings.initialWindowSize = v.localSettings.initialWindowSize)
    (hknown : ∀ i, v.Known i → v'.Known i) (hs : v'.streams = v.streams) : v.Calm v' := by
  refine ⟨hsend, hrecv, hpeer, hown, hknown, ?_⟩
  intro s hmem hopen
  rw [hs] at hmem
  exact .inl ⟨s, hmem, hopen, rfl, rfl, rfl⟩

theorem out (v : View) (out : Buffer) : v.Calm { v with out } :=
  same rfl rfl rfl rfl (fun _ h => h) rfl

theorem put {v : View} {s s' : StreamView} (hs : s ∈ v.streams) (hid : s'.id = s.id)
    (hw : s'.closed = false → s.closed = false ∧ s'.sendWindow = s.sendWindow ∧
      s'.recvWindow = s.recvWindow) : v.Calm (v.put s') := by
  refine ⟨rfl, rfl, rfl, rfl, fun _ h => h, ?_⟩
  intro x hx hopen
  rcases View.mem_put.mp hx with ⟨rfl, -⟩ | ⟨hx, -⟩
  · obtain ⟨hc, hsend, hrecv⟩ := hw hopen
    exact .inl ⟨s, hs, hc, hid, hsend, hrecv⟩
  · exact .inl ⟨x, hx, hopen, rfl, rfl, rfl⟩

theorem trans {v v' v'' : View} (h : v.Calm v') (h' : v'.Calm v'') : v.Calm v'' := by
  refine ⟨h'.send.trans h.send, h'.recv.trans h.recv, h'.peer.trans h.peer, h'.own.trans h.own,
    fun i hi => h'.known i (h.known i hi), ?_⟩
  intro x hx hopen
  rcases h'.streams x hx hopen with ⟨y, hy, hc, hid, hsend, hrecv⟩ | ⟨hnew, hknown, hsend, hrecv⟩
  · rcases h.streams y hy hc with ⟨z, hz, hzc, hzid, hzsend, hzrecv⟩ | ⟨hynew, hyk, hysend, hyrecv⟩
    · exact .inl ⟨z, hz, hzc, hid.trans hzid, hsend.trans hzsend, hrecv.trans hzrecv⟩
    · rw [hid]
      exact .inr ⟨hynew, h'.known _ hyk, hsend.trans hysend, hrecv.trans hyrecv⟩
  · exact .inr ⟨fun hk => hnew (h.known _ hk), hknown, by rw [hsend, h.peer],
      by rw [hrecv, h.own]⟩

end View.Calm

theorem int32_of_range {x : Int} (hmin : -(2 ^ 31) ≤ x) (hmax : x ≤ maxWindow) : int32 x = x := by
  unfold maxWindow at hmax
  unfold int32
  apply Int.bmod_eq_of_le <;> omega

theorem int32_initial {n : ℕ} (h : n ≤ 0x7fffffff) : int32 n = n := by
  apply int32_of_range
  · omega
  · unfold maxWindow
    omega

theorem View.Calm.opens {v v' : View} (hs : v.Sane) {id : ℕ} {endStream : Bool}
    (ho : v.Opens (v.fresh id endStream) v'.streams) (hsend : v'.connSendWindow = v.connSendWindow)
    (hrecv : v'.connRecvWindow = v.connRecvWindow) (hpeer : v'.peerSettings = v.peerSettings)
    (hown : v'.localSettings = v.localSettings) (hknown : ∀ i, v.Known i → v'.Known i)
    (hnew : ¬ v.Known id) (hk : v'.Known id) : v.Calm v' := by
  refine ⟨hsend, hrecv, by rw [hpeer], by rw [hown], hknown, ?_⟩
  intro x hx hopen
  rcases ho.mem hx with rfl | hx
  · refine .inr ⟨hnew, hk, ?_, ?_⟩
    · rw [View.fresh, int32_initial hs.peerInitial]
    · rw [View.fresh, int32_initial hs.localInitial]
  · exact .inl ⟨x, hx, hopen, rfl, rfl, rfl⟩

theorem View.known_next {v : View} (hmode : v.mode = .client) (hpack : Hpack.Context)
    (streams : List StreamView) : ¬ v.Known v.nextStreamId ∧
    (∀ i, v.Known i → { v with
      streams := streams, nextStreamId := v.nextStreamId + 2, hpack := hpack }.Known i) ∧
    { v with streams := streams, nextStreamId := v.nextStreamId + 2, hpack := hpack }.Known
      v.nextStreamId := by
  simp only [View.Known, hmode]
  exact ⟨by omega, by omega, by omega⟩

theorem put_quiet {t : Trace} {s s' : StreamView} (hs : s ∈ t.view.streams) (hid : s'.id = s.id)
    (hw : s'.closed = false → s.closed = false ∧ s'.sendWindow = s.sendWindow ∧
      s'.recvWindow = s.recvWindow) : Quiet t (t.put s') := .view (.put hs hid hw)

theorem pushFrame_quiet {t : Trace} {f : Frame} (h : Item.Neutral (.out f)) :
    Quiet t (t.pushFrame f) := .entry h (.out _ _)

theorem pushAll_quiets {t : Trace} {fs : List Frame} (h : ∀ f ∈ fs, Item.Neutral (.out f)) :
    Quiets t (t.pushAll fs) := by
  induction fs generalizing t with
  | nil => exact .refl
  | cons f fs ih =>
    apply ReflTransGen.head (pushFrame_quiet (h f List.mem_cons_self))
    exact ih fun g hg => h g (List.mem_cons_of_mem _ hg)

theorem sendSettings_quiet {t : Trace} (p : Proto) : Quiet t (t.sendSettings p) :=
  .entry (by simp [Item.Neutral]) (.same rfl rfl rfl rfl (fun _ h => h) rfl)

theorem blockFrames_neutral {streamId limit : ℕ} {endStream hasPriority first : Bool} {fuel : ℕ}
    {rest : Bytes} : ∀ f ∈ blockFrames streamId limit endStream hasPriority fuel first rest,
      Item.Neutral (.out f) := by
  induction fuel generalizing first rest with
  | zero => simp [blockFrames]
  | succ fuel ih =>
    have hfirst : Item.Neutral
        (.out (blockFrame streamId limit endStream hasPriority first rest)) := by
      cases first <;> simp [Item.Neutral, blockFrame]
    intro f hf
    unfold blockFrames at hf
    rcases List.mem_cons.mp hf with rfl | hf
    · exact hfirst
    · split_ifs at hf
      · exact absurd hf List.not_mem_nil
      · exact ih f hf

theorem isControl_neutral {f : Frame} (h : IsControl f) : Item.Neutral (.out f) := by
  cases h <;> simp [Item.Neutral]

/-! ## The effect of each move -/

theorem Step.effect {t t' : Trace} (h : Step t t') (hs : t.view.Sane) : Effect t t' := by
  cases h with
  | @note i hi =>
    have hneutral : i.Neutral := by
      cases i <;> trivial
    exact .quiet (.single (.entry hneutral (.out _ t.view.out)))
  | recode hpack => exact .quiet (.single (.view (.same rfl rfl rfl rfl (fun _ h => h) rfl)))
  | configure l hsent hw =>
    apply Effect.configure l
    by_contra hne
    rw [hs.opened hne] at hsent
    exact absurd hsent (by decide)
  | connect enable => exact .quiet (.single (.view (.same rfl rfl rfl rfl (fun _ h => h) rfl)))
  | fail he => exact .quiet (.single (.view (.same rfl rfl rfl rfl (fun _ h => h) rfl)))
  | pause b h => exact .quiet (.single (.view (.same rfl rfl rfl rfl (fun _ h => h) rfl)))
  | settings hp => exact .quiet (.single (sendSettings_quiet _))
  | @greet p t₁ hmode hnew ht hp =>
    subst ht
    have hpre : Quiet t (t.push .preface preface) := .entry trivial (.out _ _)
    have hview : Quiet (t.push .preface preface) ((t.push .preface preface).setView p.view) := by
      rw [hp]
      exact .view (.same rfl rfl rfl rfl (fun _ h => h) rfl)
    exact .quiet (.head hpre (.head hview (.single (sendSettings_quiet _))))
  | control hf => exact .quiet (.single (pushFrame_quiet (isControl_neutral hf)))
  | credit hc h0 hmax hi => exact .credit hc hmax
  | creditLost hc h0 hmax hq hroom => exact .creditLost hc h0 hmax hq hroom
  | skipId =>
    have hknown : ∀ i, t.view.Known i →
        { t.view with nextStreamId := t.view.nextStreamId + 2 }.Known i := by
      intro i hi
      cases hm : t.view.mode <;> simp only [View.Known, hm] at hi ⊢ <;> omega
    exact .quiet (.single (.view (.same rfl rfl rfl rfl hknown rfl)))
  | @openLocal streams es hmode hsent hid ho =>
    obtain ⟨hnew, hknown, hk⟩ := View.known_next hmode t.view.hpack streams
    exact .quiet (.single (.view (.opens hs ho rfl rfl rfl rfl hknown hnew hk)))
  | @request streams es pri body source hpack block s hmode hsent hid hfresh ho =>
    obtain ⟨hnew, hknown, hk⟩ := View.known_next hmode hpack streams
    have hcalm : t.view.Calm { t.view with
        streams, nextStreamId := t.view.nextStreamId + 2, hpack } :=
      .opens hs (hfresh ▸ ho) rfl rfl rfl rfl hknown hnew hk
    have hopen : s.closed = false := by rw [hfresh]; rfl
    apply Effect.quiet
    apply ReflTransGen.head (Quiet.view hcalm)
    apply ReflTransGen.tail (pushAll_quiets blockFrames_neutral)
    apply Quiet.view
    apply View.Calm.put (s := s)
    · rw [pushAll_streams]
      exact ho.self_mem
    · rfl
    · exact fun _ => ⟨hopen, rfl, rfl⟩
  | close hmem hid hc =>
    exact .quiet (.single (.view (.put hmem hid (by simp [hc]))))
  | @answer c s s₁ s₂ es hpack block hc hmem hopen hb =>
    obtain ⟨⟨e, rfl⟩, e', body, source, rfl⟩ := hb.spec
    apply Effect.quiet
    have hput : t.view.Calm (t.view.put { s with endStreamSent := e }) :=
      .put hmem rfl (fun _ => ⟨hopen, rfl, rfl⟩)
    have hcalm : t.view.Calm { t.view.put { s with endStreamSent := e } with hpack } :=
      hput.trans (.same rfl rfl rfl rfl (fun _ h => h) rfl)
    apply ReflTransGen.head (Quiet.view hcalm)
    apply ReflTransGen.tail (pushAll_quiets blockFrames_neutral)
    apply Quiet.view
    apply View.Calm.put (s := { s with endStreamSent := e })
    · rw [pushAll_streams]
      exact View.put_self_mem hmem rfl
    · rfl
    · exact fun _ => ⟨hopen, rfl, rfl⟩
  | assign hc hmem hopen hb =>
    obtain ⟨⟨e, rfl⟩, -⟩ := hb.spec
    exact .quiet (.single (.view (.put hmem rfl (fun _ => ⟨hopen, rfl, rfl⟩))))
  | attach hmem hopen hend hb hsrc =>
    exact .quiet (.single (.view (.put hmem rfl (fun _ => ⟨hopen, rfl, rfl⟩))))
  | @deferTrailers s hdrs blk hpack hc hmem hopen hp hb he =>
    have hcode : t.view.Calm { t.view with hpack } := .same rfl rfl rfl rfl (fun _ h => h) rfl
    exact .quiet (.single (.view (hcode.trans (.put hmem rfl (fun _ => ⟨hopen, rfl, rfl⟩)))))
  | @data s payload hasBody bodyPending hmem hopen hfed h0 hmax hconn hwin hb hbp =>
    exact .data ⟨hmem, hopen, rfl, rfl, h0, hconn, hwin, rfl, rfl, rfl⟩
  | dataEnd hmem hopen hb hsrc h0 hmax hconn hwin =>
    exact .data ⟨hmem, hopen, rfl, rfl, h0, hconn, hwin, rfl, rfl, rfl⟩
  | endBody hmem hopen hb hsrc =>
    exact .quiet (.head (pushFrame_quiet (by simp [Item.Neutral]))
      (.single (put_quiet hmem (by rfl) fun _ => ⟨hopen, by rfl, by rfl⟩)))
  | endSource hmem hopen hsrc =>
    exact .quiet (.head (put_quiet hmem (by rfl) fun _ => ⟨hopen, by rfl, by rfl⟩)
      (.head (pushFrame_quiet (by simp [Item.Neutral]))
        (.single (put_quiet (by exact View.put_self_mem hmem (by rfl)) (by rfl)
          fun _ => ⟨by exact hopen, by rfl, by rfl⟩))))
  | dropSource hmem =>
    exact .quiet (.single (.view (.put hmem rfl (fun hc => ⟨hc, rfl, rfl⟩))))
  | dropTrailers hmem =>
    exact .quiet (.single (.view (.put hmem rfl (fun hc => ⟨hc, rfl, rfl⟩))))
  | trailersOut hmem hopen hb hsrc hp hlen =>
    exact .quiet (.head (put_quiet hmem (by rfl) fun _ => ⟨hopen, by rfl, by rfl⟩)
      (.head (pushFrame_quiet (by simp [Item.Neutral]))
        (.single (put_quiet (by exact View.put_self_mem hmem (by rfl)) (by rfl)
          fun _ => ⟨by exact hopen, by rfl, by rfl⟩))))

theorem Take.effect {hdr : FrameHeader} {payload : Bytes} {t t' : Trace}
    (h : Take hdr payload t t') (hs : t.view.Sane) : Effect t t' := by
  cases h with
  | skip _ => exact .quiet .refl
  | refuse he => exact .quiet (.single (.view (.same rfl rfl rfl rfl (fun _ h => h) rfl)))
  | @settings p p' values error hp htype hparse happly =>
    apply Effect.settings _ hp happly
    split_ifs
    · exact .same rfl rfl rfl rfl (fun _ h => h) rfl
    · exact .same rfl rfl rfl rfl (fun _ h => h) rfl
  | windowConn htype hpay h0 hid h => exact .windowConn h
  | windowStream htype hpay h0 hmem hid hopen h => exact .windowStream hmem hopen h
  | windowIgnored htype hpay => exact .quiet (.single (.entry rfl (.out _ t.view.out)))
  | windowRefused htype hpay hwhy =>
    exact .quiet (.single (.entry rfl (.same rfl rfl rfl rfl (fun _ h => h) rfl)))
  | dataRefused htype hwhy =>
    exact .quiet (.single (.entry ⟨rfl, rfl⟩ (.same rfl rfl rfl rfl (fun _ h => h) rfl)))
  | dataConn htype h => exact .dataConn _ _ _ h (.out _ t.view.out)
  | dataOverrun htype h hmem hid hopen hw =>
    exact .dataConn _ _ _ h (.same rfl rfl rfl rfl (fun _ h => h) rfl)
  | dataStream htype h hmem hid hopen hw =>
    rw [hid]
    exact .dataStream h hmem hopen hw
  | @openRemote streams htype hmode hsent hid hnew ho =>
    have hknown : ∀ i, t.view.Known i →
        { t.view with streams, maxPeerStreamId := hdr.streamId }.Known i := by
      intro i hi
      simp only [View.Known, hmode] at hi ⊢
      omega
    have hself : { t.view with streams, maxPeerStreamId := hdr.streamId }.Known hdr.streamId := by
      simp only [View.Known, hmode]
      omega
    have hfresh : ¬ t.view.Known hdr.streamId := by
      simp only [View.Known, hmode]
      omega
    exact .quiet (.single (.view (.opens hs ho rfl rfl rfl rfl hknown hfresh hself)))

theorem Move.effect {t t' : Trace} (h : Move t t') (hs : t.view.Sane) : Effect t t' := by
  cases h with
  | step h => exact h.effect hs
  | take h => exact h.effect hs
  | arrive h =>
    cases h with
    | quiet hmode h => exact .quiet (.single (.view (.same rfl rfl rfl rfl (fun _ h => h) rfl)))
    | @settings p hmode hp =>
      have hcalm : t.view.Calm p.view := by
        rw [hp]
        exact .same rfl rfl rfl rfl (fun _ h => h) rfl
      exact .quiet (.head (.view hcalm) (.single (sendSettings_quiet _)))
    | fail hmode he => exact .quiet (.single (.view (.same rfl rfl rfl rfl (fun _ h => h) rfl)))
  | flush => exact .quiet (.single (.view (.out _ _)))

end Chttp.H2
