import TurboUtils.Chttp.H2.HeaderBlock

/-! What an observer of the wire needs to know of an engine, and the moves it can make.
Applications, the reset history and the buffers of the receive path are left out; a change
of those alone is no move at all. -/
namespace Chttp.H2

open Chttp.Hpack (Header Context)

/-- A stream as flow control, framing and the order of its frames depend on it. -/
structure StreamView where
  id : ℕ
  sendWindow : Int
  recvWindow : Int
  closed : Bool
  endStreamSent : Bool
  hasBody : Bool
  bodyPending : Bool
  hasSource : Bool
  trailers : Bytes
  trailersPending : Bool
  deriving DecidableEq, Repr

def Stream.view (s : Stream) : StreamView :=
  ⟨s.id, s.sendWindow, s.recvWindow, s.closed, s.endStreamSent, s.body.isSome, s.bodyPending,
    s.source.isSome, s.trailers, s.trailersPending⟩

structure View where
  mode : Mode
  config : ProtoConfig
  hpack : Context
  localSettings : Settings
  peerSettings : Settings
  peerSettingsReceived : Bool
  settingsSent : Bool
  streams : List StreamView
  nextStreamId : ℕ
  maxPeerStreamId : ℕ
  connSendWindow : Int
  connRecvWindow : Int
  out : Buffer
  clientPrefaceDone : Bool
  serverPrefaceSeen : Bool
  failed : Bool
  lastError : ℕ
  inputPaused : Bool

def Proto.view (p : Proto) : View :=
  ⟨p.mode, p.config, p.hpack, p.localSettings, p.peerSettings, p.peerSettingsReceived,
    p.settingsSent, p.streams.map Stream.view, p.nextStreamId, p.maxPeerStreamId,
    p.connSendWindow, p.connRecvWindow, p.out, p.clientPrefaceDone, p.serverPrefaceSeen,
    p.failed, p.lastError, p.inputPaused⟩

structure Trace where
  view : View
  log : List (Item × View)

def St.trace {σ : Type*} (st : St σ) : Trace :=
  ⟨st.p.view, st.log.map fun e => (e.1, e.2.view)⟩

namespace Trace

def record (t : Trace) (i : Item) : Trace := { t with log := t.log ++ [(i, t.view)] }

def setView (t : Trace) (v : View) : Trace := { t with view := v }

def push (t : Trace) (i : Item) (bs : Bytes) : Trace :=
  (t.record i).setView { t.view with out := t.view.out.append bs }

def pushFrame (t : Trace) (f : Frame) : Trace := t.push (.out f) f.bytes

def pushAll (t : Trace) : List Frame → Trace
  | [] => t
  | f :: fs => pushAll (t.pushFrame f) fs

end Trace

namespace View

def put (v : View) (s : StreamView) : View :=
  { v with streams := v.streams.map fun x => if x.id = s.id then s else x }

def Met (v : View) : Prop := v.mode = .server → v.serverPrefaceSeen = true

/-- Ids below the next one, or up to the last one the peer opened. -/
def Known (v : View) (i : ℕ) : Prop :=
  match v.mode with
  | .client => i < v.nextStreamId
  | .server => i ≤ v.maxPeerStreamId

/-- The stream `proto_new_stream` starts with. -/
def fresh (v : View) (id : ℕ) (endStream : Bool) : StreamView :=
  ⟨id, int32 v.peerSettings.initialWindowSize, int32 v.localSettings.initialWindowSize, false,
    endStream, false, false, false, [], false⟩

/-- The table after a stream took a closed slot or a new one. -/
def Opens (v : View) (s : StreamView) (streams : List StreamView) : Prop :=
  ∃ rest, streams.Perm (s :: rest) ∧ rest.Sublist v.streams ∧
    ∀ x ∈ v.streams, x.closed = false → x ∈ rest

def settingsCount (v : View) : ℕ :=
  (match v.mode with
    | .client => 6
    | .server => 5) + if v.localSettings.enableConnectProtocol ≠ 0 then 1 else 0

/-- The bytes `proto_ensure_preface` still has to queue. -/
def greetingBytes (v : View) : ℕ :=
  match v.mode with
  | .client =>
      if v.clientPrefaceDone then 0 else prefaceLen + (frameHeaderSize + 6 * v.settingsCount)
  | .server =>
      if v.serverPrefaceSeen && !v.settingsSent then frameHeaderSize + 6 * v.settingsCount else 0

/-- The output takes `n` bytes after the greeting. -/
def RoomFor (v : View) (n : ℕ) : Prop :=
  v.out.data.length + v.greetingBytes + n ≤ v.out.maxCapacity

inductive Credit (v : View) : ℕ → ℕ → View → Prop
  | conn {inc : ℕ} (h : v.connRecvWindow ≤ maxWindow - inc) :
      Credit v 0 inc { v with connRecvWindow := int32 (v.connRecvWindow + inc) }
  | stream {s : StreamView} {inc : ℕ} (hs : s ∈ v.streams) (hopen : s.closed = false)
      (h : s.recvWindow ≤ maxWindow - inc) :
      Credit v s.id inc (v.put { s with recvWindow := int32 (s.recvWindow + inc) })

structure Sane (v : View) : Prop where
  frameMin : defaultFrameBytes ≤ v.peerSettings.maxFrameSize
  frameMax : v.peerSettings.maxFrameSize ≤ maxFrameBytes
  peerInitial : v.peerSettings.initialWindowSize ≤ 0x7fffffff
  localInitial : v.localSettings.initialWindowSize ≤ 0x7fffffff
  ids : (v.streams.map StreamView.id).Nodup
  known : ∀ s ∈ v.streams, 0 < s.id ∧ s.id < 2 ^ 31 ∧ v.Known s.id
  next : 0 < v.nextStreamId
  greeted : v.mode = .client → v.clientPrefaceDone = true → v.settingsSent = true
  seen : v.mode = .server → v.serverPrefaceSeen = true → v.settingsSent = true ∨ v.failed = true
  opened : v.streams ≠ [] → v.settingsSent = true
  body : ∀ s ∈ v.streams, s.closed = false → s.hasBody = true → s.bodyPending = true
  paused : v.inputPaused = true → v.Met

end View

def StreamView.give (s : StreamView) (body source : Bool) : StreamView :=
  { s with
    hasBody := s.hasBody || body
    bodyPending := s.bodyPending || body
    hasSource := s.hasSource || source }

/-- The DATA frame of `n` bytes taken off both windows. -/
def View.charge (v : View) (s : StreamView) (n : ℕ) : View :=
  { v with connSendWindow := int32 (v.connSendWindow - n) }.put s

def Item.IsNote : Item → Prop
  | .callback _ | .call _ | .creditStart _ _ | .consumeStart _ => True
  | _ => False

/-- SETTINGS acknowledgements, PING, GOAWAY and RST_STREAM. -/
inductive IsControl : Frame → Prop
  | settingsAck : IsControl ⟨.settings, flagAck, 0, []⟩
  | ping {flags : UInt8} {payload : Bytes} (h : payload.length = 8) :
      IsControl ⟨.ping, flags, 0, payload⟩
  | goaway (last error : ℕ) : IsControl ⟨.goaway, 0, 0, goawayBytes last error⟩
  | rstStream {streamId : ℕ} (error : ℕ) (h : streamId < 2 ^ 31) :
      IsControl ⟨.rstStream, 0, streamId, u32Bytes error⟩

/-- The calls of a server that put a header block on an open stream: the stream while the
block is framed, and after it. -/
inductive BlockCall (s : StreamView) : Call → Bool → StreamView → StreamView → Prop
  | headers (hdrs : List Header) (endStream : Bool) :
      BlockCall s (.submitHeaders s.id hdrs endStream) endStream s
        { s with endStreamSent := s.endStreamSent || endStream }
  | response (hdrs : List Header) (body : Option Bytes) (source : Option ℕ) {endStream : Bool}
      (h : endStream = (decide (bodyLen body = 0) && source.isNone)) :
      BlockCall s (.submitResponseEx s.id hdrs body source) endStream
        { s with endStreamSent := endStream }
        ({ s with endStreamSent := endStream }.give
          (source.isNone && decide (bodyLen body ≠ 0)) source.isSome)
  | trailers (hdrs : List Header) (hp : s.trailersPending = false) (hb : s.bodyPending = false) :
      BlockCall s (.submitTrailers s.id hdrs) true { s with endStreamSent := true }
        { s with endStreamSent := true }

namespace Trace

def put (t : Trace) (s : StreamView) : Trace := t.setView (t.view.put s)

def sendSettings (t : Trace) (p : Proto) : Trace :=
  let t₁ := t.pushFrame ⟨.settings, 0, 0, settingsBytes (settingsValues p)⟩
  t₁.setView { t₁.view with settingsSent := true }

/-- A DATA frame taken off both windows; `s` is its stream afterwards. -/
def sendData (t : Trace) (f : Frame) (s : StreamView) : Trace :=
  let t₁ := t.pushFrame f
  t₁.setView (t₁.view.charge s f.payload.length)

end Trace

/-- The application has made a call and nothing it depends on has changed since. -/
def Trace.AtCall (t : Trace) (c : Call) : Prop :=
  ∃ q, (Item.call c, q) ∈ t.log ∧ q.streams = t.view.streams ∧ q.hpack = t.view.hpack ∧
    q.peerSettings = t.view.peerSettings ∧ q.config = t.view.config

/-- The moves an engine makes on its own behalf or for its application. -/
inductive Step : Trace → Trace → Prop
  | note (t : Trace) {i : Item} (hi : i.IsNote) : Step t (t.record i)
  | recode (t : Trace) (hpack : Context) : Step t (t.setView { t.view with hpack })
  | configure (t : Trace) (localSettings : Settings) (hsent : t.view.settingsSent = false)
      (hw : localSettings.initialWindowSize ≤ 0x7fffffff) :
      Step t (t.setView { t.view with localSettings })
  | connect (t : Trace) (enable : ℕ) :
      Step t (t.setView { t.view with
        localSettings := { t.view.localSettings with enableConnectProtocol := enable } })
  | fail (t : Trace) {error : ℕ} (he : error ≠ errFlowControlError) :
      Step t (t.setView { t.view with failed := true, lastError := error })
  | pause (t : Trace) (inputPaused : Bool) (h : t.view.Met) :
      Step t (t.setView { t.view with inputPaused })
  | settings (t : Trace) {p : Proto} (hp : p.view = t.view) : Step t (t.sendSettings p)
  | greet (t : Trace) {p : Proto} {t₁ : Trace} (hmode : t.view.mode = .client)
      (hnew : t.view.clientPrefaceDone = false)
      (ht : t₁ = t.push .preface preface)
      (hp : p.view = { t₁.view with clientPrefaceDone := true }) :
      Step t ((t₁.setView p.view).sendSettings p)
  | control (t : Trace) {f : Frame} (hf : IsControl f) : Step t (t.pushFrame f)
  | credit (t : Trace) {i inc : ℕ} {v : View} (h : t.view.Credit i inc v) (h0 : inc ≠ 0)
      (hmax : inc ≤ 0x7fffffff) (hi : i < 2 ^ 31) :
      Step t ((t.setView v).pushFrame ⟨.windowUpdate, 0, i, u32Bytes inc⟩)
  | creditLost (t : Trace) {i inc : ℕ} {v q : View} (h : t.view.Credit i inc v) (h0 : inc ≠ 0)
      (hmax : inc ≤ 0x7fffffff) (hq : (.creditStart i inc, q) ∈ t.log)
      (hroom : ¬ q.RoomFor (frameHeaderSize + 4)) : Step t (t.setView v)
  | skipId (t : Trace) : Step t (t.setView { t.view with nextStreamId := t.view.nextStreamId + 2 })
  | openLocal (t : Trace) {streams : List StreamView} (endStream : Bool)
      (hmode : t.view.mode = .client) (hsent : t.view.settingsSent = true)
      (hid : t.view.nextStreamId < 2 ^ 31)
      (ho : t.view.Opens (t.view.fresh t.view.nextStreamId endStream) streams) :
      Step t (t.setView { t.view with streams, nextStreamId := t.view.nextStreamId + 2 })
  | request (t : Trace) {streams : List StreamView} {endStream hasPriority body source : Bool}
      {hpack : Context} {block : Bytes} {s : StreamView} (hmode : t.view.mode = .client)
      (hsent : t.view.settingsSent = true) (hid : t.view.nextStreamId < 2 ^ 31)
      (hs : s = t.view.fresh t.view.nextStreamId endStream) (ho : t.view.Opens s streams)
      (hend : endStream = true → body = false ∧ source = false)
      (hboth : ¬ (body = true ∧ source = true)) :
      Step t (((t.setView { t.view with
        streams, nextStreamId := t.view.nextStreamId + 2, hpack }).pushAll
          (blockFrames s.id t.view.peerSettings.maxFrameSize endStream hasPriority
            (block.length + 1) true block)).put (s.give body source))
  | close (t : Trace) {s s' : StreamView} (hs : s ∈ t.view.streams) (hid : s'.id = s.id)
      (hc : s'.closed = true) : Step t (t.put s')
  | answer (t : Trace) {c : Call} {s s₁ s₂ : StreamView} {endStream : Bool} {hpack : Context}
      {block : Bytes} (hc : t.AtCall c) (hs : s ∈ t.view.streams) (hopen : s.closed = false)
      (hb : BlockCall s c endStream s₁ s₂) :
      Step t (((t.setView { t.view.put s₁ with hpack }).pushAll
        (blockFrames s.id t.view.peerSettings.maxFrameSize endStream false
          (block.length + 1) true block)).put s₂)
  | assign (t : Trace) {c : Call} {s s₁ s₂ : StreamView} {endStream : Bool} (hc : t.AtCall c)
      (hs : s ∈ t.view.streams) (hopen : s.closed = false)
      (hb : BlockCall s c endStream s₁ s₂) : Step t (t.put s₁)
  | attach (t : Trace) {s : StreamView} (hs : s ∈ t.view.streams) (hopen : s.closed = false)
      (hend : s.endStreamSent = false) (hb : s.hasBody = false) (hsrc : s.hasSource = false) :
      Step t (t.put { s with hasBody := true, bodyPending := true })
  | deferTrailers (t : Trace) {s : StreamView} {hdrs : List Header} {blk : Buffer} {hpack : Context}
      (hc : t.AtCall (.submitTrailers s.id hdrs)) (hs : s ∈ t.view.streams)
      (hopen : s.closed = false) (hp : s.trailersPending = false) (hb : s.bodyPending = true)
      (he : Hpack.hpackEncode t.view.hpack ⟨[], t.view.config.headerBlockBytes⟩ hdrs =
        (hpack, some blk)) :
      Step t ((t.setView { t.view with hpack }).put
        { s with trailers := blk.data, trailersPending := true })
  | data (t : Trace) {s : StreamView} {payload : Bytes} {hasBody bodyPending : Bool}
      (hs : s ∈ t.view.streams) (hopen : s.closed = false)
      (hfed : s.hasBody = true ∨ s.hasSource = true) (h0 : 0 < payload.length)
      (hmax : payload.length ≤ t.view.peerSettings.maxFrameSize)
      (hconn : (payload.length : Int) ≤ t.view.connSendWindow)
      (hwin : (payload.length : Int) ≤ s.sendWindow)
      (hb : hasBody = true → s.hasBody = true)
      (hbp : (s.hasBody = true → s.bodyPending = true) → hasBody = true → bodyPending = true) :
      Step t (t.sendData ⟨.data, 0, s.id, payload⟩
        { s with sendWindow := int32 (s.sendWindow - payload.length), hasBody, bodyPending })
  | dataEnd (t : Trace) {s : StreamView} {payload : Bytes}
      (hs : s ∈ t.view.streams) (hopen : s.closed = false) (hb : s.hasBody = true)
      (hsrc : s.hasSource = false) (h0 : 0 < payload.length)
      (hmax : payload.length ≤ t.view.peerSettings.maxFrameSize)
      (hconn : (payload.length : Int) ≤ t.view.connSendWindow)
      (hwin : (payload.length : Int) ≤ s.sendWindow) :
      Step t (t.sendData ⟨.data, flagEndStream, s.id, payload⟩
        { s with sendWindow := int32 (s.sendWindow - payload.length), endStreamSent := true,
                 hasBody := false, bodyPending := false })
  | endBody (t : Trace) {s : StreamView} (hs : s ∈ t.view.streams) (hopen : s.closed = false)
      (hb : s.hasBody = true) (hsrc : s.hasSource = false) :
      Step t ((t.pushFrame ⟨.data, flagEndStream, s.id, []⟩).put
        { s with endStreamSent := true, hasBody := false, bodyPending := false })
  | endSource (t : Trace) {s : StreamView} (hs : s ∈ t.view.streams) (hopen : s.closed = false)
      (hsrc : s.hasSource = true) :
      Step t (((t.put { s with hasSource := false }).pushFrame
        ⟨.data, flagEndStream, s.id, []⟩).put { s with hasSource := false, endStreamSent := true })
  | dropSource (t : Trace) {s : StreamView} (hs : s ∈ t.view.streams) :
      Step t (t.put { s with hasSource := false })
  | dropTrailers (t : Trace) {s : StreamView} (hs : s ∈ t.view.streams) :
      Step t (t.put { s with trailersPending := false })
  | trailersOut (t : Trace) {s : StreamView} (hs : s ∈ t.view.streams) (hopen : s.closed = false)
      (hb : s.hasBody = true) (hsrc : s.hasSource = false) (hp : s.trailersPending = true)
      (hlen : s.trailers.length ≤ maxFrameBytes) :
      Step t (((t.put { s with trailersPending := false }).pushFrame
        ⟨.headers, flagEndHeaders ||| flagEndStream, s.id, s.trailers⟩).put
          { s with endStreamSent := true, hasBody := false, bodyPending := false
                   trailersPending := false, trailers := [] })

/-- What the arrival of a frame changes before anything else happens. -/
inductive Take (hdr : FrameHeader) (payload : Bytes) : Trace → Trace → Prop
  | skip (t : Trace)
      (h : hdr.type ≠ .data ∧ hdr.type ≠ .windowUpdate ∧
        (hdr.type = .settings → hasFlag hdr.flags flagAck = true)) : Take hdr payload t t
  | refuse (t : Trace) {error : ℕ} (he : error ≠ errFlowControlError) :
      Take hdr payload t (t.setView { t.view with failed := true, lastError := error })
  | settings (t : Trace) {p p' : Proto} {values : List (ℕ × ℕ)} {error : ℕ}
      (hp : p.view = t.view) (htype : hdr.type = .settings)
      (hparse : frameSettingsParse payload t.view.config.maxSettingsCount = some values)
      (happly : applyPeerSettings p values = (p', error)) :
      Take hdr payload t ((t.record (.settingsIn values)).setView
        (if error = errNoError then { p'.view with peerSettingsReceived := true }
          else { p'.view with failed := true, lastError := error }))
  | windowConn (t : Trace) {inc : ℕ} (htype : hdr.type = .windowUpdate)
      (hpay : inc = readU32 payload % 2 ^ 31) (h0 : inc ≠ 0) (hid : hdr.streamId = 0)
      (h : t.view.connSendWindow ≤ maxWindow - inc) :
      Take hdr payload t ((t.record (.windowIn 0 inc true)).setView
        { t.view with connSendWindow := int32 (t.view.connSendWindow + inc) })
  | windowStream (t : Trace) {inc : ℕ} {s : StreamView} (htype : hdr.type = .windowUpdate)
      (hpay : inc = readU32 payload % 2 ^ 31) (h0 : inc ≠ 0) (hs : s ∈ t.view.streams)
      (hid : hdr.streamId = s.id) (hopen : s.closed = false)
      (h : s.sendWindow ≤ maxWindow - inc) :
      Take hdr payload t ((t.record (.windowIn s.id inc true)).setView
        (t.view.put { s with sendWindow := int32 (s.sendWindow + inc) }))
  | windowIgnored (t : Trace) {inc : ℕ} (htype : hdr.type = .windowUpdate)
      (hpay : inc = readU32 payload % 2 ^ 31) :
      Take hdr payload t (t.record (.windowIn hdr.streamId inc false))
  | windowRefused (t : Trace) {inc error : ℕ} (htype : hdr.type = .windowUpdate)
      (hpay : inc = readU32 payload % 2 ^ 31)
      (hwhy : error ≠ errFlowControlError ∨ inc = 0 ∨
        (hdr.streamId = 0 ∧ maxWindow - inc < t.view.connSendWindow) ∨
        ∃ s ∈ t.view.streams, s.id = hdr.streamId ∧ s.closed = false ∧
          maxWindow - inc < s.sendWindow) :
      Take hdr payload t ((t.record (.windowIn hdr.streamId inc false)).setView
        { t.view with failed := true, lastError := error })
  | dataRefused (t : Trace) {error : ℕ} (htype : hdr.type = .data)
      (hwhy : error ≠ errFlowControlError ∨ t.view.connRecvWindow < hdr.length) :
      Take hdr payload t ((t.record (.dataIn hdr.streamId hdr.length false false)).setView
        { t.view with failed := true, lastError := error })
  | dataConn (t : Trace) (htype : hdr.type = .data)
      (h : (hdr.length : Int) ≤ t.view.connRecvWindow) :
      Take hdr payload t ((t.record (.dataIn hdr.streamId hdr.length true false)).setView
        { t.view with connRecvWindow := int32 (t.view.connRecvWindow - hdr.length) })
  | dataOverrun (t : Trace) {s : StreamView} (htype : hdr.type = .data)
      (h : (hdr.length : Int) ≤ t.view.connRecvWindow) (hs : s ∈ t.view.streams)
      (hid : hdr.streamId = s.id) (hopen : s.closed = false) (hw : s.recvWindow < hdr.length) :
      Take hdr payload t ((t.record (.dataIn hdr.streamId hdr.length true false)).setView
        { t.view with connRecvWindow := int32 (t.view.connRecvWindow - hdr.length)
                      failed := true, lastError := errFlowControlError })
  | dataStream (t : Trace) {s : StreamView} (htype : hdr.type = .data)
      (h : (hdr.length : Int) ≤ t.view.connRecvWindow) (hs : s ∈ t.view.streams)
      (hid : hdr.streamId = s.id) (hopen : s.closed = false)
      (hw : (hdr.length : Int) ≤ s.recvWindow) :
      Take hdr payload t ((t.record (.dataIn hdr.streamId hdr.length true true)).setView
        ({ t.view with connRecvWindow := int32 (t.view.connRecvWindow - hdr.length) }.put
          { s with recvWindow := int32 (s.recvWindow - hdr.length) }))
  | openRemote (t : Trace) {streams : List StreamView} (htype : hdr.type = .headers)
      (hmode : t.view.mode = .server) (hsent : t.view.settingsSent = true)
      (hid : hdr.streamId < 2 ^ 31) (hnew : t.view.maxPeerStreamId < hdr.streamId)
      (ho : t.view.Opens (t.view.fresh hdr.streamId false) streams) :
      Take hdr payload t (t.setView { t.view with streams, maxPeerStreamId := hdr.streamId })

/-- The client preface at a server, with the SETTINGS that answer it. -/
inductive Arrive : Trace → Trace → Prop
  | quiet (t : Trace) (hmode : t.view.mode = .server)
      (h : t.view.settingsSent = true ∨ t.view.failed = true) :
      Arrive t (t.setView { t.view with serverPrefaceSeen := true })
  | settings (t : Trace) {p : Proto} (hmode : t.view.mode = .server)
      (hp : p.view = { t.view with serverPrefaceSeen := true }) :
      Arrive t ((t.setView p.view).sendSettings p)
  | fail (t : Trace) {error : ℕ} (hmode : t.view.mode = .server)
      (he : error ≠ errFlowControlError) :
      Arrive t (t.setView { t.view with
        serverPrefaceSeen := true, failed := true, lastError := error })

inductive Move : Trace → Trace → Prop
  | step {t t' : Trace} (h : Step t t') : Move t t'
  | take {t t' : Trace} {hdr : FrameHeader} {payload : Bytes} (h : Take hdr payload t t') : Move t t'
  | arrive {t t' : Trace} (h : Arrive t t') : Move t t'
  | flush (t : Trace) : Move t (t.setView { t.view with out := { t.view.out with data := [] } })

abbrev Steps : Trace → Trace → Prop := Relation.ReflTransGen Step

abbrev Moves : Trace → Trace → Prop := Relation.ReflTransGen Move

/-! ## Every move keeps a view sane -/

namespace View

theorem mem_put {v : View} {s x : StreamView} :
    x ∈ (v.put s).streams ↔
      (x = s ∧ ∃ y ∈ v.streams, y.id = s.id) ∨ (x ∈ v.streams ∧ x.id ≠ s.id) := by
  simp only [put, List.mem_map]
  constructor
  · rintro ⟨y, hy, rfl⟩
    split_ifs with hid
    · exact .inl ⟨rfl, y, hy, hid⟩
    · exact .inr ⟨hy, hid⟩
  · rintro (⟨rfl, y, hy, hid⟩ | ⟨hx, hid⟩)
    · exact ⟨y, hy, if_pos hid⟩
    · exact ⟨x, hx, if_neg hid⟩

theorem put_ids (v : View) (s : StreamView) :
    (v.put s).streams.map StreamView.id = v.streams.map StreamView.id := by
  simp only [put, List.map_map, List.map_inj_left, Function.comp_apply]
  intro x _
  split_ifs with hid
  · exact hid.symm
  · rfl

theorem put_eq_nil (v : View) (s : StreamView) : (v.put s).streams = [] ↔ v.streams = [] := by
  simp [put]

theorem put_self_mem {v : View} {s s' : StreamView} (hs : s ∈ v.streams) (hid : s'.id = s.id) :
    s' ∈ (v.put s').streams :=
  mem_put.mpr (.inl ⟨rfl, s, hs, hid.symm⟩)

theorem Sane.unique {v : View} (h : v.Sane) {s x : StreamView} (hs : s ∈ v.streams)
    (hx : x ∈ v.streams) (hid : x.id = s.id) : x = s :=
  List.inj_on_of_nodup_map h.ids hx hs hid

theorem Sane.put {v : View} (h : v.Sane) {s s' : StreamView} (hs : s ∈ v.streams)
    (hid : s'.id = s.id) (hb : s'.closed = false → s'.hasBody = true → s'.bodyPending = true) :
    (v.put s').Sane where
  frameMin := h.frameMin
  frameMax := h.frameMax
  peerInitial := h.peerInitial
  localInitial := h.localInitial
  ids := by rw [put_ids]; exact h.ids
  known := by
    intro x hx
    rcases mem_put.mp hx with ⟨rfl, -⟩ | ⟨hx, -⟩
    · rw [hid]
      exact h.known s hs
    · exact h.known x hx
  next := h.next
  greeted := h.greeted
  seen := h.seen
  opened := fun hne => h.opened fun hnil => hne ((put_eq_nil v s').mpr hnil)
  body := by
    intro x hx
    rcases mem_put.mp hx with ⟨rfl, -⟩ | ⟨hx, -⟩
    · exact hb
    · exact h.body x hx
  paused := h.paused

theorem Sane.withOut {v : View} (h : v.Sane) (out : Buffer) : { v with out := out }.Sane := by
  cases h
  constructor <;> assumption

theorem Sane.withHpack {v : View} (h : v.Sane) (hpack : Context) :
    { v with hpack := hpack }.Sane := by
  cases h
  constructor <;> assumption

theorem Sane.withRecvWindow {v : View} (h : v.Sane) (w : Int) :
    { v with connRecvWindow := w }.Sane := by
  cases h
  constructor <;> assumption

theorem Sane.withSendWindow {v : View} (h : v.Sane) (w : Int) :
    { v with connSendWindow := w }.Sane := by
  cases h
  constructor <;> assumption

theorem Sane.withSettingsSent {v : View} (h : v.Sane) : { v with settingsSent := true }.Sane := by
  cases h
  constructor <;> first | assumption | simp

theorem Sane.withGreeting {v : View} (h : v.Sane) :
    { v with clientPrefaceDone := true, settingsSent := true }.Sane := by
  cases h
  constructor <;> first | assumption | simp

theorem Sane.withFailed {v : View} (h : v.Sane) (error : ℕ) :
    { v with failed := true, lastError := error }.Sane := by
  cases h
  constructor <;> first | assumption | exact fun _ _ => Or.inr rfl

theorem Sane.withLocalSettings {v : View} (h : v.Sane) {localSettings : Settings}
    (hw : localSettings.initialWindowSize ≤ 0x7fffffff) :
    { v with localSettings := localSettings }.Sane := by
  cases h
  constructor <;> assumption

theorem Sane.withPrefaceSeen {v : View} (h : v.Sane)
    (hs : v.settingsSent = true ∨ v.failed = true) : { v with serverPrefaceSeen := true }.Sane := by
  cases h
  constructor <;> first | assumption | exact fun _ _ => hs | exact fun _ _ => rfl

theorem Sane.withPaused {v : View} (h : v.Sane) (inputPaused : Bool)
    (hp : v.Met) :
    { v with inputPaused := inputPaused }.Sane := by
  cases h
  constructor <;> first | assumption | exact fun _ => hp

theorem Sane.withNext {v : View} (h : v.Sane) (n : ℕ) (hn : v.nextStreamId ≤ n) :
    { v with nextStreamId := n }.Sane where
  frameMin := h.frameMin
  frameMax := h.frameMax
  peerInitial := h.peerInitial
  localInitial := h.localInitial
  ids := h.ids
  known := by
    intro s hs
    obtain ⟨h0, hmax, hk⟩ := h.known s hs
    refine ⟨h0, hmax, ?_⟩
    cases hm : v.mode <;> simp only [Known, hm] at hk ⊢ <;> omega
  next := lt_of_lt_of_le h.next hn
  greeted := h.greeted
  seen := h.seen
  opened := h.opened
  body := h.body
  paused := h.paused

theorem Sane.withMaxPeer {v : View} (h : v.Sane) (n : ℕ) (hn : v.maxPeerStreamId ≤ n) :
    { v with maxPeerStreamId := n }.Sane where
  frameMin := h.frameMin
  frameMax := h.frameMax
  peerInitial := h.peerInitial
  localInitial := h.localInitial
  ids := h.ids
  known := by
    intro s hs
    obtain ⟨h0, hmax, hk⟩ := h.known s hs
    refine ⟨h0, hmax, ?_⟩
    cases hm : v.mode <;> simp only [Known, hm] at hk ⊢ <;> omega
  next := h.next
  greeted := h.greeted
  seen := h.seen
  opened := h.opened
  body := h.body
  paused := h.paused

theorem Opens.mem {v : View} {s x : StreamView} {streams : List StreamView}
    (ho : v.Opens s streams) (hx : x ∈ streams) : x = s ∨ x ∈ v.streams := by
  obtain ⟨rest, hperm, hsub, -⟩ := ho
  rcases List.mem_cons.mp (hperm.mem_iff.mp hx) with rfl | hx
  · exact .inl rfl
  · exact .inr (hsub.subset hx)

theorem Opens.self_mem {v : View} {s : StreamView} {streams : List StreamView}
    (ho : v.Opens s streams) : s ∈ streams := by
  obtain ⟨rest, hperm, -, -⟩ := ho
  exact hperm.mem_iff.mpr List.mem_cons_self

/-- A stream with a new id. -/
theorem Sane.opens {v : View} (h : v.Sane) {s : StreamView} {streams : List StreamView}
    (ho : v.Opens s streams) (hsent : v.settingsSent = true) (h0 : 0 < s.id) (hmax : s.id < 2 ^ 31)
    (hk : v.Known s.id) (hnew : ∀ x ∈ v.streams, x.id ≠ s.id)
    (hb : s.hasBody = false) : { v with streams := streams }.Sane where
  frameMin := h.frameMin
  frameMax := h.frameMax
  peerInitial := h.peerInitial
  localInitial := h.localInitial
  ids := by
    obtain ⟨rest, hperm, hsub, -⟩ := ho
    apply (hperm.map StreamView.id).nodup_iff.mpr
    rw [List.map_cons, List.nodup_cons]
    refine ⟨?_, h.ids.sublist (hsub.map _)⟩
    intro hmem
    obtain ⟨x, hx, hid⟩ := List.mem_map.mp hmem
    exact hnew x (hsub.subset hx) hid
  known := by
    intro x hx
    rcases ho.mem hx with rfl | hx
    · exact ⟨h0, hmax, hk⟩
    · exact h.known x hx
  next := h.next
  greeted := h.greeted
  seen := h.seen
  opened := fun _ => hsent
  body := by
    intro x hx hc hbody
    rcases ho.mem hx with rfl | hx
    · rw [hb] at hbody
      exact absurd hbody (by decide)
    · exact h.body x hx hc hbody
  paused := h.paused

theorem Sane.opensLocal {v : View} (h : v.Sane) {endStream : Bool} {streams : List StreamView}
    (ho : v.Opens (v.fresh v.nextStreamId endStream) streams) (hmode : v.mode = .client)
    (hsent : v.settingsSent = true) (hid : v.nextStreamId < 2 ^ 31) :
    { v with streams := streams, nextStreamId := v.nextStreamId + 2 }.Sane := by
  apply Sane.opens (h.withNext (v.nextStreamId + 2) (by omega)) ho hsent h.next hid
  · simp only [Known, hmode, fresh]
    omega
  · intro x hx hid
    obtain ⟨-, -, hk⟩ := h.known x hx
    simp only [Known, hmode, hid, fresh] at hk
    omega
  · rfl

theorem Sane.opensRemote {v : View} (h : v.Sane) {id : ℕ} {streams : List StreamView}
    (ho : v.Opens (v.fresh id false) streams) (hmode : v.mode = .server)
    (hsent : v.settingsSent = true) (hid : id < 2 ^ 31) (hnew : v.maxPeerStreamId < id) :
    { v with streams := streams, maxPeerStreamId := id }.Sane := by
  apply Sane.opens (h.withMaxPeer id (by omega)) ho hsent
    (show 0 < id by omega) hid
  · simp only [Known, hmode, fresh]
    omega
  · intro x hx hxid
    obtain ⟨-, -, hk⟩ := h.known x hx
    simp only [Known, hmode, hxid, fresh] at hk
    omega
  · rfl

theorem Sane.credit {v v' : View} {i inc : ℕ} (h : v.Sane) (hc : v.Credit i inc v') : v'.Sane := by
  cases hc with
  | conn _ => exact h.withRecvWindow _
  | stream hs hopen _ => exact h.put hs rfl (h.body _ hs :)

end View

namespace Trace

theorem pushAll_view (t : Trace) (fs : List Frame) :
    (t.pushAll fs).view = { t.view with out := t.view.out.append (fs.flatMap Frame.bytes) } := by
  induction fs generalizing t with
  | nil => simp [pushAll, Buffer.append]
  | cons f fs ih => simp [pushAll, ih, pushFrame, push, setView, record, Buffer.append]

end Trace

theorem pushAll_sane {t : Trace} (fs : List Frame) (h : t.view.Sane) :
    (t.pushAll fs).view.Sane := by
  rw [Trace.pushAll_view]
  exact h.withOut _

theorem pushAll_streams (t : Trace) (fs : List Frame) :
    (t.pushAll fs).view.streams = t.view.streams := by rw [Trace.pushAll_view]

theorem sendSettings_sane {t : Trace} (p : Proto) (h : t.view.Sane) :
    (t.sendSettings p).view.Sane :=
  (h.withOut _).withSettingsSent

theorem sendData_sane {t : Trace} (h : t.view.Sane) {f : Frame} {s s' : StreamView}
    (hs : s ∈ t.view.streams) (hid : s'.id = s.id)
    (hb : s'.closed = false → s'.hasBody = true → s'.bodyPending = true) :
    (t.sendData f s').view.Sane :=
  ((h.withOut _).withSendWindow _).put hs hid hb

theorem BlockCall.spec {s s₁ s₂ : StreamView} {c : Call} {endStream : Bool}
    (h : BlockCall s c endStream s₁ s₂) :
    (∃ e, s₁ = { s with endStreamSent := e }) ∧
      ∃ e body source, s₂ = ({ s with endStreamSent := e }).give body source := by
  cases h with
  | headers hdrs endStream =>
    exact ⟨⟨_, rfl⟩, s.endStreamSent || endStream, false, false, by simp [StreamView.give]⟩
  | response hdrs body source h => exact ⟨⟨_, rfl⟩, _, _, _, rfl⟩
  | trailers hdrs hp hb => exact ⟨⟨_, rfl⟩, true, false, false, by simp [StreamView.give]⟩

theorem give_body {s : StreamView} (h : s.hasBody = true → s.bodyPending = true)
    (body source : Bool) :
    (s.give body source).hasBody = true → (s.give body source).bodyPending = true := by
  simp only [StreamView.give, Bool.or_eq_true]
  exact Or.imp_left h

theorem Step.sane {t t' : Trace} (h : Step t t') (hs : t.view.Sane) : t'.view.Sane := by
  cases h with
  | note hi => exact hs
  | recode hpack => exact hs.withHpack hpack
  | configure l hsent hw => exact hs.withLocalSettings hw
  | connect enable => exact hs.withLocalSettings hs.localInitial
  | fail he => exact hs.withFailed _
  | pause b h => exact hs.withPaused b h
  | settings hp => exact sendSettings_sane _ hs
  | greet hmode hnew ht hp =>
    subst ht
    simp only [Trace.sendSettings, hp]
    exact (hs.withOut _).withGreeting
  | control hf => exact hs.withOut _
  | credit hc h0 hmax hi => exact (hs.credit hc).withOut _
  | creditLost hc h0 hmax hq hroom => exact hs.credit hc
  | skipId => exact hs.withNext _ (by omega)
  | openLocal es hmode hsent hid ho => exact hs.opensLocal ho hmode hsent hid
  | @request streams endStream hasPriority body source hpack block s hmode hsent hid hfresh ho =>
    subst hfresh
    apply (pushAll_sane _ ((hs.opensLocal ho hmode hsent hid).withHpack hpack)).put
    · rw [pushAll_streams]
      exact ho.self_mem
    · rfl
    · exact fun _ => give_body (by simp [View.fresh]) _ _
  | close hmem hid hc => exact hs.put hmem hid (by simp [hc])
  | @answer c s s₁ s₂ endStream hpack block hc hmem hopen hb =>
    obtain ⟨⟨e, rfl⟩, e', body, source, rfl⟩ := hb.spec
    have hbody := hs.body s hmem
    have hput : (t.view.put { s with endStreamSent := e }).Sane := hs.put hmem rfl hbody
    apply (pushAll_sane _ (hput.withHpack hpack)).put
    · rw [pushAll_streams]
      exact View.put_self_mem hmem rfl
    · rfl
    · exact fun hc => give_body (hbody hc) body source
  | assign hc hmem hopen hb =>
    obtain ⟨⟨e, rfl⟩, -⟩ := hb.spec
    exact hs.put hmem rfl (hs.body _ hmem :)
  | attach hmem hopen hend hb hsrc => exact hs.put hmem rfl (fun _ _ => rfl)
  | deferTrailers hc hmem hopen hp hb he => exact (hs.withHpack _).put hmem rfl (hs.body _ hmem :)
  | data hmem hopen hfed h0 hmax hconn hwin hb hbp =>
    exact sendData_sane hs hmem rfl (fun hc => hbp (hs.body _ hmem hc))
  | dataEnd hmem hopen hb hsrc h0 hmax hconn hwin =>
    exact sendData_sane hs hmem rfl (by simp)
  | endBody hmem hopen hb hsrc => exact (hs.withOut _).put hmem rfl (by simp)
  | @endSource s hmem hopen hsrc =>
    have hbody := hs.body s hmem
    have hput : (t.view.put { s with hasSource := false }).Sane := hs.put hmem rfl hbody
    exact (hput.withOut _).put (View.put_self_mem hmem rfl) rfl hbody
  | dropSource hmem => exact hs.put hmem rfl (hs.body _ hmem :)
  | dropTrailers hmem => exact hs.put hmem rfl (hs.body _ hmem :)
  | @trailersOut s hmem hopen hb hsrc hp hlen =>
    have hbody := hs.body s hmem
    have hput : (t.view.put { s with trailersPending := false }).Sane := hs.put hmem rfl hbody
    exact (hput.withOut _).put (View.put_self_mem hmem rfl) rfl (by simp)

theorem Steps.sane {t t' : Trace} (h : Steps t t') (hs : t.view.Sane) : t'.view.Sane := by
  induction h with
  | refl => exact hs
  | tail _ hstep ih => exact hstep.sane ih

/-! ## SETTINGS of the peer -/

/-- One setting changes a field other than INITIAL_WINDOW_SIZE, or shifts the windows, or
does nothing. -/
theorem applyPeerSetting_cases (p : Proto) (id value : ℕ) :
    (∃ ps : Settings, (applyPeerSetting p id value).1 = { p with peerSettings := ps } ∧
      ps.initialWindowSize = p.peerSettings.initialWindowSize ∧
      (ps.maxFrameSize = p.peerSettings.maxFrameSize ∨
        (defaultFrameBytes ≤ ps.maxFrameSize ∧ ps.maxFrameSize ≤ maxFrameBytes ∧
          id = settingMaxFrameSize ∧ ps.maxFrameSize = value))) ∨
    (value ≤ 0x7fffffff ∧ shiftFits p value = true ∧ id = settingInitialWindowSize ∧
      (applyPeerSetting p id value).1 = shiftWindows p value) := by
  unfold applyPeerSetting
  dsimp only
  split_ifs with h1 h2 h3 h4 h5 h6 h7 h8 h9 h10 h11 h12
  all_goals first
    | exact .inl ⟨p.peerSettings, rfl, rfl, .inl rfl⟩
    | exact .inl ⟨_, rfl, rfl, .inl rfl⟩
    | exact .inr ⟨by omega, by assumption, by assumption, rfl⟩
    | exact .inl ⟨_, rfl, rfl, .inr ⟨by dsimp only; omega, by dsimp only; omega, by assumption, rfl⟩⟩

/-- What holds before the settings of a frame and survives each of them holds after them. -/
theorem applyPeerSettings_induction (P : Proto → Prop) {values : List (ℕ × ℕ)}
    (hset : ∀ p (ps : Settings), P p → ps.initialWindowSize = p.peerSettings.initialWindowSize →
      (ps.maxFrameSize = p.peerSettings.maxFrameSize ∨
        (defaultFrameBytes ≤ ps.maxFrameSize ∧ ps.maxFrameSize ≤ maxFrameBytes ∧
          (settingMaxFrameSize, ps.maxFrameSize) ∈ values)) → P { p with peerSettings := ps })
    (hshift : ∀ p value, value ≤ 0x7fffffff → shiftFits p value = true → P p →
      P (shiftWindows p value)) {p : Proto} (h : P p) : P (applyPeerSettings p values).1 := by
  induction values generalizing p with
  | nil => exact h
  | cons x rest ih =>
    have hfirst : P (applyPeerSetting p x.1 x.2).1 := by
      rcases applyPeerSetting_cases p x.1 x.2 with ⟨ps, he, hw, hf⟩ | ⟨hv, hfit, -, he⟩
      · rw [he]
        apply hset p ps h hw
        rcases hf with hf | ⟨hmin, hmax, hid, hval⟩
        · exact .inl hf
        · refine .inr ⟨hmin, hmax, ?_⟩
          rw [hval, ← hid]
          exact List.mem_cons_self
      · rw [he]
        exact hshift p x.2 hv hfit h
    have hrest : ∀ {q : Proto}, P q → P (applyPeerSettings q rest).1 := by
      intro q hq
      apply ih _ hq
      intro q ps hq hw hf
      exact hset q ps hq hw (hf.imp_right fun hf => ⟨hf.1, hf.2.1, List.mem_cons_of_mem _ hf.2.2⟩)
    unfold applyPeerSettings
    dsimp only
    split_ifs
    · exact hfirst
    · exact hrest hfirst

def StreamView.shift (s : StreamView) (delta : Int) : StreamView :=
  if s.closed then s else { s with sendWindow := int32 (s.sendWindow + delta) }

def View.shift (v : View) (value : ℕ) : View :=
  { v with
    streams := v.streams.map fun s => s.shift (value - v.peerSettings.initialWindowSize)
    peerSettings := { v.peerSettings with initialWindowSize := value } }

theorem shiftWindows_view (p : Proto) (value : ℕ) :
    (shiftWindows p value).view = p.view.shift value := by
  simp only [shiftWindows, Proto.view, View.shift, List.map_map]
  congr 1
  apply List.map_congr_left
  intro s _
  cases hc : s.closed <;> simp [StreamView.shift, Stream.view, Stream.bodyPending, hc]

theorem shiftFits_view {p : Proto} {value : ℕ} (h : shiftFits p value = true) {s : StreamView}
    (hs : s ∈ p.view.streams) (hopen : s.closed = false) :
    -(2 ^ 31) ≤ s.sendWindow + (value - p.view.peerSettings.initialWindowSize) ∧
      s.sendWindow + (value - p.view.peerSettings.initialWindowSize) ≤ maxWindow := by
  obtain ⟨x, hx, rfl⟩ := List.mem_map.mp hs
  have hx := List.all_eq_true.mp h x hx
  simp only [Stream.view] at hopen
  simp only [hopen, Bool.false_or, Bool.and_eq_true, decide_eq_true_eq] at hx
  exact hx

theorem StreamView.shift_id (s : StreamView) (delta : Int) : (s.shift delta).id = s.id := by
  unfold shift
  split_ifs <;> rfl

theorem View.Sane.shift {v : View} (h : v.Sane) {value : ℕ} (hv : value ≤ 0x7fffffff) :
    (v.shift value).Sane where
  frameMin := h.frameMin
  frameMax := h.frameMax
  peerInitial := hv
  localInitial := h.localInitial
  ids := by
    have hids : (v.shift value).streams.map StreamView.id = v.streams.map StreamView.id := by
      simp [View.shift, StreamView.shift_id]
    rw [hids]
    exact h.ids
  known := by
    intro x hx
    obtain ⟨s, hs, rfl⟩ := List.mem_map.mp hx
    rw [StreamView.shift_id]
    exact h.known s hs
  next := h.next
  greeted := h.greeted
  seen := h.seen
  opened := fun hne => h.opened fun hnil => hne (by simp [View.shift, hnil])
  body := by
    intro x hx
    obtain ⟨s, hs, rfl⟩ := List.mem_map.mp hx
    unfold StreamView.shift
    split_ifs
    · exact h.body s hs
    · exact h.body s hs
  paused := h.paused

theorem View.Sane.withPeerSettings {v : View} (h : v.Sane) {ps : Settings}
    (hw : ps.initialWindowSize ≤ 0x7fffffff) (hmin : defaultFrameBytes ≤ ps.maxFrameSize)
    (hmax : ps.maxFrameSize ≤ maxFrameBytes) : { v with peerSettings := ps }.Sane := by
  cases h
  constructor <;> assumption

theorem applyPeerSettings_sane {p : Proto} (values : List (ℕ × ℕ)) (h : p.view.Sane) :
    (applyPeerSettings p values).1.view.Sane := by
  apply applyPeerSettings_induction (fun q => q.view.Sane) _ _ h
  · intro q ps hq hw hf
    apply View.Sane.withPeerSettings hq (le_of_eq_of_le hw hq.peerInitial)
    · rcases hf with hf | ⟨hmin, -, -⟩
      · exact le_of_le_of_eq hq.frameMin hf.symm
      · exact hmin
    · rcases hf with hf | ⟨-, hmax, -⟩
      · exact le_of_eq_of_le hf hq.frameMax
      · exact hmax
  · intro q value hv _ hq
    rw [shiftWindows_view]
    exact hq.shift hv

theorem View.Sane.withPeerSettingsReceived {v : View} (h : v.Sane) :
    { v with peerSettingsReceived := true }.Sane := by
  cases h
  constructor <;> assumption

theorem Take.sane {hdr : FrameHeader} {payload : Bytes} {t t' : Trace}
    (h : Take hdr payload t t') (hs : t.view.Sane) : t'.view.Sane := by
  cases h with
  | skip _ => exact hs
  | refuse he => exact hs.withFailed _
  | @settings p p' values error hp htype hparse happly =>
    have hs' := applyPeerSettings_sane values (hp ▸ hs : p.view.Sane)
    rw [happly] at hs'
    simp only [Trace.setView]
    split_ifs
    · exact hs'.withPeerSettingsReceived
    · exact hs'.withFailed _
  | windowConn _ _ _ _ _ => exact hs.withSendWindow _
  | windowStream _ _ _ hmem _ _ _ => exact hs.put hmem rfl (hs.body _ hmem :)
  | windowIgnored _ _ => exact hs
  | windowRefused _ _ _ => exact hs.withFailed _
  | dataRefused _ _ => exact hs.withFailed _
  | dataConn _ _ => exact hs.withRecvWindow _
  | dataOverrun _ _ _ _ _ _ =>
    exact (hs.withFailed errFlowControlError).withRecvWindow (int32 (t.view.connRecvWindow - hdr.length))
  | dataStream _ _ hmem _ _ _ => exact (hs.withRecvWindow _).put hmem rfl (hs.body _ hmem :)
  | openRemote _ hmode hsent hid hnew ho => exact hs.opensRemote ho hmode hsent hid hnew

theorem Arrive.sane {t t' : Trace} (h : Arrive t t') (hs : t.view.Sane) : t'.view.Sane := by
  cases h with
  | quiet hmode h => exact hs.withPrefaceSeen h
  | settings hmode hp =>
    simp only [Trace.sendSettings, Trace.setView, hp]
    exact (hs.withSettingsSent.withPrefaceSeen (.inl rfl)).withOut _
  | fail hmode he => exact (hs.withFailed _).withPrefaceSeen (.inr rfl)

theorem Move.sane {t t' : Trace} (h : Move t t') (hs : t.view.Sane) : t'.view.Sane := by
  cases h with
  | step h => exact h.sane hs
  | take h => exact h.sane hs
  | arrive h => exact h.sane hs
  | flush => exact hs.withOut _

theorem Moves.sane {t t' : Trace} (h : Moves t t') (hs : t.view.Sane) : t'.view.Sane := by
  induction h with
  | refl => exact hs
  | tail _ hmove ih => exact hmove.sane ih

/-! ## What no move changes -/

/-- The mode, the configuration and the client preface of a server stay. -/
structure View.Fixed (v v' : View) : Prop where
  mode : v'.mode = v.mode
  config : v'.config = v.config
  capacity : v'.out.maxCapacity = v.out.maxCapacity
  seen : v'.serverPrefaceSeen = v.serverPrefaceSeen

theorem View.Fixed.rfl {v : View} : v.Fixed v := ⟨.refl _, .refl _, .refl _, .refl _⟩

theorem View.Fixed.trans {v v' v'' : View} (h : v.Fixed v') (h' : v'.Fixed v'') : v.Fixed v'' :=
  ⟨h'.mode.trans h.mode, h'.config.trans h.config, h'.capacity.trans h.capacity,
    h'.seen.trans h.seen⟩

theorem View.Fixed.met {v v' : View} (h : v.Fixed v') (hm : v.Met) : v'.Met :=
  fun hmode => h.seen.trans (hm (h.mode.symm.trans hmode))

theorem Step.fixed {t t' : Trace} (h : Step t t') : t.view.Fixed t'.view := by
  have hall : ∀ (t : Trace) (fs : List Frame) (s : StreamView),
      t.view.Fixed ((t.pushAll fs).put s).view := by
    intro t fs s
    rw [Trace.put, Trace.pushAll_view]
    exact ⟨rfl, rfl, rfl, rfl⟩
  cases h with
  | request _ _ _ _ _ _ _ =>
    apply View.Fixed.trans _ (hall _ _ _)
    exact ⟨rfl, rfl, rfl, rfl⟩
  | answer _ _ _ _ =>
    apply View.Fixed.trans _ (hall _ _ _)
    exact ⟨rfl, rfl, rfl, rfl⟩
  | greet _ _ ht hp =>
    subst ht
    simp only [Trace.sendSettings, Trace.setView, Trace.pushFrame, Trace.push, hp]
    exact ⟨rfl, rfl, rfl, rfl⟩
  | credit hc _ _ _ => cases hc <;> exact ⟨rfl, rfl, rfl, rfl⟩
  | creditLost hc _ _ _ _ => cases hc <;> exact ⟨rfl, rfl, rfl, rfl⟩
  | _ => exact ⟨rfl, rfl, rfl, rfl⟩

theorem Steps.fixed {t t' : Trace} (h : Steps t t') : t.view.Fixed t'.view := by
  induction h with
  | refl => exact .rfl
  | tail _ hstep ih => exact ih.trans hstep.fixed

theorem applyPeerSettings_fixed (p : Proto) (values : List (ℕ × ℕ)) :
    p.view.Fixed (applyPeerSettings p values).1.view := by
  apply applyPeerSettings_induction (fun q => p.view.Fixed q.view)
  · exact fun q ps hq _ _ => hq.trans ⟨rfl, rfl, rfl, rfl⟩
  · exact fun q value _ _ hq => hq.trans ⟨rfl, rfl, rfl, rfl⟩
  · exact .rfl

theorem Take.fixed {hdr : FrameHeader} {payload : Bytes} {t t' : Trace}
    (h : Take hdr payload t t') : t.view.Fixed t'.view := by
  cases h with
  | @settings p p' values error hp _ _ happly =>
    have hfix := applyPeerSettings_fixed p values
    rw [happly, hp] at hfix
    simp only [Trace.setView]
    split_ifs
    · exact hfix.trans ⟨rfl, rfl, rfl, rfl⟩
    · exact hfix.trans ⟨rfl, rfl, rfl, rfl⟩
  | _ => exact ⟨rfl, rfl, rfl, rfl⟩

end Chttp.H2
