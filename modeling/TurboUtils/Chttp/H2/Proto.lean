import TurboUtils.Chttp.H2.Frame
import TurboUtils.Chttp.Hpack.Codec

/-! The state of `chttp_h2_proto` and what surrounds it: the calls of its interface, the
callbacks into the application and the record of what happened. Stream ids are natural
numbers below `2 ^ 31`; a negative id names no stream and every call refuses it. -/
namespace Chttp.H2

open Chttp.Hpack (Header Context)

inductive Mode where
  | client | server
  deriving DecidableEq, Repr

/-- The error codes the engine raises itself. -/
def errNoError : ℕ := 0x0
def errProtocolError : ℕ := 0x1
def errInternalError : ℕ := 0x2
def errFlowControlError : ℕ := 0x3
def errStreamClosed : ℕ := 0x5
def errFrameSizeError : ℕ := 0x6
def errRefusedStream : ℕ := 0x7
def errCancel : ℕ := 0x8
def errCompressionError : ℕ := 0x9
def errEnhanceYourCalm : ℕ := 0xb

/-- The SETTINGS identifiers. -/
def settingHeaderTableSize : ℕ := 0x1
def settingEnablePush : ℕ := 0x2
def settingMaxConcurrentStreams : ℕ := 0x3
def settingInitialWindowSize : ℕ := 0x4
def settingMaxFrameSize : ℕ := 0x5
def settingMaxHeaderListSize : ℕ := 0x6
def settingEnableConnectProtocol : ℕ := 0x8

/-- `CHTTP_H2_MAX_WINDOW`. -/
def maxWindow : Int := 0x7fffffff

/-- `CHTTP_H2_DEFAULT_WINDOW`. -/
def defaultWindow : Int := 65535

/-- `CHTTP_H2_DEFAULT_FRAME_BYTES`. -/
def defaultFrameBytes : ℕ := 16384

/-- `CHTTP_H2_PREFACE`. -/
def preface : Bytes := ascii "PRI * HTTP/2.0\r\n\r\nSM\r\n\r\n"

def prefaceLen : ℕ := 24

/-- The value an `int32_t` holds after a store. -/
def int32 (x : Int) : Int := Int.bmod x (2 ^ 32)

/-- `chttp_h2_proto_config`. -/
structure ProtoConfig where
  streamCapacity : ℕ
  outputBufferBytes : ℕ
  inputBufferBytes : ℕ
  headerBlockBytes : ℕ
  maxHeaderListBytes : ℕ
  hpackDynamicTableBytes : ℕ
  maxHpackStringBytes : ℕ
  maxSettingsCount : ℕ
  deriving DecidableEq, Repr

/-- `PTRDIFF_MAX`. -/
def ptrdiffMax : ℕ := 2 ^ 63 - 1

/-- `sizeof(chttp_h2_proto_stream)` on a 64-bit target. -/
def streamSize : ℕ := 144

/-- `chttp_h2_proto_config_valid`. -/
def configValid (c : ProtoConfig) : Bool :=
  decide (c.streamCapacity ≠ 0 ∧ c.streamCapacity ≤ sizeMax / streamSize ∧
    prefaceLen + 2 * frameHeaderSize + 42 + defaultFrameBytes ≤ c.outputBufferBytes ∧
    c.outputBufferBytes ≤ ptrdiffMax ∧
    frameHeaderSize + defaultFrameBytes ≤ c.inputBufferBytes ∧ c.inputBufferBytes ≤ ptrdiffMax ∧
    c.headerBlockBytes ≠ 0 ∧ c.headerBlockBytes ≤ ptrdiffMax ∧
    c.headerBlockBytes ≤ c.outputBufferBytes - frameHeaderSize ∧
    c.maxHeaderListBytes ≠ 0 ∧ c.maxHeaderListBytes ≤ uint32Max ∧
    c.hpackDynamicTableBytes ≤ uint32Max ∧ c.maxHpackStringBytes ≠ 0 ∧
    c.maxSettingsCount ≠ 0 ∧ c.maxSettingsCount ≤ sizeMax / 4)

/-- `proto_default_config`. -/
def defaultConfig : ProtoConfig :=
  ⟨100, 1024 * 1024, 128 * 1024, 64 * 1024, 64 * 1024, 4096, 16 * 1024, 32⟩

/-- The `local` and `peer` settings. -/
structure Settings where
  headerTableSize : ℕ
  enablePush : ℕ
  maxConcurrentStreams : ℕ
  initialWindowSize : ℕ
  maxFrameSize : ℕ
  maxHeaderListSize : ℕ
  enableConnectProtocol : ℕ
  deriving DecidableEq, Repr

/-- `chttp_h2_proto_stream`. A body is its bytes, `none` for a null pointer; a source is
the number of its `source_ud`. -/
structure Stream where
  id : ℕ
  sendWindow : Int := 0
  recvWindow : Int := 0
  closed : Bool := false
  localReset : Bool := false
  endStreamSent : Bool := false
  remoteEndStream : Bool := false
  body : Option Bytes := none
  bodyOff : ℕ := 0
  bodyEof : Bool := false
  source : Option ℕ := none
  sourceDone : Bool := false
  sourceWaiting : Bool := false
  trailers : Bytes := []
  trailersPending : Bool := false
  localWindow : Int := 0
  deriving DecidableEq, Repr

/-- `chttp_h2_proto`, without the input buffer, which only the receive loop touches. -/
structure Proto where
  mode : Mode
  config : ProtoConfig
  hpack : Context
  localSettings : Settings
  peerSettings : Settings
  peerSettingsReceived : Bool := false
  settingsSent : Bool := false
  settingsAcked : Bool := false
  streams : List Stream := []
  localResetIds : List ℕ
  localResetCursor : ℕ := 0
  nextStreamId : ℕ
  maxPeerStreamId : ℕ := 0
  lastProcStreamId : ℕ := 0
  goawaySent : Bool := false
  goawayReceivedLast : Option ℕ := none
  goawayReceivedError : ℕ := 0
  draining : Bool := false
  connSendWindow : Int := defaultWindow
  connRecvWindow : Int := defaultWindow
  connConsumed : Int := 0
  connLocalWindow : Int := defaultWindow
  sendChunk : ℕ := 0
  out : Buffer
  inBlock : Buffer
  inHeaders : Bool := false
  inHeadersStream : ℕ := 0
  inHeadersEndStream : Bool := false
  inputPaused : Bool := false
  inputPausedStream : ℕ := 0
  inputPausedEndStream : Bool := false
  clientPrefaceDone : Bool := false
  serverPrefaceSeen : Bool := false
  failed : Bool := false
  lastError : ℕ := 0

/-- The settings an engine advertises before `chttp_h2_proto_set_local_settings`. -/
def initialLocalSettings (c : ProtoConfig) : Settings where
  headerTableSize := min c.hpackDynamicTableBytes 4096
  enablePush := 0
  maxConcurrentStreams := min c.streamCapacity uint32Max
  initialWindowSize := 65535
  maxFrameSize := 16384
  maxHeaderListSize := c.maxHeaderListBytes
  enableConnectProtocol := 0

def initialPeerSettings : Settings := ⟨4096, 0, 0x7fffffff, 65535, 16384, 0x7fffffff, 0⟩

/-- The `next_stream_id` of a fresh engine. -/
def firstStreamId : Mode → ℕ
  | .client => 1
  | .server => 2

/-- `chttp_h2_proto_create`, with allocation succeeding. -/
def protoCreate (mode : Mode) (c : ProtoConfig) : Option Proto :=
  if configValid c then
    match Hpack.hpackCreate ⟨c.hpackDynamicTableBytes, c.headerBlockBytes, c.maxHpackStringBytes⟩ with
    | none => none
    | some h =>
        match Hpack.encoderSetMaxSize h 0 with
        | (_, false) => none
        | (h, true) =>
            some
              { mode, config := c, hpack := h
                localSettings := initialLocalSettings c
                peerSettings := initialPeerSettings
                localResetIds := List.replicate c.streamCapacity 0
                nextStreamId := firstStreamId mode
                out := ⟨[], c.outputBufferBytes⟩
                inBlock := ⟨[], c.headerBlockBytes⟩ }
  else none

/-! ## Calls, callbacks and the record -/

/-- The public calls that only touch the engine. The three that move bytes, `recv`, `send`
and `resume_input`, are separate: an application makes them outside its callbacks. -/
inductive Call where
  | submitRequestEx (hdrs : List Header) (body : Option Bytes) (source : Option ℕ) (weight : ℕ)
      (dep : Int) (exclusive : Bool)
  | submitRequestHeaders (hdrs : List Header) (endStream : Bool)
  | submitHeaders (streamId : ℕ) (hdrs : List Header) (endStream : Bool)
  | submitResponseEx (streamId : ℕ) (hdrs : List Header) (body : Option Bytes)
      (source : Option ℕ)
  | submitData (streamId : ℕ) (data : Bytes) (endStream : Bool)
  | submitTrailers (streamId : ℕ) (hdrs : List Header)
  | submitSettings
  | submitPing (opaqueBytes : Bytes)
  | submitWindowUpdate (streamId increment : ℕ)
  | submitRstStream (streamId errorCode : ℕ)
  | submitGoaway (lastStreamId errorCode : ℕ)
  | resumeSource (streamId : ℕ)
  | consumeConnection (bytes : ℕ)
  | consumeStream (streamId bytes : ℕ)
  | terminate (errorCode : ℕ)
  | setSendChunk (chunk : ℕ)
  | setLocalSettings (headerTableSize enablePush maxConcurrentStreams initialWindowSize
      maxFrameSize maxHeaderListSize : ℕ)
  | setLocalEnableConnectProtocol (enable : ℕ)
  deriving DecidableEq

/-- `chttp_h2_proto_callbacks`. A callback that is not set acts as one that does nothing
and returns 0. -/
inductive Event where
  | beginHeaders (streamId : ℕ)
  | header (streamId : ℕ) (hd : Header)
  | endHeaders (streamId : ℕ) (endStream : Bool)
  | data (streamId : ℕ) (bytes : Bytes)
  | streamClose (streamId errorCode : ℕ)
  | settings (values : List (ℕ × ℕ))
  | settingsAck
  | pingAck (opaqueBytes : Bytes)
  | windowUpdate (streamId increment : ℕ)
  | goaway (lastStreamId errorCode : ℕ)
  | rstReceived (streamId errorCode : ℕ)
  | wakeWrite
  deriving DecidableEq

/-- `chttp_h2_proto_source_status`; `invalid` is any other value of the enumeration. -/
inductive SourceStatus where
  | data | wait | eof | error | invalid
  deriving DecidableEq, Repr

/-- What a body source answers; `size` is the number of bytes it stored. -/
structure SourceResult where
  status : SourceStatus
  bytes : Bytes

/-- One entry of the record: a frame put into the output, a DATA frame, WINDOW_UPDATE or
SETTINGS received, a callback, a call made by the application, and the entry of
`submit_window_update` and `consume_connection` from wherever they are called. -/
inductive Item where
  | preface
  | out (f : Frame)
  | dataIn (streamId length : ℕ) (connAccepted streamAccepted : Bool)
  | windowIn (streamId increment : ℕ) (accepted : Bool)
  | settingsIn (values : List (ℕ × ℕ))
  | callback (ev : Event)
  | call (c : Call)
  | creditStart (streamId increment : ℕ)
  | consumeStart (bytes : ℕ)

/-- An engine with its application state. The record is kept beside the engine and never
read by it; every entry comes with the engine as it was at that moment. -/
structure St (σ : Type*) where
  p : Proto
  app : σ
  log : List (Item × Proto) := []

/-- How callbacks and body sources act. A source may not re-enter the engine. -/
structure Host (σ : Type*) where
  notify : Event → St σ → St σ × Int
  pull : ℕ → ℕ → σ → σ × SourceResult

namespace St

variable {σ : Type*}

def record (st : St σ) (i : Item) : St σ := { st with log := st.log ++ [(i, st.p)] }

def setP (st : St σ) (p : Proto) : St σ := { st with p := p }

@[simp] theorem record_p (st : St σ) (i : Item) : (st.record i).p = st.p := rfl

@[simp] theorem record_app (st : St σ) (i : Item) : (st.record i).app = st.app := rfl

@[simp] theorem record_log (st : St σ) (i : Item) :
    (st.record i).log = st.log ++ [(i, st.p)] := rfl

@[simp] theorem setP_p (st : St σ) (p : Proto) : (st.setP p).p = p := rfl

@[simp] theorem setP_app (st : St σ) (p : Proto) : (st.setP p).app = st.app := rfl

@[simp] theorem setP_log (st : St σ) (p : Proto) : (st.setP p).log = st.log := rfl

end St

/-! ## Stream table -/

namespace Proto

/-- `proto_find`, as the slot of the stream. -/
def find (p : Proto) (id : ℕ) : Option ℕ := p.streams.findIdx? fun s => s.id = id

/-- The stream in a slot. -/
def stream (p : Proto) (slot : ℕ) : Stream := p.streams.getD slot { id := 0, closed := true }

def modifyStream (p : Proto) (slot : ℕ) (f : Stream → Stream) : Proto :=
  { p with streams := p.streams.modify slot f }

/-- `proto_local_reset_contains`. -/
def localResetContains (p : Proto) (id : ℕ) : Bool := decide (id ≠ 0) && p.localResetIds.contains id

/-- `proto_local_reset_record`. -/
def localResetRecord (p : Proto) (id : ℕ) : Proto :=
  if id = 0 ∨ p.localResetContains id then p
  else
    { p with
      localResetIds := p.localResetIds.set p.localResetCursor id
      localResetCursor := (p.localResetCursor + 1) % p.config.streamCapacity }

/-- `proto_local_reset_forget`. -/
def localResetForget (p : Proto) (id : ℕ) : Proto :=
  if id = 0 then p
  else { p with localResetIds := p.localResetIds.map fun x => if x = id then 0 else x }

/-- The stream `proto_new_stream` puts into its slot. -/
def freshStream (p : Proto) (id : ℕ) : Stream where
  id := id
  sendWindow := int32 p.peerSettings.initialWindowSize
  recvWindow := int32 p.localSettings.initialWindowSize
  localWindow := int32 p.localSettings.initialWindowSize

def peerInitiated (p : Proto) (id : ℕ) : Bool :=
  match p.mode with
  | .client => id % 2 == 0
  | .server => id % 2 != 0

/-- `proto_new_stream`: the first closed slot, or a new one while there is room. -/
def newStream (p : Proto) (id : ℕ) : Option (Proto × ℕ) :=
  let lastProc :=
    if p.peerInitiated id ∧ p.lastProcStreamId < id then id else p.lastProcStreamId
  match p.streams.findIdx? Stream.closed with
  | some i =>
      some ({ p with streams := p.streams.set i (p.freshStream id), lastProcStreamId := lastProc }, i)
  | none =>
      if p.config.streamCapacity ≤ p.streams.length then none
      else
        some ({ p with streams := p.streams ++ [p.freshStream id], lastProcStreamId := lastProc },
          p.streams.length)

/-- `proto_active_local_streams`. -/
def activeLocalStreams (p : Proto) : ℕ :=
  p.streams.countP fun s => !s.closed && !p.peerInitiated s.id

/-- `proto_active_streams`. -/
def activeStreams (p : Proto) : ℕ := p.streams.countP fun s => !s.closed

end Proto

end Chttp.H2
