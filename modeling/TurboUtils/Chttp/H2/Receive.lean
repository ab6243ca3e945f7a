import TurboUtils.Chttp.H2.Send

/-! The receive path: SETTINGS, frame dispatch, header blocks and the loop over the input. -/
namespace Chttp.H2

open Chttp.Hpack (Header)

variable {σ : Type*}

/-! ## SETTINGS -/

def shiftWindows (p : Proto) (value : ℕ) : Proto :=
  let delta : Int := value - p.peerSettings.initialWindowSize
  { p with
    streams := p.streams.map fun s =>
      if s.closed then s else { s with sendWindow := int32 (s.sendWindow + delta) }
    peerSettings := { p.peerSettings with initialWindowSize := value } }

def shiftFits (p : Proto) (value : ℕ) : Bool :=
  let delta : Int := value - p.peerSettings.initialWindowSize
  p.streams.all fun s =>
    s.closed || (decide (-(2 ^ 31) ≤ s.sendWindow + delta) && decide (s.sendWindow + delta ≤ maxWindow))

/-- One setting of `proto_apply_peer_settings`, with the error it raises. -/
def applyPeerSetting (p : Proto) (id value : ℕ) : Proto × ℕ :=
  let peer := p.peerSettings
  if id = settingHeaderTableSize then
    ({ p with peerSettings := { peer with headerTableSize := value } }, errNoError)
  else if id = settingEnablePush then
    if p.mode = .client ∨ 1 < value then (p, errProtocolError)
    else ({ p with peerSettings := { peer with enablePush := value } }, errNoError)
  else if id = settingEnableConnectProtocol then
    if 1 < value ∨ (peer.enableConnectProtocol = 1 ∧ value = 0) then (p, errProtocolError)
    else ({ p with peerSettings := { peer with enableConnectProtocol := value } }, errNoError)
  else if id = settingMaxConcurrentStreams then
    ({ p with peerSettings := { peer with maxConcurrentStreams := value } }, errNoError)
  else if id = settingInitialWindowSize then
    if 0x7fffffff < value then (p, errFlowControlError)
    else if shiftFits p value then (shiftWindows p value, errNoError)
    else (p, errFlowControlError)
  else if id = settingMaxFrameSize then
    if value < defaultFrameBytes ∨ maxFrameBytes < value then (p, errProtocolError)
    else ({ p with peerSettings := { peer with maxFrameSize := value } }, errNoError)
  else if id = settingMaxHeaderListSize then
    ({ p with peerSettings := { peer with maxHeaderListSize := value } }, errNoError)
  else (p, errNoError)

/-- `proto_apply_peer_settings`: settings before a bad one stay applied. -/
def applyPeerSettings : Proto → List (ℕ × ℕ) → Proto × ℕ
  | p, [] => (p, errNoError)
  | p, (id, value) :: rest =>
      match applyPeerSetting p id value with
      | (p, error) => if error ≠ errNoError then (p, error) else applyPeerSettings p rest

def dispatchSettings (host : Host σ) (st : St σ) (hdr : FrameHeader) (payload : Bytes) : St σ :=
  if hdr.streamId ≠ 0 then protoFail st errProtocolError
  else if hasFlag hdr.flags flagAck then
    if hdr.length ≠ 0 then protoFail st errFrameSizeError
    else (callback host (st.setP { st.p with settingsAcked := true }) .settingsAck).1
  else
    match frameSettingsParse payload st.p.config.maxSettingsCount with
    | none => protoFail st errProtocolError
    | some values =>
        let st := st.record (.settingsIn values)
        match applyPeerSettings st.p values with
        | (p, error) =>
            let st := st.setP p
            if error ≠ errNoError then protoFail st error
            else
              let st := st.setP { st.p with peerSettingsReceived := true }
              let st := (callback host st (.settings values)).1
              match outFrame st ⟨.settings, flagAck, 0, []⟩ with
              | (st, false) => protoFail st errProtocolError
              | (st, true) => st

/-! ## Single frames -/

/-- A WINDOW_UPDATE that the engine takes: a known open stream, or the connection, whose
window stays within bounds. -/
def windowAccepted (p : Proto) (streamId increment : ℕ) : Bool :=
  decide (increment ≠ 0) &&
    if streamId = 0 then decide (p.connSendWindow ≤ maxWindow - increment)
    else
      match p.findOpen streamId with
      | none => false
      | some slot => decide ((p.stream slot).sendWindow ≤ maxWindow - increment)

def dispatchWindowUpdate (host : Host σ) (st : St σ) (hdr : FrameHeader) (payload : Bytes) : St σ :=
  if hdr.length ≠ 4 then protoFail st errFrameSizeError
  else
    let inc := readU32 payload % 2 ^ 31
    let st := st.record (.windowIn hdr.streamId inc (windowAccepted st.p hdr.streamId inc))
    let notify (st : St σ) : St σ :=
      (callback host (callback host st (.windowUpdate hdr.streamId inc)).1 .wakeWrite).1
    if inc = 0 then protoFail st errFlowControlError
    else if hdr.streamId = 0 then
      if maxWindow - inc < st.p.connSendWindow then protoFail st errFlowControlError
      else notify (st.setP { st.p with connSendWindow := int32 (st.p.connSendWindow + inc) })
    else
      match st.p.find hdr.streamId with
      | none =>
          if st.p.localResetContains hdr.streamId then st else protoFail st errProtocolError
      | some slot =>
          let s := st.p.stream slot
          if s.closed then st
          else if maxWindow - inc < s.sendWindow then protoFail st errFlowControlError
          else
            notify (st.setP (st.p.modifyStream slot fun s =>
              { s with sendWindow := int32 (s.sendWindow + inc) }))

def Stream.dropOutput (s : Stream) : Stream :=
  { s with closed := true, body := none, bodyOff := 0, trailersPending := false
           trailers := if s.trailersPending then [] else s.trailers }

def dispatchRstStream (host : Host σ) (st : St σ) (hdr : FrameHeader) (payload : Bytes) : St σ :=
  if hdr.streamId = 0 then protoFail st errProtocolError
  else if hdr.length ≠ 4 then protoFail st errFrameSizeError
  else
    match st.p.find hdr.streamId with
    | none =>
        if st.p.localResetContains hdr.streamId then
          st.setP (st.p.localResetForget hdr.streamId)
        else protoFail st errProtocolError
    | some slot =>
        let st :=
          if (st.p.stream slot).closed then st
          else
            (callback host (st.setP (st.p.modifyStream slot Stream.dropOutput))
              (.streamClose hdr.streamId (readU32 payload))).1
        let p := st.p.modifyStream slot fun s => { s with localReset := false }
        (callback host (st.setP (p.localResetForget hdr.streamId))
          (.rstReceived hdr.streamId (readU32 payload))).1

def dispatchGoaway (host : Host σ) (st : St σ) (hdr : FrameHeader) (payload : Bytes) : St σ :=
  if hdr.streamId ≠ 0 ∨ hdr.length < 8 then protoFail st errProtocolError
  else
    let (last, error) := frameGoawayParse payload
    let st := st.setP { st.p with
      goawayReceivedLast := some last, goawayReceivedError := error, draining := true }
    let st := (callback host st (.goaway last error)).1
    forSlots (fun slot st =>
      let s := st.p.stream slot
      if ¬ s.closed ∧ ¬ st.p.peerInitiated s.id ∧ last < s.id then
        (callback host (st.setP (st.p.modifyStream slot Stream.dropOutput))
          (.streamClose s.id errRefusedStream)).1
      else st) st.p.config.streamCapacity 0 st

def dispatchPing (host : Host σ) (st : St σ) (hdr : FrameHeader) (payload : Bytes) : St σ :=
  if hdr.streamId ≠ 0 ∨ hdr.length ≠ 8 then protoFail st errProtocolError
  else if hasFlag hdr.flags flagAck then (callback host st (.pingAck payload)).1
  else
    match outFrame st ⟨.ping, flagAck, 0, payload⟩ with
    | (st, false) => protoFail st errProtocolError
    | (st, true) => st

/-! ## DATA -/

def dataConnAccepted (p : Proto) (hdr : FrameHeader) (payload : Bytes) : Bool :=
  decide (hdr.streamId ≠ 0) && (frameDataPayload payload hdr.flags).isSome &&
    decide ((hdr.length : Int) ≤ p.connRecvWindow)

def dataStreamAccepted (p : Proto) (hdr : FrameHeader) (payload : Bytes) : Bool :=
  dataConnAccepted p hdr payload &&
    match p.find hdr.streamId with
    | none => false
    | some slot =>
        let s := p.stream slot
        !s.closed && !s.remoteEndStream && !s.localReset &&
          decide ((hdr.length : Int) ≤ s.recvWindow)

def finishData (host : Host σ) (st : St σ) (slot : ℕ) (hdr : FrameHeader) (status : Int) : St σ :=
  let endStream := hasFlag hdr.flags flagEndStream
  if status = 1 then
    st.setP { st.p with
      inputPaused := true, inputPausedStream := hdr.streamId, inputPausedEndStream := endStream }
  else if status ≠ 0 then protoFail st errInternalError
  else if endStream then
    let st :=
      if (st.p.stream slot).localReset then
        st.setP ((st.p.modifyStream slot fun s => { s with localReset := false }).localResetForget
          hdr.streamId)
      else st
    maybeClose host st slot
  else st

def drainConnection (st : St σ) (length : ℕ) : St σ × Bool :=
  if length ≠ 0 then consumeConnection st length else (st, true)

def creditHidden (st : St σ) (streamId hidden : ℕ) : St σ × Bool :=
  if hidden = 0 then (st, true)
  else
    match consumeStream st streamId hidden with
    | (st, false) => (st, false)
    | (st, true) => consumeConnection st hidden

def dataOnStream (host : Host σ) (st : St σ) (slot : ℕ) (hdr : FrameHeader) (data : Bytes) :
    St σ :=
  let s := st.p.stream slot
  let endStream := hasFlag hdr.flags flagEndStream
  if ¬ s.localReset ∧ (s.closed ∨ s.remoteEndStream) then protoFail st errStreamClosed
  else if s.localReset then
    match drainConnection st hdr.length with
    | (st, false) => protoFail st errInternalError
    | (st, true) =>
        if endStream then
          st.setP ((st.p.modifyStream slot fun s =>
            { s with remoteEndStream := true, localReset := false }).localResetForget hdr.streamId)
        else st
  else if s.recvWindow < hdr.length then protoFail st errFlowControlError
  else
    let st := st.setP (st.p.modifyStream slot fun s =>
      { s with recvWindow := int32 (s.recvWindow - hdr.length) })
    match creditHidden st hdr.streamId (hdr.length - data.length) with
    | (st, false) => protoFail st errInternalError
    | (st, true) =>
        let st :=
          if endStream then
            st.setP (st.p.modifyStream slot fun s => { s with remoteEndStream := true })
          else st
        match callback host st (.data hdr.streamId data) with
        | (st, status) => finishData host st slot hdr status

def dispatchData (host : Host σ) (st : St σ) (hdr : FrameHeader) (payload : Bytes) : St σ :=
  let st := st.record (.dataIn hdr.streamId hdr.length (dataConnAccepted st.p hdr payload)
    (dataStreamAccepted st.p hdr payload))
  if hdr.streamId = 0 then protoFail st errProtocolError
  else
    match frameDataPayload payload hdr.flags with
    | none => protoFail st errProtocolError
    | some data =>
        if st.p.connRecvWindow < hdr.length then protoFail st errFlowControlError
        else
          let slot := st.p.find hdr.streamId
          let reset := st.p.localResetContains hdr.streamId
          let st := st.setP { st.p with
            connRecvWindow := int32 (st.p.connRecvWindow - hdr.length) }
          match slot with
          | some slot => dataOnStream host st slot hdr data
          | none =>
              if ¬ reset then protoFail st errStreamClosed
              else
                match drainConnection st hdr.length with
                | (st, false) => protoFail st errInternalError
                | (st, true) =>
                    if hasFlag hdr.flags flagEndStream then
                      st.setP (st.p.localResetForget hdr.streamId)
                    else st

/-! ## Header blocks -/

/-- `chttp_h2_header_context`: the engine, and whether headers are ignored and a callback
failed. -/
structure HeaderContext (σ : Type*) where
  st : St σ
  ignore : Bool
  callbackFailed : Bool

def headerCallback (host : Host σ) (ctx : HeaderContext σ) (ev : Event) : HeaderContext σ :=
  if ctx.ignore then ctx
  else
    match callback host ctx.st ev with
    | (st, r) => if r ≠ 0 then ⟨st, true, true⟩ else ⟨st, ctx.ignore, ctx.callbackFailed⟩

/-- `chttp_h2_header_decode`. -/
def headerDecode (host : Host σ) (streamId : ℕ) (ctx : HeaderContext σ) (hd : Header) :
    HeaderContext σ × Int :=
  (headerCallback host ctx (.header streamId hd), 0)

/-- The block of `proto_finish_headers` through the HPACK decoder, with the stream error it
ends in. -/
def decodeBlock (host : Host σ) (ctx : HeaderContext σ) : HeaderContext σ × ℕ :=
  let p := ctx.st.p
  match Hpack.hpackDecode p.hpack (headerDecode host p.inHeadersStream)
      p.localSettings.maxHeaderListSize ctx p.inBlock.data with
  | (decoder, ctx, status, _) =>
      let st := ctx.st.setP { ctx.st.p with hpack := { ctx.st.p.hpack with decoder } }
      match status with
      | .ok => ({ ctx with st }, errNoError)
      | .tooLarge => ({ ctx with st }, errEnhanceYourCalm)
      | .aborted => ({ ctx with st := protoFail st errInternalError }, errNoError)
      | .error => ({ ctx with st := protoFail st errCompressionError }, errNoError)

def markRemoteEnd (st : St σ) (slot : Option ℕ) (initiallyIgnored : Bool) : St σ :=
  let id := st.p.inHeadersStream
  if st.p.inHeadersEndStream then
    match slot with
    | some slot =>
        let p := st.p.modifyStream slot fun s => { s with remoteEndStream := true }
        if (p.stream slot).localReset then
          st.setP ((p.modifyStream slot fun s => { s with localReset := false }).localResetForget id)
        else st.setP p
    | none => if initiallyIgnored then st.setP (st.p.localResetForget id) else st
  else st

def settleBlock (host : Host σ) (st : St σ) (slot : Option ℕ) (ignore callbackFailed : Bool)
    (error : ℕ) : St σ :=
  let id := st.p.inHeadersStream
  let endStream := st.p.inHeadersEndStream
  let error := if error = errNoError ∧ callbackFailed then errProtocolError else error
  let ended : St σ × ℕ :=
    if error = errNoError ∧ ¬ ignore then
      match callback host st (.endHeaders id endStream) with
      | (st, r) => (st, if r ≠ 0 then errProtocolError else errNoError)
    else (st, error)
  match ended with
  | (st, error) =>
      match slot with
      | none => st
      | some slot =>
          if st.p.failed ∨ (st.p.stream slot).closed then st
          else if error ≠ errNoError then
            match submitRstStream host st id error with
            | (st, false) => protoFail st errInternalError
            | (st, true) =>
                if endStream then
                  st.setP ((st.p.modifyStream slot fun s =>
                    { s with localReset := false }).localResetForget id)
                else st
          else maybeClose host st slot

/-- `proto_finish_headers`. -/
def finishHeaders (host : Host σ) (st : St σ) : St σ :=
  let id := st.p.inHeadersStream
  let slot := st.p.find id
  let closedReset := match slot with
    | some slot => (st.p.stream slot).closed && (st.p.stream slot).localReset
    | none => false
  let initiallyIgnored := closedReset || st.p.localResetContains id
  let ctx := headerCallback host ⟨st, initiallyIgnored, false⟩ (.beginHeaders id)
  match decodeBlock host ctx with
  | (ctx, error) =>
      let st := markRemoteEnd ctx.st slot initiallyIgnored
      let st :=
        if st.p.failed ∨ initiallyIgnored then st
        else settleBlock host st slot ctx.ignore ctx.callbackFailed error
      st.setP { st.p with inHeaders := false, inBlock := { st.p.inBlock with data := [] } }

/-- The stream of an inbound HEADERS frame, opened by a server when it is new; the second
component is the error that refuses it. -/
def headersStream (p : Proto) (streamId : ℕ) (reset : Bool) : Proto × Option ℕ × ℕ :=
  match p.mode, p.find streamId with
  | .server, none =>
      if reset then (p, none, errNoError)
      else if streamId % 2 = 0 ∨ streamId ≤ p.maxPeerStreamId then (p, none, errProtocolError)
      else if p.localSettings.maxConcurrentStreams ≤ p.activeStreams then
        (p, none, errEnhanceYourCalm)
      else
        match p.newStream streamId with
        | none => (p, none, errEnhanceYourCalm)
        | some (p, _) =>
            let p := { p with maxPeerStreamId := streamId }
            (p, p.find streamId, errNoError)
  | _, slot => (p, slot, errNoError)

def appendBlock (host : Host σ) (st : St σ) (flags : UInt8) (bytes : Bytes) : St σ :=
  if st.p.inBlock.reserve bytes.length then
    let st := st.setP { st.p with inBlock := st.p.inBlock.append bytes }
    if hasFlag flags flagEndHeaders then finishHeaders host st else st
  else protoFail st errProtocolError

def dispatchHeaders (host : Host σ) (st : St σ) (hdr : FrameHeader) (payload : Bytes) : St σ :=
  if hdr.streamId = 0 ∨ st.p.inHeaders then protoFail st errProtocolError
  else
    match frameHeadersPayload payload hdr.flags with
    | none => protoFail st errProtocolError
    | some block =>
        let reset := st.p.localResetContains hdr.streamId
        match headersStream st.p hdr.streamId reset with
        | (p, slot, error) =>
            let st := st.setP p
            if error ≠ errNoError then protoFail st error
            else
              let refused : Bool := match slot with
                | none => true
                | some slot =>
                    let s := st.p.stream slot
                    !s.localReset && (s.closed || s.remoteEndStream)
              if ¬ reset ∧ refused then protoFail st errStreamClosed
              else
                let st := st.setP { st.p with
                  inHeaders := true, inHeadersStream := hdr.streamId
                  inHeadersEndStream := hasFlag hdr.flags flagEndStream
                  inBlock := { st.p.inBlock with data := [] } }
                appendBlock host st hdr.flags block

def dispatchContinuation (host : Host σ) (st : St σ) (hdr : FrameHeader) (payload : Bytes) :
    St σ :=
  if hdr.streamId = 0 ∨ ¬ st.p.inHeaders ∨ hdr.streamId ≠ st.p.inHeadersStream then
    protoFail st errProtocolError
  else appendBlock host st hdr.flags payload

/-! ## Dispatch and the receive loop -/

/-- `proto_dispatch`. -/
def dispatch (host : Host σ) (st : St σ) (hdr : FrameHeader) (payload : Bytes) : St σ :=
  if st.p.inHeaders ∧ hdr.type ≠ .continuation then protoFail st errProtocolError
  else if ¬ st.p.peerSettingsReceived ∧
      (hdr.type ≠ .settings ∨ hasFlag hdr.flags flagAck) then protoFail st errProtocolError
  else
    match hdr.type with
    | .settings => dispatchSettings host st hdr payload
    | .windowUpdate => dispatchWindowUpdate host st hdr payload
    | .rstStream => dispatchRstStream host st hdr payload
    | .goaway => dispatchGoaway host st hdr payload
    | .ping => dispatchPing host st hdr payload
    | .data => dispatchData host st hdr payload
    | .headers => dispatchHeaders host st hdr payload
    | .continuation => dispatchContinuation host st hdr payload
    | .priority =>
        if hdr.streamId = 0 then protoFail st errProtocolError
        else if hdr.length ≠ priorityBytes then protoFail st errFrameSizeError
        else st
    | .pushPromise => protoFail st errProtocolError
    | .unknown _ => st

structure Endpoint (σ : Type*) where
  st : St σ
  inbuf : Buffer

/-- The loop of `chttp_h2_proto_recv`. A frame takes at least nine bytes off the input, so
its length bounds the rounds. -/
def recvLoop (host : Host σ) : ℕ → St σ → Bytes → St σ × Bytes
  | 0, st, input => (st, input)
  | fuel + 1, st, input =>
      if st.p.failed ∨ st.p.inputPaused then (st, input)
      else
        match parseFrame st.p.localSettings.maxFrameSize input with
        | .wait => (st, input)
        | .bad => (protoFail st errProtocolError, input)
        | .frame hdr payload rest => recvLoop host fuel (dispatch host st hdr payload) rest

def recvFrames (host : Host σ) (st : St σ) (inbuf : Buffer) (input : Bytes) : Endpoint σ × Bool :=
  match recvLoop host (input.length + 1) st input with
  | (st, rest) => (⟨st, { inbuf with data := rest }⟩, !st.p.failed)

def recvPreface (host : Host σ) (ep : Endpoint σ) : Endpoint σ × Bool :=
  let avail := ep.inbuf.data.take prefaceLen
  if avail ≠ preface.take avail.length then
    (⟨protoFail ep.st errProtocolError, ep.inbuf⟩, false)
  else if avail.length < prefaceLen then (ep, true)
  else
    match ensurePreface (ep.st.setP { ep.st.p with serverPrefaceSeen := true }) with
    | (st, false) => (⟨protoFail st errInternalError, ep.inbuf⟩, false)
    | (st, true) => recvFrames host st ep.inbuf (ep.inbuf.data.drop prefaceLen)

/-- `chttp_h2_proto_recv` after the input was stored. -/
def process (host : Host σ) (ep : Endpoint σ) : Endpoint σ × Bool :=
  if ep.st.p.inputPaused then (ep, true)
  else if ep.st.p.mode = .server ∧ ¬ ep.st.p.serverPrefaceSeen then recvPreface host ep
  else recvFrames host ep.st ep.inbuf ep.inbuf.data

/-- `chttp_h2_proto_recv`; the flag is a result that is not negative. -/
def recv (host : Host σ) (ep : Endpoint σ) (bytes : Bytes) : Endpoint σ × Bool :=
  if ep.inbuf.reserve bytes.length then
    process host { ep with inbuf := ep.inbuf.append bytes }
  else (ep, false)

/-- `chttp_h2_proto_resume_input` up to its `recv`: the pause is lifted, and a stream that
ended meanwhile may close. -/
def unpause (host : Host σ) (st : St σ) (streamId : ℕ) : St σ :=
  let slot := st.p.find streamId
  let endStream := st.p.inputPausedEndStream
  let st := st.setP { st.p with
    inputPaused := false, inputPausedStream := 0, inputPausedEndStream := false }
  match slot with
  | some slot => if endStream then maybeClose host st slot else st
  | none => st

/-- `chttp_h2_proto_resume_input`. -/
def resumeInput (host : Host σ) (ep : Endpoint σ) (streamId : ℕ) : Endpoint σ × Bool :=
  if streamId = 0 ∨ ¬ ep.st.p.inputPaused ∨ ep.st.p.inputPausedStream ≠ streamId then (ep, false)
  else
    let st := unpause host ep.st streamId
    if st.p.failed then (⟨st, ep.inbuf⟩, false) else recv host ⟨st, ep.inbuf⟩ []

end Chttp.H2
