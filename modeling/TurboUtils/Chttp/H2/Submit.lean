import TurboUtils.Chttp.H2.Proto

/-! The output side of the engine: frames, the preface, header blocks and failure. Every
function returns the engine and whether the source's function returned 0. -/
namespace Chttp.H2

open Chttp.Hpack (Header)

variable {σ : Type*}

def push (st : St σ) (i : Item) (bs : Bytes) : St σ :=
  (st.record i).setP { st.p with out := st.p.out.append bs }

/-- `out_frame`. -/
def outFrame (st : St σ) (f : Frame) : St σ × Bool :=
  if frameHeaderFits f.payload.length f.streamId ∧
      st.p.out.reserve (frameHeaderSize + f.payload.length) then
    (push st (.out f) f.bytes, true)
  else (st, false)

/-- The values `chttp_h2_proto_submit_settings` advertises, in order. -/
def settingsValues (p : Proto) : List (ℕ × ℕ) :=
  (match p.mode with
    | .client => [(settingEnablePush, p.localSettings.enablePush)]
    | .server => []) ++
  [(settingMaxConcurrentStreams, p.localSettings.maxConcurrentStreams),
    (settingHeaderTableSize, p.localSettings.headerTableSize),
    (settingInitialWindowSize, p.localSettings.initialWindowSize),
    (settingMaxFrameSize, p.localSettings.maxFrameSize),
    (settingMaxHeaderListSize, p.localSettings.maxHeaderListSize)] ++
  if p.localSettings.enableConnectProtocol ≠ 0 then [(settingEnableConnectProtocol, 1)] else []

/-- `chttp_h2_proto_submit_settings`. -/
def submitSettings (st : St σ) : St σ × Bool :=
  match outFrame st ⟨.settings, 0, 0, settingsBytes (settingsValues st.p)⟩ with
  | (st, false) => (st, false)
  | (st, true) => (st.setP { st.p with settingsSent := true }, true)

/-- `proto_ensure_preface`. -/
def ensurePreface (st : St σ) : St σ × Bool :=
  match st.p.mode with
  | .client =>
      if st.p.clientPrefaceDone then (st, true)
      else if st.p.out.reserve (prefaceLen + frameHeaderSize + 42) then
        let st := push st .preface preface
        submitSettings (st.setP { st.p with clientPrefaceDone := true })
      else (st, false)
  | .server =>
      if st.p.serverPrefaceSeen && !st.p.settingsSent then submitSettings st else (st, true)

/-- `chttp_h2_proto_submit_goaway`. -/
def submitGoaway (st : St σ) (lastStreamId errorCode : ℕ) : St σ × Bool :=
  if 0x7fffffff < lastStreamId then (st, false)
  else
    match ensurePreface st with
    | (st, false) => (st, false)
    | (st, true) =>
        match outFrame st ⟨.goaway, 0, 0, goawayBytes lastStreamId errorCode⟩ with
        | (st, false) => (st, false)
        | (st, true) => (st.setP { st.p with goawaySent := true, draining := true }, true)

/-- `proto_fail`: only the first failure counts and is announced. -/
def protoFail (st : St σ) (error : ℕ) : St σ :=
  if st.p.failed then st
  else
    let st := st.setP { st.p with failed := true, lastError := error }
    (submitGoaway st st.p.lastProcStreamId error).1

/-! ## Header blocks -/

/-- `CHTTP_H2_PROTO_HPACK_FIELD_OVERHEAD_BYTES`. -/
def hpackFieldOverhead : ℕ := 15

/-- `CHTTP_H2_PROTO_HPACK_PENDING_UPDATE_BYTES`. -/
def hpackPendingUpdateBytes : ℕ := 12

/-- `CHTTP_H2_HEADER_LIST_FIELD_OVERHEAD`. -/
def headerListFieldOverhead : ℕ := 32

/-- `CHTTP_H2_PRIORITY_BYTES`. -/
def priorityBytes : ℕ := 5

/-- The loop of `proto_header_bounds`: the encoded and the header list size. -/
def headerSizes (maxString : ℕ) : List Header → ℕ → ℕ → Option (ℕ × ℕ)
  | [], encoded, headerList => some (encoded, headerList)
  | hd :: hdrs, encoded, headerList =>
      if maxString < hd.name.length ∨ maxString < hd.value.length ∨
          sizeMax - hd.value.length < hd.name.length then none
      else
        let field := hd.name.length + hd.value.length
        if sizeMax - hpackFieldOverhead < field ∨
            sizeMax - (field + hpackFieldOverhead) < encoded then none
        else if sizeMax - headerListFieldOverhead < field ∨
            sizeMax - (field + headerListFieldOverhead) < headerList then none
        else
          headerSizes maxString hdrs (encoded + (field + hpackFieldOverhead))
            (headerList + (field + headerListFieldOverhead))

/-- `proto_header_bounds`: bounds on the encoded block and on its frames. -/
def headerBounds (p : Proto) (hdrs : List Header) (hasPriority : Bool) : Option (ℕ × ℕ) :=
  match headerSizes p.config.maxHpackStringBytes hdrs hpackPendingUpdateBytes 0 with
  | none => none
  | some (encoded, headerList) =>
      if p.config.headerBlockBytes < encoded ∨ p.peerSettings.maxHeaderListSize < headerList then
        none
      else
        let extra := if hasPriority then priorityBytes else 0
        if sizeMax - extra < encoded then none
        else
          let payload := encoded + extra
          let frameCount :=
            if payload = 0 then 1 else 1 + (payload - 1) / p.peerSettings.maxFrameSize
          if sizeMax / frameHeaderSize < frameCount ∨
              sizeMax - frameCount * frameHeaderSize < payload then none
          else some (encoded, payload + frameCount * frameHeaderSize)

def blockFlags (endStream endHeaders hasPriority : Bool) : UInt8 :=
  (if endStream then flagEndStream else 0) ||| (if endHeaders then flagEndHeaders else 0) |||
    (if hasPriority then flagPriority else 0)

/-- The frame `out_headers` makes of the bytes of a block that are left. -/
def blockFrame (streamId limit : ℕ) (endStream hasPriority first : Bool) (rest : Bytes) : Frame :=
  let chunk := rest.take limit
  ⟨if first then .headers else .continuation,
    blockFlags (first && endStream) (decide (rest.length ≤ limit)) (first && hasPriority),
    streamId, chunk⟩

/-- The loop of `out_headers` that cuts a block into frames. -/
def blockLoop (streamId : ℕ) (endStream hasPriority : Bool) :
    ℕ → Bool → Bytes → St σ → St σ × Bool
  | 0, _, _, st => (st, true)
  | fuel + 1, first, rest, st =>
      let limit := st.p.peerSettings.maxFrameSize
      match outFrame st (blockFrame streamId limit endStream hasPriority first rest) with
      | (st, false) => (protoFail st errInternalError, false)
      | (st, true) =>
          if rest.length ≤ limit then (st, true)
          else blockLoop streamId endStream hasPriority fuel false (rest.drop limit) st

/-- The priority of a request: weight, dependency and the exclusive flag. -/
structure Priority where
  weight : ℕ
  dep : Int
  exclusive : Bool

def priorityPrefix (p : Proto) (block : Bytes) : Option Priority → Option Bytes
  | none => some []
  | some pr =>
      if (⟨block, p.config.headerBlockBytes⟩ : Buffer).reserve priorityBytes then
        framePriorityEncode pr.exclusive pr.dep pr.weight
      else none

/-- `out_headers`. A refused priority leaves the encoder past the block. -/
def outHeaders (st : St σ) (streamId : ℕ) (hdrs : List Header) (endStream : Bool)
    (priority : Option Priority) : St σ × Bool :=
  match headerBounds st.p hdrs priority.isSome with
  | none => (st, false)
  | some (encodedBound, wireBound) =>
      if st.p.out.reserve wireBound then
        match Buffer.init (min encodedBound 256) st.p.config.headerBlockBytes with
        | none => (st, false)
        | some blk =>
            match Hpack.hpackEncode st.p.hpack blk hdrs with
            | (hpack, none) => (protoFail (st.setP { st.p with hpack }) errInternalError, false)
            | (hpack, some blk) =>
                let st := st.setP { st.p with hpack }
                match priorityPrefix st.p blk.data priority with
                | none => (st, false)
                | some pre =>
                    let block := pre ++ blk.data
                    blockLoop streamId endStream priority.isSome (block.length + 1) true block st
      else (st, false)

/-! The calls of the engine that queue output or return flow-control credit. -/

variable {σ : Type*}

/-! ## Callbacks, closing and the loops over the slots -/

def callback (host : Host σ) (st : St σ) (ev : Event) : St σ × Int :=
  host.notify ev (st.record (.callback ev))

/-- `proto_maybe_close`. -/
def maybeClose (host : Host σ) (st : St σ) (slot : ℕ) : St σ :=
  let s := st.p.stream slot
  if s.closed then st
  else if s.endStreamSent && s.remoteEndStream then
    let st := st.setP (st.p.modifyStream slot fun s =>
      { s with closed := true, body := none, bodyOff := 0 })
    (callback host st (.streamClose s.id 0)).1
  else st

/-- A `for` loop over the stream table, whose length is read again in every round. -/
def forSlots (f : ℕ → St σ → St σ) : ℕ → ℕ → St σ → St σ
  | 0, _, st => st
  | fuel + 1, slot, st =>
      if slot < st.p.streams.length then forSlots f fuel (slot + 1) (f slot st) else st

/-! ## Control frames -/

/-- `chttp_h2_proto_submit_ping` with the eight opaque bytes. -/
def submitPing (st : St σ) (opaqueBytes : Bytes) : St σ × Bool :=
  if opaqueBytes.length ≠ 8 then (st, false)
  else
    match ensurePreface st with
    | (st, false) => (st, false)
    | (st, true) => outFrame st ⟨.ping, 0, 0, opaqueBytes⟩

/-- The receive credit `submit_window_update` adds before it queues the frame. -/
def addCredit (p : Proto) (streamId increment : ℕ) : Option Proto :=
  if streamId = 0 then
    if maxWindow - increment < p.connRecvWindow then none
    else some { p with connRecvWindow := int32 (p.connRecvWindow + increment) }
  else
    match p.find streamId with
    | none => none
    | some slot =>
        let s := p.stream slot
        if s.closed then none
        else if maxWindow - increment < s.recvWindow then none
        else
          some (p.modifyStream slot fun s =>
            { s with recvWindow := int32 (s.recvWindow + increment) })

/-- `chttp_h2_proto_submit_window_update`. -/
def submitWindowUpdate (st : St σ) (streamId increment : ℕ) : St σ × Bool :=
  match ensurePreface (st.record (.creditStart streamId increment)) with
  | (st, false) => (st, false)
  | (st, true) =>
      if increment = 0 ∨ 0x7fffffff < increment then (st, false)
      else
        match addCredit st.p streamId increment with
        | none => (st, false)
        | some p => outFrame (st.setP p) ⟨.windowUpdate, 0, streamId, u32Bytes increment⟩

/-- `chttp_h2_proto_submit_rst_stream`. -/
def submitRstStream (host : Host σ) (st : St σ) (streamId errorCode : ℕ) : St σ × Bool :=
  if streamId = 0 then (st, false)
  else
    match ensurePreface st with
    | (st, false) => (st, false)
    | (st, true) =>
        match st.p.find streamId with
        | none => (st, false)
        | some slot =>
            if (st.p.stream slot).closed then (st, false)
            else
              match outFrame st ⟨.rstStream, 0, streamId, u32Bytes errorCode⟩ with
              | (st, false) => (st, false)
              | (st, true) =>
                  let p := st.p.modifyStream slot fun s =>
                    { s with closed := true, localReset := true, body := none, bodyOff := 0,
                             trailersPending := false
                             trailers := if s.trailersPending then [] else s.trailers }
                  let st := st.setP (p.localResetRecord streamId)
                  ((callback host st (.streamClose streamId errorCode)).1, true)

/-! ## Requests and responses -/

def setBody (p : Proto) (slot : ℕ) (body : Option Bytes) (source : Option ℕ) : Proto :=
  match source, body with
  | some src, _ => p.modifyStream slot fun s => { s with source := some src }
  | none, some b =>
      if b.length = 0 then p
      else p.modifyStream slot fun s => { s with body := some b, bodyOff := 0, bodyEof := true }
  | none, none => p

def bodyLen (body : Option Bytes) : ℕ := (body.map List.length).getD 0

/-- A new stream with its HEADERS, as both request calls open it. On failure the stream is
dropped. -/
def openRequest (st : St σ) (hdrs : List Header) (endStream : Bool) (priority : Option Priority) :
    St σ × Option (ℕ × ℕ) :=
  let id := st.p.nextStreamId
  let st := st.setP { st.p with nextStreamId := id + 2 }
  match st.p.newStream id with
  | none => (st, none)
  | some (p, slot) =>
      let st := st.setP (p.modifyStream slot fun s => { s with endStreamSent := endStream })
      match outHeaders st id hdrs endStream priority with
      | (st, false) =>
          (st.setP (st.p.modifyStream slot fun s =>
            { s with closed := true, body := none, source := none }), none)
      | (st, true) => (st, some (id, slot))

def mayOpen (p : Proto) : Bool :=
  decide (p.mode = .client) && !p.draining && !p.failed &&
    decide (p.activeLocalStreams < p.peerSettings.maxConcurrentStreams)

/-- `chttp_h2_proto_submit_request_ex`; the result is `out_stream_id`. -/
def submitRequestEx (st : St σ) (hdrs : List Header) (body : Option Bytes) (source : Option ℕ)
    (weight : ℕ) (dep : Int) (exclusive : Bool) : St σ × Option ℕ :=
  if ¬ mayOpen st.p ∨ (body.isSome ∧ source.isSome) ∨ 256 < weight then (st, none)
  else
    let hasPriority := decide (weight ≠ 0) || decide (0 < dep) || exclusive
    let id := st.p.nextStreamId
    if 0x7ffffffe < id ∨ dep = id then (st, none)
    else
      match ensurePreface st with
      | (st, false) => (st, none)
      | (st, true) =>
          let endStream := source.isNone && decide (bodyLen body = 0)
          let priority := if hasPriority then
            some ⟨if weight ≠ 0 then weight else 16, dep, exclusive⟩ else none
          match openRequest st hdrs endStream priority with
          | (st, none) => (st, none)
          | (st, some (id, slot)) => (st.setP (setBody st.p slot body source), some id)

/-- `chttp_h2_proto_submit_request_headers`. -/
def submitRequestHeaders (st : St σ) (hdrs : List Header) (endStream : Bool) : St σ × Option ℕ :=
  if ¬ mayOpen st.p ∨ 0x7ffffffe < st.p.nextStreamId then (st, none)
  else
    match ensurePreface st with
    | (st, false) => (st, none)
    | (st, true) =>
        let r := openRequest st hdrs endStream none
        (r.1, r.2.map Prod.fst)

def Proto.findOpen (p : Proto) (streamId : ℕ) : Option ℕ :=
  match p.find streamId with
  | none => none
  | some slot => if (p.stream slot).closed then none else some slot

/-- `chttp_h2_proto_submit_headers`. -/
def submitHeaders (host : Host σ) (st : St σ) (streamId : ℕ) (hdrs : List Header)
    (endStream : Bool) : St σ × Bool :=
  if st.p.mode ≠ .server then (st, false)
  else
    match st.p.findOpen streamId with
    | none => (st, false)
    | some slot =>
        match ensurePreface st with
        | (st, false) => (st, false)
        | (st, true) =>
            match outHeaders st streamId hdrs endStream none with
            | (st, false) => (st, false)
            | (st, true) =>
                if endStream then
                  let st := st.setP (st.p.modifyStream slot fun s => { s with endStreamSent := true })
                  (maybeClose host st slot, true)
                else (st, true)

/-- `chttp_h2_proto_submit_response_ex`. -/
def submitResponseEx (host : Host σ) (st : St σ) (streamId : ℕ) (hdrs : List Header)
    (body : Option Bytes) (source : Option ℕ) : St σ × Bool :=
  if st.p.mode ≠ .server ∨ (body.isSome ∧ source.isSome) then (st, false)
  else
    match st.p.findOpen streamId with
    | none => (st, false)
    | some slot =>
        match ensurePreface st with
        | (st, false) => (st, false)
        | (st, true) =>
            let endStream := decide (bodyLen body = 0) && source.isNone
            let st := st.setP (st.p.modifyStream slot fun s => { s with endStreamSent := endStream })
            match outHeaders st streamId hdrs endStream none with
            | (st, false) => (st, false)
            | (st, true) =>
                if endStream then (maybeClose host st slot, true)
                else (st.setP (setBody st.p slot body source), true)

/-- `chttp_h2_proto_submit_data`. -/
def submitData (st : St σ) (streamId : ℕ) (data : Bytes) (endStream : Bool) : St σ × Bool :=
  if data.length = 0 ∧ ¬ endStream then (st, false)
  else
    match st.p.findOpen streamId with
    | none => (st, false)
    | some slot =>
        let s := st.p.stream slot
        if s.body.isSome ∨ s.source.isSome ∨ s.endStreamSent then (st, false)
        else
          match ensurePreface st with
          | (st, false) => (st, false)
          | (st, true) =>
              (st.setP (st.p.modifyStream slot fun s =>
                { s with body := some data, bodyOff := 0, bodyEof := endStream }), true)

def Stream.bodyPending (s : Stream) : Bool :=
  match s.body with
  | none => false
  | some b => decide (s.bodyOff < b.length) || s.bodyEof

/-- `chttp_h2_proto_submit_trailers`: behind a body the block is encoded now and sent later. -/
def submitTrailers (host : Host σ) (st : St σ) (streamId : ℕ) (hdrs : List Header) :
    St σ × Bool :=
  if st.p.mode ≠ .server then (st, false)
  else
    match st.p.findOpen streamId with
    | none => (st, false)
    | some slot =>
        match ensurePreface st with
        | (st, false) => (st, false)
        | (st, true) =>
            let s := st.p.stream slot
            if s.trailersPending then (st, false)
            else if s.bodyPending then
              match Buffer.init (min st.p.config.headerBlockBytes 64) st.p.config.headerBlockBytes with
              | none => (st, false)
              | some blk =>
                  match Hpack.hpackEncode st.p.hpack blk hdrs with
                  | (hpack, none) => (st.setP { st.p with hpack }, false)
                  | (hpack, some blk) =>
                      let st := st.setP { st.p with hpack }
                      (st.setP (st.p.modifyStream slot fun s =>
                        { s with trailers := blk.data, trailersPending := true }), true)
            else
              let st := st.setP (st.p.modifyStream slot fun s =>
                { s with endStreamSent := true, bodyEof := false })
              match outHeaders st streamId hdrs true none with
              | (st, false) => (st, false)
              | (st, true) => (maybeClose host st slot, true)

/-! ## Credit, sources and settings -/

/-- `chttp_h2_proto_consume_connection`: half a window is gathered before it is returned. -/
def consumeConnection (st : St σ) (bytes : ℕ) : St σ × Bool :=
  let st := st.record (.consumeStart bytes)
  if bytes = 0 ∨ 0x7fffffff < bytes then (st, false)
  else if maxWindow - bytes < st.p.connConsumed then (st, false)
  else
    let consumed := int32 (st.p.connConsumed + bytes)
    if 0 < consumed ∧ st.p.connLocalWindow / 2 ≤ consumed then
      submitWindowUpdate (st.setP { st.p with connConsumed := 0 }) 0 consumed.toNat
    else (st.setP { st.p with connConsumed := consumed }, true)

/-- `chttp_h2_proto_consume_stream`. -/
def consumeStream (st : St σ) (streamId bytes : ℕ) : St σ × Bool :=
  if bytes = 0 ∨ 0x7fffffff < bytes then (st, false)
  else
    match st.p.findOpen streamId with
    | none => (st, false)
    | some _ => submitWindowUpdate st streamId bytes

/-- `chttp_h2_proto_resume_source`. -/
def resumeSource (host : Host σ) (st : St σ) (streamId : ℕ) : St σ × Bool :=
  match st.p.findOpen streamId with
  | none => (st, false)
  | some slot =>
      let s := st.p.stream slot
      if s.source.isNone ∨ ¬ s.sourceWaiting ∨ s.sourceDone then (st, false)
      else
        let st := st.setP (st.p.modifyStream slot fun s => { s with sourceWaiting := false })
        ((callback host st .wakeWrite).1, true)

/-- `chttp_h2_proto_terminate`. -/
def terminate (host : Host σ) (st : St σ) (errorCode : ℕ) : St σ × Bool :=
  match submitGoaway st st.p.lastProcStreamId errorCode with
  | (st, false) => (st, false)
  | (st, true) =>
      (forSlots (fun slot st =>
        let s := st.p.stream slot
        if s.closed then st
        else
          let st := st.setP (st.p.modifyStream slot fun s =>
            { s with closed := true, body := none, bodyOff := 0 })
          (callback host st (.streamClose s.id errorCode)).1) st.p.config.streamCapacity 0 st, true)

/-- `chttp_h2_proto_set_local_settings`. -/
def setLocalSettings (st : St σ) (headerTableSize enablePush maxConcurrentStreams
    initialWindowSize maxFrameSize maxHeaderListSize : ℕ) : St σ × Bool :=
  let c := st.p.config
  if st.p.settingsSent ∨ c.hpackDynamicTableBytes < headerTableSize ∨ 1 < enablePush ∨
      maxConcurrentStreams = 0 ∨ c.streamCapacity < maxConcurrentStreams ∨
      0x7fffffff < initialWindowSize ∨ maxFrameSize < defaultFrameBytes ∨
      maxFrameBytes < maxFrameSize ∨ c.inputBufferBytes - frameHeaderSize < maxFrameSize ∨
      maxHeaderListSize = 0 ∨ c.maxHeaderListBytes < maxHeaderListSize then (st, false)
  else
    match Hpack.decoderSetMaxSize st.p.hpack headerTableSize with
    | (_, false) => (st, false)
    | (hpack, true) =>
        (st.setP { st.p with
          hpack
          localSettings := { st.p.localSettings with
            headerTableSize, enablePush, maxConcurrentStreams, initialWindowSize, maxFrameSize,
            maxHeaderListSize } }, true)

/-- The calls of the interface; `none` is -1 and `some` holds the id a request was given. -/
def callBody (host : Host σ) (st : St σ) : Call → St σ × Option ℕ
  | .submitRequestEx hdrs body source weight dep exclusive =>
      submitRequestEx st hdrs body source weight dep exclusive
  | .submitRequestHeaders hdrs endStream => submitRequestHeaders st hdrs endStream
  | .submitHeaders streamId hdrs endStream =>
      answer (submitHeaders host st streamId hdrs endStream)
  | .submitResponseEx streamId hdrs body source =>
      answer (submitResponseEx host st streamId hdrs body source)
  | .submitData streamId data endStream => answer (submitData st streamId data endStream)
  | .submitTrailers streamId hdrs => answer (submitTrailers host st streamId hdrs)
  | .submitSettings => answer (submitSettings st)
  | .submitPing opaqueBytes => answer (submitPing st opaqueBytes)
  | .submitWindowUpdate streamId increment => answer (submitWindowUpdate st streamId increment)
  | .submitRstStream streamId errorCode => answer (submitRstStream host st streamId errorCode)
  | .submitGoaway lastStreamId errorCode => answer (submitGoaway st lastStreamId errorCode)
  | .resumeSource streamId => answer (resumeSource host st streamId)
  | .consumeConnection bytes => answer (consumeConnection st bytes)
  | .consumeStream streamId bytes => answer (consumeStream st streamId bytes)
  | .terminate errorCode => answer (terminate host st errorCode)
  | .setSendChunk chunk => (st.setP { st.p with sendChunk := chunk }, some 0)
  | .setLocalSettings a b c d e f => answer (setLocalSettings st a b c d e f)
  | .setLocalEnableConnectProtocol enable =>
      (st.setP { st.p with localSettings :=
        { st.p.localSettings with enableConnectProtocol := if enable ≠ 0 then 1 else 0 } }, some 0)
where
  answer (r : St σ × Bool) : St σ × Option ℕ := (r.1, if r.2 then some 0 else none)

def call (host : Host σ) (st : St σ) (c : Call) : St σ × Option ℕ :=
  callBody host (st.record (.call c)) c

end Chttp.H2
