import TurboUtils.Chttp.H2.Submit

/-! The send path: DATA frames from flat bodies and from pulled sources, gated by the
flow-control windows. -/
namespace Chttp.H2

variable {σ : Type*}

/-- The payload bound of a DATA frame, capped by `send_chunk` and both windows. -/
def dataChunk (p : Proto) (s : Stream) (available : ℕ) : ℕ :=
  let chunk := if p.sendChunk ≠ 0 then min available p.sendChunk else available
  min (min chunk p.connSendWindow.toNat) s.sendWindow.toNat

/-- A DATA frame of `n` bytes is taken off both windows. -/
def chargeData (p : Proto) (slot n : ℕ) : Proto :=
  { p with connSendWindow := int32 (p.connSendWindow - n) }.modifyStream slot fun s =>
    { s with sendWindow := int32 (s.sendWindow - n) }

def dropSource (p : Proto) (slot : ℕ) : Proto :=
  p.modifyStream slot fun s => { s with source := none }

/-- One round of `proto_emit_data` with a source. The flag says whether the loop goes on. -/
def sourceRound (host : Host σ) (st : St σ) (slot source available : ℕ) : St σ × Bool :=
  let s := st.p.stream slot
  let chunk := dataChunk st.p s available
  if s.sourceDone ∨ chunk = 0 then (st, false)
  else if ¬ st.p.out.reserve (frameHeaderSize + chunk) then
    (protoFail st errInternalError, false)
  else
    let pulled := host.pull source chunk st.app
    let n := pulled.2.bytes.length
    let st := { st with app := pulled.1 }
    let abort := (protoFail (st.setP (dropSource st.p slot)) errInternalError, false)
    match pulled.2.status with
    | .wait =>
        if n ≠ 0 then abort
        else (st.setP (st.p.modifyStream slot fun s => { s with sourceWaiting := true }), false)
    | .error => ((submitRstStream host (st.setP (dropSource st.p slot)) s.id errCancel).1, false)
    | .data =>
        if n = 0 ∨ chunk < n then abort
        else if frameHeaderFits n s.id then
          let f : Frame := ⟨.data, 0, s.id, pulled.2.bytes⟩
          let st := push st (.out f) f.bytes
          (st.setP (chargeData st.p slot n), true)
        else (protoFail st errInternalError, false)
    | .eof =>
        if n ≠ 0 then abort
        else
          let st := st.setP (st.p.modifyStream slot fun s =>
            { s with source := none, sourceDone := true })
          if frameHeaderFits 0 s.id then
            let f : Frame := ⟨.data, flagEndStream, s.id, []⟩
            let st := push st (.out f) f.bytes
            let st := st.setP (st.p.modifyStream slot fun s => { s with endStreamSent := true })
            (maybeClose host st slot, false)
          else (protoFail st errInternalError, false)
    | .invalid => abort

def Stream.bodyEnded (s : Stream) : Stream :=
  { s with endStreamSent := true, body := none, bodyOff := 0, bodyEof := false }

def finishBody (st : St σ) (slot : ℕ) (endStream : Bool) : St σ × Bool :=
  let s := st.p.stream slot
  if s.bodyEof then
    if s.trailersPending then
      let st := st.setP (st.p.modifyStream slot fun s => { s with trailersPending := false })
      match outFrame st ⟨.headers, flagEndHeaders ||| flagEndStream, s.id, s.trailers⟩ with
      | (st, false) => (protoFail st errInternalError, false)
      | (st, true) =>
          (st.setP (st.p.modifyStream slot fun s => { s.bodyEnded with trailers := [] }), true)
    else if endStream then (st.setP (st.p.modifyStream slot Stream.bodyEnded), true)
    else
      (st.setP (st.p.modifyStream slot fun s =>
        { s with body := some [], bodyOff := 0, bodyEof := true, endStreamSent := false }), true)
  else
    (st.setP (st.p.modifyStream slot fun s => { s with body := none, bodyOff := 0 }), true)

/-- One round of `proto_emit_data` with a flat body. -/
def flatRound (host : Host σ) (st : St σ) (slot available : ℕ) : St σ × Bool :=
  let s := st.p.stream slot
  match s.body with
  | none => (st, false)
  | some body =>
      let chunk := dataChunk st.p s (min (body.length - s.bodyOff) available)
      if ¬ s.bodyPending ∨ chunk = 0 then (st, false)
      else
        let last := decide (s.bodyOff + chunk = body.length)
        let endStream := last && s.bodyEof && !s.trailersPending
        if st.p.out.reserve (frameHeaderSize + chunk) ∧ frameHeaderFits chunk s.id then
          let f : Frame := ⟨.data, if endStream then flagEndStream else 0, s.id,
            (body.drop s.bodyOff).take chunk⟩
          let st := push st (.out f) f.bytes
          let st := st.setP ((chargeData st.p slot chunk).modifyStream slot fun s =>
            { s with bodyOff := s.bodyOff + chunk })
          if last then
            match finishBody st slot endStream with
            | (st, false) => (st, false)
            | (st, true) => (maybeClose host st slot, true)
          else (maybeClose host st slot, true)
        else (protoFail st errInternalError, false)

def emptyRound (host : Host σ) (st : St σ) (slot remaining : ℕ) : St σ :=
  if remaining < frameHeaderSize then st
  else
    match outFrame st ⟨.data, flagEndStream, (st.p.stream slot).id, []⟩ with
    | (st, false) => protoFail st errInternalError
    | (st, true) =>
        maybeClose host (st.setP (st.p.modifyStream slot Stream.bodyEnded)) slot

/-- `proto_emit_data`. A round that does not stop puts at least ten bytes into the output,
so the size of the output buffer bounds the rounds. -/
def emitData (host : Host σ) (slot : ℕ) : ℕ → St σ → St σ
  | 0, st => st
  | fuel + 1, st =>
      let s := st.p.stream slot
      if s.closed then st
      else if st.p.config.outputBufferBytes < st.p.out.size then protoFail st errInternalError
      else
        let remaining := st.p.config.outputBufferBytes - st.p.out.size
        if s.source = none ∧ s.body = some [] ∧ s.bodyOff = 0 ∧ s.bodyEof then
          emptyRound host st slot remaining
        else if st.p.connSendWindow ≤ 0 ∨ s.sendWindow ≤ 0 ∨ remaining ≤ frameHeaderSize then st
        else
          let available := min st.p.peerSettings.maxFrameSize (remaining - frameHeaderSize)
          match match s.source with
            | some source => sourceRound host st slot source available
            | none => flatRound host st slot available with
          | (st, false) => st
          | (st, true) => emitData host slot fuel st

/-- `chttp_h2_proto_send`: the bytes handed to the transport, `none` for -1. -/
def protoSend (host : Host σ) (st : St σ) : St σ × Option Bytes :=
  match ensurePreface st with
  | (st, false) => (st, none)
  | (st, true) =>
      let st :=
        if st.p.failed then st
        else
          forSlots (fun slot st => emitData host slot (st.p.config.outputBufferBytes + 1) st)
            st.p.config.streamCapacity 0 st
      (st.setP { st.p with out := { st.p.out with data := [] } }, some st.p.out.data)

end Chttp.H2
