import TurboUtils.Chttp.Hpack.Buffer

/-! The HTTP/2 frame codec. A frame on the wire is nine header bytes and the payload. -/
namespace Chttp.H2

/-- `chttp_h2_frame_type`; other type bytes are kept as they are. -/
inductive FrameType where
  | data | headers | priority | rstStream | settings | pushPromise | ping | goaway
  | windowUpdate | continuation
  | unknown (code : UInt8)
  deriving DecidableEq, Repr

namespace FrameType

def code : FrameType → UInt8
  | data => 0
  | headers => 1
  | priority => 2
  | rstStream => 3
  | settings => 4
  | pushPromise => 5
  | ping => 6
  | goaway => 7
  | windowUpdate => 8
  | continuation => 9
  | unknown c => c

def ofCode (c : UInt8) : FrameType :=
  match c.toNat with
  | 0 => data
  | 1 => headers
  | 2 => priority
  | 3 => rstStream
  | 4 => settings
  | 5 => pushPromise
  | 6 => ping
  | 7 => goaway
  | 8 => windowUpdate
  | 9 => continuation
  | _ => unknown c

end FrameType

/-- The flag bits; `END_STREAM` and `ACK` are the same bit. -/
def flagEndStream : UInt8 := 0x01
def flagAck : UInt8 := 0x01
def flagEndHeaders : UInt8 := 0x04
def flagPadded : UInt8 := 0x08
def flagPriority : UInt8 := 0x20

def hasFlag (flags mask : UInt8) : Bool := decide (flags &&& mask ≠ 0)

/-- `CHTTP_H2_FRAME_HEADER_SIZE`. -/
def frameHeaderSize : ℕ := 9

/-- `CHTTP_H2_MAX_FRAME_BYTES`. -/
def maxFrameBytes : ℕ := 0x00ffffff

structure Frame where
  type : FrameType
  flags : UInt8
  streamId : ℕ
  payload : Bytes
  deriving DecidableEq, Repr

/-- `chttp_h2_frame_header`. -/
structure FrameHeader where
  length : ℕ
  type : FrameType
  flags : UInt8
  streamId : ℕ
  deriving DecidableEq, Repr

/-! ## Big-endian numbers -/

/-- `chttp_h2_write_u24`. -/
def u24Bytes (n : ℕ) : Bytes :=
  [UInt8.ofNat (n / 65536), UInt8.ofNat (n / 256), UInt8.ofNat n]

/-- `chttp_h2_write_u32`. -/
def u32Bytes (n : ℕ) : Bytes :=
  [UInt8.ofNat (n / 16777216), UInt8.ofNat (n / 65536), UInt8.ofNat (n / 256), UInt8.ofNat n]

/-- `chttp_h2_read_u24` at the head of the input. -/
def readU24 : Bytes → ℕ
  | a :: b :: c :: _ => a.toNat * 65536 + b.toNat * 256 + c.toNat
  | _ => 0

/-- `chttp_h2_read_u32` at the head of the input. -/
def readU32 : Bytes → ℕ
  | a :: b :: c :: d :: _ =>
      a.toNat * 16777216 + b.toNat * 65536 + c.toNat * 256 + d.toNat
  | _ => 0

@[simp] theorem u24Bytes_length (n : ℕ) : (u24Bytes n).length = 3 := rfl

@[simp] theorem u32Bytes_length (n : ℕ) : (u32Bytes n).length = 4 := rfl

theorem readU24_u24Bytes {n : ℕ} (h : n < 2 ^ 24) (rest : Bytes) :
    readU24 (u24Bytes n ++ rest) = n := by
  simp only [u24Bytes, List.cons_append, List.nil_append, readU24, UInt8.toNat_ofNat']
  omega

theorem readU32_u32Bytes {n : ℕ} (h : n < 2 ^ 32) (rest : Bytes) :
    readU32 (u32Bytes n ++ rest) = n := by
  simp only [u32Bytes, List.cons_append, List.nil_append, readU32, UInt8.toNat_ofNat']
  omega

/-! ## Frame headers -/

/-- `chttp_h2_frame_header_encode` on a length and a stream that fit. -/
def frameHeaderBytes (length : ℕ) (type : FrameType) (flags : UInt8) (streamId : ℕ) : Bytes :=
  u24Bytes length ++ [type.code, flags] ++ u32Bytes streamId

/-- `chttp_h2_frame_header_encode` succeeds. -/
def frameHeaderFits (length streamId : ℕ) : Bool :=
  decide (length ≤ maxFrameBytes ∧ streamId < 2 ^ 31)

def Frame.bytes (f : Frame) : Bytes :=
  frameHeaderBytes f.payload.length f.type f.flags f.streamId ++ f.payload

@[simp] theorem frameHeaderBytes_length (length : ℕ) (type : FrameType) (flags : UInt8)
    (streamId : ℕ) : (frameHeaderBytes length type flags streamId).length = frameHeaderSize := rfl

theorem Frame.bytes_length (f : Frame) :
    f.bytes.length = frameHeaderSize + f.payload.length := by
  simp [Frame.bytes]

/-- `chttp_h2_frame_header_decode` on an input of at least nine bytes; `none` is a length
above the bound. -/
def frameHeaderDecode (input : Bytes) (maxFrameSize : ℕ) : Option FrameHeader :=
  let length := readU24 input
  if maxFrameSize < length then none
  else some ⟨length, .ofCode (input.getD 3 0), input.getD 4 0, readU32 (input.drop 5) % 2 ^ 31⟩

theorem FrameType.ofCode_code {t : FrameType} (h : ∀ c, t ≠ .unknown c) :
    FrameType.ofCode t.code = t := by
  cases t with
  | unknown c => exact absurd rfl (h c)
  | _ => rfl

/-- A header reads back from the bytes it was stored as. -/
theorem frameHeaderDecode_bytes {f : Frame} {maxFrameSize : ℕ} (rest : Bytes)
    (ht : ∀ c, f.type ≠ .unknown c) (hl : f.payload.length ≤ maxFrameSize)
    (hm : maxFrameSize ≤ maxFrameBytes) (hs : f.streamId < 2 ^ 31) :
    frameHeaderDecode (f.bytes ++ rest) maxFrameSize =
      some ⟨f.payload.length, f.type, f.flags, f.streamId⟩ := by
  have h24 : readU24 (f.bytes ++ rest) = f.payload.length := by
    simp only [Frame.bytes, frameHeaderBytes, List.append_assoc]
    apply readU24_u24Bytes
    simp only [maxFrameBytes] at hm
    omega
  have h32 : readU32 ((f.bytes ++ rest).drop 5) = f.streamId := by
    have hdrop : (f.bytes ++ rest).drop 5 = u32Bytes f.streamId ++ (f.payload ++ rest) := by
      simp [Frame.bytes, frameHeaderBytes, u24Bytes]
    rw [hdrop]
    apply readU32_u32Bytes
    omega
  rw [frameHeaderDecode, h24, h32, if_neg (by omega), Nat.mod_eq_of_lt hs,
    show (f.bytes ++ rest).getD 3 0 = f.type.code from rfl,
    show (f.bytes ++ rest).getD 4 0 = f.flags from rfl, FrameType.ofCode_code ht]

/-! ## Payloads -/

/-- `chttp_h2_frame_data_payload`: the data without the padding. -/
def frameDataPayload (payload : Bytes) (flags : UInt8) : Option Bytes :=
  if hasFlag flags flagPadded then
    match payload with
    | [] => none
    | pad :: rest => if rest.length < pad.toNat then none else some (rest.take (rest.length - pad.toNat))
  else some payload

/-- `chttp_h2_frame_headers_payload`: the block without padding and priority. -/
def frameHeadersPayload (payload : Bytes) (flags : UInt8) : Option Bytes :=
  let unpadded : Option (Bytes × ℕ) :=
    if hasFlag flags flagPadded then
      match payload with
      | [] => none
      | pad :: rest => if rest.length < pad.toNat then none else some (rest, pad.toNat)
    else some (payload, 0)
  match unpadded with
  | none => none
  | some (rest, padding) =>
      let body := rest.take (rest.length - padding)
      if hasFlag flags flagPriority then
        if body.length < 5 then none else some (body.drop 5)
      else some body

/-- `chttp_h2_frame_settings_encode`. -/
def settingsBytes (settings : List (ℕ × ℕ)) : Bytes :=
  settings.flatMap fun x => [UInt8.ofNat (x.1 / 256), UInt8.ofNat x.1] ++ u32Bytes x.2

def settingsParseLoop : ℕ → Bytes → List (ℕ × ℕ)
  | 0, _ => []
  | count + 1, payload =>
      ((payload.getD 0 0).toNat * 256 + (payload.getD 1 0).toNat, readU32 (payload.drop 2)) ::
        settingsParseLoop count (payload.drop 6)

/-- `chttp_h2_frame_settings_parse`. -/
def frameSettingsParse (payload : Bytes) (maxCount : ℕ) : Option (List (ℕ × ℕ)) :=
  if payload.length % 6 ≠ 0 then none
  else if maxCount < payload.length / 6 then none
  else some (settingsParseLoop (payload.length / 6) payload)

/-- `chttp_h2_frame_goaway_encode`. -/
def goawayBytes (lastStreamId errorCode : ℕ) : Bytes := u32Bytes lastStreamId ++ u32Bytes errorCode

/-- `chttp_h2_frame_goaway_parse` on a payload of at least eight bytes. -/
def frameGoawayParse (payload : Bytes) : ℕ × ℕ :=
  (readU32 payload % 2 ^ 31, readU32 (payload.drop 4))

/-- `chttp_h2_frame_priority_encode`; the dependency is the cast of a signed id. -/
def framePriorityEncode (exclusive : Bool) (dependency : Int) (weight : ℕ) : Option Bytes :=
  if weight = 0 ∨ 256 < weight ∨ dependency < 0 ∨ 2 ^ 31 ≤ dependency then none
  else
    some (u32Bytes (dependency.toNat + if exclusive then 2 ^ 31 else 0) ++
      [UInt8.ofNat (weight - 1)])

/-! ## The head of a byte stream -/

inductive Parsed where
  | wait
  | bad
  | frame (hdr : FrameHeader) (payload rest : Bytes)

/-- One round of the receive loop: a whole frame, a frame that is still incomplete, or a
length the receiver does not accept. -/
def parseFrame (maxFrameSize : ℕ) (input : Bytes) : Parsed :=
  if input.length < frameHeaderSize then .wait
  else
    match frameHeaderDecode input maxFrameSize with
    | none => .bad
    | some hdr =>
        let rest := input.drop frameHeaderSize
        if rest.length < hdr.length then .wait
        else .frame hdr (rest.take hdr.length) (rest.drop hdr.length)

end Chttp.H2
