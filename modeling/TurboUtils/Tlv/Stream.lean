import Mathlib.Tactic

/-! Frames with a checksum, and the stream that cuts them out of the bytes that are fed. -/
namespace Tlv

/-! ## Frames -/

def frameHead : UInt8 := 0xAA
def frameTail : UInt8 := 0x55
def maxPayloadSize : ℕ := 10 * 1024 * 1024

/-- `frame_total_size`. -/
def frameTotalSize (payloadSize : ℕ) : ℕ := 16 + payloadSize

/-- An entry of the table of `crc32_generate_table`. -/
def crc32Entry (i : UInt32) : UInt32 :=
  (fun c : UInt32 => if c &&& 1 ≠ 0 then (0xEDB88320 : UInt32) ^^^ (c >>> 1) else c >>> 1)^[8] i

/-- `crc32_compute`. -/
def crc32Compute (data : List UInt8) : UInt32 :=
  data.foldl (fun c byte => crc32Entry ((c ^^^ byte.toUInt32) &&& 0xFF) ^^^ c >>> 8) 0xFFFFFFFF ^^^
    0xFFFFFFFF

/-- `le32toh` of four bytes. -/
def le32 (data : List UInt8) (i : ℕ) : ℕ :=
  (data.getD i 0).toNat + 256 * ((data.getD (i + 1) 0).toNat +
    256 * ((data.getD (i + 2) 0).toNat + 256 * (data.getD (i + 3) 0).toNat))

/-- `FrameParseResult`, less success. -/
inductive FrameError where
  | needMore
  | invalidHead
  | invalidTail
  | invalidSize
  | crcMismatch
  deriving DecidableEq

/-- `frame_s`, without the owner of its payload. -/
structure Frame where
  head : UInt8
  msgId : ℕ
  version : UInt8
  payloadType : UInt8
  payloadSize : ℕ
  payload : List UInt8
  crc32 : ℕ
  tail : UInt8
  deriving DecidableEq

/-- `frame_peek_size`. -/
def framePeekSize (data : List UInt8) : Except FrameError ℕ :=
  if data.length < 11 then .error .needMore
  else if data.getD 0 0 ≠ frameHead then .error .invalidHead
  else if maxPayloadSize < le32 data 7 then .error .invalidSize
  else .ok (le32 data 7)

/-- The part of `frame_parse` behind the check of the length. -/
def frameFields (data : List UInt8) (size : ℕ) : Except FrameError Frame :=
  if data.getD (15 + size) 0 ≠ frameTail then .error .invalidTail
  else if (crc32Compute (data.take (11 + size))).toNat ≠ le32 data (11 + size) then
    .error .crcMismatch
  else
    .ok ⟨data.getD 0 0, le32 data 1, data.getD 5 0, data.getD 6 0, size, (data.drop 11).take size,
      le32 data (11 + size), data.getD (15 + size) 0⟩

/-- `frame_parse` without flags, and `frame_parse_copy` where it gets its memory. -/
def frameParse (data : List UInt8) : Except FrameError Frame :=
  match framePeekSize data with
  | .error e => .error e
  | .ok size =>
      if data.length < frameTotalSize size then .error .needMore else frameFields data size

/-! ## The stream -/

/-- `StreamParser`, with the bytes that are buffered. -/
structure Stream where
  buffer : List UInt8
  bufferSize : ℕ
  expected : ℕ

/-- A frame, `none` for more data, or the text of an error. -/
abbrev Answer := Except String (Option Frame)

/-- `stream_parser_create`. -/
def create (bufferSize : ℕ) : Stream := ⟨[], if bufferSize < 16 then 65536 else bufferSize, 0⟩

namespace Stream

/-- `stream_parser_feed`, where the size of the frame is known. -/
def deliver (s : Stream) : Answer × Stream :=
  if s.buffer.length < s.expected then (.ok none, s)
  else
    match frameParse (s.buffer.take s.expected) with
    | .error _ => (.error "Frame parse failed", s)
    | .ok frame => (.ok (some frame), { s with buffer := s.buffer.drop s.expected, expected := 0 })

/-- `stream_parser_feed` behind the new data. -/
def answerBuffered (s : Stream) : Answer × Stream :=
  if s.expected = 0 then
    match framePeekSize s.buffer with
    | .error .needMore => (.ok none, s)
    | .error _ => (.error "Invalid frame header", s)
    | .ok size =>
        let s := { s with expected := frameTotalSize size }
        if s.bufferSize < s.expected then (.error "Frame too large for buffer", s) else s.deliver
  else s.deliver

/-- `stream_parser_feed`. -/
def feed (s : Stream) (data : List UInt8) : Answer × Stream :=
  if s.bufferSize < s.buffer.length + data.length then (.error "Stream buffer overflow", s)
  else answerBuffered { s with buffer := s.buffer ++ data }

def feedAll (s : Stream) (pieces : List (List UInt8)) : Stream :=
  pieces.foldl (fun s data => (s.feed data).2) s

/-- `stream_parser_reset`. -/
def reset (s : Stream) : Stream := ⟨[], s.bufferSize, 0⟩

end Stream

/-! ## Answers -/

def outcome : Except FrameError Frame → Answer
  | .error _ => .error "Frame parse failed"
  | .ok frame => .ok (some frame)

/-- What a stream answers when these bytes are not consumed. -/
def answer (bufferSize : ℕ) (data : List UInt8) : Answer :=
  match framePeekSize data with
  | .error .needMore => .ok none
  | .error _ => .error "Invalid frame header"
  | .ok size =>
      if bufferSize < frameTotalSize size then .error "Frame too large for buffer"
      else if data.length < frameTotalSize size then .ok none
      else outcome (frameFields data size)

/-- The header announces a frame that the buffer cannot hold. -/
def TooLarge (bufferSize : ℕ) (data : List UInt8) : Prop :=
  ∃ size, framePeekSize data = .ok size ∧ bufferSize < frameTotalSize size

/-- Judged by its header, a frame that fits can still follow. -/
def Incomplete (bufferSize : ℕ) (data : List UInt8) : Prop :=
  data.length < 11 ∨ ∃ size, framePeekSize data = .ok size ∧ frameTotalSize size ≤ bufferSize ∧
    data.length < frameTotalSize size

section Answers

variable {bufferSize size : ℕ} {data : List UInt8} {e : FrameError}

theorem getD_append {i : ℕ} (h : i < data.length) (more : List UInt8) :
    (data ++ more).getD i 0 = data.getD i 0 := by
  simp [List.getD, List.getElem?_append_left h]

theorem le32_append {i : ℕ} (h : i + 4 ≤ data.length) (more : List UInt8) :
    le32 (data ++ more) i = le32 data i := by
  simp (disch := omega) only [le32, getD_append]

theorem framePeekSize_needMore : framePeekSize data = .error .needMore ↔ data.length < 11 := by
  unfold framePeekSize
  split_ifs <;> simp_all

theorem framePeekSize_append (h : 11 ≤ data.length) (more : List UInt8) :
    framePeekSize (data ++ more) = framePeekSize data := by
  have hlong : ¬(data ++ more).length < 11 := by simp; omega
  simp (disch := omega) only [framePeekSize, if_neg (Nat.not_lt.2 h), if_neg hlong, le32_append,
    getD_append]

theorem frameFields_append (hlong : frameTotalSize size ≤ data.length) (more : List UInt8) :
    frameFields (data ++ more) size = frameFields data size := by
  unfold frameTotalSize at hlong
  have hpayload : ((data ++ more).drop 11).take size = (data.drop 11).take size := by
    rw [List.drop_append_of_le_length (by omega), List.take_append_of_le_length (by simp; omega)]
  simp (disch := omega) only [frameFields, le32_append, getD_append,
    List.take_append_of_le_length, hpayload]

/-- The bytes are one frame. -/
def Framed (raw : List UInt8) (frame : Frame) : Prop :=
  frameParse raw = .ok frame ∧ raw.length = frameTotalSize frame.payloadSize

theorem frameFields_size {frame : Frame} (h : frameFields data size = .ok frame) :
    frame.payloadSize = size := by
  unfold frameFields at h
  split_ifs at h
  cases h
  rfl

theorem Framed.append {raw : List UInt8} {frame : Frame} (h : Framed raw frame) (rest : List UInt8) :
    framePeekSize (raw ++ rest) = .ok frame.payloadSize ∧
      frameFields (raw ++ rest) frame.payloadSize = .ok frame := by
  obtain ⟨hparse, hlength⟩ := h
  have hlong := hlength
  unfold frameTotalSize at hlong
  rw [framePeekSize_append (by omega), frameFields_append hlength.ge]
  unfold frameParse at hparse
  cases hpeek : framePeekSize raw with
  | error e => simp [hpeek] at hparse
  | ok size =>
    simp only [hpeek] at hparse
    split_ifs at hparse
    obtain rfl := frameFields_size hparse
    exact ⟨rfl, hparse⟩

theorem frameParse_take (hpeek : framePeekSize data = .ok size)
    (hlong : frameTotalSize size ≤ data.length) :
    frameParse (data.take (frameTotalSize size)) = frameFields data size := by
  have hlength : (data.take (frameTotalSize size)).length = frameTotalSize size := by simpa using hlong
  have hheader : 11 ≤ (data.take (frameTotalSize size)).length := by
    rw [hlength, frameTotalSize]
    omega
  rw [← List.take_append_drop (frameTotalSize size) data, framePeekSize_append hheader] at hpeek
  have hfields := frameFields_append hlength.ge (data.drop (frameTotalSize size))
  rw [List.take_append_drop] at hfields
  rw [frameParse, hpeek, hfields]
  simp [hlength]

theorem framed_take {frame : Frame} (hpeek : framePeekSize data = .ok size)
    (hlong : frameTotalSize size ≤ data.length) (hfields : frameFields data size = .ok frame) :
    Framed (data.take (frameTotalSize size)) frame := by
  refine ⟨(frameParse_take hpeek hlong).trans hfields, ?_⟩
  rw [frameFields_size hfields]
  simpa using hlong

theorem Framed.cut {raw raw' x x' : List UInt8} {frame frame' : Frame} (h : Framed raw frame)
    (h' : Framed raw' frame') (heq : raw ++ x = raw' ++ x') :
    raw = raw' ∧ frame = frame' ∧ x = x' := by
  obtain ⟨hpeek, hfields⟩ := h.append x
  obtain ⟨hpeek', hfields'⟩ := h'.append x'
  rw [heq, hpeek', Except.ok.injEq] at hpeek
  rw [heq, ← hpeek, hfields', Except.ok.injEq] at hfields
  have hlength : raw.length = raw'.length := by rw [h.2, h'.2, hpeek]
  obtain ⟨hraw, hx⟩ := List.append_inj heq hlength
  exact ⟨hraw, hfields.symm, hx⟩

theorem framed_prefix {raws : List (List UInt8)} {frames : List Frame}
    (h : List.Forall₂ Framed raws frames) {raws' : List (List UInt8)} {frames' : List Frame}
    (h' : List.Forall₂ Framed raws' frames') {tail : List UInt8}
    (heq : raws.flatten ++ tail = raws'.flatten) : raws <+: raws' ∧ frames <+: frames' := by
  induction h generalizing raws' frames' with
  | nil => exact ⟨List.nil_prefix, List.nil_prefix⟩
  | @cons raw frame raws frames hframed hframes ih =>
    cases h' with
    | nil =>
      have hlength := hframed.2
      rw [List.flatten_cons, List.append_assoc] at heq
      obtain rfl := (List.append_eq_nil_iff.1 heq).1
      rw [frameTotalSize, List.length_nil] at hlength
      omega
    | cons hframed' hframes' =>
      rw [List.flatten_cons, List.flatten_cons, List.append_assoc] at heq
      obtain ⟨rfl, rfl, htail⟩ := hframed.cut hframed' heq
      obtain ⟨hraws, hframes⟩ := ih hframes' htail
      exact ⟨List.cons_prefix_cons.2 ⟨rfl, hraws⟩, List.cons_prefix_cons.2 ⟨rfl, hframes⟩⟩

theorem length_of_peek (h : framePeekSize data = .ok size) : 11 ≤ data.length := by
  by_contra hshort
  rw [framePeekSize_needMore.2 (Nat.not_le.1 hshort)] at h
  cases h

theorem answer_of_peek (h : framePeekSize data = .ok size) : answer bufferSize data =
    if bufferSize < frameTotalSize size then .error "Frame too large for buffer"
    else if data.length < frameTotalSize size then .ok none
    else outcome (frameFields data size) := by
  rw [answer, h]

theorem answer_frame {frame : Frame} : answer bufferSize data = .ok (some frame) ↔
    ∃ raw rest, data = raw ++ rest ∧ Framed raw frame ∧ raw.length ≤ bufferSize := by
  constructor
  · intro h
    cases hpeek : framePeekSize data with
    | error e => cases e <;> simp [answer, hpeek] at h
    | ok size =>
      rw [answer_of_peek hpeek] at h
      split_ifs at h with hlarge hshort
      · cases h
      cases hfields : frameFields data size with
      | error e =>
        rw [hfields] at h
        cases h
      | ok frame' =>
        rw [hfields] at h
        cases h
        refine ⟨_, _, (List.take_append_drop (frameTotalSize size) data).symm,
          framed_take hpeek (Nat.le_of_not_lt hshort) hfields, ?_⟩
        rw [List.length_take]
        omega
  · rintro ⟨raw, rest, rfl, hframed, hfits⟩
    obtain ⟨hpeek, hfields⟩ := hframed.append rest
    have hlong : ¬(raw ++ rest).length < frameTotalSize frame.payloadSize := by
      rw [← hframed.2, List.length_append]
      omega
    rw [answer_of_peek hpeek, ← hframed.2, if_neg hfits.not_gt, hframed.2, if_neg hlong, hfields]
    rfl

theorem answer_none : answer bufferSize data = .ok none ↔ Incomplete bufferSize data := by
  cases hpeek : framePeekSize data with
  | error e =>
    have hshort : e = .needMore ↔ data.length < 11 := by
      rw [← framePeekSize_needMore, hpeek, Except.error.injEq]
    cases e <;> simp_all [answer, Incomplete]
  | ok size =>
    have hheader : ¬data.length < 11 := Nat.not_lt_of_le (length_of_peek hpeek)
    have hincomplete : Incomplete bufferSize data ↔
        frameTotalSize size ≤ bufferSize ∧ data.length < frameTotalSize size := by
      simp [Incomplete, hpeek, hheader]
    rw [answer_of_peek hpeek, hincomplete]
    split_ifs with hlarge hshort
    · exact ⟨fun h => (by cases h), fun h => absurd h.1 (Nat.not_le_of_lt hlarge)⟩
    · exact ⟨fun _ => ⟨Nat.le_of_not_lt hlarge, hshort⟩, fun _ => rfl⟩
    · refine ⟨fun h => ?_, fun h => absurd h.2 hshort⟩
      cases hfields : frameFields data size <;> rw [hfields] at h <;> cases h

theorem answer_error_append {text : String} (h : answer bufferSize data = .error text)
    (more : List UInt8) : 11 ≤ data.length ∧ answer bufferSize (data ++ more) = .error text := by
  have hheader : 11 ≤ data.length := by
    by_contra hshort
    rw [answer_none.2 (.inl (Nat.not_le.1 hshort))] at h
    cases h
  refine ⟨hheader, ?_⟩
  have hsame := framePeekSize_append hheader more
  cases hpeek : framePeekSize data with
  | error e =>
    rw [hpeek] at hsame
    rw [answer, hpeek] at h
    rw [answer, hsame]
    cases e <;> exact h
  | ok size =>
    rw [hpeek] at hsame
    rw [answer_of_peek hpeek] at h
    rw [answer_of_peek hsame]
    split_ifs at h ⊢ with hlarge hlong hshort hshort
    · exact h
    · rw [List.length_append] at hlong
      omega
    · rwa [frameFields_append (Nat.le_of_not_lt hshort)]

end Answers

/-! ## Feeds -/

namespace Stream

/-- A size is expected only of a frame that has begun, and fits. -/
def Ok (s : Stream) : Prop :=
  s.expected ≠ 0 → ∃ size, framePeekSize s.buffer = .ok size ∧ s.expected = frameTotalSize size ∧
    s.expected ≤ s.bufferSize

/-- What a feed does with the bytes that are not consumed. -/
structure Feeds (s : Stream) (data : List UInt8) (result : Answer) (s' : Stream) : Prop where
  answered : result = answer s.bufferSize data
  bufferSize : s'.bufferSize = s.bufferSize
  ok : ¬TooLarge s.bufferSize data → s'.Ok
  frame : ∀ frame, result = .ok (some frame) → ∃ raw, data = raw ++ s'.buffer ∧ Framed raw frame
  rest : (∀ frame, result ≠ .ok (some frame)) → s'.buffer = data

section Feeds

variable {s : Stream} {data : List UInt8} {size : ℕ}

theorem deliver_feeds (hpeek : framePeekSize s.buffer = .ok size)
    (hexpected : s.expected = frameTotalSize size) (hfits : s.expected ≤ s.bufferSize) :
    Feeds s s.buffer s.deliver.1 s.deliver.2 := by
  have hok : s.Ok := fun _ => ⟨size, hpeek, hexpected, hfits⟩
  have hanswer : answer s.bufferSize s.buffer = if s.buffer.length < s.expected then .ok none
      else outcome (frameFields s.buffer size) := by
    rw [answer_of_peek hpeek, ← hexpected, if_neg hfits.not_gt]
  unfold deliver
  split_ifs with hshort
  · rw [if_pos hshort] at hanswer
    exact ⟨hanswer.symm, rfl, fun _ => hok, fun frame h => (by cases h), fun _ => rfl⟩
  · rw [if_neg hshort] at hanswer
    have hlong := Nat.le_of_not_lt hshort
    rw [hexpected] at hlong
    cases hfields : frameFields s.buffer size with
    | error e =>
      rw [hexpected, frameParse_take hpeek hlong, hfields]
      rw [hfields] at hanswer
      exact ⟨hanswer.symm, rfl, fun _ => hok, fun frame h => (by cases h), fun _ => rfl⟩
    | ok frame =>
      rw [hexpected, frameParse_take hpeek hlong, hfields]
      rw [hfields] at hanswer
      refine ⟨hanswer.symm, rfl, fun _ h => absurd rfl h, fun frame' h => ?_,
        fun h => absurd rfl (h frame)⟩
      cases h
      exact ⟨_, (List.take_append_drop (frameTotalSize size) s.buffer).symm,
        framed_take hpeek hlong hfields⟩

theorem answerBuffered_feeds (h : s.Ok) :
    Feeds s s.buffer s.answerBuffered.1 s.answerBuffered.2 := by
  unfold answerBuffered
  split_ifs with hzero
  · cases hpeek : framePeekSize s.buffer with
    | error e =>
      cases e <;> exact ⟨by rw [answer, hpeek], rfl, fun _ => h, fun frame h => (by cases h), fun _ => rfl⟩
    | ok size =>
      dsimp only
      split_ifs with hlarge
      · exact ⟨by rw [answer_of_peek hpeek, if_pos hlarge], rfl,
          fun hfits => absurd ⟨size, hpeek, hlarge⟩ hfits, fun frame h => (by cases h), fun _ => rfl⟩
      · have hdeliver := @deliver_feeds { s with expected := frameTotalSize size } size hpeek rfl
          (Nat.le_of_not_lt hlarge)
        exact ⟨hdeliver.answered, hdeliver.bufferSize, hdeliver.ok, hdeliver.frame, hdeliver.rest⟩
  · obtain ⟨size, hpeek, hexpected, hfits⟩ := h hzero
    exact deliver_feeds hpeek hexpected hfits

theorem feed_feeds (h : s.Ok) (haccepts : s.buffer.length + data.length ≤ s.bufferSize) :
    Feeds s (s.buffer ++ data) (s.feed data).1 (s.feed data).2 := by
  have hok : ({ s with buffer := s.buffer ++ data } : Stream).Ok := fun hexpected => by
    obtain ⟨size, hpeek, hsize⟩ := h hexpected
    exact ⟨size, (framePeekSize_append (length_of_peek hpeek) data).trans hpeek, hsize⟩
  have hfeeds := answerBuffered_feeds hok
  rw [feed, if_neg haccepts.not_gt]
  exact ⟨hfeeds.answered, hfeeds.bufferSize, hfeeds.ok, hfeeds.frame, hfeeds.rest⟩

theorem feed_refused (h : s.bufferSize < s.buffer.length + data.length) :
    s.feed data = (.error "Stream buffer overflow", s) := if_pos h

/-- The size of the frame that was refused is expected from then on. -/
theorem feed_tooLarge (h : s.Ok) (haccepts : s.buffer.length + data.length ≤ s.bufferSize)
    (hlarge : TooLarge s.bufferSize (s.buffer ++ data)) : ((s.feed data).2.feed []).1 = .ok none := by
  obtain ⟨size, hpeek, hlarge⟩ := hlarge
  have hzero : s.expected = 0 := by
    by_contra hexpected
    obtain ⟨size', hpeek', hsize, hfits⟩ := h hexpected
    rw [framePeekSize_append (length_of_peek hpeek'), hpeek', Except.ok.injEq] at hpeek
    rw [← hpeek, ← hsize] at hlarge
    omega
  have hfirst : (s.feed data).2 = ⟨s.buffer ++ data, s.bufferSize, frameTotalSize size⟩ := by
    rw [feed, if_neg haccepts.not_gt, answerBuffered, if_pos hzero, hpeek]
    exact congrArg Prod.snd (if_pos hlarge)
  have hshort : (s.buffer ++ data).length < frameTotalSize size := by
    rw [List.length_append]
    omega
  have hexpected : frameTotalSize size ≠ 0 := by
    rw [frameTotalSize]
    omega
  rw [hfirst, feed, if_neg (by simpa using haccepts.not_gt), answerBuffered, if_neg hexpected, deliver,
    List.append_nil, if_pos hshort]

/-- Nothing but an error can follow. -/
def Stuck (s : Stream) : Prop :=
  s.Ok ∧ ¬TooLarge s.bufferSize s.buffer ∧ ∃ text, answer s.bufferSize s.buffer = .error text

theorem Stuck.feed (h : s.Stuck) (data : List UInt8) :
    (∃ text, (s.feed data).1 = .error text) ∧ (s.feed data).2.Stuck := by
  by_cases haccepts : s.buffer.length + data.length ≤ s.bufferSize
  · obtain ⟨hok, hfits, text, htext⟩ := h
    obtain ⟨hheader, hstays⟩ := answer_error_append htext data
    have hfeeds := feed_feeds hok haccepts
    have hsame : (s.feed data).2.buffer = s.buffer ++ data := by
      apply hfeeds.rest
      rw [hfeeds.answered, hstays]
      simp
    have hfits' : ¬TooLarge s.bufferSize (s.buffer ++ data) := by
      rwa [TooLarge, framePeekSize_append hheader]
    refine ⟨⟨text, hfeeds.answered.trans hstays⟩, hfeeds.ok hfits', ?_, text, ?_⟩
    · rwa [hfeeds.bufferSize, hsame]
    · rwa [hfeeds.bufferSize, hsame]
  · rw [feed_refused (Nat.lt_of_not_le haccepts)]
    exact ⟨⟨_, rfl⟩, h⟩

theorem Stuck.feedAll (h : s.Stuck) (later : List (List UInt8)) : (s.feedAll later).Stuck := by
  induction later generalizing s with
  | nil => exact h
  | cons data later ih => exact ih (h.feed data).2

end Feeds

/-! ## Runs -/

def delivered : Answer → List Frame
  | .ok (some frame) => [frame]
  | _ => []

/-- A run in which no feed that was taken met a frame too large: the bytes that were taken since the
stream was created or reset, and the frames that were delivered. -/
inductive Run (bufferSize : ℕ) : Stream → List UInt8 → List Frame → Prop
  | create : Run bufferSize (create bufferSize) [] []
  | reset {s fed frames} (h : Run bufferSize s fed frames) : Run bufferSize s.reset [] []
  | refused {s fed frames} (h : Run bufferSize s fed frames) {data : List UInt8}
      (hfull : s.bufferSize < s.buffer.length + data.length) :
      Run bufferSize (s.feed data).2 fed frames
  | taken {s fed frames} (h : Run bufferSize s fed frames) {data : List UInt8}
      (haccepts : s.buffer.length + data.length ≤ s.bufferSize)
      (hfits : ¬TooLarge s.bufferSize (s.buffer ++ data)) :
      Run bufferSize (s.feed data).2 (fed ++ data) (frames ++ delivered (s.feed data).1)

section Runs

variable {bufferSize : ℕ} {s : Stream} {fed : List UInt8} {frames : List Frame}

theorem Run.sound (h : Run bufferSize s fed frames) :
    s.Ok ∧ s.bufferSize = (Tlv.create bufferSize).bufferSize ∧
      ∃ raws, List.Forall₂ Framed raws frames ∧ fed = raws.flatten ++ s.buffer := by
  induction h with
  | create => exact ⟨fun h => absurd rfl h, rfl, [], .nil, rfl⟩
  | reset _ ih => exact ⟨fun h => absurd rfl h, ih.2.1, [], .nil, rfl⟩
  | refused _ hfull ih => rwa [feed_refused hfull]
  | @taken s fed frames _ data haccepts hfits ih =>
    obtain ⟨hok, hsize, raws, hraws, rfl⟩ := ih
    have hfeeds := feed_feeds hok haccepts
    refine ⟨hfeeds.ok hfits, hfeeds.bufferSize.trans hsize, ?_⟩
    by_cases hframe : ∃ frame, (s.feed data).1 = .ok (some frame)
    · obtain ⟨frame, hframe⟩ := hframe
      obtain ⟨raw, hbuffer, hframed⟩ := hfeeds.frame frame hframe
      refine ⟨raws ++ [raw], ?_, ?_⟩
      · rw [hframe]
        exact List.rel_append hraws (.cons hframed .nil)
      · rw [List.append_assoc, hbuffer]
        simp
    · have hnone : delivered (s.feed data).1 = [] := by
        unfold delivered
        split
        next frame h => exact absurd ⟨frame, h⟩ hframe
        · rfl
      rw [hnone, List.append_nil, hfeeds.rest (not_exists.1 hframe), List.append_assoc]
      exact ⟨raws, hraws, rfl⟩

/-- The answers of a stream that met no frame too large for it are decided by the bytes that are not
consumed, and of frames sent behind each other it delivers each one once, in order. -/
theorem tlv_stream_answers (h : Run bufferSize s fed frames) :
    (∀ data, s.buffer.length + data.length ≤ s.bufferSize →
      (∀ frame, (s.feed data).1 = .ok (some frame) ↔ ∃ raw rest, s.buffer ++ data = raw ++ rest ∧
        Framed raw frame ∧ raw.length ≤ s.bufferSize) ∧
      ((s.feed data).1 = .ok none ↔ Incomplete s.bufferSize (s.buffer ++ data)) ∧
      ∀ text, (s.feed data).1 = .error text → ((∀ later data', ∃ text',
        (((s.feed data).2.feedAll later).feed data').1 = .error text') ↔
          ¬TooLarge s.bufferSize (s.buffer ++ data))) ∧
    s.bufferSize = (Tlv.create bufferSize).bufferSize ∧
    ∃ raws, List.Forall₂ Framed raws frames ∧ fed = raws.flatten ++ s.buffer ∧
      ∀ sent sentFrames rest, List.Forall₂ Framed sent sentFrames → fed ++ rest = sent.flatten →
        raws <+: sent ∧ frames <+: sentFrames := by
  obtain ⟨hok, hsize, raws, hraws, hfed⟩ := h.sound
  refine ⟨fun data haccepts => ?_, hsize, raws, hraws, hfed, fun sent sentFrames rest hsent heq => ?_⟩
  · have hfeeds := feed_feeds hok haccepts
    refine ⟨fun frame => ?_, ?_, fun text htext => ⟨fun hstays hlarge => ?_, fun hfits later data' => ?_⟩⟩
    · rw [hfeeds.answered, answer_frame]
    · rw [hfeeds.answered, answer_none]
    · obtain ⟨text', htext'⟩ := hstays [] []
      have hnext := feed_tooLarge hok haccepts hlarge
      rw [feedAll, List.foldl_nil, hnext] at htext'
      cases htext'
    · have hsame : (s.feed data).2.buffer = s.buffer ++ data := by
        apply hfeeds.rest
        rw [htext]
        simp
      have hstuck : (s.feed data).2.Stuck := by
        refine ⟨hfeeds.ok hfits, ?_, text, ?_⟩
        · rwa [hfeeds.bufferSize, hsame]
        · rw [hfeeds.bufferSize, hsame, ← hfeeds.answered, htext]
      exact ((hstuck.feedAll later).feed data').1
  · rw [hfed, List.append_assoc] at heq
    exact framed_prefix hraws hsent heq

def pingBytes : List UInt8 := [0xAA, 1, 0, 0, 0, 1, 2, 0, 0, 0, 0, 219, 184, 11, 38, 0x55]

def ping : Frame := ⟨0xAA, 1, 1, 2, 0, [], 638302427, 0x55⟩

theorem tlv_stream_answers_ping : ((Tlv.create 64).feed pingBytes).1 = .ok (some ping) ∧
    ∃ raws, List.Forall₂ Framed raws [ping] ∧
      pingBytes = raws.flatten ++ ((Tlv.create 64).feed pingBytes).2.buffer := by
  have hpeek : framePeekSize pingBytes = .ok 0 := by decide
  have hfits : ¬TooLarge 64 pingBytes := by
    rintro ⟨size, hsize, hlarge⟩
    rw [hpeek] at hsize
    cases hsize
    exact absurd hlarge (by decide)
  have hfed : ((Tlv.create 64).feed pingBytes).1 = .ok (some ping) := by decide +kernel
  have hrun := @Run.taken 64 _ _ _ .create pingBytes (by decide) hfits
  rw [hfed] at hrun
  obtain ⟨-, -, raws, hraws, hbytes, -⟩ := tlv_stream_answers hrun
  exact ⟨hfed, raws, hraws, hbytes⟩

/-- The header of a frame of 116 bytes is refused once, and then waited for. -/
theorem too_large_forgotten : ∃ header : List UInt8,
    ((Tlv.create 64).feed header).1 = .error "Frame too large for buffer" ∧
    (((Tlv.create 64).feed header).2.feed []).1 = .ok none ∧ ¬Incomplete 64 header := by
  refine ⟨[0xAA, 0, 0, 0, 0, 0, 0, 100, 0, 0, 0], rfl, rfl, ?_⟩
  rw [← answer_none]
  decide

end Runs

end Stream

end Tlv
