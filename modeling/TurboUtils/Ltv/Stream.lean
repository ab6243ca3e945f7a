import TurboUtils.Ltv.Message

/-! The LTV stream: what each feed answers depends on the bytes that are not consumed. -/
namespace Ltv

/-- `ltv_stream_s`, with the bytes that are buffered. -/
structure Stream where
  buffer : List UInt8
  bufferSize : ℕ
  expected : ℕ
  headerSize : ℕ
  pendingConsume : ℕ

namespace Stream

/-- `ltv_stream_create`. -/
def create (bufferSize : ℕ) : Stream :=
  ⟨[], if bufferSize = 0 then 65536 else bufferSize, 0, 0, 0⟩

/-- `ltv_stream_reset`. -/
def reset (s : Stream) : Stream := ⟨[], s.bufferSize, 0, 0, 0⟩

/-- `ltv_stream_consume_completed`. -/
def consumeCompleted (s : Stream) : Stream :=
  if s.pendingConsume = 0 then s
  else { s with buffer := s.buffer.drop s.pendingConsume, pendingConsume := 0 }

/-- `ltv_stream_remaining`. -/
def remaining (s : Stream) : List UInt8 := s.buffer.drop s.pendingConsume

/-- The end of `ltv_stream_feed`, where the expected size is known. -/
def deliver (s : Stream) : Except ParseError Message × Stream :=
  if s.buffer.length < s.expected then (.error .needMore, s)
  else
    match parse (s.buffer.take s.expected) with
    | .error e => (.error e, s)
    | .ok m => (.ok m, { s with pendingConsume := s.expected, expected := 0, headerSize := 0 })

/-- `ltv_stream_feed` behind the new data. -/
def answerBuffered (s : Stream) : Except ParseError Message × Stream :=
  if s.expected = 0 then
    match peekSize s.buffer with
    | .error e => (.error e, s)
    | .ok (length, headerSize) =>
        let s := { s with expected := totalSize length headerSize, headerSize }
        if s.bufferSize < s.expected then (.error .bufferOverflow, s) else s.deliver
  else s.deliver

/-- `ltv_stream_feed`. -/
def feed (s : Stream) (data : List UInt8) : Except ParseError Message × Stream :=
  let s := s.consumeCompleted
  if s.bufferSize - s.buffer.length < data.length then (.error .bufferOverflow, s)
  else answerBuffered { s with buffer := s.buffer ++ data }

end Stream

/-! ## Answers -/

/-- What a stream answers when so many bytes are not consumed. -/
def answer (bufferSize : ℕ) (data : List UInt8) : Except ParseError Message :=
  match peekSize data with
  | .error e => .error e
  | .ok (length, headerSize) =>
      if bufferSize < totalSize length headerSize then .error .bufferOverflow else parse data

section Answers

variable {bufferSize : ℕ} {data : List UInt8} {m : Message} {e : ParseError}

theorem peekSize_wire {type : UInt8} {value : List UInt8} (h : value.length ≤ maxPayloadSize)
    (rest : List UInt8) : peekSize (wire type value ++ rest) =
      .ok (value.length + 1, (encodeVarint (value.length + 1)).length) :=
  peekSize_ok.2 ⟨Nat.succ_pos _, Nat.succ_le_succ h, rfl, type :: value ++ rest, by
    rw [wire, List.append_assoc]⟩

/-- A message is the answer where the bytes begin with it, and it fits. -/
theorem answer_ok : answer bufferSize data = .ok m ↔ ∃ type value rest,
    value.length ≤ maxPayloadSize ∧ (wire type value).length ≤ bufferSize ∧
      data = wire type value ++ rest ∧ m = message type value := by
  constructor
  · intro h
    unfold answer at h
    split at h
    · cases h
    next length headerSize hpeek =>
      split_ifs at h with hfits
      obtain ⟨type, value, rest, hle, rfl, rfl⟩ := parse_ok.1 h
      rw [peekSize_wire hle] at hpeek
      cases hpeek
      rw [← length_wire] at hfits
      exact ⟨type, value, rest, hle, Nat.le_of_not_lt hfits, rfl, rfl⟩
  · rintro ⟨type, value, rest, hle, hfits, rfl, rfl⟩
    unfold answer
    rw [peekSize_wire hle]
    dsimp only
    rw [← length_wire, if_neg (Nat.not_lt_of_le hfits)]
    exact parse_ok.2 ⟨type, value, rest, hle, rfl, rfl⟩

/-- Bytes that something is missing from: of a length, or of a message that fits. -/
def Incomplete (bufferSize : ℕ) (data : List UInt8) : Prop :=
  (∃ n < 2 ^ 32, ∃ rest, rest ≠ [] ∧ encodeVarint n = data ++ rest) ∨
    ∃ type value rest, value.length ≤ maxPayloadSize ∧ (wire type value).length ≤ bufferSize ∧
      rest ≠ [] ∧ wire type value = data ++ rest

theorem parse_of_peekSize {length headerSize : ℕ} (h : peekSize data = .ok (length, headerSize)) :
    parse data = if data.length < totalSize length headerSize then .error .needMore
      else .ok (readMessage data length headerSize) := by
  rw [parse, h]

theorem answer_needMore : answer bufferSize data = .error .needMore ↔ Incomplete bufferSize data := by
  constructor
  · intro h
    unfold answer at h
    split at h
    next e hpeek =>
      cases h
      exact .inl (peekSize_needMore.1 hpeek)
    next length headerSize hpeek =>
      split_ifs at h with hfits
      · cases h
      rw [parse_of_peekSize hpeek] at h
      split_ifs at h with hshort
      obtain ⟨hpos, hle, rfl, rest, rfl⟩ := peekSize_ok.1 hpeek
      rw [List.length_append, totalSize] at hshort
      -- Zeros may stand for what is missing.
      obtain ⟨missing, hmissing⟩ : ∃ n, length = rest.length + (n + 1) :=
        Nat.exists_eq_add_of_lt (by omega)
      obtain ⟨type, value, hvalue⟩ : ∃ type value,
          rest ++ List.replicate (missing + 1) (0 : UInt8) = type :: value :=
        List.exists_cons_of_ne_nil (by simp)
      have hlength : value.length + 1 = length := by
        have hcount := congrArg List.length hvalue
        rw [List.length_append, List.length_replicate, List.length_cons] at hcount
        omega
      refine .inr ⟨type, value, List.replicate (missing + 1) 0, by omega, ?_, by simp, ?_⟩
      · rw [length_wire, hlength]
        exact Nat.le_of_not_lt hfits
      · rw [wire, hlength, ← hvalue, List.append_assoc]
  · rintro (hlength | ⟨type, value, rest, hle, hfits, hrest, hwire⟩)
    · rw [answer, peekSize_needMore.2 hlength]
    · have hshort : data.length < (wire type value).length := by
        rw [hwire, List.length_append]
        have hpos := List.length_pos_of_ne_nil hrest
        omega
      have hbody : (∃ body, data = encodeVarint (value.length + 1) ++ body) ∨
          ∃ missing, missing ≠ [] ∧ encodeVarint (value.length + 1) = data ++ missing := by
        rw [wire] at hwire
        rcases List.append_eq_append_iff.1 hwire with ⟨body, hdata, -⟩ | ⟨missing, hencode, -⟩
        · exact .inl ⟨body, hdata⟩
        · by_cases hnil : missing = []
          · exact .inl ⟨[], by rw [hencode, hnil, List.append_nil, List.append_nil]⟩
          · exact .inr ⟨missing, hnil, hencode⟩
      rcases hbody with ⟨body, hdata⟩ | ⟨missing, hmissing, hencode⟩
      · have hpeek : peekSize data =
            .ok (value.length + 1, (encodeVarint (value.length + 1)).length) :=
          peekSize_ok.2 ⟨Nat.succ_pos _, Nat.succ_le_succ hle, rfl, body, hdata⟩
        rw [length_wire] at hshort hfits
        rw [answer, hpeek]
        dsimp only
        rw [if_neg (Nat.not_lt_of_le hfits), parse_of_peekSize hpeek, if_pos hshort]
      · have hlt : value.length + 1 < 2 ^ 32 := by
          unfold maxPayloadSize at hle
          omega
        rw [answer, peekSize_needMore.2 ⟨_, hlt, missing, hmissing, hencode⟩]

/-- Any other error stays, whatever follows. -/
theorem answer_error_append (h : answer bufferSize data = .error e) (hne : e ≠ .needMore)
    (more : List UInt8) : answer bufferSize (data ++ more) = .error e := by
  unfold answer at h ⊢
  split at h
  next e' hpeek =>
    cases h
    rw [peekSize_error_append hpeek hne]
  next length headerSize hpeek =>
    rw [peekSize_append hpeek]
    dsimp only
    split_ifs at h ⊢
    · exact h
    · rw [parse_of_peekSize hpeek] at h
      split_ifs at h
      cases h
      exact absurd rfl hne

end Answers

/-! ## Feeds -/

namespace Stream

/-- What holds between two calls, unless a message was met that does not fit: where a size is
expected, it is the size of the message that has begun. -/
structure Ok (s : Stream) : Prop where
  buffered : s.buffer.length ≤ s.bufferSize
  pending : s.pendingConsume ≤ s.buffer.length
  idle : s.pendingConsume ≠ 0 → s.expected = 0
  expected : s.expected ≠ 0 → ∃ length, peekSize s.remaining = .ok (length, s.headerSize) ∧
    s.expected = totalSize length s.headerSize ∧ s.expected ≤ s.bufferSize

def Accepts (s : Stream) (data : List UInt8) : Prop :=
  data.length ≤ s.bufferSize - s.remaining.length

section Feeds

variable {s : Stream} {data : List UInt8}

theorem consumeCompleted_buffer (s : Stream) : s.consumeCompleted.buffer = s.remaining := by
  unfold consumeCompleted remaining
  split_ifs with h
  · rw [h, List.drop_zero]
  · rfl

theorem consumeCompleted_pending (s : Stream) : s.consumeCompleted.pendingConsume = 0 := by
  unfold consumeCompleted
  split_ifs with h
  · exact h
  · rfl

@[simp] theorem consumeCompleted_bufferSize (s : Stream) :
    s.consumeCompleted.bufferSize = s.bufferSize := by
  unfold consumeCompleted
  split_ifs <;> rfl

@[simp] theorem consumeCompleted_expected (s : Stream) : s.consumeCompleted.expected = s.expected := by
  unfold consumeCompleted
  split_ifs <;> rfl

@[simp] theorem consumeCompleted_headerSize (s : Stream) :
    s.consumeCompleted.headerSize = s.headerSize := by
  unfold consumeCompleted
  split_ifs <;> rfl

theorem remaining_of_pending (h : s.pendingConsume = 0) : s.remaining = s.buffer := by
  rw [remaining, h, List.drop_zero]

theorem consumeCompleted_remaining (s : Stream) : s.consumeCompleted.remaining = s.remaining := by
  rw [remaining_of_pending s.consumeCompleted_pending, consumeCompleted_buffer]

theorem Ok.consumeCompleted (h : s.Ok) : s.consumeCompleted.Ok := by
  refine ⟨?_, ?_, fun hp => absurd s.consumeCompleted_pending hp, fun he => ?_⟩
  · rw [consumeCompleted_buffer, consumeCompleted_bufferSize, remaining, List.length_drop]
    exact (Nat.sub_le _ _).trans h.buffered
  · rw [consumeCompleted_pending]
    exact Nat.zero_le _
  · rw [consumeCompleted_remaining]
    simp only [consumeCompleted_expected, consumeCompleted_headerSize,
      consumeCompleted_bufferSize] at he ⊢
    exact h.expected he

theorem feed_refused (h : ¬s.Accepts data) :
    s.feed data = (.error .bufferOverflow, s.consumeCompleted) := by
  unfold feed
  rw [if_pos]
  rw [consumeCompleted_buffer, consumeCompleted_bufferSize]
  exact Nat.lt_of_not_le h

structure Feeds (s : Stream) (x : List UInt8) (result : Except ParseError Message) (s' : Stream) :
    Prop where
  answered : result = answer s.bufferSize x
  bufferSize : s'.bufferSize = s.bufferSize
  ok : result ≠ .error .bufferOverflow → s'.Ok
  message : ∀ m, result = .ok m → x = wire m.type m.value ++ s'.remaining
  rest : ∀ e, result = .error e → s'.remaining = x

/-- Where the size is known, the message is complete or not. -/
theorem deliver_feeds (hpending : s.pendingConsume = 0) (hbuffered : s.buffer.length ≤ s.bufferSize)
    {length : ℕ} (hpeek : peekSize s.buffer = .ok (length, s.headerSize))
    (hexpected : s.expected = totalSize length s.headerSize) (hfits : s.expected ≤ s.bufferSize) :
    Feeds s s.buffer s.deliver.1 s.deliver.2 := by
  have hremaining := remaining_of_pending hpending
  have hanswer : answer s.bufferSize s.buffer = parse s.buffer := by
    rw [answer, hpeek]
    dsimp only
    rw [if_neg (hexpected ▸ Nat.not_lt_of_le hfits)]
  have hparse := parse_of_peekSize hpeek
  rw [← hexpected] at hparse
  unfold deliver
  split_ifs with hshort
  · rw [if_pos hshort] at hparse
    refine ⟨(hanswer.trans hparse).symm, rfl, fun _ => ?_, fun m hm => (by cases hm),
      fun _ _ => hremaining⟩
    exact ⟨hbuffered, hpending ▸ Nat.zero_le _, fun h => absurd hpending h,
      fun _ => ⟨length, by rwa [hremaining], hexpected, hfits⟩⟩
  · rw [if_neg hshort] at hparse
    obtain ⟨type, value, rest, hle, hbuffer, hmessage⟩ := parse_ok.1 hparse
    have hsize : s.expected = (wire type value).length := by
      rw [hbuffer, peekSize_wire hle, Except.ok.injEq, Prod.mk.injEq] at hpeek
      rw [hexpected, length_wire, hpeek.2, hpeek.1]
    have htake : parse (s.buffer.take s.expected) = .ok (message type value) := by
      rw [hbuffer, hsize, List.take_left]
      exact parse_ok.2 ⟨type, value, [], hle, (List.append_nil _).symm, rfl⟩
    rw [htake]
    refine ⟨?_, rfl, fun _ => ?_, fun m hm => ?_, fun e he => (by cases he)⟩
    · rw [hanswer, hparse, hmessage]
    · exact ⟨hbuffered, Nat.le_of_not_lt hshort, fun _ => rfl, fun h => absurd rfl h⟩
    · cases hm
      dsimp only [remaining, message]
      rw [hsize, hbuffer, List.drop_left]

theorem answerBuffered_feeds (hpending : s.pendingConsume = 0)
    (hbuffered : s.buffer.length ≤ s.bufferSize)
    (hexpected : s.expected ≠ 0 → ∃ length, peekSize s.buffer = .ok (length, s.headerSize) ∧
      s.expected = totalSize length s.headerSize ∧ s.expected ≤ s.bufferSize) :
    Feeds s s.buffer s.answerBuffered.1 s.answerBuffered.2 := by
  unfold answerBuffered
  split_ifs with hzero
  · split
    next e hpeek =>
      refine ⟨?_, rfl, fun _ => ?_, fun m hm => (by cases hm), fun _ _ => remaining_of_pending hpending⟩
      · rw [answer, hpeek]
      · exact ⟨hbuffered, hpending ▸ Nat.zero_le _, fun h => absurd hpending h,
          fun h => absurd hzero h⟩
    next length headerSize hpeek =>
      dsimp only
      split_ifs with hlarge
      · refine ⟨?_, rfl, fun h => absurd rfl h, fun m hm => (by cases hm),
          fun _ _ => remaining_of_pending hpending⟩
        rw [answer, hpeek]
        exact (if_pos hlarge).symm
      · have hdelivered := @deliver_feeds
          { s with expected := totalSize length headerSize, headerSize } hpending hbuffered length
          hpeek rfl (Nat.le_of_not_lt hlarge)
        exact ⟨hdelivered.answered, hdelivered.bufferSize, hdelivered.ok, hdelivered.message,
          hdelivered.rest⟩
  · obtain ⟨length, hpeek, htotal, hfits⟩ := hexpected hzero
    exact deliver_feeds hpending hbuffered hpeek htotal hfits

/-- What one feed does that takes its bytes. -/
theorem feed_feeds (h : s.Ok) (haccepts : s.Accepts data) :
    Feeds s (s.remaining ++ data) (s.feed data).1 (s.feed data).2 := by
  have hok := h.consumeCompleted
  have hroom : ¬s.consumeCompleted.bufferSize - s.consumeCompleted.buffer.length < data.length := by
    rw [consumeCompleted_buffer, consumeCompleted_bufferSize]
    exact Nat.not_lt_of_le haccepts
  have hanswered := @answerBuffered_feeds
    { s.consumeCompleted with buffer := s.consumeCompleted.buffer ++ data }
    s.consumeCompleted_pending ?_ fun hexpected => ?_
  · unfold feed
    dsimp only at hanswered ⊢
    rw [if_neg hroom]
    rw [consumeCompleted_buffer] at hanswered ⊢
    exact ⟨by rw [hanswered.answered, consumeCompleted_bufferSize],
      hanswered.bufferSize.trans s.consumeCompleted_bufferSize, hanswered.ok, hanswered.message,
      hanswered.rest⟩
  · have hfit := hok.buffered
    dsimp only
    rw [List.length_append]
    omega
  · obtain ⟨length, hpeek, htotal, hfits⟩ := hok.expected hexpected
    rw [remaining_of_pending s.consumeCompleted_pending] at hpeek
    exact ⟨length, peekSize_append hpeek data, htotal, hfits⟩

end Feeds

/-! ## Runs -/

/-- The feeds since the stream was created or reset, with the bytes that they took and the messages
that they returned. After a message that does not fit, nothing is said. -/
inductive Run (bufferSize : ℕ) : List UInt8 → List Message → Stream → Prop where
  | start : Run bufferSize [] [] ⟨[], bufferSize, 0, 0, 0⟩
  | refused {fed messages s data} (h : Run bufferSize fed messages s) (hrefused : ¬s.Accepts data) :
      Run bufferSize fed messages (s.feed data).2
  | taken {fed messages s data} (h : Run bufferSize fed messages s) (haccepts : s.Accepts data)
      (hfits : (s.feed data).1 ≠ .error .bufferOverflow) :
      Run bufferSize (fed ++ data) (messages ++ (s.feed data).1.toOption.toList) (s.feed data).2

/-- The messages are those at the beginning of the bytes, in order. -/
theorem Run.ok {bufferSize : ℕ} {fed : List UInt8} {messages : List Message} {s : Stream}
    (h : Run bufferSize fed messages s) : s.Ok ∧ s.bufferSize = bufferSize ∧
      fed = (messages.flatMap fun m => wire m.type m.value) ++ s.remaining := by
  induction h with
  | start =>
    exact ⟨⟨Nat.zero_le _, le_refl _, fun h => absurd rfl h, fun h => absurd rfl h⟩, rfl, rfl⟩
  | refused _ hrefused ih =>
    obtain ⟨hok, hsize, hfed⟩ := ih
    rw [feed_refused hrefused]
    refine ⟨hok.consumeCompleted, (consumeCompleted_bufferSize _).trans hsize, ?_⟩
    rwa [consumeCompleted_remaining]
  | @taken fed messages s data _ haccepts hfits ih =>
    obtain ⟨hok, hsize, hfed⟩ := ih
    have hfeeds := feed_feeds hok haccepts
    refine ⟨hfeeds.ok hfits, hfeeds.bufferSize.trans hsize, ?_⟩
    rw [hfed, List.append_assoc]
    cases hresult : (s.feed data).1 with
    | error e =>
      rw [← hfeeds.rest e hresult]
      exact congrArg (· ++ _) (congrArg _ (List.append_nil messages).symm)
    | ok m =>
      rw [hfeeds.message m hresult]
      simp [Except.toOption]

end Stream

/-- Varints and messages are read back, and nothing else is accepted. Until a message is met that
does not fit, what a feed answers depends on the bytes that are not consumed: the first message, that
something is missing, or an error that stays; and the messages come in order, once each. -/
theorem codec_and_stream :
    (∀ data value size, decodeVarint data = .decoded value size ↔ value < 2 ^ 32 ∧
      ∃ rest, data = encodeVarint value ++ rest ∧ size = (encodeVarint value).length) ∧
    (∀ type value, value.length ≤ maxPayloadSize → ∀ outLen, (wire type value).length ≤ outLen →
      build type value outLen = some (wire type value) ∧
        ∀ rest, parse (wire type value ++ rest) = .ok (message type value)) ∧
    (∀ bufferSize data m, answer bufferSize data = .ok m ↔ ∃ type value rest,
      value.length ≤ maxPayloadSize ∧ (wire type value).length ≤ bufferSize ∧
        data = wire type value ++ rest ∧ m = message type value) ∧
    (∀ bufferSize data, answer bufferSize data = .error .needMore ↔ Incomplete bufferSize data) ∧
    (∀ bufferSize data e, answer bufferSize data = .error e → e ≠ .needMore →
      ∀ more, answer bufferSize (data ++ more) = .error e) ∧
    ∀ bufferSize fed messages s, Stream.Run bufferSize fed messages s →
      fed = (messages.flatMap fun m => wire m.type m.value) ++ s.remaining ∧
        ∀ data, s.Accepts data → (s.feed data).1 = answer bufferSize (s.remaining ++ data) := by
  refine ⟨fun _ _ _ => decodeVarint_decoded, fun type value hle outLen hout =>
    ⟨build_eq hle hout, fun rest => parse_ok.2 ⟨type, value, rest, hle, rfl, rfl⟩⟩,
    fun _ _ _ => answer_ok, fun _ _ => answer_needMore, fun _ _ _ => answer_error_append,
    fun bufferSize fed messages s hrun => ?_⟩
  obtain ⟨hok, hsize, hfed⟩ := hrun.ok
  refine ⟨hfed, fun data haccepts => ?_⟩
  rw [(Stream.feed_feeds hok haccepts).answered, hsize]

/-- A feed asks for more although no message that fits begins so, and a message that does not fit is
an error only once. -/
theorem needMore_without_message :
    (((Stream.create 64).feed [0x80]).1 = .error .needMore ∧
      ¬∃ type value rest, (wire type value).length ≤ 64 ∧ rest ≠ [] ∧
        wire type value = [0x80] ++ rest) ∧
    ((Stream.create 4).feed [0x05]).1 = .error .bufferOverflow ∧
      (((Stream.create 4).feed [0x05]).2.feed []).1 = .error .needMore := by
  refine ⟨⟨rfl, ?_⟩, rfl, rfl⟩
  rintro ⟨type, value, rest, hfits, -, hwire⟩
  rw [wire, encodeVarint_eq, List.singleton_append] at hwire
  rcases Leb128.cons_eq_encode_append.1 hwire.symm with ⟨hlast, -⟩ | ⟨-, k, hk, hlength, -⟩
  · exact hlast (by decide)
  · rw [length_wire, totalSize, hlength] at hfits
    omega

end Ltv
