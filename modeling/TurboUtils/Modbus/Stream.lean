import TurboUtils.Lib.Segments
import TurboUtils.Modbus.Codec

/-! The Modbus stream on TCP: all ADUs come in order, once each; their data is what was sent unless
the bytes behind them were moved over it. -/
namespace Modbus

open Segments (overwrite)

/-- `modbus_stream_s`, with all of its buffer. -/
structure Stream where
  transport : Transport
  memory : List UInt8
  buffered : ℕ
  expected : ℕ

namespace Stream

/-- `modbus_stream_create`, in memory of the size asked for (`tcpMaxAduSize`, if that is 0). -/
def create (transport : Transport) (memory : List UInt8) : Stream := ⟨transport, memory, 0, 0⟩

def bytes (s : Stream) : List UInt8 := s.memory.take s.buffered

/-- The end of `modbus_stream_feed` on TCP, where the expected size is known. -/
def deliver (s : Stream) : Except ParseError Adu × Stream :=
  if s.buffered < s.expected then (.error .needMore, s)
  else
    match tcpParse (s.memory.take s.expected) with
    | .error e => (.error e, s)
    | .ok frame =>
        let rest := (s.memory.drop s.expected).take (s.buffered - s.expected)
        (.ok (.tcp frame), { s with
          memory := overwrite s.memory 0 rest
          buffered := s.buffered - s.expected
          expected := 0 })

/-- `modbus_stream_feed` on TCP, behind the new data. -/
def feedTcp (s : Stream) : Except ParseError Adu × Stream :=
  if s.expected = 0 then
    match tcpPeekSize s.bytes with
    | .error e => (.error e, s)
    | .ok expected =>
        if s.memory.length < expected then (.error .bufferOverflow, s)
        else deliver { s with expected }
  else deliver s

/-- `modbus_stream_feed` on RTU, behind the new data. -/
def feedRtu (s : Stream) (fresh : Bool) : Except ParseError Adu × Stream :=
  if fresh || s.buffered = 0 then (.error .needMore, s)
  else
    match rtuParse s.bytes with
    | .error e => (.error e, s)
    | .ok frame => (.ok (.rtu frame), { s with buffered := 0, expected := 0 })

/-- `modbus_stream_feed`. -/
def feed (s : Stream) (data : List UInt8) : Except ParseError Adu × Stream :=
  if s.memory.length < s.buffered + data.length then (.error .bufferOverflow, s)
  else
    let s := { s with
      memory := overwrite s.memory s.buffered data
      buffered := s.buffered + data.length }
    match s.transport with
    | .tcp => s.feedTcp
    | .rtu => s.feedRtu !data.isEmpty

/-- `modbus_stream_reset`. -/
def reset (s : Stream) : Stream := { s with buffered := 0, expected := 0 }

end Stream

/-! ## What is sent, and what is seen -/

/-- An ADU on TCP. -/
structure Sent where
  transactionId : UInt16
  unitId : UInt8
  functionCode : UInt8
  data : List UInt8
  deriving DecidableEq

def Sent.wire (a : Sent) : List UInt8 := tcpWire a.transactionId a.unitId a.functionCode a.data

def seen : Except ParseError Adu × Stream → Option Sent
  | (.ok (.tcp frame), s) =>
      some ⟨frame.transactionId, frame.unitId, frame.pdu.functionCode, frame.pdu.bytes s.memory⟩
  | _ => none

namespace Stream

def deliveries (s : Stream) : List (List UInt8) → List Sent
  | [] => []
  | data :: rest => (seen (s.feed data)).toList ++ deliveries (s.feed data).2 rest

def after (s : Stream) : List (List UInt8) → Stream
  | [] => s
  | data :: rest => after (s.feed data).2 rest

/-- No call is refused. -/
def Takes (s : Stream) : List (List UInt8) → Prop
  | [] => True
  | data :: rest => s.buffered + data.length ≤ s.memory.length ∧ Takes (s.feed data).2 rest

/-- The bytes behind a complete ADU, from the ninth on, are those of its data, as far as its data
reaches. -/
def Spare (bytes : List UInt8) : Prop :=
  ∀ frame, tcpParse bytes = .ok frame → ∀ i < frame.pdu.dataSize,
    8 + i < bytes.length - frame.consumed → bytes[frame.consumed + (8 + i)]? = bytes[8 + i]?

/-- So it is in every call. -/
def Spares (s : Stream) : List (List UInt8) → Prop
  | [] => True
  | data :: rest => Spare (s.bytes ++ data) ∧ Spares (s.feed data).2 rest

end Stream

/-! ## One call -/

section Peek

variable {data more : List UInt8} {total : ℕ}

theorem readBe16_append {offset : ℕ} (h : offset + 1 < data.length) :
    readBe16 (data ++ more) offset = readBe16 data offset := by
  rw [readBe16, readBe16, List.getD_append _ _ _ _ h, List.getD_append _ _ _ _ (by omega)]

theorem tcpPeekSize_append (h : tcpPeekSize data = .ok total) (more : List UInt8) :
    tcpPeekSize (data ++ more) = .ok total := by
  unfold tcpPeekSize at h
  split_ifs at h with hheader hprotocol
  have hlength : 7 ≤ data.length := Nat.le_of_not_lt hheader
  unfold tcpPeekSize
  rw [readBe16_append (by omega), readBe16_append (by omega), if_neg hprotocol, if_neg]
  · exact h
  · rw [List.length_append]
    unfold tcpMbapSize
    omega

end Peek

namespace Stream

/-- What holds between two calls, when the bytes given are buffered. -/
structure Ok (size : ℕ) (s : Stream) (x : List UInt8) : Prop where
  transport : s.transport = .tcp
  memory : s.memory.length = size
  holds : s.bytes = x
  buffered : s.buffered = x.length
  room : x.length ≤ size
  expected : s.expected ≠ 0 → tcpPeekSize x = .ok s.expected

section Calls

variable {size total : ℕ} {s : Stream} {data x : List UInt8}

theorem create_ok (memory : List UInt8) : (create .tcp memory).Ok memory.length [] :=
  ⟨rfl, rfl, rfl, rfl, Nat.zero_le _, fun h => absurd rfl h⟩

/-- New data, behind what is buffered. -/
theorem Ok.append (h : s.Ok size x) (hroom : x.length + data.length ≤ size) :
    Ok size { s with memory := overwrite s.memory s.buffered data
                     buffered := s.buffered + data.length } (x ++ data) := by
  have hmemory := h.memory
  have hbuffered := h.buffered
  have hle : s.buffered + data.length ≤ s.memory.length := by omega
  have htake : (s.memory.take s.buffered).length = s.buffered := List.length_take_of_le (by omega)
  refine ⟨h.transport, (Segments.length_overwrite hle).trans hmemory, ?_, ?_, ?_, fun hexpected => ?_⟩
  · rw [← h.holds]
    unfold bytes overwrite
    dsimp only
    rw [List.take_append_of_le_length (by rw [List.length_append, htake]),
      List.take_of_length_le (by rw [List.length_append, htake])]
  · dsimp only
    rw [List.length_append, hbuffered]
  · rwa [List.length_append]
  · exact tcpPeekSize_append (h.expected hexpected) data

/-- A complete ADU is parsed, and the bytes behind it are moved over it. -/
theorem deliver_complete (h : s.Ok size x) (hpeek : tcpPeekSize x = .ok s.expected)
    (hcomplete : s.expected ≤ x.length) : ∃ frame, tcpParse x = .ok frame ∧
      frame.consumed = s.expected ∧ s.deliver.1 = .ok (.tcp frame) ∧
      s.deliver.2.Ok size (x.drop s.expected) ∧
      s.deliver.2.memory = overwrite s.memory 0 (x.drop s.expected) := by
  have hbuffered := h.buffered
  have hmemory := h.memory
  have hroom := h.room
  have hparse : tcpParse x = .ok (tcpFields x s.expected) := by
    rw [tcpParse, hpeek]
    exact if_neg (Nat.not_lt_of_le hcomplete)
  obtain ⟨frame, hframe⟩ : ∃ frame, frame = tcpFields x s.expected := ⟨_, rfl⟩
  have hconsumed : frame.consumed = s.expected := by rw [hframe]; rfl
  rw [← hframe] at hparse
  -- The parser is given the bytes of the ADU alone.
  have htake : tcpParse (s.memory.take s.expected) = .ok frame := by
    obtain ⟨pduData, rest, -, hx, -, -, -, hlength, halone⟩ := tcpParse_eq hparse
    have hfront : s.memory.take s.expected = x.take s.expected := by
      rw [← h.holds, bytes, List.take_take, min_eq_left (by omega)]
    rw [hfront, ← hconsumed, hlength]
    conv_lhs => rw [hx]
    rwa [List.take_left]
  have hrest : (s.memory.drop s.expected).take (s.buffered - s.expected) = x.drop s.expected := by
    rw [← h.holds, bytes, List.drop_take]
  have hdeliver : s.deliver = (.ok (.tcp frame), { s with
      memory := overwrite s.memory 0 (x.drop s.expected)
      buffered := s.buffered - s.expected
      expected := 0 }) := by
    rw [deliver, if_neg (by omega), htake, hrest]
  have hlength : (x.drop s.expected).length = s.buffered - s.expected := by
    rw [List.length_drop, hbuffered]
  have hfits : 0 + (x.drop s.expected).length ≤ s.memory.length := by omega
  refine ⟨frame, hparse, hconsumed, by rw [hdeliver], ?_, by rw [hdeliver]⟩
  rw [hdeliver]
  refine ⟨h.transport, (Segments.length_overwrite hfits).trans hmemory, ?_, hlength.symm, by omega,
    fun hne => absurd rfl hne⟩
  unfold bytes overwrite
  dsimp only
  rw [List.take_zero, List.nil_append, ← hlength, List.take_left]

/-- Where the size is known, the ADU is awaited or delivered. -/
theorem deliver_cases (h : s.Ok size x) (hpeek : tcpPeekSize x = .ok s.expected) :
    (seen s.deliver = none ∧ s.deliver.2.Ok size x ∧
      ∀ total, tcpPeekSize x = .ok total → x.length < total) ∨
    ∃ frame, tcpParse x = .ok frame ∧
      seen s.deliver = some ⟨frame.transactionId, frame.unitId, frame.pdu.functionCode,
        frame.pdu.bytes (overwrite s.memory 0 (x.drop frame.consumed))⟩ ∧
      s.deliver.2.Ok size (x.drop frame.consumed) := by
  by_cases hcomplete : s.expected ≤ x.length
  · obtain ⟨frame, hparse, hconsumed, hresult, hok, hmemory⟩ := deliver_complete h hpeek hcomplete
    have hseen : seen s.deliver = seen (.ok (.tcp frame), s.deliver.2) := by rw [← hresult]
    refine Or.inr ⟨frame, hparse, ?_, hconsumed ▸ hok⟩
    rw [hseen, hconsumed, ← hmemory]
    rfl
  · have hwait : s.deliver = (.error .needMore, s) :=
      if_pos (h.buffered ▸ Nat.lt_of_not_le hcomplete)
    refine Or.inl ⟨by rw [hwait]; rfl, by rwa [hwait], fun total htotal => ?_⟩
    rw [hpeek, Except.ok.injEq] at htotal
    omega

/-- What one call does: it waits, or it delivers the ADU that is complete. -/
theorem feed_cases (h : s.Ok size x) (hroom : x.length + data.length ≤ size)
    (hfits : ∀ total, tcpPeekSize (x ++ data) = .ok total → total ≤ size) :
    (seen (s.feed data) = none ∧ (s.feed data).2.Ok size (x ++ data) ∧
      ∀ total, tcpPeekSize (x ++ data) = .ok total → (x ++ data).length < total) ∨
    ∃ frame memory, tcpParse (x ++ data) = .ok frame ∧
      seen (s.feed data) = some ⟨frame.transactionId, frame.unitId, frame.pdu.functionCode,
        frame.pdu.bytes (overwrite memory 0 ((x ++ data).drop frame.consumed))⟩ ∧
      memory.take (x ++ data).length = x ++ data ∧
      (s.feed data).2.Ok size ((x ++ data).drop frame.consumed) := by
  have hbuffered := h.buffered
  have hmemory := h.memory
  obtain ⟨t, ht⟩ : ∃ t : Stream, t = { s with
      memory := overwrite s.memory s.buffered data
      buffered := s.buffered + data.length } := ⟨_, rfl⟩
  have happend : t.Ok size (x ++ data) := ht ▸ h.append hroom
  have hfeed : s.feed data = t.feedTcp := by
    have htransport : t.transport = .tcp := happend.transport
    rw [feed, if_neg (by omega), ← ht]
    dsimp only
    rw [htransport]
  have htake : t.memory.take (x ++ data).length = x ++ data := by
    rw [← happend.buffered]
    exact happend.holds
  -- The size is read in this call, or was before.
  by_cases hexpected : t.expected = 0
  · cases hpeek : tcpPeekSize (x ++ data) with
    | error e =>
      have hwait : t.feedTcp = (.error e, t) := by
        rw [feedTcp, if_pos hexpected, happend.holds, hpeek]
      refine Or.inl ⟨by rw [hfeed, hwait]; rfl, by rwa [hfeed, hwait], fun total htotal => ?_⟩
      cases htotal
    | ok total =>
      have hdeliver : t.feedTcp = { t with expected := total }.deliver := by
        rw [feedTcp, if_pos hexpected, happend.holds, hpeek]
        exact if_neg (happend.memory ▸ Nat.not_lt_of_le (hfits total hpeek))
      have hknown : { t with expected := total }.Ok size (x ++ data) :=
        ⟨happend.transport, happend.memory, happend.holds, happend.buffered, happend.room,
          fun _ => hpeek⟩
      rw [hfeed, hdeliver, ← hpeek]
      obtain hwait | ⟨frame, hparse, hseen, hok⟩ := deliver_cases hknown hpeek
      · exact Or.inl hwait
      · exact Or.inr ⟨frame, t.memory, hparse, hseen, htake, hok⟩
  · have hdeliver : t.feedTcp = t.deliver := if_neg hexpected
    rw [hfeed, hdeliver]
    obtain hwait | ⟨frame, hparse, hseen, hok⟩ := deliver_cases happend (happend.expected hexpected)
    · exact Or.inl hwait
    · exact Or.inr ⟨frame, t.memory, hparse, hseen, htake, hok⟩

end Calls

/-! ## A run of calls -/

section Run

variable {size n : ℕ} {s : Stream} {a : Sent} {sents : List Sent} {x y z data : List UInt8}
  {feeds : List (List UInt8)}

theorem peek_front (ha : a.data.length ≤ 252) (hjoin : y ++ z = (a :: sents).flatMap Sent.wire)
    {total : ℕ} (h : tcpPeekSize y = .ok total) : total = 8 + a.data.length := by
  have happend := tcpPeekSize_append h z
  have hwire := @tcpPeekSize_wire a.transactionId a.unitId a.functionCode a.data ha (y ++ z)
    (by rw [hjoin]; rfl)
  rw [happend, Except.ok.injEq] at hwire
  exact hwire

theorem peek_nil {total : ℕ} : tcpPeekSize [] ≠ .ok total := nofun

/-- An ADU that is complete is the first of those sent. -/
theorem wire_front (ha : a.data.length ≤ 252) (hjoin : y ++ z = (a :: sents).flatMap Sent.wire)
    {frame : TcpAdu} (h : tcpParse y = .ok frame) :
    ∃ rest, y = a.wire ++ rest ∧ rest ++ z = sents.flatMap Sent.wire := by
  have hlength : a.wire.length ≤ y.length := by
    unfold tcpParse at h
    split at h
    · cases h
    next total hpeek =>
      split_ifs at h with hshort
      rw [Sent.wire, length_tcpWire, ← peek_front ha hjoin hpeek]
      exact Nat.le_of_not_lt hshort
  rw [List.flatMap_cons, List.append_eq_append_iff] at hjoin
  obtain ⟨rest, hy, hz⟩ | ⟨rest, hy, hz⟩ := hjoin
  · have hempty : rest = [] := by
      rw [hy, List.length_append] at hlength
      exact List.eq_nil_of_length_eq_zero (by omega)
    rw [hempty, List.append_nil] at hy
    rw [hempty, List.nil_append] at hz
    exact ⟨[], by rw [hy, List.append_nil], hz⟩
  · exact ⟨rest, hy, hz.symm⟩

theorem getElem?_wire {i : ℕ} (hi : i < a.data.length) (rest : List UInt8) :
    (a.wire ++ rest)[8 + i]? = a.data[i]? := by
  have hbehind : 8 + i = i + 8 := Nat.add_comm 8 i
  rw [Sent.wire, tcpWire_eq, hbehind]
  exact List.getElem?_append_left (Nat.add_lt_add_right hi 8)

theorem spare_iff (ha : a.data.length ≤ 252) (rest : List UInt8) : Spare (a.wire ++ rest) ↔
    ∀ i < a.data.length, 8 + i < rest.length → rest[8 + i]? = a.data[i]? := by
  have hlength : a.wire.length = 8 + a.data.length := length_tcpWire
  have hbehind : ∀ j, (a.wire ++ rest)[8 + a.data.length + j]? = rest[j]? := by
    intro j
    rw [← hlength, List.getElem?_append_right (by omega), Nat.add_sub_cancel_left]
  have hparse : tcpParse (a.wire ++ rest) = _ := tcpParse_wire ha rest
  unfold Spare
  rw [hparse]
  constructor
  · intro h i hi hrest
    have hspare := h _ rfl i hi (by rw [List.length_append, hlength]; dsimp only; omega)
    rwa [hbehind, getElem?_wire hi] at hspare
  · rintro h frame hframe i hi hrest
    cases hframe
    rw [List.length_append, hlength] at hrest
    dsimp only at hi hrest ⊢
    rw [hbehind, getElem?_wire hi]
    exact h i hi (by omega)

/-- The data that the caller sees, when the bytes behind the ADU are moved over it. -/
theorem seen_iff {memory rest : List UInt8} (ha : a.data.length ≤ 252)
    (hmemory : memory.take (a.wire ++ rest).length = a.wire ++ rest) :
    ((overwrite memory 0 rest).drop 8).take a.data.length = a.data ↔ Spare (a.wire ++ rest) := by
  have hlength : (a.wire ++ rest).length = 8 + a.data.length + rest.length := by
    rw [List.length_append, Sent.wire, length_tcpWire]
  have hle : (a.wire ++ rest).length ≤ memory.length := by
    have hcount := congrArg List.length hmemory
    rw [List.length_take] at hcount
    omega
  -- The byte of the memory that the caller reads as the byte of the data.
  have hread : ∀ i < a.data.length, (overwrite memory 0 rest)[8 + i]? =
      if 8 + i < rest.length then rest[8 + i]? else a.data[i]? := by
    intro i hi
    rw [Segments.getElem?_overwrite (by omega), if_neg (Nat.not_lt_zero _), Nat.zero_add,
      Nat.sub_zero]
    refine if_congr Iff.rfl rfl ?_
    rw [← List.getElem?_take_of_lt (show 8 + i < (a.wire ++ rest).length by omega), hmemory,
      getElem?_wire hi]
  rw [spare_iff ha]
  constructor
  · intro h i hi hrest
    rw [← h, List.getElem?_take_of_lt hi, List.getElem?_drop, hread i hi, if_pos hrest]
  · intro h
    apply List.ext_getElem?
    intro i
    by_cases hi : i < a.data.length
    · rw [List.getElem?_take_of_lt hi, List.getElem?_drop, hread i hi]
      split_ifs with hrest
      · exact h i hi hrest
      · rfl
    · rw [List.getElem?_eq_none (Nat.le_of_not_lt hi), List.getElem?_eq_none]
      exact (List.length_take_le _ _).trans (Nat.le_of_not_lt hi)

/-- What one call delivers, of the ADUs sent. -/
theorem feed_delivers (h : s.Ok size x) (hroom : x.length + data.length ≤ size)
    (hvalid : ∀ a ∈ sents, a.data.length ≤ 252 ∧ 8 + a.data.length ≤ size)
    (hjoin : x ++ data ++ z = sents.flatMap Sent.wire) :
    (seen (s.feed data) = none ∧ (s.feed data).2.Ok size (x ++ data) ∧
      (∀ a more, sents = a :: more → (x ++ data).length < 8 + a.data.length) ∧
      Spare (s.bytes ++ data)) ∨
    ∃ a more b rest, sents = a :: more ∧ seen (s.feed data) = some b ∧
      (b = a ↔ Spare (s.bytes ++ data)) ∧ (s.feed data).2.Ok size rest ∧
      rest ++ z = more.flatMap Sent.wire := by
  rw [h.holds]
  have hfits : ∀ total, tcpPeekSize (x ++ data) = .ok total → total ≤ size := by
    intro total hpeek
    cases sents with
    | nil =>
      rw [List.flatMap_nil, List.append_eq_nil_iff] at hjoin
      rw [hjoin.1] at hpeek
      exact absurd hpeek peek_nil
    | cons a more =>
      have ha := hvalid a List.mem_cons_self
      rw [peek_front ha.1 hjoin hpeek]
      exact ha.2
  obtain ⟨hnone, hok, hwait⟩ | ⟨frame, memory, hparse, hseen, hmemory, hok⟩ :=
    feed_cases h hroom hfits
  · refine Or.inl ⟨hnone, hok, ?_, ?_⟩
    · rintro a more rfl
      by_contra hcomplete
      have htake : (x ++ data).take 7 = a.wire.take 7 := by
        rw [← List.take_append_of_le_length (show 7 ≤ (x ++ data).length by omega), hjoin]
        rfl
      exact hcomplete (hwait _ (tcpPeekSize_wire (hvalid a List.mem_cons_self).1 htake))
    · intro frame hparse
      exfalso
      unfold tcpParse at hparse
      split at hparse
      · cases hparse
      next total hpeek =>
        rw [if_pos (hwait total hpeek)] at hparse
        cases hparse
  · cases sents with
    | nil =>
      rw [List.flatMap_nil, List.append_eq_nil_iff] at hjoin
      rw [hjoin.1] at hparse
      cases hparse
    | cons a more =>
      have ha := (hvalid a List.mem_cons_self).1
      obtain ⟨rest, hfront, hrest⟩ := wire_front ha hjoin hparse
      rw [hfront] at hparse hseen hmemory hok
      have hwire : tcpParse (a.wire ++ rest) = _ := tcpParse_wire ha rest
      rw [hwire] at hparse
      cases hparse
      dsimp only at hseen hok
      have hdrop : (a.wire ++ rest).drop (8 + a.data.length) = rest := by
        rw [← (show a.wire.length = 8 + a.data.length from length_tcpWire), List.drop_left]
      rw [hdrop] at hseen hok
      refine Or.inr ⟨a, more, _, rest, rfl, hseen, ?_, hok, hrest⟩
      rw [hfront, ← seen_iff ha hmemory]
      constructor
      · intro hsame
        exact congrArg Sent.data hsame
      · intro hdata
        rw [Pdu.bytes, hdata]

/-- What a run of calls delivers: the ADUs sent, in order, once each. -/
theorem run_delivers (h : s.Ok size x)
    (hvalid : ∀ a ∈ sents, a.data.length ≤ 252 ∧ 8 + a.data.length ≤ size)
    (hjoin : x ++ feeds.flatten = sents.flatMap Sent.wire) (htakes : s.Takes feeds) :
    ∃ done left, sents = done ++ left ∧ (s.after feeds).Ok size (left.flatMap Sent.wire) ∧
      (s.deliveries feeds).length = done.length ∧
        (s.deliveries feeds = done ↔ s.Spares feeds) := by
  induction feeds generalizing s x sents with
  | nil =>
    rw [List.flatten_nil, List.append_nil] at hjoin
    exact ⟨[], sents, rfl, hjoin ▸ h, rfl, iff_of_true rfl trivial⟩
  | cons data feeds ih =>
    obtain ⟨hroom, hlater⟩ := htakes
    rw [h.buffered, h.memory] at hroom
    rw [List.flatten_cons, ← List.append_assoc] at hjoin
    obtain ⟨hnone, hok, -, hspare⟩ | ⟨a, more, b, rest, rfl, hsome, hsame, hok, hrest⟩ :=
      feed_delivers h hroom hvalid hjoin
    · obtain ⟨done, left, hsents, hafter, hlength, hiff⟩ := ih hok hvalid hjoin hlater
      refine ⟨done, left, hsents, hafter, ?_, ?_⟩
      · rw [deliveries, hnone]
        exact hlength
      · rw [deliveries, hnone]
        exact hiff.trans (and_iff_right hspare).symm
    · obtain ⟨done, left, rfl, hafter, hlength, hiff⟩ :=
        ih hok (fun b hb => hvalid b (List.mem_cons_of_mem _ hb)) hrest hlater
      refine ⟨a :: done, left, rfl, hafter, ?_, ?_⟩
      · rw [deliveries, hsome]
        exact congrArg Nat.succ hlength
      · rw [deliveries, hsome]
        exact List.cons_eq_cons.trans (and_congr hsame hiff)

/-- Calls without data deliver what is buffered, one ADU each. -/
theorem drain (h : s.Ok size (sents.flatMap Sent.wire))
    (hvalid : ∀ a ∈ sents, a.data.length ≤ 252 ∧ 8 + a.data.length ≤ size) :
    (s.after (List.replicate n [])).Ok size ((sents.drop n).flatMap Sent.wire) := by
  induction n generalizing s sents with
  | zero => exact h
  | succ n ih =>
    have hroom : (sents.flatMap Sent.wire).length + ([] : List UInt8).length ≤ size := h.room
    have hjoin : sents.flatMap Sent.wire ++ [] ++ [] = sents.flatMap Sent.wire := by
      rw [List.append_nil, List.append_nil]
    rw [List.replicate_succ]
    obtain ⟨-, hok, hwait, -⟩ | ⟨a, more, b, rest, rfl, -, -, hok, hrest⟩ :=
      feed_delivers h hroom hvalid hjoin
    · cases sents with
      | nil =>
        have hstill := @ih (s.feed []).2 [] hok hvalid
        rw [List.drop_nil] at hstill ⊢
        exact hstill
      | cons a more =>
        have hshort := hwait a more rfl
        rw [List.append_nil, List.flatMap_cons, List.length_append, Sent.wire,
          length_tcpWire] at hshort
        omega
    · rw [List.append_nil] at hrest
      exact ih (hrest ▸ hok) fun b hb => hvalid b (List.mem_cons_of_mem _ hb)

theorem after_append (s : Stream) (feeds later : List (List UInt8)) :
    s.after (feeds ++ later) = (s.after feeds).after later := by
  induction feeds generalizing s with
  | nil => rfl
  | cons data feeds ih => exact ih (s.feed data).2

theorem Takes.of_append {s : Stream} {feeds later : List (List UInt8)}
    (h : s.Takes (feeds ++ later)) : s.Takes feeds := by
  induction feeds generalizing s with
  | nil => trivial
  | cons data feeds ih => exact ⟨h.1, ih h.2⟩

/-- With calls enough behind the data, all that was sent is delivered. -/
theorem run_delivers_all {memory : List UInt8}
    (hvalid : ∀ a ∈ sents, a.data.length ≤ 252 ∧ 8 + a.data.length ≤ memory.length)
    (hjoin : feeds.flatten = sents.flatMap Sent.wire) (hn : sents.length ≤ n)
    (htakes : (create .tcp memory).Takes (feeds ++ List.replicate n [])) :
    ((create .tcp memory).deliveries (feeds ++ List.replicate n [])).length = sents.length ∧
      ((create .tcp memory).deliveries (feeds ++ List.replicate n []) = sents ↔
        (create .tcp memory).Spares (feeds ++ List.replicate n [])) := by
  have hcreate := create_ok memory
  have hempty : (List.replicate n ([] : List UInt8)).flatten = [] := List.flatten_replicate_nil
  -- What is left behind the data is delivered by the calls without data.
  obtain ⟨early, late, hsplit, hfed, -, -⟩ := run_delivers hcreate hvalid hjoin htakes.of_append
  have hdrained := @drain _ n _ _ hfed fun a ha =>
    hvalid a (hsplit ▸ List.mem_append_right early ha)
  have hlate : late.drop n = [] := by
    apply List.drop_eq_nil_of_le
    rw [hsplit, List.length_append] at hn
    omega
  obtain ⟨done, left, hsents, hafter, hlength, hiff⟩ := run_delivers hcreate hvalid
    (by rw [List.flatten_append, hempty, List.append_nil]; exact hjoin) htakes
  rw [after_append] at hafter
  have hleft : left = [] := by
    have hbytes := hafter.holds.symm.trans hdrained.holds
    rw [hlate, List.flatMap_nil] at hbytes
    cases left with
    | nil => rfl
    | cons a more =>
      have hcount := congrArg List.length hbytes
      rw [List.flatMap_cons, List.length_append, Sent.wire, length_tcpWire, List.length_nil] at hcount
      omega
  rw [hleft, List.append_nil] at hsents
  rw [hsents]
  exact ⟨hlength, hiff⟩

end Run

end Stream

/-! ## The codec and the stream -/

/-- Reading inverts writing and the other way round; what is sent on TCP, cut in any way, is delivered
once and in order, and the data is right if and only if no call moves other bytes over it. -/
theorem adus_delivered (memory : List UInt8) :
    (∀ adu outLen, (adu.pdu.bytes memory).length ≤ maxPduSize - 1 → tcpMaxAduSize ≤ outLen →
      (∀ frame, adu = .tcp frame → frame.protocolId = 0) → ∃ out adu',
        write adu memory outLen = some out ∧ read adu.transport out = .ok adu' ∧
          Same adu memory adu' out ∧ adu'.consumed = out.length) ∧
    (∀ transport data adu outLen, read transport data = .ok adu → adu.consumed ≤ outLen →
      write adu data outLen = some (data.take adu.consumed)) ∧
    ∀ sents feeds n,
      (∀ a ∈ sents, a.data.length ≤ maxPduSize - 1 ∧ a.wire.length ≤ memory.length) →
      feeds.flatten = sents.flatMap Sent.wire → sents.length ≤ n →
      (Stream.create .tcp memory).Takes (feeds ++ List.replicate n []) →
        ((Stream.create .tcp memory).deliveries (feeds ++ List.replicate n [])).length =
          sents.length ∧
        ((Stream.create .tcp memory).deliveries (feeds ++ List.replicate n []) = sents ↔
          (Stream.create .tcp memory).Spares (feeds ++ List.replicate n [])) := by
  refine ⟨fun adu outLen hsize hout hprotocol => ?_,
    fun transport data adu outLen h hout => write_read h hout,
    fun sents feeds n hvalid hjoin hn htakes => ?_⟩
  · obtain ⟨out, hwrite⟩ := Option.isSome_iff_exists.1 (write_isSome hsize hout hprotocol)
    obtain ⟨adu', hread, hsame, hconsumed⟩ := read_write hwrite
    exact ⟨out, adu', hwrite, hread, hsame, hconsumed⟩
  · refine Stream.run_delivers_all (fun a ha => ?_) hjoin hn htakes
    obtain ⟨hsize, hfits⟩ := hvalid a ha
    rw [Sent.wire, length_tcpWire] at hfits
    exact ⟨hsize, hfits⟩

/-- Of two ADUs in one call both are delivered, and one of them is not spared. -/
theorem adus_delivered_two :
    let memory := List.replicate 64 0
    let sents := [(⟨1, 1, 3, [7]⟩ : Sent), ⟨2, 1, 3, [8]⟩]
    let feeds := [sents.flatMap Sent.wire] ++ List.replicate 2 []
    ((Stream.create .tcp memory).deliveries feeds).length = 2 ∧
      ¬(Stream.create .tcp memory).Spares feeds := by
  have h := (adus_delivered (List.replicate 64 0)).2.2 [⟨1, 1, 3, [7]⟩, ⟨2, 1, 3, [8]⟩]
    [[(⟨1, 1, 3, [7]⟩ : Sent), ⟨2, 1, 3, [8]⟩].flatMap Sent.wire] 2 (by decide) (by decide) (by decide)
    ⟨by decide, by decide, by decide, trivial⟩
  exact ⟨h.1, fun hspares => absurd (h.2.2 hspares) (by decide)⟩

/-- Two ADUs in one call: the first has one byte of data, of the second sixteen bytes are moved over
it. -/
theorem stream_moves_over_data : ¬∀ (memory : List UInt8) sents feeds n,
    (∀ a ∈ sents, a.data.length ≤ maxPduSize - 1 ∧ a.wire.length ≤ memory.length) →
    feeds.flatten = sents.flatMap Sent.wire → sents.length ≤ n →
    (Stream.create .tcp memory).Takes (feeds ++ List.replicate n []) →
      (Stream.create .tcp memory).deliveries (feeds ++ List.replicate n []) = sents := by
  intro h
  have hwrong := h (List.replicate 64 0) [⟨1, 1, 3, [7]⟩, ⟨2, 1, 3, [8]⟩]
    [(⟨1, 1, 3, [7]⟩ : Sent).wire ++ (⟨2, 1, 3, [8]⟩ : Sent).wire] 2 (by decide) (by decide) (by decide)
    ⟨by decide, by decide, by decide, trivial⟩
  revert hwrong
  decide

end Modbus
