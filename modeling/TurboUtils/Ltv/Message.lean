import Mathlib.Data.List.GetD
import TurboUtils.Ltv.Varint

/-! LTV messages: a length, a type, and a value. No pointer is null. -/
namespace Ltv

def maxPayloadSize : ℕ := 10 * 1024 * 1024

/-- `LtvParseResult`, other than `LTV_PARSE_OK`. -/
inductive ParseError where
  | needMore
  | invalidVarint
  | sizeOverflow
  | bufferOverflow
  deriving DecidableEq

/-- `ltv_message_t`, with the bytes that `value` points to. -/
structure Message where
  length : ℕ
  type : UInt8
  value : List UInt8
  valueSize : ℕ
  consumed : ℕ
  deriving DecidableEq

/-- `ltv_peek_size`: the length, and the size of the header. -/
def peekSize (data : List UInt8) : Except ParseError (ℕ × ℕ) :=
  match decodeVarint data with
  | .needMore => .error .needMore
  | .malformed => .error .invalidVarint
  | .decoded length size =>
      if length = 0 then .error .invalidVarint
      else if maxPayloadSize + 1 < length then .error .sizeOverflow
      else .ok (length, size)

/-- `ltv_total_size`. -/
def totalSize (length headerSize : ℕ) : ℕ := headerSize + length

/-- The end of `ltv_parse`. -/
def readMessage (data : List UInt8) (length headerSize : ℕ) : Message where
  length := length
  type := data.getD headerSize 0
  value := (data.drop (headerSize + 1)).take (length - 1)
  valueSize := length - 1
  consumed := totalSize length headerSize

/-- `ltv_parse`. -/
def parse (data : List UInt8) : Except ParseError Message :=
  match peekSize data with
  | .error e => .error e
  | .ok (length, headerSize) =>
      if data.length < totalSize length headerSize then .error .needMore
      else .ok (readMessage data length headerSize)

/-- `ltv_wire_size`. -/
def wireSize (valueSize : ℕ) : ℕ :=
  if maxPayloadSize < valueSize then 0 else varintSize (valueSize + 1) + (valueSize + 1)

/-- `ltv_build`: the bytes that it writes, if it writes any. -/
def build (type : UInt8) (value : List UInt8) (outLen : ℕ) : Option (List UInt8) :=
  if wireSize value.length = 0 ∨ outLen < wireSize value.length then none
  else some (encodeVarint (value.length + 1) ++ type :: value)

/-! ## What is on the wire -/

def wire (type : UInt8) (value : List UInt8) : List UInt8 :=
  encodeVarint (value.length + 1) ++ type :: value

def message (type : UInt8) (value : List UInt8) : Message where
  length := value.length + 1
  type := type
  value := value
  valueSize := value.length
  consumed := (wire type value).length

section Wire

variable {data more : List UInt8} {length headerSize : ℕ} {type : UInt8} {value : List UInt8}
  {m : Message} {e : ParseError}

theorem length_wire (type : UInt8) (value : List UInt8) :
    (wire type value).length = totalSize (value.length + 1) (encodeVarint (value.length + 1)).length := by
  rw [wire, List.length_append, List.length_cons, totalSize]

theorem length_encodeVarint {n : ℕ} (h : n < 2 ^ 32) : (encodeVarint n).length = varintSize n := by
  have hle : ∀ k, (encodeVarint n).length ≤ k + 1 ↔ n < 128 ^ (k + 1) := fun k => by
    rw [encodeVarint_eq]
    exact Leb128.length_encode_le
  have hpos : 0 < (encodeVarint n).length := by
    rw [encodeVarint_eq]
    exact List.length_pos_of_ne_nil (Leb128.encode_ne_nil n)
  have h0 := hle 0
  have h1 := hle 1
  have h2 := hle 2
  have h3 := hle 3
  have h4 := hle 4
  norm_num at h0 h1 h2 h3 h4
  unfold varintSize
  split_ifs <;> omega

theorem peekSize_ok : peekSize data = .ok (length, headerSize) ↔ 0 < length ∧
    length ≤ maxPayloadSize + 1 ∧ headerSize = (encodeVarint length).length ∧
      ∃ rest, data = encodeVarint length ++ rest := by
  unfold peekSize
  constructor
  · intro h
    split at h
    · cases h
    · cases h
    next value size hdecoded =>
      split_ifs at h with hzero hlarge
      cases h
      obtain ⟨-, rest, hdata, hsize⟩ := decodeVarint_decoded.1 hdecoded
      exact ⟨Nat.pos_of_ne_zero hzero, Nat.le_of_not_lt hlarge, hsize, rest, hdata⟩
  · rintro ⟨hpos, hle, rfl, rest, rfl⟩
    have hlt : length < 2 ^ 32 := by
      unfold maxPayloadSize at hle
      omega
    rw [decodeVarint_encode hlt]
    dsimp only
    rw [if_neg hpos.ne', if_neg (Nat.not_lt_of_le hle)]

theorem peekSize_append (h : peekSize data = .ok (length, headerSize)) (more : List UInt8) :
    peekSize (data ++ more) = .ok (length, headerSize) := by
  obtain ⟨hpos, hle, hheader, rest, rfl⟩ := peekSize_ok.1 h
  exact peekSize_ok.2 ⟨hpos, hle, hheader, rest ++ more, List.append_assoc _ _ _⟩

theorem peekSize_needMore : peekSize data = .error .needMore ↔
    ∃ n < 2 ^ 32, ∃ rest, rest ≠ [] ∧ encodeVarint n = data ++ rest := by
  rw [← decodeVarint_needMore_iff]
  unfold peekSize
  split
  next h => simp [h]
  next h => simp [h]
  next value size h =>
    rw [h]
    split_ifs <;> simp

theorem decodeVarint_malformed_append (h : decodeVarint data = .malformed) (more : List UInt8) :
    decodeVarint (data ++ more) = .malformed := by
  cases hmore : decodeVarint (data ++ more) with
  | malformed => rfl
  | needMore =>
    obtain ⟨hlength, hcontinues⟩ := decodeVarint_needMore.1 hmore
    have hneed : decodeVarint data = .needMore := by
      rw [List.length_append] at hlength
      exact decodeVarint_needMore.2
        ⟨by omega, fun b hb => hcontinues b (List.mem_append_left _ hb)⟩
    rw [h] at hneed
    cases hneed
  | decoded n size =>
    obtain ⟨hlt, rest, hdata, hsize⟩ := decodeVarint_decoded.1 hmore
    rcases List.append_eq_append_iff.1 hdata with ⟨missing, hencode, -⟩ | ⟨left, hleft, -⟩
    · cases missing with
      | nil =>
        rw [List.append_nil] at hencode
        rw [← List.append_nil data, ← hencode, decodeVarint_encode hlt] at h
        cases h
      | cons b missing =>
        have hneed : decodeVarint data = .needMore :=
          decodeVarint_needMore_iff.2 ⟨n, hlt, b :: missing, List.cons_ne_nil _ _, hencode⟩
        rw [h] at hneed
        cases hneed
    · rw [hleft, decodeVarint_encode hlt] at h
      cases h

theorem peekSize_error_append (h : peekSize data = .error e) (hne : e ≠ .needMore)
    (more : List UInt8) : peekSize (data ++ more) = .error e := by
  unfold peekSize at h ⊢
  split at h
  · cases h
    exact absurd rfl hne
  next hmalformed => rwa [decodeVarint_malformed_append hmalformed]
  next n size hdecoded =>
    obtain ⟨hlt, rest, rfl, rfl⟩ := decodeVarint_decoded.1 hdecoded
    rwa [List.append_assoc, decodeVarint_encode hlt]

theorem readMessage_wire (type : UInt8) (value rest : List UInt8) :
    readMessage (wire type value ++ rest) (value.length + 1)
      (encodeVarint (value.length + 1)).length = message type value := by
  have hlength := length_wire type value
  rw [message, hlength]
  unfold readMessage wire
  rw [List.append_assoc, List.getD_append_right _ _ _ _ (le_refl _), Nat.sub_self, ← List.drop_drop,
    List.drop_left, List.cons_append, List.getD_cons_zero, Nat.add_sub_cancel, List.drop_one,
    List.tail_cons, List.take_left]

/-- The parser accepts what begins with a message. -/
theorem parse_ok : parse data = .ok m ↔ ∃ type value rest, value.length ≤ maxPayloadSize ∧
    data = wire type value ++ rest ∧ m = message type value := by
  unfold parse
  constructor
  · intro h
    split at h
    · cases h
    next length headerSize hpeek =>
      split_ifs at h with hshort
      cases h
      obtain ⟨hpos, hle, rfl, rest, rfl⟩ := peekSize_ok.1 hpeek
      rw [List.length_append, totalSize] at hshort
      obtain ⟨type, rest, rfl⟩ := List.exists_cons_of_length_pos (l := rest) (by omega)
      rw [List.length_cons] at hshort
      have htake : (rest.take (length - 1)).length = length - 1 := by
        rw [List.length_take]
        omega
      have hlength : (rest.take (length - 1)).length + 1 = length := by omega
      have hdata : encodeVarint length ++ type :: rest =
          wire type (rest.take (length - 1)) ++ rest.drop (length - 1) := by
        rw [wire, hlength, List.append_assoc, List.cons_append, List.take_append_drop]
      refine ⟨type, rest.take (length - 1), rest.drop (length - 1), by omega, hdata, ?_⟩
      have hread := readMessage_wire type (rest.take (length - 1)) (rest.drop (length - 1))
      rwa [hlength, ← hdata] at hread
  · rintro ⟨type, value, rest, hle, rfl, rfl⟩
    have hpeek : peekSize (wire type value ++ rest) =
        .ok (value.length + 1, (encodeVarint (value.length + 1)).length) :=
      peekSize_ok.2 ⟨Nat.succ_pos _, Nat.succ_le_succ hle, rfl, type :: value ++ rest, by
        rw [wire, List.append_assoc]⟩
    rw [hpeek]
    dsimp only
    rw [if_neg, readMessage_wire]
    rw [List.length_append, length_wire]
    omega

theorem build_eq (hle : value.length ≤ maxPayloadSize) {outLen : ℕ}
    (hout : (wire type value).length ≤ outLen) : build type value outLen = some (wire type value) := by
  have hsize : wireSize value.length = (wire type value).length := by
    rw [length_wire, wireSize, if_neg (Nat.not_lt_of_le hle), length_encodeVarint, totalSize]
    unfold maxPayloadSize at hle
    omega
  have hpos : 0 < (wire type value).length := by
    rw [wire, List.length_append, List.length_cons]
    omega
  rw [build, hsize, if_neg (by omega)]
  rfl

end Wire

end Ltv
