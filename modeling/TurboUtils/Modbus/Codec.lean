import Mathlib.Data.List.GetD
import TurboUtils.Lib.Fallible

/-! Modbus ADUs on TCP and on RTU: reading inverts writing, and the other way round. No pointer is
null but that to data of size zero. -/
namespace Modbus

def tcpMbapSize : ℕ := 7
def tcpMinAduSize : ℕ := 8
def tcpMaxAduSize : ℕ := 260
def maxPduSize : ℕ := 253
def rtuMinAduSize : ℕ := 4
def rtuMaxAduSize : ℕ := 256

/-- `ModbusParseResult`, other than `MODBUS_PARSE_OK`. -/
inductive ParseError where
  | needMore
  | invalidInput
  | invalidProtocol
  | invalidLength
  | crcMismatch
  | bufferOverflow
  deriving DecidableEq

inductive Transport where
  | tcp
  | rtu
  deriving DecidableEq

/-- `modbus_pdu_t`. The data is where it points to. -/
structure Pdu where
  functionCode : UInt8
  data : ℕ
  dataSize : ℕ
  deriving DecidableEq

/-- `modbus_tcp_adu_t`. -/
structure TcpAdu where
  transactionId : UInt16
  protocolId : UInt16
  length : UInt16
  unitId : UInt8
  pdu : Pdu
  consumed : ℕ
  deriving DecidableEq

/-- `modbus_rtu_adu_t`. -/
structure RtuAdu where
  address : UInt8
  pdu : Pdu
  crc : UInt16
  consumed : ℕ
  deriving DecidableEq

/-- `modbus_adu_t`. -/
inductive Adu where
  | tcp (frame : TcpAdu)
  | rtu (frame : RtuAdu)
  deriving DecidableEq

def Pdu.bytes (pdu : Pdu) (memory : List UInt8) : List UInt8 :=
  (memory.drop pdu.data).take pdu.dataSize

/-! ## TCP -/

/-- `read_be16` at an offset. -/
def readBe16 (data : List UInt8) (offset : ℕ) : UInt16 :=
  (data.getD offset 0).toUInt16 <<< 8 ||| (data.getD (offset + 1) 0).toUInt16

/-- `write_be16`. -/
def writeBe16 (value : UInt16) : List UInt8 := [(value >>> 8).toUInt8, value.toUInt8]

/-- `modbus_pdu_size_valid`. -/
def pduSizeValid (dataSize : ℕ) : Bool := dataSize ≤ maxPduSize - 1

/-- `modbus_tcp_peek_size`. -/
def tcpPeekSize (data : List UInt8) : Except ParseError ℕ :=
  if data.length < tcpMbapSize then .error .needMore
  else if readBe16 data 2 ≠ 0 then .error .invalidProtocol
  else
    let length := (readBe16 data 4).toNat
    if length < 2 ∨ maxPduSize + 1 < length then .error .invalidLength else .ok (6 + length)

/-- The end of `modbus_tcp_parse`. -/
def tcpFields (data : List UInt8) (total : ℕ) : TcpAdu where
  transactionId := readBe16 data 0
  protocolId := readBe16 data 2
  length := readBe16 data 4
  unitId := data.getD 6 0
  pdu := ⟨data.getD 7 0, 8, (readBe16 data 4).toNat - 1 - 1⟩
  consumed := total

/-- `modbus_tcp_parse`. -/
def tcpParse (data : List UInt8) : Except ParseError TcpAdu :=
  match tcpPeekSize data with
  | .error e => .error e
  | .ok total =>
      if data.length < total then .error .needMore else .ok (tcpFields data total)

/-- `modbus_tcp_build`: the bytes that it writes, if it writes any. -/
def tcpBuild (transactionId : UInt16) (unitId functionCode : UInt8) (pduData : List UInt8)
    (outLen : ℕ) : Option (List UInt8) :=
  if !pduSizeValid pduData.length || outLen < tcpMinAduSize + pduData.length then none
  else
    some (writeBe16 transactionId ++ writeBe16 0 ++ writeBe16 (UInt16.ofNat (2 + pduData.length)) ++
      [unitId, functionCode] ++ pduData)

/-- `modbus_tcp_write`. -/
def tcpWrite (adu : TcpAdu) (memory : List UInt8) (outLen : ℕ) : Option (List UInt8) :=
  if adu.protocolId ≠ 0 then none
  else tcpBuild adu.transactionId adu.unitId adu.pdu.functionCode (adu.pdu.bytes memory) outLen

/-! ## RTU -/

/-- One bit of `modbus_rtu_crc16`. -/
def crcBit (crc : UInt16) : UInt16 := if crc &&& 1 ≠ 0 then crc >>> 1 ^^^ 0xA001 else crc >>> 1

/-- `modbus_rtu_crc16`. -/
def rtuCrc16 (data : List UInt8) : UInt16 :=
  data.foldl (fun crc byte => crcBit^[8] (crc ^^^ byte.toUInt16)) 0xFFFF

def wireCrc (data : List UInt8) : UInt16 :=
  (data.getD (data.length - 2) 0).toUInt16 ||| (data.getD (data.length - 1) 0).toUInt16 <<< 8

/-- `modbus_rtu_parse`. -/
def rtuParse (data : List UInt8) : Except ParseError RtuAdu :=
  if data.length < rtuMinAduSize then .error .needMore
  else if rtuMaxAduSize < data.length then .error .invalidLength
  else if rtuCrc16 (data.take (data.length - 2)) ≠ wireCrc data then .error .crcMismatch
  else
    .ok ⟨data.getD 0 0, ⟨data.getD 1 0, 2, data.length - 4⟩, wireCrc data, data.length⟩

/-- `modbus_rtu_build`. -/
def rtuBuild (address functionCode : UInt8) (pduData : List UInt8) (outLen : ℕ) :
    Option (List UInt8) :=
  if !pduSizeValid pduData.length || outLen < rtuMinAduSize + pduData.length then none
  else
    let body := [address, functionCode] ++ pduData
    let crc := rtuCrc16 body
    some (body ++ [crc.toUInt8, (crc >>> 8).toUInt8])

/-- `modbus_rtu_write`. -/
def rtuWrite (adu : RtuAdu) (memory : List UInt8) (outLen : ℕ) : Option (List UInt8) :=
  rtuBuild adu.address adu.pdu.functionCode (adu.pdu.bytes memory) outLen

/-! ## Both -/

/-- `modbus_read`. -/
def read (transport : Transport) (data : List UInt8) : Except ParseError Adu :=
  match transport with
  | .tcp => (tcpParse data).map .tcp
  | .rtu => (rtuParse data).map .rtu

/-- `modbus_write`. -/
def write (adu : Adu) (memory : List UInt8) (outLen : ℕ) : Option (List UInt8) :=
  match adu with
  | .tcp frame => tcpWrite frame memory outLen
  | .rtu frame => rtuWrite frame memory outLen

def Adu.transport : Adu → Transport
  | .tcp _ => .tcp
  | .rtu _ => .rtu

def Adu.pdu : Adu → Pdu
  | .tcp frame => frame.pdu
  | .rtu frame => frame.pdu

def Adu.consumed : Adu → ℕ
  | .tcp frame => frame.consumed
  | .rtu frame => frame.consumed

/-! ## Words of two bytes -/

section Words

variable {a b : UInt8} {v : UInt16} {n : ℕ}

theorem toNat_join (a b : UInt8) :
    (a.toUInt16 <<< 8 ||| b.toUInt16).toNat = a.toNat * 256 + b.toNat := by
  have ha := a.toNat_lt
  have hb := b.toNat_lt
  have hshift : (a.toUInt16 <<< 8).toNat = 2 ^ 8 * a.toNat := by
    have height : UInt16.toNat 8 % 16 = 8 := rfl
    rw [UInt16.toNat_shiftLeft, UInt8.toNat_toUInt16, height, Nat.shiftLeft_eq]
    omega
  rw [UInt16.toNat_or, hshift, UInt8.toNat_toUInt16, ← Nat.two_pow_add_eq_or_of_lt hb]
  omega

theorem toNat_high (v : UInt16) : (v >>> 8).toUInt8.toNat = v.toNat / 256 := by
  have hv := v.toNat_lt
  have height : UInt16.toNat 8 % 16 = 8 := rfl
  rw [UInt16.toNat_toUInt8, UInt16.toNat_shiftRight, height, Nat.shiftRight_eq_div_pow]
  omega

theorem toNat_low (v : UInt16) : v.toUInt8.toNat = v.toNat % 256 := UInt16.toNat_toUInt8 v

theorem join_split (v : UInt16) : (v >>> 8).toUInt8.toUInt16 <<< 8 ||| v.toUInt8.toUInt16 = v := by
  apply UInt16.toNat_inj.1
  rw [toNat_join, toNat_high, toNat_low]
  omega

theorem writeBe16_join (a b : UInt8) : writeBe16 (a.toUInt16 <<< 8 ||| b.toUInt16) = [a, b] := by
  have hb := b.toNat_lt
  have hjoin := toNat_join a b
  have hhigh : ((a.toUInt16 <<< 8 ||| b.toUInt16) >>> 8).toUInt8 = a := by
    apply UInt8.toNat_inj.1
    rw [toNat_high, hjoin]
    omega
  have hlow : (a.toUInt16 <<< 8 ||| b.toUInt16).toUInt8 = b := by
    apply UInt8.toNat_inj.1
    rw [toNat_low, hjoin]
    omega
  rw [writeBe16, hhigh, hlow]

end Words

/-! ## Reading what is written -/

/-- Whether two ADUs say the same, each with the memory that its data is in. -/
def Same (a : Adu) (memory : List UInt8) (b : Adu) (memory' : List UInt8) : Prop :=
  match a, b with
  | .tcp f, .tcp f' => f.transactionId = f'.transactionId ∧ f.protocolId = f'.protocolId ∧
      f.unitId = f'.unitId ∧ f.pdu.functionCode = f'.pdu.functionCode ∧
        f.pdu.bytes memory = f'.pdu.bytes memory'
  | .rtu f, .rtu f' => f.address = f'.address ∧ f.pdu.functionCode = f'.pdu.functionCode ∧
      f.pdu.bytes memory = f'.pdu.bytes memory'
  | _, _ => False

section Tcp

variable {transactionId : UInt16} {unitId functionCode : UInt8} {data rest out : List UInt8}

def tcpWire (transactionId : UInt16) (unitId functionCode : UInt8) (data : List UInt8) :
    List UInt8 :=
  writeBe16 transactionId ++ writeBe16 0 ++ writeBe16 (UInt16.ofNat (2 + data.length)) ++
    [unitId, functionCode] ++ data

theorem tcpWire_eq : tcpWire transactionId unitId functionCode data =
    (transactionId >>> 8).toUInt8 :: transactionId.toUInt8 :: 0 :: 0 ::
      (UInt16.ofNat (2 + data.length) >>> 8).toUInt8 :: (UInt16.ofNat (2 + data.length)).toUInt8 ::
        unitId :: functionCode :: data := rfl

theorem length_tcpWire : (tcpWire transactionId unitId functionCode data).length = 8 + data.length := by
  rw [tcpWire_eq]
  simp only [List.length_cons]
  omega

theorem tcpBuild_eq_some {outLen : ℕ} :
    tcpBuild transactionId unitId functionCode data outLen = some out ↔ data.length ≤ 252 ∧
      8 + data.length ≤ outLen ∧ out = tcpWire transactionId unitId functionCode data := by
  have hvalid : pduSizeValid data.length = true ↔ data.length ≤ 252 := decide_eq_true_iff
  have hmin : tcpMinAduSize = 8 := rfl
  unfold tcpBuild
  rw [Option.ite_none_left_eq_some, Bool.or_eq_true, not_or, Bool.not_eq_true', Bool.not_eq_false,
    decide_eq_true_eq, Nat.not_lt, hvalid, hmin, Option.some.injEq, and_assoc]
  exact and_congr_right fun _ => and_congr_right fun _ => eq_comm

/-- The header of an ADU, followed by any bytes. -/
theorem tcpPeekSize_wire (hsize : data.length ≤ 252) {bytes : List UInt8}
    (htake : bytes.take 7 = (tcpWire transactionId unitId functionCode data).take 7) :
    tcpPeekSize bytes = .ok (8 + data.length) := by
  have hlength : (UInt16.ofNat (2 + data.length)).toNat = 2 + data.length := by
    rw [UInt16.toNat_ofNat']
    omega
  have hsplit := List.take_append_drop 7 bytes
  rw [htake, tcpWire_eq] at hsplit
  rw [← hsplit]
  unfold tcpPeekSize
  rw [if_neg (by simp [tcpMbapSize]), if_neg (by simp [readBe16])]
  have hread : ∀ more : List UInt8, readBe16 ((transactionId >>> 8).toUInt8 ::
      transactionId.toUInt8 :: 0 :: 0 :: (UInt16.ofNat (2 + data.length) >>> 8).toUInt8 ::
        (UInt16.ofNat (2 + data.length)).toUInt8 :: unitId :: more) 4 =
      UInt16.ofNat (2 + data.length) := fun more => join_split _
  dsimp only [List.take_succ_cons, List.take_zero, List.cons_append, List.nil_append]
  rw [hread, hlength, if_neg (by unfold maxPduSize; omega)]
  congr 1
  omega

theorem tcpParse_wire (hsize : data.length ≤ 252) (rest : List UInt8) :
    tcpParse (tcpWire transactionId unitId functionCode data ++ rest) =
      .ok ⟨transactionId, 0, UInt16.ofNat (2 + data.length), unitId,
        ⟨functionCode, 8, data.length⟩, 8 + data.length⟩ := by
  have hpeek := @tcpPeekSize_wire transactionId unitId functionCode data hsize
    (tcpWire transactionId unitId functionCode data ++ rest) rfl
  have hlength : (UInt16.ofNat (2 + data.length)).toNat = 2 + data.length := by
    rw [UInt16.toNat_ofNat']
    omega
  have hshort : ¬(tcpWire transactionId unitId functionCode data ++ rest).length < 8 + data.length := by
    rw [List.length_append, length_tcpWire]
    omega
  have hread : readBe16 (tcpWire transactionId unitId functionCode data ++ rest) 4 =
      UInt16.ofNat (2 + data.length) := join_split _
  have htransaction : readBe16 (tcpWire transactionId unitId functionCode data ++ rest) 0 =
      transactionId := join_split _
  unfold tcpParse
  rw [hpeek]
  dsimp only
  rw [if_neg hshort, tcpFields, hread, htransaction, hlength]
  have hprotocol : readBe16 (tcpWire transactionId unitId functionCode data ++ rest) 2 = 0 :=
    (by decide : (0 : UInt8).toUInt16 <<< 8 ||| (0 : UInt8).toUInt16 = 0)
  have hdata : 2 + data.length - 1 - 1 = data.length := by omega
  rw [hprotocol, hdata]
  rfl

/-- What is accepted begins with an ADU. -/
theorem tcpParse_ok {adu : TcpAdu} (h : tcpParse data = .ok adu) :
    ∃ pduData rest, pduData.length ≤ 252 ∧
      data = tcpWire adu.transactionId adu.unitId adu.pdu.functionCode pduData ++ rest := by
  unfold tcpParse at h
  split at h
  · cases h
  next total hpeek =>
    split_ifs at h with hshort
    cases h
    unfold tcpPeekSize at hpeek
    split_ifs at hpeek with hheader hprotocol
    dsimp only at hpeek
    split_ifs at hpeek with hlength
    cases hpeek
    -- The eight bytes in front of the data.
    rcases data with _ | ⟨b0, _ | ⟨b1, _ | ⟨b2, _ | ⟨b3, _ | ⟨b4, _ | ⟨b5, _ | ⟨b6, _ | ⟨b7, more⟩⟩⟩⟩⟩⟩⟩⟩
    case cons.cons.cons.cons.cons.cons.cons.cons =>
      have hbytes : ∀ v : UInt16, [(v >>> 8).toUInt8, v.toUInt8] = writeBe16 v := fun _ => rfl
      have hread0 : readBe16 (b0 :: b1 :: b2 :: b3 :: b4 :: b5 :: b6 :: b7 :: more) 0 =
          b0.toUInt16 <<< 8 ||| b1.toUInt16 := rfl
      have hread2 : readBe16 (b0 :: b1 :: b2 :: b3 :: b4 :: b5 :: b6 :: b7 :: more) 2 =
          b2.toUInt16 <<< 8 ||| b3.toUInt16 := rfl
      have hread4 : readBe16 (b0 :: b1 :: b2 :: b3 :: b4 :: b5 :: b6 :: b7 :: more) 4 =
          b4.toUInt16 <<< 8 ||| b5.toUInt16 := rfl
      rw [not_not, hread2] at hprotocol
      have hzero : writeBe16 0 = [b2, b3] := by rw [← writeBe16_join, hprotocol]
      rw [hread4] at hlength hshort
      simp only [List.length_cons] at hshort
      have hmax : maxPduSize = 253 := rfl
      have htake : (more.take ((b4.toUInt16 <<< 8 ||| b5.toUInt16).toNat - 2)).length =
          (b4.toUInt16 <<< 8 ||| b5.toUInt16).toNat - 2 := by
        rw [List.length_take]
        omega
      refine ⟨more.take ((b4.toUInt16 <<< 8 ||| b5.toUInt16).toNat - 2),
        more.drop ((b4.toUInt16 <<< 8 ||| b5.toUInt16).toNat - 2), by omega, ?_⟩
      have hsum : 2 + ((b4.toUInt16 <<< 8 ||| b5.toUInt16).toNat - 2) =
          (b4.toUInt16 <<< 8 ||| b5.toUInt16).toNat := by omega
      rw [tcpWire, htake, hsum, UInt16.ofNat_toNat, writeBe16_join, hzero]
      dsimp only [tcpFields]
      rw [hread0, writeBe16_join]
      simp only [List.cons_append, List.nil_append, List.take_append_drop]
      rfl
    all_goals
      simp only [List.length_nil, List.length_cons] at hshort
      omega

/-- What is accepted says what the bytes of the ADU say. -/
theorem tcpParse_eq {adu : TcpAdu} (h : tcpParse data = .ok adu) : ∃ pduData rest,
    pduData.length ≤ 252 ∧
      data = tcpWire adu.transactionId adu.unitId adu.pdu.functionCode pduData ++ rest ∧
      adu.protocolId = 0 ∧ adu.pdu.data = 8 ∧ adu.pdu.dataSize = pduData.length ∧
      adu.consumed = (tcpWire adu.transactionId adu.unitId adu.pdu.functionCode pduData).length ∧
      tcpParse (tcpWire adu.transactionId adu.unitId adu.pdu.functionCode pduData) = .ok adu := by
  obtain ⟨pduData, rest, hsize, hdata⟩ := tcpParse_ok h
  have hparse := @tcpParse_wire adu.transactionId adu.unitId adu.pdu.functionCode pduData hsize
  have halone := hparse []
  have hwhole := hparse rest
  rw [← hdata, h, Except.ok.injEq] at hwhole
  rw [List.append_nil, ← hwhole] at halone
  refine ⟨pduData, rest, hsize, hdata, ?_, ?_, ?_, ?_, halone⟩
  · rw [hwhole]
  · rw [hwhole]
  · rw [hwhole]
  · rw [length_tcpWire, hwhole]

end Tcp

section Rtu

variable {address functionCode : UInt8} {data body out : List UInt8} {x y : UInt8}

def rtuWire (address functionCode : UInt8) (data : List UInt8) : List UInt8 :=
  (address :: functionCode :: data) ++ [(rtuCrc16 (address :: functionCode :: data)).toUInt8,
    (rtuCrc16 (address :: functionCode :: data) >>> 8).toUInt8]

theorem length_rtuWire : (rtuWire address functionCode data).length = 4 + data.length := by
  rw [rtuWire, List.length_append]
  simp only [List.length_cons, List.length_nil]
  omega

theorem rtuBuild_eq_some {outLen : ℕ} : rtuBuild address functionCode data outLen = some out ↔
    data.length ≤ 252 ∧ 4 + data.length ≤ outLen ∧ out = rtuWire address functionCode data := by
  have hvalid : pduSizeValid data.length = true ↔ data.length ≤ 252 := decide_eq_true_iff
  have hmin : rtuMinAduSize = 4 := rfl
  unfold rtuBuild
  rw [Option.ite_none_left_eq_some, Bool.or_eq_true, not_or, Bool.not_eq_true', Bool.not_eq_false,
    decide_eq_true_eq, Nat.not_lt, hvalid, hmin, Option.some.injEq, and_assoc]
  exact and_congr_right fun _ => and_congr_right fun _ => eq_comm

theorem wireCrc_append : wireCrc (body ++ [x, y]) = y.toUInt16 <<< 8 ||| x.toUInt16 := by
  have hlength : (body ++ [x, y]).length = body.length + 2 := List.length_append
  have hfirst : (body ++ [x, y]).getD body.length 0 = x := by
    rw [List.getD_append_right _ _ _ _ (le_refl _), Nat.sub_self]
    rfl
  have hsecond : (body ++ [x, y]).getD (body.length + 1) 0 = y := by
    rw [List.getD_append_right _ _ _ _ (by omega), Nat.add_sub_cancel_left]
    rfl
  rw [wireCrc, hlength, Nat.add_sub_cancel, show body.length + 2 - 1 = body.length + 1 by omega,
    hfirst, hsecond, UInt16.or_comm]

theorem rtuParse_append (hbody : 2 ≤ body.length) (hmax : body.length ≤ 254) :
    rtuParse (body ++ [x, y]) = if rtuCrc16 body ≠ y.toUInt16 <<< 8 ||| x.toUInt16 then
        .error .crcMismatch
      else .ok ⟨body.getD 0 0, ⟨body.getD 1 0, 2, body.length - 2⟩,
        y.toUInt16 <<< 8 ||| x.toUInt16, body.length + 2⟩ := by
  have hlength : (body ++ [x, y]).length = body.length + 2 := List.length_append
  unfold rtuParse
  rw [hlength, if_neg (by unfold rtuMinAduSize; omega), if_neg (by unfold rtuMaxAduSize; omega),
    Nat.add_sub_cancel, List.take_left, wireCrc_append, List.getD_append _ _ _ _ (by omega),
    List.getD_append _ _ _ _ (by omega), show body.length + 2 - 4 = body.length - 2 by omega]

theorem rtuParse_wire (hsize : data.length ≤ 252) : rtuParse (rtuWire address functionCode data) =
    .ok ⟨address, ⟨functionCode, 2, data.length⟩, rtuCrc16 (address :: functionCode :: data),
      4 + data.length⟩ := by
  have hlength : (address :: functionCode :: data).length = data.length + 2 := rfl
  have hparse := @rtuParse_append (address :: functionCode :: data)
    (rtuCrc16 (address :: functionCode :: data)).toUInt8
    (rtuCrc16 (address :: functionCode :: data) >>> 8).toUInt8 (by rw [hlength]; omega)
    (by rw [hlength]; omega)
  rw [join_split, if_neg (not_not.2 rfl), hlength, Nat.add_sub_cancel,
    show data.length + 2 + 2 = 4 + data.length by omega] at hparse
  exact hparse

/-- What is accepted is an ADU. -/
theorem rtuParse_ok {adu : RtuAdu} (h : rtuParse data = .ok adu) : ∃ pduData,
    pduData.length ≤ 252 ∧ data = rtuWire adu.address adu.pdu.functionCode pduData := by
  have hmin : rtuMinAduSize = 4 := rfl
  have hmax : rtuMaxAduSize = 256 := rfl
  obtain ⟨hshort, hlong⟩ : ¬data.length < rtuMinAduSize ∧ ¬rtuMaxAduSize < data.length := by
    unfold rtuParse at h
    split_ifs at h with hshort hlong
    exact ⟨hshort, hlong⟩
  -- The checksum, and what it is of.
  obtain ⟨x, y, hsplit⟩ : ∃ x y, data = data.take (data.length - 2) ++ [x, y] := by
    have htail : (data.drop (data.length - 2)).length = 2 := by
      rw [List.length_drop]
      omega
    obtain ⟨x, y, hxy⟩ := List.length_eq_two.1 htail
    exact ⟨x, y, by rw [← hxy, List.take_append_drop]⟩
  have hbody : (data.take (data.length - 2)).length = data.length - 2 := by
    rw [List.length_take]
    omega
  rw [hsplit, rtuParse_append (by omega) (by omega)] at h
  split_ifs at h with hcrc
  rw [not_not] at hcrc
  cases h
  obtain ⟨address, functionCode, pduData, hcons⟩ :
      ∃ address functionCode pduData, data.take (data.length - 2) =
        address :: functionCode :: pduData := by
    rcases hcases : data.take (data.length - 2) with _ | ⟨address, _ | ⟨functionCode, pduData⟩⟩
    · rw [hcases, List.length_nil] at hbody
      omega
    · rw [hcases, List.length_singleton] at hbody
      omega
    · exact ⟨address, functionCode, pduData, rfl⟩
  have hchecksum : [x, y] = [(rtuCrc16 (address :: functionCode :: pduData)).toUInt8,
      (rtuCrc16 (address :: functionCode :: pduData) >>> 8).toUInt8] := by
    have hwrite := writeBe16_join y x
    rw [← hcons, hcrc]
    injection hwrite with hhigh hlow
    injection hlow with hlow _
    rw [hhigh, hlow]
  rw [hcons] at hsplit hbody
  simp only [List.length_cons] at hbody
  refine ⟨pduData, by omega, ?_⟩
  rw [hcons]
  show data = rtuWire address functionCode pduData
  rw [rtuWire, ← hchecksum]
  exact hsplit

end Rtu

/-! ## Both -/

theorem write_isSome {adu : Adu} {memory : List UInt8} {outLen : ℕ}
    (hsize : (adu.pdu.bytes memory).length ≤ 252) (hout : tcpMaxAduSize ≤ outLen)
    (hprotocol : ∀ frame, adu = .tcp frame → frame.protocolId = 0) :
    (write adu memory outLen).isSome := by
  unfold tcpMaxAduSize at hout
  cases adu with
  | tcp frame =>
    rw [write, tcpWrite, if_neg (not_not.2 (hprotocol frame rfl))]
    exact Option.isSome_iff_exists.2 ⟨_, tcpBuild_eq_some.2
      ⟨hsize, by dsimp only [Adu.pdu] at hsize; omega, rfl⟩⟩
  | rtu frame =>
    exact Option.isSome_iff_exists.2 ⟨_, rtuBuild_eq_some.2
      ⟨hsize, by dsimp only [Adu.pdu] at hsize; omega, rfl⟩⟩

/-- What is written is read back. -/
theorem read_write {adu : Adu} {memory out : List UInt8} {outLen : ℕ}
    (h : write adu memory outLen = some out) : ∃ adu', read adu.transport out = .ok adu' ∧
      Same adu memory adu' out ∧ adu'.consumed = out.length := by
  cases adu with
  | tcp frame =>
    rw [write, tcpWrite] at h
    split_ifs at h with hprotocol
    obtain ⟨hsize, -, rfl⟩ := tcpBuild_eq_some.1 h
    have hparse := @tcpParse_wire frame.transactionId frame.unitId frame.pdu.functionCode _ hsize []
    rw [List.append_nil] at hparse
    refine ⟨.tcp _, congrArg (Except.map Adu.tcp) hparse,
      ⟨rfl, not_not.1 hprotocol, rfl, rfl, ?_⟩, length_tcpWire.symm⟩
    rw [Pdu.bytes, tcpWire_eq]
    exact (List.take_of_length_le (le_refl _)).symm
  | rtu frame =>
    obtain ⟨hsize, -, rfl⟩ := rtuBuild_eq_some.1 h
    refine ⟨.rtu _, congrArg (Except.map Adu.rtu) (rtuParse_wire hsize), ⟨rfl, rfl, ?_⟩,
      length_rtuWire.symm⟩
    exact List.take_left.symm

/-- What is read is written again. -/
theorem write_read {transport : Transport} {data : List UInt8} {adu : Adu}
    (h : read transport data = .ok adu) {outLen : ℕ} (hout : adu.consumed ≤ outLen) :
    write adu data outLen = some (data.take adu.consumed) := by
  cases transport with
  | tcp =>
    obtain ⟨frame, hframe, rfl⟩ := Fallible.map_eq_ok.1 h
    obtain ⟨pduData, rest, hsize, hdata, hprotocol, hoffset, hdataSize, hconsumed, -⟩ :=
      tcpParse_eq hframe
    have hbytes : frame.pdu.bytes data = pduData := by
      rw [Pdu.bytes, hoffset, hdataSize, hdata, tcpWire_eq]
      exact List.take_left
    have htake : data.take frame.consumed =
        tcpWire frame.transactionId frame.unitId frame.pdu.functionCode pduData := by
      rw [hconsumed]
      conv_lhs => rw [hdata]
      exact List.take_left
    dsimp only [Adu.consumed] at hout ⊢
    rw [write, tcpWrite, if_neg (not_not.2 hprotocol), hbytes, tcpBuild_eq_some, htake]
    rw [hconsumed, length_tcpWire] at hout
    exact ⟨hsize, hout, rfl⟩
  | rtu =>
    obtain ⟨frame, hframe, rfl⟩ := Fallible.map_eq_ok.1 h
    obtain ⟨pduData, hsize, hdata⟩ := rtuParse_ok hframe
    have hparse := @rtuParse_wire frame.address frame.pdu.functionCode pduData hsize
    rw [← hdata, hframe, Except.ok.injEq] at hparse
    have hconsumed : frame.consumed = 4 + pduData.length := by rw [hparse]
    have hbytes : frame.pdu.bytes data = pduData := by
      rw [hparse, hdata, Pdu.bytes]
      exact List.take_left
    rw [write, rtuWrite, hbytes, rtuBuild_eq_some]
    dsimp only [Adu.consumed] at hout ⊢
    rw [hconsumed] at hout ⊢
    refine ⟨hsize, hout, ?_⟩
    have hlength := @length_rtuWire frame.address frame.pdu.functionCode pduData
    rw [← hdata] at hlength ⊢
    exact List.take_of_length_le hlength.le

end Modbus
