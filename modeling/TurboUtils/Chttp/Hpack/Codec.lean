import TurboUtils.Chttp.Hpack.Table

/-! Header block encoding and decoding. The decoder hands each header to a callback
on an arbitrary user state, as the source does through `user_data`. -/
namespace Chttp.Hpack

/-! ## Encoding -/

/-- `hpack_put_table_size_update`. -/
def putTableSizeUpdate (out : Buffer) (size : ℕ) : Option Buffer :=
  integerEncode out (size % 2 ^ 32) 5 0x20

def putLiteral (out : Buffer) (hd : Header) (nameIdx prefixBits mark : ℕ) : Option Buffer :=
  match integerEncode out nameIdx prefixBits mark with
  | none => none
  | some out =>
      match if nameIdx = 0 then hpackPutString out hd.name false else some out with
      | none => none
      | some out => hpackPutString out hd.value false

def findIndex (h : Context) (p : Header → Bool) : ℕ :=
  if staticFind p = 0 then dynTableFind h.encoder p else staticFind p

/-- The body of the loop of `chttp_h2_hpack_encode`. A failure keeps the table as it
is at that point. -/
def encodeHeader (h : Context) (out : Buffer) (hd : Header) : Context × Option Buffer :=
  if h.maxStringBytes < hd.name.length ∨ h.maxStringBytes < hd.value.length then (h, none)
  else
    let full := findIndex h (fullMatch hd)
    if full ≠ 0 then (h, integerEncode out full 7 0x80)
    else
      let nameIdx := findIndex h (nameMatch hd)
      if h.encoder.maxSize = 0 then (h, putLiteral out hd nameIdx 4 0)
      else
        match putLiteral out hd nameIdx 6 0x40 with
        | none => (h, none)
        | some out =>
            match dynTableAdd h.encoder hd with
            | none => (h, none)
            | some t => ({ h with encoder := t }, some out)

def encodeLoop : Context → Buffer → List Header → Context × Option Buffer
  | h, out, [] => (h, some out)
  | h, out, hd :: hdrs =>
      match encodeHeader h out hd with
      | (h, none) => (h, none)
      | (h, some out) => encodeLoop h out hdrs

/-- The pending size updates: the smallest size since the last block, then the
final one when it differs. -/
def encodePending (h : Context) (out : Buffer) : Context × Option Buffer :=
  if h.encoderSizeUpdatePending then
    match putTableSizeUpdate out h.encoderPendingMinSize with
    | none => (h, none)
    | some out =>
        if h.encoderPendingFinalSize ≠ h.encoderPendingMinSize then
          match putTableSizeUpdate out h.encoderPendingFinalSize with
          | none => (h, none)
          | some out => ({ h with encoderSizeUpdatePending := false }, some out)
        else ({ h with encoderSizeUpdatePending := false }, some out)
  else (h, some out)

/-- `chttp_h2_hpack_encode`. -/
def hpackEncode (h : Context) (out : Buffer) (hdrs : List Header) : Context × Option Buffer :=
  if h.maxHeaderBlockBytes < out.maxCapacity then (h, none)
  else
    match encodePending h out with
    | (h, none) => (h, none)
    | (h, some out) => encodeLoop h out hdrs

/-! ## Decoding -/

/-- The return values 0, -2, -3 and -1 of `chttp_h2_hpack_decode`. -/
inductive DecodeStatus where
  | ok | tooLarge | aborted | error
  deriving DecidableEq, Repr

/-- One representation: a header, with whether it is added to the table, or a
dynamic table size update. -/
inductive Field where
  | header (hd : Header) (indexing : Bool)
  | sizeUpdate (n : ℕ)
  deriving DecidableEq, Repr

section decode

variable (h : Context)

def decodeLiteral (t : DynTable) (index : ℕ) (rest : Bytes) : Option (Header × Bytes) :=
  match if index = 0 then hpackGetString h.huff h.maxStringBytes rest
      else (tableGet t index).map fun e => (e.name, rest) with
  | none => none
  | some (name, rest) =>
      match hpackGetString h.huff h.maxStringBytes rest with
      | none => none
      | some (value, rest) => some (⟨name, value⟩, rest)

def decodeField (t : DynTable) (input : Bytes) : Option (Field × Bytes) :=
  match input with
  | [] => none
  | b :: _ =>
      if 128 ≤ b.toNat then
        match hpackGetInt input 7 with
        | none => none
        | some (index, rest) => (tableGet t index).map fun e => (.header e false, rest)
      else if 64 ≤ b.toNat then
        match hpackGetInt input 6 with
        | none => none
        | some (index, rest) =>
            (decodeLiteral h t index rest).map fun r => (.header r.1 true, r.2)
      else if 32 ≤ b.toNat then
        (hpackGetInt input 5).map fun r => (.sizeUpdate r.1, r.2)
      else
        match hpackGetInt input 4 with
        | none => none
        | some (index, rest) =>
            (decodeLiteral h t index rest).map fun r => (.header r.1 false, r.2)

/-- `hpack_add_header_list_size`; `none` is -1. -/
def addHeaderListSize (listSize : ℕ) (hd : Header) (maxSize : ℕ) : Option ℕ :=
  if maxSize = 0 then some listSize
  else if sizeMax - hd.value.length < hd.name.length ∨
      sizeMax - 32 < hd.name.length + hd.value.length then none
  else if maxSize < listSize ∨ maxSize - listSize < entrySize hd then none
  else some (listSize + entrySize hd)

variable {σ : Type*} (cb : σ → Header → σ × Int) (maxHeaderListSize : ℕ)

/-- The loop of `chttp_h2_hpack_decode`. `listBytes` is `none` once the header list was
too large, after which headers still enter the table and no longer reach the callback. Each
round consumes a byte, so the input length bounds the rounds. -/
def decodeLoop : ℕ → DynTable → Option ℕ → σ → Bytes → DynTable × σ × DecodeStatus
  | _, t, listBytes, s, [] => (t, s, if listBytes.isSome then .ok else .tooLarge)
  | 0, t, _, s, _ => (t, s, .error)
  | fuel + 1, t, listBytes, s, input =>
      match decodeField h t input with
      | none => (t, s, .error)
      | some (.sizeUpdate n, rest) =>
          match decoderTableSizeUpdate h.decoderMaxSize t n with
          | none => (t, s, .error)
          | some t => decodeLoop fuel t listBytes s rest
      | some (.header hd indexing, rest) =>
          let listBytes := listBytes.bind fun n => addHeaderListSize n hd maxHeaderListSize
          let called := if listBytes.isSome then cb s hd else (s, 0)
          if called.2 ≠ 0 then (t, called.1, .aborted)
          else if indexing then
            match dynTableAdd t hd with
            | none => (t, called.1, .error)
            | some t => decodeLoop fuel t listBytes called.1 rest
          else decodeLoop fuel t listBytes called.1 rest

/-- `chttp_h2_hpack_decode`: the decoder table after the call, the user state, the
return value and `consumed`. -/
def hpackDecode (s : σ) (input : Bytes) : DynTable × σ × DecodeStatus × ℕ :=
  if h.maxHeaderBlockBytes < input.length then (h.decoder, s, .error, 0)
  else
    let r := decodeLoop h cb maxHeaderListSize input.length h.decoder (some 0) s input
    (r.1, r.2.1, r.2.2,
      if r.2.2 = .ok ∨ r.2.2 = .tooLarge then input.length else 0)

end decode

end Chttp.Hpack
