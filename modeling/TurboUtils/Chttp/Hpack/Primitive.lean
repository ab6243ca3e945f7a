import TurboUtils.Chttp.Hpack.Buffer

/-! The protocol constants of the HPACK codec: the static table and the Huffman
codes, entry for entry as the source lists them. -/
namespace Chttp.Hpack

structure Header where
  name : Bytes
  value : Bytes
  deriving DecidableEq, Repr

private def staticEntry (name value : String) : Header := ⟨ascii name, ascii value⟩

/-- `s_hpack_static`, index 1 first. -/
def staticTable : List Header := [
  staticEntry ":authority" "", staticEntry ":method" "GET", staticEntry ":method" "POST",
  staticEntry ":path" "/", staticEntry ":path" "/index.html", staticEntry ":scheme" "http",
  staticEntry ":scheme" "https", staticEntry ":status" "200", staticEntry ":status" "204",
  staticEntry ":status" "206", staticEntry ":status" "304", staticEntry ":status" "400",
  staticEntry ":status" "404", staticEntry ":status" "500", staticEntry "accept-charset" "",
  staticEntry "accept-encoding" "gzip, deflate", staticEntry "accept-language" "",
  staticEntry "accept-ranges" "", staticEntry "accept" "",
  staticEntry "access-control-allow-origin" "", staticEntry "age" "", staticEntry "allow" "",
  staticEntry "authorization" "", staticEntry "cache-control" "",
  staticEntry "content-disposition" "", staticEntry "content-encoding" "",
  staticEntry "content-language" "", staticEntry "content-length" "",
  staticEntry "content-location" "", staticEntry "content-range" "",
  staticEntry "content-type" "", staticEntry "cookie" "", staticEntry "date" "",
  staticEntry "etag" "", staticEntry "expect" "", staticEntry "expires" "",
  staticEntry "from" "", staticEntry "host" "", staticEntry "if-match" "",
  staticEntry "if-modified-since" "", staticEntry "if-none-match" "", staticEntry "if-range" "",
  staticEntry "if-unmodified-since" "", staticEntry "last-modified" "", staticEntry "link" "",
  staticEntry "location" "", staticEntry "max-forwards" "", staticEntry "proxy-authenticate" "",
  staticEntry "proxy-authorization" "", staticEntry "range" "", staticEntry "referer" "",
  staticEntry "refresh" "", staticEntry "retry-after" "", staticEntry "server" "",
  staticEntry "set-cookie" "", staticEntry "strict-transport-security" "",
  staticEntry "transfer-encoding" "", staticEntry "user-agent" "", staticEntry "vary" "",
  staticEntry "via" "", staticEntry "www-authenticate" ""]

theorem staticTable_length : staticTable.length = 61 := rfl

/-- One row of `s_huff_sym`: `code` is aligned to the top of a 32-bit word. -/
structure HuffSym where
  nbits : ℕ
  code : ℕ
  deriving DecidableEq, Repr

/-- `s_huff_sym`, symbols 0 to 255 followed by EOS. -/
def huffSym : List HuffSym := [
  ⟨13, 0xffc00000⟩, ⟨23, 0xffffb000⟩, ⟨28, 0xfffffe20⟩, ⟨28, 0xfffffe30⟩, ⟨28, 0xfffffe40⟩,
  ⟨28, 0xfffffe50⟩, ⟨28, 0xfffffe60⟩, ⟨28, 0xfffffe70⟩, ⟨28, 0xfffffe80⟩, ⟨24, 0xffffea00⟩,
  ⟨30, 0xfffffff0⟩, ⟨28, 0xfffffe90⟩, ⟨28, 0xfffffea0⟩, ⟨30, 0xfffffff4⟩, ⟨28, 0xfffffeb0⟩,
  ⟨28, 0xfffffec0⟩, ⟨28, 0xfffffed0⟩, ⟨28, 0xfffffee0⟩, ⟨28, 0xfffffef0⟩, ⟨28, 0xffffff00⟩,
  ⟨28, 0xffffff10⟩, ⟨28, 0xffffff20⟩, ⟨30, 0xfffffff8⟩, ⟨28, 0xffffff30⟩, ⟨28, 0xffffff40⟩,
  ⟨28, 0xffffff50⟩, ⟨28, 0xffffff60⟩, ⟨28, 0xffffff70⟩, ⟨28, 0xffffff80⟩, ⟨28, 0xffffff90⟩,
  ⟨28, 0xffffffa0⟩, ⟨28, 0xffffffb0⟩, ⟨6, 0x50000000⟩, ⟨10, 0xfe000000⟩, ⟨10, 0xfe400000⟩,
  ⟨12, 0xffa00000⟩, ⟨13, 0xffc80000⟩, ⟨6, 0x54000000⟩, ⟨8, 0xf8000000⟩, ⟨11, 0xff400000⟩,
  ⟨10, 0xfe800000⟩, ⟨10, 0xfec00000⟩, ⟨8, 0xf9000000⟩, ⟨11, 0xff600000⟩, ⟨8, 0xfa000000⟩,
  ⟨6, 0x58000000⟩, ⟨6, 0x5c000000⟩, ⟨6, 0x60000000⟩, ⟨5, 0x0⟩, ⟨5, 0x8000000⟩, ⟨5, 0x10000000⟩,
  ⟨6, 0x64000000⟩, ⟨6, 0x68000000⟩, ⟨6, 0x6c000000⟩, ⟨6, 0x70000000⟩, ⟨6, 0x74000000⟩,
  ⟨6, 0x78000000⟩, ⟨6, 0x7c000000⟩, ⟨7, 0xb8000000⟩, ⟨8, 0xfb000000⟩, ⟨15, 0xfff80000⟩,
  ⟨6, 0x80000000⟩, ⟨12, 0xffb00000⟩, ⟨10, 0xff000000⟩, ⟨13, 0xffd00000⟩, ⟨6, 0x84000000⟩,
  ⟨7, 0xba000000⟩, ⟨7, 0xbc000000⟩, ⟨7, 0xbe000000⟩, ⟨7, 0xc0000000⟩, ⟨7, 0xc2000000⟩,
  ⟨7, 0xc4000000⟩, ⟨7, 0xc6000000⟩, ⟨7, 0xc8000000⟩, ⟨7, 0xca000000⟩, ⟨7, 0xcc000000⟩,
  ⟨7, 0xce000000⟩, ⟨7, 0xd0000000⟩, ⟨7, 0xd2000000⟩, ⟨7, 0xd4000000⟩, ⟨7, 0xd6000000⟩,
  ⟨7, 0xd8000000⟩, ⟨7, 0xda000000⟩, ⟨7, 0xdc000000⟩, ⟨7, 0xde000000⟩, ⟨7, 0xe0000000⟩,
  ⟨7, 0xe2000000⟩, ⟨7, 0xe4000000⟩, ⟨8, 0xfc000000⟩, ⟨7, 0xe6000000⟩, ⟨8, 0xfd000000⟩,
  ⟨13, 0xffd80000⟩, ⟨19, 0xfffe0000⟩, ⟨13, 0xffe00000⟩, ⟨14, 0xfff00000⟩, ⟨6, 0x88000000⟩,
  ⟨15, 0xfffa0000⟩, ⟨5, 0x18000000⟩, ⟨6, 0x8c000000⟩, ⟨5, 0x20000000⟩, ⟨6, 0x90000000⟩,
  ⟨5, 0x28000000⟩, ⟨6, 0x94000000⟩, ⟨6, 0x98000000⟩, ⟨6, 0x9c000000⟩, ⟨5, 0x30000000⟩,
  ⟨7, 0xe8000000⟩, ⟨7, 0xea000000⟩, ⟨6, 0xa0000000⟩, ⟨6, 0xa4000000⟩, ⟨6, 0xa8000000⟩,
  ⟨5, 0x38000000⟩, ⟨6, 0xac000000⟩, ⟨7, 0xec000000⟩, ⟨6, 0xb0000000⟩, ⟨5, 0x40000000⟩,
  ⟨5, 0x48000000⟩, ⟨6, 0xb4000000⟩, ⟨7, 0xee000000⟩, ⟨7, 0xf0000000⟩, ⟨7, 0xf2000000⟩,
  ⟨7, 0xf4000000⟩, ⟨7, 0xf6000000⟩, ⟨15, 0xfffc0000⟩, ⟨11, 0xff800000⟩, ⟨14, 0xfff40000⟩,
  ⟨13, 0xffe80000⟩, ⟨28, 0xffffffc0⟩, ⟨20, 0xfffe6000⟩, ⟨22, 0xffff4800⟩, ⟨20, 0xfffe7000⟩,
  ⟨20, 0xfffe8000⟩, ⟨22, 0xffff4c00⟩, ⟨22, 0xffff5000⟩, ⟨22, 0xffff5400⟩, ⟨23, 0xffffb200⟩,
  ⟨22, 0xffff5800⟩, ⟨23, 0xffffb400⟩, ⟨23, 0xffffb600⟩, ⟨23, 0xffffb800⟩, ⟨23, 0xffffba00⟩,
  ⟨23, 0xffffbc00⟩, ⟨24, 0xffffeb00⟩, ⟨23, 0xffffbe00⟩, ⟨24, 0xffffec00⟩, ⟨24, 0xffffed00⟩,
  ⟨22, 0xffff5c00⟩, ⟨23, 0xffffc000⟩, ⟨24, 0xffffee00⟩, ⟨23, 0xffffc200⟩, ⟨23, 0xffffc400⟩,
  ⟨23, 0xffffc600⟩, ⟨23, 0xffffc800⟩, ⟨21, 0xfffee000⟩, ⟨22, 0xffff6000⟩, ⟨23, 0xffffca00⟩,
  ⟨22, 0xffff6400⟩, ⟨23, 0xffffcc00⟩, ⟨23, 0xffffce00⟩, ⟨24, 0xffffef00⟩, ⟨22, 0xffff6800⟩,
  ⟨21, 0xfffee800⟩, ⟨20, 0xfffe9000⟩, ⟨22, 0xffff6c00⟩, ⟨22, 0xffff7000⟩, ⟨23, 0xffffd000⟩,
  ⟨23, 0xffffd200⟩, ⟨21, 0xfffef000⟩, ⟨23, 0xffffd400⟩, ⟨22, 0xffff7400⟩, ⟨22, 0xffff7800⟩,
  ⟨24, 0xfffff000⟩, ⟨21, 0xfffef800⟩, ⟨22, 0xffff7c00⟩, ⟨23, 0xffffd600⟩, ⟨23, 0xffffd800⟩,
  ⟨21, 0xffff0000⟩, ⟨21, 0xffff0800⟩, ⟨22, 0xffff8000⟩, ⟨21, 0xffff1000⟩, ⟨23, 0xffffda00⟩,
  ⟨22, 0xffff8400⟩, ⟨23, 0xffffdc00⟩, ⟨23, 0xffffde00⟩, ⟨20, 0xfffea000⟩, ⟨22, 0xffff8800⟩,
  ⟨22, 0xffff8c00⟩, ⟨22, 0xffff9000⟩, ⟨23, 0xffffe000⟩, ⟨22, 0xffff9400⟩, ⟨22, 0xffff9800⟩,
  ⟨23, 0xffffe200⟩, ⟨26, 0xfffff800⟩, ⟨26, 0xfffff840⟩, ⟨20, 0xfffeb000⟩, ⟨19, 0xfffe2000⟩,
  ⟨22, 0xffff9c00⟩, ⟨23, 0xffffe400⟩, ⟨22, 0xffffa000⟩, ⟨25, 0xfffff600⟩, ⟨26, 0xfffff880⟩,
  ⟨26, 0xfffff8c0⟩, ⟨26, 0xfffff900⟩, ⟨27, 0xfffffbc0⟩, ⟨27, 0xfffffbe0⟩, ⟨26, 0xfffff940⟩,
  ⟨24, 0xfffff100⟩, ⟨25, 0xfffff680⟩, ⟨19, 0xfffe4000⟩, ⟨21, 0xffff1800⟩, ⟨26, 0xfffff980⟩,
  ⟨27, 0xfffffc00⟩, ⟨27, 0xfffffc20⟩, ⟨26, 0xfffff9c0⟩, ⟨27, 0xfffffc40⟩, ⟨24, 0xfffff200⟩,
  ⟨21, 0xffff2000⟩, ⟨21, 0xffff2800⟩, ⟨26, 0xfffffa00⟩, ⟨26, 0xfffffa40⟩, ⟨28, 0xffffffd0⟩,
  ⟨27, 0xfffffc60⟩, ⟨27, 0xfffffc80⟩, ⟨27, 0xfffffca0⟩, ⟨20, 0xfffec000⟩, ⟨24, 0xfffff300⟩,
  ⟨20, 0xfffed000⟩, ⟨21, 0xffff3000⟩, ⟨22, 0xffffa400⟩, ⟨21, 0xffff3800⟩, ⟨21, 0xffff4000⟩,
  ⟨23, 0xffffe600⟩, ⟨22, 0xffffa800⟩, ⟨22, 0xffffac00⟩, ⟨25, 0xfffff700⟩, ⟨25, 0xfffff780⟩,
  ⟨24, 0xfffff400⟩, ⟨24, 0xfffff500⟩, ⟨26, 0xfffffa80⟩, ⟨23, 0xffffe800⟩, ⟨26, 0xfffffac0⟩,
  ⟨27, 0xfffffcc0⟩, ⟨26, 0xfffffb00⟩, ⟨26, 0xfffffb40⟩, ⟨27, 0xfffffce0⟩, ⟨27, 0xfffffd00⟩,
  ⟨27, 0xfffffd20⟩, ⟨27, 0xfffffd40⟩, ⟨27, 0xfffffd60⟩, ⟨28, 0xffffffe0⟩, ⟨27, 0xfffffd80⟩,
  ⟨27, 0xfffffda0⟩, ⟨27, 0xfffffdc0⟩, ⟨27, 0xfffffde0⟩, ⟨27, 0xfffffe00⟩, ⟨26, 0xfffffb80⟩,
  ⟨30, 0xfffffffc⟩]

/-! Prefix integers, string literals and the Huffman decoder of the HPACK codec.
A reading position is the list of bytes that is left, a `uint32_t` is a natural
number reduced modulo `2 ^ 32` wherever the source can wrap. -/

/-! ## Integers -/

/-- The groups of seven bits after the first byte. Five groups hold every
`uint32_t`, so the count is a bound on the loop and not a further condition. -/
def continuationBytes : ℕ → ℕ → Bytes
  | 0, value => [UInt8.ofNat value]
  | fuel + 1, value =>
      if 128 ≤ value then
        UInt8.ofNat (value % 128 + 128) :: continuationBytes fuel (value / 128)
      else [UInt8.ofNat value]

/-- The bytes `chttp_h2_hpack_integer_encode` stores for a valid prefix; `mark`
is the representation pattern the caller sets in the first byte afterwards. -/
def integerBytes (value prefixBits mark : ℕ) : Bytes :=
  let first := 2 ^ prefixBits - 1
  if value < first then [UInt8.ofNat (mark + value)]
  else UInt8.ofNat (mark + first) :: continuationBytes 4 (value - first)

/-- `chttp_h2_hpack_integer_encode`, with the pattern set in the first byte. -/
def integerEncode (b : Buffer) (value prefixBits mark : ℕ) : Option Buffer :=
  if prefixBits < 1 ∨ 8 < prefixBits then none
  else
    let bs := integerBytes value prefixBits mark
    if b.reserve bs.length then some (b.append bs) else none

def getIntLoop : Bytes → ℕ → ℕ → Option (ℕ × Bytes)
  | [], _, _ => none
  | byte :: rest, shift, value =>
      if 28 < shift then none
      else
        let value := (value + byte.toNat % 128 * 2 ^ shift) % 2 ^ 32
        if byte.toNat < 128 then some (value, rest) else getIntLoop rest (shift + 7) value

/-- `hpack_get_int`. -/
def hpackGetInt (input : Bytes) (prefixBits : ℕ) : Option (ℕ × Bytes) :=
  if prefixBits < 1 ∨ 8 < prefixBits then none
  else
    match input with
    | [] => none
    | byte :: rest =>
        let firstMask := 2 ^ prefixBits - 1
        let value := byte.toNat % 2 ^ prefixBits
        if value < firstMask then some (value, rest) else getIntLoop rest 0 value

/-! ## Huffman tree -/

structure HuffNode where
  zero : ℤ
  one : ℤ
  sym : ℤ
  deriving DecidableEq, Repr

def HuffNode.fresh : HuffNode := ⟨-1, -1, -1⟩

def HuffNode.child (n : HuffNode) (bit : Bool) : ℤ := if bit then n.one else n.zero

def HuffNode.setChild (n : HuffNode) (bit : Bool) (idx : ℕ) : HuffNode :=
  if bit then { n with one := idx } else { n with zero := idx }

abbrev HuffTree := List HuffNode

def HuffTree.node (t : HuffTree) (i : ℕ) : HuffNode := t.getD i HuffNode.fresh

def codeBit (code i : ℕ) : Bool := code.testBit (31 - i)

/-- The walk of `huff_tree_add` over bits `i`, `i + 1`, ...; a missing child is
appended to the node array. -/
def huffTreeWalk (code sym : ℕ) : ℕ → ℕ → HuffTree → ℕ → HuffTree
  | 0, _, t, node => t.modify node fun n => { n with sym := sym }
  | left + 1, i, t, node =>
      let bit := codeBit code i
      if (t.node node).child bit < 0 then
        huffTreeWalk code sym left (i + 1)
          ((t ++ [HuffNode.fresh]).modify node fun n => n.setChild bit t.length) t.length
      else huffTreeWalk code sym left (i + 1) t ((t.node node).child bit).toNat

def huffTreeAdd (t : HuffTree) (code nbits sym : ℕ) : HuffTree :=
  huffTreeWalk code sym nbits 0 t 0

/-- `huff_tree_build`; the 8192-node bound of the source is never reached. -/
def huffTreeBuild : HuffTree :=
  (huffSym.zipIdx).foldl (fun t s => huffTreeAdd t s.1.code s.1.nbits s.2) [HuffNode.fresh]

/-- The state of `hpack_huff_decode` between two bits. `pad` holds the bits since
the last complete symbol. -/
structure HuffState where
  node : ℕ
  pad : List Bool
  out : Bytes
  outCap : ℕ
  deriving Repr

def huffGrow (maxStringBytes : ℕ) (s : HuffState) : Option ℕ :=
  if s.outCap ≤ s.out.length then
    let next := if maxStringBytes / 2 < s.outCap then maxStringBytes else s.outCap * 2
    if next ≤ s.outCap then none else some next
  else some s.outCap

def huffDecodeBit (t : HuffTree) (maxStringBytes : ℕ) (s : HuffState) (bit : Bool) :
    Option HuffState :=
  let child := (t.node s.node).child bit
  if child < 0 then none
  else
    let sym := (t.node child.toNat).sym
    if sym < 0 then some { s with node := child.toNat, pad := s.pad ++ [bit] }
    else if sym = 256 then none
    else
      match huffGrow maxStringBytes s with
      | none => none
      | some cap => some ⟨0, [], s.out ++ [UInt8.ofNat sym.toNat], cap⟩

def byteBits (b : UInt8) : List Bool := (List.range 8).map fun i => b.toNat.testBit (7 - i)

/-- `hpack_huff_decode`: padding longer than seven bits or with a zero bit is refused. -/
def hpackHuffDecode (t : HuffTree) (maxStringBytes : ℕ) (input : Bytes) : Option Bytes :=
  if maxStringBytes < input.length ∨ (sizeMax - 16) / 2 < input.length then none
  else
    let outCap := min (input.length * 2 + 16) maxStringBytes
    if outCap = 0 then none
    else
      match (input.flatMap byteBits).foldlM (huffDecodeBit t maxStringBytes) ⟨0, [], [], outCap⟩ with
      | none => none
      | some s => if 7 < s.pad.length ∨ s.pad.any (! ·) then none else some s.out

/-! ## String literals -/

def huffEncodeBits (s : Bytes) : List Bool :=
  let bits := s.flatMap fun c =>
    let e := huffSym.getD c.toNat ⟨0, 0⟩
    (List.range e.nbits).map (codeBit e.code)
  bits ++ List.replicate ((8 - bits.length % 8) % 8) true

def bitsToByte (bits : List Bool) : UInt8 :=
  UInt8.ofNat (bits.foldl (fun acc b => 2 * acc + b.toNat) 0)

def packBits : ℕ → List Bool → Bytes
  | 0, _ => []
  | n + 1, bits => bitsToByte (bits.take 8) :: packBits n (bits.drop 8)

def huffEncode (s : Bytes) : Bytes :=
  let bits := huffEncodeBits s
  packBits (bits.length / 8) bits

/-- The bytes a Huffman literal leaves in the buffer. The source writes the code
one byte past the end of the buffer, stores the length in front of it, which runs
into the code when it takes more than one byte, and then sets the H flag in the byte
after the length. -/
def huffmanLiteral (s : Bytes) : Bytes :=
  let code := huffEncode s
  let len := integerBytes (code.length % 2 ^ 32) 7 0
  let region := len ++ ((0 :: code).drop len.length)
  region.modify len.length fun b => b ||| 0x80

/-- `hpack_put_string`. -/
def hpackPutString (b : Buffer) (s : Bytes) (huffman : Bool) : Option Buffer :=
  if 0x7fffffff < s.length then none
  else if huffman then
    if (sizeMax - 8) / 4 < s.length ∨ sizeMax - 8 < s.length * 4 + 8 then none
    else if b.reserve (s.length * 4 + 8 + 8) then some (b.append (huffmanLiteral s)) else none
  else
    match integerEncode b s.length 7 0 with
    | none => none
    | some b => if b.reserve s.length then some (b.append s) else none

/-- `hpack_get_string`. -/
def hpackGetString (t : HuffTree) (maxStringBytes : ℕ) (input : Bytes) : Option (Bytes × Bytes) :=
  match input with
  | [] => none
  | byte :: _ =>
      match hpackGetInt input 7 with
      | none => none
      | some (len, rest) =>
          if rest.length < len then none
          else if maxStringBytes < len then none
          else if 128 ≤ byte.toNat then
            match hpackHuffDecode t maxStringBytes (rest.take len) with
            | none => none
            | some s => some (s, rest.drop len)
          else some (rest.take len, rest.drop len)

/-! ## Round trips -/

/-- A continuation within five groups is read back in place of the shifted value. -/
theorem getIntLoop_continuation (fuel v shift value : ℕ) (rest : Bytes)
    (hs : shift + 7 * fuel ≤ 28) (hv : v < 128 * 128 ^ fuel)
    (hb : value + v * 2 ^ shift < 2 ^ 32) :
    getIntLoop (continuationBytes fuel v ++ rest) shift value =
      some (value + v * 2 ^ shift, rest) := by
  induction fuel generalizing v shift value with
  | zero =>
    have hv : v < 128 := by simpa using hv
    have hm : v % 256 = v := Nat.mod_eq_of_lt (by omega)
    simpa [continuationBytes, getIntLoop, hm, hv, Nat.mod_eq_of_lt hv,
      show ¬28 < shift by omega] using hb
  | succ fuel ih =>
    by_cases hc : 128 ≤ v
    · have hm : (v % 128 + 128) % 256 = v % 128 + 128 := Nat.mod_eq_of_lt (by omega)
      have hsplit : v % 128 * 2 ^ shift + v / 128 * 2 ^ (shift + 7) = v * 2 ^ shift := by
        have hpow : (2 : ℕ) ^ (shift + 7) = 2 ^ shift * 128 := by rw [pow_add]; norm_num
        rw [hpow]
        conv_rhs => rw [← Nat.mod_add_div v 128]
        ring
      have hlt : value + v % 128 * 2 ^ shift < 2 ^ 32 := by omega
      have hstep := ih (v / 128) (shift + 7) (value + v % 128 * 2 ^ shift) (by omega)
        (by rw [pow_succ] at hv; omega) (by omega)
      simp only [continuationBytes, if_pos hc, List.cons_append, getIntLoop,
        show ¬28 < shift by omega, if_false, UInt8.toNat_ofNat', hm,
        show ¬v % 128 + 128 < 128 by omega, Nat.add_mod_right, Nat.mod_mod,
        Nat.mod_eq_of_lt hlt]
      rw [hstep, add_assoc, hsplit]
    · have hm : v % 256 = v := Nat.mod_eq_of_lt (by omega)
      have hv : v < 128 := by omega
      simpa [continuationBytes, getIntLoop, hc, hm, hv, Nat.mod_eq_of_lt hv,
        show ¬28 < shift by omega] using hb

/-- A marked integer is read back whatever pattern stands above its prefix. -/
theorem hpackGetInt_integerBytes (value prefixBits mark : ℕ) (rest : Bytes)
    (h1 : 1 ≤ prefixBits) (h8 : prefixBits ≤ 8) (hv : value < 2 ^ 32)
    (hmark : mark % 2 ^ prefixBits = 0) (hlt : mark + 2 ^ prefixBits ≤ 256) :
    hpackGetInt (integerBytes value prefixBits mark ++ rest) prefixBits = some (value, rest) := by
  have hp : 0 < 2 ^ prefixBits := Nat.two_pow_pos _
  have hfirst {x : ℕ} (hx : x < 2 ^ prefixBits) :
      (UInt8.ofNat (mark + x)).toNat % 2 ^ prefixBits = x := by
    have h256 : (UInt8.ofNat (mark + x)).toNat = mark + x := by
      rw [UInt8.toNat_ofNat']
      exact Nat.mod_eq_of_lt (by omega)
    rw [h256, Nat.add_mod, hmark, zero_add, Nat.mod_mod, Nat.mod_eq_of_lt hx]
  by_cases hc : value < 2 ^ prefixBits - 1
  · simp only [integerBytes, if_pos hc, List.cons_append, List.nil_append, hpackGetInt,
      show ¬(prefixBits < 1 ∨ 8 < prefixBits) by omega, if_false, hfirst (show value < _ by omega)]
  · simp only [integerBytes, if_neg hc, List.cons_append, hpackGetInt,
      show ¬(prefixBits < 1 ∨ 8 < prefixBits) by omega, if_false,
      hfirst (show 2 ^ prefixBits - 1 < _ by omega), lt_irrefl]
    rw [getIntLoop_continuation 4 _ 0 _ rest (by omega) (by omega) (by omega)]
    simp only [pow_zero, mul_one]
    congr 2
    omega

theorem integerBytes_ne_nil (value prefixBits mark : ℕ) :
    integerBytes value prefixBits mark ≠ [] := by
  unfold integerBytes
  dsimp only
  split_ifs <;> simp

theorem continuationBytes_length (fuel value : ℕ) :
    0 < (continuationBytes fuel value).length ∧
      (continuationBytes fuel value).length ≤ fuel + 1 := by
  induction fuel generalizing value with
  | zero => simp [continuationBytes]
  | succ fuel ih =>
    have := ih (value / 128)
    rw [continuationBytes]
    split_ifs <;> simp; omega

theorem integerBytes_length (value prefixBits mark : ℕ) :
    (integerBytes value prefixBits mark).length ≤ 6 := by
  unfold integerBytes
  dsimp only
  split_ifs
  · simp
  · have := continuationBytes_length 4 (value - (2 ^ prefixBits - 1))
    simp only [List.length_cons]
    omega

theorem integerBytes_head (value prefixBits mark : ℕ) (hlt : mark + 2 ^ prefixBits ≤ 256) :
    ∃ b bs, integerBytes value prefixBits mark = b :: bs ∧ mark ≤ b.toNat ∧
      b.toNat < mark + 2 ^ prefixBits := by
  have hp : 0 < 2 ^ prefixBits := Nat.two_pow_pos _
  have h256 {x : ℕ} (hx : x < 2 ^ prefixBits) : (UInt8.ofNat (mark + x)).toNat = mark + x := by
    rw [UInt8.toNat_ofNat']
    exact Nat.mod_eq_of_lt (by omega)
  by_cases hc : value < 2 ^ prefixBits - 1
  · exact ⟨UInt8.ofNat (mark + value), [], by simp [integerBytes, hc],
      by rw [h256 (by omega)]; omega, by rw [h256 (by omega)]; omega⟩
  · exact ⟨UInt8.ofNat (mark + (2 ^ prefixBits - 1)), _, by simp [integerBytes, hc]; rfl,
      by rw [h256 (by omega)]; omega, by rw [h256 (by omega)]; omega⟩

theorem hpackPutString_raw {b b' : Buffer} {s : Bytes} (h : hpackPutString b s false = some b') :
    b' = b.append (integerBytes s.length 7 0 ++ s) ∧ s.length ≤ 0x7fffffff := by
  unfold hpackPutString at h
  split_ifs at h with hlen hb
  · exact absurd hb (by decide)
  unfold integerEncode at h
  simp only [show ¬((7 : ℕ) < 1 ∨ 8 < 7) by decide, if_false] at h
  split_ifs at h with hr
  · simp only at h
    split_ifs at h with hr2
    simp only [Option.some.injEq] at h
    exact ⟨by rw [← h, Buffer.append_append], by omega⟩

theorem hpackGetString_raw (t : HuffTree) {maxStringBytes : ℕ} {s : Bytes} (rest : Bytes)
    (hs : s.length ≤ 0x7fffffff) (hm : s.length ≤ maxStringBytes) :
    hpackGetString t maxStringBytes (integerBytes s.length 7 0 ++ s ++ rest) = some (s, rest) := by
  obtain ⟨b, bs, hb, -, hlow⟩ := integerBytes_head s.length 7 0 (by norm_num)
  have hint := hpackGetInt_integerBytes s.length 7 0 (s ++ rest) (by norm_num) (by norm_num) (by omega) (by norm_num) (by norm_num)
  rw [List.append_assoc]
  rw [hb, List.cons_append] at hint ⊢
  simp only [hpackGetString, hint]
  simp [show ¬128 ≤ b.toNat by norm_num at hlow; omega, show ¬maxStringBytes < s.length by omega]

end Chttp.Hpack
