import TurboUtils.Chttp.H2.App
import TurboUtils.Chttp.Hpack.Synchrony

/-! The bounds of `proto_header_bounds` are enough: once they are reserved, a block leaves
the engine as one run of frames. -/
namespace Chttp.Hpack

/-! ## The size of an encoded block -/

theorem literalBytes_length (hd : Header) (nameIdx : ℕ) {prefixBits : ℕ} (mark : ℕ)
    (hp : 1 < 2 ^ prefixBits - 1) :
    (literalBytes hd nameIdx prefixBits mark).length ≤ hd.name.length + hd.value.length + 13 := by
  have hv := integerBytes_length hd.value.length 7 0
  unfold literalBytes stringBytes
  split_ifs with hz
  · subst hz
    have hn := integerBytes_length hd.name.length 7 0
    have h0 : (integerBytes 0 prefixBits mark).length = 1 := by
      simp [integerBytes, show 0 < 2 ^ prefixBits - 1 by omega]
    simp only [List.length_append]
    omega
  · have hi := integerBytes_length nameIdx prefixBits mark
    simp only [List.length_append, List.length_nil]
    omega

/-- What `encode` may append for a list of headers. -/
def fieldBytes (hdrs : List Header) : ℕ :=
  (hdrs.map fun hd => hd.name.length + hd.value.length + 15).sum

theorem putLiteral_length {b b' : Buffer} {hd : Header} {nameIdx prefixBits mark : ℕ}
    (hp : 1 < 2 ^ prefixBits - 1) (h : putLiteral b hd nameIdx prefixBits mark = some b') :
    b'.data.length ≤ b.data.length + (hd.name.length + hd.value.length + 15) := by
  have hl := literalBytes_length hd nameIdx mark hp
  rw [(putLiteral_some h).1, Buffer.append_data, List.length_append]
  omega

theorem encodeHeader_length {h h' : Context} {out out' : Buffer} {hd : Header}
    (he : encodeHeader h out hd = (h', some out')) :
    out'.data.length ≤ out.data.length + (hd.name.length + hd.value.length + 15) := by
  unfold encodeHeader at he
  dsimp only at he
  split_ifs at he with hbig hfull hzero
  · simp at he
  · simp only [Prod.mk.injEq] at he
    have hi := integerBytes_length (findIndex h (fullMatch hd)) 7 0x80
    rw [(integerEncode_some he.2).1, Buffer.append_data, List.length_append]
    omega
  · simp only [Prod.mk.injEq] at he
    exact putLiteral_length (by norm_num) he.2
  · split at he
    · simp at he
    next o ho =>
    split at he
    · simp at he
    · simp only [Prod.mk.injEq, Option.some.injEq] at he
      rw [← he.2]
      exact putLiteral_length (by norm_num) ho

theorem encodeLoop_length {hdrs : List Header} {h h' : Context} {out out' : Buffer}
    (he : encodeLoop h out hdrs = (h', some out')) :
    out'.data.length ≤ out.data.length + fieldBytes hdrs := by
  induction hdrs generalizing h out with
  | nil =>
    simp only [encodeLoop, Prod.mk.injEq, Option.some.injEq] at he
    simp [he.2, fieldBytes]
  | cons hd hdrs ih =>
    unfold encodeLoop at he
    split at he
    · simp at he
    next h1 o1 h1e =>
    have hhd := encodeHeader_length h1e
    have hrest := ih he
    simp only [fieldBytes, List.map_cons, List.sum_cons] at hrest ⊢
    omega

theorem encodePending_length {h h' : Context} {out out' : Buffer}
    (he : encodePending h out = (h', some out')) :
    out'.data.length ≤ out.data.length + 12 := by
  have hput : ∀ {b b' : Buffer} {n : ℕ}, putTableSizeUpdate b n = some b' →
      b'.data.length ≤ b.data.length + 6 := by
    intro b b' n hb
    have hi := integerBytes_length (n % 2 ^ 32) 5 0x20
    rw [(integerEncode_some hb).1, Buffer.append_data, List.length_append]
    omega
  unfold encodePending at he
  split_ifs at he with hpending hne
  · split at he
    · simp at he
    next o1 h1 =>
    have hmin := hput h1
    split at he
    · simp at he
    next o2 h2 =>
    have hfinal := hput h2
    simp only [Prod.mk.injEq, Option.some.injEq] at he
    rw [← he.2]
    omega
  · split at he
    · simp at he
    next o1 h1 =>
    have hmin := hput h1
    simp only [Prod.mk.injEq, Option.some.injEq] at he
    rw [← he.2]
    omega
  · simp only [Prod.mk.injEq, Option.some.injEq] at he
    rw [← he.2]
    omega

theorem hpackEncode_length {h h' : Context} {out out' : Buffer} {hdrs : List Header}
    (he : hpackEncode h out hdrs = (h', some out')) :
    out'.data.length ≤ out.data.length + 12 + fieldBytes hdrs := by
  unfold hpackEncode at he
  split_ifs at he
  · simp at he
  · split at he
    · simp at he
    next h1 o1 h1e =>
    have hp := encodePending_length h1e
    have hl := encodeLoop_length he
    omega

end Chttp.Hpack

namespace Chttp.H2
open Chttp.Hpack (Header hpackEncode fieldBytes)

variable {σ : Type*}

theorem headerSizes_encoded {maxString : ℕ} {hdrs : List Header} {e l encoded headerList : ℕ}
    (h : headerSizes maxString hdrs e l = some (encoded, headerList)) :
    encoded = e + fieldBytes hdrs := by
  induction hdrs generalizing e l with
  | nil =>
    simp only [headerSizes, Option.some.injEq, Prod.mk.injEq] at h
    simp [fieldBytes, h.1]
  | cons hd hdrs ih =>
    unfold headerSizes at h
    dsimp only at h
    split_ifs at h
    have hrest := ih h
    simp only [fieldBytes, hpackFieldOverhead, List.map_cons, List.sum_cons] at hrest ⊢
    omega

/-! ## The frames of a block -/

/-- The frames the loop of `out_headers` makes of a block. -/
def blockFrames (streamId limit : ℕ) (endStream hasPriority : Bool) : ℕ → Bool → Bytes → List Frame
  | 0, _, _ => []
  | fuel + 1, first, rest =>
      blockFrame streamId limit endStream hasPriority first rest ::
        if rest.length ≤ limit then []
        else blockFrames streamId limit endStream hasPriority fuel false (rest.drop limit)

def pushAll (st : St σ) : List Frame → St σ
  | [] => st
  | f :: fs => pushAll (push st (.out f) f.bytes) fs

theorem pushAll_p (st : St σ) (fs : List Frame) :
    (pushAll st fs).p = { st.p with out := st.p.out.append (fs.flatMap Frame.bytes) } := by
  induction fs generalizing st with
  | nil => simp [pushAll, Buffer.append]
  | cons f fs ih => simp [pushAll, ih, push, Buffer.append]

structure IsBlock (streamId limit : ℕ) (rest : Bytes) (fs : List Frame) : Prop where
  payload : fs.flatMap Frame.payload = rest
  bounded : ∀ f ∈ fs, f.payload.length ≤ limit ∧ f.streamId = streamId
  wire : (fs.flatMap Frame.bytes).length =
    rest.length + (1 + (rest.length - 1) / limit) * frameHeaderSize

theorem blockFrames_isBlock (streamId : ℕ) {limit : ℕ} (endStream hasPriority : Bool)
    (hlimit : 0 < limit) (fuel : ℕ) (first : Bool) (rest : Bytes) (hf : rest.length < fuel) :
    IsBlock streamId limit rest
      (blockFrames streamId limit endStream hasPriority fuel first rest) := by
  induction fuel generalizing first rest with
  | zero => exact absurd hf (Nat.not_lt_zero _)
  | succ fuel ih =>
    unfold blockFrames
    split_ifs with hlast
    · have hdiv : (rest.length - 1) / limit = 0 := Nat.div_eq_of_lt (by omega)
      constructor
      · simp [blockFrame, List.take_of_length_le hlast]
      · simp [blockFrame]
      · simp [blockFrame, Frame.bytes_length, List.take_of_length_le hlast, hdiv]
        omega
    · have hrest := ih false (rest.drop limit) (by rw [List.length_drop]; omega)
      constructor
      · simp only [List.flatMap_cons, hrest.payload]
        exact List.take_append_drop ..
      · simp only [List.forall_mem_cons]
        exact ⟨by simp [blockFrame], hrest.bounded⟩
      · have hdiv : (rest.length - 1) / limit = (rest.length - limit - 1) / limit + 1 := by
          rw [← Nat.add_div_right _ hlimit]
          congr 1
          omega
        have htake : (rest.take limit).length = limit := by simp; omega
        simp only [List.flatMap_cons, List.length_append, hrest.wire, Frame.bytes_length,
          blockFrame, htake, List.length_drop, hdiv, Nat.add_mul]
        omega

theorem outFrame_of_fits {st : St σ} {f : Frame} (hl : f.payload.length ≤ maxFrameBytes)
    (hs : f.streamId < 2 ^ 31)
    (hr : st.p.out.reserve (frameHeaderSize + f.payload.length) = true) :
    outFrame st f = (push st (.out f) f.bytes, true) := by
  unfold outFrame frameHeaderFits
  rw [if_pos ⟨decide_eq_true ⟨hl, hs⟩, hr⟩]

/-- With room for the whole block the loop of `out_headers` does not fail. -/
theorem blockLoop_eq {streamId : ℕ} (endStream hasPriority : Bool) (hs : streamId < 2 ^ 31)
    (fuel : ℕ) (first : Bool) (rest : Bytes) (st : St σ) (hf : rest.length < fuel)
    (hlimit : 0 < st.p.peerSettings.maxFrameSize)
    (hmax : st.p.peerSettings.maxFrameSize ≤ maxFrameBytes)
    (hr : st.p.out.reserve ((blockFrames streamId st.p.peerSettings.maxFrameSize endStream
      hasPriority fuel first rest).flatMap Frame.bytes).length = true) :
    blockLoop streamId endStream hasPriority fuel first rest st =
      (pushAll st (blockFrames streamId st.p.peerSettings.maxFrameSize endStream hasPriority fuel
        first rest), true) := by
  induction fuel generalizing first rest st with
  | zero => exact absurd hf (Nat.not_lt_zero _)
  | succ fuel ih =>
    have hr := (Buffer.reserve_iff ..).mp hr
    unfold blockFrames at hr ⊢
    simp only [List.flatMap_cons, List.length_append, Frame.bytes_length] at hr
    have hout := @outFrame_of_fits σ st (blockFrame streamId st.p.peerSettings.maxFrameSize
      endStream hasPriority first rest) (by simp only [blockFrame, List.length_take]; omega) hs
      (by rw [Buffer.reserve_iff]; omega)
    simp only [blockLoop, hout, pushAll]
    split_ifs with hlast
    · rfl
    · rw [if_neg hlast] at hr
      apply ih
      · rw [List.length_drop]
        omega
      · exact hlimit
      · exact hmax
      · rw [Buffer.reserve_iff]
        simp only [push, St.setP_p, Buffer.append_data, Buffer.append_maxCapacity,
          List.length_append, Frame.bytes_length]
        omega

theorem priorityPrefix_length {p : Proto} {block pre : Bytes} {priority : Option Priority}
    (h : priorityPrefix p block priority = some pre) :
    pre.length = if priority.isSome then priorityBytes else 0 := by
  unfold priorityPrefix at h
  split at h
  · simp only [Option.some.injEq] at h
    simp [← h]
  · split_ifs at h
    unfold framePriorityEncode at h
    split_ifs at h <;> simp only [Option.some.injEq] at h <;> simp [← h, priorityBytes]

/-- A block within the encoded bound fits the wire bound with its frame headers. -/
theorem headerBounds_wire {p : Proto} {hdrs : List Header} {hasPriority : Bool}
    {encodedBound wireBound : ℕ} (h : headerBounds p hdrs hasPriority = some (encodedBound, wireBound))
    {n : ℕ} (hn : n ≤ 12 + fieldBytes hdrs + if hasPriority then priorityBytes else 0) :
    n + (1 + (n - 1) / p.peerSettings.maxFrameSize) * frameHeaderSize ≤ wireBound := by
  unfold headerBounds at h
  split at h
  · simp at h
  next encoded headerList hsizes =>
  have henc := headerSizes_encoded hsizes
  dsimp only at h
  generalize (if hasPriority then priorityBytes else 0) = extra at h hn
  split_ifs at h with h1 h2 hz h3 h4
  · simp only [hpackPendingUpdateBytes] at henc
    omega
  · simp only [Option.some.injEq, Prod.mk.injEq] at h
    rw [← h.2]
    simp only [hpackPendingUpdateBytes] at henc
    have hdiv : (n - 1) / p.peerSettings.maxFrameSize ≤
        (encoded + extra - 1) / p.peerSettings.maxFrameSize :=
      Nat.div_le_div_right (by omega)
    have hmul := Nat.mul_le_mul_right frameHeaderSize (Nat.add_le_add_left hdiv 1)
    omega

def Proto.withHpack (p : Proto) (hpack : Hpack.Context) : Proto := { p with hpack }

/-- What `out_headers` does: nothing but a change of the encoder, the failure of the engine
when the encoder failed, or the whole block. -/
theorem outHeaders_cases {st : St σ} {streamId : ℕ} {hdrs : List Header} {endStream : Bool}
    {priority : Option Priority} (hs : streamId < 2 ^ 31)
    (hlimit : 0 < st.p.peerSettings.maxFrameSize)
    (hmax : st.p.peerSettings.maxFrameSize ≤ maxFrameBytes) :
    (∃ hpack, outHeaders st streamId hdrs endStream priority =
      (st.setP (st.p.withHpack hpack), false)) ∨
    (∃ hpack, outHeaders st streamId hdrs endStream priority =
      (protoFail (st.setP (st.p.withHpack hpack)) errInternalError, false)) ∨
    (∃ hpack block, outHeaders st streamId hdrs endStream priority =
      (pushAll (st.setP (st.p.withHpack hpack)) (blockFrames streamId st.p.peerSettings.maxFrameSize
        endStream priority.isSome (block.length + 1) true block), true)) := by
  unfold outHeaders
  split
  · exact .inl ⟨st.p.hpack, rfl⟩
  next encodedBound wireBound hb =>
  split_ifs with hroom
  swap
  · exact .inl ⟨st.p.hpack, rfl⟩
  split
  · exact .inl ⟨st.p.hpack, rfl⟩
  next blk hblk =>
  split
  next hpack he => exact .inr (.inl ⟨hpack, rfl⟩)
  next hpack blk' he =>
  dsimp only
  split
  · exact .inl ⟨hpack, rfl⟩
  next pre hpre =>
  refine .inr (.inr ⟨hpack, pre ++ blk'.data, ?_⟩)
  apply blockLoop_eq _ _ hs _ _ _ (st.setP (st.p.withHpack hpack)) (Nat.lt_succ_self _) hlimit hmax
  have hwire := (blockFrames_isBlock streamId endStream priority.isSome hlimit _ true
    (pre ++ blk'.data) (Nat.lt_succ_self _)).wire
  apply (Buffer.reserve_iff ..).mpr
  apply le_trans (le_of_eq hwire)
  have hroom := (Buffer.reserve_iff ..).mp hroom
  have hempty : blk.data = [] := by
    unfold Buffer.init at hblk
    split_ifs at hblk
    simp only [Option.some.injEq] at hblk
    rw [← hblk]
  have hlen := Hpack.hpackEncode_length he
  have hplen := priorityPrefix_length hpre
  rw [hempty, List.length_nil] at hlen
  apply le_trans (headerBounds_wire hb _) hroom
  rw [List.length_append, hplen]
  omega

end Chttp.H2
