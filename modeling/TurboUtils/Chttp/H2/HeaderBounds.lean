import TurboUtils.Chttp.H2.RunSimulation

/-! What `proto_header_bounds` promises: the block is within the encoded bound, and its frames are
within the wire bound, so that the reservation of the wire bound serves all of them. -/
namespace Chttp.H2

open Chttp.Hpack (Header hpackEncode fieldBytes)

variable {σ : Type*}

/-- The encoded bound is the pending updates and the overhead of every field. -/
theorem headerBounds_encoded {p : Proto} {hdrs : List Header} {hasPriority : Bool}
    {encodedBound wireBound : ℕ}
    (h : headerBounds p hdrs hasPriority = some (encodedBound, wireBound)) :
    encodedBound = hpackPendingUpdateBytes + fieldBytes hdrs ∧
      encodedBound ≤ p.config.headerBlockBytes := by
  unfold headerBounds at h
  split at h
  · cases h
  next encoded headerList hsizes =>
  have hencoded := headerSizes_encoded hsizes
  dsimp only at h
  generalize (if hasPriority then priorityBytes else 0) = extra at h
  split_ifs at h with hbound
  all_goals
    rw [Option.some.injEq, Prod.mk.injEq] at h
    rw [← h.1]
    exact ⟨hencoded, Nat.not_lt.1 (not_or.1 hbound).1⟩

theorem reserve_pushAll {st : St σ} {fs : List Frame}
    (h : st.p.out.reserve (fs.flatMap Frame.bytes).length = true) {done rest : List Frame} {f : Frame}
    (hfs : fs = done ++ f :: rest) :
    (pushAll st done).p.out.reserve (frameHeaderSize + f.payload.length) = true := by
  have hroom := (Buffer.reserve_iff ..).1 h
  rw [hfs, List.flatMap_append, List.flatMap_cons, List.length_append, List.length_append,
    Frame.bytes_length] at hroom
  rw [pushAll_p, Buffer.reserve_iff, Buffer.append_data, Buffer.append_maxCapacity,
    List.length_append]
  omega

/-- The frame size a peer may ask for, as `proto_apply_peer_setting` accepts it. -/
def Proto.PeerFrameSize (p : Proto) : Prop :=
  defaultFrameBytes ≤ p.peerSettings.maxFrameSize ∧ p.peerSettings.maxFrameSize ≤ maxFrameBytes

/-- A block within the bounds leaves `out_headers` whole, once its bytes and its priority are made
and the wire bound is reserved. -/
theorem outHeaders_whole {st : St σ} (hsize : st.p.PeerFrameSize) {hdrs : List Header}
    {priority : Option Priority} {encodedBound wireBound : ℕ}
    (hb : headerBounds st.p hdrs priority.isSome = some (encodedBound, wireBound))
    (hroom : st.p.out.reserve wireBound = true) {hpack : Hpack.Context} {block : Buffer}
    (he : hpackEncode st.p.hpack ⟨[], st.p.config.headerBlockBytes⟩ hdrs = (hpack, some block))
    {pre : Bytes} (hpre : priorityPrefix st.p block.data priority = some pre) {streamId : ℕ}
    (hid : streamId < 2 ^ 31) (endStream : Bool) :
    outHeaders st streamId hdrs endStream priority =
      (pushAll (st.setP (st.p.withHpack hpack))
        (blockFrames streamId st.p.peerSettings.maxFrameSize endStream priority.isSome
          ((pre ++ block.data).length + 1) true (pre ++ block.data)), true) := by
  have hblock := (headerBounds_encoded hb).2
  have hencoded := (headerBounds_encoded hb).1
  have hinit : Buffer.init (min encodedBound 256) st.p.config.headerBlockBytes =
      some ⟨[], st.p.config.headerBlockBytes⟩ := by
    unfold Buffer.init
    rw [if_neg]
    unfold hpackPendingUpdateBytes at hencoded
    omega
  have hlimit : 0 < st.p.peerSettings.maxFrameSize :=
    lt_of_lt_of_le (show 0 < defaultFrameBytes by decide) hsize.1
  unfold outHeaders
  rw [hb]
  dsimp only
  rw [if_pos hroom, hinit]
  dsimp only
  rw [he]
  dsimp only
  rw [show (st.setP { st.p with hpack }).p = st.p.withHpack hpack from rfl,
    show priorityPrefix (st.p.withHpack hpack) block.data priority = some pre from hpre]
  dsimp only
  apply blockLoop_eq _ _ hid _ _ _ (st.setP (st.p.withHpack hpack)) (Nat.lt_succ_self _) hlimit
    hsize.2
  have hwire := (blockFrames_isBlock streamId endStream priority.isSome hlimit _ true
    (pre ++ block.data) (Nat.lt_succ_self _)).wire
  have hlength := Hpack.hpackEncode_length he
  have hprefix := priorityPrefix_length hpre
  rw [List.length_nil] at hlength
  apply (Buffer.reserve_iff ..).2
  apply le_trans (le_of_eq hwire)
  apply le_trans (headerBounds_wire hb _) ((Buffer.reserve_iff ..).1 hroom)
  rw [List.length_append, hprefix]
  omega

theorem Reachable.peerFrameSize {A : Type*} {app : App A} {n : ℕ} {mode : Mode}
    {config : ProtoConfig} {ep : Endpoint A} (h : Reachable app n mode config ep) :
    ep.st.p.PeerFrameSize := by
  obtain ⟨p, -, -, hsane⟩ := h.moves
  exact ⟨hsane.frameMin, hsane.frameMax⟩

/-- The block is within the encoded bound, its frames with or without the priority are within the
wire bound, and with that much room reserved there is room for each of them, so `out_headers` puts
all of them into the output. -/
theorem header_bounds_sound {st : St σ} (hsize : st.p.PeerFrameSize) {hdrs : List Header}
    {priority : Option Priority} {encodedBound wireBound : ℕ}
    (hb : headerBounds st.p hdrs priority.isSome = some (encodedBound, wireBound))
    {hpack : Hpack.Context} {block : Buffer}
    (he : hpackEncode st.p.hpack ⟨[], st.p.config.headerBlockBytes⟩ hdrs = (hpack, some block)) :
    block.data.length ≤ encodedBound ∧
      ∀ pre, priorityPrefix st.p block.data priority = some pre → ∀ (streamId : ℕ) (endStream : Bool),
        ∃ fs, IsBlock streamId st.p.peerSettings.maxFrameSize (pre ++ block.data) fs ∧
          (fs.flatMap Frame.bytes).length ≤ wireBound ∧
          (st.p.out.reserve wireBound = true →
            (∀ done f rest, fs = done ++ f :: rest →
              (pushAll st done).p.out.reserve (frameHeaderSize + f.payload.length) = true) ∧
            (streamId < 2 ^ 31 → outHeaders st streamId hdrs endStream priority =
              (pushAll (st.setP (st.p.withHpack hpack)) fs, true))) := by
  have hlength := Hpack.hpackEncode_length he
  have hencoded := (headerBounds_encoded hb).1
  rw [List.length_nil] at hlength
  unfold hpackPendingUpdateBytes at hencoded
  refine ⟨by omega, fun pre hpre streamId endStream => ?_⟩
  have hlimit : 0 < st.p.peerSettings.maxFrameSize :=
    lt_of_lt_of_le (show 0 < defaultFrameBytes by decide) hsize.1
  have hframes := blockFrames_isBlock streamId endStream priority.isSome hlimit
    ((pre ++ block.data).length + 1) true (pre ++ block.data) (Nat.lt_succ_self _)
  have hwire := headerBounds_wire hb
    (show (pre ++ block.data).length ≤ _ by
      rw [List.length_append, priorityPrefix_length hpre]
      omega)
  rw [← hframes.wire] at hwire
  refine ⟨_, hframes, hwire, fun hroom => ⟨fun done f rest => ?_, fun hid => ?_⟩⟩
  · have hall := (Buffer.reserve_iff ..).1 hroom
    exact reserve_pushAll ((Buffer.reserve_iff ..).2 (le_trans hwire hall))
  · exact outHeaders_whole hsize hb hroom he hpre hid endStream

/-- One field of the static table, behind a priority. -/
theorem header_bounds_sound_priority : ∃ (hpack : Hpack.Context) (block : Buffer),
    hpackEncode (smallEndpoint .client).st.p.hpack
        ⟨[], (smallEndpoint .client).st.p.config.headerBlockBytes⟩ [⟨ascii ":method", ascii "GET"⟩] =
      (hpack, some block) ∧ block.data.length ≤ 37 ∧
      ∃ fs, (fs.flatMap Frame.bytes).length ≤ 51 ∧
        outHeaders (smallEndpoint .client).st 1 [⟨ascii ":method", ascii "GET"⟩] true
            (some ⟨16, 0, false⟩) =
          (pushAll ((smallEndpoint .client).st.setP
            ((smallEndpoint .client).st.p.withHpack hpack)) fs, true) := by
  obtain ⟨hpack, block, he, hpre⟩ : ∃ hpack block,
      hpackEncode (smallEndpoint .client).st.p.hpack
        ⟨[], (smallEndpoint .client).st.p.config.headerBlockBytes⟩ [⟨ascii ":method", ascii "GET"⟩] =
      (hpack, some block) ∧ priorityPrefix (smallEndpoint .client).st.p block.data
        (some ⟨16, 0, false⟩) = some [0, 0, 0, 0, 15] := ⟨_, _, rfl, rfl⟩
  have hsize := (smallEndpoint_reachable ⟨fun _ _ _ => .done () 0, fun _ _ _ => ((), ⟨.wait, []⟩)⟩
    0 .client []).peerFrameSize
  have hbounds : headerBounds (smallEndpoint .client).st.p [⟨ascii ":method", ascii "GET"⟩]
      (some (⟨16, 0, false⟩ : Priority)).isSome = some (37, 51) := rfl
  obtain ⟨hblock, hframes⟩ := header_bounds_sound hsize hbounds he
  obtain ⟨fs, -, hwire, hwhole⟩ := hframes _ hpre 1 true
  exact ⟨hpack, block, he, hblock, fs, hwire, (hwhole (by decide)).2 (by decide)⟩

end Chttp.H2
