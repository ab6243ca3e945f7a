import TurboUtils.Chttp.H2.RunSimulation

/-! The receive path does not see how its input was cut into calls: the loop over a joined
input is the loop over its parts, and a resumed pause commutes with further input. -/
namespace Chttp.H2

open Relation (ReflTransGen)

variable {σ : Type*} {host : Host σ}

/-! ## The head of a longer input -/

theorem frameHeaderDecode_append {input : Bytes} (h : frameHeaderSize ≤ input.length) (more : Bytes)
    (maxFrameSize : ℕ) :
    frameHeaderDecode (input ++ more) maxFrameSize = frameHeaderDecode input maxFrameSize := by
  match input, h with
  | _ :: _ :: _ :: _ :: _ :: _ :: _ :: _ :: _ :: _, _ => rfl

theorem parseFrame_append_frame {maxFrameSize : ℕ} {input payload rest : Bytes} {hdr : FrameHeader}
    (h : parseFrame maxFrameSize input = .frame hdr payload rest) (more : Bytes) :
    parseFrame maxFrameSize (input ++ more) = .frame hdr payload (rest ++ more) := by
  unfold parseFrame at h ⊢
  split at h
  · exact absurd h (by simp)
  next hsize =>
  rw [if_neg (by rw [List.length_append]; omega), frameHeaderDecode_append (by omega)]
  split at h
  · exact absurd h (by simp)
  next hdr' hdec =>
  dsimp only at h ⊢
  split at h
  · exact absurd h (by simp)
  next hlen =>
  simp only [Parsed.frame.injEq] at h
  obtain ⟨rfl, rfl, rfl⟩ := h
  have hdrop : (input ++ more).drop frameHeaderSize = input.drop frameHeaderSize ++ more :=
    List.drop_append_of_le_length (by omega)
  rw [hdrop, if_neg (by rw [List.length_append]; omega),
    List.take_append_of_le_length (by omega), List.drop_append_of_le_length (by omega)]

theorem parseFrame_append_bad {maxFrameSize : ℕ} {input : Bytes}
    (h : parseFrame maxFrameSize input = .bad) (more : Bytes) :
    parseFrame maxFrameSize (input ++ more) = .bad := by
  unfold parseFrame at h ⊢
  split at h
  · exact absurd h (by simp)
  next hsize =>
  rw [if_neg (by rw [List.length_append]; omega), frameHeaderDecode_append (by omega)]
  split at h
  · rfl
  · dsimp only at h
    split at h <;> exact absurd h (by simp)

theorem parseFrame_rest_length {maxFrameSize : ℕ} {input payload rest : Bytes} {hdr : FrameHeader}
    (h : parseFrame maxFrameSize input = .frame hdr payload rest) :
    rest.length < input.length := by
  obtain ⟨-, -, -, hsize, hinput⟩ := parseFrame_frame h
  have hlen := congrArg List.length hinput
  simp only [List.length_append, List.length_take, frameHeaderSize] at hlen hsize
  omega

/-! ## The loop -/

/-- The fields a failure leaves alone. -/
theorem protoFail_engine (st : St σ) (error : ℕ) :
    (protoFail st error).p.failed = true ∧
      (protoFail st error).p.inputPaused = st.p.inputPaused ∧
      (protoFail st error).p.mode = st.p.mode ∧
      (protoFail st error).p.serverPrefaceSeen = st.p.serverPrefaceSeen := by
  unfold protoFail
  split
  next hf => exact ⟨hf, rfl, rfl, rfl⟩
  generalize hst : st.setP { st.p with failed := true, lastError := error } = st₁
  have h₁ : st₁.p = { st.p with failed := true, lastError := error } := by rw [← hst]; rfl
  dsimp only
  unfold submitGoaway
  split
  · rw [h₁]
    exact ⟨rfl, rfl, rfl, rfl⟩
  obtain ⟨out, sent, done, hp, -⟩ := (ensurePreface_greeted st₁).engine
  rw [h₁] at hp
  generalize ensurePreface st₁ = r at hp ⊢
  obtain ⟨st₂, ok⟩ := r
  cases ok with
  | false =>
    dsimp only at hp ⊢
    rw [hp]
    exact ⟨rfl, rfl, rfl, rfl⟩
  | true =>
    dsimp only at hp ⊢
    rcases outFrame_cases st₂ ⟨.goaway, 0, 0, goawayBytes st₁.p.lastProcStreamId error⟩ with
      hno | ⟨hok, -⟩
    · rw [hno]
      dsimp only
      rw [hp]
      exact ⟨rfl, rfl, rfl, rfl⟩
    · rw [hok]
      dsimp only [push, St.setP_p, St.record_p]
      rw [hp]
      exact ⟨rfl, rfl, rfl, rfl⟩

theorem recvLoop_stopped {st : St σ} (h : st.p.failed = true ∨ st.p.inputPaused = true) (fuel : ℕ)
    (input : Bytes) : recvLoop host fuel st input = (st, input) := by
  cases fuel with
  | zero => rfl
  | succ fuel => rw [recvLoop, if_pos h]

/-- Fuel above the length of the input makes no difference. -/
theorem recvLoop_fuel {f g : ℕ} {st : St σ} {input : Bytes} (hf : input.length < f)
    (hg : input.length < g) : recvLoop host f st input = recvLoop host g st input := by
  induction f generalizing g st input with
  | zero => omega
  | succ f ih =>
    cases g with
    | zero => omega
    | succ g =>
      unfold recvLoop
      split
      · rfl
      split
      · rfl
      · rfl
      next hp =>
      have hlen := parseFrame_rest_length hp
      exact ih (by omega) (by omega)

theorem recvLoop_rest_length (fuel : ℕ) (st : St σ) (input : Bytes) :
    (recvLoop host fuel st input).2.length ≤ input.length := by
  induction fuel generalizing st input with
  | zero => exact le_rfl
  | succ fuel ih =>
    unfold recvLoop
    split
    · exact le_rfl
    split
    · exact le_rfl
    · exact le_rfl
    next hp => exact (ih _ _).trans (parseFrame_rest_length hp).le

/-- The loop over a joined input. -/
theorem recvLoop_append {f g k : ℕ} {st : St σ} {input : Bytes} (more : Bytes)
    (hf : (input ++ more).length < f) (hg : input.length < g)
    (hk : ((recvLoop host g st input).2 ++ more).length < k) :
    recvLoop host f st (input ++ more) =
      recvLoop host k (recvLoop host g st input).1 ((recvLoop host g st input).2 ++ more) := by
  induction g generalizing f st input with
  | zero => omega
  | succ g ih =>
    cases f with
    | zero => omega
    | succ f =>
      by_cases hstop : st.p.failed = true ∨ st.p.inputPaused = true
      · rw [recvLoop_stopped hstop, recvLoop_stopped hstop, recvLoop_stopped hstop]
      cases hp : parseFrame st.p.localSettings.maxFrameSize input with
      | wait =>
        have hwait : recvLoop host (g + 1) st input = (st, input) := by
          rw [recvLoop, if_neg hstop, hp]
        rw [hwait] at hk ⊢
        exact recvLoop_fuel hf hk
      | bad =>
        have hbad : recvLoop host (g + 1) st input = (protoFail st errProtocolError, input) := by
          rw [recvLoop, if_neg hstop, hp]
        rw [hbad, recvLoop_stopped (.inl (protoFail_engine st _).1), recvLoop, if_neg hstop,
          parseFrame_append_bad hp]
      | frame hdr payload rest =>
        have hone : recvLoop host (g + 1) st input =
            recvLoop host g (dispatch host st hdr payload) rest := by
          rw [recvLoop, if_neg hstop, hp]
        have hlen := parseFrame_rest_length hp
        rw [hone] at hk ⊢
        rw [recvLoop, if_neg hstop, parseFrame_append_frame hp]
        apply ih _ (by omega) hk
        rw [List.length_append] at hf ⊢
        omega

/-! ## Calls -/

theorem Read.met {x y : Trace × Bytes} (h : Read x y) (hm : x.1.view.Met) : y.1.view.Met := by
  cases h with
  | step input h => exact h.fixed.met hm
  | frame hp ha hx h => exact h.fixed.met hm
  | preface rest hnew h => exact h.met
  | prefaceLost input h hf => exact h.met

theorem Reads.met {x y : Trace × Bytes} (h : Reads x y) (hm : x.1.view.Met) : y.1.view.Met := by
  induction h with
  | refl => exact hm
  | tail _ hread ih => exact hread.met ih

theorem process_met {st : St σ} (hm : st.p.view.Met) (inbuf : Buffer) :
    (process host ⟨st, inbuf⟩).1 = (recvFrames host st inbuf inbuf.data).1 := by
  unfold process
  split
  next hp =>
    unfold recvFrames
    rw [recvLoop_stopped (.inr hp)]
  · rw [if_neg]
    rintro ⟨hmode, hseen⟩
    exact hseen (hm hmode)

theorem process_stopped {st : St σ} (hm : st.p.view.Met)
    (h : st.p.failed = true ∨ st.p.inputPaused = true) (inbuf : Buffer) :
    (process host ⟨st, inbuf⟩).1 = ⟨st, inbuf⟩ := by
  rw [process_met hm]
  unfold recvFrames
  rw [recvLoop_stopped h]

theorem recvFrames_append {st : St σ} (inbuf : Buffer) (input more : Bytes)
    (hm : (recvFrames host st inbuf input).1.st.p.view.Met) :
    (process host ⟨(recvFrames host st inbuf input).1.st,
        (recvFrames host st inbuf input).1.inbuf.append more⟩).1 =
      (recvFrames host st (inbuf.append more) (input ++ more)).1 := by
  rw [process_met hm]
  unfold recvFrames
  dsimp only [Buffer.append]
  rw [recvLoop_append more (Nat.lt_succ_self _) (Nat.lt_succ_self input.length) (Nat.lt_succ_self _)]

theorem take_preface_append {input : Bytes}
    (h : ¬ (input.take prefaceLen).length < prefaceLen) (more : Bytes) :
    (input ++ more).take prefaceLen = input.take prefaceLen := by
  rw [List.length_take] at h
  exact List.take_append_of_le_length (by omega)

theorem preface_mismatch_append {input : Bytes}
    (h : input.take prefaceLen ≠ preface.take (input.take prefaceLen).length) (more : Bytes) :
    (input ++ more).take prefaceLen ≠
      preface.take ((input ++ more).take prefaceLen).length := by
  intro heq
  apply h
  have hpre : input.take prefaceLen <+: (input ++ more).take prefaceLen := by
    apply List.IsPrefix.take
    exact List.prefix_append _ _
  rw [heq] at hpre
  exact List.prefix_iff_eq_take.mp (hpre.trans (List.take_prefix _ _))

/-- Further input for a server that waits for the preface. -/
theorem recvPreface_append (hh : host.Faithful) {ep : Endpoint σ} (hs : ep.st.p.view.Sane)
    (hmode : ep.st.p.mode = .server) (hnew : ep.st.p.serverPrefaceSeen = false)
    (hpaused : ep.st.p.inputPaused = false) (more : Bytes) :
    (process host ⟨(recvPreface host ep).1.st, (recvPreface host ep).1.inbuf.append more⟩).1 =
      (recvPreface host ⟨ep.st, ep.inbuf.append more⟩).1 := by
  have hwaits : ∀ st inbuf, st.p.mode = .server → st.p.serverPrefaceSeen = false →
      st.p.inputPaused = false → process host ⟨st, inbuf⟩ = recvPreface host ⟨st, inbuf⟩ := by
    intro st inbuf hmode hnew hpaused
    unfold process
    rw [if_neg (by simp [hpaused]), if_pos ⟨hmode, by simp [hnew]⟩]
  by_cases hmatch : ep.inbuf.data.take prefaceLen ≠
      preface.take (ep.inbuf.data.take prefaceLen).length
  · -- the failure stands, and the second mismatch changes nothing
    have hmore : (ep.inbuf.append more).data.take prefaceLen ≠
        preface.take ((ep.inbuf.append more).data.take prefaceLen).length :=
      preface_mismatch_append hmatch more
    have hfirst : recvPreface host ep = (⟨protoFail ep.st errProtocolError, ep.inbuf⟩, false) :=
      if_pos hmatch
    have hboth : ∀ st : St σ, recvPreface host ⟨st, ep.inbuf.append more⟩ =
        (⟨protoFail st errProtocolError, ep.inbuf.append more⟩, false) := fun st => if_pos hmore
    obtain ⟨hfail, hp, hm, hseen⟩ := protoFail_engine ep.st errProtocolError
    rw [hfirst, hwaits _ _ (hm.trans hmode) (hseen.trans hnew) (hp.trans hpaused), hboth, hboth]
    have hagain : protoFail (protoFail ep.st errProtocolError) errProtocolError =
        protoFail ep.st errProtocolError := by
      rw [protoFail, if_pos hfail]
    rw [hagain]
  by_cases hlen : (ep.inbuf.data.take prefaceLen).length < prefaceLen
  · have hfirst : recvPreface host ep = (ep, true) := by
      unfold recvPreface
      rw [if_neg hmatch, if_pos hlen]
    rw [hfirst, hwaits _ _ hmode hnew hpaused]
  have htake : (ep.inbuf.append more).data.take prefaceLen = ep.inbuf.data.take prefaceLen :=
    take_preface_append hlen more
  have hdrop : (ep.inbuf.append more).data.drop prefaceLen =
      ep.inbuf.data.drop prefaceLen ++ more := by
    rw [List.length_take] at hlen
    exact List.drop_append_of_le_length (by omega)
  have hcases := @ensurePreface_arrives σ ep.st
    (ep.st.setP { ep.st.p with serverPrefaceSeen := true }) hmode rfl
  unfold recvPreface
  rw [htake, if_neg hmatch, if_neg hmatch, if_neg hlen, if_neg hlen, hdrop]
  generalize ensurePreface (ep.st.setP { ep.st.p with serverPrefaceSeen := true }) = r at hcases ⊢
  obtain ⟨st₁, ok⟩ := r
  rcases hcases with ⟨rfl, harr⟩ | hno
  · apply recvFrames_append
    exact Reads.met (recvFrames_reads hh _ _ (harr.sane hs) harr.met) harr.met
  · obtain ⟨rfl, rfl⟩ := Prod.mk.inj hno
    obtain ⟨hfail, -, hm, hseen⟩ :=
      protoFail_engine (ep.st.setP { ep.st.p with serverPrefaceSeen := true }) errInternalError
    exact process_stopped (fun _ => hseen) (.inl hfail) _

theorem process_append (hh : host.Faithful) {ep : Endpoint σ} (hs : ep.st.p.view.Sane)
    (more : Bytes) :
    (process host ⟨(process host ep).1.st, (process host ep).1.inbuf.append more⟩).1 =
      (process host ⟨ep.st, ep.inbuf.append more⟩).1 := by
  by_cases hm : ep.st.p.view.Met
  · have hmet : (process host ep).1.st.p.view.Met := Reads.met (process_reads hh hs) hm
    rw [process_met hm] at hmet ⊢
    rw [recvFrames_append _ _ _ hmet, process_met hm]
    rfl
  · have hmode : ep.st.p.mode = .server := by
      by_contra h
      exact hm fun h' => absurd h' h
    have hnew : ¬ ep.st.p.serverPrefaceSeen := fun h => hm fun _ => h
    have hpaused : ¬ ep.st.p.inputPaused := fun h => hm (hs.paused h)
    have hprocess : ∀ inbuf, process host ⟨ep.st, inbuf⟩ = recvPreface host ⟨ep.st, inbuf⟩ := by
      intro inbuf
      unfold process
      rw [if_neg hpaused, if_pos ⟨hmode, hnew⟩]
    rw [hprocess, hprocess]
    exact recvPreface_append hh hs hmode (Bool.eq_false_of_not_eq_true hnew)
      (Bool.eq_false_of_not_eq_true hpaused) more

/-- The input buffer keeps its bound and holds no more than it was given. -/
theorem process_inbuf (ep : Endpoint σ) :
    (process host ep).1.inbuf.maxCapacity = ep.inbuf.maxCapacity ∧
      (process host ep).1.inbuf.data.length ≤ ep.inbuf.data.length := by
  have hframes : ∀ st input, input.length ≤ ep.inbuf.data.length →
      (recvFrames host st ep.inbuf input).1.inbuf.maxCapacity = ep.inbuf.maxCapacity ∧
        (recvFrames host st ep.inbuf input).1.inbuf.data.length ≤ ep.inbuf.data.length :=
    fun st input h => ⟨rfl, (recvLoop_rest_length (input.length + 1) st input).trans h⟩
  unfold process
  split
  · exact ⟨rfl, le_rfl⟩
  split
  · unfold recvPreface
    dsimp only
    split
    · exact ⟨rfl, le_rfl⟩
    split
    · exact ⟨rfl, le_rfl⟩
    split
    · exact ⟨rfl, le_rfl⟩
    · apply hframes
      rw [List.length_drop]
      omega
  · exact hframes _ _ le_rfl

theorem reserve_of_add {b : Buffer} {m n : ℕ} (h : b.reserve (m + n) = true) :
    b.reserve m = true := by
  rw [Buffer.reserve_iff] at h ⊢
  omega

theorem recv_eq {ep : Endpoint σ} {bytes : Bytes} (h : ep.inbuf.reserve bytes.length = true) :
    recv host ep bytes = process host ⟨ep.st, ep.inbuf.append bytes⟩ := if_pos h

theorem recv_nil (ep : Endpoint σ) : recv host ep [] = process host ep := by
  rw [recv_eq (decide_eq_true (Nat.zero_le _)), Buffer.append_nil]

theorem recv_inbuf {ep : Endpoint σ} {bytes : Bytes} {n : ℕ}
    (h : ep.inbuf.reserve (bytes.length + n) = true) :
    (recv host ep bytes).1.inbuf.reserve n = true := by
  rw [Buffer.reserve_iff] at h ⊢
  rw [recv_eq ((Buffer.reserve_iff ..).mpr (by omega))]
  obtain ⟨hmax, hlen⟩ := @process_inbuf σ host ⟨ep.st, ep.inbuf.append bytes⟩
  simp only [Buffer.append_data, Buffer.append_maxCapacity, List.length_append] at hmax hlen
  omega

theorem recv_append (hh : host.Faithful) {ep : Endpoint σ} (hs : ep.st.p.view.Sane)
    {bytes more : Bytes} (h : ep.inbuf.reserve (bytes.length + more.length) = true) :
    (recv host (recv host ep bytes).1 more).1 = (recv host ep (bytes ++ more)).1 := by
  have hsecond := @recv_inbuf σ host ep bytes _ h
  rw [Buffer.reserve_iff] at h
  have hfirst := @recv_eq σ host ep bytes ((Buffer.reserve_iff ..).mpr (by omega))
  have hwhole := @recv_eq σ host ep (bytes ++ more)
    ((Buffer.reserve_iff ..).mpr (by rw [List.length_append]; omega))
  have happend := @process_append σ host hh ⟨ep.st, ep.inbuf.append bytes⟩ hs more
  rw [recv_eq hsecond, hwhole, hfirst, happend, Buffer.append_append]

theorem recv_idle (hh : host.Faithful) {ep : Endpoint σ} (hs : ep.st.p.view.Sane) {bytes : Bytes}
    (h : ep.inbuf.reserve bytes.length = true) :
    (recv host (recv host ep bytes).1 []).1 = (recv host ep bytes).1 := by
  have hnil := @recv_append σ host hh ep hs bytes [] h
  rw [List.append_nil] at hnil
  exact hnil

theorem recv_sane (hh : host.Faithful) {ep : Endpoint σ} (hs : ep.st.p.view.Sane) (bytes : Bytes) :
    (recv host ep bytes).1.st.p.view.Sane :=
  (step_moves hh hs (.recv bytes)).sane hs

/-! ## Resumption -/

/-- The check that `resume_input` makes before it does anything. -/
def Resumes (ep : Endpoint σ) (streamId : ℕ) : Prop :=
  streamId ≠ 0 ∧ ep.st.p.inputPaused = true ∧ ep.st.p.inputPausedStream = streamId

theorem resumeInput_eq {ep : Endpoint σ} {streamId : ℕ} (h : Resumes ep streamId) :
    (resumeInput host ep streamId).1 =
      if (unpause host ep.st streamId).p.failed then ⟨unpause host ep.st streamId, ep.inbuf⟩
      else (recv host ⟨unpause host ep.st streamId, ep.inbuf⟩ []).1 := by
  obtain ⟨h0, hp, hid⟩ := h
  unfold resumeInput
  rw [if_neg (by simp [h0, hp, hid])]
  dsimp only
  split <;> rfl

theorem resumeInput_inbuf (ep : Endpoint σ) (streamId : ℕ) :
    (resumeInput host ep streamId).1.inbuf.maxCapacity = ep.inbuf.maxCapacity ∧
      (resumeInput host ep streamId).1.inbuf.data.length ≤ ep.inbuf.data.length := by
  unfold resumeInput
  split
  · exact ⟨rfl, le_rfl⟩
  dsimp only
  split
  · exact ⟨rfl, le_rfl⟩
  · rw [recv_nil]
    exact process_inbuf _

theorem recv_paused {ep : Endpoint σ} (h : ep.st.p.inputPaused = true) {bytes : Bytes}
    (hroom : ep.inbuf.reserve bytes.length = true) :
    (recv host ep bytes).1 = ⟨ep.st, ep.inbuf.append bytes⟩ := by
  rw [recv_eq hroom, process, if_pos h]

/-- Input stored before the pause ends is input that arrives after it. -/
theorem recv_resumeInput (hh : host.Faithful) {ep : Endpoint σ} (hs : ep.st.p.view.Sane)
    {streamId : ℕ} (hr : Resumes ep streamId) {bytes : Bytes}
    (hroom : ep.inbuf.reserve bytes.length = true) :
    (resumeInput host (recv host ep bytes).1 streamId).1 =
      (recv host (resumeInput host ep streamId).1 bytes).1 := by
  have hsteps := unpause_steps hh hs hr.2.1 streamId
  have hs₁ : (unpause host ep.st streamId).p.view.Sane := hsteps.sane hs
  have hm₁ : (unpause host ep.st streamId).p.view.Met := hsteps.fixed.met (hs.paused hr.2.1)
  rw [recv_paused hr.2.1 hroom, resumeInput_eq hr,
    @resumeInput_eq σ host ⟨ep.st, ep.inbuf.append bytes⟩ streamId hr]
  generalize unpause host ep.st streamId = st₁ at hs₁ hm₁ ⊢
  dsimp only
  split
  next hf =>
    rw [@recv_eq σ host ⟨st₁, ep.inbuf⟩ bytes hroom]
    exact (process_stopped hm₁ (.inl hf) _).symm
  · have hroom' : ep.inbuf.reserve (([] : Bytes).length + bytes.length) = true := by
      rw [List.length_nil, Nat.zero_add]
      exact hroom
    rw [@recv_append σ host hh ⟨st₁, ep.inbuf⟩ hs₁ [] bytes hroom', List.nil_append, recv_nil,
      @recv_eq σ host ⟨st₁, ep.inbuf⟩ bytes hroom]

/-! ## Pieces -/

def fedBytes : List Op → Bytes
  | [] => []
  | .recv bytes :: ops => bytes ++ fedBytes ops
  | .call _ :: ops | .send :: ops | .resumeInput _ :: ops => fedBytes ops

def resumptions : List Op → List Op
  | [] => []
  | .resumeInput streamId :: ops => .resumeInput streamId :: resumptions ops
  | .call _ :: ops | .send :: ops | .recv _ :: ops => resumptions ops

/-- Pieces of input, with every pause lifted when it is there. -/
inductive Feeding (host : Host σ) : Endpoint σ → List Op → Prop
  | done (ep : Endpoint σ) : Feeding host ep []
  | recv {ep : Endpoint σ} {bytes : Bytes} {ops : List Op}
      (h : Feeding host (recv host ep bytes).1 ops) : Feeding host ep (.recv bytes :: ops)
  | resume {ep : Endpoint σ} {streamId : ℕ} {ops : List Op} (hr : Resumes ep streamId)
      (h : Feeding host (resumeInput host ep streamId).1 ops) :
      Feeding host ep (.resumeInput streamId :: ops)

/-- Pieces fed to an engine that has nothing left to do. -/
theorem run_feeding (hh : host.Faithful) {ep : Endpoint σ} {ops : List Op}
    (hf : Feeding host ep ops) (hs : ep.st.p.view.Sane) (hidle : (recv host ep []).1 = ep)
    (hroom : ep.inbuf.reserve (fedBytes ops).length = true) :
    run host ep ops = run host (recv host ep (fedBytes ops)).1 (resumptions ops) := by
  induction hf with
  | done ep => rw [fedBytes, hidle]; rfl
  | @recv ep bytes ops _ ih =>
    rw [fedBytes, List.length_append] at hroom
    have hsame := recv_append hh hs hroom
    have hrest := ih (recv_sane hh hs bytes) (recv_idle hh hs (reserve_of_add hroom))
      (recv_inbuf hroom)
    rw [hsame] at hrest
    exact hrest
  | @resume ep streamId ops hr _ ih =>
    rw [fedBytes] at hroom ⊢
    have hs' : (resumeInput host ep streamId).1.st.p.view.Sane :=
      (step_moves hh hs (.resumeInput streamId)).sane hs
    have hroom' : (resumeInput host ep streamId).1.inbuf.reserve (fedBytes ops).length = true := by
      obtain ⟨hmax, hlen⟩ := @resumeInput_inbuf σ host ep streamId
      rw [Buffer.reserve_iff] at hroom ⊢
      omega
    have hidle' := @recv_resumeInput σ host hh ep hs streamId hr [] (decide_eq_true (Nat.zero_le _))
    rw [hidle] at hidle'
    have hrest := ih hs' hidle'.symm hroom'
    rw [← recv_resumeInput hh hs hr hroom] at hrest
    exact hrest

/-- Feeding an input in pieces, with pauses lifted in between, is feeding it in one call and
lifting the pauses afterwards: the same engine, the same record and the same rest. -/
theorem recv_segmentation {A : Type*} {app : App A} {n : ℕ} {mode : Mode} {config : ProtoConfig}
    {ep : Endpoint A} (h : Reachable app n mode config ep) (first : Bytes) (ops : List Op)
    (hf : Feeding (app.host n) ep (.recv first :: ops))
    (hroom : ep.inbuf.reserve (first ++ fedBytes ops).length = true) :
    run (app.host n) ep (.recv first :: ops) =
      run (app.host n) ep (.recv (first ++ fedBytes ops) :: resumptions ops) := by
  obtain ⟨p, -, -, hs⟩ := h.moves
  have hh := app.host_faithful n
  rw [List.length_append] at hroom
  cases hf with
  | recv hf =>
    have hrun := run_feeding hh hf (recv_sane hh hs first)
      (recv_idle hh hs (reserve_of_add hroom)) (recv_inbuf hroom)
    rw [recv_append hh hs hroom] at hrun
    exact hrun

def pausingApp : App Unit :=
  ⟨fun ev _ _ => .done () (match ev with
    | .data _ _ => 1
    | _ => 0), fun _ _ _ => ((), ⟨.eof, []⟩)⟩

def requestBytes : Bytes :=
  [0, 0, 0, 4, 0, 0, 0, 0, 0] ++ [0, 0, 1, 1, 4, 0, 0, 0, 1, 0x82] ++
    [0, 0, 1, 0, 1, 0, 0, 0, 1, 0x61]

theorem recv_segmentation_paused_server :
    run (pausingApp.host 1) (smallEndpoint .server)
      [.recv (preface.take 10), .recv (preface.drop 10 ++ requestBytes), .resumeInput 1] =
    run (pausingApp.host 1) (smallEndpoint .server)
      [.recv (preface.take 10 ++ (preface.drop 10 ++ requestBytes ++ [])), .resumeInput 1] :=
  recv_segmentation (smallEndpoint_reachable pausingApp 1 .server []) (preface.take 10)
    [.recv (preface.drop 10 ++ requestBytes), .resumeInput 1]
    (.recv (.recv (.resume ⟨by decide, by decide, by decide⟩ (.done _))))
    (by decide)

/-! ## Streams of frames -/

/-- The frames that the receive loop takes off its input in so many rounds, and what it leaves. -/
def takeFrames (maxFrameSize : ℕ) : ℕ → Bytes → List (FrameHeader × Bytes) × Bytes
  | 0, input => ([], input)
  | rounds + 1, input =>
      match parseFrame maxFrameSize input with
      | .frame hdr payload rest =>
          ((hdr, payload) :: (takeFrames maxFrameSize rounds rest).1,
            (takeFrames maxFrameSize rounds rest).2)
      | _ => ([], input)

def Frame.header (f : Frame) : FrameHeader := ⟨f.payload.length, f.type, f.flags, f.streamId⟩

/-- The receiver knows the type, and the lengths and the stream fit. -/
def Frame.Sendable (maxFrameSize : ℕ) (f : Frame) : Prop :=
  (∀ c, f.type ≠ .unknown c) ∧ f.payload.length ≤ maxFrameSize ∧ f.streamId < 2 ^ 31

section Stream

variable {f : Frame} {maxFrameSize : ℕ}

theorem parseFrame_bytes (hf : f.Sendable maxFrameSize) (hm : maxFrameSize ≤ maxFrameBytes)
    (rest : Bytes) : parseFrame maxFrameSize (f.bytes ++ rest) = .frame f.header f.payload rest := by
  obtain ⟨ht, hl, hs⟩ := hf
  have hdrop : (f.bytes ++ rest).drop frameHeaderSize = f.payload ++ rest := by
    simp [Frame.bytes, List.drop_append]
  rw [parseFrame, if_neg (by simp [f.bytes_length]; omega), frameHeaderDecode_bytes rest ht hl hm hs, hdrop]
  simp [Frame.header]

theorem parseFrame_cut (hf : f.Sendable maxFrameSize) (hm : maxFrameSize ≤ maxFrameBytes) {k : ℕ}
    (hk : k < f.bytes.length) : parseFrame maxFrameSize (f.bytes.take k) = .wait := by
  have hwhole := parseFrame_bytes hf hm []
  rw [List.append_nil, ← List.take_append_drop k f.bytes] at hwhole
  cases hcut : parseFrame maxFrameSize (f.bytes.take k) with
  | wait => rfl
  | bad =>
    rw [parseFrame_append_bad hcut] at hwhole
    cases hwhole
  | frame hdr payload rest =>
    rw [parseFrame_append_frame hcut] at hwhole
    have hparts : hdr = f.header ∧ payload = f.payload ∧ rest = [] ∧ f.bytes.length ≤ k := by
      simpa using hwhole
    omega

end Stream

end Chttp.H2
