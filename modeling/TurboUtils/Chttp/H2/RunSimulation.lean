import TurboUtils.Chttp.H2.ReceiveSimulation
import TurboUtils.Chttp.H2.App

/-! Runs of an engine as runs of moves: applications, the receive loop over its input, and
the steps from outside. -/
namespace Chttp.H2

open Relation (ReflTransGen)

variable {σ : Type*} {host : Host σ}

/-! ## Applications -/

theorem runScript_steps (hh : host.Faithful) (script : Script σ) {st : St σ}
    (hs : st.p.view.Sane) : Steps st.trace (runScript host script st).1.trace := by
  induction script generalizing st with
  | done app ret => exact .refl
  | call app c k ih =>
    have hcall : Steps st.trace (call host { st with app } c).1.trace :=
      @call_steps σ host hh { st with app } hs c
    unfold runScript
    generalize call host { st with app } c = r at hcall ⊢
    obtain ⟨st₁, r⟩ := r
    exact hcall.trans (ih _ _ _ (hcall.sane hs))

theorem App.host_faithful (app : App σ) (n : ℕ) : (app.host n).Faithful := by
  induction n with
  | zero => exact fun ev st hs => .refl
  | succ n ih => exact fun ev st hs => runScript_steps ih _ hs

/-! ## The input -/

inductive Read : Trace × Bytes → Trace × Bytes → Prop
  | step {t t' : Trace} (input : Bytes) (h : Step t t') : Read (t, input) (t', input)
  | frame {t t' : Trace} {hdr : FrameHeader} {input payload rest : Bytes}
      (hp : parseFrame t.view.localSettings.maxFrameSize input = .frame hdr payload rest)
      (ha : t.view.failed = false) (hm : t.view.Met)
      (h : Take hdr payload t t') : Read (t, input) (t', rest)
  | preface {t t' : Trace} (rest : Bytes) (hnew : t.view.serverPrefaceSeen = false)
      (h : Arrive t t') : Read (t, preface ++ rest) (t', rest)
  | prefaceLost {t t' : Trace} (input : Bytes) (h : Arrive t t') (hf : t'.view.failed = true) :
      Read (t, input) (t', input)

abbrev Reads : Trace × Bytes → Trace × Bytes → Prop := ReflTransGen Read

theorem Steps.reads {t t' : Trace} (input : Bytes) (h : Steps t t') :
    Reads (t, input) (t', input) := by
  induction h with
  | refl => exact .refl
  | tail _ hstep ih => exact ih.tail (.step input hstep)

theorem Steps.moves {t t' : Trace} (h : Steps t t') : Moves t t' := by
  induction h with
  | refl => exact .refl
  | tail _ hstep ih => exact ih.tail (.step hstep)

theorem Read.move {x y : Trace × Bytes} (h : Read x y) : Move x.1 y.1 := by
  cases h with
  | step input h => exact .step h
  | frame hp ha hm h => exact .take h
  | preface rest hnew h => exact .arrive h
  | prefaceLost input h hf => exact .arrive h

theorem Reads.moves {x y : Trace × Bytes} (h : Reads x y) : Moves x.1 y.1 := by
  induction h with
  | refl => exact .refl
  | tail _ hread ih => exact ih.tail hread.move

/-- What the head of the input says about the frame found there. -/
theorem parseFrame_frame {maxFrameSize : ℕ} {input payload rest : Bytes} {hdr : FrameHeader}
    (h : parseFrame maxFrameSize input = .frame hdr payload rest) :
    hdr.streamId < 2 ^ 31 ∧ payload.length = hdr.length ∧ hdr.length ≤ maxFrameSize ∧
      frameHeaderSize ≤ input.length ∧ input = input.take frameHeaderSize ++ payload ++ rest := by
  unfold parseFrame at h
  split at h
  · exact absurd h (by simp)
  next hsize =>
  split at h
  · exact absurd h (by simp)
  next hdr' hdec =>
  dsimp only at h
  split at h
  · exact absurd h (by simp)
  next hlen =>
  simp only [Parsed.frame.injEq] at h
  obtain ⟨rfl, rfl, rfl⟩ := h
  unfold frameHeaderDecode at hdec
  dsimp only at hdec
  split at hdec
  · exact absurd hdec (by simp)
  next hmax =>
  simp only [Option.some.injEq] at hdec
  subst hdec
  refine ⟨Nat.mod_lt _ (by norm_num), ?_, by dsimp only; omega, by omega, ?_⟩
  · dsimp only at hlen ⊢
    rw [List.length_take]
    omega
  · simp

theorem recvLoop_reads (hh : host.Faithful) (fuel : ℕ) {st : St σ} (input : Bytes)
    (hs : st.p.view.Sane) (hm : st.p.view.Met) :
    Reads (st.trace, input)
      ((recvLoop host fuel st input).1.trace, (recvLoop host fuel st input).2) := by
  induction fuel generalizing st input with
  | zero => exact .refl
  | succ fuel ih =>
    unfold recvLoop
    split
    · exact .refl
    next hstop =>
    split
    · exact .refl
    · exact (protoFail_steps st (by decide)).reads input
    next hdr payload rest hp =>
    have halive : st.p.failed = false := by
      cases hf : st.p.failed with
      | false => rfl
      | true => exact absurd (.inl hf) hstop
    have hserving : Serving st.p := by
      refine ⟨hs, halive, hm, fun hmode => ?_⟩
      rcases hs.seen hmode (hm hmode) with hsent | hfail
      · exact hsent
      · exact absurd (halive.symm.trans hfail) (by decide)
    obtain ⟨hid, hlen, -⟩ := parseFrame_frame hp
    obtain ⟨t₁, htake, hsteps⟩ := dispatch_dispatches hh hserving hid hlen
    have hfix := htake.fixed.trans hsteps.fixed
    apply ReflTransGen.head (Read.frame hp halive hm htake)
    apply (hsteps.reads rest).trans
    exact ih rest (hsteps.sane (htake.sane hs)) (hfix.met hm)

theorem recvFrames_reads (hh : host.Faithful) {st : St σ} (inbuf : Buffer) (input : Bytes)
    (hs : st.p.view.Sane) (hm : st.p.view.Met) :
    Reads (st.trace, input)
      ((recvFrames host st inbuf input).1.st.trace, (recvFrames host st inbuf input).1.inbuf.data) :=
  recvLoop_reads hh (input.length + 1) input hs hm

theorem Arrive.met {t t' : Trace} (h : Arrive t t') : t'.view.Met := by
  intro _
  cases h with
  | quiet hmode h => rfl
  | settings hmode hp =>
    have hseen := congrArg View.serverPrefaceSeen hp
    exact hseen
  | fail hmode he => rfl

/-- The client preface at a server: SETTINGS go out or are out already, or do not fit. -/
theorem ensurePreface_arrives {st st₁ : St σ} (hmode : st.p.mode = .server)
    (h₁ : st₁ = st.setP { st.p with serverPrefaceSeen := true }) :
    ((ensurePreface st₁).2 = true ∧ Arrive st.trace (ensurePreface st₁).1.trace) ∨
      ensurePreface st₁ = (st₁, false) := by
  have hmode₁ : st₁.p.mode = .server := by rw [h₁]; exact hmode
  unfold ensurePreface
  simp only [hmode₁]
  split_ifs with hsent
  · rcases submitSettings_cases st₁ with ⟨hno, -⟩ | ⟨hok, htrace, -⟩
    · exact .inr hno
    · refine .inl ⟨hok, ?_⟩
      rw [htrace, h₁]
      exact .settings st.trace hmode rfl
  · refine .inl ⟨rfl, ?_⟩
    simp only [h₁, St.setP_p, Bool.true_and, Bool.not_eq_true', Bool.not_eq_false] at hsent
    rw [h₁]
    exact .quiet st.trace hmode (.inl hsent)

theorem protoFail_arrives {st : St σ} (hmode : st.p.mode = .server) (input : Bytes) :
    Reads (st.trace, input) ((protoFail (st.setP { st.p with serverPrefaceSeen := true })
      errInternalError).trace, input) := by
  cases hf : st.p.failed with
  | true =>
    have hsame : protoFail (st.setP { st.p with serverPrefaceSeen := true }) errInternalError =
        st.setP { st.p with serverPrefaceSeen := true } := by
      unfold protoFail
      exact if_pos hf
    rw [hsame]
    exact .single (.prefaceLost input (.quiet st.trace hmode (.inr hf)) hf)
  | false =>
    apply ReflTransGen.head (Read.prefaceLost input
      (Arrive.fail st.trace hmode (show errInternalError ≠ _ by decide)) rfl)
    exact (@protoFail_from σ (st.setP { st.p with serverPrefaceSeen := true }) hf _).reads input

theorem preface_split {input : Bytes}
    (h : input.take prefaceLen = preface.take (input.take prefaceLen).length)
    (hlen : ¬ (input.take prefaceLen).length < prefaceLen) :
    input = preface ++ input.drop prefaceLen := by
  have hfull : preface.take (input.take prefaceLen).length = preface := by
    apply List.take_of_length_le
    have : preface.length = prefaceLen := by decide
    omega
  rw [hfull] at h
  rw [← h, List.take_append_drop]

theorem recvPreface_reads (hh : host.Faithful) {ep : Endpoint σ} (hs : ep.st.p.view.Sane)
    (hmode : ep.st.p.mode = .server) (hnew : ep.st.p.serverPrefaceSeen = false) :
    Reads (ep.st.trace, ep.inbuf.data)
      ((recvPreface host ep).1.st.trace, (recvPreface host ep).1.inbuf.data) := by
  unfold recvPreface
  dsimp only
  split
  · exact (protoFail_steps ep.st (by decide)).reads ep.inbuf.data
  next hmatch =>
  split
  · exact .refl
  next hlen =>
  have hinput := preface_split (not_not.mp hmatch) hlen
  have hcases := @ensurePreface_arrives σ ep.st
    (ep.st.setP { ep.st.p with serverPrefaceSeen := true }) hmode rfl
  generalize ensurePreface (ep.st.setP { ep.st.p with serverPrefaceSeen := true }) = r at hcases ⊢
  obtain ⟨st₁, ok⟩ := r
  rcases hcases with ⟨rfl, harr⟩ | hno
  · have hread : Read (ep.st.trace, ep.inbuf.data) (st₁.trace, ep.inbuf.data.drop prefaceLen) := by
      nth_rewrite 1 [hinput]
      exact .preface _ hnew harr
    apply ReflTransGen.head hread
    exact recvFrames_reads hh _ _ (harr.sane hs) harr.met
  · obtain ⟨rfl, rfl⟩ := Prod.mk.inj hno
    exact protoFail_arrives hmode _

theorem process_reads (hh : host.Faithful) {ep : Endpoint σ} (hs : ep.st.p.view.Sane) :
    Reads (ep.st.trace, ep.inbuf.data)
      ((process host ep).1.st.trace, (process host ep).1.inbuf.data) := by
  unfold process
  split
  · exact .refl
  split
  next hserver => exact recvPreface_reads hh hs hserver.1 (Bool.eq_false_of_not_eq_true hserver.2)
  next hserver =>
    apply recvFrames_reads hh _ _ hs
    intro hmode
    by_contra hseen
    exact hserver ⟨hmode, hseen⟩

theorem recv_reads (hh : host.Faithful) {ep : Endpoint σ} (hs : ep.st.p.view.Sane)
    {bytes : Bytes} (hroom : ep.inbuf.reserve bytes.length = true) :
    Reads (ep.st.trace, ep.inbuf.data ++ bytes)
      ((recv host ep bytes).1.st.trace, (recv host ep bytes).1.inbuf.data) := by
  unfold recv
  rw [if_pos hroom]
  exact @process_reads σ host hh { ep with inbuf := ep.inbuf.append bytes } hs

theorem recv_refused {ep : Endpoint σ} {bytes : Bytes}
    (hroom : ep.inbuf.reserve bytes.length ≠ true) : recv host ep bytes = (ep, false) := by
  unfold recv
  exact if_neg hroom

theorem unpause_steps (hh : host.Faithful) {st : St σ} (hs : st.p.view.Sane)
    (hp : st.p.inputPaused = true) (streamId : ℕ) :
    Steps st.trace (unpause host st streamId).trace := by
  unfold unpause
  dsimp only
  have hpause : Step st.trace (st.setP { st.p with
      inputPaused := false, inputPausedStream := 0, inputPausedEndStream := false }).trace :=
    .pause st.trace false (hs.paused hp)
  have hs₁ := hpause.sane hs
  split
  · split
    · exact hpause.steps.trans (maybeClose_steps hh hs₁ _)
    · exact hpause.steps
  · exact hpause.steps

theorem resumeInput_reads (hh : host.Faithful) {ep : Endpoint σ} (hs : ep.st.p.view.Sane)
    (streamId : ℕ) :
    Reads (ep.st.trace, ep.inbuf.data)
      ((resumeInput host ep streamId).1.st.trace, (resumeInput host ep streamId).1.inbuf.data) := by
  unfold resumeInput
  dsimp only
  split
  · exact .refl
  next hok =>
  have hpaused : ep.st.p.inputPaused = true := by
    by_contra h
    exact hok (.inr (.inl h))
  have hsteps := unpause_steps hh hs hpaused streamId
  generalize unpause host ep.st streamId = st at hsteps ⊢
  have hreads := hsteps.reads ep.inbuf.data
  split
  · exact hreads
  · apply hreads.trans
    have hroom : ep.inbuf.reserve ([] : Bytes).length = true := decide_eq_true (Nat.zero_le _)
    have h := @recv_reads σ host hh ⟨st, ep.inbuf⟩ (hsteps.sane hs) [] hroom
    rw [List.append_nil] at h
    exact h

/-! ## Runs -/

theorem step_moves (hh : host.Faithful) {ep : Endpoint σ} (hs : ep.st.p.view.Sane) (op : Op) :
    Moves ep.st.trace (step host ep op).1.st.trace := by
  cases op with
  | call c => exact (call_steps hh hs c).moves
  | send =>
    simp only [step]
    rcases protoSend_cases hh hs with ⟨st', heq, hsteps⟩ | ⟨st', heq, hsteps⟩
    · rw [heq]
      exact hsteps.moves
    · rw [heq]
      exact hsteps.moves.tail (.flush _)
  | recv bytes =>
    by_cases hroom : ep.inbuf.reserve bytes.length = true
    · exact (recv_reads hh hs hroom).moves
    · rw [step, recv_refused hroom]
  | resumeInput streamId => exact (resumeInput_reads hh hs streamId).moves

def Trace.start (p : Proto) : Trace := ⟨p.view, []⟩

/-- The fields of a fresh engine. -/
theorem protoCreate_eq {mode : Mode} {config : ProtoConfig} {p : Proto}
    (h : protoCreate mode config = some p) : configValid config = true ∧ ∃ hpack,
      p = { mode, config, hpack
            localSettings := initialLocalSettings config
            peerSettings := initialPeerSettings
            localResetIds := List.replicate config.streamCapacity 0
            nextStreamId := firstStreamId mode
            out := ⟨[], config.outputBufferBytes⟩
            inBlock := ⟨[], config.headerBlockBytes⟩ } := by
  unfold protoCreate at h
  split at h
  next hvalid =>
    split at h
    · exact absurd h (by simp)
    split at h
    · exact absurd h (by simp)
    next hpack _ => exact ⟨hvalid, hpack, (Option.some.inj h).symm⟩
  · exact absurd h (by simp)

theorem protoCreate_sane {mode : Mode} {config : ProtoConfig} {p : Proto}
    (h : protoCreate mode config = some p) : p.view.Sane := by
  obtain ⟨-, hpack, rfl⟩ := protoCreate_eq h
  constructor
  case next => cases mode <;> exact Nat.succ_pos _
  all_goals simp [Proto.view, initialPeerSettings, initialLocalSettings, defaultFrameBytes,
    maxFrameBytes]

theorem Reachable.moves {app : App σ} {n : ℕ} {mode : Mode} {config : ProtoConfig}
    {ep : Endpoint σ} (h : Reachable app n mode config ep) :
    ∃ p, protoCreate mode config = some p ∧ Moves (.start p) ep.st.trace ∧ ep.st.p.view.Sane := by
  apply h.induction
  · exact fun p a hp => ⟨p, hp, .refl, protoCreate_sane hp⟩
  · rintro ep op ⟨p, hp, hmoves, hs⟩
    have hstep := step_moves (app.host_faithful n) hs op
    exact ⟨p, hp, hmoves.trans hstep, hstep.sane hs⟩

end Chttp.H2
