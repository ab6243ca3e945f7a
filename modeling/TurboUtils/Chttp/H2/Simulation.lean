import TurboUtils.Chttp.H2.View

/-! Every function of the engine makes only the moves of `Step`, `Take` and `Arrive`. The
application is any host whose callbacks do the same. -/
namespace Chttp.H2

open Chttp.Hpack (Header Context)
open Relation (ReflTransGen)

variable {σ : Type*}

/-! ## Engines and their traces -/

@[simp] theorem trace_record (st : St σ) (i : Item) :
    (st.record i).trace = st.trace.record i := by
  simp [St.trace, Trace.record]

@[simp] theorem trace_setP (st : St σ) (p : Proto) :
    (st.setP p).trace = st.trace.setView p.view := rfl

@[simp] theorem trace_push (st : St σ) (i : Item) (bs : Bytes) :
    (push st i bs).trace = st.trace.push i bs := by
  simp [push, Trace.push, St.trace, Trace.record, Trace.setView, Proto.view]

@[simp] theorem trace_pushAll (st : St σ) (fs : List Frame) :
    (pushAll st fs).trace = st.trace.pushAll fs := by
  induction fs generalizing st with
  | nil => rfl
  | cons f fs ih => simp [pushAll, ih, Trace.pushAll, Trace.pushFrame]

@[simp] theorem trace_view (st : St σ) : st.trace.view = st.p.view := rfl

@[simp] theorem setView_self (t : Trace) : t.setView t.view = t := rfl

theorem trace_setP_of_view {st : St σ} {p : Proto} (h : p.view = st.p.view) :
    (st.setP p).trace = st.trace := by
  rw [trace_setP, h]
  rfl

@[simp] theorem put_log (t : Trace) (s : StreamView) : (t.put s).log = t.log := rfl

/-- The record only grows. -/
theorem Step.log_prefix {t t' : Trace} (h : Step t t') : t.log <+: t'.log := by
  have hall : ∀ (fs : List Frame) (t : Trace), t.log <+: (t.pushAll fs).log := by
    intro fs
    induction fs with
    | nil => exact fun t => List.prefix_rfl
    | cons f fs ih => exact fun t => (List.prefix_append t.log _).trans (ih (t.pushFrame f))
  cases h with
  | note | settings | control | credit | data | dataEnd | endBody | endSource | trailersOut =>
    exact List.prefix_append _ _
  | greet _ _ ht _ =>
    subst ht
    exact (List.prefix_append _ _).trans (List.prefix_append _ _)
  | request =>
    rw [put_log]
    apply List.IsPrefix.trans _ (hall _ _)
    exact List.prefix_rfl
  | answer =>
    rw [put_log]
    apply List.IsPrefix.trans _ (hall _ _)
    exact List.prefix_rfl
  | _ => exact List.prefix_rfl

theorem Steps.log_prefix {t t' : Trace} (h : Steps t t') : t.log <+: t'.log := by
  induction h with
  | refl => exact List.prefix_rfl
  | tail _ hstep ih => exact ih.trans hstep.log_prefix

theorem Step.steps {t t' : Trace} (h : Step t t') : Steps t t' := .single h

theorem Steps.trans {t t' t'' : Trace} (h : Steps t t') (h' : Steps t' t'') : Steps t t'' :=
  Relation.ReflTransGen.trans h h'

theorem Steps.setP {t : Trace} {st : St σ} (h : Steps t st.trace) {p : Proto}
    (hp : p.view = st.p.view) : Steps t (st.setP p).trace := by
  rw [trace_setP_of_view hp]
  exact h

/-! ## Streams by slot -/

theorem modifyStream_view_of_same {p : Proto} (slot : ℕ) {f : Stream → Stream}
    (hf : ∀ s, (f s).view = s.view) : (p.modifyStream slot f).view = p.view := by
  have hmap : (p.streams.modify slot f).map Stream.view = p.streams.map Stream.view := by
    apply List.ext_getElem
    · simp
    · intro i h1 h2
      simp only [List.getElem_map, List.getElem_modify]
      split_ifs
      · exact hf _
      · rfl
  simp only [Proto.modifyStream, Proto.view, hmap]

theorem stream_eq {p : Proto} {slot : ℕ} (h : slot < p.streams.length) :
    p.stream slot = p.streams[slot] := by
  simp [Proto.stream, List.getD, h]

theorem stream_mem {p : Proto} {slot : ℕ} (h : slot < p.streams.length) :
    p.stream slot ∈ p.streams := by
  rw [stream_eq h]
  exact List.getElem_mem h

theorem stream_view_mem {p : Proto} {slot : ℕ} (h : slot < p.streams.length) :
    (p.stream slot).view ∈ p.view.streams :=
  List.mem_map_of_mem (stream_mem h)

theorem slot_lt_of_open {p : Proto} {slot : ℕ} (h : (p.stream slot).closed = false) :
    slot < p.streams.length := by
  by_contra hge
  simp [Proto.stream, List.getD, hge] at h

theorem modifyStream_view {p : Proto} (hs : p.view.Sane) {slot : ℕ} (h : slot < p.streams.length)
    (f : Stream → Stream) (hid : (f (p.stream slot)).id = (p.stream slot).id) :
    (p.modifyStream slot f).view = p.view.put (f (p.stream slot)).view := by
  have hmap : (p.streams.modify slot f).map Stream.view = (p.streams.map Stream.view).map fun x =>
      if x.id = (f (p.stream slot)).view.id then (f (p.stream slot)).view else x := by
    apply List.ext_getElem
    · simp
    · intro i h1 h2
      simp only [List.length_map, List.length_modify] at h1
      simp only [List.getElem_map, List.getElem_modify]
      by_cases hi : slot = i
      · subst hi
        rw [if_pos rfl, ← stream_eq h, if_pos]
        exact hid.symm
      · rw [if_neg hi, if_neg]
        intro heq
        have hi' : i < (p.streams.map Stream.id).length := by simpa using h1
        have hslot : slot < (p.streams.map Stream.id).length := by simpa using h
        have hids : (p.streams.map Stream.id)[i] = (p.streams.map Stream.id)[slot] := by
          simp only [List.getElem_map, ← stream_eq h]
          exact heq.trans hid
        have hnodup : (p.streams.map Stream.id).Nodup := by
          have := hs.ids
          rwa [Proto.view, List.map_map] at this
        exact hi ((List.Nodup.getElem_inj_iff hnodup).mp hids).symm
  simp only [Proto.modifyStream, Proto.view, View.put, hmap]

theorem find_spec {p : Proto} {id slot : ℕ} (h : p.find id = some slot) :
    slot < p.streams.length ∧ (p.stream slot).id = id := by
  obtain ⟨hlt, hid, -⟩ := List.findIdx?_eq_some_iff_getElem.mp h
  rw [stream_eq hlt]
  exact ⟨hlt, by simpa using hid⟩

theorem findOpen_spec {p : Proto} {id slot : ℕ} (h : p.findOpen id = some slot) :
    slot < p.streams.length ∧ (p.stream slot).id = id ∧ (p.stream slot).closed = false := by
  unfold Proto.findOpen at h
  split at h
  · exact absurd h (by simp)
  next s hs =>
  split_ifs at h with hc
  obtain rfl := Option.some.inj h
  exact ⟨(find_spec hs).1, (find_spec hs).2, by simpa using hc⟩

/-! ## Frames, the preface and failure -/

theorem outFrame_cases (st : St σ) (f : Frame) :
    outFrame st f = (st, false) ∨
      (outFrame st f = (push st (.out f) f.bytes, true) ∧ f.payload.length ≤ maxFrameBytes ∧
        f.streamId < 2 ^ 31) := by
  unfold outFrame frameHeaderFits
  split_ifs with h
  · exact .inr ⟨rfl, (of_decide_eq_true h.1).1, (of_decide_eq_true h.1).2⟩
  · exact .inl rfl

theorem outFrame_true {st st' : St σ} {f : Frame} (h : outFrame st f = (st', true)) :
    st' = push st (.out f) f.bytes ∧ f.payload.length ≤ maxFrameBytes := by
  rcases outFrame_cases st f with hno | ⟨hok, hlen, -⟩
  · rw [hno] at h
    exact absurd (congrArg Prod.snd h) (by simp)
  · rw [hok] at h
    exact ⟨(congrArg Prod.fst h).symm, hlen⟩

theorem outFrame_false {st st' : St σ} {f : Frame} (h : outFrame st f = (st', false)) : st' = st := by
  rcases outFrame_cases st f with hno | ⟨hok, -, -⟩
  · rw [hno] at h
    exact (congrArg Prod.fst h).symm
  · rw [hok] at h
    exact absurd (congrArg Prod.snd h) (by simp)

theorem outFrame_control_steps (st : St σ) {f : Frame} (hf : IsControl f) :
    Steps st.trace (outFrame st f).1.trace := by
  rcases outFrame_cases st f with h | ⟨h, -, -⟩
  · rw [h]
  · rw [h, trace_push]
    exact (Step.control st.trace hf).steps

theorem settingsBytes_length (values : List (ℕ × ℕ)) :
    (settingsBytes values).length = 6 * values.length := by
  induction values with
  | nil => rfl
  | cons x xs ih =>
    have hcons : settingsBytes (x :: xs) =
        [UInt8.ofNat (x.1 / 256), UInt8.ofNat x.1] ++ u32Bytes x.2 ++ settingsBytes xs := rfl
    rw [hcons, List.length_append, ih]
    simp
    omega

theorem settingsValues_length (p : Proto) :
    (settingsValues p).length = p.view.settingsCount := by
  unfold settingsValues View.settingsCount Proto.view
  cases p.mode <;> dsimp only <;> split_ifs <;> rfl

theorem settingsCount_le (v : View) : v.settingsCount ≤ 7 := by
  unfold View.settingsCount
  cases v.mode <;> dsimp only <;> split_ifs <;> omega

/-- `submit_settings` as a move, and the room it took. -/
theorem submitSettings_cases (st : St σ) :
    (submitSettings st = (st, false) ∧
      st.p.out.reserve (frameHeaderSize + 6 * st.p.view.settingsCount) = false) ∨
    ((submitSettings st).2 = true ∧
      (submitSettings st).1.trace = st.trace.sendSettings st.p ∧
      ∃ bs, (submitSettings st).1.p =
          { st.p with out := st.p.out.append bs, settingsSent := true } ∧
        bs.length = frameHeaderSize + 6 * st.p.view.settingsCount) := by
  have hlen : (settingsBytes (settingsValues st.p)).length = 6 * st.p.view.settingsCount := by
    rw [settingsBytes_length, settingsValues_length]
  have hmax := settingsCount_le st.p.view
  unfold submitSettings
  by_cases hroom : st.p.out.reserve (frameHeaderSize + 6 * st.p.view.settingsCount) = true
  · rw [outFrame_of_fits (f := ⟨.settings, 0, 0, settingsBytes (settingsValues st.p)⟩)
      (by simp only [hlen, maxFrameBytes]; omega) (by norm_num) (by rw [hlen]; exact hroom)]
    refine .inr ⟨rfl, ?_, _, rfl, ?_⟩
    · dsimp only
      rw [trace_setP, trace_push]
      rfl
    · rw [Frame.bytes_length, hlen]
  · left
    have hno : outFrame st ⟨.settings, 0, 0, settingsBytes (settingsValues st.p)⟩ = (st, false) := by
      unfold outFrame
      rw [if_neg]
      rw [hlen]
      exact fun h => hroom h.2
    rw [hno]
    exact ⟨rfl, by simpa using hroom⟩

theorem submitSettings_steps (st : St σ) : Steps st.trace (submitSettings st).1.trace := by
  rcases submitSettings_cases st with ⟨h, -⟩ | ⟨-, h, -⟩
  · rw [h]
  · rw [h]
    exact (Step.settings st.trace rfl).steps

/-- `proto_ensure_preface` leaves everything but the output and its own two flags; when it
succeeds the greeting is out. -/
structure Greeted (st : St σ) (r : St σ × Bool) : Prop where
  steps : Steps st.trace r.1.trace
  engine : ∃ out sent done, r.1.p =
    { st.p with out, settingsSent := sent, clientPrefaceDone := done } ∧
      out.maxCapacity = st.p.out.maxCapacity
  room : r.2 = true → r.1.p.out.data.length = st.p.out.data.length + st.p.view.greetingBytes
  client : r.2 = true → st.p.mode = .client → r.1.p.clientPrefaceDone = true

theorem Greeted.streams {st : St σ} {r : St σ × Bool} (h : Greeted st r) :
    r.1.p.streams = st.p.streams := by
  obtain ⟨out, sent, done, hp, -⟩ := h.engine
  rw [hp]

/-- The reservation of a client covers the preface and the largest SETTINGS frame. -/
theorem submitSettings_greets {st st₁ : St σ} (hm : st.p.mode = .client)
    (hdone : st.p.clientPrefaceDone = false)
    (hroom : st.p.out.reserve (prefaceLen + frameHeaderSize + 42) = true)
    (hp₁ : st₁.p = { st.p with out := st.p.out.append preface, clientPrefaceDone := true })
    (ht₁ : st₁.trace = (st.trace.push .preface preface).setView st₁.p.view) :
    Greeted st (submitSettings st₁) := by
  have hcount : st₁.p.view.settingsCount = st.p.view.settingsCount := by rw [hp₁]; rfl
  have hmax := settingsCount_le st.p.view
  have hlen : preface.length = prefaceLen := by decide
  have hroom := (Buffer.reserve_iff ..).mp hroom
  rcases submitSettings_cases st₁ with ⟨-, hno⟩ | ⟨hok, htrace, bs, hp, hbs⟩
  · have hroom₁ : st₁.p.out.reserve (frameHeaderSize + 6 * st₁.p.view.settingsCount) = true := by
      rw [Buffer.reserve_iff, hcount, hp₁]
      simp only [Buffer.append_data, Buffer.append_maxCapacity, List.length_append]
      simp only [prefaceLen, frameHeaderSize] at hroom hlen ⊢
      omega
    rw [hroom₁] at hno
    exact absurd hno (by decide)
  · constructor
    · rw [htrace, ht₁]
      exact (Step.greet st.trace hm hdone rfl (by rw [hp₁]; rfl)).steps
    · rw [hp, hp₁]
      exact ⟨_, _, _, rfl, rfl⟩
    · intro _
      rw [hcount] at hbs
      rw [hp, hp₁]
      simp only [Buffer.append_data, List.length_append, hbs, hlen, View.greetingBytes, show st.p.view.mode = .client from hm,
        show st.p.view.clientPrefaceDone = false from hdone]
      simp only [Bool.false_eq_true, if_false]
      omega
    · intro _ _
      rw [hp, hp₁]

theorem ensurePreface_greeted (st : St σ) : Greeted st (ensurePreface st) := by
  unfold ensurePreface
  split
  next hm =>
    split_ifs with hdone hroom
    · exact ⟨.refl, ⟨_, _, _, rfl, rfl⟩, fun _ => by
        simp [View.greetingBytes, Proto.view, hm, hdone], fun _ _ => hdone⟩
    · exact submitSettings_greets hm (by simpa using hdone) hroom rfl (by simp)
    · exact ⟨.refl, ⟨_, _, _, rfl, rfl⟩, by simp, by simp⟩
  next hm =>
    split_ifs with hneed
    · refine ⟨submitSettings_steps st, ?_, fun hok => ?_, fun _ h => by simp [hm] at h⟩
      · rcases submitSettings_cases st with ⟨h, -⟩ | ⟨-, -, bs, hp, -⟩
        · rw [h]
          exact ⟨_, _, _, rfl, rfl⟩
        · exact ⟨_, _, _, hp, rfl⟩
      · rcases submitSettings_cases st with ⟨h, -⟩ | ⟨-, -, bs, hp, hbs⟩
        · rw [h] at hok
          exact absurd hok Bool.false_ne_true
        · rw [hp]
          simp only [Buffer.append_data, List.length_append, hbs, View.greetingBytes,
            show st.p.view.mode = .server from hm,
            show (st.p.view.serverPrefaceSeen && !st.p.view.settingsSent) = true from hneed, if_true]
    · exact ⟨.refl, ⟨_, _, _, rfl, rfl⟩, fun _ => by
        simp [View.greetingBytes, Proto.view, hm, hneed], fun _ h => by simp [hm] at h⟩

theorem submitGoaway_steps (st : St σ) (last error : ℕ) :
    Steps st.trace (submitGoaway st last error).1.trace := by
  unfold submitGoaway
  split_ifs
  · exact .refl
  · have hg := (ensurePreface_greeted st).steps
    split
    next st₁ h => rw [h] at hg; exact hg
    next st₁ h =>
    rw [h] at hg
    have hf := outFrame_control_steps st₁ (.goaway last error)
    split
    next st₂ h₂ => rw [h₂] at hf; exact hg.trans hf
    next st₂ h₂ =>
    rw [h₂] at hf
    exact hg.trans hf

theorem protoFail_steps (st : St σ) {error : ℕ} (he : error ≠ errFlowControlError) :
    Steps st.trace (protoFail st error).trace := by
  unfold protoFail
  split_ifs
  · exact .refl
  · apply ReflTransGen.head (Step.fail st.trace he)
    exact submitGoaway_steps (st.setP { st.p with failed := true, lastError := error }) _ _

theorem submitGoaway_streams (st : St σ) (last error : ℕ) :
    (submitGoaway st last error).1.p.streams = st.p.streams := by
  unfold submitGoaway
  split_ifs
  · rfl
  · have hstreams := (ensurePreface_greeted st).streams
    split
    next st₁ h =>
      rw [h] at hstreams
      exact hstreams
    next st₁ h =>
    rw [h] at hstreams
    rcases outFrame_cases st₁ ⟨.goaway, 0, 0, goawayBytes last error⟩ with ho | ⟨ho, -, -⟩
    · rw [ho]
      exact hstreams
    · rw [ho]
      exact hstreams

theorem protoFail_streams (st : St σ) (error : ℕ) :
    (protoFail st error).p.streams = st.p.streams := by
  unfold protoFail
  split_ifs
  · rfl
  · exact submitGoaway_streams _ _ _

/-! ## Callbacks and credit -/

/-- Callbacks that make only moves of the engine. -/
def Host.Faithful (host : Host σ) : Prop :=
  ∀ ev (st : St σ), st.p.view.Sane → Steps st.trace (host.notify ev st).1.trace

section host

variable {host : Host σ}

theorem callback_steps (hh : host.Faithful) {st : St σ} (hs : st.p.view.Sane) (ev : Event) :
    Steps st.trace (callback host st ev).1.trace := by
  apply ReflTransGen.head (Step.note st.trace (i := .callback ev) trivial)
  rw [← trace_record]
  exact hh ev (st.record (.callback ev)) hs

theorem callback_setP_steps (hh : host.Faithful) {st : St σ} (hs : st.p.view.Sane) {p : Proto}
    (hp : p.view = st.p.view) (ev : Event) :
    Steps st.trace (callback host (st.setP p) ev).1.trace := by
  have hcb := @callback_steps σ host hh (st.setP p) (by rw [St.setP_p, hp]; exact hs) ev
  rw [trace_setP_of_view hp] at hcb
  exact hcb

theorem forSlots_steps {f : ℕ → St σ → St σ}
    (hf : ∀ slot st, st.p.view.Sane → Steps st.trace (f slot st).trace) (fuel slot : ℕ) {st : St σ}
    (hs : st.p.view.Sane) : Steps st.trace (forSlots f fuel slot st).trace := by
  induction fuel generalizing slot st with
  | zero => exact .refl
  | succ fuel ih =>
    unfold forSlots
    split_ifs
    · have hfirst := hf slot st hs
      exact hfirst.trans (ih (slot + 1) (hfirst.sane hs))
    · exact .refl

theorem close_steps {st : St σ} (hs : st.p.view.Sane) {slot : ℕ} (h : slot < st.p.streams.length)
    {f : Stream → Stream} (hid : ∀ s, (f s).id = s.id) (hc : ∀ s, (f s).closed = true) :
    Steps st.trace (st.setP (st.p.modifyStream slot f)).trace := by
  rw [trace_setP, modifyStream_view hs h f (hid _)]
  exact (Step.close st.trace (stream_view_mem h) (hid _) (hc _)).steps

theorem maybeClose_steps (hh : host.Faithful) {st : St σ} (hs : st.p.view.Sane) (slot : ℕ) :
    Steps st.trace (maybeClose host st slot).trace := by
  unfold maybeClose
  dsimp only
  split_ifs with hc hend
  · exact .refl
  · have hclose := close_steps hs (slot_lt_of_open (by simpa using hc))
      (f := fun s => { s with closed := true, body := none, bodyOff := 0 }) (fun _ => rfl)
      (fun _ => rfl)
    exact hclose.trans (callback_steps hh (hclose.sane hs) _)
  · exact .refl

theorem addCredit_view {p p' : Proto} (hs : p.view.Sane) {i inc : ℕ}
    (h : addCredit p i inc = some p') : p.view.Credit i inc p'.view ∧ (i = 0 ∨ i < 2 ^ 31) := by
  unfold addCredit at h
  split_ifs at h with hi hw
  · obtain rfl := Option.some.inj h
    subst hi
    exact ⟨.conn (not_lt.mp hw), .inl rfl⟩
  · split at h
    · exact absurd h (by simp)
    next slot hslot =>
    dsimp only at h
    split_ifs at h with hc hw
    obtain rfl := Option.some.inj h
    obtain ⟨hlt, hid⟩ := find_spec hslot
    rw [modifyStream_view hs hlt _ (by rfl)]
    have hmem := stream_view_mem hlt
    rw [← hid]
    exact ⟨.stream hmem (Bool.eq_false_of_not_eq_true hc) (not_lt.mp hw),
      .inr (hs.known _ hmem).2.1⟩

theorem View.Credit.onlyWindows {v v' : View} {i inc : ℕ} (h : v.Credit i inc v') :
    v' = { v with connRecvWindow := v'.connRecvWindow, streams := v'.streams } := by
  cases h with
  | conn _ => rfl
  | stream _ _ _ => rfl

theorem submitWindowUpdate_steps {st : St σ} (hs : st.p.view.Sane) (i inc : ℕ) :
    Steps st.trace (submitWindowUpdate st i inc).1.trace := by
  have hnote : Steps st.trace (st.record (.creditStart i inc)).trace := by
    rw [trace_record]
    exact (Step.note st.trace (i := .creditStart i inc) trivial).steps
  have hg := ensurePreface_greeted (st.record (.creditStart i inc))
  unfold submitWindowUpdate
  split
  next st₁ h =>
    rw [h] at hg
    exact hnote.trans hg.steps
  next st₁ h =>
  rw [h] at hg
  have hto : Steps st.trace st₁.trace := hnote.trans hg.steps
  split_ifs with hinc
  · exact hto
  split
  · exact hto
  next p hp =>
  obtain ⟨hcredit, hi⟩ := addCredit_view (hto.sane hs) hp
  apply hto.trans
  rcases outFrame_cases (st₁.setP p) ⟨.windowUpdate, 0, i, u32Bytes inc⟩ with hno | ⟨hok, -, hi⟩
  · have hlog : (Item.creditStart i inc, st.p.view) ∈ st₁.trace.log := by
      apply (Steps.log_prefix hg.steps).subset
      simp [Trace.record]
    have hfull : ¬ st.p.view.RoomFor (frameHeaderSize + 4) := by
      intro hroom
      have hout : p.out = st₁.p.out := congrArg View.out hcredit.onlyWindows
      obtain ⟨out, sent, done, hp₁, hcap⟩ := hg.engine
      have hsize := hg.room rfl
      have hfits : st₁.p.out.reserve (frameHeaderSize + 4) = true := by
        rw [Buffer.reserve_iff, hsize]
        have hcap₁ : st₁.p.out.maxCapacity = st.p.out.maxCapacity := by
          rw [hp₁]
          exact hcap
        have hroom : st.p.out.data.length + st.p.view.greetingBytes + (frameHeaderSize + 4) ≤
          st.p.out.maxCapacity := hroom
        change _ ≤ _ - (st.p.out.data.length + st.p.view.greetingBytes)
        omega
      rw [outFrame_of_fits (by norm_num [maxFrameBytes]) (by rcases hi with rfl | hi; norm_num; exact hi)
        (by rw [St.setP_p, hout]; exact hfits)] at hno
      exact absurd (congrArg Prod.snd hno) (by simp)
    rw [hno, trace_setP]
    exact (Step.creditLost st₁.trace hcredit (by omega) (by omega) hlog hfull).steps
  · rw [hok, trace_push, trace_setP]
    exact (Step.credit st₁.trace hcredit (by omega) (by omega) hi).steps

/-! ## Opening streams -/

theorem opens_set {v : View} {s : StreamView} {i : ℕ} (h : i < v.streams.length)
    (hc : v.streams[i].closed = true) : v.Opens s (v.streams.set i s) := by
  refine ⟨v.streams.eraseIdx i, List.set_perm_cons_eraseIdx h s,
    List.eraseIdx_sublist _ _, ?_⟩
  intro x hx hopen
  obtain ⟨j, hj, rfl⟩ := List.mem_iff_getElem.mp hx
  apply List.mem_eraseIdx_iff_getElem.mpr
  refine ⟨j, hj, ?_, rfl⟩
  rintro rfl
  rw [hc] at hopen
  exact absurd hopen (by decide)

theorem opens_append (v : View) (s : StreamView) : v.Opens s (v.streams ++ [s]) :=
  ⟨v.streams, List.perm_append_singleton s v.streams, List.Sublist.refl _, fun _ hx _ => hx⟩

/-- `proto_new_stream` followed by a change of the new stream. -/
theorem newStream_view {p p' : Proto} {id slot : ℕ} (h : p.newStream id = some (p', slot))
    (f : Stream → Stream) :
    ∃ streams, (p'.modifyStream slot f).view = { p.view with streams } ∧
      p.view.Opens (f (p.freshStream id)).view streams ∧
      slot < (p'.modifyStream slot f).streams.length ∧
      (p'.modifyStream slot f).stream slot = f (p.freshStream id) := by
  unfold Proto.newStream at h
  dsimp only at h
  generalize (if p.peerInitiated id ∧ p.lastProcStreamId < id then id
    else p.lastProcStreamId) = lastProc at h
  split at h
  next i hi =>
    obtain ⟨hlt, hclosed, -⟩ := List.findIdx?_eq_some_iff_getElem.mp hi
    simp only [Option.some.injEq, Prod.mk.injEq] at h
    obtain ⟨rfl, rfl⟩ := h
    have hset : (p.streams.set i (p.freshStream id)).modify i f =
        p.streams.set i (f (p.freshStream id)) := by
      apply List.ext_getElem
      · simp
      · intro j h1 h2
        simp only [List.getElem_modify, List.getElem_set]
        split_ifs <;> rfl
    refine ⟨p.view.streams.set i (f (p.freshStream id)).view, ?_, ?_, ?_, ?_⟩
    · simp only [Proto.modifyStream, Proto.view, hset, List.map_set]
    · apply opens_set (by simpa [Proto.view] using hlt)
      simpa [Proto.view, Stream.view] using hclosed
    · simpa [Proto.modifyStream] using hlt
    · simp [Proto.modifyStream, Proto.stream, List.getD, hset, hlt]
  next =>
    split_ifs at h
    simp only [Option.some.injEq, Prod.mk.injEq] at h
    obtain ⟨rfl, rfl⟩ := h
    have happ : (p.streams ++ [p.freshStream id]).modify p.streams.length f =
        p.streams ++ [f (p.freshStream id)] := by
      apply List.ext_getElem
      · simp
      · intro j h1 h2
        have hj : j < p.streams.length + 1 := by simpa using h2
        simp only [List.getElem_modify, List.getElem_append]
        split_ifs with hlen hin hin
        · omega
        · simp
        · rfl
        · omega
    refine ⟨p.view.streams ++ [(f (p.freshStream id)).view], ?_, opens_append _ _, ?_, ?_⟩
    · simp only [Proto.modifyStream, Proto.view, happ, List.map_append, List.map_cons, List.map_nil]
    · simp [Proto.modifyStream]
    · simp [Proto.modifyStream, Proto.stream, List.getD, happ]

theorem freshStream_view (p : Proto) (id : ℕ) (endStream : Bool) :
    ({ p.freshStream id with endStreamSent := endStream } : Stream).view =
      p.view.fresh id endStream := by
  simp only [Stream.view, Proto.freshStream, View.fresh, Stream.bodyPending, Proto.view,
    Option.isSome_none]

theorem put_self {v : View} (hv : v.Sane) {s : StreamView} (hs : s ∈ v.streams) : v.put s = v := by
  have hmap : (v.streams.map fun x => if x.id = s.id then s else x) = v.streams := by
    conv_rhs => rw [← List.map_id v.streams]
    apply List.map_congr_left
    intro x hx
    split_ifs with hid
    · exact (hv.unique hs hx hid).symm
    · rfl
  rw [View.put, hmap]

theorem give_none (s : StreamView) : s.give false false = s := by simp [StreamView.give]

theorem setBody_view {p : Proto} (hs : p.view.Sane) {slot : ℕ} (h : slot < p.streams.length)
    (body : Option Bytes) (source : Option ℕ) :
    (setBody p slot body source).view = p.view.put ((p.stream slot).view.give
      (source.isNone && decide (bodyLen body ≠ 0)) source.isSome) := by
  have hnothing : p.view = p.view.put ((p.stream slot).view.give false false) := by
    rw [give_none, put_self hs (stream_view_mem h)]
  unfold setBody
  split
  · rw [modifyStream_view hs h _ (by rfl)]
    simp [Stream.view, StreamView.give, Stream.bodyPending]
  next b =>
    by_cases hb : b.length = 0
    · simp only [bodyLen, Option.map_some, Option.getD_some, hb, ↓reduceIte]
      exact hnothing
    · rw [if_neg hb, modifyStream_view hs h _ (by rfl)]
      simp [bodyLen, hb, Stream.view, StreamView.give, Stream.bodyPending]
  · simp only [bodyLen]
    exact hnothing

/-- A block that goes out, then the body behind it. -/
theorem pushAll_setBody_trace {st : St σ} (hs : st.p.view.Sane) {slot : ℕ}
    (h : slot < st.p.streams.length) (fs : List Frame) (body : Option Bytes) (source : Option ℕ) :
    ((pushAll st fs).setP (setBody (pushAll st fs).p slot body source)).trace =
      (st.trace.pushAll fs).put ((st.p.stream slot).view.give
        (source.isNone && decide (bodyLen body ≠ 0)) source.isSome) := by
  have hsane : (pushAll st fs).p.view.Sane := by
    rw [← trace_view, trace_pushAll]
    exact pushAll_sane fs hs
  have hlt : slot < (pushAll st fs).p.streams.length := by
    rw [pushAll_p]
    exact h
  have hstream : (pushAll st fs).p.stream slot = st.p.stream slot := by
    rw [pushAll_p]
    rfl
  rw [trace_setP, setBody_view hsane hlt, hstream, ← trace_view, trace_pushAll]
  rfl

/-- What `openRequest` needs: a client with its greeting out and an id that is left. -/
structure MayRequest (p : Proto) : Prop where
  sane : p.view.Sane
  client : p.mode = .client
  sent : p.settingsSent = true
  id : p.nextStreamId < 2 ^ 31

theorem openRequest_steps {st : St σ} (h : MayRequest st.p) (hdrs : List Header)
    (endStream : Bool) (priority : Option Priority) :
    match openRequest st hdrs endStream priority with
    | (st', none) => Steps st.trace st'.trace
    | (st', some (_, slot)) => ∀ body source, (endStream = true → bodyLen body = 0 ∧ source = none) →
        Steps st.trace (st'.setP (setBody st'.p slot body source)).trace := by
  unfold openRequest
  dsimp only
  set st₁ := st.setP { st.p with nextStreamId := st.p.nextStreamId + 2 } with hst₁
  have hskip : Steps st.trace st₁.trace := (Step.skipId st.trace).steps
  cases hnew : st₁.p.newStream st.p.nextStreamId with
  | none => exact hskip
  | some r =>
    obtain ⟨p, slot⟩ := r
    obtain ⟨streams, hview, hopens, hslot, hstream⟩ := newStream_view hnew
      (fun s => { s with endStreamSent := endStream })
    dsimp only
    generalize hp₂ : p.modifyStream slot (fun s => { s with endStreamSent := endStream }) = p₂
      at hview hslot hstream ⊢
    rw [freshStream_view] at hopens
    have hfresh : (p₂.stream slot).view = st.p.view.fresh st.p.nextStreamId endStream := by
      rw [hstream, freshStream_view]
      simp only [View.fresh, hst₁, Proto.view, St.setP_p]
    have hopens : st.p.view.Opens (st.p.view.fresh st.p.nextStreamId endStream) streams := by
      simpa only [View.fresh, hst₁, Proto.view, St.setP_p, View.Opens] using hopens
    have hview : p₂.view =
        { st.p.view with streams, nextStreamId := st.p.nextStreamId + 2 } := hview
    have hopen : Steps st.trace (st₁.setP p₂).trace := by
      rw [trace_setP, hview]
      exact (Step.openLocal st.trace endStream h.client h.sent h.id hopens).steps
    have hsane : p₂.view.Sane := hopen.sane h.sane
    -- a block that did not go out leaves the stream closed
    have hdrop : ∀ st₃ : St σ, Steps (st₁.setP p₂).trace st₃.trace → slot < st₃.p.streams.length →
        Steps st.trace (st₃.setP (st₃.p.modifyStream slot fun s =>
          { s with closed := true, body := none, source := none })).trace := by
      intro st₃ hto hlt
      have hto := hopen.trans hto
      exact hto.trans (close_steps (hto.sane h.sane) hlt (fun _ => rfl) (fun _ => rfl))
    rcases @outHeaders_cases σ (st₁.setP p₂) st.p.nextStreamId hdrs endStream priority h.id
      (lt_of_lt_of_le (by decide) hsane.frameMin) hsane.frameMax with
      ⟨hpack, he⟩ | ⟨hpack, he⟩ | ⟨hpack, block, he⟩
    · rw [he]
      exact hdrop _ (Step.recode _ hpack).steps hslot
    · rw [he]
      apply hdrop
      · apply ReflTransGen.head (Step.recode _ hpack)
        exact protoFail_steps ((st₁.setP p₂).setP (p₂.withHpack hpack)) (by decide)
      · rw [protoFail_streams]
        exact hslot
    · rw [he]
      intro body source hend
      apply Step.steps
      have hstep := @Step.request st.trace streams endStream priority.isSome
        (source.isNone && decide (bodyLen body ≠ 0)) source.isSome hpack block _ h.client h.sent
        h.id rfl hopens ?_ ?_
      · convert hstep using 1
        have hview₂ : (p₂.withHpack hpack).view =
            { st.p.view with streams, nextStreamId := st.p.nextStreamId + 2, hpack } := by
          have h₂ : (p₂.withHpack hpack).view = { p₂.view with hpack := hpack } := rfl
          rw [h₂, hview]
        have hpeer : p₂.peerSettings = st.p.peerSettings := congrArg View.peerSettings hview
        apply (pushAll_setBody_trace (hsane.withHpack hpack) hslot _ _ _).trans
        have hstream₂ : (p₂.withHpack hpack).stream slot = p₂.stream slot := rfl
        rw [trace_setP]
        simp only [St.setP_p]
        rw [hview₂, hstream₂, hfresh, hpeer]
        rfl
      · intro he
        simp [hend he]
      · cases source <;> simp

theorem openRequest_none_steps {st st' : St σ} (h : MayRequest st.p) {hdrs : List Header}
    {endStream : Bool} {priority : Option Priority}
    (he : openRequest st hdrs endStream priority = (st', none)) : Steps st.trace st'.trace := by
  have hopen := openRequest_steps h hdrs endStream priority
  rw [he] at hopen
  exact hopen

theorem openRequest_some_steps {st st' : St σ} (h : MayRequest st.p) {hdrs : List Header}
    {endStream : Bool} {priority : Option Priority} {id slot : ℕ}
    (he : openRequest st hdrs endStream priority = (st', some (id, slot))) (body : Option Bytes)
    (source : Option ℕ) (hend : endStream = true → bodyLen body = 0 ∧ source = none) :
    Steps st.trace (st'.setP (setBody st'.p slot body source)).trace := by
  have hopen := openRequest_steps h hdrs endStream priority
  rw [he] at hopen
  exact hopen body source hend

theorem mayRequest_greeted {st st₁ : St σ} (hs : st.p.view.Sane) (hg : Greeted st (st₁, true))
    (hmode : st.p.mode = .client) (hid : ¬ 0x7ffffffe < st.p.nextStreamId) : MayRequest st₁.p := by
  have hsane : st₁.p.view.Sane := hg.steps.sane hs
  have hdone := hg.client rfl hmode
  obtain ⟨out, sent, done, hp, -⟩ := hg.engine
  have hmode₁ : st₁.p.mode = .client := by rw [show st₁.p = _ from hp]; exact hmode
  refine ⟨hsane, hmode₁, hsane.greeted hmode₁ hdone, ?_⟩
  rw [show st₁.p = _ from hp]
  dsimp only
  omega

theorem mayOpen_client {p : Proto} (h : mayOpen p = true) : p.mode = .client := by
  simp only [mayOpen, Bool.and_eq_true, decide_eq_true_eq] at h
  exact h.1.1.1

theorem submitRequestEx_steps {st : St σ} (hs : st.p.view.Sane) (hdrs : List Header)
    (body : Option Bytes) (source : Option ℕ) (weight : ℕ) (dep : Int) (exclusive : Bool) :
    Steps st.trace (submitRequestEx st hdrs body source weight dep exclusive).1.trace := by
  unfold submitRequestEx
  by_cases hno : ¬ mayOpen st.p ∨ (body.isSome ∧ source.isSome) ∨ 256 < weight
  · rw [if_pos hno]
  rw [if_neg hno]
  dsimp only
  by_cases hid : 0x7ffffffe < st.p.nextStreamId ∨ dep = st.p.nextStreamId
  · rw [if_pos hid]
  rw [if_neg hid]
  have hclient := mayOpen_client (by simpa using (not_or.mp hno).1)
  have hg := ensurePreface_greeted st
  split
  next st₁ h =>
    rw [h] at hg
    exact hg.steps
  next st₁ h =>
  rw [h] at hg
  have hreq := mayRequest_greeted hs hg hclient (not_or.mp hid).1
  apply hg.steps.trans
  split
  next st₂ h₂ => exact openRequest_none_steps hreq h₂
  next st₂ id slot h₂ =>
    apply openRequest_some_steps hreq h₂
    simp only [Bool.and_eq_true, Option.isNone_iff_eq_none, decide_eq_true_eq]
    exact And.symm

theorem submitRequestHeaders_steps {st : St σ} (hs : st.p.view.Sane) (hdrs : List Header)
    (endStream : Bool) : Steps st.trace (submitRequestHeaders st hdrs endStream).1.trace := by
  unfold submitRequestHeaders
  split_ifs with hno
  · exact .refl
  have hclient := mayOpen_client (by simpa using (not_or.mp hno).1)
  have hg := ensurePreface_greeted st
  split
  next st₁ h =>
    rw [h] at hg
    exact hg.steps
  next st₁ h =>
  rw [h] at hg
  have hreq := mayRequest_greeted hs hg hclient (not_or.mp hno).2
  apply hg.steps.trans
  dsimp only
  rcases h₂ : openRequest st₁ hdrs endStream none with ⟨st₂, _ | ⟨id, slot⟩⟩
  · exact openRequest_none_steps hreq h₂
  · exact openRequest_some_steps hreq h₂ none none (fun _ => ⟨rfl, rfl⟩)

/-! ## Header blocks of a server -/

theorem Greeted.atCall {st : St σ} {r : St σ × Bool} (h : Greeted st r) {c : Call}
    (hc : (Item.call c, st.p.view) ∈ st.trace.log) : r.1.trace.AtCall c := by
  refine ⟨st.p.view, h.steps.log_prefix.subset hc, ?_⟩
  obtain ⟨out, sent, done, hp, -⟩ := h.engine
  rw [trace_view, hp]
  exact ⟨rfl, rfl, rfl, rfl⟩

theorem Greeted.stream {st : St σ} {r : St σ × Bool} (h : Greeted st r) (slot : ℕ) :
    r.1.p.stream slot = st.p.stream slot := by
  rw [Proto.stream, h.streams, Proto.stream]

/-- A header block on an open stream of a server. `s₁` is the stream while the block is
framed and `s₂` what the caller makes of it afterwards. -/
theorem outHeaders_steps {st₁ st₂ : St σ} (hs : st₁.p.view.Sane) {c : Call}
    (hc : st₁.trace.AtCall c) {slot : ℕ} (hopen : (st₁.p.stream slot).closed = false)
    {endStream : Bool} {s₁ s₂ : StreamView}
    (hb : BlockCall (st₁.p.stream slot).view c endStream s₁ s₂)
    (h₂ : st₂.trace = st₁.trace.put s₁) (hdrs : List Header) :
    match outHeaders st₂ (st₁.p.stream slot).id hdrs endStream none with
    | (st', false) => Steps st₁.trace st'.trace
    | (st', true) => st'.p.view.Sane ∧ st'.p.streams = st₂.p.streams ∧
        Steps st₁.trace (st'.trace.put s₂) := by
  have hmem := stream_view_mem (slot_lt_of_open hopen)
  have hassign : Steps st₁.trace st₂.trace := by
    rw [h₂]
    exact (Step.assign st₁.trace hc hmem hopen hb).steps
  have hs₂ : st₂.p.view.Sane := hassign.sane hs
  have hpeer : st₂.p.peerSettings = st₁.p.peerSettings :=
    congrArg (fun t => t.view.peerSettings) h₂
  rcases @outHeaders_cases σ st₂ (st₁.p.stream slot).id hdrs endStream none (hs.known _ hmem).2.1
    (lt_of_lt_of_le (by decide) hs₂.frameMin) hs₂.frameMax with
    ⟨hpack, he⟩ | ⟨hpack, he⟩ | ⟨hpack, block, he⟩
  · rw [he]
    exact hassign.trans (Step.recode _ hpack).steps
  · rw [he]
    apply hassign.trans
    apply ReflTransGen.head (Step.recode _ hpack)
    exact protoFail_steps (st₂.setP (st₂.p.withHpack hpack)) (by decide)
  · rw [he]
    refine ⟨?_, by rw [pushAll_p]; rfl, ?_⟩
    · rw [← trace_view, trace_pushAll]
      exact pushAll_sane _ (hs₂.withHpack hpack)
    · have hv : (st₂.setP (st₂.p.withHpack hpack)).trace =
          st₁.trace.setView { st₁.trace.view.put s₁ with hpack := hpack } := by
        have hh : (st₂.p.withHpack hpack).view = { st₂.trace.view with hpack := hpack } := rfl
        rw [trace_setP, hh, h₂]
        rfl
      rw [trace_pushAll, hpeer, hv]
      exact (Step.answer st₁.trace hc hmem hopen hb).steps

theorem trace_modifyStream {st : St σ} (hs : st.p.view.Sane) {slot : ℕ}
    (h : slot < st.p.streams.length) (f : Stream → Stream)
    (hid : (f (st.p.stream slot)).id = (st.p.stream slot).id) :
    (st.setP (st.p.modifyStream slot f)).trace = st.trace.put (f (st.p.stream slot)).view := by
  rw [trace_setP, modifyStream_view hs h f hid]
  rfl

/-- An open stream that was looked up before the greeting. -/
structure Ready (st st₁ : St σ) (slot streamId : ℕ) : Prop where
  steps : Steps st.trace st₁.trace
  sane : st₁.p.view.Sane
  lt : slot < st₁.p.streams.length
  id : (st₁.p.stream slot).id = streamId
  isOpen : (st₁.p.stream slot).closed = false
  same : st₁.p.stream slot = st.p.stream slot

theorem Greeted.ready {st st₁ : St σ} {ok : Bool} (hs : st.p.view.Sane) (hg : Greeted st (st₁, ok))
    {slot streamId : ℕ} (hslot : st.p.findOpen streamId = some slot) :
    Ready st st₁ slot streamId := by
  obtain ⟨hlt, hid, hopen⟩ := findOpen_spec hslot
  have hstream : st₁.p.stream slot = st.p.stream slot := hg.stream slot
  have hopen₁ : (st₁.p.stream slot).closed = false := by rw [hstream]; exact hopen
  exact ⟨hg.steps, hg.steps.sane hs, slot_lt_of_open hopen₁, by rw [hstream]; exact hid, hopen₁,
    hstream⟩

theorem trace_put_self {st : St σ} (hs : st.p.view.Sane) {slot : ℕ}
    (h : slot < st.p.streams.length) : st.trace.put (st.p.stream slot).view = st.trace := by
  rw [Trace.put, trace_view, put_self hs (stream_view_mem h)]
  rfl

theorem submitHeaders_steps (hh : host.Faithful) {st : St σ} (hs : st.p.view.Sane) {streamId : ℕ}
    {hdrs : List Header} {endStream : Bool}
    (hc : (Item.call (.submitHeaders streamId hdrs endStream), st.p.view) ∈ st.trace.log) :
    Steps st.trace (submitHeaders host st streamId hdrs endStream).1.trace := by
  unfold submitHeaders
  split
  · exact .refl
  split
  · exact .refl
  next slot hslot =>
  have hg := ensurePreface_greeted st
  split
  next st₁ h =>
    rw [h] at hg
    exact hg.steps
  next st₁ h =>
  rw [h] at hg
  have hr := hg.ready hs hslot
  have hcall : st₁.trace.AtCall _ := hg.atCall hc
  rw [← hr.id] at hcall ⊢
  have hb := outHeaders_steps hr.sane hcall hr.isOpen (.headers hdrs endStream)
    (trace_put_self hr.sane hr.lt).symm hdrs
  apply hr.steps.trans
  split
  next st₂ h₂ =>
    rw [h₂] at hb
    exact hb
  next st₂ h₂ =>
  rw [h₂] at hb
  obtain ⟨hs₂, hstreams, hsteps⟩ := hb
  have hlt₂ : slot < st₂.p.streams.length := by rw [hstreams]; exact hr.lt
  have hstream₂ : st₂.p.stream slot = st₁.p.stream slot := by
    rw [Proto.stream, hstreams, Proto.stream]
  split
  next hend =>
    have hset : Steps st₁.trace (st₂.setP (st₂.p.modifyStream slot fun s =>
        { s with endStreamSent := true })).trace := by
      rw [trace_modifyStream hs₂ hlt₂ _ (by rfl), hstream₂]
      rw [hend, Bool.or_true] at hsteps
      exact hsteps
    exact hset.trans (maybeClose_steps hh (hset.sane hr.sane) slot)
  next hend =>
    have hend : endStream = false := by simpa using hend
    rw [hend, Bool.or_false, ← hstream₂] at hsteps
    rw [← trace_put_self hs₂ hlt₂]
    exact hsteps

theorem submitResponseEx_steps (hh : host.Faithful) {st : St σ} (hs : st.p.view.Sane)
    {streamId : ℕ} {hdrs : List Header} {body : Option Bytes} {source : Option ℕ}
    (hc : (Item.call (.submitResponseEx streamId hdrs body source), st.p.view) ∈ st.trace.log) :
    Steps st.trace (submitResponseEx host st streamId hdrs body source).1.trace := by
  unfold submitResponseEx
  split
  · exact .refl
  split
  · exact .refl
  next slot hslot =>
  have hg := ensurePreface_greeted st
  split
  next st₁ h =>
    rw [h] at hg
    exact hg.steps
  next st₁ h =>
  rw [h] at hg
  have hr := hg.ready hs hslot
  have hcall : st₁.trace.AtCall _ := hg.atCall hc
  rw [← hr.id] at hcall ⊢
  dsimp only
  generalize hend : (decide (bodyLen body = 0) && source.isNone) = endStream
  have hset := trace_modifyStream hr.sane hr.lt (fun s => { s with endStreamSent := endStream }) rfl
  generalize hst₂ : st₁.setP (st₁.p.modifyStream slot fun s =>
    { s with endStreamSent := endStream }) = st₂ at hset ⊢
  have hb := outHeaders_steps hr.sane hcall hr.isOpen
    (.response hdrs body source hend.symm) hset hdrs
  apply hr.steps.trans
  split
  next st₃ h₃ =>
    rw [h₃] at hb
    exact hb
  next st₃ h₃ =>
  rw [h₃] at hb
  obtain ⟨hs₃, hstreams, hsteps⟩ := hb
  have hlen : st₂.p.streams.length = st₁.p.streams.length := by
    rw [← hst₂]
    simp [Proto.modifyStream]
  have hlt₃ : slot < st₃.p.streams.length := by
    rw [hstreams, hlen]
    exact hr.lt
  have hview₃ : (st₃.p.stream slot).view =
      { (st₁.p.stream slot).view with endStreamSent := endStream } := by
    have hmod : st₃.p.stream slot = { st₁.p.stream slot with endStreamSent := endStream } := by
      have hlt₂ : slot < st₂.p.streams.length := hlen ▸ hr.lt
      rw [stream_eq hlt₃, List.getElem_of_eq hstreams, stream_eq hr.lt]
      subst hst₂
      simp [Proto.modifyStream]
    rw [hmod]
    rfl
  rw [← hview₃] at hsteps
  split
  next he =>
    rw [← hend, Bool.and_eq_true, decide_eq_true_eq, Option.isNone_iff_eq_none] at he
    have hnone : (source.isNone && decide (bodyLen body ≠ 0)) = false := by simp [he.1]
    rw [hnone, he.2, Option.isSome_none, give_none, trace_put_self hs₃ hlt₃] at hsteps
    exact hsteps.trans (maybeClose_steps hh hs₃ slot)
  next he =>
    rw [trace_setP, setBody_view hs₃ hlt₃]
    exact hsteps

theorem submitTrailers_steps (hh : host.Faithful) {st : St σ} (hs : st.p.view.Sane)
    {streamId : ℕ} {hdrs : List Header}
    (hc : (Item.call (.submitTrailers streamId hdrs), st.p.view) ∈ st.trace.log) :
    Steps st.trace (submitTrailers host st streamId hdrs).1.trace := by
  unfold submitTrailers
  split
  · exact .refl
  split
  · exact .refl
  next slot hslot =>
  have hg := ensurePreface_greeted st
  split
  next st₁ h =>
    rw [h] at hg
    exact hg.steps
  next st₁ h =>
  rw [h] at hg
  have hr := hg.ready hs hslot
  have hcall : st₁.trace.AtCall _ := hg.atCall hc
  have hmem := stream_view_mem hr.lt
  rw [← hr.id] at hcall ⊢
  dsimp only
  apply hr.steps.trans
  split
  · exact .refl
  next hpending =>
  have hpending : (st₁.p.stream slot).view.trailersPending = false :=
    Bool.eq_false_of_not_eq_true hpending
  split
  next hbody =>
    split
    · exact .refl
    next blk hblk =>
    have hempty : blk = ⟨[], st₁.p.config.headerBlockBytes⟩ := by
      unfold Buffer.init at hblk
      split_ifs at hblk
      exact (Option.some.inj hblk).symm
    split
    next hpack he => exact (Step.recode st₁.trace hpack).steps
    next hpack blk' he =>
    rw [hempty] at he
    have hs₂ : (st₁.p.withHpack hpack).view.Sane := hr.sane.withHpack hpack
    have hstep := Step.deferTrailers st₁.trace hcall hmem hr.isOpen hpending hbody he
    apply Step.steps
    convert hstep using 1
    exact @trace_modifyStream σ (st₁.setP (st₁.p.withHpack hpack)) hs₂ slot hr.lt
      (fun s => { s with trailers := blk'.data, trailersPending := true }) rfl
  next hbody =>
    have hbody : (st₁.p.stream slot).view.bodyPending = false :=
      Bool.eq_false_of_not_eq_true hbody
    have hview : ({ st₁.p.stream slot with endStreamSent := true, bodyEof := false } : Stream).view =
        { (st₁.p.stream slot).view with endStreamSent := true } := by
      have hbp : ({ st₁.p.stream slot with endStreamSent := true, bodyEof := false } :
          Stream).bodyPending = (st₁.p.stream slot).bodyPending := by
        have hbody : (st₁.p.stream slot).bodyPending = false := hbody
        rw [hbody]
        unfold Stream.bodyPending at hbody ⊢
        dsimp only
        split
        · rfl
        next b hb =>
          rw [hb] at hbody
          simp only [Bool.or_eq_false_iff] at hbody
          simp only [hbody.1, Bool.or_false]
      simp only [Stream.view, hbp]
    have hset := trace_modifyStream hr.sane hr.lt
      (fun s => { s with endStreamSent := true, bodyEof := false }) rfl
    rw [hview] at hset
    generalize hst₂ : st₁.setP (st₁.p.modifyStream slot fun s =>
      { s with endStreamSent := true, bodyEof := false }) = st₂ at hset ⊢
    have hb := outHeaders_steps hr.sane hcall hr.isOpen (.trailers hdrs hpending hbody) hset hdrs
    split
    next st₃ h₃ =>
      rw [h₃] at hb
      exact hb
    next st₃ h₃ =>
    rw [h₃] at hb
    obtain ⟨hs₃, hstreams, hsteps⟩ := hb
    have hlt₂ : slot < st₂.p.streams.length := by
      rw [← hst₂]
      simpa [Proto.modifyStream] using hr.lt
    have hlt₃ : slot < st₃.p.streams.length := by
      rw [hstreams]
      exact hlt₂
    have hview₃ : (st₃.p.stream slot).view =
        { (st₁.p.stream slot).view with endStreamSent := true } := by
      rw [← hview, stream_eq hlt₃, List.getElem_of_eq hstreams, stream_eq hr.lt]
      subst hst₂
      simp [Proto.modifyStream]
    rw [← hview₃, trace_put_self hs₃ hlt₃] at hsteps
    exact hsteps.trans (maybeClose_steps hh hs₃ slot)

/-! ## The other calls -/

theorem submitPing_steps (st : St σ) (opaqueBytes : Bytes) :
    Steps st.trace (submitPing st opaqueBytes).1.trace := by
  unfold submitPing
  split
  · exact .refl
  next hlen =>
  have hg := ensurePreface_greeted st
  split
  next st₁ h =>
    rw [h] at hg
    exact hg.steps
  next st₁ h =>
    rw [h] at hg
    exact hg.steps.trans (outFrame_control_steps st₁ (.ping (not_not.mp hlen)))

theorem localResetRecord_view (p : Proto) (id : ℕ) : (p.localResetRecord id).view = p.view := by
  unfold Proto.localResetRecord
  split_ifs <;> rfl

theorem localResetForget_view (p : Proto) (id : ℕ) : (p.localResetForget id).view = p.view := by
  unfold Proto.localResetForget
  split_ifs <;> rfl

theorem submitRstStream_steps (hh : host.Faithful) {st : St σ} (hs : st.p.view.Sane)
    (streamId errorCode : ℕ) :
    Steps st.trace (submitRstStream host st streamId errorCode).1.trace := by
  unfold submitRstStream
  split
  · exact .refl
  have hg := ensurePreface_greeted st
  split
  next st₁ h =>
    rw [h] at hg
    exact hg.steps
  next st₁ h =>
  rw [h] at hg
  have hs₁ : st₁.p.view.Sane := hg.steps.sane hs
  split
  · exact hg.steps
  next slot hslot =>
  obtain ⟨hlt, hid⟩ := find_spec hslot
  split
  · exact hg.steps
  have hi : streamId < 2 ^ 31 := by
    rw [← hid]
    exact (hs₁.known _ (stream_view_mem hlt)).2.1
  have hf := outFrame_control_steps st₁ (.rstStream errorCode hi)
  split
  next st₂ h₂ =>
    rw [h₂] at hf
    exact hg.steps.trans hf
  next st₂ h₂ =>
  rw [h₂] at hf
  have hto : Steps st.trace st₂.trace := hg.steps.trans hf
  have hs₂ : st₂.p.view.Sane := hto.sane hs
  have hlt₂ : slot < st₂.p.streams.length := by
    rw [(outFrame_true h₂).1]
    exact hlt
  dsimp only
  have hclose := close_steps hs₂ hlt₂ (f := fun s : Stream =>
    { s with closed := true, localReset := true, body := none, bodyOff := 0, trailersPending := false
             trailers := if s.trailersPending then [] else s.trailers }) (fun _ => rfl) (fun _ => rfl)
  rw [trace_setP, ← localResetRecord_view _ streamId, ← trace_setP] at hclose
  exact (hto.trans hclose).trans (callback_steps hh ((hto.trans hclose).sane hs) _)

theorem submitData_steps {st : St σ} (hs : st.p.view.Sane) (streamId : ℕ) (data : Bytes)
    (endStream : Bool) : Steps st.trace (submitData st streamId data endStream).1.trace := by
  unfold submitData
  split
  · exact .refl
  next hdata =>
  split
  · exact .refl
  next slot hslot =>
  dsimp only
  split
  · exact .refl
  next hfree =>
  simp only [not_or, Bool.not_eq_true, Option.isSome_eq_false_iff] at hfree
  have hg := ensurePreface_greeted st
  split
  next st₁ h =>
    rw [h] at hg
    exact hg.steps
  next st₁ h =>
  rw [h] at hg
  have hr := hg.ready hs hslot
  rw [← hr.same] at hfree
  apply hr.steps.trans
  rw [trace_modifyStream hr.sane hr.lt _ rfl]
  have hview : ({ st₁.p.stream slot with body := some data, bodyOff := 0, bodyEof := endStream } :
      Stream).view = { (st₁.p.stream slot).view with hasBody := true, bodyPending := true } := by
    have hpending : (decide (0 < data.length) || endStream) = true := by
      cases endStream with
      | true => simp
      | false =>
        have hne : data.length ≠ 0 := fun h0 => hdata ⟨h0, by simp⟩
        simp [Nat.pos_of_ne_zero hne]
    simp only [Stream.view, Stream.bodyPending, hpending, Option.isSome_some]
  rw [hview]
  apply Step.steps
  apply Step.attach st₁.trace (stream_view_mem hr.lt) hr.isOpen hfree.2.2
  · simpa [Stream.view] using hfree.1
  · simpa [Stream.view] using hfree.2.1

theorem consumeConnection_steps {st : St σ} (hs : st.p.view.Sane) (bytes : ℕ) :
    Steps st.trace (consumeConnection st bytes).1.trace := by
  have hnote : Steps st.trace (st.record (.consumeStart bytes)).trace := by
    rw [trace_record]
    exact (Step.note st.trace (i := .consumeStart bytes) trivial).steps
  unfold consumeConnection
  dsimp only
  split
  · exact hnote
  split
  · exact hnote
  split
  · exact hnote.trans (@submitWindowUpdate_steps σ
      ((st.record (.consumeStart bytes)).setP { st.p with connConsumed := 0 }) hs 0 _)
  · exact hnote

theorem consumeStream_steps {st : St σ} (hs : st.p.view.Sane) (streamId bytes : ℕ) :
    Steps st.trace (consumeStream st streamId bytes).1.trace := by
  unfold consumeStream
  split
  · exact .refl
  split
  · exact .refl
  · exact submitWindowUpdate_steps hs streamId bytes

theorem resumeSource_steps (hh : host.Faithful) {st : St σ} (hs : st.p.view.Sane) (streamId : ℕ) :
    Steps st.trace (resumeSource host st streamId).1.trace := by
  unfold resumeSource
  split
  · exact .refl
  next slot hslot =>
  dsimp only
  split
  · exact .refl
  apply callback_setP_steps hh hs
  exact modifyStream_view_of_same slot (fun _ => rfl)

theorem terminate_steps (hh : host.Faithful) {st : St σ} (hs : st.p.view.Sane) (errorCode : ℕ) :
    Steps st.trace (terminate host st errorCode).1.trace := by
  unfold terminate
  have hg := submitGoaway_steps st st.p.lastProcStreamId errorCode
  split
  next st₁ h =>
    rw [h] at hg
    exact hg
  next st₁ h =>
  rw [h] at hg
  apply hg.trans
  apply forSlots_steps _ _ _ (hg.sane hs)
  intro slot st hs
  dsimp only
  split
  · exact .refl
  next hc =>
    have hclose := close_steps hs (slot_lt_of_open (by simpa using hc))
      (f := fun s => { s with closed := true, body := none, bodyOff := 0 }) (fun _ => rfl)
      (fun _ => rfl)
    exact hclose.trans (callback_steps hh (hclose.sane hs) _)

theorem setLocalSettings_steps (st : St σ) (a b c d e f : ℕ) :
    Steps st.trace (setLocalSettings st a b c d e f).1.trace := by
  unfold setLocalSettings
  dsimp only
  split
  · exact .refl
  next hok =>
  simp only [not_or] at hok
  split
  · exact .refl
  next hpack h =>
    apply ReflTransGen.head (Step.recode st.trace hpack)
    apply Step.steps
    exact Step.configure (st.trace.setView { st.trace.view with hpack := hpack }) _
      (Bool.eq_false_of_not_eq_true hok.1) (not_lt.mp hok.2.2.2.2.2.1)

/-- A call of the application makes only moves of the engine. -/
theorem call_steps (hh : host.Faithful) {st : St σ} (hs : st.p.view.Sane) (c : Call) :
    Steps st.trace (call host st c).1.trace := by
  have hnote : Steps st.trace (st.record (.call c)).trace := by
    rw [trace_record]
    exact (Step.note st.trace (i := .call c) trivial).steps
  have hs₁ : (st.record (.call c)).p.view.Sane := hs
  have hc : (Item.call c, (st.record (.call c)).p.view) ∈ (st.record (.call c)).trace.log := by
    simp [Trace.record]
  unfold call
  generalize st.record (.call c) = st₁ at hnote hs₁ hc ⊢
  apply hnote.trans
  cases c with
  | submitRequestEx => exact submitRequestEx_steps hs₁ ..
  | submitRequestHeaders => exact submitRequestHeaders_steps hs₁ ..
  | submitHeaders => exact submitHeaders_steps hh hs₁ hc
  | submitResponseEx => exact submitResponseEx_steps hh hs₁ hc
  | submitData => exact submitData_steps hs₁ ..
  | submitTrailers => exact submitTrailers_steps hh hs₁ hc
  | submitSettings => exact submitSettings_steps _
  | submitPing => exact submitPing_steps ..
  | submitWindowUpdate => exact submitWindowUpdate_steps hs₁ ..
  | submitRstStream => exact submitRstStream_steps hh hs₁ ..
  | submitGoaway => exact submitGoaway_steps ..
  | resumeSource => exact resumeSource_steps hh hs₁ _
  | consumeConnection => exact consumeConnection_steps hs₁ _
  | consumeStream => exact consumeStream_steps hs₁ ..
  | terminate => exact terminate_steps hh hs₁ _
  | setSendChunk => exact .refl
  | setLocalSettings => exact setLocalSettings_steps ..
  | setLocalEnableConnectProtocol enable =>
    exact (Step.connect st₁.trace (if enable ≠ 0 then 1 else 0)).steps

end host

end Chttp.H2
