import TurboUtils.Chttp.H2.Accounting

/-! Send credit: the send windows are what the peer granted less what was sent, they never
leave their range, and no DATA frame is sent without window. -/
namespace Chttp.H2

open Relation (ReflTransGen)
open History (Along total)

/-- The shifts of the stream windows by the settings of a frame are exact. -/
def ShiftsExact (p : Proto) (values : List (ℕ × ℕ)) : Prop :=
  ∀ pre value post, values = pre ++ (settingInitialWindowSize, value) :: post →
    (applyPeerSettings p pre).2 = errNoError →
    value ≤ 0x7fffffff → shiftFits (applyPeerSettings p pre).1 value = true →
    ∀ s ∈ (applyPeerSettings p pre).1.streams, s.closed = false →
      int32 (s.sendWindow + (value - (applyPeerSettings p pre).1.peerSettings.initialWindowSize)) =
        s.sendWindow + (value - (applyPeerSettings p pre).1.peerSettings.initialWindowSize)

theorem shiftsExact (p : Proto) (values : List (ℕ × ℕ)) : ShiftsExact p values := by
  intro pre value post _ _ _ hfit s hs hopen
  obtain ⟨hmin, hmax⟩ := shiftFits_view hfit (List.mem_map_of_mem hs) hopen
  exact int32_of_range hmin hmax

/-- What an entry of the record says about the windows at that moment: the arithmetic of the
event does not wrap, and a DATA frame with a payload found both windows open. -/
def View.SafeEntry (q : View) : Item → Prop
  | .windowIn id inc accepted => accepted = true →
      (id = 0 → int32 (q.connSendWindow + inc) = q.connSendWindow + inc) ∧
      ∀ s ∈ q.streams, s.id = id → s.closed = false →
        int32 (s.sendWindow + inc) = s.sendWindow + inc
  | .out f => f.type = .data → f.payload ≠ [] →
      (0 < q.connSendWindow ∧ int32 (q.connSendWindow - f.payload.length) =
        q.connSendWindow - f.payload.length) ∧
      ∃ s ∈ q.streams, s.id = f.streamId ∧ s.closed = false ∧ 0 < s.sendWindow ∧
        int32 (s.sendWindow - f.payload.length) = s.sendWindow - f.payload.length
  | _ => True

theorem View.safeEntry_neutral (q : View) {i : Item} (h : i.Neutral) : q.SafeEntry i := by
  cases i with
  | out f => exact fun ht hne => absurd (h.2 ht) hne
  | windowIn id inc accepted =>
    obtain rfl : accepted = false := h
    exact fun hf => absurd hf (by decide)
  | _ => trivial

structure Sending (log : List (Item × View)) (v : View) : Prop where
  initial : v.peerSettings.initialWindowSize ≤ 0x7fffffff
  conn : v.connSendWindow = 65535 + total (Item.increment 0) log - total Item.dataSent log
  connMin : 0 ≤ v.connSendWindow
  connMax : v.connSendWindow ≤ maxWindow
  stream : ∀ s ∈ v.streams, s.closed = false → s.sendWindow =
    v.peerSettings.initialWindowSize + total (Item.increment s.id) log -
      total (Item.dataSentOn s.id) log
  range : ∀ s ∈ v.streams, s.closed = false → -(2 ^ 31) ≤ s.sendWindow ∧ s.sendWindow ≤ maxWindow
  unused : ∀ i, ¬ v.Known i →
    total (Item.increment i) log = 0 ∧ total (Item.dataSentOn i) log = 0
  entries : ∀ e ∈ log, e.2.SafeEntry e.1

namespace Sending

variable {log : List (Item × View)} {v v' : View}

theorem calm (h : Sending log v) (hc : v.SendCalm v') : Sending log v' where
  initial := by rw [hc.peer]; exact h.initial
  conn := by rw [hc.conn]; exact h.conn
  connMin := by rw [hc.conn]; exact h.connMin
  connMax := by rw [hc.conn]; exact h.connMax
  stream := by
    intro x hx hopen
    rw [hc.peer]
    rcases hc.streams x hx hopen with ⟨y, hy, hyc, hid, hsend⟩ | ⟨hnew, hsend⟩
    · rw [hid, hsend]
      exact h.stream y hy hyc
    · obtain ⟨hinc, hsent⟩ := h.unused _ hnew
      rw [hsend, hinc, hsent]
      simp
  range := by
    intro x hx hopen
    rcases hc.streams x hx hopen with ⟨y, hy, hyc, hid, hsend⟩ | ⟨hnew, hsend⟩
    · rw [hsend]
      exact h.range y hy hyc
    · have := h.initial
      rw [hsend, maxWindow]
      omega
  unused := fun i hi => h.unused i fun hk => hi (hc.known i hk)
  entries := h.entries

theorem entries_append (h : ∀ e ∈ log, e.2.SafeEntry e.1) {i : Item} {q : View}
    (hq : q.SafeEntry i) : ∀ e ∈ log ++ [(i, q)], e.2.SafeEntry e.1 := by
  intro e he
  rcases List.mem_append.mp he with he | he
  · exact h e he
  · obtain rfl := List.mem_singleton.mp he
    exact hq

/-- An entry with no weight on the send side. -/
theorem entry (h : Sending log v) {i : Item} {q : View}
    (hi : ∀ id, i.increment id = 0 ∧ i.dataSent = 0 ∧ i.dataSentOn id = 0) (hq : q.SafeEntry i) :
    Sending (log ++ [(i, q)]) v where
  initial := h.initial
  conn := by
    simp only [History.total_append, History.total_single, hi 0]
    exact h.conn
  connMin := h.connMin
  connMax := h.connMax
  stream := by
    intro x hx hopen
    simp only [History.total_append, History.total_single, hi x.id]
    exact h.stream x hx hopen
  range := h.range
  unused := by
    intro j hj
    simp only [History.total_append, History.total_single, hi j]
    exact h.unused j hj
  entries := entries_append h.entries hq

/-- An entry whose weight is what the windows changed by. -/
theorem weigh (h : Sending log v) {i : Item} {q : View}
    (hpeer : v'.peerSettings.initialWindowSize = v.peerSettings.initialWindowSize)
    (hknown : ∀ j, v.Known j → v'.Known j)
    (hconn : v'.connSendWindow = v.connSendWindow + i.increment 0 - i.dataSent)
    (hmin : 0 ≤ v'.connSendWindow) (hmax : v'.connSendWindow ≤ maxWindow)
    (hstreams : ∀ x ∈ v'.streams, x.closed = false → ∃ y ∈ v.streams, y.closed = false ∧
      x.id = y.id ∧ x.sendWindow = y.sendWindow + i.increment y.id - i.dataSentOn y.id ∧
      -(2 ^ 31) ≤ x.sendWindow ∧ x.sendWindow ≤ maxWindow)
    (hunused : ∀ j, ¬ v.Known j → i.increment j = 0 ∧ i.dataSentOn j = 0) (hq : q.SafeEntry i) :
    Sending (log ++ [(i, q)]) v' where
  initial := by rw [hpeer]; exact h.initial
  conn := by
    have := h.conn
    simp only [History.total_append, History.total_single, Nat.cast_add]
    omega
  connMin := hmin
  connMax := hmax
  stream := by
    intro x hx hopen
    obtain ⟨y, hy, hyc, hid, hsend, -⟩ := hstreams x hx hopen
    have := h.stream y hy hyc
    simp only [History.total_append, History.total_single, Nat.cast_add, hpeer, hid]
    omega
  range := by
    intro x hx hopen
    obtain ⟨y, -, -, -, -, hrange⟩ := hstreams x hx hopen
    exact hrange
  unused := by
    intro j hj
    have hj : ¬ v.Known j := fun hk => hj (hknown j hk)
    obtain ⟨hinc, hsent⟩ := hunused j hj
    simp only [History.total_append, History.total_single, hinc, hsent]
    exact h.unused j hj
  entries := entries_append h.entries hq

/-- Settings of the peer shift the windows and the initial window together. -/
theorem settings {p : Proto} (h : Sending log p.view) (values : List (ℕ × ℕ)) :
    Sending log (applyPeerSettings p values).1.view := by
  apply applyPeerSettings_induction (fun q => Sending log q.view) _ _ h
  · intro q ps hq hw _
    exact hq.calm ⟨rfl, hw, fun _ h => h, fun x hx hopen => .inl ⟨x, hx, hopen, rfl, rfl⟩⟩
  · intro q value hv hfit hq
    rw [shiftWindows_view]
    have hshift : ∀ x ∈ (q.view.shift value).streams, x.closed = false → ∃ s ∈ q.view.streams,
        s.closed = false ∧ x.id = s.id ∧
        x.sendWindow = s.sendWindow + (value - q.view.peerSettings.initialWindowSize) ∧
        -(2 ^ 31) ≤ x.sendWindow ∧ x.sendWindow ≤ maxWindow := by
      intro x hx hopen
      obtain ⟨s, hs, rfl⟩ := List.mem_map.mp hx
      have hc : s.closed = false := by
        unfold StreamView.shift at hopen
        split at hopen
        · exact hopen
        · exact hopen
      obtain ⟨hmin, hmax⟩ := shiftFits_view hfit hs hc
      have hsend : (s.shift (value - q.view.peerSettings.initialWindowSize)).sendWindow =
          s.sendWindow + (value - q.view.peerSettings.initialWindowSize) := by
        rw [StreamView.shift, if_neg (by simp [hc])]
        exact int32_of_range hmin hmax
      rw [hsend]
      exact ⟨s, hs, hc, StreamView.shift_id _ _, rfl, hmin, hmax⟩
    refine ⟨hv, hq.conn, hq.connMin, hq.connMax, ?_, ?_, hq.unused, hq.entries⟩
    · intro x hx hopen
      obtain ⟨s, hs, hc, hid, hsend, -⟩ := hshift x hx hopen
      have hold := hq.stream s hs hc
      rw [hsend, hid, hold, View.shift]
      ring
    · intro x hx hopen
      obtain ⟨s, hs, hc, hid, hsend, hmin, hmax⟩ := hshift x hx hopen
      exact ⟨hmin, hmax⟩

end Sending

/-- `Sending` at every moment of a run. -/
abbrev SendingAlong (t : Trace) : Prop := Along (fun _ => True) Sending t.log t.view

theorem Quiet.sending {t t' : Trace} (h : Quiet t t') (ht : SendingAlong t) : SendingAlong t' := by
  cases h with
  | view hc => exact ht.change (ht.now.calm hc.sendCalm)
  | entry hi hc =>
    apply ht.enter (fun _ => ht.now)
    apply Sending.calm _ hc.sendCalm
    apply ht.now.entry _ (t.view.safeEntry_neutral hi)
    intro id
    obtain ⟨hinc, hsent, hon, -⟩ := hi.weightless id
    exact ⟨hinc, hsent, hon⟩

theorem Quiets.sending {t t' : Trace} (h : Quiets t t') (ht : SendingAlong t) :
    SendingAlong t' := by
  induction h with
  | refl => exact ht
  | tail _ hq ih => exact hq.sending ih

/-- A DATA frame takes its payload off both windows. -/
theorem SendsData.sending {t : Trace} {s s' : StreamView} {f : Frame} (h : SendsData t s s' f)
    (hs : t.view.Sane) (ht : SendingAlong t) : SendingAlong (t.sendData f s') := by
  have hnow := ht.now
  have hconnMax := hnow.connMax
  have hpos := h.pos
  have hconn := h.conn
  have hstream := h.stream
  have hmax := (hnow.range s h.mem h.isOpen).2
  have hexact : int32 (t.view.connSendWindow - f.payload.length) =
      t.view.connSendWindow - f.payload.length := int32_of_range (by omega) (by omega)
  have hexact' : int32 (s.sendWindow - f.payload.length) = s.sendWindow - f.payload.length :=
    int32_of_range (by omega) (by omega)
  have hsend : s'.sendWindow = s.sendWindow - f.payload.length := h.send.trans hexact'
  have hweight : ∀ id, (Item.out f).dataSentOn id = if s.id = id then f.payload.length else 0 := by
    intro id
    simp only [Item.dataSentOn, h.type, h.id, true_and]
  have hsent : (Item.out f).dataSent = f.payload.length := by
    simp only [Item.dataSent, h.type, if_true]
  apply ht.enter (fun _ => hnow)
  apply hnow.weigh
  · rfl
  · exact fun _ hk => hk
  · rw [hsent]
    exact hexact.trans (by simp [Item.increment])
  · exact le_of_le_of_eq (by omega) hexact.symm
  · exact le_of_eq_of_le hexact (by omega)
  · intro x hx hopen
    rcases View.mem_put.mp hx with ⟨rfl, -⟩ | ⟨hx, hne⟩
    · refine ⟨s, h.mem, h.isOpen, h.sameId, ?_, by omega, by omega⟩
      rw [hweight, if_pos rfl, hsend]
      simp [Item.increment]
    · refine ⟨x, hx, hopen, rfl, ?_, hnow.range x hx hopen⟩
      rw [hweight, if_neg (fun heq => hne (heq.symm.trans h.sameId.symm))]
      simp [Item.increment]
  · intro j hj
    have hne : s.id ≠ j := fun heq => hj (heq ▸ (hs.known s h.mem).2.2)
    rw [hweight, if_neg hne]
    exact ⟨rfl, rfl⟩
  · exact fun _ _ => ⟨⟨by omega, hexact⟩, s, h.mem, h.id.symm, h.isOpen, by omega, hexact'⟩

theorem View.Credit.sendCalm {v v' : View} {i inc : ℕ} (h : v.Credit i inc v') :
    v.SendCalm v' := by
  cases h with
  | conn _ => exact ⟨rfl, rfl, fun _ h => h, fun x hx hopen => .inl ⟨x, hx, hopen, rfl, rfl⟩⟩
  | stream hs hopen _ =>
    refine ⟨rfl, rfl, fun _ h => h, fun x hx hx' => ?_⟩
    rcases View.mem_put.mp hx with ⟨rfl, -⟩ | ⟨hx, -⟩
    · exact .inl ⟨_, hs, hopen, rfl, rfl⟩
    · exact .inl ⟨x, hx, hx', rfl, rfl⟩

theorem View.known_zero {v : View} (h : v.Sane) : v.Known 0 := by
  have := h.next
  cases hm : v.mode <;> simp only [View.Known, hm] <;> omega

/-- The windows at every moment survive each move. -/
theorem Effect.sending {t t' : Trace} (h : Effect t t') (hs : t.view.Sane) (ht : SendingAlong t) :
    SendingAlong t' := by
  have hnow := ht.now
  cases h with
  | quiet h => exact h.sending ht
  | data h => exact h.sending hs ht
  | @credit i inc v h hmax =>
    have hv := hnow.calm h.sendCalm
    apply ht.enter (fun _ => hv)
    apply Sending.calm _ (View.Calm.out _ _).sendCalm
    exact hv.entry (fun id => by simp [Item.increment, Item.dataSent, Item.dataSentOn])
      (by simp [View.SafeEntry])
  | creditLost h _ _ _ _ => exact ht.change (hnow.calm h.sendCalm)
  | configure l hnone =>
    apply ht.change
    apply hnow.calm
    exact ⟨rfl, rfl, fun _ h => h, fun x hx hopen => .inl ⟨x, hx, hopen, rfl, rfl⟩⟩
  | @settings p p' values error v hp happly hv =>
    apply ht.enter (fun _ => hnow)
    apply Sending.calm _ hv.sendCalm
    have hshift := (hp ▸ hnow : Sending t.log p.view).settings values
    rw [happly] at hshift
    exact hshift.entry (fun id => ⟨rfl, rfl, rfl⟩) trivial
  | @windowConn inc h =>
    have hmin := hnow.connMin
    have hexact : int32 (t.view.connSendWindow + inc) = t.view.connSendWindow + inc :=
      int32_of_range (by omega) (by omega)
    apply ht.enter (fun _ => hnow)
    apply hnow.weigh
    · rfl
    · exact fun _ hk => hk
    · exact hexact.trans (by simp [Item.increment, Item.dataSent])
    · exact le_of_le_of_eq (by omega) hexact.symm
    · exact le_of_eq_of_le hexact (by omega)
    · intro x hx hopen
      have hne : 0 ≠ x.id := (hs.known x hx).1.ne
      exact ⟨x, hx, hopen, rfl, by simp [Item.increment, Item.dataSentOn, hne],
        hnow.range x hx hopen⟩
    · intro j hj
      have hne : 0 ≠ j := fun heq => hj (heq ▸ View.known_zero hs)
      simp [Item.increment, Item.dataSentOn, hne]
    · refine fun _ => ⟨fun _ => hexact, fun s hmem hid => ?_⟩
      exact absurd hid (hs.known s hmem).1.ne'
  | @windowStream inc s hmem hopen h =>
    obtain ⟨hmin, hmax⟩ := hnow.range s hmem hopen
    have hexact : int32 (s.sendWindow + inc) = s.sendWindow + inc :=
      int32_of_range (by omega) (by omega)
    have hpos := (hs.known s hmem).1
    apply ht.enter (fun _ => hnow)
    apply hnow.weigh
    · rfl
    · exact fun _ hk => hk
    · simp [Item.increment, Item.dataSent, hpos.ne', Trace.setView, View.put]
    · exact hnow.connMin
    · exact hnow.connMax
    · intro x hx hopen'
      rcases View.mem_put.mp hx with ⟨rfl, -⟩ | ⟨hx, hne⟩
      · refine ⟨s, hmem, hopen, rfl, ?_, le_of_le_of_eq (by omega) hexact.symm,
          le_of_eq_of_le hexact (by omega)⟩
        exact hexact.trans (by simp [Item.increment, Item.dataSentOn])
      · refine ⟨x, hx, hopen', rfl, ?_, hnow.range x hx hopen'⟩
        simp [Item.increment, Item.dataSentOn, Ne.symm hne]
    · intro j hj
      have hne : s.id ≠ j := fun heq => hj (heq ▸ (hs.known s hmem).2.2)
      simp [Item.increment, Item.dataSentOn, hne]
    · refine fun _ => ⟨fun h0 => absurd h0 hpos.ne', fun x hx hid _ => ?_⟩
      rw [hs.unique hmem hx hid]
      exact hexact
  | dataConn id length v h hv =>
    apply ht.enter (fun _ => hnow)
    apply Sending.calm _ hv.sendCalm
    apply Sending.calm (v := t.view)
    · exact hnow.entry (fun id => ⟨rfl, rfl, rfl⟩) trivial
    · exact ⟨rfl, rfl, fun _ h => h, fun x hx hopen => .inl ⟨x, hx, hopen, rfl, rfl⟩⟩
  | @dataStream length s h hmem hopen hw =>
    apply ht.enter (fun _ => hnow)
    apply Sending.calm (v := t.view)
    · exact hnow.entry (fun id => ⟨rfl, rfl, rfl⟩) trivial
    · refine ⟨rfl, rfl, fun _ h => h, fun x hx hx' => ?_⟩
      rcases View.mem_put.mp hx with ⟨rfl, -⟩ | ⟨hx, -⟩
      · exact .inl ⟨s, hmem, hopen, rfl, rfl⟩
      · exact .inl ⟨x, hx, hx', rfl, rfl⟩

theorem Moves.sending {t t' : Trace} (h : Moves t t') (hs : t.view.Sane) (ht : SendingAlong t) :
    SendingAlong t' := by
  induction h with
  | refl => exact ht
  | tail hmoves hmove ih => exact (hmove.effect (Moves.sane hmoves hs)).sending (Moves.sane hmoves hs) ih

theorem protoCreate_sending {mode : Mode} {config : ProtoConfig} {p : Proto}
    (h : protoCreate mode config = some p) : SendingAlong (.start p) := by
  obtain ⟨-, hpack, rfl⟩ := protoCreate_eq h
  apply Along.start
  constructor <;> simp [Trace.start, Proto.view, initialPeerSettings, defaultWindow, maxWindow]

/-! ## Engines -/

/-- The send windows of an engine against its record: what was granted less what was sent,
within the range of the type. -/
structure SendCredit (log : List (Item × Proto)) (p : Proto) : Prop where
  conn : p.connSendWindow = 65535 + total (Item.increment 0) log - total Item.dataSent log
  connRange : 0 ≤ p.connSendWindow ∧ p.connSendWindow ≤ 2 ^ 31 - 1
  stream : ∀ s ∈ p.streams, s.closed = false → s.sendWindow =
    p.peerSettings.initialWindowSize + total (Item.increment s.id) log -
      total (Item.dataSentOn s.id) log
  streamRange : ∀ s ∈ p.streams, s.closed = false →
    -(2 ^ 31) ≤ s.sendWindow ∧ s.sendWindow ≤ 2 ^ 31 - 1

/-- The arithmetic on the send windows that an entry of the record stands for does not wrap,
and a DATA frame with a payload found both windows above zero. -/
def SendExact (q : Proto) : Item → Prop
  | .windowIn id inc accepted => accepted = true →
      (id = 0 → int32 (q.connSendWindow + inc) = q.connSendWindow + inc) ∧
      ∀ s ∈ q.streams, s.id = id → s.closed = false →
        int32 (s.sendWindow + inc) = s.sendWindow + inc
  | .out f => f.type = .data → f.payload ≠ [] →
      (0 < q.connSendWindow ∧ int32 (q.connSendWindow - f.payload.length) =
        q.connSendWindow - f.payload.length) ∧
      ∃ s ∈ q.streams, s.id = f.streamId ∧ s.closed = false ∧ 0 < s.sendWindow ∧
        int32 (s.sendWindow - f.payload.length) = s.sendWindow - f.payload.length
  | .settingsIn values => ShiftsExact q values
  | _ => True

theorem Sending.sendCredit {log : List (Item × Proto)} {p : Proto}
    (h : Sending (log.map fun e => (e.1, e.2.view)) p.view) : SendCredit log p := by
  have hmap : ∀ f : Item → ℕ, total f (log.map fun e => (e.1, e.2.view)) = total f log :=
    fun f => History.total_map f Proto.view log
  constructor
  · rw [← hmap, ← hmap]
    exact h.conn
  · exact ⟨h.connMin, h.connMax⟩
  · intro s hs hopen
    rw [← hmap, ← hmap]
    exact h.stream s.view (List.mem_map_of_mem hs) hopen
  · exact fun s hs hopen => h.range s.view (List.mem_map_of_mem hs) hopen

theorem View.SafeEntry.sendExact {q : Proto} {i : Item} (h : q.view.SafeEntry i) :
    SendExact q i := by
  cases i with
  | windowIn id inc accepted =>
    intro ha
    obtain ⟨hconn, hstream⟩ := h ha
    exact ⟨hconn, fun s hs => hstream s.view (List.mem_map_of_mem hs)⟩
  | out f =>
    intro ht hne
    obtain ⟨hconn, x, hx, hid, hopen, hpos, hexact⟩ := h ht hne
    obtain ⟨s, hs, rfl⟩ := List.mem_map.mp hx
    exact ⟨hconn, s, hs, hid, hopen, hpos, hexact⟩
  | settingsIn values => exact shiftsExact q values
  | _ => trivial

/-- Send credit is safe in every reachable state and at every moment on the way to it: the
windows equal what was granted less what was sent and stay in range, no addition or
subtraction on them wraps, and DATA is only sent within both windows. -/
theorem send_credit_safe {A : Type*} {app : App A} {n : ℕ} {mode : Mode} {config : ProtoConfig}
    {ep : Endpoint A} (h : Reachable app n mode config ep) :
    SendCredit ep.st.log ep.st.p ∧
      ∀ pre i q post, ep.st.log = pre ++ (i, q) :: post → SendCredit pre q ∧ SendExact q i := by
  obtain ⟨p, hp, hmoves, -⟩ := h.moves
  have halong := hmoves.sending (protoCreate_sane hp) (protoCreate_sending hp)
  refine ⟨Sending.sendCredit halong.now, ?_⟩
  intro pre i q post hlog
  refine ⟨Sending.sendCredit (halong.past_map hlog trivial), ?_⟩
  apply View.SafeEntry.sendExact
  apply halong.now.entries (i, q.view)
  rw [St.trace, hlog]
  simp

def idleApp : App Unit := ⟨fun _ _ _ => .done () 0, fun _ _ _ => ((), ⟨.eof, []⟩)⟩

def grantBytes : Bytes := [0, 0, 0, 4, 0, 0, 0, 0, 0] ++ [0, 0, 4, 8, 0, 0, 0, 0, 0, 0, 0, 0, 1]

theorem send_credit_safe_granted :
    (run (idleApp.host 1) (smallEndpoint .client) [.recv grantBytes]).st.p.connSendWindow =
        65536 ∧
      SendCredit (run (idleApp.host 1) (smallEndpoint .client) [.recv grantBytes]).st.log
        (run (idleApp.host 1) (smallEndpoint .client) [.recv grantBytes]).st.p :=
  ⟨by decide,
    (send_credit_safe (smallEndpoint_reachable idleApp 1 .client [.recv grantBytes])).1⟩

end Chttp.H2
