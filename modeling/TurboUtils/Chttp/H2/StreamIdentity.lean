import TurboUtils.Chttp.H2.IdentityReceive

/-! Stream identity: ids, slots and closures in every reachable state and on the way to it. -/
namespace Chttp.H2

open Chttp.Hpack (Header)

variable {σ : Type*}

/-! ## A run from its beginning -/

theorem Turn.grows {g g' : Page} (h : Turn g g') : g.log <+: g'.log := by
  cases h with
  | quiet => exact List.prefix_rfl
  | note => exact List.prefix_append _ _
  | opens => exact List.prefix_rfl
  | closes => exact List.prefix_append _ _
  | drops => exact List.prefix_rfl

theorem Turns.grows {g g' : Page} (h : Turns g g') : g.log <+: g'.log := by
  induction h with
  | refl => exact List.prefix_rfl
  | tail _ hturn ih => exact ih.trans hturn.grows

/-- What is known of a fresh engine. -/
theorem protoCreate_kept {mode : Mode} {config : ProtoConfig} {p : Proto}
    (h : protoCreate mode config = some p) : Kept p ⟨p, []⟩ := by
  obtain ⟨-, hpack, rfl⟩ := protoCreate_eq h
  have hnone : ∀ id, ¬ Announced [] id := fun _ ⟨_, he, _⟩ => List.not_mem_nil he
  constructor
  case table => exact ⟨Nat.zero_le _, List.nodup_nil, nofun⟩
  case frame => exact ⟨(by decide : defaultFrameBytes ≤ 16384), (by decide : 16384 ≤ maxFrameBytes)⟩
  case own =>
    cases mode with
    | client => exact ⟨(by decide : 0 < 1), (by decide : (1 % 2 == 0) = false)⟩
    | server => exact ⟨(by decide : 0 < 2), (by decide : (2 % 2 != 0) = false)⟩
  case known =>
    rintro id (hid | hid)
    · exact absurd hid (hnone id)
    · exact absurd rfl hid
  case most => exact fun _ => Nat.zero_le _
  case unclosed => nofun
  case gone => exact fun id _ hid => absurd hid (hnone id)
  case resets =>
    rintro id (⟨h0, hid⟩ | ⟨s, hs, -⟩)
    · exact absurd (List.eq_of_mem_replicate hid) h0
    · exact absurd hs List.not_mem_nil
  case header => exact fun id hid => absurd hid.1 Bool.false_ne_true
  case shots =>
    intro q hq
    rw [List.map_nil, List.mem_singleton] at hq
    rw [hq]
    exact ⟨Nat.zero_le _, List.nodup_nil, nofun⟩
  case chain => exact List.isChain_singleton _
  case since => exact .refl _

theorem Reachable.kept {app : App σ} {n : ℕ} {mode : Mode} {config : ProtoConfig}
    {ep : Endpoint σ} (h : Reachable app n mode config ep) :
    ∃ start, protoCreate mode config = some start ∧ Kept start ep.st.page := by
  apply h.induction
  · exact fun p a hp => ⟨p, hp, protoCreate_kept hp⟩
  · rintro ep op ⟨start, hp, hk⟩
    exact ⟨start, hp, (step_turns (app.host_turning start n) hk op).keeps hk⟩

/-! ## Requests are announced -/

theorem Announced.mono {log log' : List (Item × Proto)} (h : log <+: log') {id : ℕ}
    (hid : Announced log id) : Announced log' id := by
  obtain ⟨e, he, heid⟩ := hid
  exact ⟨e, h.subset he, heid⟩

theorem blockLoop_grows (streamId : ℕ) (endStream hasPriority : Bool) (fuel : ℕ) (first : Bool)
    (rest : Bytes) {st st' : St σ}
    (h : blockLoop streamId endStream hasPriority fuel first rest st = (st', true)) :
    st.log <+: st'.log := by
  induction fuel generalizing first rest st with
  | zero =>
    cases h
    exact List.prefix_rfl
  | succ fuel ih =>
    unfold blockLoop at h
    dsimp only at h
    split at h
    · cases h
    next st₁ hst₁ =>
      obtain ⟨hpush, -⟩ := outFrame_true hst₁
      have hgrow : st.log <+: st₁.log := by
        rw [hpush]
        exact List.prefix_append _ _
      split at h
      · cases h
        exact hgrow
      · exact hgrow.trans (ih _ _ h)

/-- A header block that goes out announces its stream. -/
theorem outHeaders_announces {st st' : St σ} {streamId : ℕ} {hdrs : List Header} {endStream : Bool}
    {priority : Option Priority}
    (h : outHeaders st streamId hdrs endStream priority = (st', true)) :
    Announced st'.log streamId := by
  unfold outHeaders at h
  split at h
  · cases h
  split at h
  swap
  · cases h
  split at h
  · cases h
  split at h
  · cases h
  dsimp only at h
  split at h
  · cases h
  next pre hpre =>
  unfold blockLoop at h
  dsimp only at h
  split at h
  · cases h
  next st₁ hst₁ =>
    obtain ⟨hpush, -⟩ := outFrame_true hst₁
    have hfirst : Announced st₁.log streamId := by
      rw [hpush]
      exact announced_append.2 (Or.inr rfl)
    split at h
    · cases h
      exact hfirst
    · exact hfirst.mono (blockLoop_grows _ _ _ _ _ _ h)

theorem openRequest_announces {st st' : St σ} {hdrs : List Header} {endStream : Bool}
    {priority : Option Priority} {id slot : ℕ}
    (h : openRequest st hdrs endStream priority = (st', some (id, slot))) :
    Announced st'.log id := by
  rw [openRequest_eq] at h
  split at h
  · cases h
  split at h
  · cases h
  next st₁ hst₁ =>
    cases h
    exact outHeaders_announces hst₁

def Call.IsRequest : Call → Prop
  | .submitRequestEx .. | .submitRequestHeaders .. => True
  | _ => False

theorem submitRequestEx_announces {st : St σ} {hdrs : List Header} {body : Option Bytes}
    {source : Option ℕ} {weight : ℕ} {dep : Int} {exclusive : Bool} {id : ℕ}
    (h : (submitRequestEx st hdrs body source weight dep exclusive).2 = some id) :
    Announced (submitRequestEx st hdrs body source weight dep exclusive).1.log id := by
  unfold submitRequestEx at h ⊢
  by_cases hrefused : ¬ mayOpen st.p ∨ (body.isSome ∧ source.isSome) ∨ 256 < weight
  · rw [if_pos hrefused] at h
    cases h
  rw [if_neg hrefused] at h ⊢
  dsimp only at h ⊢
  by_cases hid : 0x7ffffffe < st.p.nextStreamId ∨ dep = st.p.nextStreamId
  · rw [if_pos hid] at h
    cases h
  rw [if_neg hid] at h ⊢
  generalize ensurePreface st = r at h ⊢
  obtain ⟨st₁, ok⟩ := r
  cases ok with
  | false => cases h
  | true =>
    dsimp only at h ⊢
    split at h
    · cases h
    next st₂ id' slot hst₂ =>
      cases h
      have hopened := openRequest_announces hst₂
      exact hopened

theorem submitRequestHeaders_announces {st : St σ} {hdrs : List Header} {endStream : Bool} {id : ℕ}
    (h : (submitRequestHeaders st hdrs endStream).2 = some id) :
    Announced (submitRequestHeaders st hdrs endStream).1.log id := by
  unfold submitRequestHeaders at h ⊢
  split at h
  · cases h
  next hserved =>
  rw [if_neg hserved]
  generalize ensurePreface st = r at h ⊢
  obtain ⟨st₁, ok⟩ := r
  cases ok with
  | false => cases h
  | true =>
    obtain ⟨⟨id', slot⟩, hopen, rfl⟩ := Option.map_eq_some_iff.1 h
    exact openRequest_announces (Prod.ext rfl hopen)

theorem call_announces (host : Host σ) (st : St σ) {c : Call} (hc : c.IsRequest) {id : ℕ}
    (h : (call host st c).2 = some id) : Announced (call host st c).1.log id := by
  unfold call at h ⊢
  cases c with
  | submitRequestEx hdrs body source weight dep exclusive => exact submitRequestEx_announces h
  | submitRequestHeaders hdrs endStream => exact submitRequestHeaders_announces h
  | _ => exact hc.elim

/-! ## Identity -/

/-- The engines that a run shows: the fresh one, the one at each entry of the record, the last. -/
def snapshots (start : Proto) (st : St σ) : List Proto := start :: (st.log.map Prod.snd ++ [st.p])

def Proto.Open (p : Proto) (id : ℕ) : Prop := ∃ s ∈ p.streams, s.id = id ∧ s.closed = false

/-- No id stands in the table twice, ids are 31-bit numbers, and the table is within its capacity. -/
structure TableSound (p : Proto) : Prop where
  ids : (p.streams.map Stream.id).Nodup
  range : ∀ s ∈ p.streams, 0 < s.id ∧ s.id ≤ 2 ^ 31 - 1
  size : p.streams.length ≤ p.config.streamCapacity

/-- A slot is given to another stream only when its stream is closed, and a closed stream stays
closed. -/
structure SlotsKept (q p : Proto) : Prop where
  length : q.streams.length ≤ p.streams.length
  slot : ∀ (i : ℕ) (s t : Stream), q.streams[i]? = some s → p.streams[i]? = some t →
    (s.id ≠ t.id → s.closed = true) ∧ (s.id = t.id → s.closed = true → t.closed = true)

/-- A stream that shows up between two engines has a larger id than every stream of its side that
showed up before. -/
def OpensUpward (shots : List Proto) : Prop :=
  ∀ earlier q p later, shots = earlier ++ q :: p :: later →
    ∀ t ∈ p.streams, (∀ s ∈ q.streams, s.id ≠ t.id) →
      ∀ q' ∈ earlier ++ [q], ∀ s ∈ q'.streams,
        p.peerInitiated s.id = p.peerInitiated t.id → s.id < t.id

/-- `on_stream_close` is invoked at most once for a stream, not while it is open, and by the time it
is closed if it was announced. -/
structure ClosedOnce (st : St σ) : Prop where
  most : ∀ id, closures st.log id ≤ 1
  unclosed : ∀ id, st.p.Open id → closures st.log id = 0
  closed : ∀ id, Announced st.log id → ¬ st.p.Open id → closures st.log id = 1

theorem open_iff {p : Proto} {id : ℕ} : p.Open id ↔ (id, false) ∈ p.keys := by
  unfold Proto.Open Proto.keys
  rw [List.mem_map]
  refine exists_congr fun s => and_congr_right fun _ => ?_
  rw [Stream.key, Prod.mk.injEq]

theorem keys_ids (p : Proto) : p.keys.map Prod.fst = p.streams.map Stream.id := by
  unfold Proto.keys
  rw [List.map_map]
  rfl

theorem Distinct.tableSound {p : Proto} (h : Distinct p) : TableSound p := by
  refine ⟨?_, fun s hs => ?_, ?_⟩
  · rw [← keys_ids]
    exact h.ids
  · obtain ⟨h0, hmax, -⟩ := h.range s.key (List.mem_map_of_mem hs)
    exact ⟨h0, Nat.le_sub_one_of_lt hmax⟩
  · have hsize := h.size
    unfold Proto.keys at hsize
    rw [List.length_map] at hsize
    exact hsize

theorem Distinct.seen_stream {p : Proto} (h : Distinct p) {s : Stream} (hs : s ∈ p.streams) :
    p.Seen s.id :=
  (h.range s.key (List.mem_map_of_mem hs)).2.2

theorem Follows.slotsKept {q p : Proto} (h : Follows q p) (hq : Distinct q) : SlotsKept q p := by
  constructor
  · have hlength := h.length
    unfold Proto.keys at hlength
    rw [List.length_map, List.length_map] at hlength
    exact hlength
  · intro i s t hs ht
    have hold : q.keys[i]? = some (s.id, s.closed) := by
      rw [keys_getElem?, hs]
      rfl
    have hnew : p.keys[i]? = some (t.id, t.closed) := by
      rw [keys_getElem?, ht]
      rfl
    rcases h.slots i t.id t.closed hnew with ⟨was, hwas, hstays⟩ | ⟨hunseen, hall⟩
    · rw [hold, Option.some.injEq, Prod.mk.injEq] at hwas
      obtain ⟨hid, rfl⟩ := hwas
      exact ⟨fun hne => absurd hid hne, fun _ => hstays⟩
    · refine ⟨fun _ => hall _ hold, fun hid => absurd ?_ hunseen⟩
      rw [← hid]
      exact hq.seen_stream (List.mem_of_getElem? hs)

def Ages (q p : Proto) : Prop := p.mode = q.mode ∧ ∀ id, q.Seen id → p.Seen id

instance : IsTrans Proto Ages where
  trans _ _ _ h h' := ⟨h'.1.trans h.1, fun id hid => h'.2 id (h.2 id hid)⟩

theorem Follows.ages {q p : Proto} (h : Follows q p) : Ages q p := ⟨h.mode, fun _ => h.seen⟩

theorem seen_lt {p : Proto} {id x : ℕ} (h : ¬ p.Seen id) (hx : p.Seen x)
    (hside : p.peerInitiated x = p.peerInitiated id) : x < id := by
  unfold Proto.Seen at h hx
  rw [hside] at hx
  split_ifs at h hx <;> omega

theorem opensUpward_of_chain {shots : List Proto} (h : shots.IsChain Follows)
    (hd : ∀ q ∈ shots, Distinct q) : OpensUpward shots := by
  intro earlier q p later hshots t ht hnew q' hq' s hs hside
  rw [hshots] at h hd
  have hfollows : Follows q p := (List.isChain_cons_cons.1 (List.isChain_append.1 h).2.1).1
  have hages : (earlier ++ q :: p :: later).Pairwise Ages :=
    (h.imp fun _ _ hf => hf.ages).pairwise
  have hseen : q.Seen s.id := by
    rcases List.mem_append.1 hq' with hearly | hself
    · have hage := (List.pairwise_append.1 hages).2.2 q' hearly q List.mem_cons_self
      exact hage.2 _ ((hd q' (List.mem_append_left _ hearly)).seen_stream hs)
    · rw [List.mem_singleton] at hself
      rw [hself] at hs
      exact (hd q (List.mem_append_right _ List.mem_cons_self)).seen_stream hs
  obtain ⟨i, hi⟩ := List.mem_iff_getElem?.1 ht
  have hkey : p.keys[i]? = some (t.id, t.closed) := by
    rw [keys_getElem?, hi]
    rfl
  rcases hfollows.slots i t.id t.closed hkey with ⟨was, hwas, -⟩ | ⟨hunseen, -⟩
  · rw [keys_getElem?] at hwas
    obtain ⟨s', hs', hskey⟩ := Option.map_eq_some_iff.1 hwas
    exact absurd (congrArg Prod.fst hskey) (hnew s' (List.mem_of_getElem? hs'))
  · apply seen_lt hunseen hseen
    unfold Proto.peerInitiated at hside ⊢
    rw [← hfollows.mode]
    exact hside

theorem chain_slotsKept {shots : List Proto} (h : shots.IsChain Follows)
    (hd : ∀ q ∈ shots, Distinct q) : shots.IsChain SlotsKept := by
  induction shots with
  | nil => exact List.isChain_nil
  | cons q shots ih =>
    obtain ⟨hfirst, hrest⟩ := List.isChain_cons.1 h
    refine List.isChain_cons.2 ⟨fun p hp => ?_, ih hrest fun x hx => hd x (List.mem_cons_of_mem _ hx)⟩
    exact (hfirst p hp).slotsKept (hd q List.mem_cons_self)

theorem Kept.snapshots {start : Proto} {st : St σ} (h : Kept start st.page) :
    (snapshots start st).IsChain Follows ∧ ∀ q ∈ snapshots start st, Distinct q := by
  unfold Chttp.H2.snapshots
  rw [← List.cons_append]
  constructor
  · refine List.isChain_append.2 ⟨h.chain, List.isChain_singleton _, fun x hx y hy => ?_⟩
    rw [getLast?_shots] at hx
    cases hx
    cases hy
    exact h.since.toFollows
  · intro q hq
    rcases List.mem_append.1 hq with hq | hq
    · exact h.shots q hq
    · rw [List.mem_singleton] at hq
      rw [hq]
      exact h.table

theorem Kept.closedOnce {start : Proto} {st : St σ} (h : Kept start st.page) : ClosedOnce st :=
  ⟨h.most, fun id hid => h.unclosed id (open_iff.1 hid),
    fun id hid hclosed => h.gone id (fun hk => hclosed (open_iff.2 hk)) hid⟩

/-- Stream identity, in every reachable state and at every entry of the record on the way to it: the
table is sound, ids go up, slots are reused when their stream is closed, and `on_stream_close` is
invoked once for every stream that was announced and is closed. A request that succeeds has announced
its stream, in a record that only grows. -/
theorem stream_identity {A : Type*} {app : App A} {n : ℕ} {mode : Mode} {config : ProtoConfig}
    {ep : Endpoint A} (h : Reachable app n mode config ep) :
    (∃ start, protoCreate mode config = some start ∧
      (∀ p ∈ snapshots start ep.st, TableSound p) ∧ OpensUpward (snapshots start ep.st) ∧
        (snapshots start ep.st).IsChain SlotsKept) ∧
      ClosedOnce ep.st ∧
      (∀ op, ep.st.log <+: (step (app.host n) ep op).1.st.log) ∧
      ∀ (host : Host A) (st : St A) (c : Call) (id : ℕ), c.IsRequest →
        (call host st c).2 = some id → Announced (call host st c).1.log id := by
  obtain ⟨start, hcreated, hk⟩ := h.kept
  obtain ⟨hchain, hdistinct⟩ := hk.snapshots
  refine ⟨⟨start, hcreated, fun p hp => (hdistinct p hp).tableSound,
    opensUpward_of_chain hchain hdistinct, chain_slotsKept hchain hdistinct⟩, hk.closedOnce, ?_, ?_⟩
  · exact fun op => (step_turns (app.host_turning start n) hk op).grows
  · exact fun host st c id hc hid => call_announces host st hc hid

def resetRequest : Endpoint Unit :=
  run (idleApp.host 1) (smallEndpoint .client)
    [.call (.submitRequestHeaders [] true), .call (.submitRstStream 1 errCancel)]

theorem stream_identity_reset : resetRequest.st.p.streams.map Stream.id = [1] ∧
    closures resetRequest.st.log 1 = 1 ∧ ClosedOnce resetRequest.st :=
  ⟨by decide, by decide,
    (stream_identity (smallEndpoint_reachable idleApp 1 .client
      [.call (.submitRequestHeaders [] true), .call (.submitRstStream 1 errCancel)])).2.1⟩

end Chttp.H2
