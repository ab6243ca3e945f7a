import TurboUtils.Chttp.H2.SubmitAtomic

/-! The identity of streams over a run. An engine with its record is a page; every function of the
engine turns pages, and each turn keeps what is known about ids, slots and closures. -/
namespace Chttp.H2

/-! ## Ids, announcements and closures -/

def Stream.key (s : Stream) : ℕ × Bool := (s.id, s.closed)

def Proto.keys (p : Proto) : List (ℕ × Bool) := p.streams.map Stream.key

/-- The ids that have been used up on the side that opens them. -/
def Proto.Seen (p : Proto) (id : ℕ) : Prop :=
  if p.peerInitiated id = true then id ≤ p.maxPeerStreamId else id < p.nextStreamId

def Proto.OwnNext (p : Proto) : Prop := p.peerInitiated p.nextStreamId = false

/-- Ids that were reset locally, by the history of resets or by the flag of a stream. -/
def Proto.Reset (p : Proto) (id : ℕ) : Prop :=
  (id ≠ 0 ∧ id ∈ p.localResetIds) ∨ ∃ s ∈ p.streams, s.id = id ∧ s.localReset = true

def Proto.Expects (p : Proto) (id : ℕ) : Prop := p.inHeaders = true ∧ p.inHeadersStream = id

/-- The stream whose `on_stream_close` an entry of the record is. -/
def Item.closing : Item → Option ℕ
  | .callback (.streamClose id _) => some id
  | _ => none

/-- The stream an entry announces: to the peer by HEADERS, to the application by
`on_begin_headers`. -/
def Item.announcing : Item → Option ℕ
  | .out f => if f.type = .headers then some f.streamId else none
  | .callback (.beginHeaders id) => some id
  | _ => none

/-- How often `on_stream_close` was invoked for a stream. -/
def closures (log : List (Item × Proto)) (id : ℕ) : ℕ :=
  (log.filterMap fun e => e.1.closing).count id

def Announced (log : List (Item × Proto)) (id : ℕ) : Prop :=
  ∃ e ∈ log, e.1.announcing = some id

theorem closures_append (log : List (Item × Proto)) (i : Item) (q : Proto) (id : ℕ) :
    closures (log ++ [(i, q)]) id = closures log id + if i.closing = some id then 1 else 0 := by
  unfold closures
  rw [List.filterMap_append, List.count_append]
  congr 1
  cases hi : i.closing with
  | none => simp [hi]
  | some x => simp [hi, List.count_singleton]

theorem closures_note (log : List (Item × Proto)) {i : Item} (h : i.closing = none) (q : Proto)
    (id : ℕ) : closures (log ++ [(i, q)]) id = closures log id := by
  rw [closures_append, h]
  rfl

theorem announced_append {log : List (Item × Proto)} {i : Item} {q : Proto} {id : ℕ} :
    Announced (log ++ [(i, q)]) id ↔ Announced log id ∨ i.announcing = some id := by
  unfold Announced
  simp only [List.mem_append, List.mem_singleton, or_and_right, exists_or, exists_eq_left]

/-! ## Pages and the turns between them -/

structure Page where
  p : Proto
  log : List (Item × Proto)

def St.page {σ : Type*} (st : St σ) : Page := ⟨st.p, st.log⟩

/-- What no function changes, or changes in one direction only. A header block is taken up only for
a stream that is open or was reset. -/
structure Steady (p p' : Proto) : Prop where
  mode : p'.mode = p.mode
  config : p'.config = p.config
  next : p.nextStreamId ≤ p'.nextStreamId
  peer : p.maxPeerStreamId ≤ p'.maxPeerStreamId
  failed : p.failed = true → p'.failed = true
  frame : p.PeerFrameSize → p'.PeerFrameSize
  own : p.OwnNext → p'.OwnNext
  header : ∀ id, p'.Expects id → p.Expects id ∨ (id, false) ∈ p.keys ∨ p.Reset id

structure SameTable (p p' : Proto) : Prop extends Steady p p' where
  keys : p'.keys = p.keys
  resets : ∀ id, p'.Reset id → p.Reset id

/-- A stream takes the slot of a closed one or a new slot. A request that is dropped at once leaves
its stream closed. -/
structure OpensStream (p p' : Proto) (id : ℕ) (dropped : Bool) : Prop extends Steady p p' where
  serving : p.failed = false
  fresh : ¬ p.Seen id
  seen : p'.Seen id
  range : 0 < id ∧ id < 2 ^ 31
  keys : (∃ slot old, p.keys[slot]? = some (old, true) ∧ p'.keys = p.keys.set slot (id, dropped)) ∨
    (p.keys.length < p.config.streamCapacity ∧ p'.keys = p.keys ++ [(id, dropped)])
  resets : ∀ x, p'.Reset x → p.Reset x

structure ClosesStream (p p' : Proto) (id : ℕ) : Prop extends Steady p p' where
  keys : ∃ slot : ℕ, p.keys[slot]? = some (id, false) ∧ p'.keys = p.keys.set slot (id, true)
  resets : ∀ x, p'.Reset x → p.Reset x ∨ x = id

/-- The turns an engine makes. A stream is closed with its `on_stream_close`, or without it when a
request fails the engine before it is announced. -/
inductive Turn : Page → Page → Prop
  | quiet (g : Page) {p : Proto} (h : SameTable g.p p) : Turn g ⟨p, g.log⟩
  | note (g : Page) {i : Item} (hclosing : i.closing = none)
      (h : ∀ id, i.announcing = some id → (id, false) ∈ g.p.keys ∨ g.p.Expects id) :
      Turn g ⟨g.p, g.log ++ [(i, g.p)]⟩
  | opens (g : Page) {p : Proto} {id : ℕ} {dropped : Bool} (h : OpensStream g.p p id dropped) :
      Turn g ⟨p, g.log⟩
  | closes (g : Page) {p : Proto} {id : ℕ} (error : ℕ) (h : ClosesStream g.p p id) :
      Turn g ⟨p, g.log ++ [(.callback (.streamClose id error), p)]⟩
  | drops (g : Page) {p : Proto} {id : ℕ} (h : ClosesStream g.p p id) (hfailed : g.p.failed = true)
      (hnew : ¬ Announced g.log id) (hheader : ¬ p.Expects id)
      (hresets : ∀ x, p.Reset x → g.p.Reset x) : Turn g ⟨p, g.log⟩

abbrev Turns : Page → Page → Prop := Relation.ReflTransGen Turn

/-! ## Changes beside the table -/

theorem seen_mono {p p' : Proto} (hmode : p'.mode = p.mode)
    (hnext : p.nextStreamId ≤ p'.nextStreamId) (hpeer : p.maxPeerStreamId ≤ p'.maxPeerStreamId)
    {id : ℕ} (hs : p.Seen id) : p'.Seen id := by
  have hside : p'.peerInitiated id = p.peerInitiated id := by
    unfold Proto.peerInitiated
    rw [hmode]
  unfold Proto.Seen at hs ⊢
  rw [hside]
  split_ifs at hs ⊢ <;> omega

theorem Steady.seen {p p' : Proto} (h : Steady p p') {id : ℕ} (hs : p.Seen id) : p'.Seen id :=
  seen_mono h.mode h.next h.peer hs

theorem Steady.refl (p : Proto) : Steady p p :=
  ⟨rfl, rfl, le_refl _, le_refl _, id, id, id, fun _ h => Or.inl h⟩

theorem SameTable.refl (p : Proto) : SameTable p p := ⟨.refl p, rfl, fun _ h => h⟩

theorem SameTable.trans {p p' p'' : Proto} (h : SameTable p p') (h' : SameTable p' p'') : SameTable p p'' where
  mode := h'.mode.trans h.mode
  config := h'.config.trans h.config
  next := h.next.trans h'.next
  peer := h.peer.trans h'.peer
  failed hf := h'.failed (h.failed hf)
  frame hf := h'.frame (h.frame hf)
  own hown := h'.own (h.own hown)
  header id hid := by
    rcases h'.header id hid with hid | hid | hid
    · exact h.header id hid
    · exact Or.inr (Or.inl (h.keys ▸ hid))
    · exact Or.inr (Or.inr (h.resets id hid))
  keys := h'.keys.trans h.keys
  resets id hid := h.resets id (h'.resets id hid)

/-! ## What every turn keeps -/

/-- A table that is well formed: within its capacity, and with different ids in range that have been
used up. -/
structure Distinct (p : Proto) : Prop where
  size : p.keys.length ≤ p.config.streamCapacity
  ids : (p.keys.map Prod.fst).Nodup
  range : ∀ k ∈ p.keys, 0 < k.1 ∧ k.1 < 2 ^ 31 ∧ p.Seen k.1

/-- The table of a later engine: a slot keeps its stream, or a new stream took it and the old one was
closed. -/
structure Follows (q p : Proto) : Prop where
  mode : p.mode = q.mode
  next : q.nextStreamId ≤ p.nextStreamId
  peer : q.maxPeerStreamId ≤ p.maxPeerStreamId
  length : q.keys.length ≤ p.keys.length
  slots : ∀ (slot id : ℕ) (closed : Bool), p.keys[slot]? = some (id, closed) →
    (∃ was, q.keys[slot]? = some (id, was) ∧ (was = true → closed = true)) ∨
      (¬ q.Seen id ∧ ∀ key, q.keys[slot]? = some key → key.2 = true)

/-- As long as nothing is recorded a stream is not closed, unless the engine has failed. -/
structure Since (q p : Proto) : Prop extends Follows q p where
  still : ∀ (slot id : ℕ) (was closed : Bool), q.keys[slot]? = some (id, was) →
    p.keys[slot]? = some (id, closed) → was = closed ∨ p.failed = true

def latest (start : Proto) (log : List (Item × Proto)) : Proto :=
  (log.getLast?.map Prod.snd).getD start

/-- What is known of a page: the table, who was announced and closed, and the engines that the
record shows. -/
structure Kept (start : Proto) (g : Page) : Prop where
  table : Distinct g.p
  frame : g.p.PeerFrameSize
  own : 0 < g.p.nextStreamId ∧ g.p.OwnNext
  known : ∀ id, Announced g.log id ∨ closures g.log id ≠ 0 → g.p.Seen id
  most : ∀ id, closures g.log id ≤ 1
  unclosed : ∀ id, (id, false) ∈ g.p.keys → closures g.log id = 0
  gone : ∀ id, (id, false) ∉ g.p.keys → Announced g.log id → closures g.log id = 1
  resets : ∀ id, g.p.Reset id → closures g.log id = 1
  header : ∀ id, g.p.Expects id → (id, false) ∈ g.p.keys ∨ closures g.log id = 1
  shots : ∀ q ∈ start :: g.log.map Prod.snd, Distinct q
  chain : (start :: g.log.map Prod.snd).IsChain Follows
  since : Since (latest start g.log) g.p

theorem Since.refl (p : Proto) : Since p p where
  mode := rfl
  next := le_refl _
  peer := le_refl _
  length := le_refl _
  slots slot id closed h := Or.inl ⟨closed, h, fun h => h⟩
  still slot id was closed hwas h := by
    rw [hwas] at h
    cases h
    exact Or.inl rfl

theorem latest_append (start : Proto) (log : List (Item × Proto)) (i : Item) (q : Proto) :
    latest start (log ++ [(i, q)]) = q := by
  simp [latest]

theorem getLast?_shots (start : Proto) (log : List (Item × Proto)) :
    (start :: log.map Prod.snd).getLast? = some (latest start log) := by
  unfold latest
  rw [List.getLast?_cons, List.getLast?_map]

theorem chain_append {start : Proto} {log : List (Item × Proto)} {i : Item} {q : Proto}
    (h : (start :: log.map Prod.snd).IsChain Follows) (hq : Follows (latest start log) q) :
    (start :: (log ++ [(i, q)]).map Prod.snd).IsChain Follows := by
  have hshots : start :: (log ++ [(i, q)]).map Prod.snd = (start :: log.map Prod.snd) ++ [q] := by
    simp
  rw [hshots, List.isChain_append]
  refine ⟨h, List.isChain_singleton q, fun x hx y hy => ?_⟩
  rw [getLast?_shots] at hx
  cases hx
  cases hy
  exact hq

theorem shots_append {start : Proto} {log : List (Item × Proto)} {i : Item} {q : Proto}
    (h : ∀ x ∈ start :: log.map Prod.snd, Distinct x) (hq : Distinct q) :
    ∀ x ∈ start :: (log ++ [(i, q)]).map Prod.snd, Distinct x := by
  intro x hx
  rw [List.map_append, ← List.cons_append, List.mem_append] at hx
  rcases hx with hx | hx
  · exact h x hx
  · rw [List.map_singleton, List.mem_singleton] at hx
    rw [hx]
    exact hq

section turns

variable {start : Proto} {g : Page}

theorem Distinct.seen {p : Proto} (h : Distinct p) {id : ℕ} {closed : Bool}
    (hk : (id, closed) ∈ p.keys) : p.Seen id :=
  (h.range _ hk).2.2

theorem Distinct.unique {p : Proto} (h : Distinct p) {i j id : ℕ} {a b : Bool}
    (hi : p.keys[i]? = some (id, a)) (hj : p.keys[j]? = some (id, b)) : i = j ∧ a = b := by
  obtain ⟨hlt, hi'⟩ := List.getElem?_eq_some_iff.1 hi
  obtain ⟨hlt', hj'⟩ := List.getElem?_eq_some_iff.1 hj
  have hij : i = j := by
    have hl : i < (p.keys.map Prod.fst).length := by rw [List.length_map]; exact hlt
    have hl' : j < (p.keys.map Prod.fst).length := by rw [List.length_map]; exact hlt'
    have heq : (p.keys.map Prod.fst)[i] = (p.keys.map Prod.fst)[j] := by
      rw [List.getElem_map, List.getElem_map, hi', hj']
    exact h.ids.getElem_inj_iff.1 heq
  subst hij
  rw [hi] at hj
  cases hj
  exact ⟨rfl, rfl⟩

theorem Follows.seen {q p : Proto} (h : Follows q p) {id : ℕ} (hs : q.Seen id) : p.Seen id :=
  seen_mono h.mode h.next h.peer hs

theorem Kept.latest_distinct (h : Kept start g) : Distinct (latest start g.log) :=
  h.shots _ (List.mem_of_getLast? (getLast?_shots start g.log))

theorem keeps_quiet (h : Kept start g) {p : Proto} (hp : SameTable g.p p) :
    Kept start ⟨p, g.log⟩ where
  table := by
    refine ⟨?_, ?_, ?_⟩
    · rw [hp.keys, hp.config]
      exact h.table.size
    · rw [hp.keys]
      exact h.table.ids
    · rw [hp.keys]
      intro k hk
      obtain ⟨h0, hmax, hseen⟩ := h.table.range k hk
      exact ⟨h0, hmax, hp.seen hseen⟩
  frame := hp.frame h.frame
  own := ⟨h.own.1.trans_le hp.next, hp.own h.own.2⟩
  known id hid := hp.seen (h.known id hid)
  most := h.most
  unclosed id hid := h.unclosed id (hp.keys ▸ hid)
  gone id hid := h.gone id (hp.keys ▸ hid)
  resets id hid := h.resets id (hp.resets id hid)
  header id hid := by
    rw [hp.keys]
    rcases hp.header id hid with hid | hid | hid
    · exact h.header id hid
    · exact Or.inl hid
    · exact Or.inr (h.resets id hid)
  shots := h.shots
  chain := h.chain
  since := by
    have hs := h.since
    refine ⟨⟨hp.mode.trans hs.mode, hs.next.trans hp.next, hs.peer.trans hp.peer, ?_, ?_⟩, ?_⟩
    · rw [hp.keys]
      exact hs.length
    · rw [hp.keys]
      exact hs.slots
    · rw [hp.keys]
      intro slot id was closed hwas hclosed
      exact (hs.still slot id was closed hwas hclosed).imp_right hp.failed

theorem keeps_note (h : Kept start g) {i : Item} (hclosing : i.closing = none)
    (hi : ∀ id, i.announcing = some id → (id, false) ∈ g.p.keys ∨ g.p.Expects id) :
    Kept start ⟨g.p, g.log ++ [(i, g.p)]⟩ := by
  have hcount : ∀ id, closures (g.log ++ [(i, g.p)]) id = closures g.log id :=
    closures_note g.log hclosing g.p
  have hopen : ∀ id, i.announcing = some id → (id, false) ∈ g.p.keys ∨ closures g.log id = 1 := by
    intro id hid
    rcases hi id hid with hk | hexpects
    · exact Or.inl hk
    · exact h.header id hexpects
  constructor
  case table => exact h.table
  case frame => exact h.frame
  case own => exact h.own
  case known =>
    intro id hid
    rw [announced_append, hcount] at hid
    rcases hid with (hid | hid) | hid
    · exact h.known id (Or.inl hid)
    · rcases hopen id hid with hk | hone
      · exact h.table.seen hk
      · exact h.known id (Or.inr (by omega))
    · exact h.known id (Or.inr hid)
  case most => exact fun id => (hcount id).trans_le (h.most id)
  case unclosed => exact fun id hid => (hcount id).trans (h.unclosed id hid)
  case gone =>
    intro id hid hann
    rw [announced_append] at hann
    rw [hcount]
    rcases hann with hann | hann
    · exact h.gone id hid hann
    · exact (hopen id hann).resolve_left hid
  case resets => exact fun id hid => (hcount id).trans (h.resets id hid)
  case header => exact fun id hid => (h.header id hid).imp_right (hcount id).trans
  case shots => exact shots_append h.shots h.table
  case chain => exact chain_append h.chain h.since.toFollows
  case since =>
    rw [latest_append]
    exact .refl _

/-- The slots of a table with a new stream. -/
theorem OpensStream.slot_cases {q p : Proto} {id : ℕ} {dropped : Bool}
    (h : OpensStream q p id dropped) {slot x : ℕ} {closed : Bool}
    (hk : p.keys[slot]? = some (x, closed)) :
    q.keys[slot]? = some (x, closed) ∨
      (x = id ∧ closed = dropped ∧ ∀ key, q.keys[slot]? = some key → key.2 = true) := by
  rcases h.keys with ⟨i, old, hold, hkeys⟩ | ⟨-, hkeys⟩
  · rw [hkeys, List.getElem?_set] at hk
    split_ifs at hk with hi hlt
    · subst hi
      cases hk
      refine Or.inr ⟨rfl, rfl, fun key hkey => ?_⟩
      rw [hold] at hkey
      cases hkey
      rfl
    · exact Or.inl hk
  · rw [hkeys, List.getElem?_append] at hk
    split_ifs at hk with hlt
    · exact Or.inl hk
    · rw [List.getElem?_singleton] at hk
      split_ifs at hk with hlast
      cases hk
      refine Or.inr ⟨rfl, rfl, fun key hkey => ?_⟩
      rw [List.getElem?_eq_none (Nat.not_lt.1 hlt)] at hkey
      cases hkey

theorem OpensStream.kept_slot {q p : Proto} {id : ℕ} {dropped : Bool}
    (h : OpensStream q p id dropped) {slot x : ℕ} (hk : q.keys[slot]? = some (x, false)) :
    p.keys[slot]? = some (x, false) := by
  rcases h.keys with ⟨i, old, hold, hkeys⟩ | ⟨-, hkeys⟩
  · rw [hkeys, List.getElem?_set]
    by_cases hi : i = slot
    · subst hi
      rw [hold] at hk
      cases hk
    · rw [if_neg hi]
      exact hk
  · rw [hkeys, List.getElem?_append, if_pos (List.getElem?_eq_some_iff.1 hk).1]
    exact hk

theorem OpensStream.length {q p : Proto} {id : ℕ} {dropped : Bool}
    (h : OpensStream q p id dropped) : q.keys.length ≤ p.keys.length := by
  rcases h.keys with ⟨i, old, -, hkeys⟩ | ⟨-, hkeys⟩
  · rw [hkeys, List.length_set]
  · rw [hkeys, List.length_append]
    exact Nat.le_add_right _ _

/-- The table with a new stream is well formed. -/
theorem OpensStream.distinct {q p : Proto} {id : ℕ} {dropped : Bool}
    (h : OpensStream q p id dropped) (hq : Distinct q) : Distinct p := by
  have hnew : id ∉ q.keys.map Prod.fst := by
    intro hmem
    obtain ⟨k, hk, rfl⟩ := List.mem_map.1 hmem
    exact h.fresh (hq.range k hk).2.2
  constructor
  · rw [h.config]
    rcases h.keys with ⟨i, old, -, hkeys⟩ | ⟨hroom, hkeys⟩
    · rw [hkeys, List.length_set]
      exact hq.size
    · rw [hkeys, List.length_append]
      exact hroom
  · rcases h.keys with ⟨i, old, -, hkeys⟩ | ⟨-, hkeys⟩
    · rw [hkeys, List.map_set]
      exact hq.ids.set hnew
    · rw [hkeys, List.map_append, List.nodup_append']
      exact ⟨hq.ids, List.nodup_singleton _, by simpa using hnew⟩
  · intro k hk
    obtain ⟨slot, hslot⟩ := List.mem_iff_getElem?.1 hk
    obtain ⟨x, closed⟩ := k
    rcases h.slot_cases hslot with hold | ⟨rfl, -, -⟩
    · obtain ⟨h0, hmax, hseen⟩ := hq.range _ (List.mem_of_getElem? hold)
      exact ⟨h0, hmax, h.toSteady.seen hseen⟩
    · exact ⟨h.range.1, h.range.2, h.seen⟩

theorem keeps_opens (h : Kept start g) {p : Proto} {id : ℕ} {dropped : Bool}
    (hp : OpensStream g.p p id dropped) : Kept start ⟨p, g.log⟩ := by
  have hunknown : ¬ (Announced g.log id ∨ closures g.log id ≠ 0) := fun hid => hp.fresh (h.known id hid)
  obtain ⟨hnot, hzero⟩ := not_or.1 hunknown
  have hkeep : ∀ x, (x, false) ∈ g.p.keys → (x, false) ∈ p.keys := by
    intro x hx
    obtain ⟨slot, hslot⟩ := List.mem_iff_getElem?.1 hx
    exact List.mem_of_getElem? (hp.kept_slot hslot)
  constructor
  case table => exact hp.distinct h.table
  case frame => exact hp.frame h.frame
  case own => exact ⟨h.own.1.trans_le hp.next, hp.own h.own.2⟩
  case known => exact fun x hx => hp.toSteady.seen (h.known x hx)
  case most => exact h.most
  case unclosed =>
    intro x hx
    obtain ⟨slot, hslot⟩ := List.mem_iff_getElem?.1 hx
    rcases hp.slot_cases hslot with hold | ⟨rfl, -, -⟩
    · exact h.unclosed x (List.mem_of_getElem? hold)
    · exact not_not.1 hzero
  case gone => exact fun x hx => h.gone x fun hold => hx (hkeep x hold)
  case resets => exact fun x hx => h.resets x (hp.resets x hx)
  case header =>
    intro x hx
    rcases hp.header x hx with hx | hx | hx
    · exact (h.header x hx).imp_left (hkeep x)
    · exact Or.inl (hkeep x hx)
    · exact Or.inr (h.resets x hx)
  case shots => exact h.shots
  case chain => exact h.chain
  case since =>
    have hs := h.since
    refine ⟨⟨hp.mode.trans hs.mode, hs.next.trans hp.next, hs.peer.trans hp.peer,
      hs.length.trans hp.length, fun slot x closed hx => ?_⟩, fun slot x was closed hwas hx => ?_⟩
    · rcases hp.slot_cases hx with hold | ⟨rfl, -, hclosed⟩
      · exact hs.slots slot x closed hold
      · refine Or.inr ⟨fun hseen => hp.fresh (hs.toFollows.seen hseen), fun key hkey => ?_⟩
        -- the slot was there at the latest entry, and its stream was closed then
        have hlt : slot < g.p.keys.length :=
          lt_of_lt_of_le (List.getElem?_eq_some_iff.1 hkey).1 hs.length
        obtain ⟨old, was⟩ := key
        obtain ⟨now, hnow⟩ : ∃ now, g.p.keys[slot]? = some now := ⟨_, List.getElem?_eq_getElem hlt⟩
        obtain ⟨y, closed'⟩ := now
        have hclosed' : closed' = true := hclosed _ hnow
        rcases hs.slots slot y closed' hnow with ⟨was', hwas', -⟩ | ⟨-, hall⟩
        · rw [hkey] at hwas'
          cases hwas'
          rcases hs.still slot _ _ _ hkey hnow with heq | hfailed
          · rw [heq]
            exact hclosed'
          · rw [hp.serving] at hfailed
            cases hfailed
        · exact hall _ hkey
    · rcases hp.slot_cases hx with hold | ⟨rfl, -, -⟩
      · exact (hs.still slot x was closed hwas hold).imp_right hp.failed
      · exact absurd (hs.toFollows.seen (h.latest_distinct.seen (List.mem_of_getElem? hwas))) hp.fresh

theorem ClosesStream.slot_cases {q p : Proto} {id : ℕ} (h : ClosesStream q p id) {slot x : ℕ}
    {closed : Bool} (hk : p.keys[slot]? = some (x, closed)) :
    q.keys[slot]? = some (x, closed) ∨
      (x = id ∧ closed = true ∧ q.keys[slot]? = some (id, false)) := by
  obtain ⟨i, hopen, hkeys⟩ := h.keys
  rw [hkeys, List.getElem?_set] at hk
  split_ifs at hk with hi hlt
  · subst hi
    cases hk
    exact Or.inr ⟨rfl, rfl, hopen⟩
  · exact Or.inl hk

/-- The other open streams stay open, and no others are. -/
theorem ClosesStream.open_iff {q p : Proto} {id : ℕ} (h : ClosesStream q p id) (hq : Distinct q)
    {x : ℕ} : (x, false) ∈ p.keys ↔ (x, false) ∈ q.keys ∧ x ≠ id := by
  obtain ⟨i, hopen, hkeys⟩ := h.keys
  constructor
  · intro hx
    obtain ⟨slot, hslot⟩ := List.mem_iff_getElem?.1 hx
    rcases h.slot_cases hslot with hold | ⟨-, hno, -⟩
    · refine ⟨List.mem_of_getElem? hold, ?_⟩
      rintro rfl
      obtain ⟨rfl, -⟩ := hq.unique hold hopen
      rw [hkeys, List.getElem?_set_self (List.getElem?_eq_some_iff.1 hopen).1] at hslot
      cases hslot
    · cases hno
  · rintro ⟨hx, hne⟩
    obtain ⟨slot, hslot⟩ := List.mem_iff_getElem?.1 hx
    have hi : i ≠ slot := by
      rintro rfl
      rw [hopen] at hslot
      cases hslot
      exact hne rfl
    apply @List.mem_of_getElem? _ _ slot
    rw [hkeys, List.getElem?_set_ne hi]
    exact hslot

theorem ClosesStream.distinct {q p : Proto} {id : ℕ} (h : ClosesStream q p id) (hq : Distinct q) :
    Distinct p := by
  obtain ⟨i, hopen, hkeys⟩ := h.keys
  have hids : p.keys.map Prod.fst = q.keys.map Prod.fst := by
    rw [hkeys, List.map_set]
    apply List.ext_getElem?
    intro j
    rw [List.getElem?_set]
    split_ifs with hj hlt
    · subst hj
      rw [List.getElem?_map, hopen]
      rfl
    · subst hj
      rw [List.getElem?_eq_none (Nat.not_lt.1 hlt)]
    · rfl
  constructor
  · rw [hkeys, List.length_set, h.config]
    exact hq.size
  · rw [hids]
    exact hq.ids
  · intro k hk
    have hmem : k.1 ∈ q.keys.map Prod.fst := hids ▸ List.mem_map_of_mem hk
    obtain ⟨k', hk', hfst⟩ := List.mem_map.1 hmem
    obtain ⟨h0, hmax, hseen⟩ := hq.range k' hk'
    rw [hfst] at h0 hmax hseen
    exact ⟨h0, hmax, h.toSteady.seen hseen⟩

theorem ClosesStream.follows {q₀ q p : Proto} {id : ℕ} (h : ClosesStream q p id)
    (hs : Follows q₀ q) : Follows q₀ p := by
  obtain ⟨i, hopen, hkeys⟩ := h.keys
  refine ⟨h.mode.trans hs.mode, hs.next.trans h.next, hs.peer.trans h.peer, ?_, ?_⟩
  · rw [hkeys, List.length_set]
    exact hs.length
  · intro slot x closed hx
    rcases h.slot_cases hx with hold | ⟨rfl, rfl, hold⟩
    · exact hs.slots slot x closed hold
    · rcases hs.slots slot x false hold with ⟨was, hwas, -⟩ | hnew
      · exact Or.inl ⟨was, hwas, fun _ => rfl⟩
      · exact Or.inr hnew

theorem keeps_closes (h : Kept start g) {p : Proto} {id error : ℕ} (hp : ClosesStream g.p p id) :
    Kept start ⟨p, g.log ++ [(.callback (.streamClose id error), p)]⟩ := by
  obtain ⟨slot, hopen, -⟩ := hp.keys
  have hmem : (id, false) ∈ g.p.keys := List.mem_of_getElem? hopen
  have hcount : ∀ x, closures (g.log ++ [(.callback (.streamClose id error), p)]) x =
      closures g.log x + if id = x then 1 else 0 := by
    intro x
    rw [closures_append]
    simp only [Item.closing, Option.some.injEq]
  have hone : closures (g.log ++ [(.callback (.streamClose id error), p)]) id = 1 := by
    rw [hcount, h.unclosed id hmem, if_pos rfl]
  have hother : ∀ x, x ≠ id → closures (g.log ++ [(.callback (.streamClose id error), p)]) x =
      closures g.log x := by
    intro x hx
    rw [hcount, if_neg (Ne.symm hx), Nat.add_zero]
  have hann : ∀ x, Announced (g.log ++ [(.callback (.streamClose id error), p)]) x ↔
      Announced g.log x := by
    intro x
    rw [announced_append, or_iff_left]
    rintro ⟨⟩
  have hdistinct := hp.distinct h.table
  constructor
  case table => exact hdistinct
  case frame => exact hp.frame h.frame
  case own => exact ⟨h.own.1.trans_le hp.next, hp.own h.own.2⟩
  case known =>
    intro x hx
    by_cases hid : x = id
    · rw [hid]
      exact hp.toSteady.seen (h.table.seen hmem)
    · rw [hann, hother x hid] at hx
      exact hp.toSteady.seen (h.known x hx)
  case most =>
    intro x
    by_cases hid : x = id
    · rw [hid]
      exact le_of_eq hone
    · rw [hother x hid]
      exact h.most x
  case unclosed =>
    intro x hx
    obtain ⟨hx, hid⟩ := (hp.open_iff h.table).1 hx
    rw [hother x hid]
    exact h.unclosed x hx
  case gone =>
    intro x hx hax
    by_cases hid : x = id
    · rw [hid]
      exact hone
    · rw [hother x hid]
      exact h.gone x (fun hold => hx ((hp.open_iff h.table).2 ⟨hold, hid⟩)) ((hann x).1 hax)
  case resets =>
    intro x hx
    by_cases hid : x = id
    · rw [hid]
      exact hone
    · rw [hother x hid]
      exact h.resets x ((hp.resets x hx).resolve_right hid)
  case header =>
    intro x hx
    by_cases hid : x = id
    · rw [hid]
      exact Or.inr hone
    · rw [hother x hid, hp.open_iff h.table]
      rcases hp.header x hx with hx | hx | hx
      · exact (h.header x hx).imp_left fun hold => ⟨hold, hid⟩
      · exact Or.inl ⟨hx, hid⟩
      · exact Or.inr (h.resets x hx)
  case shots => exact shots_append h.shots hdistinct
  case chain => exact chain_append h.chain (hp.follows h.since.toFollows)
  case since =>
    rw [latest_append]
    exact .refl _

theorem keeps_drops (h : Kept start g) {p : Proto} {id : ℕ} (hp : ClosesStream g.p p id)
    (hfailed : g.p.failed = true) (hnew : ¬ Announced g.log id) (hheader : ¬ p.Expects id)
    (hresets : ∀ x, p.Reset x → g.p.Reset x) : Kept start ⟨p, g.log⟩ := by
  obtain ⟨slot, hopen, -⟩ := hp.keys
  have hmem : (id, false) ∈ g.p.keys := List.mem_of_getElem? hopen
  constructor
  case table => exact hp.distinct h.table
  case frame => exact hp.frame h.frame
  case own => exact ⟨h.own.1.trans_le hp.next, hp.own h.own.2⟩
  case known => exact fun x hx => hp.toSteady.seen (h.known x hx)
  case most => exact h.most
  case unclosed => exact fun x hx => h.unclosed x ((hp.open_iff h.table).1 hx).1
  case gone =>
    intro x hx hax
    have hid : x ≠ id := by
      rintro rfl
      exact hnew hax
    exact h.gone x (fun hold => hx ((hp.open_iff h.table).2 ⟨hold, hid⟩)) hax
  case resets => exact fun x hx => h.resets x (hresets x hx)
  case header =>
    intro x hx
    have hid : x ≠ id := by
      rintro rfl
      exact hheader hx
    rw [hp.open_iff h.table]
    rcases hp.header x hx with hx | hx | hx
    · exact (h.header x hx).imp_left fun hold => ⟨hold, hid⟩
    · exact Or.inl ⟨hx, hid⟩
    · exact Or.inr (h.resets x hx)
  case shots => exact h.shots
  case chain => exact h.chain
  case since =>
    refine ⟨hp.follows h.since.toFollows, fun slot x was closed hwas hx => Or.inr (hp.failed hfailed)⟩

theorem Turn.keeps {g' : Page} (ht : Turn g g') (h : Kept start g) : Kept start g' := by
  cases ht with
  | quiet hp => exact keeps_quiet h hp
  | note hclosing hi => exact keeps_note h hclosing hi
  | opens hp => exact keeps_opens h hp
  | closes error hp => exact keeps_closes h hp
  | drops hp hfailed hnew hheader hresets =>
    exact keeps_drops h hp hfailed hnew hheader hresets

theorem Turns.keeps {g' : Page} (ht : Turns g g') (h : Kept start g) : Kept start g' := by
  induction ht with
  | refl => exact h
  | tail _ hturn ih => exact hturn.keeps ih

end turns

end Chttp.H2
