import TurboUtils.Concurrency.Disruptor.Publication

/-! Broadcast: every registered consumer is handed every sequence claimed after it joined. -/
namespace Concurrency.Disruptor

open GapCursor (Gap Settled)

/-- A registered consumer: the sequence it starts from, the last sequence claimed before it
joined, the sequences it was handed and has released, and those it was handed last. -/
structure Member where
  first : ℕ
  joined : ℕ
  delivered : List ℕ
  batch : List ℕ
  deriving DecidableEq

/-- Where the consumer waits from: its first sequence, then the one after the last released. -/
def Member.next (m : Member) : ℕ :=
  match m.delivered.getLast? with
  | none => m.first
  | some sequence => sequence + 1

/-- A broadcast disruptor with its users: the sequences claimed and not published, and the
consumer in each slot. -/
structure Cast where
  d : Disruptor
  pending : Finset ℕ
  members : ℕ → Option Member

inductive CastOp where
  | register (fails : ℕ → Bool)
  | unregister (slot : ℕ)
  | claim (count : ℕ)
  | publish (first last : ℕ)
  | wait (slot : ℕ)
  | release (slot sequence : ℕ)

/-- One step; `none` when its user may not take it. -/
def Cast.step (s : Cast) : CastOp → Option Cast
  | .register fails =>
      match consumerTryRegister s.d fails with
      | (d, none) => some { s with d }
      | (d, some (slot, next)) =>
          some { s with
            d
            members := Function.update s.members slot
              (some ⟨next, s.d.writeCursor, [], []⟩) }
  | .unregister slot =>
      some { s with
        d := consumerUnregister s.d slot
        members := Function.update s.members slot none }
  | .claim count =>
      match tryClaimRange s.d count with
      | (d, none) => some { s with d }
      | (d, some (first, last)) =>
          some { s with d, pending := s.pending ∪ Finset.Icc first last }
  | .publish first last =>
      if first ≤ last ∧ Finset.Icc first last ⊆ s.pending then
        some { s with
          d := publishRange s.d first last
          pending := s.pending \ Finset.Icc first last }
      else none
  | .wait slot =>
      match s.members slot with
      | none => none
      | some m =>
          match consumerWaitFor s.d slot m.next with
          | none => some s
          | some available =>
              some { s with
                members := Function.update s.members slot
                  (some { m with batch := List.range' m.next (available + 1 - m.next) }) }
  | .release slot sequence =>
      match s.members slot with
      | none => none
      | some m =>
          if sequence ∈ m.batch then
            some { s with
              d := consumerReleaseEntry s.d slot sequence
              members := Function.update s.members slot
                (some { m with
                  delivered := m.delivered ++ m.batch.filter (· ≤ sequence)
                  batch := m.batch.filter (sequence < ·) }) }
          else none

def Cast.start (d : Disruptor) : Cast := ⟨d, ∅, fun _ => none⟩

/-- The states that runs reach whose steps are all allowed where they are taken. -/
inductive Cast.Reaches (allowed : Cast → CastOp → Prop) (d : Disruptor) : Cast → Prop
  | start : Reaches allowed d (.start d)
  | step {s s' : Cast} {op : CastOp} : Reaches allowed d s → allowed s op → s.step op = some s' →
      Reaches allowed d s'

/-- What a consumer is handed is one run of sequences without gap or repetition, from a sequence
no later than the first claimed after it joined; it holds published sequences only, and reaches
every sequence up to which all is published; and no sequence is granted to a producer before
the one a lap earlier is released by every consumer it was for. -/
structure Cast.Delivers (s : Cast) : Prop where
  order : ∀ slot m, s.members slot = some m →
    ∃ n, m.delivered ++ m.batch = List.range' m.first n
  fromJoin : ∀ slot m, s.members slot = some m → m.first ≤ m.joined + 1
  published : ∀ slot m, s.members slot = some m → ∀ x ∈ m.delivered ++ m.batch,
    1 ≤ x ∧ x ≤ s.d.writeCursor ∧ x ∉ s.pending
  reached : ∀ slot m, s.members slot = some m → ∀ x, m.next ≤ x → x ≤ s.d.writeCursor →
    (∀ y ≤ x, y ∉ s.pending) → ∃ a, consumerWaitFor s.d slot m.next = some a ∧ x ≤ a
  released : ∀ count first last, (tryClaimRange s.d count).2 = some (first, last) →
    ∀ slot m, s.members slot = some m → ∀ x, first ≤ x → x ≤ last →
      x ≤ s.d.capacity ∨ x - s.d.capacity < m.first ∨ x - s.d.capacity ∈ m.delivered

/-! ## When the missing consumer's stand-in is sound -/

/-- No consumer is registered, in slots other than `slot`. -/
def NoOther (d : Disruptor) (slot : ℕ) : Prop :=
  ∀ i < d.consumerCapacity, i ≠ slot → d.consumerCursors i = vacant

/-- The cursor that stands in for the consumers when none is registered keeps to what is
published: a claim that refreshes the slowest reader without one finds the last multiple of the
capacity at most one past the published cursor, and so does the unregistration of the last
consumer, where that multiple is already claimed. The largest `uint64_t` is not claimed. -/
def Cast.StandInPublished (s : Cast) : CastOp → Prop
  | .claim count => s.d.writeCursor + count ≠ uint64Max ∧
      (NoOther s.d s.d.consumerCapacity →
        s.d.capacity < Word.sub 64 (s.d.writeCursor + count) s.d.slowestConsumer →
        s.d.writeCursor + count - s.d.ringIndex (s.d.writeCursor + count) ≤ s.d.maxReadCursor + 1)
  | .unregister slot => s.d.consumerIsRegistered slot = true → NoOther s.d slot →
      s.d.writeCursor + 1 - s.d.ringIndex (s.d.writeCursor + 1) ≤ s.d.maxReadCursor + 1 ∧
        s.d.writeCursor + 1 - s.d.ringIndex (s.d.writeCursor + 1) ≤ s.d.writeCursor
  | _ => True

/-! ## The slowest cursor -/

theorem foldl_min_spec (f : ℕ → ℕ) (l : List ℕ) (b : ℕ) :
    l.foldl (fun acc i => min (f i) acc) b ≤ b ∧
      (∀ i ∈ l, l.foldl (fun acc i => min (f i) acc) b ≤ f i) ∧
      (l.foldl (fun acc i => min (f i) acc) b = b ∨
        ∃ i ∈ l, l.foldl (fun acc i => min (f i) acc) b = f i) := by
  induction l generalizing b with
  | nil => simp
  | cons x l ih =>
    obtain ⟨hle, hall, hsome⟩ := ih (min (f x) b)
    rw [List.foldl_cons]
    refine ⟨by omega, fun i hi => ?_, ?_⟩
    · rcases List.mem_cons.mp hi with rfl | hi
      · omega
      · exact hall i hi
    · rcases hsome with heq | ⟨i, hi, heq⟩
      · rcases Nat.le_total (f x) b with hx | hx
        · exact .inr ⟨x, .head _, by omega⟩
        · exact .inl (by omega)
      · exact .inr ⟨i, .tail _ hi, heq⟩

variable {d : Disruptor}

theorem slowestCursor_le (d : Disruptor) {i : ℕ} (hi : i < d.consumerCapacity) :
    d.slowestCursor ≤ d.consumerCursors i :=
  (foldl_min_spec d.consumerCursors _ vacant).2.1 i (List.mem_range.mpr hi)

theorem slowestCursor_cases (d : Disruptor) :
    (d.slowestCursor = vacant ∧ ∀ i < d.consumerCapacity, vacant ≤ d.consumerCursors i) ∨
      (d.slowestCursor ≠ vacant ∧
        ∃ i < d.consumerCapacity, d.slowestCursor = d.consumerCursors i) := by
  by_cases heq : d.slowestCursor = vacant
  · exact .inl ⟨heq, fun i hi => heq ▸ slowestCursor_le d hi⟩
  · right
    refine ⟨heq, ?_⟩
    rcases (foldl_min_spec d.consumerCursors (List.range d.consumerCapacity) vacant).2.2 with
      hb | ⟨i, hi, h⟩
    · exact absurd hb heq
    · exact ⟨i, List.mem_range.mp hi, h⟩

theorem range'_join {a b c : ℕ} (hab : a ≤ b) (hbc : b ≤ c) :
    List.range' a (b - a) ++ List.range' b (c - b) = List.range' a (c - a) := by
  obtain ⟨m, rfl⟩ := Nat.exists_eq_add_of_le hab
  obtain ⟨n, rfl⟩ := Nat.exists_eq_add_of_le hbc
  have happend := @List.range'_append a m n 1
  rw [Nat.one_mul] at happend
  rw [Nat.add_sub_cancel_left, Nat.add_sub_cancel_left, Nat.add_assoc, Nat.add_sub_cancel_left,
    happend]

/-! ## The invariant -/

/-- A consumer whose cursor is at `r`: it has released everything up to there, and was handed a
published run from the next sequence on. -/
structure Member.Ok (m : Member) (d : Disruptor) (r : ℕ) : Prop where
  first_pos : 1 ≤ m.first
  first_le : m.first ≤ r + 1
  fromJoin : m.first ≤ m.joined + 1
  slowest_le : d.slowestConsumer ≤ r
  le_write : r ≤ d.writeCursor
  le_next : r ≤ d.maxReadCursor + 1
  delivered_le : m.first ≤ r → r ≤ d.maxReadCursor
  delivered_eq : m.delivered = List.range' m.first (r + 1 - m.first)
  batch_eq : ∃ k, m.batch = List.range' (r + 1) k ∧ (k ≠ 0 → r + k ≤ d.maxReadCursor)

structure Cast.Inv (s : Cast) : Prop where
  mode : s.d.mode = .broadcast
  independent : ∀ slot, s.d.consumerDependencies slot = []
  publishing : Publishing s.d s.pending
  slowest_next : s.d.slowestConsumer ≤ s.d.maxReadCursor + 1
  slowest_write : s.d.slowestConsumer ≤ s.d.writeCursor
  write_le : s.d.writeCursor ≤ s.d.slowestConsumer + s.d.capacity
  vacancy : ∀ slot, s.members slot = none → s.d.consumerCursors slot = vacant
  member : ∀ slot m, s.members slot = some m →
    slot < s.d.consumerCapacity ∧ m.Ok s.d (s.d.consumerCursors slot)

theorem Member.Ok.next_eq {m : Member} {r : ℕ} (h : m.Ok d r) : m.next = r + 1 := by
  have hfirst := h.first_le
  unfold Member.next
  rw [h.delivered_eq]
  rcases Nat.eq_or_lt_of_le hfirst with heq | hlt
  · rw [← heq, Nat.sub_self]
    rfl
  · rw [show r + 1 - m.first = (r - m.first) + 1 by omega, List.range'_concat,
      List.getLast?_concat]
    dsimp only
    omega

theorem Member.Ok.mono {m : Member} {r : ℕ} {d' : Disruptor} (h : m.Ok d r)
    (hslow : d'.slowestConsumer ≤ r) (hwrite : d.writeCursor ≤ d'.writeCursor)
    (hread : d.maxReadCursor ≤ d'.maxReadCursor) : m.Ok d' r := by
  have hle := h.le_write
  have hnext := h.le_next
  obtain ⟨k, hk, hbatch⟩ := h.batch_eq
  exact ⟨h.first_pos, h.first_le, h.fromJoin, hslow, by omega, by omega,
    fun hr => (h.delivered_le hr).trans hread, h.delivered_eq,
    k, hk, fun hne => (hbatch hne).trans hread⟩

namespace Cast.Inv

variable {s s' : Cast}

theorem cursor_lt (h : s.Inv) {slot : ℕ} {m : Member} (hm : s.members slot = some m) :
    s.d.consumerCursors slot < vacant := by
  have := (h.member slot m hm).2.le_write
  have := h.publishing.inRange
  simp only [vacant]
  omega

theorem registered_iff (h : s.Inv) (slot : ℕ) :
    s.d.consumerIsRegistered slot = true ↔ ∃ m, s.members slot = some m := by
  simp only [consumerIsRegistered, Bool.and_eq_true, decide_eq_true_eq]
  constructor
  · rintro ⟨-, hne⟩
    cases hm : s.members slot with
    | none => exact absurd (h.vacancy slot hm) hne
    | some m => exact ⟨m, rfl⟩
  · rintro ⟨m, hm⟩
    exact ⟨(h.member slot m hm).1, (h.cursor_lt hm).ne⟩

/-- The slowest reader is at or before every consumer, and not past what may be marked. -/
theorem slowestReader_le (h : s.Inv) {target : ℕ} (htarget : target ≤ uint64Max)
    (hnone : NoOther s.d s.d.consumerCapacity →
      target - s.d.ringIndex target ≤ s.d.maxReadCursor + 1) :
    s.d.slowestReader target ≤ s.d.maxReadCursor + 1 ∧
      (∀ slot m, s.members slot = some m →
        s.d.slowestReader target ≤ s.d.consumerCursors slot) ∧
      (s.d.slowestReader target ≤ s.d.writeCursor ∨
        (NoOther s.d s.d.consumerCapacity ∧
          s.d.slowestReader target = target - s.d.ringIndex target)) := by
  have hindex : s.d.ringIndex target ≤ target := by
    rw [h.publishing.sized.ringIndex_eq]
    exact Nat.mod_le _ _
  have hsub : Word.sub 64 target (s.d.ringIndex target) = target - s.d.ringIndex target :=
    Word.sub_of_le hindex (by simp only [uint64Max] at htarget; omega)
  rw [slowestReader, h.mode]
  dsimp only
  rcases slowestCursor_cases s.d with ⟨heq, hall⟩ | ⟨hne, i, hi, heq⟩
  · have hnomember : ∀ slot, s.members slot = none := by
      intro slot
      by_contra hm
      obtain ⟨m, hm⟩ := Option.ne_none_iff_exists'.mp hm
      have := hall slot (h.member slot m hm).1
      have := h.cursor_lt hm
      omega
    have hno : NoOther s.d s.d.consumerCapacity := fun i _ _ => h.vacancy i (hnomember i)
    rw [if_pos heq, hsub]
    refine ⟨hnone hno, fun slot m hm => ?_, .inr ⟨hno, rfl⟩⟩
    rw [hnomember slot] at hm
    exact absurd hm (by simp)
  · rw [if_neg hne]
    obtain ⟨m, hm⟩ : ∃ m, s.members i = some m := by
      cases hm : s.members i with
      | none => exact absurd (heq.trans (h.vacancy i hm)) hne
      | some m => exact ⟨m, rfl⟩
    have hok := (h.member i m hm).2
    rw [← heq] at hok
    exact ⟨hok.le_next, fun slot m hm => slowestCursor_le s.d (h.member slot m hm).1,
      .inl hok.le_write⟩

/-! ## Steps of the producers -/

theorem moved (h : s.Inv) {slowest write : ℕ} {pending : Finset ℕ}
    (hpublishing : Publishing { s.d with slowestConsumer := slowest, writeCursor := write } pending)
    (hwrite : s.d.writeCursor ≤ write) (hnext : slowest ≤ s.d.maxReadCursor + 1)
    (hle : slowest ≤ write) (hlap : write ≤ slowest + s.d.capacity)
    (hmembers : ∀ slot m, s.members slot = some m → slowest ≤ s.d.consumerCursors slot) :
    Inv { s with
      d := { s.d with slowestConsumer := slowest, writeCursor := write }, pending } :=
  ⟨h.mode, h.independent, hpublishing, hnext, hle, hlap, h.vacancy, fun slot m hm =>
    ⟨(h.member slot m hm).1, (h.member slot m hm).2.mono (hmembers slot m hm) hwrite le_rfl⟩⟩

/-- New sequences are claimed, with the slowest reader at most a lap behind them. -/
theorem grant (h : s.Inv) {slowest count : ℕ} (hmax : s.d.writeCursor + count ≠ uint64Max)
    (hrange : s.d.writeCursor + count ≤ uint64Max) (hnext : slowest ≤ s.d.maxReadCursor + 1)
    (hle : slowest ≤ s.d.writeCursor + count)
    (hlap : s.d.writeCursor + count ≤ slowest + s.d.capacity)
    (hmembers : ∀ slot m, s.members slot = some m → slowest ≤ s.d.consumerCursors slot) :
    Inv { s with
      d := { s.d with slowestConsumer := slowest, writeCursor := s.d.writeCursor + count }
      pending := s.pending ∪ Finset.Icc (s.d.writeCursor + 1) (s.d.writeCursor + count) } := by
  have hset : Finset.Icc (s.d.writeCursor + 1) (s.d.writeCursor + count) =
      Finset.Ioc s.d.writeCursor (s.d.writeCursor + count) := by
    ext x
    simp only [Finset.mem_Icc, Finset.mem_Ioc]
    omega
  rw [hset]
  have hextend := h.publishing.gap.extend (n := count) (by omega)
  have hsettled := h.publishing.settled.extend h.publishing.gap.le count
  exact h.moved ⟨h.publishing.sized, hextend, hsettled, by dsimp only; omega⟩ (by omega) hnext hle
    hlap hmembers

theorem claim (h : s.Inv) {count : ℕ} (hop : s.StandInPublished (.claim count))
    (hs' : s.step (.claim count) = some s') : s'.Inv := by
  obtain ⟨hmax, hstand⟩ := hop
  have hsn := h.slowest_next
  have hsw := h.slowest_write
  have hlap := h.write_le
  have hslow : ∀ slot m, s.members slot = some m → s.d.slowestConsumer ≤ s.d.consumerCursors slot :=
    fun slot m hm => (h.member slot m hm).2.slowest_le
  have hcases := tryClaimRange_cases h.publishing.inRange count
  rw [Cast.step] at hs'
  generalize tryClaimRange s.d count = answer at hs' hcases
  cases hcases with
  | refused =>
    obtain rfl := Option.some.inj hs'
    exact h
  | full hrange hcached hfull =>
    obtain rfl := Option.some.inj hs'
    obtain ⟨hrn, hrm, hrw⟩ := h.slowestReader_le hrange fun hno => hstand hno hcached
    have hreader : s.d.slowestReader (s.d.writeCursor + count) ≤ s.d.writeCursor := by
      rcases hrw with hrw | ⟨-, heq⟩
      · exact hrw
      · -- with no consumer the stand-in always leaves room
        have hindex := h.publishing.sized.ringIndex_eq (s.d.writeCursor + count)
        have hmod := Nat.mod_lt (s.d.writeCursor + count) h.publishing.sized.pos
        have hmodle := Nat.mod_le (s.d.writeCursor + count) s.d.capacity
        rw [heq, Word.sub_of_le (by omega) (by simp only [uint64Max] at hrange; omega)] at hfull
        omega
    exact h.moved ⟨h.publishing.sized, h.publishing.gap, h.publishing.settled,
      h.publishing.inRange⟩ le_rfl (by omega) (by omega) (by omega)
      fun slot m hm => Nat.max_le.mpr ⟨hslow slot m hm, hrm slot m hm⟩
  | cached hcount hrange hroom =>
    obtain rfl := Option.some.inj hs'
    have hfit := le_of_room (show s.d.slowestConsumer ≤ s.d.writeCursor + count by omega) hrange
      hroom
    exact h.grant hmax hrange hsn (by omega) hfit hslow
  | refreshed hcount hrange hcached hroom =>
    obtain rfl := Option.some.inj hs'
    obtain ⟨hrn, hrm, hrw⟩ := h.slowestReader_le hrange fun hno => hstand hno hcached
    have hreader : s.d.slowestReader (s.d.writeCursor + count) ≤ s.d.writeCursor + count := by
      rcases hrw with hrw | ⟨-, heq⟩ <;> omega
    have hfit := le_of_room hreader hrange hroom
    exact h.grant hmax hrange (by omega) (by omega) (by omega)
      fun slot m hm => Nat.max_le.mpr ⟨hslow slot m hm, hrm slot m hm⟩

theorem publish (h : s.Inv) {a b : ℕ} (hs' : s.step (.publish a b) = some s') : s'.Inv := by
  rw [Cast.step] at hs'
  split at hs'
  next hok =>
    obtain rfl := Option.some.inj hs'
    obtain ⟨hspec, hmono⟩ := publishRange_mono h.publishing hok.1 fun x hax hxb =>
      hok.2 (Finset.mem_Icc.mpr ⟨hax, hxb⟩)
    have hsame := publishRange_same s.d a b
    generalize publishRange s.d a b = d at hspec hsame hmono
    unfold SameButPublished at hsame
    rw [hsame] at hspec hmono ⊢
    dsimp only at hmono
    have hsn := h.slowest_next
    exact ⟨h.mode, h.independent, hspec, by dsimp only; omega, h.slowest_write, h.write_le,
      h.vacancy, fun slot m hm => ⟨(h.member slot m hm).1,
        (h.member slot m hm).2.mono (h.member slot m hm).2.slowest_le le_rfl hmono⟩⟩
  · exact absurd hs' (by simp)

/-! ## Steps of the consumers -/

/-- A slot gets a consumer, with its cursor. -/
theorem placed (h : s.Inv) {slot r : ℕ} {m : Member} (hslot : slot < s.d.consumerCapacity)
    (hok : m.Ok s.d r) :
    Inv { s with
      d := { s.d with consumerCursors := Function.update s.d.consumerCursors slot r }
      members := Function.update s.members slot (some m) } := by
  refine ⟨h.mode, h.independent, ⟨h.publishing.sized, h.publishing.gap, h.publishing.settled,
    h.publishing.inRange⟩, h.slowest_next, h.slowest_write, h.write_le, fun i hi => ?_,
    fun i x hx => ?_⟩
  · dsimp only at hi ⊢
    by_cases heq : i = slot
    · rw [heq, Function.update_self] at hi
      exact absurd hi (by simp)
    · rw [Function.update_of_ne heq] at hi ⊢
      exact h.vacancy i hi
  · dsimp only at hx ⊢
    by_cases heq : i = slot
    · subst heq
      rw [Function.update_self] at hx ⊢
      obtain rfl := Option.some.inj hx
      exact ⟨hslot, hok.mono hok.slowest_le le_rfl le_rfl⟩
    · rw [Function.update_of_ne heq] at hx ⊢
      obtain ⟨hlt, hokx⟩ := h.member i x hx
      exact ⟨hlt, hokx.mono hokx.slowest_le le_rfl le_rfl⟩

theorem register (h : s.Inv) {fails : ℕ → Bool} (hs' : s.step (.register fails) = some s') :
    s'.Inv := by
  have hsn := h.slowest_next
  have hsw := h.slowest_write
  have hrange := h.publishing.inRange
  have hfirst : Word.add 64 s.d.slowestConsumer 1 = s.d.slowestConsumer + 1 := by
    apply Word.add_of_lt
    simp only [uint64Max] at hrange
    omega
  rw [Cast.step, consumerTryRegister, if_neg (by rw [h.mode]; simp), hfirst] at hs'
  generalize hfind : (List.range s.d.consumerCapacity).find? (fun i =>
    decide (s.d.consumerCursors i = vacant) && !fails i) = found at hs'
  cases found with
  | none =>
    obtain rfl := Option.some.inj hs'
    exact h
  | some i =>
    obtain rfl := Option.some.inj hs'
    have hi := List.mem_range.mp (List.mem_of_find?_eq_some hfind)
    apply h.placed hi
    refine ⟨by dsimp only; omega, le_rfl, by dsimp only; omega, le_rfl, hsw, hsn, ?_, ?_, 0, rfl,
      fun hne => absurd rfl hne⟩
    · dsimp only
      omega
    · dsimp only
      rw [Nat.sub_self]
      rfl

/-- A consumer leaves its slot, before the slowest reader is refreshed. -/
theorem leave (h : s.Inv) (slot : ℕ) :
    Inv { s with
      d := { s.d with consumerCursors := Function.update s.d.consumerCursors slot vacant }
      members := Function.update s.members slot none } := by
  refine ⟨h.mode, h.independent, ⟨h.publishing.sized, h.publishing.gap, h.publishing.settled,
    h.publishing.inRange⟩, h.slowest_next, h.slowest_write, h.write_le, fun i hi => ?_,
    fun i m hm => ?_⟩
  · dsimp only at hi ⊢
    by_cases heq : i = slot
    · rw [heq, Function.update_self]
    · rw [Function.update_of_ne heq] at hi ⊢
      exact h.vacancy i hi
  · dsimp only at hm ⊢
    by_cases heq : i = slot
    · rw [heq, Function.update_self] at hm
      exact absurd hm (by simp)
    · rw [Function.update_of_ne heq] at hm ⊢
      obtain ⟨hlt, hok⟩ := h.member i m hm
      exact ⟨hlt, hok.mono hok.slowest_le le_rfl le_rfl⟩

theorem unregister (h : s.Inv) {slot : ℕ} (hop : s.StandInPublished (.unregister slot))
    (hs' : s.step (.unregister slot) = some s') : s'.Inv := by
  have hrange := h.publishing.inRange
  obtain rfl := Option.some.inj hs'
  unfold consumerUnregister
  split
  next hnot =>
    have hnone : s.members slot = none := by
      rcases hnot with hmode | hnot
      · exact absurd h.mode hmode
      · by_contra hsome
        obtain ⟨m, hm⟩ := Option.ne_none_iff_exists'.mp hsome
        rw [(h.registered_iff slot).mpr ⟨m, hm⟩] at hnot
        exact absurd hnot (by decide)
    rw [← hnone, Function.update_eq_self]
    exact h
  next hreg =>
    rw [not_or, not_not, Bool.not_eq_false] at hreg
    have htarget : Word.add 64 1 s.d.writeCursor = s.d.writeCursor + 1 := by
      rw [Word.add_of_lt (by simp only [uint64Max] at hrange; omega), Nat.add_comm]
    have hleft := h.leave slot
    have hother : NoOther { s.d with
        consumerCursors := Function.update s.d.consumerCursors slot vacant }
        s.d.consumerCapacity → NoOther s.d slot := by
      intro hno i hi hne
      have hvac := hno i hi (by omega)
      dsimp only at hvac
      rwa [Function.update_of_ne hne] at hvac
    obtain ⟨hrn, hrm, hrw⟩ := hleft.slowestReader_le
      (show s.d.writeCursor + 1 ≤ uint64Max by omega) fun hno => (hop hreg.2 (hother hno)).1
    have hreader : slowestReader { s.d with
        consumerCursors := Function.update s.d.consumerCursors slot vacant }
        (s.d.writeCursor + 1) ≤ s.d.writeCursor := by
      rcases hrw with hrw | ⟨hno, heq⟩
      · exact hrw
      · rw [heq]
        exact (hop hreg.2 (hother hno)).2
    rw [htarget, refreshSlowestReader_same]
    generalize slowestReader { s.d with
      consumerCursors := Function.update s.d.consumerCursors slot vacant }
      (s.d.writeCursor + 1) = reader at hreader hrn hrm
    have hnext : max s.d.slowestConsumer reader ≤ s.d.maxReadCursor + 1 :=
      Nat.max_le.mpr ⟨h.slowest_next, hrn⟩
    have hwrite : max s.d.slowestConsumer reader ≤ s.d.writeCursor :=
      Nat.max_le.mpr ⟨h.slowest_write, hreader⟩
    have hlap : s.d.writeCursor ≤ max s.d.slowestConsumer reader + s.d.capacity := by
      have := h.write_le
      omega
    exact hleft.moved ⟨h.publishing.sized, h.publishing.gap, h.publishing.settled, hrange⟩ le_rfl
      hnext hwrite hlap
      fun i m hm => Nat.max_le.mpr ⟨(hleft.member i m hm).2.slowest_le, hrm i m hm⟩

theorem waitFor_eq (h : s.Inv) {slot : ℕ} {m : Member} (hm : s.members slot = some m)
    (required : ℕ) : consumerWaitFor s.d slot required =
      if s.d.maxReadCursor < required then none else some s.d.maxReadCursor := by
  have havail : s.d.consumerAvailableSequence slot = s.d.maxReadCursor := by
    rw [consumerAvailableSequence, h.independent]
    rfl
  rw [consumerWaitFor, if_neg, havail]
  rw [h.mode, (h.registered_iff slot).mpr ⟨m, hm⟩]
  simp

theorem wait (h : s.Inv) {slot : ℕ} (hs' : s.step (.wait slot) = some s') : s'.Inv := by
  rw [Cast.step] at hs'
  split at hs'
  · exact absurd hs' (by simp)
  next m hm =>
  have hok := (h.member slot m hm).2
  rw [h.waitFor_eq hm] at hs'
  split at hs'
  next hnone =>
    obtain rfl := Option.some.inj hs'
    exact h
  next available hsome =>
    split at hsome
    · exact absurd hsome (by simp)
    next hready =>
    obtain rfl := Option.some.inj hsome
    obtain rfl := Option.some.inj hs'
    have hbatch : Member.Ok { m with
        batch := List.range' m.next (s.d.maxReadCursor + 1 - m.next) } s.d
        (s.d.consumerCursors slot) := by
      refine ⟨hok.first_pos, hok.first_le, hok.fromJoin, hok.slowest_le, hok.le_write, hok.le_next,
        hok.delivered_le, hok.delivered_eq, s.d.maxReadCursor + 1 - m.next, ?_, fun hne => ?_⟩
      · rw [hok.next_eq]
      · rw [hok.next_eq] at hne ⊢
        omega
    have hinv := h.placed (h.member slot m hm).1 hbatch
    rw [Function.update_eq_self] at hinv
    exact hinv

theorem release (h : s.Inv) {slot x : ℕ} (hs' : s.step (.release slot x) = some s') : s'.Inv := by
  rw [Cast.step] at hs'
  split at hs'
  · exact absurd hs' (by simp)
  next m hm =>
  split at hs'
  next hx =>
    obtain rfl := Option.some.inj hs'
    have hok := (h.member slot m hm).2
    obtain ⟨k, hk, hbatch⟩ := hok.batch_eq
    rw [hk, List.mem_range'_1] at hx
    have hread := hbatch (by omega)
    have hle := h.publishing.gap.le
    have hfirst := hok.first_le
    have hslow := hok.slowest_le
    -- the batch falls into what is released and what is not
    have hsplit : List.range' (s.d.consumerCursors slot + 1) k =
        List.range' (s.d.consumerCursors slot + 1) (x - s.d.consumerCursors slot) ++
          List.range' (x + 1) (k - (x - s.d.consumerCursors slot)) := by
      have hjoin := range'_join (show s.d.consumerCursors slot + 1 ≤ x + 1 by omega)
        (show x + 1 ≤ s.d.consumerCursors slot + 1 + k by omega)
      rw [Nat.add_sub_cancel_left, Nat.add_sub_add_right] at hjoin
      rw [← hjoin]
      congr 2
      omega
    have hreleased : m.batch.filter (· ≤ x) =
        List.range' (s.d.consumerCursors slot + 1) (x - s.d.consumerCursors slot) := by
      rw [hk, hsplit, List.filter_append, List.filter_eq_self.mpr, List.filter_eq_nil_iff.mpr,
        List.append_nil]
      · intro y hy
        rw [List.mem_range'_1] at hy
        simp only [decide_eq_true_eq]
        omega
      · intro y hy
        rw [List.mem_range'_1] at hy
        simp only [decide_eq_true_eq]
        omega
    have hrest : m.batch.filter (x < ·) =
        List.range' (x + 1) (k - (x - s.d.consumerCursors slot)) := by
      rw [hk, hsplit, List.filter_append, List.filter_eq_nil_iff.mpr, List.filter_eq_self.mpr,
        List.nil_append]
      · intro y hy
        rw [List.mem_range'_1] at hy
        simp only [decide_eq_true_eq]
        omega
      · intro y hy
        rw [List.mem_range'_1] at hy
        simp only [decide_eq_true_eq]
        omega
    have hentry : consumerReleaseEntry s.d slot x = { s.d with
        consumerCursors := Function.update s.d.consumerCursors slot x } := by
      rw [consumerReleaseEntry, if_neg]
      rw [h.mode, (h.registered_iff slot).mpr ⟨m, hm⟩]
      simp
    rw [hentry]
    apply h.placed (h.member slot m hm).1
    refine ⟨hok.first_pos, by dsimp only; omega, hok.fromJoin, by omega, by omega, by omega,
      fun _ => by omega, ?_, k - (x - s.d.consumerCursors slot), hrest, fun hne => by omega⟩
    dsimp only
    rw [hreleased, hok.delivered_eq, ← Nat.add_sub_add_right x 1]
    exact range'_join hfirst (by omega)
  · exact absurd hs' (by simp)

theorem step (h : s.Inv) {op : CastOp} (hop : s.StandInPublished op) (hs' : s.step op = some s') :
    s'.Inv := by
  cases op with
  | register fails => exact h.register hs'
  | unregister slot => exact h.unregister hop hs'
  | claim count => exact h.claim hop hs'
  | publish first last => exact h.publish hs'
  | wait slot => exact h.wait hs'
  | release slot sequence => exact h.release hs'

theorem delivers (h : s.Inv) : s.Delivers := by
  have hsw := h.slowest_write
  have hle := h.publishing.gap.le
  constructor
  · intro slot m hm
    have hok := (h.member slot m hm).2
    have hfirst := hok.first_le
    obtain ⟨k, hk, -⟩ := hok.batch_eq
    refine ⟨s.d.consumerCursors slot + 1 + k - m.first, ?_⟩
    have hjoin := range'_join hfirst (Nat.le_add_right (s.d.consumerCursors slot + 1) k)
    rw [Nat.add_sub_cancel_left] at hjoin
    rw [hok.delivered_eq, hk, hjoin]
  · exact fun slot m hm => (h.member slot m hm).2.fromJoin
  · intro slot m hm x hx
    have hok := (h.member slot m hm).2
    have hpos := hok.first_pos
    have hread : m.first ≤ x ∧ x ≤ s.d.maxReadCursor := by
      have hfirst := hok.first_le
      rcases List.mem_append.mp hx with hx | hx
      · rw [hok.delivered_eq, List.mem_range'_1] at hx
        have := hok.delivered_le (by omega)
        omega
      · obtain ⟨k, hk, hbatch⟩ := hok.batch_eq
        rw [hk, List.mem_range'_1] at hx
        have := hbatch (by omega)
        omega
    refine ⟨by omega, by omega, ?_⟩
    exact (h.publishing.le_maxRead_iff (by omega)).mp hread.2 x le_rfl
  · intro slot m hm x hnext hx hall
    have hread := (h.publishing.le_maxRead_iff hx).mpr hall
    exact ⟨s.d.maxReadCursor, by rw [h.waitFor_eq hm, if_neg (by omega)], hread⟩
  · intro count first last hc slot m hm x hfx hxl
    have hok := (h.member slot m hm).2
    have hlap : last ≤ s.d.consumerCursors slot + s.d.capacity := by
      have hslow := hok.slowest_le
      have hcases := tryClaimRange_cases h.publishing.inRange count
      generalize tryClaimRange s.d count = answer at hc hcases
      cases hcases with
      | refused => exact absurd hc (by simp)
      | full => exact absurd hc (by simp)
      | cached hcount hrange hroom =>
        obtain ⟨-, rfl⟩ := Prod.mk.inj (Option.some.inj hc)
        have := le_of_room (show s.d.slowestConsumer ≤ s.d.writeCursor + count by omega) hrange
          hroom
        omega
      | refreshed hcount hrange hcached hroom =>
        obtain ⟨-, rfl⟩ := Prod.mk.inj (Option.some.inj hc)
        -- a registered consumer keeps the stand-in out of the scan
        have hreg : ¬NoOther s.d s.d.consumerCapacity := by
          intro hno
          have hlt := (h.member slot m hm).1
          exact (h.cursor_lt hm).ne (hno slot hlt (by omega))
        obtain ⟨-, hrm, hrw⟩ := h.slowestReader_le hrange fun hno => absurd hno hreg
        have hreader := hrw.resolve_right fun hno => hreg hno.1
        have := le_of_room (show s.d.slowestReader (s.d.writeCursor + count) ≤
          s.d.writeCursor + count by omega) hrange hroom
        have := hrm slot m hm
        omega
    rw [hok.delivered_eq, List.mem_range'_1]
    have hfirst := hok.first_le
    omega

end Cast.Inv

theorem Cast.start_inv {config : Config} {d : Disruptor} (h : create config = some d)
    (hmode : config.mode = .broadcast) : (Cast.start d).Inv := by
  obtain ⟨rfl, hsized⟩ := create_sized h
  refine ⟨hmode, fun _ => rfl, ⟨hsized, Gap.init _, ?_, by simp [Cast.start, init, uint64Max]⟩,
    Nat.zero_le _, le_rfl, Nat.zero_le _, fun _ _ => rfl, fun slot m hm => absurd hm (by simp [start])⟩
  exact fun hlt => absurd hlt (lt_irrefl _)

/-- In every run whose stand-in for a missing consumer keeps to what is published, every
consumer is handed what is claimed after it joined. -/
theorem broadcast_delivers {config : Config} {d : Disruptor} {s : Cast}
    (hcreate : create config = some d) (hmode : config.mode = .broadcast)
    (h : Cast.Reaches Cast.StandInPublished d s) : s.Delivers := by
  have hinv : s.Inv := by
    induction h with
    | start => exact Cast.start_inv hcreate hmode
    | step _ hop hs' ih => exact ih.step hop hs'
  exact hinv.delivers

theorem Cast.Reaches.next {allowed : Cast → CastOp → Prop} {d : Disruptor} {s s' : Cast}
    (h : Cast.Reaches allowed d s) (op : CastOp) (hop : allowed s op) (hs' : s.step op = some s') :
    Cast.Reaches allowed d s' := h.step hop hs'

def pairCast : Config := ⟨8, 2, 1, .broadcast⟩

/-- Two sequences, published in reverse order, reach a consumer. -/
theorem broadcast_delivers_pair :
    ∃ s : Cast, s.members 0 = some ⟨1, 0, [1, 2], []⟩ ∧ s.Delivers := by
  have h0 : Cast.Reaches Cast.StandInPublished (init pairCast) (.start (init pairCast)) := .start
  have h1 := h0.next (.register fun _ => false) trivial rfl
  have h2 := h1.next (.claim 2) ⟨by decide, fun hno => absurd (hno 0 (by decide) (by decide))
    (by decide)⟩ rfl
  have h3 := h2.next (.publish 2 2) trivial rfl
  have h4 := h3.next (.publish 1 1) trivial rfl
  have h5 := h4.next (.wait 0) trivial rfl
  have h6 := h5.next (.release 0 2) trivial rfl
  have hcreate : create pairCast = some (init pairCast) := rfl
  exact ⟨_, rfl, broadcast_delivers hcreate rfl h6⟩

def singleCast : Config := ⟨8, 1, 1, .broadcast⟩

/-- With one entry, the consumer that joins after another has left starts one sequence late: it
is never handed sequence 1, which is claimed after it joined. -/
theorem broadcast_skips_sequence : ∃ s : Cast,
    Cast.Reaches (fun _ _ => True) (init singleCast) s ∧
      s.members 0 = some ⟨2, 0, [], []⟩ ∧ ¬s.Delivers := by
  have h0 : Cast.Reaches (fun _ _ => True) (init singleCast) (.start (init singleCast)) := .start
  have h1 := h0.next (.register fun _ => false) trivial rfl
  have h2 := h1.next (.unregister 0) trivial rfl
  have h3 := h2.next (.register fun _ => false) trivial rfl
  refine ⟨_, h3, rfl, fun hdelivers => ?_⟩
  exact absurd (hdelivers.fromJoin 0 _ rfl) (by decide)

end Concurrency.Disruptor
