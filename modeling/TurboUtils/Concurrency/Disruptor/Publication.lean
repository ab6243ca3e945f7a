import TurboUtils.Concurrency.Disruptor.Sequencer

/-! Claiming and publishing: the published cursor is a gap-tolerant cursor over the claimed
sequences, as long as the largest `uint64_t` is not claimed. -/
namespace Concurrency.Disruptor

open GapCursor (Gap Settled)

/-- The ring has a power of two of entries, of at least eight bytes each in one table. -/
def Sized (d : Disruptor) : Prop := ∃ k ≤ 60, d.capacity = 2 ^ k

theorem create_sized {config : Config} {d : Disruptor} (h : create config = some d) :
    d = init config ∧ Sized d := by
  unfold create at h
  split at h
  · exact absurd h (by simp)
  split at h
  · exact absurd h (by simp)
  next hpow =>
  split at h
  · exact absurd h (by simp)
  split at h
  · exact absurd h (by simp)
  next hbytes =>
  split at h
  · exact absurd h (by simp)
  obtain rfl := Option.some.inj h
  obtain ⟨k, hk⟩ := Nat.ne_zero_and_sub_one_eq_zero_iff_isPowerOfTwo.mp (not_not.mp hpow)
  refine ⟨rfl, k, ?_, hk⟩
  have hlt : 2 ^ k < 2 ^ 61 := by
    rw [← hk]
    simp only [uint64Max] at hbytes
    omega
  have := (Nat.pow_lt_pow_iff_right (by norm_num)).mp hlt
  omega

variable {d : Disruptor}

namespace Sized

theorem pos (h : Sized d) : 0 < d.capacity := by
  obtain ⟨k, -, hk⟩ := h
  rw [hk]
  exact Nat.two_pow_pos k

theorem ringIndex_eq (h : Sized d) (sequence : ℕ) : d.ringIndex sequence = sequence % d.capacity := by
  obtain ⟨k, -, hk⟩ := h
  rw [ringIndex, hk, Nat.and_comm, Nat.and_two_pow_sub_one_eq_mod]

end Sized

/-! ## Moving over marks -/

/-- The probe passes marks that match and stops at the first that does not. -/
theorem probe_spec (hd : Sized d) {marks : ℕ → ℕ} (hm : ∀ i, marks i < uint64Max) {n p : ℕ}
    (hp : p ≤ uint64Max) :
    p ≤ d.probe marks n p ∧ d.probe marks n p ≤ p + n ∧ d.probe marks n p ≤ uint64Max ∧
      (∀ x, p ≤ x → x < d.probe marks n p → marks (x % d.capacity) = x) ∧
      (d.probe marks n p < p + n →
        marks (d.probe marks n p % d.capacity) ≠ d.probe marks n p) := by
  induction n generalizing p with
  | zero => exact ⟨le_rfl, le_rfl, hp, by simp only [probe]; omega, by simp [probe]⟩
  | succ n ih =>
    unfold probe
    rw [hd.ringIndex_eq]
    split
    next hmatch =>
      have hlt := hm (p % d.capacity)
      rw [hmatch] at hlt
      have hnext : Word.add 64 p 1 = p + 1 := by
        apply Word.add_of_lt
        simp only [uint64Max] at hlt
        omega
      rw [hnext]
      obtain ⟨hle, hub, hmax, hall, hstop⟩ := ih (show p + 1 ≤ uint64Max by omega)
      refine ⟨by omega, by omega, hmax, fun x hpx hx => ?_, fun hr => hstop (by omega)⟩
      rcases Nat.lt_or_eq_of_le hpx with hpx | rfl
      · exact hall x hpx hx
      · exact hmatch
    next hmiss => exact ⟨le_rfl, by omega, hp, by omega, fun _ => hmiss⟩

/-- A cursor moves over the marks that follow it, and stops before a sequence that has none. -/
theorem advanced_spec (hd : Sized d) {marks : ℕ → ℕ} (hm : ∀ i, marks i < uint64Max) {c : ℕ}
    (hc : c < uint64Max) :
    c ≤ (d.advanced marks c).getD c ∧
      (∀ x, c < x → x ≤ (d.advanced marks c).getD c → marks (x % d.capacity) = x) ∧
      marks (((d.advanced marks c).getD c + 1) % d.capacity) ≠ (d.advanced marks c).getD c + 1 := by
  have hpos := hd.pos
  have hnext : Word.add 64 c 1 = c + 1 := by
    apply Word.add_of_lt
    simp only [uint64Max] at hc
    omega
  obtain ⟨hle, hub, hmax, hall, hstop⟩ :=
    probe_spec hd hm (n := d.capacity) (show c + 1 ≤ uint64Max by omega)
  have hvalue : (d.advanced marks c).getD c + 1 = d.probe marks d.capacity (c + 1) := by
    unfold advanced
    rw [hnext]
    dsimp only
    split
    next heq =>
      rw [heq]
      rfl
    next hne =>
      simp only [uint64Max] at hmax
      rw [Option.getD_some, Word.sub_of_le (by omega) (by omega)]
      omega
  have hends : marks (d.probe marks d.capacity (c + 1) % d.capacity) ≠
      d.probe marks d.capacity (c + 1) := by
    rcases Nat.lt_or_eq_of_le hub with hlt | heq
    · exact hstop hlt
    · -- a whole table has matched, and its first cell holds the sequence one lap before
      have hfirst := hall (c + 1) le_rfl (by omega)
      rw [heq, Nat.add_mod_right, hfirst]
      omega
  refine ⟨by omega, fun x hcx hx => hall x (by omega) (by omega), ?_⟩
  rw [hvalue]
  exact hends

/-- The published cursor over the claimed sequences, those of `pending` still to be published. -/
structure Publishing (d : Disruptor) (pending : Finset ℕ) : Prop where
  sized : Sized d
  gap : Gap d.capacity d.publishedSequences d.maxReadCursor d.writeCursor pending
  settled : Settled d.maxReadCursor d.writeCursor pending
  inRange : d.writeCursor < uint64Max

variable {pending : Finset ℕ}

namespace Publishing

theorem le_maxRead_iff (h : Publishing d pending) {x : ℕ} (hx : x ≤ d.writeCursor) :
    x ≤ d.maxReadCursor ↔ ∀ y ≤ x, y ∉ pending := h.gap.le_iff h.settled hx

end Publishing

/-- Everything but the marks and the published cursor is as before. -/
def SameButPublished (d d' : Disruptor) : Prop :=
  d' = { d with
    maxReadCursor := d'.maxReadCursor, publishedSequences := d'.publishedSequences }

theorem tryAdvancePublishedCursor_same (d : Disruptor) :
    SameButPublished d (tryAdvancePublishedCursor d) := by
  unfold tryAdvancePublishedCursor
  split <;> rfl

theorem tryAdvancePublishedCursor_spec (hd : Sized d) (hrange : d.writeCursor < uint64Max)
    (hgap : Gap d.capacity d.publishedSequences d.maxReadCursor d.writeCursor pending) :
    Publishing (tryAdvancePublishedCursor d) pending := by
  have hlt : ∀ i, d.publishedSequences i < uint64Max := by
    intro i
    by_cases hi : d.publishedSequences i = 0
    · rw [hi]
      simp [uint64Max]
    · exact lt_of_le_of_lt (hgap.sound i hi).1 hrange
  obtain ⟨hle, hall, hstop⟩ := advanced_spec hd hlt (lt_of_le_of_lt hgap.le hrange)
  have hcursor : tryAdvancePublishedCursor d = { d with maxReadCursor :=
      (d.advanced d.publishedSequences d.maxReadCursor).getD d.maxReadCursor } := by
    unfold tryAdvancePublishedCursor
    split
    next hnone => rw [hnone]; rfl
    next desired hsome => rw [hsome]; rfl
  rw [hcursor]
  have hgap' := hgap.advance hle hall
  exact ⟨hd, hgap', hgap'.settled hstop, hrange⟩

/-! ## Publishing -/

theorem markRange_same (d : Disruptor) (n a : ℕ) : SameButPublished d (markRange d n a) := by
  induction n generalizing d a with
  | zero => rfl
  | succ n ih =>
    rw [markRange]
    generalize Word.add 64 a 1 = a'
    have h := ih (markPublished d a) a'
    unfold SameButPublished at h ⊢
    rw [h]
    rfl

/-- Marks for a run of sequences that does not start next to the cursor. -/
theorem markRange_gap (h : Publishing d pending) {n a : ℕ} (ha : d.maxReadCursor + 1 < a)
    (hrun : ∀ x, a ≤ x → x < a + n → x ∈ pending) :
    Gap d.capacity (markRange d n a).publishedSequences d.maxReadCursor d.writeCursor
      (pending \ Finset.Ico a (a + n)) ∧ (markRange d n a).maxReadCursor = d.maxReadCursor := by
  induction n generalizing d pending a with
  | zero => exact ⟨by simpa [markRange] using h.gap, rfl⟩
  | succ n ih =>
    have hmem := hrun a le_rfl (by omega)
    have hrange := h.inRange
    obtain ⟨-, hale⟩ := h.gap.opens a hmem
    have hnext : Word.add 64 a 1 = a + 1 := by
      apply Word.add_of_lt
      simp only [uint64Max] at hrange
      omega
    have hmark := h.gap.mark h.settled hmem (.inl (by omega))
    rw [← h.sized.ringIndex_eq] at hmark
    have hsettled : Settled d.maxReadCursor d.writeCursor (pending.erase a) :=
      fun hlt => Finset.mem_erase.mpr ⟨by omega, h.settled hlt⟩
    have hstep : Publishing (markPublished d a) (pending.erase a) :=
      ⟨h.sized, hmark, hsettled, hrange⟩
    have hset : pending.erase a \ Finset.Ico (a + 1) (a + 1 + n) =
        pending \ Finset.Ico a (a + (n + 1)) := by
      ext x
      simp only [Finset.mem_sdiff, Finset.mem_erase, Finset.mem_Ico]
      constructor
      · rintro ⟨⟨hne, hx⟩, hnot⟩
        exact ⟨hx, by omega⟩
      · rintro ⟨hx, hnot⟩
        exact ⟨⟨by omega, hx⟩, by omega⟩
    rw [markRange, hnext]
    obtain ⟨hgap, hmax⟩ := ih hstep (show d.maxReadCursor + 1 < a + 1 by omega)
      fun x hax hx => Finset.mem_erase.mpr ⟨by omega, hrun x (by omega) (by omega)⟩
    rw [hset] at hgap
    exact ⟨hgap, hmax⟩

theorem publishRange_same (d : Disruptor) (a b : ℕ) : SameButPublished d (publishRange d a b) := by
  unfold publishRange
  split
  · rfl
  split
  · exact tryAdvancePublishedCursor_same { d with maxReadCursor := b }
  · have hadvance := tryAdvancePublishedCursor_same (markRange d (b - a + 1) a)
    have hmark := markRange_same d (b - a + 1) a
    unfold SameButPublished at hadvance hmark ⊢
    rw [hmark] at hadvance
    rw [hmark]
    exact hadvance

/-- Publishing a claimed run in any order. -/
theorem publishRange_spec (h : Publishing d pending) {a b : ℕ} (hab : a ≤ b)
    (hrun : ∀ x, a ≤ x → x ≤ b → x ∈ pending) :
    Publishing (publishRange d a b) (pending \ Finset.Icc a b) := by
  obtain ⟨hpast, -⟩ := h.gap.opens a (hrun a le_rfl hab)
  obtain ⟨-, hble⟩ := h.gap.opens b (hrun b hab le_rfl)
  have hrange := h.inRange
  have hfirst : Word.sub 64 a 1 = a - 1 := by
    apply Word.sub_of_le (by omega)
    simp only [uint64Max] at hrange
    omega
  unfold publishRange
  rw [if_neg (by omega), hfirst]
  split
  next hnext =>
    have hjump := h.gap.jump (b := b) (by omega) fun x hx hxb => hrun x (by omega) hxb
    rw [show d.maxReadCursor + 1 = a by omega] at hjump
    exact tryAdvancePublishedCursor_spec (d := { d with maxReadCursor := b }) h.sized hrange hjump
  next hfar =>
    obtain ⟨hgap, hmax⟩ := markRange_gap h (n := b - a + 1) (show d.maxReadCursor + 1 < a by omega)
      fun x hax hx => hrun x hax (by omega)
    have hsame := markRange_same d (b - a + 1) a
    have hset : Finset.Ico a (a + (b - a + 1)) = Finset.Icc a b := by
      ext x
      simp only [Finset.mem_Ico, Finset.mem_Icc]
      omega
    rw [hset] at hgap
    apply tryAdvancePublishedCursor_spec
    · rw [hsame]
      exact h.sized
    · rw [hsame]
      exact hrange
    · rw [hmax, hsame]
      exact hgap

theorem publishRange_mono (h : Publishing d pending) {a b : ℕ} (hab : a ≤ b)
    (hrun : ∀ x, a ≤ x → x ≤ b → x ∈ pending) :
    Publishing (publishRange d a b) (pending \ Finset.Icc a b) ∧
      d.maxReadCursor ≤ (publishRange d a b).maxReadCursor := by
  have hspec := publishRange_spec h hab hrun
  refine ⟨hspec, (hspec.le_maxRead_iff ?_).mpr ?_⟩
  · rw [publishRange_same d a b]
    exact h.gap.le
  · intro y hy hmem
    have := h.gap.opens y (Finset.mem_sdiff.mp hmem).1
    omega

/-! ## Claiming -/

/-- What a claim of `count` sequences can come to, and where it finds room. -/
inductive Claim (d : Disruptor) (count : ℕ) : Disruptor × Option (ℕ × ℕ) → Prop
  | refused : Claim d count (d, none)
  | full (hrange : d.writeCursor + count ≤ uint64Max)
      (hcached : d.capacity < Word.sub 64 (d.writeCursor + count) d.slowestConsumer)
      (hfull : d.capacity < Word.sub 64 (d.writeCursor + count)
        (d.slowestReader (d.writeCursor + count))) :
      Claim d count ({ d with
        slowestConsumer := max d.slowestConsumer (d.slowestReader (d.writeCursor + count)) }, none)
  | cached (hcount : 0 < count) (hrange : d.writeCursor + count ≤ uint64Max)
      (hroom : Word.sub 64 (d.writeCursor + count) d.slowestConsumer ≤ d.capacity) :
      Claim d count ({ d with writeCursor := d.writeCursor + count },
        some (d.writeCursor + 1, d.writeCursor + count))
  | refreshed (hcount : 0 < count) (hrange : d.writeCursor + count ≤ uint64Max)
      (hcached : d.capacity < Word.sub 64 (d.writeCursor + count) d.slowestConsumer)
      (hroom : Word.sub 64 (d.writeCursor + count) (d.slowestReader (d.writeCursor + count)) ≤
        d.capacity) :
      Claim d count ({ d with
        slowestConsumer := max d.slowestConsumer (d.slowestReader (d.writeCursor + count))
        writeCursor := d.writeCursor + count }, some (d.writeCursor + 1, d.writeCursor + count))

theorem refreshSlowestReader_same (d : Disruptor) (target : ℕ) :
    (refreshSlowestReader d target).1 = { d with
      slowestConsumer := max d.slowestConsumer (d.slowestReader target) } := by
  unfold refreshSlowestReader
  dsimp only
  split
  next hlt => rw [Nat.max_eq_right hlt.le]
  next hge => rw [Nat.max_eq_left (by omega)]

theorem tryClaimRange_cases (hlt : d.writeCursor < uint64Max) (count : ℕ) :
    Claim d count (tryClaimRange d count) := by
  have hnext : Word.add 64 d.writeCursor 1 = d.writeCursor + 1 := by
    apply Word.add_of_lt
    simp only [uint64Max] at hlt
    omega
  unfold tryClaimRange
  split
  · exact .refused
  next hcount =>
  split
  · exact .refused
  dsimp only
  rw [hnext]
  split
  · exact .refused
  next hrange =>
  have hle : d.writeCursor + count ≤ uint64Max := by omega
  have hlast : Word.add 64 (d.writeCursor + 1) (count - 1) = d.writeCursor + count := by
    rw [Word.add_of_lt (by simp only [uint64Max] at hle; omega)]
    omega
  have hcursor : Word.add 64 d.writeCursor count = d.writeCursor + count :=
    Word.add_of_lt (by simp only [uint64Max] at hle; omega)
  rw [hlast, hcursor]
  simp only [publisherHasCapacity, decide_eq_true_eq]
  split
  next hroom => exact .cached (Nat.pos_of_ne_zero hcount) hle hroom
  next hcached =>
    have hsame := refreshSlowestReader_same d (d.writeCursor + count)
    have hslowest : (refreshSlowestReader d (d.writeCursor + count)).2 =
      d.slowestReader (d.writeCursor + count) := rfl
    generalize refreshSlowestReader d (d.writeCursor + count) = r at hsame hslowest
    obtain ⟨d', slowest⟩ := r
    dsimp only at hsame hslowest ⊢
    subst hsame hslowest
    dsimp only
    rw [hcursor]
    split
    next hroom => exact .refreshed (Nat.pos_of_ne_zero hcount) hle (by omega) hroom
    · exact .full hle (by omega) (by omega)

theorem le_of_room {writer slowest capacity : ℕ} (hle : slowest ≤ writer) (hlt : writer ≤ uint64Max)
    (h : Word.sub 64 writer slowest ≤ capacity) : writer ≤ slowest + capacity := by
  rw [Word.sub_of_le hle (by simp only [uint64Max] at hlt; omega)] at h
  omega

/-- A claim that the cached cursor has room for. -/
theorem tryClaimRange_cached {count : ℕ} (hcount : 0 < count) (hcap : count ≤ d.capacity)
    (hrange : d.writeCursor + count ≤ uint64Max)
    (hroom : Word.sub 64 (d.writeCursor + count) d.slowestConsumer ≤ d.capacity) :
    tryClaimRange d count = ({ d with writeCursor := d.writeCursor + count },
      some (d.writeCursor + 1, d.writeCursor + count)) := by
  have hlt : d.writeCursor + count < 2 ^ 64 := by
    simp only [uint64Max] at hrange
    omega
  have hfirst : Word.add 64 d.writeCursor 1 = d.writeCursor + 1 := Word.add_of_lt (by omega)
  have hlast : Word.add 64 (d.writeCursor + 1) (count - 1) = d.writeCursor + count := by
    rw [Word.add_of_lt (by omega)]
    omega
  unfold tryClaimRange
  rw [if_neg (by omega), if_neg (by omega)]
  dsimp only
  rw [hfirst, if_neg (by omega), hlast, if_pos (by simpa [publisherHasCapacity] using hroom),
    Word.add_of_lt hlt]

end Concurrency.Disruptor
