import TurboUtils.Concurrency.Disruptor.Publication

/-! The worker pool: every published sequence goes to one worker, in order. -/
namespace Concurrency.Disruptor

open GapCursor (Gap Settled)

/-- A pool with what its users have done so far: the sequences that producers have claimed and
not published, those that workers have claimed, in order, and those they have not released. -/
structure Pool where
  d : Disruptor
  pending : Finset ℕ
  taken : List ℕ
  held : Finset ℕ

inductive PoolOp where
  | claim (count : ℕ)
  | publish (first last : ℕ)
  | workerClaim
  | release (sequence : ℕ)

/-- One step; `none` when its user may not take it: only claimed sequences are published, and
only those that a worker holds are released. -/
def Pool.step (s : Pool) : PoolOp → Option Pool
  | .claim count =>
      match tryClaimRange s.d count with
      | (d, none) => some { s with d }
      | (d, some (first, last)) =>
          some { s with d, pending := s.pending ∪ Finset.Icc first last }
  | .publish first last =>
      if first ≤ last ∧ Finset.Icc first last ⊆ s.pending then
        some { s with
          d := publishRange s.d first last
          pending := s.pending \ Finset.Icc first last }
      else none
  | .workerClaim =>
      match workerTryClaim s.d with
      | (d, none) => some { s with d }
      | (d, some sequence) =>
          some { s with d, taken := s.taken ++ [sequence], held := insert sequence s.held }
  | .release sequence =>
      if sequence ∈ s.held then
        some { s with
          d := workerReleaseEntry s.d sequence
          held := s.held.erase sequence }
      else none

def Pool.start (d : Disruptor) : Pool := ⟨d, ∅, [], ∅⟩

/-- The states that runs reach whose steps are all allowed where they are taken. -/
inductive Pool.Reaches (allowed : Pool → PoolOp → Prop) (d : Disruptor) : Pool → Prop
  | start : Reaches allowed d (.start d)
  | step {s s' : Pool} {op : PoolOp} : Reaches allowed d s → allowed s op → s.step op = some s' →
      Reaches allowed d s'

/-- Workers claim the sequences from 1 on, each once; what they claim is published; a sequence
up to which all is published is claimed in its turn; and no sequence is granted to a producer
before the one a lap earlier is released. -/
structure Pool.Delivers (s : Pool) : Prop where
  order : s.taken = List.range' 1 s.taken.length
  published : ∀ x ∈ s.taken, x ≤ s.d.writeCursor ∧ x ∉ s.pending
  notLost : ∀ x, 1 ≤ x → x ≤ s.d.writeCursor → (∀ y ≤ x, y ∉ s.pending) → x ∉ s.taken →
    ∃ y ≤ x, (workerTryClaim s.d).2 = some y ∧ y ∉ s.taken
  released : ∀ count first last, (tryClaimRange s.d count).2 = some (first, last) →
    ∀ x, first ≤ x → x ≤ last →
      x ≤ s.d.capacity ∨ (x - s.d.capacity ∈ s.taken ∧ x - s.d.capacity ∉ s.held)

/-- The largest `uint64_t` is not claimed. -/
def Pool.BelowMax (s : Pool) : PoolOp → Prop
  | .claim count => s.d.writeCursor + count ≠ uint64Max
  | _ => True

/-! ## The invariant -/

structure Pool.Inv (s : Pool) : Prop where
  mode : s.d.mode = .workerPool
  publishing : Publishing s.d s.pending
  claimed : 1 ≤ s.d.workerClaimCursor ∧ s.d.workerClaimCursor ≤ s.d.maxReadCursor + 1
  taken_eq : s.taken = List.range' 1 (s.d.workerClaimCursor - 1)
  completing : Gap s.d.capacity s.d.workerCompletedSequences s.d.workerCompletedCursor
    (s.d.workerClaimCursor - 1) s.held
  settled : Settled s.d.workerCompletedCursor (s.d.workerClaimCursor - 1) s.held
  slowest_le : s.d.slowestConsumer ≤ s.d.workerCompletedCursor
  write_le : s.d.writeCursor ≤ s.d.slowestConsumer + s.d.capacity

namespace Pool.Inv

variable {s s' : Pool}

theorem cursors (h : s.Inv) : s.d.workerCompletedCursor + 1 ≤ s.d.workerClaimCursor ∧
    s.d.workerClaimCursor ≤ s.d.maxReadCursor + 1 ∧ s.d.maxReadCursor ≤ s.d.writeCursor := by
  have := h.claimed
  have := h.completing.le
  have := h.publishing.gap.le
  omega

theorem mem_taken (h : s.Inv) {x : ℕ} : x ∈ s.taken ↔ 1 ≤ x ∧ x < s.d.workerClaimCursor := by
  have := h.claimed
  rw [h.taken_eq, List.mem_range'_1]
  omega

theorem slowestReader_eq (h : s.Inv) (target : ℕ) :
    s.d.slowestReader target = s.d.workerCompletedCursor := by
  rw [slowestReader, h.mode]

theorem granted (h : s.Inv) {count : ℕ} {d : Disruptor} {a b : ℕ}
    (hc : tryClaimRange s.d count = (d, some (a, b))) :
    a = s.d.writeCursor + 1 ∧ b = s.d.writeCursor + count ∧ b ≤ uint64Max ∧
      b ≤ d.slowestConsumer + s.d.capacity ∧ d.slowestConsumer ≤ s.d.workerCompletedCursor ∧
      d = { s.d with slowestConsumer := d.slowestConsumer, writeCursor := b } := by
  have hcursors := h.cursors
  have hslow := h.slowest_le
  have hcases := tryClaimRange_cases h.publishing.inRange count
  rw [hc] at hcases
  cases hcases with
  | cached hcount hrange hroom =>
    have hlap := le_of_room (show s.d.slowestConsumer ≤ s.d.writeCursor + count by omega) hrange hroom
    exact ⟨rfl, rfl, hrange, hlap, hslow, rfl⟩
  | refreshed hcount hrange hcached hroom =>
    rw [h.slowestReader_eq] at hroom ⊢
    rw [Nat.max_eq_right hslow]
    have hlap := le_of_room (show s.d.workerCompletedCursor ≤ s.d.writeCursor + count by omega)
      hrange hroom
    exact ⟨rfl, rfl, hrange, hlap, le_rfl, rfl⟩

theorem claim (h : s.Inv) {count : ℕ} (hmax : s.d.writeCursor + count ≠ uint64Max)
    (hs' : s.step (.claim count) = some s') : s'.Inv := by
  have hcursors := h.cursors
  have hslow := h.slowest_le
  have hwrite := h.write_le
  rw [Pool.step] at hs'
  split at hs'
  next d hc =>
    obtain rfl := Option.some.inj hs'
    have hcases := tryClaimRange_cases h.publishing.inRange count
    rw [hc] at hcases
    cases hcases with
    | refused => exact h
    | full =>
      rw [h.slowestReader_eq, Nat.max_eq_right hslow]
      exact ⟨h.mode, ⟨h.publishing.sized, h.publishing.gap, h.publishing.settled,
        h.publishing.inRange⟩, h.claimed, h.taken_eq, h.completing, h.settled, le_rfl,
        by dsimp only; omega⟩
  next d first last hc =>
    obtain rfl := Option.some.inj hs'
    obtain ⟨rfl, rfl, hrange, hroom, hslow', hsame⟩ := h.granted hc
    have hextend := h.publishing.gap.extend (n := count) (by omega)
    have hset : Finset.Icc (s.d.writeCursor + 1) (s.d.writeCursor + count) =
        Finset.Ioc s.d.writeCursor (s.d.writeCursor + count) := by
      ext x
      simp only [Finset.mem_Icc, Finset.mem_Ioc]
      omega
    rw [hset]
    generalize d.slowestConsumer = slowest at hroom hslow' hsame
    subst hsame
    exact ⟨h.mode, ⟨h.publishing.sized, hextend,
      h.publishing.settled.extend h.publishing.gap.le count, by dsimp only; omega⟩, h.claimed,
      h.taken_eq, h.completing, h.settled, hslow', hroom⟩

theorem publish (h : s.Inv) {a b : ℕ} (hs' : s.step (.publish a b) = some s') : s'.Inv := by
  rw [Pool.step] at hs'
  split at hs'
  next hok =>
    obtain rfl := Option.some.inj hs'
    obtain ⟨hspec, hmono⟩ := publishRange_mono h.publishing hok.1 fun x hax hxb =>
      hok.2 (Finset.mem_Icc.mpr ⟨hax, hxb⟩)
    have hsame := publishRange_same s.d a b
    generalize publishRange s.d a b = d at hspec hsame hmono
    unfold SameButPublished at hsame
    rw [hsame] at hspec hmono ⊢
    have hclaimed := h.claimed
    exact ⟨h.mode, hspec, ⟨hclaimed.1, by dsimp only at hmono ⊢; omega⟩, h.taken_eq, h.completing,
      h.settled, h.slowest_le, h.write_le⟩
  · exact absurd hs' (by simp)

theorem workerClaim (h : s.Inv) (hs' : s.step .workerClaim = some s') : s'.Inv := by
  have hcursors := h.cursors
  have hslow := h.slowest_le
  have hwrite := h.write_le
  have hrange := h.publishing.inRange
  simp only [Pool.step, workerTryClaim, h.mode, if_true] at hs'
  split at hs'
  next d hc =>
    obtain rfl := Option.some.inj hs'
    split at hc
    · obtain ⟨rfl, -⟩ := Prod.mk.inj hc
      exact h
    · exact absurd hc (by simp)
  next d sequence hc =>
    obtain rfl := Option.some.inj hs'
    split at hc
    · exact absurd hc (by simp)
    next hready =>
    obtain ⟨rfl, hsome⟩ := Prod.mk.inj hc
    obtain rfl := Option.some.inj hsome
    have hnext : Word.add 64 s.d.workerClaimCursor 1 = s.d.workerClaimCursor + 1 := by
      apply Word.add_of_lt
      simp only [uint64Max] at hrange
      omega
    rw [hnext]
    have hlast : s.d.workerClaimCursor - 1 + 1 = s.d.workerClaimCursor := by omega
    have hset : insert s.d.workerClaimCursor s.held =
        s.held ∪ Finset.Ioc (s.d.workerClaimCursor - 1) (s.d.workerClaimCursor - 1 + 1) := by
      ext x
      simp only [Finset.mem_insert, Finset.mem_union, Finset.mem_Ioc]
      constructor
      · rintro (rfl | hx)
        · exact .inr (by omega)
        · exact .inl hx
      · rintro (hx | hx)
        · exact .inr hx
        · exact .inl (by omega)
    have hextend := h.completing.extend (n := 1) (by omega)
    have hsettled := h.settled.extend h.completing.le 1
    rw [← hset, hlast] at hextend hsettled
    refine ⟨rfl, ⟨h.publishing.sized, h.publishing.gap, h.publishing.settled, hrange⟩,
      ⟨by dsimp only; omega, by dsimp only; omega⟩, ?_, hextend, hsettled, hslow, hwrite⟩
    rw [h.taken_eq]
    dsimp only
    rw [Nat.add_sub_cancel]
    conv_rhs => rw [← hlast, List.range'_concat]
    rw [Nat.one_mul, show 1 + (s.d.workerClaimCursor - 1) = s.d.workerClaimCursor by omega]

theorem release (h : s.Inv) {x : ℕ} (hs' : s.step (.release x) = some s') : s'.Inv := by
  have hcursors := h.cursors
  have hslow := h.slowest_le
  have hwrite := h.write_le
  have hrange := h.publishing.inRange
  rw [Pool.step] at hs'
  split at hs'
  next hx =>
    obtain rfl := Option.some.inj hs'
    obtain ⟨hlt, hle⟩ := h.completing.opens x hx
    have hmark := h.completing.mark h.settled hx (.inr (by omega))
    rw [← h.publishing.sized.ringIndex_eq] at hmark
    have hbound : ∀ i, (markWorkerCompleted s.d x).workerCompletedSequences i < uint64Max := by
      intro i
      by_cases hi : (markWorkerCompleted s.d x).workerCompletedSequences i = 0
      · rw [hi]
        simp [uint64Max]
      · have := (hmark.sound i hi).1
        simp only [markWorkerCompleted] at hi ⊢
        omega
    have hsized : Sized (markWorkerCompleted s.d x) := h.publishing.sized
    obtain ⟨hup, hall, hstop⟩ := advanced_spec hsized hbound
      (show s.d.workerCompletedCursor < uint64Max by omega)
    have hgap := hmark.advance hup hall
    have hsettled := hgap.settled hstop
    have htop := hgap.le
    rw [workerReleaseEntry, if_neg (by rw [h.mode]; simp; omega), tryAdvanceWorkerCompletedCursor]
    have hcursor : (markWorkerCompleted s.d x).workerCompletedCursor = s.d.workerCompletedCursor :=
      rfl
    rw [hcursor]
    generalize (markWorkerCompleted s.d x).advanced
      (markWorkerCompleted s.d x).workerCompletedSequences s.d.workerCompletedCursor = moved
      at hup hgap hsettled htop
    cases moved with
    | none =>
      exact ⟨h.mode, ⟨h.publishing.sized, h.publishing.gap, h.publishing.settled, hrange⟩,
        h.claimed, h.taken_eq, hgap, hsettled, hslow, hwrite⟩
    | some desired =>
      rw [Option.getD_some] at hup
      exact ⟨h.mode, ⟨h.publishing.sized, h.publishing.gap, h.publishing.settled, hrange⟩,
        h.claimed, h.taken_eq, hgap, hsettled, le_rfl,
        show s.d.writeCursor ≤ desired + s.d.capacity by omega⟩
  · exact absurd hs' (by simp)

theorem step (h : s.Inv) {op : PoolOp} (hop : s.BelowMax op) (hs' : s.step op = some s') :
    s'.Inv := by
  cases op with
  | claim count => exact h.claim hop hs'
  | publish first last => exact h.publish hs'
  | workerClaim => exact h.workerClaim hs'
  | release sequence => exact h.release hs'

theorem delivers (h : s.Inv) : s.Delivers := by
  have hcursors := h.cursors
  constructor
  · rw [h.taken_eq, List.length_range']
  · intro x hx
    obtain ⟨hpos, hlt⟩ := h.mem_taken.mp hx
    have hle := (h.publishing.le_maxRead_iff (x := x) (by omega)).mp (by omega)
    exact ⟨by omega, hle x le_rfl⟩
  · intro x hpos hx hall hnot
    have hle := (h.publishing.le_maxRead_iff hx).mpr hall
    have hfrom : s.d.workerClaimCursor ≤ x := by
      by_contra hlt
      exact hnot (h.mem_taken.mpr ⟨hpos, by omega⟩)
    refine ⟨s.d.workerClaimCursor, hfrom, ?_, fun hin => ?_⟩
    · rw [workerTryClaim, if_pos h.mode, if_neg (by omega)]
    · have := h.mem_taken.mp hin
      omega
  · intro count a b hc x hax hxb
    obtain ⟨d, hd⟩ : ∃ d, tryClaimRange s.d count = (d, some (a, b)) := ⟨_, Prod.ext rfl hc⟩
    obtain ⟨-, -, -, hroom, hslow, -⟩ := h.granted hd
    by_cases hlap : x ≤ s.d.capacity
    · exact .inl hlap
    · refine .inr ⟨h.mem_taken.mpr ⟨by omega, by omega⟩, fun hheld => ?_⟩
      have := h.completing.opens _ hheld
      omega

end Pool.Inv

theorem Pool.start_inv {config : Config} {d : Disruptor} (h : create config = some d)
    (hmode : config.mode = .workerPool) : (Pool.start d).Inv := by
  obtain ⟨rfl, hsized⟩ := create_sized h
  refine ⟨hmode, ⟨hsized, Gap.init _, ?_, by simp [Pool.start, init, uint64Max]⟩, ?_, rfl,
    Gap.init _, ?_, le_rfl, ?_⟩
  · exact fun hlt => absurd hlt (lt_irrefl _)
  · exact ⟨le_rfl, le_rfl⟩
  · exact fun hlt => absurd hlt (lt_irrefl _)
  · exact Nat.zero_le _

/-- In every run that does not claim the largest `uint64_t` the pool delivers every published
sequence to one worker. -/
theorem worker_pool_delivers {config : Config} {d : Disruptor} {s : Pool}
    (hcreate : create config = some d) (hmode : config.mode = .workerPool)
    (h : Pool.Reaches Pool.BelowMax d s) : s.Delivers := by
  have hinv : s.Inv := by
    induction h with
    | start => exact Pool.start_inv hcreate hmode
    | step _ hop hs' ih => exact ih.step hop hs'
  exact hinv.delivers

theorem Pool.Reaches.next {allowed : Pool → PoolOp → Prop} {d : Disruptor} {s s' : Pool}
    (h : Pool.Reaches allowed d s) (op : PoolOp) (hop : allowed s op) (hs' : s.step op = some s') :
    Pool.Reaches allowed d s' := h.step hop hs'

def pairPool : Config := ⟨8, 2, 1, .workerPool⟩

/-- The second of two claimed sequences is published first, and both are claimed after the
first one is. -/
theorem worker_pool_delivers_pair : ∃ s : Pool, s.taken = [1, 2] ∧ s.Delivers := by
  have h0 : Pool.Reaches Pool.BelowMax (init pairPool) (.start (init pairPool)) := .start
  have h1 := h0.next (.claim 2) (by simp [Pool.BelowMax, Pool.start, init, uint64Max]) rfl
  have h2 := h1.next (.publish 2 2) trivial rfl
  have h3 := h2.next (.publish 1 1) trivial rfl
  have h4 := h3.next .workerClaim trivial rfl
  have h5 := h4.next .workerClaim trivial rfl
  have hcreate : create pairPool = some (init pairPool) := rfl
  exact ⟨_, rfl, worker_pool_delivers hcreate rfl h5⟩

/-! ## The largest sequence -/

def singlePool : Config := ⟨8, 1, 1, .workerPool⟩

/-- The pool of one entry after `p` sequences have gone through it one by one. -/
def singleAt (p : ℕ) : Disruptor :=
  { init singlePool with
    slowestConsumer := p
    maxReadCursor := p
    writeCursor := p
    workerClaimCursor := p + 1
    workerCompletedCursor := p
    workerCompletedSequences := Function.update (fun _ => 0) 0 p }

theorem single_ringIndex {d : Disruptor} (hd : d.capacity = 1) (x : ℕ) : d.ringIndex x = 0 := by
  rw [ringIndex, hd, Nat.sub_self, Nat.zero_and]

theorem single_advanced {d : Disruptor} (hd : d.capacity = 1) (marks : ℕ → ℕ) (c : ℕ) :
    d.advanced marks c = if marks 0 = Word.add 64 c 1 then
      (if Word.add 64 (Word.add 64 c 1) 1 = Word.add 64 c 1 then none
        else some (Word.sub 64 (Word.add 64 (Word.add 64 c 1) 1) 1))
      else none := by
  rw [advanced, hd]
  simp only [probe, single_ringIndex hd]
  split
  · rfl
  · rw [if_pos rfl]

section single

variable {p : ℕ} (taken : List ℕ)

theorem single_claim (hp : p + 1 ≤ uint64Max) :
    Pool.step ⟨singleAt p, ∅, taken, ∅⟩ (.claim 1) =
      some ⟨{ singleAt p with writeCursor := p + 1 }, {p + 1}, taken, ∅⟩ := by
  have hroom : Word.sub 64 (p + 1) p ≤ 1 := by
    rw [Word.sub_of_le (by omega) (by simp only [uint64Max] at hp; omega)]
    omega
  have hclaim : tryClaimRange (singleAt p) 1 =
      ({ singleAt p with writeCursor := p + 1 }, some (p + 1, p + 1)) :=
    tryClaimRange_cached Nat.one_pos le_rfl hp hroom
  rw [Pool.step]
  dsimp only
  rw [hclaim]
  simp

/-- What publishing the one claimed sequence makes of the published cursor. -/
theorem single_publish (hp : p + 1 ≤ uint64Max) :
    Pool.step ⟨{ singleAt p with writeCursor := p + 1 }, {p + 1}, taken, ∅⟩
        (.publish (p + 1) (p + 1)) =
      some ⟨{ singleAt p with
        writeCursor := p + 1
        maxReadCursor := if p + 1 = uint64Max then 0 else p + 1 }, ∅, taken, ∅⟩ := by
  have hlt : p + 1 < 2 ^ 64 := by
    simp only [uint64Max] at hp
    omega
  have hfirst : Word.sub 64 (p + 1) 1 = p := by
    rw [Word.sub_of_le (by omega) hlt, Nat.add_sub_cancel]
  have hpublish : publishRange { singleAt p with writeCursor := p + 1 } (p + 1) (p + 1) =
      { singleAt p with
        writeCursor := p + 1
        maxReadCursor := if p + 1 = uint64Max then 0 else p + 1 } := by
    rw [publishRange, if_neg (by omega), hfirst, if_pos (by rfl), tryAdvancePublishedCursor,
      single_advanced (by rfl)]
    have hmark : (singleAt p).publishedSequences 0 = 0 := rfl
    dsimp only
    rw [hmark]
    by_cases hmax : p + 1 = uint64Max
    · have hwrap : Word.add 64 (p + 1) 1 = 0 := by
        rw [Word.add, hmax, uint64Max, Nat.sub_add_cancel Nat.one_le_two_pow, Nat.mod_self]
      have hone : Word.add 64 0 1 = 1 := Word.add_of_lt (by norm_num)
      have hback : Word.sub 64 1 1 = 0 := Word.sub_of_le le_rfl (by norm_num)
      rw [hwrap, if_pos rfl, hone, if_neg Nat.one_ne_zero, hback, if_pos hmax]
    · have hnext : Word.add 64 (p + 1) 1 = p + 2 := by
        apply Word.add_of_lt
        simp only [uint64Max] at hp hmax
        omega
      rw [hnext, if_neg (by omega), if_neg hmax]
  rw [Pool.step]
  dsimp only
  rw [hpublish]
  simp

theorem single_round (hp : p + 1 < uint64Max) {d : Disruptor}
    (h : Pool.Reaches (fun _ _ => True) d ⟨singleAt p, ∅, taken, ∅⟩) :
    Pool.Reaches (fun _ _ => True) d ⟨singleAt (p + 1), ∅, taken ++ [p + 1], ∅⟩ := by
  have hlt : p + 2 < 2 ^ 64 := by
    simp only [uint64Max] at hp
    omega
  have hnext : Word.add 64 (p + 1) 1 = p + 2 := Word.add_of_lt hlt
  have h1 := h.next _ trivial (single_claim taken hp.le)
  have h2 := h1.next _ trivial (single_publish taken hp.le)
  rw [if_neg (by omega)] at h2
  have htake : Pool.step ⟨{ singleAt p with writeCursor := p + 1, maxReadCursor := p + 1 }, ∅,
      taken, ∅⟩ .workerClaim = some ⟨{ singleAt p with
        writeCursor := p + 1, maxReadCursor := p + 1, workerClaimCursor := p + 2 }, ∅,
        taken ++ [p + 1], {p + 1}⟩ := by
    have hworker : workerTryClaim { singleAt p with
        writeCursor := p + 1, maxReadCursor := p + 1 } = ({ singleAt p with
        writeCursor := p + 1, maxReadCursor := p + 1, workerClaimCursor := p + 2 },
        some (p + 1)) := by
      rw [workerTryClaim, if_pos (by rfl), if_neg (by exact lt_irrefl (p + 1))]
      dsimp only [singleAt]
      rw [hnext]
    rw [Pool.step]
    dsimp only
    rw [hworker]
    simp
  have h3 := h2.next _ trivial htake
  have hrelease : Pool.step ⟨{ singleAt p with
        writeCursor := p + 1, maxReadCursor := p + 1, workerClaimCursor := p + 2 }, ∅,
        taken ++ [p + 1], {p + 1}⟩ (.release (p + 1)) =
      some ⟨singleAt (p + 1), ∅, taken ++ [p + 1], ∅⟩ := by
    have hentry : workerReleaseEntry { singleAt p with
        writeCursor := p + 1, maxReadCursor := p + 1, workerClaimCursor := p + 2 } (p + 1) =
        singleAt (p + 1) := by
      have hfirst : Word.add 64 p 1 = p + 1 := Word.add_of_lt (by omega)
      have hback : Word.sub 64 (p + 2) 1 = p + 1 := by
        rw [Word.sub_of_le (by omega) hlt]
        omega
      rw [workerReleaseEntry, if_neg (by simp [singleAt, init, singlePool]),
        tryAdvanceWorkerCompletedCursor, single_advanced (by rfl)]
      simp only [markWorkerCompleted, singleAt, single_ringIndex (d := { init singlePool with
        slowestConsumer := p, maxReadCursor := p + 1, writeCursor := p + 1,
        workerClaimCursor := p + 2, workerCompletedCursor := p,
        workerCompletedSequences := Function.update (fun _ => 0) 0 p }) (by rfl),
        Function.update_self, Function.update_idem]
      rw [hfirst, if_pos rfl, hnext, if_neg (by omega), hback]
    rw [Pool.step]
    dsimp only
    rw [hentry]
    simp
  exact h3.next _ trivial hrelease

theorem single_reach (p : ℕ) (hp : p < uint64Max) :
    Pool.Reaches (fun _ _ => True) (init singlePool)
      ⟨singleAt p, ∅, List.range' 1 p, ∅⟩ := by
  induction p with
  | zero =>
    have hstart : Pool.start (init singlePool) = ⟨singleAt 0, ∅, [], ∅⟩ := by
      simp [Pool.start, singleAt, init]
    exact hstart ▸ Pool.Reaches.start
  | succ p ih =>
    have h := single_round (List.range' 1 p) hp (ih (by omega))
    rw [List.range'_concat, Nat.one_mul, Nat.add_comm 1 p]
    exact h

end single

/-- Publishing the largest sequence sends the published cursor back to 0, and no worker ever
claims that sequence. -/
theorem worker_pool_loses_last : ∃ s : Pool,
    Pool.Reaches (fun _ _ => True) (init singlePool) s ∧ s.pending = ∅ ∧
      s.d.writeCursor = uint64Max ∧ ¬s.Delivers := by
  obtain ⟨p, hp⟩ : ∃ p, p + 1 = uint64Max := ⟨uint64Max - 1, by simp [uint64Max]⟩
  have h := single_reach p (by omega)
  have h1 := h.next _ trivial (single_claim _ hp.le)
  have h2 := h1.next _ trivial (single_publish _ hp.le)
  rw [if_pos hp] at h2
  refine ⟨_, h2, rfl, hp, fun hdelivers => ?_⟩
  obtain ⟨y, -, hy, -⟩ := hdelivers.notLost (p + 1) (by omega) le_rfl (by simp)
    (by rw [List.mem_range'_1]; omega)
  rw [workerTryClaim, if_pos (by rfl), if_pos (by exact Nat.succ_pos p)] at hy
  exact absurd hy (by simp)

end Concurrency.Disruptor
