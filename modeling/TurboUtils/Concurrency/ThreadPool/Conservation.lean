import TurboUtils.Concurrency.ThreadPool.Steps
import TurboUtils.Lib.Census

/-! No task is lost or done twice: each slot that is reserved is with one party at any time, and
each accepted task is in the queue, with a worker, or done. -/
namespace Concurrency.ThreadPool

open Disruptor (Pool)

/-- Once all workers have left and all calls have returned, the accepted tasks were run or
cancelled once, the others were not touched, and no slot is taken; and there are never more slots
taken than the capacity. -/
structure System.Conserves (s : System) : Prop where
  depth_le : s.p.queuedDepth ≤ s.p.queueCapacity
  settled : (∀ w < s.p.numThreads, s.workers w = .ended) →
    (∀ c < s.callCount, ∃ status, (s.calls c).pc = .returned status) →
    s.p.queuedDepth = 0 ∧ ∀ c < s.callCount, ∀ status, (s.calls c).pc = .returned status →
      (status = .ok → s.p.ran c + s.p.cancelled c = 1) ∧
      (status ≠ .ok → s.p.ran c = 0 ∧ s.p.cancelled c = 0)

/-- A slot is reserved only while some worker is in its loop, and the largest `uint64_t` is not
claimed. -/
def System.WorkerStays (s : System) : Action → Prop
  | .call c fails =>
      match (s.calls c).pc with
      | .reserveTry depth => s.p.queuedDepth = depth → fails = false →
          ∃ w < s.p.numThreads, (s.workers w).gone = false
      | .claim => s.p.queue.writeCursor + 1 ≠ Disruptor.uint64Max
      | _ => True
  | _ => True

/-! ## The queue -/

def live (d : Disruptor) : Finset ℕ := Finset.Ico d.workerClaimCursor (d.writeCursor + 1)

section queue

variable {g : Pool}

theorem completed_eq (h : g.Inv) (hheld : g.held = ∅) :
    g.d.workerCompletedCursor + 1 = g.d.workerClaimCursor := by
  have hcursors := h.cursors
  by_contra hne
  have hopen := h.settled (show g.d.workerCompletedCursor < g.d.workerClaimCursor - 1 by omega)
  rw [hheld] at hopen
  exact absurd hopen (Finset.notMem_empty _)

theorem live_index (h : g.Inv) (hheld : g.held = ∅) {x y : ℕ} (hx : x ∈ live g.d)
    (hy : y ∈ live g.d) (hne : x ≠ y) : g.d.ringIndex x ≠ g.d.ringIndex y := by
  have hcompleted := completed_eq h hheld
  have hslow := h.slowest_le
  have hwrite := h.write_le
  rw [live, Finset.mem_Ico] at hx hy
  rw [h.publishing.sized.ringIndex_eq, h.publishing.sized.ringIndex_eq]
  intro hcell
  rcases Nat.lt_or_gt_of_ne hne with hlt | hlt
  · have := GapCursor.eq_of_cell hlt (by omega) hcell
    omega
  · have := GapCursor.eq_of_cell hlt (by omega) hcell.symm
    omega

theorem pending_live (h : g.Inv) {x : ℕ} (hx : x ∈ g.pending) : x ∈ live g.d := by
  have hcursors := h.cursors
  have := h.publishing.gap.opens x hx
  rw [live, Finset.mem_Ico]
  omega

theorem claim_none (h : g.Inv) {d : Disruptor} (hmax : g.d.writeCursor + 1 ≠ Disruptor.uint64Max)
    (hc : Disruptor.tryClaimRange g.d 1 = (d, none)) :
    Pool.Inv { g with d } ∧ live d = live g.d ∧ d.capacity = g.d.capacity := by
  have hstep : g.step (.claim 1) = some { g with d } := by
    rw [Pool.step, hc]
  have hinv := h.claim hmax hstep
  have hcases := Disruptor.tryClaimRange_cases h.publishing.inRange 1
  rw [hc] at hcases
  cases hcases with
  | refused => exact ⟨hinv, rfl, rfl⟩
  | full => exact ⟨hinv, rfl, rfl⟩

theorem claim_some (h : g.Inv) {d : Disruptor} {x y : ℕ}
    (hmax : g.d.writeCursor + 1 ≠ Disruptor.uint64Max)
    (hc : Disruptor.tryClaimRange g.d 1 = (d, some (x, y))) :
    Pool.Inv { g with d, pending := g.pending ∪ {x} } ∧ live d = insert x (live g.d) ∧
      x ∉ live g.d ∧ d.capacity = g.d.capacity := by
  have hcursors := h.cursors
  obtain ⟨rfl, rfl, -, -, -, hsame⟩ := h.granted hc
  have hstep : g.step (.claim 1) =
      some { g with d, pending := g.pending ∪ {g.d.writeCursor + 1} } := by
    rw [Pool.step, hc]
    dsimp only
    rw [Finset.Icc_self]
  refine ⟨h.claim hmax hstep, ?_, ?_, ?_⟩
  · rw [hsame, live, live]
    ext z
    simp only [Finset.mem_insert, Finset.mem_Ico]
    omega
  · rw [live, Finset.mem_Ico]
    omega
  · rw [hsame]

theorem publish_one (h : g.Inv) {x : ℕ} (hx : x ∈ g.pending) :
    Pool.Inv { g with d := Disruptor.publishRange g.d x x, pending := g.pending.erase x } ∧
      live (Disruptor.publishRange g.d x x) = live g.d ∧
      (Disruptor.publishRange g.d x x).capacity = g.d.capacity := by
  have hsame := Disruptor.publishRange_same g.d x x
  have hstep : g.step (.publish x x) = some { g with
      d := Disruptor.publishRange g.d x x, pending := g.pending.erase x } := by
    rw [Pool.step, if_pos, Finset.Icc_self, Finset.sdiff_singleton_eq_erase]
    exact ⟨le_rfl, by rwa [Finset.Icc_self, Finset.singleton_subset_iff]⟩
  refine ⟨h.publish hstep, ?_, ?_⟩
  · rw [hsame]
    rfl
  · rw [hsame]

theorem workerReleaseEntry_same (d : Disruptor) (x : ℕ) :
    live (Disruptor.workerReleaseEntry d x) = live d ∧
      (Disruptor.workerReleaseEntry d x).capacity = d.capacity := by
  unfold Disruptor.workerReleaseEntry
  split
  · exact ⟨rfl, rfl⟩
  · unfold Disruptor.tryAdvanceWorkerCompletedCursor
    split <;> exact ⟨rfl, rfl⟩

theorem take_none (h : g.Inv) {d : Disruptor} (hc : Disruptor.workerTryClaim g.d = (d, none)) :
    d = g.d := by
  unfold Disruptor.workerTryClaim at hc
  rw [if_pos h.mode] at hc
  split at hc
  · exact (Prod.mk.inj hc).1.symm
  · exact absurd hc (by simp)

theorem take_some (h : g.Inv) (hheld : g.held = ∅) {d : Disruptor} {x : ℕ}
    (hc : Disruptor.workerTryClaim g.d = (d, some x)) :
    Pool.Inv { g with d := Disruptor.workerReleaseEntry d x, taken := g.taken ++ [x] } ∧
      x ∈ live g.d ∧ live (Disruptor.workerReleaseEntry d x) = (live g.d).erase x ∧
      x ∉ g.pending ∧ d.capacity = g.d.capacity := by
  have hcursors := h.cursors
  have hclaim : g.step .workerClaim =
      some { g with d, taken := g.taken ++ [x], held := insert x g.held } := by
    rw [Pool.step, hc]
  have hheld' := h.workerClaim hclaim
  have hrelease : Pool.step { g with d, taken := g.taken ++ [x], held := insert x g.held }
      (.release x) = some { g with
        d := Disruptor.workerReleaseEntry d x, taken := g.taken ++ [x] } := by
    rw [Pool.step, if_pos (Finset.mem_insert_self _ _)]
    dsimp only
    rw [hheld, Finset.erase_insert (Finset.notMem_empty x)]
  obtain ⟨hlive, -⟩ := workerReleaseEntry_same d x
  have hrange := h.publishing.inRange
  unfold Disruptor.workerTryClaim at hc
  rw [if_pos h.mode] at hc
  split at hc
  · exact absurd hc (by simp)
  next hready =>
  obtain ⟨rfl, hx⟩ := Prod.mk.inj hc
  obtain rfl := Option.some.inj hx
  have hnext : Word.add 64 g.d.workerClaimCursor 1 = g.d.workerClaimCursor + 1 := by
    apply Word.add_of_lt
    simp only [Disruptor.uint64Max] at hrange
    omega
  refine ⟨hheld'.release hrelease, ?_, ?_, fun hpending => ?_, rfl⟩
  · rw [live, Finset.mem_Ico]
    omega
  · rw [hlive, live, live]
    dsimp only
    rw [hnext]
    ext z
    simp only [Finset.mem_erase, Finset.mem_Ico]
    omega
  · have := h.publishing.gap.opens _ hpending
    omega

end queue

/-! ## The invariant -/

/-- `g` is the queue with what its users have done, and `owner` the call that claimed each
sequence. -/
structure System.Inv (s : System) (g : Pool) (owner : ℕ → ℕ) : Prop where
  d : g.d = s.p.queue
  queue : g.Inv
  held : g.held = ∅
  ready : ∀ c, (s.calls c).Ready
  id : ∀ c < s.callCount, (s.calls c).task.id = c
  unused : ∀ c, s.callCount ≤ c → (s.calls c).pc = .enter
  tried : ∀ c depth, (s.calls c).pc = .reserveTry depth → depth < s.p.queueCapacity
  sequence : ∀ c x, (s.calls c).pc.sequence = some x → x ∈ g.pending ∧ owner x = c
  written : ∀ x ∈ live s.p.queue, (s.calls (owner x)).pc = .write x ∨
    s.p.ring (s.p.queue.ringIndex x) = ⟨owner x, true⟩
  depth : s.p.queuedDepth = (Census.total s.callCount (fun call => call.pc.reserved) s.calls +
    (live s.p.queue).card + Census.total s.p.numThreads WorkerPc.unreleased s.workers : ℕ)
  depth_le : s.p.queuedDepth ≤ s.p.queueCapacity
  task : ∀ c, ((live s.p.queue).filter (owner · = c)).card +
    Census.total s.p.numThreads (WorkerPc.holds c) s.workers + s.p.ran c + s.p.cancelled c =
      (s.calls c).pc.claimed
  drained : (∀ w < s.p.numThreads, (s.workers w).gone = true) → s.p.queuedDepth = 0

namespace System.Inv

variable {s s' : System} {g : Pool} {owner : ℕ → ℕ}

theorem reserved_eq_zero (h : s.Inv g owner) (hzero : s.p.queuedDepth = 0) {c : ℕ}
    (hc : c < s.callCount) : (s.calls c).pc.reserved = 0 := by
  have hdepth := h.depth
  have hle := Census.weight_le_total hc (fun call : Submission => call.pc.reserved) s.calls
  omega

/-! ### Calls -/

theorem submit (h : s.Inv g owner) {run blocking inPool : Bool}
    (hs' : s.step (.submit run blocking inPool) = some s') : s'.Inv g owner := by
  obtain rfl := Option.some.inj hs'
  have hself : (Function.update s.calls s.callCount
      ⟨⟨s.callCount, run⟩, blocking, inPool, .enter⟩ s.callCount).pc = .enter := by
    rw [Function.update_self]
  have hpc : ∀ c, (Function.update s.calls s.callCount
      ⟨⟨s.callCount, run⟩, blocking, inPool, .enter⟩ c).pc = (s.calls c).pc := by
    intro c
    by_cases hc : c = s.callCount
    · rw [hc, hself, h.unused s.callCount le_rfl]
    · rw [Function.update_of_ne hc]
  constructor
  · exact h.d
  · exact h.queue
  · exact h.held
  · intro c
    dsimp only
    by_cases hc : c = s.callCount
    · exact .inr (.inl (hc ▸ hself))
    · rw [Function.update_of_ne hc]
      exact h.ready c
  · intro c hlt
    dsimp only at hlt ⊢
    by_cases hc : c = s.callCount
    · rw [hc, Function.update_self]
    · rw [Function.update_of_ne hc]
      exact h.id c (by omega)
  · intro c hle
    dsimp only at hle ⊢
    rw [hpc]
    exact h.unused c (by omega)
  · intro c depth hc
    dsimp only at hc
    rw [hpc] at hc
    exact h.tried c depth hc
  · intro c x hc
    dsimp only at hc
    rw [hpc] at hc
    exact h.sequence c x hc
  · intro x hx
    dsimp only
    rw [hpc]
    exact h.written x hx
  · dsimp only
    rw [Census.total_join (by rfl)]
    exact h.depth
  · exact h.depth_le
  · intro c
    dsimp only
    rw [hpc]
    exact h.task c
  · exact h.drained

/-- Call `c` takes a step: what it does to the pool, and what the call has then. -/
theorem moved (h : s.Inv g owner) {c : ℕ} (hc : c < s.callCount) {p' : ThreadPool}
    {pc' : SubmitPc} {g' : Pool} {owner' : ℕ → ℕ} (hd : g'.d = p'.queue) (hqueue : g'.Inv)
    (hheld : g'.held = ∅) (hthreads : p'.numThreads = s.p.numThreads)
    (hcapacity : p'.queueCapacity = s.p.queueCapacity)
    (hready : Submission.Ready { s.calls c with pc := pc' })
    (htried : ∀ depth, pc' = .reserveTry depth → depth < s.p.queueCapacity)
    (hsequence : ∀ x, pc'.sequence = some x → x ∈ g'.pending ∧ owner' x = c)
    (hothers : ∀ i x, i ≠ c → (s.calls i).pc.sequence = some x → x ∈ g'.pending ∧ owner' x = i)
    (hwritten : ∀ x ∈ live p'.queue,
      (Function.update s.calls c { s.calls c with pc := pc' } (owner' x)).pc = .write x ∨
        p'.ring (p'.queue.ringIndex x) = ⟨owner' x, true⟩)
    (hdepth : p'.queuedDepth + ((s.calls c).pc.reserved + (live s.p.queue).card : ℕ) =
      s.p.queuedDepth + (pc'.reserved + (live p'.queue).card : ℕ))
    (hdepth_le : p'.queuedDepth ≤ s.p.queueCapacity)
    (htask : ∀ i, ((live p'.queue).filter (owner' · = i)).card + p'.ran i + p'.cancelled i +
        (s.calls i).pc.claimed =
      ((live s.p.queue).filter (owner · = i)).card + s.p.ran i + s.p.cancelled i +
        (Function.update s.calls c { s.calls c with pc := pc' } i).pc.claimed)
    (hdrained : s.p.queuedDepth = 0 → (∀ w < s.p.numThreads, (s.workers w).gone = true) →
      p'.queuedDepth = 0) :
    Inv { s with p := p', calls := Function.update s.calls c { s.calls c with pc := pc' } } g'
      owner' := by
  have hpc : ∀ i, i ≠ c →
      Function.update s.calls c { s.calls c with pc := pc' } i = s.calls i :=
    fun i hi => Function.update_of_ne hi _ _
  have hself : Function.update s.calls c { s.calls c with pc := pc' } c =
      { s.calls c with pc := pc' } := Function.update_self _ _ _
  have htotal := Census.total_update hc (fun call : Submission => call.pc.reserved) s.calls
    { s.calls c with pc := pc' }
  constructor
  · exact hd
  · exact hqueue
  · exact hheld
  · intro i
    dsimp only
    by_cases hi : i = c
    · rw [hi, hself]
      exact hready
    · rw [hpc i hi]
      exact h.ready i
  · intro i hlt
    dsimp only at hlt ⊢
    by_cases hi : i = c
    · rw [hi, hself]
      exact h.id c hc
    · rw [hpc i hi]
      exact h.id i hlt
  · intro i hle
    dsimp only at hle ⊢
    rw [hpc i (by omega)]
    exact h.unused i hle
  · intro i depth hi'
    dsimp only at hi' ⊢
    rw [hcapacity]
    by_cases hi : i = c
    · rw [hi, hself] at hi'
      exact htried depth hi'
    · rw [hpc i hi] at hi'
      exact h.tried i depth hi'
  · intro i x hi'
    dsimp only at hi'
    by_cases hi : i = c
    · subst hi
      rw [hself] at hi'
      exact hsequence x hi'
    · rw [hpc i hi] at hi'
      exact hothers i x hi hi'
  · exact hwritten
  · have hbefore := h.depth
    dsimp only at htotal ⊢
    rw [hthreads]
    omega
  · dsimp only
    rw [hcapacity]
    exact hdepth_le
  · intro i
    have hbefore := h.task i
    have hmoved := htask i
    dsimp only at hmoved ⊢
    rw [hthreads]
    omega
  · intro hgone
    dsimp only at hgone ⊢
    rw [hthreads] at hgone
    exact hdrained (h.drained hgone) hgone

/-- A step of call `c` in which the tasks stay where they are. -/
theorem quiet (h : s.Inv g owner) {c : ℕ} {fails : Bool} (hc : c < s.callCount)
    (hstays : ∀ depth, (s.calls c).pc = .reserveTry depth → s.p.queuedDepth = depth →
      fails = false → ∃ w < s.p.numThreads, (s.workers w).gone = false)
    {p' : ThreadPool} {pc' : SubmitPc} (hready : Submission.Ready { s.calls c with pc := pc' })
    (hquiet : Quiet s.p (s.calls c) fails p' pc') (hwrite : ∀ x, (s.calls c).pc ≠ .write x) :
    Inv { s with p := p', calls := Function.update s.calls c { s.calls c with pc := pc' } } g
      owner := by
  have hsame := hquiet.same
  have hmoved := hquiet.depth
  apply h.moved hc (h.d.trans hsame.queue.symm) h.queue h.held hsame.numThreads
    hsame.queueCapacity hready hquiet.tried
  · intro x hx
    exact h.sequence c x (hquiet.sequence ▸ hx)
  · exact fun i x _ hx => h.sequence i x hx
  · intro x hx
    rw [hsame.queue] at hx ⊢
    rw [hquiet.ring]
    refine (h.written x hx).imp_left fun hx' => ?_
    rw [Function.update_of_ne fun heq : owner x = c => hwrite x (heq ▸ hx')]
    exact hx'
  · rw [hsame.queue]
    omega
  · exact hquiet.depth_le h.depth_le
  · intro i
    rw [hsame.queue, hsame.ran, hsame.cancelled]
    by_cases hi : i = c
    · rw [hi, Function.update_self, hquiet.claimed]
    · rw [Function.update_of_ne hi]
  · intro hzero hgone
    have hreserved := h.reserved_eq_zero hzero hc
    rcases hquiet.reserves with hle | ⟨depth, htry, hcas⟩
    · omega
    · -- a slot is reserved while a worker is there
      obtain ⟨w, hw, hin⟩ := hstays depth htry hcas.1 hcas.2
      rw [hgone w hw] at hin
      exact absurd hin (by simp)

theorem ringIndex_congr {d d' : Disruptor} (h : d'.capacity = d.capacity) (x : ℕ) :
    d'.ringIndex x = d.ringIndex x := by
  rw [Disruptor.ringIndex, Disruptor.ringIndex, h]

theorem task_run (h : s.Inv g owner) {c : ℕ} (henter : (s.calls c).pc ≠ .enter)
    (hreturned : ∀ status, (s.calls c).pc ≠ .returned status) : (s.calls c).task.run = true := by
  rcases h.ready c with hrun | hpc | ⟨status, hpc⟩
  · exact hrun
  · exact absurd hpc henter
  · exact absurd hpc (hreturned status)

/-- The claimed sequence is the call's. -/
theorem claimed (h : s.Inv g owner) {c : ℕ} (hc : c < s.callCount)
    (hpc : (s.calls c).pc = .claim) {d : Disruptor} {x y : ℕ}
    (hmax : g.d.writeCursor + 1 ≠ Disruptor.uint64Max)
    (hclaim : Disruptor.tryClaimRange g.d 1 = (d, some (x, y))) :
    Inv { s with
      p := { s.p with queue := d }
      calls := Function.update s.calls c { s.calls c with pc := .write x } }
      { g with d, pending := g.pending ∪ {x} } (Function.update owner x c) := by
  obtain ⟨hinv, hlive, hnew, hcapacity⟩ := claim_some h.queue hmax hclaim
  have hpending : ∀ z ∈ g.pending, z ≠ x := by
    intro z hz heq
    exact hnew (heq ▸ pending_live h.queue hz)
  rw [h.d] at hlive hnew hcapacity
  apply h.moved hc
  · rfl
  · exact hinv
  · exact h.held
  · rfl
  · rfl
  · exact .inl (h.task_run (by rw [hpc]; nofun) (by rw [hpc]; exact fun _ => nofun))
  · exact fun _ => nofun
  · intro z hz
    obtain rfl := Option.some.inj hz
    exact ⟨Finset.mem_union_right _ (Finset.mem_singleton_self _), Function.update_self _ _ _⟩
  · intro i z hi hz
    obtain ⟨hmem, howner⟩ := h.sequence i z hz
    refine ⟨Finset.mem_union_left _ hmem, ?_⟩
    rw [Function.update_of_ne (hpending z hmem), howner]
  · intro z hz
    dsimp only at hz ⊢
    rw [hlive, Finset.mem_insert] at hz
    by_cases hzx : z = x
    · left
      rw [hzx, Function.update_self, Function.update_self]
    · rw [Function.update_of_ne hzx, ringIndex_congr hcapacity]
      refine (h.written z (hz.resolve_left hzx)).imp_left fun hwrite => ?_
      rw [Function.update_of_ne, hwrite]
      intro heq
      rw [heq, hpc] at hwrite
      exact absurd hwrite nofun
  · dsimp only
    rw [hlive, Finset.card_insert_of_notMem hnew, hpc]
    simp only [SubmitPc.reserved]
    omega
  · exact h.depth_le
  · intro i
    have hsame : (live s.p.queue).filter (Function.update owner x c · = i) =
        (live s.p.queue).filter (owner · = i) := by
      apply Finset.filter_congr
      intro z hz
      rw [Function.update_of_ne fun heq : z = x => hnew (heq ▸ hz)]
    dsimp only
    rw [hlive, Finset.filter_insert, Function.update_self, hsame]
    by_cases hi : i = c
    · subst hi
      rw [if_pos rfl, Finset.card_insert_of_notMem fun hin => hnew (Finset.mem_filter.mp hin).1,
        Function.update_self, hpc]
      simp only [SubmitPc.claimed]
      omega
    · rw [if_neg (Ne.symm hi), Function.update_of_ne hi]
  · exact fun hzero _ => hzero

/-- The queue has looked for room and found none. -/
theorem unclaimed (h : s.Inv g owner) {d : Disruptor}
    (hmax : g.d.writeCursor + 1 ≠ Disruptor.uint64Max)
    (hclaim : Disruptor.tryClaimRange g.d 1 = (d, none)) :
    Inv { s with p := { s.p with queue := d } } { g with d } owner := by
  obtain ⟨hinv, hlive, hcapacity⟩ := claim_none h.queue hmax hclaim
  rw [h.d] at hlive hcapacity
  constructor
  · rfl
  · exact hinv
  · exact h.held
  · exact h.ready
  · exact h.id
  · exact h.unused
  · exact h.tried
  · exact h.sequence
  · intro x hx
    dsimp only at hx ⊢
    rw [hlive] at hx
    rw [ringIndex_congr hcapacity]
    exact h.written x hx
  · dsimp only
    rw [hlive]
    exact h.depth
  · exact h.depth_le
  · dsimp only
    rw [hlive]
    exact h.task
  · exact h.drained

theorem claim (h : s.Inv g owner) {c : ℕ} {fails : Bool} (hc : c < s.callCount)
    (hpc : (s.calls c).pc = .claim) (hop : s.WorkerStays (.call c fails))
    (hs' : s.step (.call c fails) = some s') : ∃ g' owner', s'.Inv g' owner' := by
  have hrun := h.task_run (c := c) (by rw [hpc]; nofun) (by rw [hpc]; exact fun _ => nofun)
  have hmax := hop
  rw [WorkerStays, hpc] at hmax
  dsimp only at hmax
  rw [← h.d] at hmax
  rw [step, if_pos hc] at hs'
  obtain rfl := Option.some.inj hs'
  unfold Submission.step
  rw [hpc]
  dsimp only
  rw [← h.d]
  split
  next d x y hclaim => exact ⟨_, _, h.claimed hc hpc hmax hclaim⟩
  next d hclaim =>
    have hrequeued := h.unclaimed hmax hclaim
    refine ⟨_, owner, hrequeued.quiet hc (fun depth htry _ (_ : fails = false) => ?_) (.inl hrun) ?_
      fun x hwrite => ?_⟩
    · rw [hpc] at htry
      exact absurd htry nofun
    · split
      · exact .look (by rw [hpc]; rfl) (by rw [hpc]; rfl) (by rw [hpc]; rfl) (fun _ => nofun)
          fun _ => nofun
      · exact .look (by rw [hpc]; rfl) (by rw [hpc]; rfl) (by rw [hpc]; rfl) (fun _ => nofun)
          fun _ => nofun
    · rw [hpc] at hwrite
      exact absurd hwrite nofun

theorem write (h : s.Inv g owner) {c x : ℕ} {fails : Bool} (hc : c < s.callCount)
    (hpc : (s.calls c).pc = .write x) (hs' : s.step (.call c fails) = some s') :
    s'.Inv g owner := by
  have hrun := h.task_run (c := c) (by rw [hpc]; nofun) (by rw [hpc]; exact fun _ => nofun)
  obtain ⟨hpending, howner⟩ := h.sequence c x (by rw [hpc]; rfl)
  have hx := pending_live h.queue hpending
  rw [step, if_pos hc] at hs'
  obtain rfl := Option.some.inj hs'
  unfold Submission.step
  rw [hpc]
  apply h.moved hc
  · exact h.d
  · exact h.queue
  · exact h.held
  · rfl
  · rfl
  · exact .inl hrun
  · exact fun _ => nofun
  · intro z hz
    exact h.sequence c z (by rw [hpc]; exact hz)
  · exact fun i z _ hz => h.sequence i z hz
  · intro z hz
    dsimp only at hz ⊢
    by_cases hzx : z = x
    · right
      have hid := h.id c hc
      rw [hzx, Function.update_self, howner]
      generalize (s.calls c).task = task at hid hrun
      obtain ⟨id, run⟩ := task
      exact congrArg₂ Task.mk hid hrun
    · rw [← h.d] at hz ⊢
      rw [Function.update_of_ne (live_index h.queue h.held hz hx hzx)]
      rw [h.d] at hz ⊢
      refine (h.written z hz).imp_left fun hwrite => ?_
      rw [Function.update_of_ne, hwrite]
      intro heq
      rw [heq, hpc] at hwrite
      exact hzx (SubmitPc.write.inj hwrite).symm
  · rw [hpc]
    rfl
  · exact h.depth_le
  · intro i
    dsimp only
    by_cases hi : i = c
    · rw [hi, Function.update_self, hpc]
      rfl
    · rw [Function.update_of_ne hi]
  · exact fun hzero _ => hzero

theorem publish (h : s.Inv g owner) {c x : ℕ} {fails : Bool} (hc : c < s.callCount)
    (hpc : (s.calls c).pc = .publish x) (hs' : s.step (.call c fails) = some s') :
    ∃ g', s'.Inv g' owner := by
  have hrun := h.task_run (c := c) (by rw [hpc]; nofun) (by rw [hpc]; exact fun _ => nofun)
  obtain ⟨hpending, howner⟩ := h.sequence c x (by rw [hpc]; rfl)
  obtain ⟨hinv, hlive, hcapacity⟩ := publish_one h.queue hpending
  rw [step, if_pos hc] at hs'
  obtain rfl := Option.some.inj hs'
  unfold Submission.step
  rw [hpc]
  dsimp only
  rw [← h.d]
  rw [h.d] at hlive hcapacity
  refine ⟨_, h.moved hc rfl hinv h.held rfl rfl (.inl hrun) (fun _ => nofun) (fun _ => nofun) ?_ ?_
    ?_ h.depth_le ?_ fun hzero _ => hzero⟩
  · intro i z hi hz
    obtain ⟨hmem, hz'⟩ := h.sequence i z hz
    refine ⟨Finset.mem_erase.mpr ⟨?_, hmem⟩, hz'⟩
    rintro rfl
    exact hi (hz'.symm.trans howner)
  · intro z hz
    dsimp only at hz ⊢
    rw [h.d] at hz ⊢
    rw [hlive] at hz
    rw [ringIndex_congr hcapacity]
    refine (h.written z hz).imp_left fun hwrite => ?_
    rw [Function.update_of_ne, hwrite]
    intro heq
    rw [heq, hpc] at hwrite
    exact absurd hwrite nofun
  · dsimp only
    rw [h.d, hlive, hpc]
    rfl
  · intro i
    dsimp only
    rw [h.d, hlive]
    by_cases hi : i = c
    · rw [hi, Function.update_self, hpc]
      rfl
    · rw [Function.update_of_ne hi]

theorem call (h : s.Inv g owner) {c : ℕ} {fails : Bool} (hop : s.WorkerStays (.call c fails))
    (hs' : s.step (.call c fails) = some s') : ∃ g' owner', s'.Inv g' owner' := by
  by_cases hc : c < s.callCount
  · by_cases hclaim : (s.calls c).pc = .claim
    · exact h.claim hc hclaim hop hs'
    by_cases hwrite : ∃ x, (s.calls c).pc = .write x
    · obtain ⟨x, hwrite⟩ := hwrite
      exact ⟨g, owner, h.write hc hwrite hs'⟩
    by_cases hpublish : ∃ x, (s.calls c).pc = .publish x
    · obtain ⟨x, hpublish⟩ := hpublish
      obtain ⟨g', hinv⟩ := h.publish hc hpublish hs'
      exact ⟨g', owner, hinv⟩
    rw [step, if_pos hc] at hs'
    obtain rfl := Option.some.inj hs'
    refine ⟨g, owner, h.quiet hc (fun depth htry hdepth hfails => ?_)
      ((s.calls c).step_ready s.p fails (h.ready c))
      ((s.calls c).step_quiet s.p fails hclaim (not_exists.mp hwrite) (not_exists.mp hpublish)
        (h.tried c)) (not_exists.mp hwrite)⟩
    rw [WorkerStays, htry] at hop
    exact hop hdepth hfails
  · rw [step, if_neg hc] at hs'
    exact absurd hs' (by simp)

/-! ### Workers and callers of shutdown -/

/-- Worker `w` takes a step: what it does to the pool, and what it has then. -/
theorem worked (h : s.Inv g owner) {w : ℕ} (hw : w < s.p.numThreads) {p' : ThreadPool}
    {pc' : WorkerPc} {g' : Pool} (hd : g'.d = p'.queue) (hqueue : g'.Inv) (hheld : g'.held = ∅)
    (hthreads : p'.numThreads = s.p.numThreads)
    (hcapacity : p'.queueCapacity = s.p.queueCapacity) (hring : p'.ring = s.p.ring)
    (hindex : p'.queue.capacity = s.p.queue.capacity) (hpending : g'.pending = g.pending)
    (hlive : live p'.queue ⊆ live s.p.queue)
    (hdepth : p'.queuedDepth + ((s.workers w).unreleased + (live s.p.queue).card : ℕ) =
      s.p.queuedDepth + (pc'.unreleased + (live p'.queue).card : ℕ))
    (hdepth_le : p'.queuedDepth ≤ s.p.queuedDepth)
    (htask : ∀ c, ((live p'.queue).filter (owner · = c)).card + pc'.holds c + p'.ran c +
        p'.cancelled c =
      ((live s.p.queue).filter (owner · = c)).card + (s.workers w).holds c + s.p.ran c +
        s.p.cancelled c)
    (hgone : pc'.gone = true → p'.queuedDepth = s.p.queuedDepth ∧
      ((s.workers w).gone = true ∨ s.p.queuedDepth ≤ 0)) :
    Inv { s with p := p', workers := Function.update s.workers w pc' } g' owner := by
  have hunreleased := Census.total_update hw WorkerPc.unreleased s.workers pc'
  constructor
  · exact hd
  · exact hqueue
  · exact hheld
  · exact h.ready
  · exact h.id
  · exact h.unused
  · dsimp only
    rw [hcapacity]
    exact h.tried
  · rw [hpending]
    exact h.sequence
  · intro x hx
    dsimp only at hx ⊢
    rw [hring, ringIndex_congr hindex]
    exact h.written x (hlive hx)
  · have hbefore := h.depth
    dsimp only
    rw [hthreads]
    omega
  · dsimp only
    rw [hcapacity]
    exact hdepth_le.trans h.depth_le
  · intro c
    have hbefore := h.task c
    have hholds := Census.total_update hw (WorkerPc.holds c) s.workers pc'
    have hmoved := htask c
    dsimp only
    rw [hthreads]
    omega
  · intro hall
    dsimp only at hall ⊢
    rw [hthreads] at hall
    have hself := hall w hw
    rw [Function.update_self] at hself
    obtain ⟨hsame, hgone'⟩ := hgone hself
    rw [hsame]
    rcases hgone' with hgone' | hle
    · apply h.drained
      intro i hi
      by_cases hiw : i = w
      · exact hiw ▸ hgone'
      · have := hall i hi
        rwa [Function.update_of_ne hiw] at this
    · have := h.depth
      omega

theorem take (h : s.Inv g owner) {w : ℕ} (hw : w < s.p.numThreads) (hpc : s.workers w = .take)
    (hs' : s.step (.worker w) = some s') : ∃ g', s'.Inv g' owner := by
  rw [step, if_pos hw] at hs'
  obtain rfl := Option.some.inj hs'
  unfold WorkerPc.step
  rw [hpc]
  dsimp only
  rw [← h.d]
  split
  next d hclaim =>
    obtain rfl := take_none h.queue hclaim
    refine ⟨g, h.worked hw rfl h.queue h.held rfl rfl rfl (by rw [h.d]) rfl (by rw [h.d]) ?_ le_rfl
      (fun c => ?_) nofun⟩
    · dsimp only
      rw [hpc, h.d]
      rfl
    · dsimp only
      rw [hpc, h.d]
      rfl
  next d x hclaim =>
    obtain ⟨hinv, hx, hlive, hpending, hcapacity⟩ := take_some h.queue h.held hclaim
    obtain ⟨-, hreleased⟩ := workerReleaseEntry_same d x
    rw [h.d] at hx hlive hcapacity
    -- a published entry has been written
    have hentry : s.p.ring (d.ringIndex x) = ⟨owner x, true⟩ := by
      rw [ringIndex_congr hcapacity]
      refine (h.written x hx).resolve_left fun hwrite => hpending ?_
      exact (h.sequence (owner x) x (by rw [hwrite]; rfl)).1
    have hcard := Finset.card_erase_add_one hx
    rw [hentry, if_pos rfl]
    refine ⟨_, h.worked hw rfl hinv h.held rfl rfl rfl (hreleased.trans hcapacity) rfl ?_ ?_ le_rfl
      (fun c => ?_) nofun⟩
    · dsimp only
      rw [hlive]
      exact Finset.erase_subset _ _
    · dsimp only
      rw [hpc, hlive]
      simp only [WorkerPc.unreleased]
      omega
    · dsimp only
      rw [hpc, hlive, Finset.filter_erase]
      simp only [WorkerPc.holds]
      by_cases hc : owner x = c
      · have hmem : x ∈ (live s.p.queue).filter (owner · = c) := Finset.mem_filter.mpr ⟨hx, hc⟩
        have hcount := Finset.card_erase_add_one hmem
        rw [if_pos hc]
        omega
      · have hnot : x ∉ (live s.p.queue).filter (owner · = c) :=
          fun hin => hc (Finset.mem_filter.mp hin).2
        rw [if_neg hc, Finset.erase_eq_of_notMem hnot]

theorem worker (h : s.Inv g owner) {w : ℕ} (hs' : s.step (.worker w) = some s') :
    ∃ g', s'.Inv g' owner := by
  by_cases hw : w < s.p.numThreads
  · by_cases htake : s.workers w = .take
    · exact h.take hw htake hs'
    have hworks := (s.workers w).step_works s.p htake
    rw [step, if_pos hw] at hs'
    obtain rfl := Option.some.inj hs'
    refine ⟨g, h.worked hw (h.d.trans hworks.queue.symm) h.queue h.held hworks.numThreads
      hworks.queueCapacity hworks.ring (by rw [hworks.queue]) rfl (by rw [hworks.queue]) ?_
      hworks.depth_le (fun c => ?_) hworks.gone⟩
    · have := hworks.depth
      rw [hworks.queue]
      omega
    · have := hworks.task c
      rw [hworks.queue]
      omega
  · rw [step, if_neg hw] at hs'
    exact absurd hs' (by simp)

theorem closer (h : s.Inv g owner) {k : ℕ} (hs' : s.step (.closer k) = some s') :
    s'.Inv g owner := by
  rw [step] at hs'
  split at hs'
  · obtain rfl := Option.some.inj hs'
    obtain ⟨hsame, hring, hdepth⟩ := (s.closers k).2.step_same s.p (s.closers k).1
    generalize ((s.closers k).2.step s.p (s.closers k).1).1 = p' at hsame hring hdepth
    constructor
    · exact h.d.trans hsame.queue.symm
    · exact h.queue
    · exact h.held
    · exact h.ready
    · exact h.id
    · exact h.unused
    · dsimp only
      rw [hsame.queueCapacity]
      exact h.tried
    · exact h.sequence
    · dsimp only
      rw [hsame.queue, hring]
      exact h.written
    · dsimp only
      rw [hsame.queue, hsame.numThreads, hdepth]
      exact h.depth
    · dsimp only
      rw [hsame.queueCapacity, hdepth]
      exact h.depth_le
    · dsimp only
      rw [hsame.queue, hsame.numThreads, hsame.ran, hsame.cancelled]
      exact h.task
    · dsimp only
      rw [hsame.numThreads, hdepth]
      exact h.drained
  · exact absurd hs' (by simp)

theorem close (h : s.Inv g owner) {policy : ShutdownPolicy}
    (hs' : s.step (.close policy) = some s') : s'.Inv g owner := by
  obtain rfl := Option.some.inj hs'
  exact ⟨h.d, h.queue, h.held, h.ready, h.id, h.unused, h.tried, h.sequence, h.written, h.depth,
    h.depth_le, h.task, h.drained⟩

theorem step (h : s.Inv g owner) {action : Action} (hop : s.WorkerStays action)
    (hs' : s.step action = some s') : ∃ g' owner', s'.Inv g' owner' := by
  cases action with
  | submit run blocking inPool => exact ⟨g, owner, h.submit hs'⟩
  | call c fails => exact h.call hop hs'
  | worker w =>
    obtain ⟨g', hinv⟩ := h.worker hs'
    exact ⟨g', owner, hinv⟩
  | close policy => exact ⟨g, owner, h.close hs'⟩
  | closer k => exact ⟨g, owner, h.closer hs'⟩

theorem conserves (h : s.Inv g owner) : s.Conserves := by
  refine ⟨h.depth_le, fun hended hreturned => ?_⟩
  have hzero : s.p.queuedDepth = 0 := by
    apply h.drained
    intro w hw
    rw [hended w hw]
    rfl
  refine ⟨hzero, fun c _ status hstatus => ?_⟩
  have hdepth := h.depth
  have hlive : (live s.p.queue).card = 0 := by omega
  have hqueued : ((live s.p.queue).filter (owner · = c)).card = 0 := by
    rw [Finset.card_eq_zero.mp hlive, Finset.filter_empty, Finset.card_empty]
  have hholds : Census.total s.p.numThreads (WorkerPc.holds c) s.workers = 0 := by
    apply Census.total_eq_zero
    intro w hw
    rw [hended w hw]
    rfl
  have htask := h.task c
  rw [hstatus] at htask
  constructor
  · rintro rfl
    simp only [SubmitPc.claimed] at htask
    omega
  · intro hne
    have hclaimed : SubmitPc.claimed (.returned status) = 0 := by
      cases status with
      | ok => exact absurd rfl hne
      | _ => rfl
    omega

end System.Inv

theorem create_queue {cpuCount queueCapacity : ℕ} {numThreads : ℤ} {p : ThreadPool}
    (h : create cpuCount numThreads queueCapacity = some p) :
    (∃ config d, Disruptor.create config = some d ∧ config.mode = .workerPool ∧ p.queue = d) ∧
      p.queuedDepth = 0 ∧ p.ran = (fun _ => 0) ∧ p.cancelled = fun _ => 0 := by
  unfold create at h
  dsimp only at h
  generalize (if 0 < queueCapacity then queueCapacity else 4096) = capacity at h
  split at h
  · exact absurd h (by simp)
  split at h
  · exact absurd h (by simp)
  · obtain ⟨d, hd, rfl⟩ := Option.map_eq_some_iff.mp h
    exact ⟨⟨_, d, hd, rfl, rfl⟩, rfl, rfl, rfl⟩

theorem System.start_inv {cpuCount queueCapacity : ℕ} {numThreads : ℤ} {p : ThreadPool}
    (h : create cpuCount numThreads queueCapacity = some p) :
    (System.start p).Inv (Pool.start p.queue) fun _ => 0 := by
  obtain ⟨⟨config, d, hd, hmode, hqueue⟩, hdepth, hran, hcancelled⟩ := create_queue h
  have hinit := (Disruptor.create_sized hd).1
  have hlive : live p.queue = ∅ := by
    rw [hqueue, hinit]
    rfl
  have hworkers : ∀ weight : WorkerPc → ℕ, weight .take = 0 →
      Census.total p.numThreads weight (fun _ => .take) = 0 :=
    fun weight hweight => Census.total_eq_zero fun _ _ => hweight
  constructor
  · rfl
  · rw [hqueue]
    exact Disruptor.Pool.start_inv hd hmode
  · rfl
  · exact fun _ => .inr (.inl rfl)
  · exact fun c hc => absurd hc (Nat.not_lt_zero c)
  · exact fun _ _ => rfl
  · exact fun _ _ => nofun
  · exact fun _ _ => nofun
  · intro x hx
    rw [start, hlive] at hx
    exact absurd hx (Finset.notMem_empty x)
  · rw [start, hdepth, hlive, hworkers _ rfl]
    rfl
  · rw [start, hdepth]
    exact Int.natCast_nonneg _
  · intro c
    rw [start, hlive, hworkers _ rfl, hran, hcancelled]
    rfl
  · exact fun _ => hdepth

/-- In every run in which a slot is only reserved while a worker is in its loop, accepted tasks
are run or cancelled exactly once. -/
theorem tasks_conserved {cpuCount queueCapacity : ℕ} {numThreads : ℤ} {p : ThreadPool}
    {s : System} (hcreate : create cpuCount numThreads queueCapacity = some p)
    (h : System.Reaches System.WorkerStays p s) : s.Conserves := by
  have hinv : ∃ g owner, s.Inv g owner := by
    induction h with
    | start => exact ⟨_, _, System.start_inv hcreate⟩
    | step _ hop hs' ih =>
      obtain ⟨g, owner, hinv⟩ := ih
      exact hinv.step hop hs'
  obtain ⟨g, owner, hinv⟩ := hinv
  exact hinv.conserves

/-! ## Two runs of one worker and one submission -/

def System.run (allowed : System → Action → Prop) [∀ s action, Decidable (allowed s action)] :
    System → List Action → Option System
  | s, [] => some s
  | s, action :: actions =>
      if allowed s action then (s.step action).bind fun s' => s'.run allowed actions else none

theorem System.Reaches.run {allowed : System → Action → Prop}
    [∀ s action, Decidable (allowed s action)] {p : ThreadPool} {actions : List Action}
    {s s' : System} (h : System.Reaches allowed p s) (hrun : s.run allowed actions = some s') :
    System.Reaches allowed p s' := by
  induction actions generalizing s with
  | nil =>
    obtain rfl := Option.some.inj hrun
    exact h
  | cons action actions ih =>
    rw [System.run] at hrun
    split at hrun
    next hop =>
      obtain ⟨t, hstep, hrest⟩ := Option.bind_eq_some_iff.mp hrun
      exact ih (h.step hop hstep) hrest
    · exact absurd hrun (by simp)

instance (s : System) : DecidablePred s.WorkerStays
  | .submit _ _ _ | .worker _ | .close _ | .closer _ => inferInstanceAs (Decidable True)
  | .call c fails => by
    dsimp only [System.WorkerStays]
    cases (s.calls c).pc <;> infer_instance

def runActions : List Action :=
  [.submit true false false] ++ List.replicate 14 (.call 0 false) ++
    List.replicate 6 (.worker 0) ++ [.close .drain] ++ List.replicate 5 (.closer 0) ++
    List.replicate 7 (.worker 0)

/-- A task is submitted, taken and run, and then the pool is shut down. -/
theorem tasks_conserved_one : ∃ (p : ThreadPool) (s : System), create 1 1 1 = some p ∧ s.workers 0 = .ended ∧
    (s.calls 0).pc = .returned .ok ∧ s.p.ran 0 = 1 ∧ s.p.cancelled 0 = 0 ∧ s.Conserves := by
  obtain ⟨p, hcreate⟩ : ∃ p, create 1 1 1 = some p := ⟨_, rfl⟩
  have hrun : ((create 1 1 1).bind fun p => (System.run System.WorkerStays (.start p) runActions).map
      fun s => (s.workers 0, (s.calls 0).pc, s.p.ran 0, s.p.cancelled 0)) =
      some (.ended, .returned .ok, 1, 0) := by decide
  rw [hcreate, Option.bind_some] at hrun
  obtain ⟨s, hs, hstate⟩ := Option.map_eq_some_iff.mp hrun
  obtain ⟨hworker, hcall, hran, hcancelled⟩ := by simpa only [Prod.mk.injEq] using hstate
  exact ⟨p, s, hcreate, hworker, hcall, hran, hcancelled,
    tasks_conserved hcreate (System.Reaches.start.run hs)⟩

def lostActions : List Action :=
  [.submit true false false] ++ List.replicate 5 (.call 0 false) ++ [.close .drain] ++
    List.replicate 5 (.closer 0) ++ List.replicate 7 (.worker 0) ++
    List.replicate 9 (.call 0 false)

/-- A submission is between its check of the flags and its reservation while the pool is shut down
and the only worker leaves: it is accepted, and its task is neither run nor cancelled. -/
theorem task_lost : ∃ (p : ThreadPool) (s : System), create 1 1 1 = some p ∧
    System.Reaches (fun _ _ => True) p s ∧ (s.calls 0).pc = .returned .ok ∧ s.p.ran 0 = 0 ∧ s.p.cancelled 0 = 0 ∧ ¬s.Conserves := by
  obtain ⟨p, hcreate⟩ : ∃ p, create 1 1 1 = some p := ⟨_, rfl⟩
  have hrun : ((create 1 1 1).bind fun p => (System.run (fun _ _ => True) (.start p) lostActions).map
      fun s => (s.p.numThreads, s.callCount, s.workers 0, (s.calls 0).pc, s.p.ran 0,
        s.p.cancelled 0)) = some (1, 1, .ended, .returned .ok, 0, 0) := by decide
  rw [hcreate, Option.bind_some] at hrun
  obtain ⟨s, hs, hstate⟩ := Option.map_eq_some_iff.mp hrun
  obtain ⟨hthreads, hcalls, hworker, hcall, hran, hcancelled⟩ :=
    by simpa only [Prod.mk.injEq] using hstate
  refine ⟨p, s, hcreate, System.Reaches.start.run hs, hcall, hran, hcancelled, fun hconserves => ?_⟩
  obtain ⟨-, htasks⟩ : s.p.queuedDepth = 0 ∧ _ := by
    apply hconserves.settled
    · intro w hw
      obtain rfl : w = 0 := by omega
      exact hworker
    · intro c hc
      obtain rfl : c = 0 := by omega
      exact ⟨.ok, hcall⟩
  have hdone := (htasks 0 (by omega) .ok hcall).1 rfl
  omega

end Concurrency.ThreadPool
