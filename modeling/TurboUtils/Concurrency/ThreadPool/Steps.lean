import TurboUtils.Concurrency.ThreadPool.Pool

/-! What one step of a submitter, a worker or a caller of shutdown does to the slots and tasks that
it has. -/
namespace Concurrency.ThreadPool

/-! ## Who has what -/

def SubmitPc.reserved : SubmitPc → ℕ
  | .claim | .claimAccepting | .claimShutdown | .giveUp => 1
  | _ => 0

def SubmitPc.sequence : SubmitPc → Option ℕ
  | .write x | .countSubmitted x | .peakCompleted x _ | .peakSeen x _ | .peakTry x _ _
  | .publish x => some x
  | _ => none

/-- The call has claimed a sequence. -/
def SubmitPc.claimed : SubmitPc → ℕ
  | .write _ | .countSubmitted _ | .peakCompleted _ _ | .peakSeen _ _ | .peakTry _ _ _
  | .publish _ | .signal | .returned .ok => 1
  | _ => 0

def WorkerPc.unreleased : WorkerPc → ℕ
  | .invalidRelease | .cancelCheck _ | .cancelRun _ | .cancelRelease | .start _
  | .runRelease _ => 1
  | _ => 0

/-- The worker is going to run or cancel task `c`. -/
def WorkerPc.holds (c : ℕ) : WorkerPc → ℕ
  | .cancelCheck task | .cancelRun task | .start task | .runRelease task | .run task =>
      if task.id = c then 1 else 0
  | _ => 0

def WorkerPc.gone : WorkerPc → Bool
  | .leaving | .ended => true
  | _ => false

/-! ## The steps of a call -/

structure SameTasks (p p' : ThreadPool) : Prop where
  numThreads : p'.numThreads = p.numThreads
  queueCapacity : p'.queueCapacity = p.queueCapacity
  queue : p'.queue = p.queue
  ran : p'.ran = p.ran
  cancelled : p'.cancelled = p.cancelled

theorem SameTasks.refl (p : ThreadPool) : SameTasks p p := ⟨rfl, rfl, rfl, rfl, rfl⟩

/-- What a call keeps in a step in which it neither claims, writes nor publishes. -/
structure Quiet (p : ThreadPool) (call : Submission) (fails : Bool) (p' : ThreadPool)
    (pc' : SubmitPc) : Prop where
  same : SameTasks p p'
  ring : p'.ring = p.ring
  depth : p'.queuedDepth + call.pc.reserved = p.queuedDepth + pc'.reserved
  depth_le : p.queuedDepth ≤ p.queueCapacity → p'.queuedDepth ≤ p.queueCapacity
  reserves : pc'.reserved ≤ call.pc.reserved ∨
    ∃ depth, call.pc = .reserveTry depth ∧ p.queuedDepth = depth ∧ fails = false
  claimed : pc'.claimed = call.pc.claimed
  sequence : pc'.sequence = call.pc.sequence
  unwritten : ∀ x, pc' ≠ .write x
  tried : ∀ depth, pc' = .reserveTry depth → depth < p.queueCapacity

def Submission.Ready (call : Submission) : Prop :=
  call.task.run = true ∨ call.pc = .enter ∨ ∃ status, call.pc = .returned status

theorem Submission.step_ready (p : ThreadPool) (call : Submission) (fails : Bool)
    (h : call.Ready) : Submission.Ready { call with pc := (call.step p fails).2 } := by
  rcases h with hrun | henter | ⟨status, hreturned⟩
  · exact .inl hrun
  · unfold step
    rw [henter]
    dsimp only
    split
    · exact .inr (.inr ⟨_, rfl⟩)
    next hrun => exact .inl (Bool.not_eq_false _ ▸ hrun)
  · unfold step
    rw [hreturned]
    exact .inr (.inr ⟨status, rfl⟩)

theorem Quiet.look {p : ThreadPool} {call : Submission} {fails : Bool} {pc' : SubmitPc}
    (hreserved : pc'.reserved = call.pc.reserved) (hclaimed : pc'.claimed = call.pc.claimed)
    (hsequence : pc'.sequence = call.pc.sequence) (hunwritten : ∀ x, pc' ≠ .write x)
    (htried : ∀ depth, pc' = .reserveTry depth → depth < p.queueCapacity) :
    Quiet p call fails p pc' :=
  ⟨.refl p, rfl, by rw [hreserved], id, .inl hreserved.le, hclaimed, hsequence, hunwritten,
    htried⟩

theorem Quiet.count {p p' : ThreadPool} {call : Submission} {fails : Bool} {pc' : SubmitPc}
    (hsame : SameTasks p p') (hring : p'.ring = p.ring) (hdepth : p'.queuedDepth = p.queuedDepth)
    (h : Quiet p call fails p pc') : Quiet p call fails p' pc' :=
  ⟨hsame, hring, hdepth ▸ h.depth, hdepth ▸ h.depth_le, h.reserves, h.claimed, h.sequence,
    h.unwritten, h.tried⟩

theorem Submission.reserve_look (call : Submission) (p : ThreadPool) (depth : ℤ) :
    (call.reserve p depth).reserved = 0 ∧ (call.reserve p depth).claimed = 0 ∧
      (call.reserve p depth).sequence = none ∧ (∀ x, call.reserve p depth ≠ .write x) ∧
      ∀ tried, call.reserve p depth = .reserveTry tried → tried < p.queueCapacity := by
  unfold reserve
  split
  next hlt =>
    refine ⟨rfl, rfl, rfl, fun _ => nofun, fun tried h => ?_⟩
    obtain rfl := SubmitPc.reserveTry.inj h
    exact hlt
  split
  · exact ⟨rfl, rfl, rfl, fun _ => nofun, fun _ => nofun⟩
  · exact ⟨rfl, rfl, rfl, fun _ => nofun, fun _ => nofun⟩

theorem Submission.step_quiet (p : ThreadPool) (call : Submission) (fails : Bool)
    (hclaim : call.pc ≠ .claim) (hwrite : ∀ x, call.pc ≠ .write x)
    (hpublish : ∀ x, call.pc ≠ .publish x)
    (htry : ∀ depth, call.pc = .reserveTry depth → depth < p.queueCapacity) :
    Quiet p call fails (call.step p fails).1 (call.step p fails).2 := by
  obtain ⟨task, blocking, inPool, pc⟩ := call
  unfold step
  cases pc with
  | enter =>
    dsimp only
    split
    · exact .look rfl rfl rfl (fun _ => nofun) fun _ => nofun
    split
    · exact .look rfl rfl rfl (fun _ => nofun) fun _ => nofun
    · exact .look rfl rfl rfl (fun _ => nofun) fun _ => nofun
  | reserveTry depth =>
    obtain ⟨hreserved, hclaimed, hsequence, hunwritten, htried⟩ :=
      reserve_look ⟨task, blocking, inPool, .reserveTry depth⟩ p p.queuedDepth
    dsimp only
    split
    next hcas =>
      have hlt := htry depth rfl
      exact ⟨⟨rfl, rfl, rfl, rfl, rfl⟩, rfl, by simp [SubmitPc.reserved, hcas.1],
        fun _ => by dsimp only; omega, .inr ⟨depth, rfl, hcas⟩, rfl, rfl, fun _ => nofun, fun _ => nofun⟩
    · exact .look hreserved hclaimed hsequence hunwritten htried
  | claim => exact absurd rfl hclaim
  | write x => exact absurd rfl (hwrite x)
  | publish x => exact absurd rfl (hpublish x)
  | giveUp =>
    exact ⟨⟨rfl, rfl, rfl, rfl, rfl⟩, rfl, by simp [SubmitPc.reserved],
      fun _ => by dsimp only; omega, .inl (Nat.zero_le _), rfl, rfl, fun _ => nofun,
      fun _ => nofun⟩
  | admitShutdown =>
    dsimp only
    split
    · exact .look rfl rfl rfl (fun _ => nofun) fun _ => nofun
    · exact .look rfl rfl rfl (fun _ => nofun) fun _ => nofun
  | reserveAccepting =>
    dsimp only
    split
    · exact .look rfl rfl rfl (fun _ => nofun) fun _ => nofun
    · exact .look rfl rfl rfl (fun _ => nofun) fun _ => nofun
  | reserveShutdown =>
    dsimp only
    split
    · exact .look rfl rfl rfl (fun _ => nofun) fun _ => nofun
    · exact .look rfl rfl rfl (fun _ => nofun) fun _ => nofun
  | park =>
    dsimp only
    split
    · exact .look rfl rfl rfl (fun _ => nofun) fun _ => nofun
    · exact .look rfl rfl rfl (fun _ => nofun) fun _ => nofun
  | busyAccepting =>
    dsimp only
    split
    · exact .look rfl rfl rfl (fun _ => nofun) fun _ => nofun
    · exact .look rfl rfl rfl (fun _ => nofun) fun _ => nofun
  | busyShutdown =>
    dsimp only
    split
    · exact .look rfl rfl rfl (fun _ => nofun) fun _ => nofun
    · exact .look rfl rfl rfl (fun _ => nofun) fun _ => nofun
  | refusedAccepting =>
    dsimp only
    split
    · exact .look rfl rfl rfl (fun _ => nofun) fun _ => nofun
    · exact .look rfl rfl rfl (fun _ => nofun) fun _ => nofun
  | refusedShutdown =>
    dsimp only
    split
    · exact .look rfl rfl rfl (fun _ => nofun) fun _ => nofun
    · exact .look rfl rfl rfl (fun _ => nofun) fun _ => nofun
  | claimAccepting =>
    dsimp only
    split
    · exact .look rfl rfl rfl (fun _ => nofun) fun _ => nofun
    · exact .look rfl rfl rfl (fun _ => nofun) fun _ => nofun
  | claimShutdown =>
    dsimp only
    split
    · exact .look rfl rfl rfl (fun _ => nofun) fun _ => nofun
    · exact .look rfl rfl rfl (fun _ => nofun) fun _ => nofun
  | giveUpAccepting =>
    dsimp only
    split
    · exact .look rfl rfl rfl (fun _ => nofun) fun _ => nofun
    · exact .look rfl rfl rfl (fun _ => nofun) fun _ => nofun
  | peakSeen x candidate =>
    dsimp only
    split
    · exact .look rfl rfl rfl (fun _ => nofun) fun _ => nofun
    · exact .look rfl rfl rfl (fun _ => nofun) fun _ => nofun
  | rejectClosed =>
    exact .count ⟨rfl, rfl, rfl, rfl, rfl⟩ rfl rfl (.look rfl rfl rfl (fun _ => nofun) fun _ => nofun)
  | giveUpReject =>
    exact .count ⟨rfl, rfl, rfl, rfl, rfl⟩ rfl rfl (.look rfl rfl rfl (fun _ => nofun) fun _ => nofun)
  | countSubmitted x =>
    exact .count ⟨rfl, rfl, rfl, rfl, rfl⟩ rfl rfl (.look rfl rfl rfl (fun _ => nofun) fun _ => nofun)
  | reserveDepth =>
    obtain ⟨hreserved, hclaimed, hsequence, hunwritten, htried⟩ :=
      reserve_look ⟨task, blocking, inPool, .reserveDepth⟩ p p.queuedDepth
    exact .look hreserved hclaimed hsequence hunwritten htried
  | refused =>
    refine .count ⟨rfl, rfl, rfl, rfl, rfl⟩ rfl rfl ?_
    dsimp only
    split
    · exact .look rfl rfl rfl (fun _ => nofun) fun _ => nofun
    · exact .look rfl rfl rfl (fun _ => nofun) fun _ => nofun
  | giveUpShutdown =>
    dsimp only
    split
    · exact .look rfl rfl rfl (fun _ => nofun) fun _ => nofun
    split
    · exact .look rfl rfl rfl (fun _ => nofun) fun _ => nofun
    · exact .look rfl rfl rfl (fun _ => nofun) fun _ => nofun
  | peakTry x candidate seen =>
    dsimp only
    split
    · exact .count ⟨rfl, rfl, rfl, rfl, rfl⟩ rfl rfl (.look rfl rfl rfl (fun _ => nofun) fun _ => nofun)
    dsimp only
    split
    · exact .look rfl rfl rfl (fun _ => nofun) fun _ => nofun
    · exact .look rfl rfl rfl (fun _ => nofun) fun _ => nofun
  | peakCompleted x submitted => exact .look rfl rfl rfl (fun _ => nofun) fun _ => nofun
  | signal => exact .look rfl rfl rfl (fun _ => nofun) fun _ => nofun
  | returned status => exact .look rfl rfl rfl (fun _ => nofun) fun _ => nofun

/-! ## The steps of a worker -/

/-- What a worker keeps in a step in which it does not take a task. -/
structure Works (p : ThreadPool) (pc : WorkerPc) (p' : ThreadPool) (pc' : WorkerPc) : Prop where
  numThreads : p'.numThreads = p.numThreads
  queueCapacity : p'.queueCapacity = p.queueCapacity
  queue : p'.queue = p.queue
  ring : p'.ring = p.ring
  depth : p'.queuedDepth + pc.unreleased = p.queuedDepth + pc'.unreleased
  depth_le : p'.queuedDepth ≤ p.queuedDepth
  task : ∀ c, pc'.holds c + p'.ran c + p'.cancelled c = pc.holds c + p.ran c + p.cancelled c
  gone : pc'.gone = true → p'.queuedDepth = p.queuedDepth ∧ (pc.gone = true ∨ p.queuedDepth ≤ 0)

theorem Works.look {p p' : ThreadPool} {pc pc' : WorkerPc} (hsame : SameTasks p p')
    (hring : p'.ring = p.ring) (hdepth : p'.queuedDepth + pc.unreleased =
      p.queuedDepth + pc'.unreleased) (hle : p'.queuedDepth ≤ p.queuedDepth)
    (hholds : ∀ c, pc'.holds c = pc.holds c) (hgone : pc'.gone = false) : Works p pc p' pc' := by
  refine ⟨hsame.numThreads, hsame.queueCapacity, hsame.queue, hring, hdepth, hle, fun c => ?_,
    fun h => ?_⟩
  · rw [hholds, hsame.ran, hsame.cancelled]
  · rw [hgone] at h
    exact absurd h (by simp)

theorem WorkerPc.step_works (p : ThreadPool) (pc : WorkerPc) (htake : pc ≠ .take) :
    Works p pc (pc.step p).1 (pc.step p).2 := by
  have hcount : ∀ (f : ℕ → ℕ) (task : Task) (c : ℕ), Function.update f task.id (f task.id + 1) c =
      f c + if task.id = c then 1 else 0 := by
    intro f task c
    by_cases hc : task.id = c
    · rw [← hc, Function.update_self, if_pos rfl]
    · rw [Function.update_of_ne (Ne.symm hc), if_neg hc, add_zero]
  unfold step
  cases pc with
  | take => exact absurd rfl htake
  | exitDepth =>
    dsimp only
    split
    next hle => exact ⟨rfl, rfl, rfl, rfl, rfl, le_rfl, fun _ => rfl, fun _ => ⟨rfl, .inr hle⟩⟩
    · exact .look (.refl p) rfl rfl le_rfl (fun _ => rfl) rfl
  | cancelRun task =>
    refine ⟨rfl, rfl, rfl, rfl, rfl, le_rfl, fun c => ?_, nofun⟩
    dsimp only [WorkerPc.holds]
    rw [hcount]
    omega
  | run task =>
    refine ⟨rfl, rfl, rfl, rfl, rfl, le_rfl, fun c => ?_, nofun⟩
    dsimp only [WorkerPc.holds]
    rw [hcount]
    omega
  | invalidRelease =>
    exact .look ⟨rfl, rfl, rfl, rfl, rfl⟩ rfl (by simp [unreleased]) (by simp) (fun _ => rfl) rfl
  | cancelRelease =>
    exact .look ⟨rfl, rfl, rfl, rfl, rfl⟩ rfl (by simp [unreleased]) (by simp) (fun _ => rfl) rfl
  | runRelease task =>
    exact .look ⟨rfl, rfl, rfl, rfl, rfl⟩ rfl (by simp [unreleased]) (by simp) (fun _ => rfl) rfl
  | invalidCancel => exact .look ⟨rfl, rfl, rfl, rfl, rfl⟩ rfl rfl le_rfl (fun _ => rfl) rfl
  | cancelCount => exact .look ⟨rfl, rfl, rfl, rfl, rfl⟩ rfl rfl le_rfl (fun _ => rfl) rfl
  | start task => exact .look ⟨rfl, rfl, rfl, rfl, rfl⟩ rfl rfl le_rfl (fun _ => rfl) rfl
  | finish => exact .look ⟨rfl, rfl, rfl, rfl, rfl⟩ rfl rfl le_rfl (fun _ => rfl) rfl
  | exitSubmitted => exact .look (.refl p) rfl rfl le_rfl (fun _ => rfl) rfl
  | exitCompleted pending => exact .look (.refl p) rfl rfl le_rfl (fun _ => rfl) rfl
  | exitShutdown =>
    dsimp only
    split
    · exact .look (.refl p) rfl rfl le_rfl (fun _ => rfl) rfl
    · exact .look (.refl p) rfl rfl le_rfl (fun _ => rfl) rfl
  | exitCancelled pending =>
    dsimp only
    split
    · exact .look (.refl p) rfl rfl le_rfl (fun _ => rfl) rfl
    · exact .look (.refl p) rfl rfl le_rfl (fun _ => rfl) rfl
  | idleDepth =>
    dsimp only
    split
    · exact .look (.refl p) rfl rfl le_rfl (fun _ => rfl) rfl
    · exact .look (.refl p) rfl rfl le_rfl (fun _ => rfl) rfl
  | park =>
    dsimp only
    split
    · exact .look (.refl p) rfl rfl le_rfl (fun _ => rfl) rfl
    · exact .look (.refl p) rfl rfl le_rfl (fun _ => rfl) rfl
  | cancelCheck task =>
    dsimp only
    split
    · exact .look (.refl p) rfl rfl le_rfl (fun _ => rfl) rfl
    · exact .look (.refl p) rfl rfl le_rfl (fun _ => rfl) rfl
  | leaving => exact ⟨rfl, rfl, rfl, rfl, rfl, le_rfl, fun _ => rfl, fun _ => ⟨rfl, .inl rfl⟩⟩
  | ended => exact ⟨rfl, rfl, rfl, rfl, rfl, le_rfl, fun _ => rfl, fun _ => ⟨rfl, .inl rfl⟩⟩

theorem ShutdownPc.step_same (p : ThreadPool) (policy : ShutdownPolicy) (pc : ShutdownPc) :
    SameTasks p (pc.step p policy).1 ∧ (pc.step p policy).1.ring = p.ring ∧
      (pc.step p policy).1.queuedDepth = p.queuedDepth := by
  cases pc with
  | policy =>
    unfold step
    dsimp only
    split <;> exact ⟨⟨rfl, rfl, rfl, rfl, rfl⟩, rfl, rfl⟩
  | _ => exact ⟨⟨rfl, rfl, rfl, rfl, rfl⟩, rfl, rfl⟩

end Concurrency.ThreadPool
