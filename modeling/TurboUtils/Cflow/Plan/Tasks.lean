import Mathlib.Data.List.GetD
import TurboUtils.Cflow.Plan.ParallelReduce
import TurboUtils.Lib.Census

/-! The tasks of a parallel reduce, in every order in which they may run: what each of them has
reduced so far, and that all of them come to an end. -/
namespace Cflow.Plan

open Graph (Value)
open PartialReduce (reduce)

/-! ## The invariant -/

def StatusOk (frame : Frame) (r : Range) (slot : Value) : Status → Prop
  | .running offset => 0 < offset ∧ offset ≤ r.count ∧
      reduce frame.op ((r.chunk frame.values).take offset) = some slot
  | .settled true => reduce frame.op (r.chunk frame.values) = some slot
  | _ => True

def Status.isSettled : Status → Bool
  | .settled _ => true
  | _ => false

def Task.settledCount (task : Task) : ℕ := if task.status.isSettled then 1 else 0

def PhaseOk (frame : Frame) (s : State) : Phase → Prop
  | .posting => s.admissionFailed = false
  | .waiting => s.admissionFailed = true ∨ s.accepted = frame.ranges.length
  | .returned none => s.admissionFailed = true ∨ s.callableFailed = true ∨ s.cancelled = true
  | .returned (some result) => ∃ value, reduce frame.op frame.values = some value ∧
      result = ⟨[value], frame.reducer.outputType⟩

structure Inv (frame : Frame) (s : State) : Prop where
  range : ∀ i, (s.tasks i).range = frame.ranges.getD i ⟨0, 0⟩
  posted : ∀ i, (s.tasks i).status = .unposted ↔ s.accepted ≤ i
  accepted : s.accepted ≤ frame.ranges.length
  status : ∀ i, StatusOk frame (s.tasks i).range (s.partials i) (s.tasks i).status
  failed : ∀ i, (s.tasks i).status = .settled false → s.failed = true
  cause : s.failed = true → s.callableFailed = true ∨ s.cancelled = true
  completed : s.completed = Census.total frame.ranges.length Task.settledCount s.tasks
  phase : PhaseOk frame s s.phase

theorem initial_inv (frame : Frame) : Inv frame (initial frame) where
  range _ := rfl
  posted i := ⟨fun _ => Nat.zero_le i, fun _ => rfl⟩
  accepted := Nat.zero_le _
  status _ := trivial
  failed _ h := by cases h
  cause h := by cases h
  completed := (Census.total_eq_zero fun _ _ => rfl).symm
  phase := rfl

section Moves

variable {frame : Frame} {s s' : State} {i : ℕ} {status : Status}

theorem Inv.task_lt (h : Inv frame s) (hi : (s.tasks i).status ≠ .unposted) :
    i < frame.ranges.length :=
  (Nat.lt_of_not_le fun hle => hi ((h.posted i).2 hle)).trans_le h.accepted

theorem Inv.range_mem (h : Inv frame s) (hi : (s.tasks i).status ≠ .unposted) :
    (s.tasks i).range ∈ frame.ranges := by
  rw [h.range i, List.getD_eq_getElem _ _ (h.task_lt hi)]
  exact List.getElem_mem _

/-- One task moves on, and the flags follow. -/
theorem Inv.move (h : Inv frame s) (hi : (s.tasks i).status ≠ .unposted)
    (hopen : (s.tasks i).status.isSettled = false)
    (htasks : s'.tasks = Function.update s.tasks i { s.tasks i with status := status })
    (hstatus : status ≠ .unposted) (hslots : ∀ j, j ≠ i → s'.partials j = s.partials j)
    (hslot : StatusOk frame (s.tasks i).range (s'.partials i) status)
    (haccepted : s'.accepted = s.accepted) (hadmission : s'.admissionFailed = s.admissionFailed)
    (hphase : s'.phase = s.phase)
    (hcompleted : s'.completed = s.completed + if status.isSettled then 1 else 0)
    (hfailed : s'.failed = (s.failed || status = .settled false))
    (hcause : status = .settled false → s'.callableFailed = true ∨ s'.cancelled = true)
    (hcallable : s.callableFailed = true → s'.callableFailed = true)
    (hcancelled : s.cancelled = true → s'.cancelled = true) : Inv frame s' := by
  have hself : s'.tasks i = { s.tasks i with status := status } := by
    rw [htasks, Function.update_self]
  have hother : ∀ j, j ≠ i → s'.tasks j = s.tasks j := fun j hj => by
    rw [htasks, Function.update_of_ne hj]
  constructor
  case range =>
    intro j
    by_cases hj : j = i
    · rw [hj, hself]
      exact h.range i
    · rw [hother j hj, h.range j]
  case posted =>
    intro j
    rw [haccepted, ← h.posted j]
    by_cases hj : j = i
    · rw [hj, hself]
      exact ⟨fun hs => absurd hs hstatus, fun hs => absurd hs hi⟩
    · rw [hother j hj]
  case accepted => exact haccepted ▸ h.accepted
  case status =>
    intro j
    by_cases hj : j = i
    · rw [hj, hself]
      exact hslot
    · rw [hother j hj, hslots j hj]
      exact h.status j
  case failed =>
    intro j hj
    rw [hfailed, Bool.or_eq_true, decide_eq_true_eq]
    by_cases hji : j = i
    · rw [hji, hself] at hj
      exact .inr hj
    · rw [hother j hji] at hj
      exact .inl (h.failed j hj)
  case cause =>
    intro hs
    rw [hfailed, Bool.or_eq_true, decide_eq_true_eq] at hs
    rcases hs with hs | hs
    · exact (h.cause hs).imp hcallable hcancelled
    · exact hcause hs
  case completed =>
    have htotal := Census.total_update (h.task_lt hi) Task.settledCount s.tasks
      { s.tasks i with status := status }
    have hold : (s.tasks i).settledCount = 0 := by
      rw [Task.settledCount, hopen]
      rfl
    rw [htasks, hcompleted, h.completed]
    rw [hold, Nat.add_zero] at htotal
    exact htotal.symm
  case phase =>
    have hkept := h.phase
    rw [hphase]
    cases hp : s.phase with
    | posting => rw [hp] at hkept; exact hadmission.trans hkept
    | waiting => rw [hp] at hkept; exact hkept.imp hadmission.trans haccepted.trans
    | returned result =>
      rw [hp] at hkept
      cases result with
      | none => exact hkept.imp hadmission.trans (Or.imp hcallable hcancelled)
      | some result => exact hkept

theorem Inv.settle (h : Inv frame s) (hi : (s.tasks i).status ≠ .unposted)
    (hopen : (s.tasks i).status.isSettled = false) {succeeded : Bool}
    (hslot : StatusOk frame (s.tasks i).range (s.partials i) (.settled succeeded))
    {callableFailed cancelled : Bool} (hcallable : s.callableFailed = true → callableFailed = true)
    (hcancelled : s.cancelled = true → cancelled = true)
    (hcause : succeeded = false → callableFailed = true ∨ cancelled = true) :
    Inv frame { s.settle i succeeded with callableFailed, cancelled } := by
  refine h.move hi hopen rfl (by simp) (fun _ _ => rfl) hslot rfl rfl rfl rfl ?_ ?_ hcallable
    hcancelled
  · cases succeeded <;> rfl
  · intro hs
    cases hs
    exact hcause rfl

end Moves

/-! ## Steps -/

section Steps

variable {frame : Frame} {s s' : State} {i : ℕ}

theorem post_inv (h : Inv frame s) (hphase : s.phase = .posting) (accepted : Bool) :
    Inv frame (post frame s accepted) := by
  have hadmission : s.admissionFailed = false := by
    have hok := h.phase
    rwa [hphase] at hok
  unfold post
  split_ifs with hall haccepted
  · exact ⟨h.range, h.posted, h.accepted, h.status, h.failed, h.cause, h.completed, .inr hall⟩
  · have hlt : s.accepted < frame.ranges.length := lt_of_le_of_ne h.accepted hall
    have hunposted : (s.tasks s.accepted).status = .unposted := (h.posted _).2 (le_refl _)
    have hself : (s.setStatus s.accepted .queued).tasks s.accepted =
        { s.tasks s.accepted with status := .queued } := Function.update_self _ _ _
    have hother : ∀ j, j ≠ s.accepted →
        (s.setStatus s.accepted .queued).tasks j = s.tasks j := fun j hj =>
      Function.update_of_ne hj _ _
    constructor
    case range =>
      intro j
      by_cases hj : j = s.accepted
      · rw [hj]
        exact (congrArg Task.range hself).trans (h.range _)
      · exact (congrArg Task.range (hother j hj)).trans (h.range j)
    case posted =>
      intro j
      dsimp only
      by_cases hj : j = s.accepted
      · rw [hj, hself]
        exact ⟨fun hs => (by cases hs), fun hle => absurd hle (Nat.not_succ_le_self _)⟩
      · rw [hother j hj, h.posted j]
        omega
    case accepted => exact hlt
    case status =>
      intro j
      dsimp only
      by_cases hj : j = s.accepted
      · rw [hj, hself]
        exact trivial
      · rw [hother j hj]
        exact h.status j
    case failed =>
      intro j hj
      dsimp only at hj
      by_cases hji : j = s.accepted
      · rw [hji, hself] at hj
        cases hj
      · rw [hother j hji] at hj
        exact h.failed j hj
    case cause => exact h.cause
    case completed =>
      have htotal := Census.total_update hlt Task.settledCount s.tasks
        { s.tasks s.accepted with status := .queued }
      have hold : (s.tasks s.accepted).settledCount = 0 := by
        rw [Task.settledCount, hunposted]
        rfl
      have hnew : Task.settledCount { s.tasks s.accepted with status := .queued } = 0 := rfl
      rw [hold, hnew] at htotal
      exact h.completed.trans htotal.symm
    case phase => exact hphase ▸ hadmission
  · exact ⟨h.range, h.posted, h.accepted, h.status, h.failed, h.cause, h.completed, .inl rfl⟩

theorem reduce_take_succ {chunk : List Value} {offset : ℕ} (hpos : 0 < offset)
    (hlt : offset < chunk.length) : reduce frame.op (chunk.take (offset + 1)) =
      (reduce frame.op (chunk.take offset)).bind (frame.op · chunk[offset]) := by
  cases chunk with
  | nil => cases hlt
  | cons first rest =>
    obtain ⟨n, rfl⟩ := Nat.exists_eq_succ_of_ne_zero hpos.ne'
    have hn : n < rest.length := Nat.lt_of_succ_lt_succ hlt
    rw [List.take_succ_cons, List.take_succ_cons, List.getElem_cons_succ,
      List.take_succ_eq_append_getElem hn]
    exact (PartialReduce.foldlM_append first _ _).trans
      (congrArg _ (funext fun _ => Option.bind_fun_some _))

theorem chunk_getElem (htiles : Tiles 0 frame.values.length frame.ranges) (h : Inv frame s)
    (hi : (s.tasks i).status ≠ .unposted) {offset : ℕ} (hlt : offset < (s.tasks i).range.count) :
    ∃ hbound : offset < ((s.tasks i).range.chunk frame.values).length,
      ((s.tasks i).range.chunk frame.values)[offset] =
        frame.values.getD ((s.tasks i).range.begin + offset) [] := by
  have hend := (htiles.mem (h.range_mem hi)).2
  have hbound : offset < ((s.tasks i).range.chunk frame.values).length := by
    rw [Range.chunk, List.length_take, List.length_drop]
    omega
  refine ⟨hbound, ?_⟩
  rw [List.getD_eq_getElem _ _ (by omega : (s.tasks i).range.begin + offset < frame.values.length)]
  simp only [Range.chunk, List.getElem_take, List.getElem_drop]

theorem start_inv (htiles : Tiles 0 frame.values.length frame.ranges) (h : Inv frame s)
    (hi : (s.tasks i).status = .queued) : Inv frame (start frame s i) := by
  have hposted : (s.tasks i).status ≠ .unposted := by simp [hi]
  have hopen : (s.tasks i).status.isSettled = false := by rw [hi]; rfl
  have hcount := (htiles.mem (h.range_mem hposted)).1
  unfold start
  rw [if_neg hcount.ne']
  refine h.move hposted hopen rfl (by simp) (fun j hj => Function.update_of_ne hj _ _) ?_ rfl rfl
    rfl rfl (by simp [State.setStatus]) (by simp) id id
  obtain ⟨hbound, hfirst⟩ := chunk_getElem htiles h hposted hcount
  dsimp only
  rw [Function.update_self]
  refine ⟨Nat.one_pos, hcount, ?_⟩
  rw [Nat.add_zero] at hfirst
  rw [← hfirst]
  obtain ⟨first, rest, hcons⟩ := List.exists_cons_of_length_pos hbound
  simp only [hcons]
  rfl

theorem advance_inv (htiles : Tiles 0 frame.values.length frame.ranges) (h : Inv frame s)
    {offset : ℕ} (hi : (s.tasks i).status = .running offset) :
    Inv frame (advance frame s i offset) := by
  have hposted : (s.tasks i).status ≠ .unposted := by simp [hi]
  have hopen : (s.tasks i).status.isSettled = false := by rw [hi]; rfl
  have hslot := h.status i
  rw [hi] at hslot
  obtain ⟨hpos, hle, hreduced⟩ := hslot
  unfold advance
  split_ifs with hlt
  · obtain ⟨hbound, hvalue⟩ := chunk_getElem htiles h hposted hlt
    have hnext := @reduce_take_succ frame _ _ hpos hbound
    rw [hreduced, Option.bind_some, hvalue] at hnext
    split
    next hnone =>
      have hslot : StatusOk frame (s.tasks i).range (s.partials i) (.settled false) := trivial
      exact h.settle hposted hopen hslot (fun _ => rfl) id fun _ => .inl rfl
    next value hsome =>
      refine h.move hposted hopen rfl (by simp) (fun j hj => Function.update_of_ne hj _ _) ?_ rfl
        rfl rfl rfl (by simp [State.setStatus]) (by simp) id id
      dsimp only
      rw [Function.update_self]
      exact ⟨Nat.succ_pos _, hlt, hnext.trans hsome⟩
  · have hall : ((s.tasks i).range.chunk frame.values).take offset =
        (s.tasks i).range.chunk frame.values := by
      refine List.take_of_length_le ?_
      rw [Range.chunk, List.length_take]
      omega
    rw [hall] at hreduced
    have hslot : StatusOk frame (s.tasks i).range (s.partials i) (.settled true) := hreduced
    exact h.settle hposted hopen hslot id id (by simp)

theorem cancel_inv (h : Inv frame s) (hi : (s.tasks i).status = .queued) :
    Inv frame { s.settle i false with cancelled := true } := by
  have hposted : (s.tasks i).status ≠ .unposted := by simp [hi]
  have hopen : (s.tasks i).status.isSettled = false := by rw [hi]; rfl
  have hslot : StatusOk frame (s.tasks i).range (s.partials i) (.settled false) := trivial
  exact h.settle hposted hopen hslot id (fun _ => rfl) fun _ => .inr rfl

/-- Behind the wait, every task is settled. -/
theorem Inv.all_settled (h : Inv frame s) (haccepted : s.accepted = frame.ranges.length)
    (hwaited : s.accepted ≤ s.completed) (hfailed : s.failed = false)
    (hi : i < frame.ranges.length) : (s.tasks i).status = .settled true := by
  have hweight : ∀ task : Task, task.settledCount ≤ 1 := fun task => by
    unfold Task.settledCount
    split_ifs <;> omega
  rw [haccepted, h.completed] at hwaited
  have hone := Census.weight_eq_one hweight hwaited hi
  cases hs : (s.tasks i).status with
  | settled succeeded =>
    cases succeeded with
    | true => rfl
    | false => rw [h.failed i hs] at hfailed; cases hfailed
  | unposted => rw [Task.settledCount, hs] at hone; cases hone
  | queued => rw [Task.settledCount, hs] at hone; cases hone
  | running offset => rw [Task.settledCount, hs] at hone; cases hone

theorem Inv.partials_eq (h : Inv frame s) (hsettled : ∀ i, i < frame.ranges.length →
    (s.tasks i).status = .settled true) :
    (frame.ranges.map (Range.chunk frame.values)).mapM (reduce frame.op) =
      some ((List.range frame.ranges.length).map s.partials) := by
  have hresults := @PartialReduce.mapM_eq_of_getElem _ (frame.ranges.map (Range.chunk frame.values))
    _ (reduce frame.op) s.partials fun i hi => ?_
  · rwa [List.length_map] at hresults
  · rw [List.length_map] at hi
    have hstatus := h.status i
    rw [hsettled i hi, h.range i, List.getD_eq_getElem _ _ hi] at hstatus
    rw [List.getElem_map]
    exact hstatus

theorem finish_inv (hassociative : PartialReduce.Associative frame.op)
    (htiles : Tiles 0 frame.values.length frame.ranges) (h : Inv frame s)
    (hphase : s.phase = .waiting) (hwaited : s.accepted ≤ s.completed) :
    Inv frame (finish frame s) := by
  have hwaiting := h.phase
  rw [hphase] at hwaiting
  unfold finish
  split
  next hfailure =>
    have hcause : s.admissionFailed = true ∨ s.callableFailed = true ∨ s.cancelled = true := by
      simp only [Bool.or_eq_true, decide_eq_true_eq] at hfailure
      rcases hfailure with (hfailed | hadmission) | haccepted
      · exact .inr (h.cause hfailed)
      · exact .inl hadmission
      · exact .inl (hwaiting.resolve_right haccepted)
    exact ⟨h.range, h.posted, h.accepted, h.status, h.failed, h.cause, h.completed, hcause⟩
  next hsuccess =>
    simp only [Bool.or_eq_true, decide_eq_true_eq, not_or, Bool.not_eq_true, not_not] at hsuccess
    obtain ⟨⟨hfailed, -⟩, haccepted⟩ := hsuccess
    have hpartials := h.partials_eq fun i hi => h.all_settled haccepted hwaited hfailed hi
    have hmerged : mergePartials frame s =
        (reduce frame.op frame.values).map fun value => ⟨[value], frame.reducer.outputType⟩ := by
      have hchunks := hassociative.reduce_flatten htiles.chunk_ne_nil
      rw [hpartials, htiles.flatten_chunks, List.drop_zero, Nat.sub_zero, List.take_length,
        Option.bind_some] at hchunks
      rw [← hchunks]
      unfold mergePartials
      cases (List.range frame.ranges.length).map s.partials <;> rfl
    have hor : ∀ {b b' : Bool}, b = true → (b || b') = true := fun hb => by rw [hb, Bool.true_or]
    refine ⟨h.range, h.posted, h.accepted, h.status, h.failed, fun hs => (h.cause hs).imp_left hor,
      h.completed, ?_⟩
    dsimp only
    rw [hmerged]
    cases hvalue : reduce frame.op frame.values with
    | none => exact .inr (.inl (Bool.or_true _))
    | some value => exact ⟨value, hvalue, rfl⟩

/-- All that may happen. -/
theorem step_cases {action : Action} (hstep : step frame s action = some s') :
    (∃ accepted, action = .post accepted ∧ s.phase = .posting ∧ s' = post frame s accepted) ∨
    (∃ i, action = .start i ∧ (s.tasks i).status = .queued ∧ s' = start frame s i) ∨
    (∃ i offset, action = .advance i ∧ (s.tasks i).status = .running offset ∧
      s' = advance frame s i offset) ∨
    (∃ i, action = .cancel i ∧ (s.tasks i).status = .queued ∧
      s' = { s.settle i false with cancelled := true }) ∨
    (action = .finish ∧ s.phase = .waiting ∧ s.accepted ≤ s.completed ∧ s' = finish frame s) := by
  cases action with
  | post accepted =>
    cases hphase : s.phase <;> simp only [step, hphase, reduceCtorEq, Option.some.injEq] at hstep
    exact .inl ⟨accepted, rfl, rfl, hstep.symm⟩
  | start i =>
    obtain ⟨hi, ⟨⟩⟩ := Option.ite_none_right_eq_some.1 hstep
    exact .inr (.inl ⟨i, rfl, hi, rfl⟩)
  | advance i =>
    cases hi : (s.tasks i).status <;> simp only [step, hi, reduceCtorEq, Option.some.injEq] at hstep
    next offset => exact .inr (.inr (.inl ⟨i, offset, rfl, hi, hstep.symm⟩))
  | cancel i =>
    obtain ⟨hi, ⟨⟩⟩ := Option.ite_none_right_eq_some.1 hstep
    exact .inr (.inr (.inr (.inl ⟨i, rfl, hi, rfl⟩)))
  | finish =>
    cases hphase : s.phase <;> simp only [step, hphase, reduceCtorEq] at hstep
    obtain ⟨hwaited, ⟨⟩⟩ := Option.ite_none_left_eq_some.1 hstep
    exact .inr (.inr (.inr (.inr ⟨rfl, rfl, Nat.le_of_not_lt hwaited, rfl⟩)))

theorem step_inv (hassociative : PartialReduce.Associative frame.op)
    (htiles : Tiles 0 frame.values.length frame.ranges) {action : Action} (h : Inv frame s)
    (hstep : step frame s action = some s') : Inv frame s' := by
  obtain ⟨accepted, -, hphase, rfl⟩ | ⟨i, -, hi, rfl⟩ | ⟨i, offset, -, hi, rfl⟩ | ⟨i, -, hi, rfl⟩ |
    ⟨-, hphase, hwaited, rfl⟩ := step_cases hstep
  · exact post_inv h hphase accepted
  · exact start_inv htiles h hi
  · exact advance_inv htiles h hi
  · exact cancel_inv h hi
  · exact finish_inv hassociative htiles h hphase hwaited

end Steps

/-! ## Every run ends -/

def Task.work (task : Task) : ℕ :=
  match task.status with
  | .unposted => task.range.count + 3
  | .queued => task.range.count + 2
  | .running offset => task.range.count - offset + 1
  | .settled _ => 0

def Phase.work : Phase → ℕ
  | .posting => 2
  | .waiting => 1
  | .returned _ => 0

def State.work (frame : Frame) (s : State) : ℕ :=
  Census.total frame.ranges.length Task.work s.tasks + s.phase.work

section Work

variable {frame : Frame} {s s' : State} {i : ℕ}

theorem work_setStatus (hi : i < frame.ranges.length) {status : Status}
    (hless : Task.work { s.tasks i with status := status } < (s.tasks i).work)
    (htasks : s'.tasks = Function.update s.tasks i { s.tasks i with status := status })
    (hphase : s'.phase = s.phase) : s'.work frame < s.work frame := by
  have htotal := Census.total_update hi Task.work s.tasks { s.tasks i with status := status }
  unfold State.work
  rw [htasks, hphase]
  omega

theorem post_work (h : Inv frame s) (hphase : s.phase = .posting) (accepted : Bool) :
    (post frame s accepted).work frame < s.work frame := by
  unfold post
  split_ifs with hall haccepted
  · simp [State.work, hphase, Phase.work]
  · have hlt : s.accepted < frame.ranges.length := lt_of_le_of_ne h.accepted hall
    refine @work_setStatus _ _ _ _ hlt .queued ?_ rfl rfl
    rw [Task.work, Task.work, (h.posted _).2 (le_refl _)]
    exact Nat.lt_succ_self _
  · simp [State.work, hphase, Phase.work]

theorem start_work (h : Inv frame s) (hi : (s.tasks i).status = .queued) :
    (start frame s i).work frame < s.work frame := by
  have hlt := @Inv.task_lt _ _ i h (by simp [hi])
  unfold start
  split_ifs with hcount
  · refine @work_setStatus _ _ _ _ hlt (.settled false) ?_ rfl rfl
    simp [Task.work, hi]
  · refine @work_setStatus _ _ _ _ hlt (.running 1) ?_ rfl rfl
    simp only [Task.work, hi]
    omega

theorem advance_work (h : Inv frame s) {offset : ℕ} (hi : (s.tasks i).status = .running offset) :
    (advance frame s i offset).work frame < s.work frame := by
  have hlt := @Inv.task_lt _ _ i h (by simp [hi])
  have hsettled : ∀ succeeded, Task.work { s.tasks i with status := .settled succeeded } <
      (s.tasks i).work := fun succeeded => by simp [Task.work, hi]
  unfold advance
  split_ifs with hoffset
  · split
    · exact work_setStatus hlt (hsettled false) rfl rfl
    · refine @work_setStatus _ _ _ _ hlt (.running (offset + 1)) ?_ rfl rfl
      simp only [Task.work, hi]
      omega
  · exact work_setStatus hlt (hsettled true) rfl rfl

theorem step_work (h : Inv frame s) {action : Action} (hstep : step frame s action = some s') :
    s'.work frame < s.work frame := by
  obtain ⟨accepted, -, hphase, rfl⟩ | ⟨i, -, hi, rfl⟩ | ⟨i, offset, -, hi, rfl⟩ | ⟨i, -, hi, rfl⟩ |
    ⟨-, hphase, -, rfl⟩ := step_cases hstep
  · exact post_work h hphase accepted
  · exact start_work h hi
  · exact advance_work h hi
  · refine @work_setStatus _ _ _ _ (@Inv.task_lt _ _ i h (by simp [hi])) (.settled false) ?_ rfl rfl
    simp [Task.work, hi]
  · unfold finish
    split_ifs <;> simp [State.work, hphase, Phase.work]

theorem initial_work (htiles : Tiles 0 frame.values.length frame.ranges) :
    (initial frame).work frame = frame.values.length + 3 * frame.ranges.length + 2 := by
  have hsum : ∀ rs : List Range, ∑ i ∈ Finset.range rs.length, ((rs.getD i ⟨0, 0⟩).count + 3) =
      (rs.map Range.count).sum + 3 * rs.length := by
    intro rs
    induction rs with
    | nil => rfl
    | cons r rest ih =>
      rw [List.length_cons, Finset.sum_range_succ', List.map_cons, List.sum_cons]
      simp only [List.getD_cons_succ, List.getD_cons_zero, ih]
      omega
  have hcount := htiles.sum_count
  rw [Nat.zero_add] at hcount
  calc (initial frame).work frame
      = ∑ i ∈ Finset.range frame.ranges.length, ((frame.ranges.getD i ⟨0, 0⟩).count + 3) + 2 := rfl
    _ = frame.values.length + 3 * frame.ranges.length + 2 := by rw [hsum, hcount]

theorem run_inv (hassociative : PartialReduce.Associative frame.op)
    (htiles : Tiles 0 frame.values.length frame.ranges) {actions : List Action}
    (hrun : Transition.run (step frame) (initial frame) actions = some s) : Inv frame s :=
  Transition.run_keeps (fun _ _ _ h hstep => step_inv hassociative htiles h hstep)
    (initial_inv frame) hrun

theorem length_le_of_run (hassociative : PartialReduce.Associative frame.op)
    (htiles : Tiles 0 frame.values.length frame.ranges) {actions : List Action}
    (hrun : Transition.run (step frame) (initial frame) actions = some s) :
    actions.length ≤ frame.values.length + 3 * frame.ranges.length + 2 := by
  have hlength := Transition.length_le_of_run (fun _ _ _ h hstep =>
    ⟨step_inv hassociative htiles h hstep, step_work h hstep⟩) (initial_inv frame) hrun
  rw [initial_work htiles] at hlength
  exact (Nat.le_add_right _ _).trans hlength

/-- As long as evaluation has not returned, something may happen. -/
theorem progress (h : Inv frame s) (hphase : ∀ result, s.phase ≠ .returned result) :
    ∃ action s', step frame s action = some s' := by
  cases hcases : s.phase with
  | returned result => exact absurd hcases (hphase result)
  | posting => exact ⟨.post true, _, by rw [step, hcases]⟩
  | waiting =>
    by_cases hwaited : s.completed < s.accepted
    · -- A posted task is not settled.
      have hopen : ∃ i < s.accepted, (s.tasks i).status.isSettled = false := by
        by_contra hnone
        push Not at hnone
        have hle := @Census.le_total _ _ Task.settledCount s.tasks _ h.accepted
          fun i hi => if_pos (Bool.eq_true_of_not_eq_false (hnone i hi))
        rw [← h.completed] at hle
        exact absurd hwaited (Nat.not_lt_of_le hle)
      obtain ⟨i, hi, hsettled⟩ := hopen
      cases hstatus : (s.tasks i).status with
      | unposted => exact absurd ((h.posted i).1 hstatus) (Nat.not_le_of_lt hi)
      | queued => exact ⟨.start i, _, if_pos hstatus⟩
      | running offset => exact ⟨.advance i, _, by rw [step, hstatus]⟩
      | settled succeeded => rw [hstatus] at hsettled; cases hsettled
    · exact ⟨.finish, finish frame s, by rw [step, hcases]; exact if_neg hwaited⟩

end Work

end Cflow.Plan
