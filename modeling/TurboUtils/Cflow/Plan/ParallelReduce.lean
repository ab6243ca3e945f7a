import Mathlib.Logic.Function.Basic
import TurboUtils.Cflow.Plan.Compile
import TurboUtils.Lib.PartialReduce
import TurboUtils.Lib.Transition

/-! `eval_parallel_reduce`: the thread that posts one task for each range of values and waits, and
the tasks, which the executor runs in any order and at any speed. -/
namespace Cflow.Plan

open Graph (Value)

/-! ## Forming tasks -/

/-- What evaluation asks of an executor: whether it is concurrent, and whether the caller runs in
one of its own tasks. -/
structure Executor where
  concurrent : Bool
  current : Bool

structure EvalOptions where
  executor : Executor
  maxTasks : ℕ
  minItemsPerTask : ℕ

structure Range where
  begin : ℕ
  count : ℕ
  deriving DecidableEq

/-- `parallel_task_count`. -/
def parallelTaskCount (itemCount : ℕ) (options : EvalOptions) : ℕ :=
  if options.maxTasks = 0 ∨ options.minItemsPerTask = 0 then 0
  else
    let desired := itemCount / options.minItemsPerTask +
      if itemCount % options.minItemsPerTask ≠ 0 then 1 else 0
    if desired < options.maxTasks then desired else options.maxTasks

def rangesLoop (base remainder begin index : ℕ) : ℕ → List Range
  | 0 => []
  | left + 1 =>
      let count := base + if index < remainder then 1 else 0
      ⟨begin, count⟩ :: rangesLoop base remainder (begin + count) (index + 1) left

def ranges (itemCount taskCount : ℕ) : List Range :=
  rangesLoop (itemCount / taskCount) (itemCount % taskCount) 0 0 taskCount

/-- `cflow_parallel_reduce_frame`, as it is before the first task is posted. -/
structure Frame where
  reducer : Inst
  values : List Value
  ranges : List Range

/-- The first part of `eval_parallel_reduce`: the frame, if at least two tasks are formed. -/
def formTasks (lifecycle : Lifecycle) (fuel : ℕ) (plan : Plan) (inputs : List Value)
    (options : EvalOptions) : Option Frame := do
  let index ← plan.terminalReduceIndex
  let reducer ← plan.code[index]?
  if options.maxTasks ≠ 0 && options.minItemsPerTask ≠ 0 && plan.supportsParallelReduce &&
      options.executor.concurrent && !options.executor.current then do
    let v ← evalPrefixMaterialized lifecycle fuel plan inputs index
    let taskCount := parallelTaskCount v.values.length options
    if v.type.size = 0 ∨ taskCount < 2 ∨ v.values.length < taskCount then none
    else some ⟨reducer, v.values, ranges v.values.length taskCount⟩
  else none

/-! ## The machine -/

/-- Where a task is; while it runs, with the offset of the value that it combines next. -/
inductive Status where
  | unposted
  | queued
  | running (offset : ℕ)
  | settled (succeeded : Bool)
  deriving DecidableEq

structure Task where
  range : Range
  status : Status

inductive Phase where
  | posting
  | waiting
  | returned (result : Option Result)

/-- The frame while tasks run. Whether a callable failed and whether the executor dropped a task is
only recorded. -/
structure State where
  tasks : ℕ → Task
  partials : ℕ → Value
  completed : ℕ
  failed : Bool
  accepted : ℕ
  admissionFailed : Bool
  phase : Phase
  callableFailed : Bool
  cancelled : Bool

inductive Action where
  | post (accepted : Bool)
  | start (task : ℕ)
  | advance (task : ℕ)
  | cancel (task : ℕ)
  | finish
  deriving DecidableEq

section Machine

variable (frame : Frame)

def Frame.op (a b : Value) : Option Value := frame.reducer.invoke [a, b]

def initial : State where
  tasks i := ⟨frame.ranges.getD i ⟨0, 0⟩, .unposted⟩
  partials _ := []
  completed := 0
  failed := false
  accepted := 0
  admissionFailed := false
  phase := .posting
  callableFailed := false
  cancelled := false

def State.setStatus (s : State) (i : ℕ) (status : Status) : State :=
  { s with tasks := Function.update s.tasks i { s.tasks i with status := status } }

/-- `parallel_reduce_task_settle`. -/
def State.settle (s : State) (i : ℕ) (succeeded : Bool) : State :=
  { s.setStatus i (.settled succeeded) with
    failed := s.failed || !succeeded
    completed := s.completed + 1 }

def post (s : State) (accepted : Bool) : State :=
  if s.accepted = frame.ranges.length then { s with phase := .waiting }
  else if accepted then { s.setStatus s.accepted .queued with accepted := s.accepted + 1 }
  else { s with admissionFailed := true, phase := .waiting }

/-- The first part of `parallel_reduce_task_run`. -/
def start (s : State) (i : ℕ) : State :=
  if (s.tasks i).range.count = 0 then s.settle i false
  else
    { s.setStatus i (.running 1) with
      partials := Function.update s.partials i (frame.values.getD (s.tasks i).range.begin []) }

/-- One turn of the loop of `parallel_reduce_task_run`, or its end. -/
def advance (s : State) (i offset : ℕ) : State :=
  if offset < (s.tasks i).range.count then
    match frame.op (s.partials i) (frame.values.getD ((s.tasks i).range.begin + offset) []) with
    | none => { s.settle i false with callableFailed := true }
    | some value =>
        { s.setStatus i (.running (offset + 1)) with
          partials := Function.update s.partials i value }
  else s.settle i true

/-- `merge_partials`. -/
def mergePartials (s : State) : Option Result :=
  match (List.range frame.ranges.length).map s.partials with
  | [] => none
  | first :: rest => (rest.foldlM frame.op first).map fun value => ⟨[value], frame.reducer.outputType⟩

/-- The end of `eval_parallel_reduce`, behind `wait_for_accepted`. -/
def finish (s : State) : State :=
  if s.failed || s.admissionFailed || s.accepted ≠ frame.ranges.length then
    { s with phase := .returned none }
  else
    { s with
      phase := .returned (mergePartials frame s)
      callableFailed := s.callableFailed || (mergePartials frame s).isNone }

/-- What an action does where it is possible. -/
def step (s : State) : Action → Option State
  | .post accepted =>
      match s.phase with
      | .posting => some (post frame s accepted)
      | _ => none
  | .start i => if (s.tasks i).status = .queued then some (start frame s i) else none
  | .advance i =>
      match (s.tasks i).status with
      | .running offset => some (advance frame s i offset)
      | _ => none
  | .cancel i =>
      if (s.tasks i).status = .queued then some { s.settle i false with cancelled := true }
      else none
  | .finish =>
      match s.phase with
      | .waiting => if s.completed < s.accepted then none else some (finish frame s)
      | _ => none

end Machine

/-- What `eval_parallel_reduce` may return. -/
def ParallelReturns (lifecycle : Lifecycle) (fuel : ℕ) (plan : Plan) (inputs : List Value)
    (options : EvalOptions) (result : Option Result) : Prop :=
  match formTasks lifecycle fuel plan inputs options with
  | none => result = none
  | some frame => ∃ actions s, Transition.run (step frame) (initial frame) actions = some s ∧
      s.phase = .returned result

/-! The ranges of the tasks cut the values into parts that are not empty and stand in order. -/

/-- The ranges follow one another from `first` to `last`, and none is empty. -/
def Tiles (first last : ℕ) : List Range → Prop
  | [] => first = last
  | r :: rest => r.begin = first ∧ 0 < r.count ∧ Tiles (first + r.count) last rest

def Range.chunk (values : List Value) (r : Range) : List Value := (values.drop r.begin).take r.count

variable {base remainder begin index left itemCount taskCount first last : ℕ} {rs : List Range}
  {values : List Value}

theorem rangesLoop_tiles (hbase : 0 < base) :
    Tiles begin (begin + left * base + (min remainder (index + left) - min remainder index))
      (rangesLoop base remainder begin index left) := by
  induction left generalizing begin index with
  | zero => simp [rangesLoop, Tiles]
  | succ left ih =>
    refine ⟨rfl, Nat.add_pos_left hbase _, ?_⟩
    dsimp only
    have hrest := @ih (begin + (base + if index < remainder then 1 else 0)) (index + 1)
    have hend : begin + (base + if index < remainder then 1 else 0) + left * base +
          (min remainder (index + 1 + left) - min remainder (index + 1)) =
        begin + (left + 1) * base + (min remainder (index + (left + 1)) - min remainder index) := by
      rw [Nat.add_one_mul]
      split_ifs <;> omega
    rwa [hend] at hrest

theorem ranges_tiles (htasks : 0 < taskCount) (hle : taskCount ≤ itemCount) :
    Tiles 0 itemCount (ranges itemCount taskCount) := by
  have hcut := @rangesLoop_tiles _ (itemCount % taskCount) 0 0 taskCount (Nat.div_pos hle htasks)
  have hdiv := Nat.div_add_mod' itemCount taskCount
  have hlt := Nat.mod_lt itemCount htasks
  have hend : 0 + taskCount * (itemCount / taskCount) +
      (min (itemCount % taskCount) (0 + taskCount) - min (itemCount % taskCount) 0) = itemCount := by
    rw [Nat.mul_comm taskCount]
    omega
  rwa [hend] at hcut

theorem length_rangesLoop : (rangesLoop base remainder begin index left).length = left := by
  induction left generalizing begin index with
  | zero => rfl
  | succ left ih => rw [rangesLoop, List.length_cons, ih]

theorem Tiles.le (h : Tiles first last rs) : first ≤ last := by
  induction rs generalizing first with
  | nil => exact h.le
  | cons r rest ih =>
    have hrest := ih h.2.2
    omega

theorem Tiles.begin_le (h : Tiles first last rs) {r : Range} (hr : r ∈ rs) : first ≤ r.begin := by
  induction rs generalizing first with
  | nil => cases hr
  | cons r' rest ih =>
    rcases List.mem_cons.1 hr with rfl | hr
    · exact h.1.ge
    · have hrest := ih h.2.2 hr
      omega

theorem Tiles.mem (h : Tiles first last rs) {r : Range} (hr : r ∈ rs) :
    0 < r.count ∧ r.begin + r.count ≤ last := by
  induction rs generalizing first with
  | nil => cases hr
  | cons r' rest ih =>
    rcases List.mem_cons.1 hr with rfl | hr
    · exact ⟨h.2.1, h.1 ▸ h.2.2.le⟩
    · exact ih h.2.2 hr

theorem Tiles.sum_count (h : Tiles first last rs) : first + (rs.map Range.count).sum = last := by
  induction rs generalizing first with
  | nil => exact h
  | cons r rest ih =>
    rw [List.map_cons, List.sum_cons, ← Nat.add_assoc]
    exact ih h.2.2

theorem Tiles.flatten_chunks (h : Tiles first last rs) :
    (rs.map (Range.chunk values)).flatten = (values.drop first).take (last - first) := by
  induction rs generalizing first with
  | nil =>
    rw [show first = last from h, Nat.sub_self, List.take_zero]
    rfl
  | cons r rest ih =>
    obtain ⟨hbegin, hcount, hrest⟩ := h
    have hle := hrest.le
    rw [List.map_cons, List.flatten_cons, ih hrest, Range.chunk, hbegin, ← List.drop_drop,
      ← List.take_add]
    congr 1
    omega

theorem Tiles.length_chunk (h : Tiles first values.length rs) {r : Range} (hr : r ∈ rs) :
    (r.chunk values).length = r.count := by
  have hend := (h.mem hr).2
  rw [Range.chunk, List.length_take, List.length_drop]
  omega

theorem Tiles.chunk_ne_nil (h : Tiles first values.length rs) :
    ∀ chunk ∈ rs.map (Range.chunk values), chunk ≠ [] := by
  intro chunk hchunk
  obtain ⟨r, hr, rfl⟩ := List.mem_map.1 hchunk
  refine List.ne_nil_of_length_pos ?_
  rw [h.length_chunk hr]
  exact (h.mem hr).1

/-- Each position is in one range. -/
theorem Tiles.existsUnique (h : Tiles first last rs) {n : ℕ} (hn : first ≤ n) (hlast : n < last) :
    ∃! k : ℕ, ∃ r : Range, rs[k]? = some r ∧ r.begin ≤ n ∧ n < r.begin + r.count := by
  induction rs generalizing first with
  | nil =>
    obtain rfl : first = last := h
    omega
  | cons r rest ih =>
    obtain ⟨hbegin, hcount, hrest⟩ := h
    by_cases hfirst : n < first + r.count
    · refine ⟨0, ⟨r, rfl, by omega, by omega⟩, fun k ⟨r', hr', hle, _⟩ => ?_⟩
      cases k with
      | zero => rfl
      | succ k =>
        have hbounds := hrest.begin_le (List.mem_of_getElem? hr')
        omega
    · obtain ⟨k, hk, hunique⟩ := ih hrest (by omega)
      refine ⟨k + 1, hk, fun k' ⟨r', hr', hle, hlt⟩ => ?_⟩
      cases k' with
      | zero =>
        cases hr'
        omega
      | succ k' => rw [hunique k' ⟨r', hr', hle, hlt⟩]

end Cflow.Plan
