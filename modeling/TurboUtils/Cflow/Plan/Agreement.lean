import TurboUtils.Cflow.Plan.Tasks
import TurboUtils.Cflow.Plan.Types

/-! The parallel evaluation of a reduce agrees with the sequential one. -/
namespace Cflow.Plan

open Graph (Flows Node Subgraph TypeDesc)
open PartialReduce (reduce)

section Sequential

variable {lifecycle : Lifecycle} {v : ValueVec} {i : Inst} {fuel : ℕ}

theorem step_reduce (hopcode : i.opcode = .reduce) (htype : v.type.equal i.inputType = true)
    (hsame : i.inputType.equal i.outputType = true) (hstored : v.type.storageSupported = true)
    (hne : v.values ≠ []) : i.step lifecycle v fuel =
      (reduce (fun a b => i.invoke [a, b]) v.values).map fun value => ⟨i.outputType, [value], 1⟩ := by
  obtain ⟨first, rest, hvalues⟩ := List.exists_cons_of_ne_nil hne
  unfold Inst.step
  rw [hopcode]
  dsimp only
  unfold stepReduce
  rw [htype, hsame, hvalues, hstored]
  rfl

/-- A plan with a reduce is not evaluated in one pass. -/
theorem fusedLoop_reduce {code : List Inst} (h : ∃ i ∈ code, i.opcode = .reduce) {sawMap : Bool}
    {filters calls : ℕ} : fusedLoop sawMap filters calls code = none := by
  induction code generalizing sawMap filters calls with
  | nil =>
    obtain ⟨i, hi, -⟩ := h
    cases hi
  | cons i rest ih =>
    obtain ⟨j, hj, hreduce⟩ := h
    rcases List.mem_cons.1 hj with rfl | hj
    · rw [fusedLoop, hreduce]
    · have hrest := @ih ⟨j, hj, hreduce⟩
      rw [fusedLoop]
      split
      · split_ifs
        · exact hrest
        · rfl
      · split_ifs
        · exact hrest
        · rfl
      · rfl

end Sequential

/-! ## Plans -/

/-- What `compile` makes of the root of a graph that passed. -/
structure CompiledFrom (g : Graph) (plan : Plan) (sg : Subgraph) (nodes : List Node) : Prop where
  root : g.subgraphs[g.root]? = some sg
  valid : Graph.validateSubgraph g sg = .ok ()
  path : ∃ index, Graph.DenseSuccessorIndex.build sg = some index ∧ pathNodes sg index = some nodes
  code : List.Forall₂ Compiled (nodes.filter (·.op ≠ .input)) plan.code
  managed : plan.managedValues = !storageGraphSupported g
  terminal : plan.parallelReduceSupported = prepareParallelReduce plan.code plan.managedValues
  index : plan.parallelReduceSupported = true → plan.terminalReduceIndex = some (plan.code.length - 1)
  fused : plan.fusedValue = (prepareFusedValue plan.code plan.managedValues).isSome
  input : plan.inputType = sg.inputType
  output : plan.outputType = sg.outputType

theorem compile_from {g : Graph} {plan : Plan} (h : compile g = .ok plan) :
    ∃ sg nodes, CompiledFrom g plan sg nodes := by
  unfold compile at h
  obtain ⟨_, _, h⟩ := Fallible.bind_eq_ok.1 h
  obtain ⟨_, hvalid, h⟩ := Fallible.bind_eq_ok.1 h
  obtain ⟨_, _, h⟩ := Fallible.bind_eq_ok.1 h
  split at h
  · cases h
  next sg hroot =>
    split at h
    · cases h
    next index hbuild =>
      split at h
      · cases h
      next nodes hnodes =>
        obtain ⟨_, _, h⟩ := Fallible.bind_eq_ok.1 h
        obtain ⟨_, _, h⟩ := Fallible.bind_eq_ok.1 h
        obtain ⟨code, hcode, h⟩ := Fallible.bind_eq_ok.1 h
        cases h
        unfold Graph.validate at hvalid
        obtain ⟨_, _, hvalid⟩ := Fallible.bind_eq_ok.1 hvalid
        refine ⟨sg, nodes, hroot, Fallible.forM_eq_ok.1 hvalid sg (List.mem_of_getElem? hroot),
          ⟨index, hbuild, hnodes⟩, Fallible.mapM_forall₂ (fun _ _ => compileNode_compiled) hcode, rfl, rfl,
          fun hparallel => ?_, rfl, rfl, rfl⟩
        exact if_pos hparallel

/-- A plan with a parallel reduce: its reduce stands last, behind a parallel prefix. -/
structure ParallelShape (plan : Plan) (before : List Inst) (reducer : Inst) : Prop where
  code : plan.code = before ++ [reducer]
  opcode : reducer.opcode = .reduce
  same : reducer.inputType.equal reducer.outputType = true
  parallel : ∀ inst ∈ before, instIsParallelPrefix inst = true

theorem prepareParallelReduce_shape {plan : Plan} {managedValues : Bool}
    (h : prepareParallelReduce plan.code managedValues = true) :
    managedValues = false ∧ ∃ before reducer, ParallelShape plan before reducer := by
  unfold prepareParallelReduce at h
  rw [Bool.and_eq_true, Bool.not_eq_true'] at h
  obtain ⟨hmanaged, h⟩ := h
  split at h
  · cases h
  next reducer hlast =>
    simp only [Bool.and_eq_true, decide_eq_true_eq] at h
    obtain ⟨⟨⟨hopcode, hsame⟩, -⟩, hall⟩ := h
    refine ⟨hmanaged, plan.code.dropLast, reducer, ?_, hopcode, hsame, List.all_eq_true.1 hall⟩
    exact (List.dropLast_append_getLast? reducer hlast).symm

section Agreement

variable {g : Graph} {plan : Plan} {sg : Subgraph} {nodes : List Node} {before : List Inst}
  {reducer : Inst} {lifecycle : Lifecycle} {fuel : ℕ} {inputs : List Graph.Value} {v : ValueVec}

theorem evalPrefixMaterialized_length (hshape : ParallelShape plan before reducer) :
    evalPrefixMaterialized lifecycle fuel plan inputs plan.code.length =
      (evalPrefixMaterialized lifecycle fuel plan inputs before.length).bind
        fun v => reducer.step lifecycle v fuel := by
  have hle : ¬plan.code.length < before.length := by
    rw [hshape.code, List.length_append]
    omega
  unfold evalPrefixMaterialized
  rw [if_neg (lt_irrefl _), if_neg hle, List.take_length, hshape.code, List.take_left]
  cases copyValues lifecycle inputs plan.inputType with
  | none => rfl
  | some values =>
    have happend := @List.foldlM_append Option _ _ _ _
      (fun (v : ValueVec) (inst : Inst) => inst.step lifecycle v fuel) values before [reducer]
    exact happend.trans (congrArg _ (funext fun _ => Option.bind_fun_some _))

theorem copyValues_type {type : TypeDesc} (h : copyValues lifecycle inputs type = some v) :
    v.type = type := by
  obtain ⟨out, hout, hcopied⟩ := Option.bind_eq_some_iff.1 h
  have hinit := vecInit_type hout
  split_ifs at hcopied
  · cases hcopied
    exact hinit
  · exact (foldlM_type (fun _ _ _ => vecCopyAppend_type) hcopied).trans hinit

/-- The values behind the prefix have the type that the reduce takes, are stored byte by byte, and
what the reduce gives has the type of the result. -/
theorem prefix_typed (hfrom : CompiledFrom g plan sg nodes)
    (hderived : ∀ node ∈ sg.nodes, node.Derived) (hshape : ParallelShape plan before reducer)
    (hstorage : storageGraphSupported g = true)
    (hv : evalPrefixMaterialized lifecycle fuel plan inputs before.length = some v) :
    v.type.equal reducer.inputType = true ∧ v.type.storageSupported = true ∧
      reducer.outputType.equal plan.outputType = true := by
  obtain ⟨index, hbuild, hnodes⟩ := hfrom.path
  obtain ⟨hflows, hsubset⟩ := pathNodes_flows hfrom.valid hbuild hnodes
  have htypes := List.all_eq_true.1 hstorage sg (List.mem_of_getElem? hfrom.root)
  simp only [Bool.and_eq_true, List.all_eq_true] at htypes
  obtain ⟨⟨hinput, -⟩, houtputs⟩ := htypes
  have hderivedPath : ∀ node ∈ nodes, node.Derived := fun node hnode => hderived node (hsubset hnode)
  have hfiltered := hflows.filter_input hderivedPath
  -- The nodes of the prefix, and the node of the reduce.
  have hcode := hfrom.code
  rw [hshape.code] at hcode
  obtain ⟨front, back, hsplit, hfront, hback⟩ : ∃ front back,
      nodes.filter (·.op ≠ .input) = front ++ back ∧ List.Forall₂ Compiled front before ∧
        List.Forall₂ Compiled back [reducer] :=
    ⟨_, _, (List.take_append_drop before.length _).symm, List.forall₂_take_append _ _ _ hcode,
      List.forall₂_drop_append _ _ _ hcode⟩
  cases hback with
  | cons hreduce hnil =>
    cases hnil
    rename_i node
    rw [hsplit] at hfiltered
    have hmem : ∀ m ∈ front, m ∈ sg.nodes := fun m hm =>
      hsubset (List.mem_filter.1 (hsplit ▸ List.mem_append_left _ hm)).1
    unfold evalPrefixMaterialized at hv
    split_ifs at hv
    obtain ⟨start, hstart, hrun⟩ := Option.bind_eq_some_iff.1 hv
    have hstartType : start.type = sg.inputType :=
      (copyValues_type hstart).trans hfrom.input
    rw [hshape.code, List.take_left] at hrun
    rw [← hstartType] at hfiltered hinput
    obtain ⟨hrest, hstored⟩ := prefix_flows hfront (fun m hm => hderived m (hmem m hm))
      hshape.parallel (fun m hm => (houtputs m (hmem m hm)).2) hfiltered hinput hrun
    rw [hreduce.input, hreduce.output, hfrom.output]
    exact ⟨hrest.1, hstored, hrest.2⟩

/-- What the sequential evaluation gives. -/
theorem evalArray_eq (hfrom : CompiledFrom g plan sg nodes)
    (hderived : ∀ node ∈ sg.nodes, node.Derived) (hshape : ParallelShape plan before reducer)
    (hstorage : storageGraphSupported g = true)
    (hv : evalPrefixMaterialized lifecycle fuel plan inputs before.length = some v)
    (hne : v.values ≠ []) : evalArray lifecycle fuel plan inputs =
      (reduce (fun a b => reducer.invoke [a, b]) v.values).map
        fun value => ⟨[value], reducer.outputType⟩ := by
  obtain ⟨htype, hstored, houtput⟩ := prefix_typed hfrom hderived hshape hstorage hv
  have hfused : plan.fusedValue = false := by
    rw [hfrom.fused]
    unfold prepareFusedValue
    rw [fusedLoop_reduce ⟨reducer, by simp [hshape.code], hshape.opcode⟩]
    split_ifs <;> rfl
  unfold evalArray
  rw [hfused, if_neg Bool.false_ne_true]
  unfold evalMaterialized
  rw [evalPrefixMaterialized_length hshape, hv, Option.bind_some,
    step_reduce hshape.opcode htype hshape.same hstored hne]
  cases reduce (fun a b => reducer.invoke [a, b]) v.values with
  | none => rfl
  | some value => exact if_pos houtput

/-- The frame that evaluation forms. -/
theorem formTasks_eq_some {options : EvalOptions} {frame : Frame}
    (h : formTasks lifecycle fuel plan inputs options = some frame) :
    ∃ index reducer v, plan.terminalReduceIndex = some index ∧ plan.code[index]? = some reducer ∧
      plan.supportsParallelReduce = true ∧
      evalPrefixMaterialized lifecycle fuel plan inputs index = some v ∧
      2 ≤ parallelTaskCount v.values.length options ∧
      parallelTaskCount v.values.length options ≤ v.values.length ∧
      frame = ⟨reducer, v.values,
        ranges v.values.length (parallelTaskCount v.values.length options)⟩ := by
  unfold formTasks at h
  obtain ⟨index, hindex, h⟩ := Option.bind_eq_some_iff.1 h
  obtain ⟨reducer, hreducer, h⟩ := Option.bind_eq_some_iff.1 h
  split_ifs at h with hallowed
  obtain ⟨v, hv, h⟩ := Option.bind_eq_some_iff.1 h
  dsimp only at h
  split_ifs at h with hfew
  cases h
  simp only [Bool.and_eq_true] at hallowed
  obtain ⟨⟨⟨_, hsupported⟩, _⟩, _⟩ := hallowed
  refine ⟨index, reducer, v, hindex, hreducer, hsupported, hv, ?_, ?_, rfl⟩ <;> omega

theorem supportsParallelReduce_shape (hfrom : CompiledFrom g plan sg nodes)
    (hsupported : plan.supportsParallelReduce = true) : storageGraphSupported g = true ∧
      ∃ before reducer, ParallelShape plan before reducer ∧
        plan.terminalReduceIndex = some before.length := by
  have hparallel : plan.parallelReduceSupported = true := by
    unfold supportsParallelReduce at hsupported
    rw [Bool.and_eq_true] at hsupported
    exact hsupported.1
  have hindex := hfrom.index hparallel
  rw [hfrom.terminal] at hparallel
  obtain ⟨hmanaged, before, reducer, hshape⟩ := prepareParallelReduce_shape hparallel
  rw [hfrom.managed, Bool.not_eq_false'] at hmanaged
  refine ⟨hmanaged, before, reducer, hshape, ?_⟩
  rw [hindex, hshape.code, List.length_append]
  rfl

end Agreement

/-! ## Agreement -/

/-- With an associative reducer, whatever the parallel evaluation gives is what the sequential one
gives. The tasks cut the values behind the prefix into ranges that are not empty and stand in order;
they come to an end in whatever order they run, and without a result only if a post is refused, a
callable fails, or the executor drops a task. -/
theorem parallelReduce_agrees {g : Graph} {plan : Plan} (hcompile : compile g = .ok plan)
    (hderived : ∀ sg ∈ g.subgraphs, ∀ node ∈ sg.nodes, node.Derived) {reducer : Inst}
    (hreducer : plan.code.getLast? = some reducer)
    (hassociative : PartialReduce.Associative fun a b => reducer.invoke [a, b])
    (lifecycle : Lifecycle) (fuel : ℕ) (inputs : List Graph.Value) (options : EvalOptions) :
    (∀ result, ParallelReturns lifecycle fuel plan inputs options (some result) →
      evalArray lifecycle fuel plan inputs = some result) ∧
    ∀ frame, formTasks lifecycle fuel plan inputs options = some frame →
      (∃ v, evalPrefixMaterialized lifecycle fuel plan inputs (plan.code.length - 1) = some v ∧
        frame.values = v.values) ∧
      2 ≤ frame.ranges.length ∧ Tiles 0 frame.values.length frame.ranges ∧
      (∀ n < frame.values.length, ∃! k : ℕ, ∃ r : Range, frame.ranges[k]? = some r ∧
        r.begin ≤ n ∧ n < r.begin + r.count) ∧
      ∀ actions s, Transition.run (step frame) (initial frame) actions = some s →
        actions.length ≤ frame.values.length + 3 * frame.ranges.length + 2 ∧
        (s.phase = .returned none →
          s.admissionFailed = true ∨ s.callableFailed = true ∨ s.cancelled = true) ∧
        ((∀ result, s.phase ≠ .returned result) → ∃ action s', step frame s action = some s') := by
  obtain ⟨sg, nodes, hfrom⟩ := compile_from hcompile
  have hsg : ∀ node ∈ sg.nodes, node.Derived := hderived sg (List.mem_of_getElem? hfrom.root)
  -- What is true of every frame.
  have hframes : ∀ frame, formTasks lifecycle fuel plan inputs options = some frame →
      ∃ v before, ParallelShape plan before reducer ∧ storageGraphSupported g = true ∧
        evalPrefixMaterialized lifecycle fuel plan inputs before.length = some v ∧
        v.values ≠ [] ∧ frame.values = v.values ∧ frame.reducer = reducer ∧
        2 ≤ frame.ranges.length ∧ Tiles 0 frame.values.length frame.ranges := by
    intro frame hform
    obtain ⟨index, reducer', v, hindex, hreducer', hsupported, hv, htwo, hle, rfl⟩ :=
      formTasks_eq_some hform
    obtain ⟨hstorage, before, last, hshape, hlength⟩ := supportsParallelReduce_shape hfrom hsupported
    rw [hindex] at hlength
    cases hlength
    have hlast : last = reducer := by
      rw [hshape.code, List.getLast?_concat] at hreducer
      exact Option.some.inj hreducer
    have hsame : reducer' = last := by
      rw [hshape.code, List.getElem?_concat_length] at hreducer'
      exact (Option.some.inj hreducer').symm
    refine ⟨v, before, hlast ▸ hshape, hstorage, hv, ?_, rfl, hsame.trans hlast, ?_,
      ranges_tiles (by omega) hle⟩
    · exact List.ne_nil_of_length_pos (by omega)
    · dsimp only [ranges]
      rw [length_rangesLoop]
      exact htwo
  have hop : ∀ frame : Frame, frame.reducer = reducer → PartialReduce.Associative frame.op := by
    rintro frame rfl
    exact hassociative
  constructor
  · intro result hreturns
    unfold ParallelReturns at hreturns
    split at hreturns
    · cases hreturns
    next frame hform =>
      obtain ⟨actions, s, hrun, hphase⟩ := hreturns
      obtain ⟨v, before, hshape, hstorage, hv, hne, hvalues, hsame, -, htiles⟩ := hframes frame hform
      have hok := (run_inv (hop frame hsame) htiles hrun).phase
      rw [hphase] at hok
      obtain ⟨value, hvalue, rfl⟩ := hok
      rw [evalArray_eq hfrom hsg hshape hstorage hv hne, ← hvalues, ← hsame]
      exact congrArg (Option.map _) hvalue
  · intro frame hform
    obtain ⟨v, before, hshape, -, hv, -, hvalues, hsame, htwo, htiles⟩ := hframes frame hform
    refine ⟨⟨v, ?_, hvalues⟩, htwo, htiles, fun n hn => htiles.existsUnique (Nat.zero_le n) hn,
      fun actions s hrun => ?_⟩
    · rwa [hshape.code, List.length_append, List.length_singleton, Nat.add_sub_cancel]
    · have hinv := run_inv (hop frame hsame) htiles hrun
      refine ⟨length_le_of_run (hop frame hsame) htiles hrun, fun hphase => ?_,
        fun hphase => progress hinv hphase⟩
      have hok := hinv.phase
      rwa [hphase] at hok

namespace Examples

def byte : TypeDesc := ⟨"unsigned char", 1, .integer, none, [.trivialCopy, .trivialDestroy]⟩

/-- A reducer that adds bytes. -/
def add : Graph.Callable where
  sig := some ⟨byte, [byte, byte], .value⟩
  pure := true
  properties := ⟨true, true, false, true, true⟩
  invoke
    | [[a], [b]] => some [a + b]
    | _ => none
  generate _ cursor := (.error, [], cursor)

def input : Node := ⟨.input, none, [], none, byte, byte, [], none, .none⟩

def sum : Node := ⟨.reduce, some add, [], none, byte, byte, [], none, .none⟩

/-- The bytes, reduced to their sum. -/
def graph : Graph := ⟨[⟨[input, sum], [⟨0, 0, 1, 0⟩], 0, 1, byte, byte⟩], 0⟩

def reducer : Inst := ⟨.reduce, byte, byte, some ⟨add, none⟩, [], none⟩

def plan : Plan := ⟨[reducer], some 0, true, false, 0, 0, false, byte, byte⟩

def lifecycle : Lifecycle := ⟨fun _ => some, fun _ value => value⟩

/-- Three bytes, for two tasks. -/
def options : EvalOptions := ⟨⟨true, false⟩, 2, 1⟩

theorem derived : ∀ sg ∈ graph.subgraphs, ∀ node ∈ sg.nodes, node.Derived := by
  intro sg hsg node hnode
  rw [List.mem_singleton.1 hsg] at hnode
  rcases List.mem_pair.1 hnode with rfl | rfl
  · exact ⟨fun _ => rfl, fun hop => (by rcases hop with hop | hop <;> cases hop)⟩
  · exact ⟨fun _ => rfl, fun hop => (by rcases hop with hop | hop <;> cases hop)⟩

theorem add_associative : PartialReduce.Associative fun a b => reducer.invoke [a, b] := by
  have hadd : ∀ a b : Graph.Value, reducer.invoke [a, b] = add.invoke [a, b] := fun _ _ => rfl
  intro a b c
  simp only [hadd]
  rcases a with _ | ⟨a, _ | ⟨a', as⟩⟩ <;> rcases b with _ | ⟨b, _ | ⟨b', bs⟩⟩ <;>
    rcases c with _ | ⟨c, _ | ⟨c', cs⟩⟩ <;> simp [add, UInt8.add_assoc]

/-- The second task runs first. -/
def actions : List Action :=
  [.post true, .post true, .start 1, .post true, .start 0, .advance 1, .advance 0, .advance 0, .finish]

end Examples

theorem parallelReduce_three : ParallelReturns Examples.lifecycle 0 Examples.plan [[1], [2], [3]]
      Examples.options (some ⟨[[6]], Examples.byte⟩) ∧
    evalArray Examples.lifecycle 0 Examples.plan [[1], [2], [3]] = some ⟨[[6]], Examples.byte⟩ := by
  have hreturns : ParallelReturns Examples.lifecycle 0 Examples.plan [[1], [2], [3]]
      Examples.options (some ⟨[[6]], Examples.byte⟩) := ⟨Examples.actions, _, rfl, rfl⟩
  have hcompile : compile Examples.graph = .ok Examples.plan := rfl
  exact ⟨hreturns, (parallelReduce_agrees hcompile Examples.derived rfl Examples.add_associative
    _ 0 _ Examples.options).1 _ hreturns⟩

end Cflow.Plan
