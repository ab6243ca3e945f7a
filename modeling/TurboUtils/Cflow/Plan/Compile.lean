import TurboUtils.Cflow.Graph.Definition
import TurboUtils.Cflow.Graph.Validate

/-! The instructions of a plan, and what each of them does to the values there are. Allocation always
succeeds, and sizes in bytes do not overflow. -/
namespace Cflow.Plan

open Graph (Callable TypeDesc Value)

/-- The copies and moves of the types that are not stored byte by byte. -/
structure Lifecycle where
  copy : TypeDesc → Value → Option Value
  move : TypeDesc → Value → Value

/-- `cflow_plan_call`; without its types where the compiler does not look at the signature. -/
structure Call where
  fn : Callable
  types : Option (TypeDesc × TypeDesc)

inductive Opcode where
  | filter
  | map
  | flatMap
  | reduce
  | take
  | skip
  deriving DecidableEq

structure Inst where
  opcode : Opcode
  inputType : TypeDesc
  outputType : TypeDesc
  call : Option Call
  fnChain : List Call
  sizeParameter : Option ℕ

/-- `cflow_plan_value_vec`. -/
structure ValueVec where
  type : TypeDesc
  values : List Value
  capacity : ℕ

section Storage

variable (lifecycle : Lifecycle) (type : TypeDesc)

/-- `cflow_value_construct`. -/
def construct (value : Value) : Option Value :=
  if type.storageSupported then some value
  else if type.supported then lifecycle.copy type value else none

/-- `cflow_value_move_construct`. -/
def moveConstruct (value : Value) : Option Value :=
  if type.storageSupported then some value
  else if type.supported then some (lifecycle.move type value) else none

/-- `vec_init`. -/
def vecInit (capacity : ℕ) : Option ValueVec :=
  if type.size ≠ 0 && type.supported then some ⟨type, [], capacity⟩ else none

variable {type}

/-- `vec_copy_append`. -/
def vecCopyAppend (v : ValueVec) (value : Value) : Option ValueVec :=
  if v.values.length < v.capacity then
    (construct lifecycle v.type value).map fun value => { v with values := v.values ++ [value] }
  else none

/-- `vec_reserve`. -/
def vecReserve (v : ValueVec) (capacity : ℕ) : Option ValueVec :=
  if capacity < v.values.length then none
  else if capacity ≤ v.capacity then some v
  else if v.type.storageSupported then some { v with capacity := capacity }
  else (vecInit v.type capacity).bind fun out => v.values.foldlM (vecCopyAppend lifecycle) out

/-- `vec_move_append`, of a value of the type given. -/
def vecMoveAppend (v : ValueVec) (source : TypeDesc) (value : Value) : Option ValueVec :=
  if v.type.equal source && v.values.length < v.capacity then
    (moveConstruct lifecycle v.type value).map fun value => { v with values := v.values ++ [value] }
  else none

/-- `append_generated`. -/
def appendGenerated (v : ValueVec) (source : TypeDesc) (value : Value) : Option ValueVec := do
  let v ← if v.values.length = v.capacity then
      vecReserve lifecycle v (if v.capacity ≠ 0 then v.capacity * 2 else 8)
    else some v
  vecMoveAppend lifecycle v source value

/-- `copy_values`. -/
def copyValues (values : List Value) (type : TypeDesc) : Option ValueVec := do
  let v ← vecInit type values.length
  if type.storageSupported then some { v with values := values }
  else values.foldlM (vecCopyAppend lifecycle) v

end Storage

section Steps

variable (lifecycle : Lifecycle) (i : Inst) (v : ValueVec)

/-- A `_Bool` that a predicate wrote. -/
def keeps (result : Value) : Bool := result.headD 0 ≠ 0

/-- `i->call.invoke`, which may be null. -/
def Inst.invoke (i : Inst) (args : List Value) : Option Value :=
  i.call.bind fun call => call.fn.invoke args

def filterLoop : List Value → Option (List Value)
  | [] => some []
  | value :: rest => do
      let keep ← i.invoke [value]
      let kept ← filterLoop rest
      some (if keeps keep then value :: kept else kept)

/-- `step_filter`. -/
def stepFilter : Option ValueVec :=
  if v.type.equal i.inputType then
    if v.type.storageSupported then
      (filterLoop i v.values).map fun values => { v with values := values }
    else do
      let out ← vecInit v.type v.values.length
      let values ← filterLoop i v.values
      values.foldlM (vecCopyAppend lifecycle) out
  else none

/-- One callable of `step_map`. -/
def mapCall (cur : ValueVec) (call : Call) : Option ValueVec :=
  match call.types with
  | none => none
  | some (input, output) =>
      if input.equal cur.type then do
        let next ← vecInit output cur.values.length
        let values ← cur.values.mapM fun value => call.fn.invoke [value]
        some { next with values := values }
      else none

/-- `step_map`. -/
def stepMap : Option ValueVec :=
  if i.fnChain.isEmpty || !v.type.equal i.inputType then none
  else do
    let cur ← i.fnChain.foldlM mapCall v
    if cur.type.equal i.outputType then some cur else none

/-- The calls of `cmeta_callable_generate` for one value, as many as `fuel` at most. -/
def generateLoop (fn : Callable) (input : Value) (out : ValueVec) :
    ℕ → ℕ → Option ValueVec
  | 0, _ => none
  | fuel + 1, cursor =>
      match fn.generate input cursor with
      | (.value, value, cursor) => do
          let out ← appendGenerated lifecycle out i.outputType value
          generateLoop fn input out fuel cursor
      | (.valueAndDone, value, _) => appendGenerated lifecycle out i.outputType value
      | (.done, _, _) => some out
      | (.error, _, _) => none
      | (.mutated, _, _) => none

/-- `step_flat_map`, with the number of calls that each value may take. -/
def stepFlatMap (fuel : ℕ) : Option ValueVec :=
  if v.type.equal i.inputType then do
    let out ← vecInit i.outputType 0
    let call ← i.call
    v.values.foldlM (fun out input => generateLoop lifecycle i call.fn input out fuel 0) out
  else none

/-- The rest of `step_reduce` in slots, behind the accumulator there is. -/
def reduceSlots (type : TypeDesc) (acc : Value) : List Value → Option Value
  | [] => some acc
  | value :: rest => do
      let next ← i.invoke [acc, value]
      let acc ← moveConstruct lifecycle type next
      reduceSlots type acc rest

/-- `step_reduce`. -/
def stepReduce : Option ValueVec :=
  if v.type.equal i.inputType && i.inputType.equal i.outputType then
    match v.values with
    | [] => some ⟨i.outputType, [], 0⟩
    | first :: rest =>
        if v.type.storageSupported then
          (rest.foldlM (fun acc value => i.invoke [acc, value]) first).map
            fun value => ⟨i.outputType, [value], 1⟩
        else if v.type.supported && v.type.size ≠ 0 then do
          let acc ← construct lifecycle v.type first
          let acc ← reduceSlots lifecycle i v.type acc rest
          let out ← vecInit i.outputType 1
          vecMoveAppend lifecycle out v.type acc
        else none
  else none

/-- `step_take`. -/
def stepTake : Option ValueVec :=
  match i.sizeParameter with
  | none => none
  | some size =>
      if v.type.equal i.inputType && i.inputType.equal i.outputType then
        if size = 0 then some ⟨i.outputType, [], 0⟩
        else some { v with values := v.values.take size }
      else none

/-- `step_skip`. -/
def stepSkip : Option ValueVec :=
  match i.sizeParameter with
  | none => none
  | some size =>
      if v.type.equal i.inputType && i.inputType.equal i.outputType then
        if v.values.length ≤ size then some ⟨i.outputType, [], 0⟩
        else if size = 0 then some v
        else if v.type.storageSupported then some { v with values := v.values.drop size }
        else do
          let out ← vecInit v.type (v.values.length - size)
          (v.values.drop size).foldlM (vecCopyAppend lifecycle) out
      else none

/-- `cflow_plan_step_for_opcode`. -/
def Inst.step (fuel : ℕ) : Option ValueVec :=
  match i.opcode with
  | .filter => stepFilter lifecycle i v
  | .map => stepMap i v
  | .flatMap => stepFlatMap lifecycle i v fuel
  | .reduce => stepReduce lifecycle i v
  | .take => stepTake i v
  | .skip => stepSkip lifecycle i v

end Steps

end Cflow.Plan

/-! `cflow_plan_compile`, and the sequential evaluation of a plan. -/

/-- `cflow_plan_impl`, with the types of the plan. -/
structure Cflow.Plan where
  code : List Cflow.Plan.Inst
  terminalReduceIndex : Option ℕ
  parallelReduceSupported : Bool
  managedValues : Bool
  fusedFilterCount : ℕ
  fusedMapCallCount : ℕ
  fusedValue : Bool
  inputType : Cflow.Graph.TypeDesc
  outputType : Cflow.Graph.TypeDesc

namespace Cflow.Plan

open Graph (Callable DenseSuccessorIndex Node Op Subgraph TypeDesc Value check)

/-! ## Graphs that a plan can be made of -/

/-- `node_is_high_level`. -/
def nodeIsHighLevel (node : Node) : Bool := node.op = .zip

/-- `cflow_graph_is_normalized`. -/
def isNormalized (g : Graph) : Bool :=
  g.root < g.subgraphs.length && g.subgraphs.all fun sg => sg.nodes.all (!nodeIsHighLevel ·)

def allTypes (supported : TypeDesc → Bool) (g : Graph) : Bool :=
  g.subgraphs.all fun sg => supported sg.inputType && supported sg.outputType &&
    sg.nodes.all fun node => supported node.inputType && supported node.outputType

/-- `cflow_value_runtime_graph_supported`. -/
def runtimeGraphSupported (g : Graph) : Bool := allTypes TypeDesc.supported g

/-- `cflow_value_storage_graph_supported`. -/
def storageGraphSupported (g : Graph) : Bool := allTypes TypeDesc.storageSupported g

/-- `opcode_for`: the rules of the inference table. -/
def opcodeFor : Op → Option Opcode
  | .filter => some .filter
  | .map => some .map
  | .transform => some .map
  | .flatMap => some .flatMap
  | .reduce => some .reduce
  | .take => some .take
  | .skip => some .skip
  | _ => none

/-- The nodes from one on, along the successors; at most `left` of them. -/
def pathLoop (sg : Subgraph) (index : DenseSuccessorIndex) : ℕ → ℕ → Option (List Node)
  | 0, _ => none
  | left + 1, id => do
      let node ← sg.nodes[id]?
      match index.successor id with
      | none => some [node]
      | some next => do
          let rest ← pathLoop sg index left next
          some (node :: rest)

def pathNodes (sg : Subgraph) (index : DenseSuccessorIndex) : Option (List Node) :=
  pathLoop sg index sg.nodes.length sg.entry

/-- `plan_path_mixes_slices_and_callables`. -/
def pathMixesSlicesAndCallables (nodes : List Node) : Bool :=
  (nodes.any fun node => node.op = .take || node.op = .skip) &&
    nodes.any fun node => node.op ≠ .take && node.op ≠ .skip && node.op ≠ .input

/-- `plan_path_supported`. -/
def pathSupported (index : DenseSuccessorIndex) (nodes : List Node) : Bool :=
  index.firstFanout.isNone && nodes.all fun node => node.op = .input ||
    (opcodeFor node.op).isSome && node.subgraphs.isEmpty

/-! ## Instructions -/

/-- `cmeta_type_bool`. -/
def boolType : TypeDesc := ⟨"bool", 1, .bool, none, [.trivialCopy, .trivialDestroy]⟩

/-- `prepare_unary_call`. -/
def prepareUnaryCall (fn : Callable) : Option Call :=
  match fn.sig with
  | some ⟨result, [input], .value⟩ => some ⟨fn, some (input, result)⟩
  | _ => none

def mapCallables (node : Node) : List Callable :=
  if node.fnChain.isEmpty then node.fn.toList else node.fnChain

def prepareChain (expected : TypeDesc) : List Callable → Option (List Call × TypeDesc)
  | [] => some ([], expected)
  | fn :: rest =>
      match prepareUnaryCall fn with
      | some ⟨fn, some (input, result)⟩ =>
          if input.equal expected then do
            let (calls, last) ← prepareChain result rest
            some (⟨fn, some (input, result)⟩ :: calls, last)
          else none
      | _ => none

def compileNode (node : Node) : Except String Inst :=
  match opcodeFor node.op with
  | none => .error "plan step inference failed"
  | some opcode =>
      let inst : Inst := ⟨opcode, node.inputType, node.outputType, none, [], node.sizeParameter⟩
      match opcode with
      | .filter =>
          match node.fn.bind prepareUnaryCall with
          | some ⟨fn, some (input, result)⟩ =>
              if input.equal node.inputType && result.equal boolType then
                .ok { inst with call := some ⟨fn, some (input, result)⟩ }
              else .error "filter callable predecode failed"
          | _ => .error "filter callable predecode failed"
      | .map =>
          match mapCallables node with
          | [] => .error "map callable predecode failed"
          | callables =>
              match prepareChain node.inputType callables with
              | none => .error "map callable predecode failed"
              | some (calls, last) =>
                  if last.equal node.outputType then .ok { inst with fnChain := calls }
                  else .error "map callable output type mismatch"
      | .take | .skip =>
          if node.sizeParameter.isSome && node.fn.isNone && node.inputType.equal node.outputType then
            .ok inst
          else .error "slice instruction metadata is invalid"
      | _ => .ok { inst with call := node.fn.map fun fn => ⟨fn, none⟩ }

/-! ## What evaluation may do -/

/-- `call_is_parallel_prefix`. -/
def callIsParallelPrefix (call : Call) : Bool :=
  call.fn.contractValid && call.fn.pure && call.fn.properties.deterministic &&
    call.fn.properties.total && call.fn.properties.noAlias

/-- `cflow_callable_declares_associative_endomap`. -/
def declaresAssociativeEndomap (fn : Callable) : Bool :=
  fn.pure && fn.properties.total && fn.properties.associative && fn.properties.noAlias &&
    match fn.sig with
    | some ⟨result, [left, right], .value⟩ => left.equal right && left.equal result
    | _ => false

/-- What `prepare_parallel_reduce` asks of an instruction before the last one. -/
def instIsParallelPrefix (inst : Inst) : Bool :=
  match inst.opcode with
  | .filter => inst.call.any callIsParallelPrefix
  | .map => !inst.fnChain.isEmpty && inst.fnChain.all callIsParallelPrefix
  | .flatMap => inst.call.any callIsParallelPrefix
  | _ => false

/-- `prepare_parallel_reduce`: whether the last instruction is a reduce that may run in parallel. -/
def prepareParallelReduce (code : List Inst) (managedValues : Bool) : Bool :=
  !managedValues &&
    match code.getLast? with
    | none => false
    | some reduce =>
        reduce.opcode = .reduce && reduce.inputType.equal reduce.outputType &&
          (reduce.call.any fun call => declaresAssociativeEndomap call.fn) &&
            code.dropLast.all instIsParallelPrefix

/-- `call_is_fusible_value`. -/
def callIsFusibleValue (call : Call) : Bool :=
  (call.types.any fun (input, output) => input.size ≠ 0 && output.size ≠ 0) &&
    call.fn.contractValid && call.fn.pure && call.fn.properties.deterministic &&
      call.fn.properties.total && call.fn.properties.noAlias

/-- The loop of `prepare_fused_value`: how many filters there are, and how many calls of maps. -/
def fusedLoop (sawMap : Bool) (filters calls : ℕ) : List Inst → Option (ℕ × ℕ)
  | [] => some (filters, calls)
  | inst :: rest =>
      match inst.opcode with
      | .filter =>
          if !sawMap && inst.call.any callIsFusibleValue then fusedLoop sawMap (filters + 1) calls rest
          else none
      | .map =>
          if !inst.fnChain.isEmpty && inst.fnChain.all callIsFusibleValue then
            fusedLoop true filters (calls + inst.fnChain.length) rest
          else none
      | _ => none

/-- `prepare_fused_value`. -/
def prepareFusedValue (code : List Inst) (managedValues : Bool) : Option (ℕ × ℕ) :=
  if code.isEmpty || managedValues then none else fusedLoop false 0 0 code

/-- `cflow_plan_compile`. -/
def compile (g : Graph) : Except String Plan := do
  check (isNormalized g) "plan requires normalized Graph"
  g.validate
  check (runtimeGraphSupported g) "plan requires supported value lifecycle"
  match g.subgraphs[g.root]? with
  | none => .error "graph root is invalid"
  | some sg =>
      match DenseSuccessorIndex.build sg with
      | none => .error "Graph contains invalid topology"
      | some index =>
          match pathNodes sg index with
          | none => .error "Graph contains a semantic not supported by direct plan"
          | some nodes => do
              check (!pathMixesSlicesAndCallables nodes)
                "Graph mixes slice and callable plan semantics"
              check (pathSupported index nodes)
                "Graph contains a semantic not supported by direct plan"
              let code ← (nodes.filter (·.op ≠ .input)).mapM compileNode
              let managedValues := !storageGraphSupported g
              let parallel := prepareParallelReduce code managedValues
              let fused := prepareFusedValue code managedValues
              .ok ⟨code, if parallel then some (code.length - 1) else none, parallel, managedValues,
                (fused.getD (0, 0)).1, (fused.getD (0, 0)).2, fused.isSome, sg.inputType,
                sg.outputType⟩

/-- `cflow_plan_parallel_reduce_supported`. -/
def supportsParallelReduce (plan : Plan) : Bool :=
  plan.parallelReduceSupported && plan.terminalReduceIndex.any (· < plan.code.length)

/-! ## Sequential evaluation -/

structure Result where
  values : List Value
  type : TypeDesc

section Evaluation

variable (lifecycle : Lifecycle) (fuel : ℕ) (plan : Plan) (inputs : List Value)

/-- `cflow_plan_eval_prefix_materialized`. -/
def evalPrefixMaterialized (instructionCount : ℕ) : Option ValueVec :=
  if plan.code.length < instructionCount then none
  else do
    let values ← copyValues lifecycle inputs plan.inputType
    (plan.code.take instructionCount).foldlM (fun v inst => inst.step lifecycle v fuel) values

/-- `eval_materialized`. -/
def evalMaterialized : Option Result := do
  let v ← evalPrefixMaterialized lifecycle fuel plan inputs plan.code.length
  if v.type.equal plan.outputType then some ⟨v.values, v.type⟩ else none

/-- `eval_fused_value`: the filters first, then every map over what they left. -/
def evalFusedValue : Option Result :=
  if inputs.isEmpty then some ⟨[], plan.outputType⟩
  else do
    let selected ← (plan.code.take plan.fusedFilterCount).foldlM
      (fun values inst => filterLoop inst values) inputs
    let calls := (plan.code.drop plan.fusedFilterCount).flatMap Inst.fnChain
    let values ← calls.foldlM
      (fun values call => values.mapM fun value => call.fn.invoke [value]) selected
    some ⟨values, plan.outputType⟩

/-- `cflow_plan_eval_array`. -/
def evalArray : Option Result :=
  if plan.fusedValue then evalFusedValue plan inputs
  else evalMaterialized lifecycle fuel plan inputs

end Evaluation

end Cflow.Plan
