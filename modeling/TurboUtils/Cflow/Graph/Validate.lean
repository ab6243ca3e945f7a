import TurboUtils.Cflow.Graph.Definition
import TurboUtils.Lib.Fallible

/-! The dense successor index of a subgraph, and `cflow_graph_validate`. -/
namespace Cflow.Graph

def invalidId : ℕ := 2 ^ 32 - 1

/-! ## The dense successor index -/

structure DenseSuccessorIndex where
  successors : List (Option ℕ)
  firstFanout : Option ℕ

namespace DenseSuccessorIndex

def addEdge (index : DenseSuccessorIndex) (edge : Edge) : Option DenseSuccessorIndex :=
  if index.successors.length ≤ edge.src ∨ index.successors.length ≤ edge.dst then none
  else
    match index.successors[edge.src]?.join with
    | none => some { index with successors := index.successors.set edge.src (some edge.dst) }
    | some _ =>
        match index.firstFanout with
        | none => some { index with firstFanout := some edge.src }
        | some first =>
            if edge.src < first then some { index with firstFanout := some edge.src }
            else some index

/-- `cflow_dense_successor_index_build`. -/
def build (sg : Subgraph) : Option DenseSuccessorIndex :=
  if invalidId < sg.nodes.length then none
  else sg.edges.foldlM addEdge ⟨List.replicate sg.nodes.length none, none⟩

/-- `cflow_dense_successor_index_successor`. -/
def successor (index : DenseSuccessorIndex) (node : ℕ) : Option ℕ :=
  index.successors[node]?.join

end DenseSuccessorIndex

/-! ## Nodes -/

def check (condition : Bool) (message : String) : Except String Unit :=
  if condition then .ok () else .error message

theorem check_eq_ok {condition : Bool} {message : String} :
    check condition message = .ok () ↔ condition = true := by
  unfold check
  split_ifs with h
  · exact ⟨fun _ => h, fun _ => rfl⟩
  · exact ⟨fun hok => (by cases hok), fun hc => absurd hc h⟩

def coordinationValid (schema : RelationSchema) : Except String Unit :=
  match schema.coordination with
  | .all =>
      check (schema.result = .fold || schema.result = .invoke)
        "ALL relation requires FOLD or INVOKE result policy"
  | .any => do
      check (schema.result = .select) "ANY relation requires SELECT result policy"
      check (schema.completion ≠ .allDone) "ANY relation does not support ALL_DONE completion"
  | .latest => check (schema.result = .fold) "LATEST relation requires FOLD result policy"
  | .sequence => check (schema.result = .select) "SEQUENCE relation requires SELECT result policy"

/-- `relation_schema_valid`. -/
def relationSchemaValid (schema : RelationSchema) : Except String Unit := do
  coordinationValid schema
  match schema.error with
  | .failFast => .ok ()
  | .ignore =>
      check (schema.coordination ≠ .all)
        "ALL relation cannot IGNORE a child that may have no value"
  | .tryNext =>
      check (schema.coordination = .sequence && schema.result = .select &&
        schema.completion = .firstResult) "TRY_NEXT requires SEQUENCE + SELECT + FIRST_RESULT"

/-- The loop of `validate_map_chain`: the type behind the chain. -/
def validateMapChainLoop (current : TypeDesc) : List Callable → Except String TypeDesc
  | [] => .ok current
  | fn :: chain => do
      check (fn.contractValid && fn.pure) "fused MAP chains require valid PURE callback contracts"
      match fn.sig with
      | some ⟨result, [input], .value⟩ => do
          check (input.equal current) "fused MAP function chain type mismatch"
          validateMapChainLoop result chain
      | _ => .error "fused MAP function chain type mismatch"

/-- `validate_map_chain`. -/
def validateMapChain (node : Node) : Except String Unit :=
  if node.fnChain.isEmpty then .ok ()
  else do
    check (node.op = .map) "only MAP may carry a fused function chain"
    let current ← validateMapChainLoop node.inputType node.fnChain
    check (current.equal node.outputType) "fused MAP output type metadata is inconsistent"

/-- The part of `validate_subgraph_nodes` that reads the typed parameters of a node. -/
def validateParameters (node : Node) : Except String Unit :=
  let bare := node.fn.isNone && node.fnChain.isEmpty && node.relation.isNone &&
    node.subgraphs.isEmpty && node.inputType.equal node.outputType
  let slice := fun (param : ℕ → NodeParam) =>
    check (node.sizeParameter.any (node.param = param ·) && bare) "slice node metadata is inconsistent"
  match node.op with
  | .take => slice .take
  | .skip => slice .skip
  | op => do
      check node.sizeParameter.isNone "non-slice node carries a size parameter"
      match op, node.param with
      | .distinct, .distinct maxUnique =>
          check (maxUnique ≠ 0 && bare && node.inputType.requireTraits [.hash, .equal])
            "distinct node metadata is inconsistent"
      | .distinct, _ => .error "distinct node metadata is inconsistent"
      | .sorted, .sorted maxElements =>
          check (maxElements ≠ 0 && bare &&
            node.inputType.requireTraits [.compare, .copy, .move, .destroy])
            "sorted node metadata is inconsistent"
      | .sorted, _ => .error "sorted node metadata is inconsistent"
      | _, .none => .ok ()
      | _, _ => .error "operator carries an unexpected typed parameter"

/-- `cflow_subgraph_input_type`. -/
def inputTypeOf (g : Graph) (id : ℕ) : Option TypeDesc := g.subgraphs[id]?.map Subgraph.inputType

/-- `cflow_subgraph_output_type`. -/
def outputTypeOf (g : Graph) (id : ℕ) : Option TypeDesc := g.subgraphs[id]?.map Subgraph.outputType

/-- `cmeta_type_equal` of descriptors that may be null. -/
def equalType (a b : Option TypeDesc) : Bool :=
  match a, b with
  | some a, some b => a.equal b
  | _, _ => false

/-- One branch of a relation, by its position; the output type of the first branch stands for all. -/
def validateBranch (g : Graph) (node : Node) (schema : RelationSchema) (rsig : Option Signature)
    (homogeneous : Option TypeDesc) (k bid : ℕ) : Except String (Option TypeDesc) := do
  check (bid < g.subgraphs.length && equalType (inputTypeOf g bid) node.inputType)
    "RELATION branch source contract is inconsistent"
  let bout := outputTypeOf g bid
  if schema.result = .invoke then do
    check (rsig.any fun sig => sig.params.length = node.subgraphs.length &&
      equalType sig.params[k]? bout) "RELATION INVOKE branch/function type metadata is inconsistent"
    .ok homogeneous
  else do
    let homogeneous := homogeneous.or bout
    check (equalType homogeneous bout) "RELATION branches must have homogeneous output type"
    .ok homogeneous

/-- The loop over the branches of a relation, from the position `k` on. -/
def validateBranches (g : Graph) (node : Node) (schema : RelationSchema) (rsig : Option Signature)
    (homogeneous : Option TypeDesc) (k : ℕ) : List ℕ → Except String (Option TypeDesc)
  | [] => .ok homogeneous
  | bid :: rest => do
      let homogeneous ← validateBranch g node schema rsig homogeneous k bid
      validateBranches g node schema rsig homogeneous (k + 1) rest

def validateResult (node : Node) (schema : RelationSchema) (rsig : Option Signature)
    (homogeneous : Option TypeDesc) : Except String Unit :=
  match schema.result with
  | .invoke =>
      match rsig with
      | some ⟨result, [_, _], .value⟩ =>
          check (node.outputType.equal result)
            "RELATION INVOKE output/function metadata is inconsistent"
      | _ => .error "RELATION INVOKE output/function metadata is inconsistent"
  | .fold => do
      check (equalType node.outputType homogeneous) "RELATION output type metadata is inconsistent"
      match rsig with
      | some ⟨result, [left, right], _⟩ =>
          check (equalType left homogeneous && equalType right homogeneous &&
            equalType result homogeneous) "RELATION FOLD reducer/type metadata is inconsistent"
      | _ => .error "RELATION FOLD reducer/type metadata is inconsistent"
  | .select => do
      check (equalType node.outputType homogeneous) "RELATION output type metadata is inconsistent"
      check node.fn.isNone "RELATION SELECT must not carry a reducer"

/-- The part of `validate_subgraph_nodes` about a relation. -/
def validateRelation (g : Graph) (node : Node) : Except String Unit :=
  match node.relation with
  | none => .error "RELATION requires a schema and at least one subgraph"
  | some schema => do
      check (!node.subgraphs.isEmpty) "RELATION requires a schema and at least one subgraph"
      check (relationSchemaValid schema).toBool "RELATION schema is invalid"
      let rsig := node.fn.bind Callable.sig
      let homogeneous ← validateBranches g node schema rsig none 0 node.subgraphs
      validateResult node schema rsig homogeneous

/-- One turn of `validate_subgraph_nodes`. -/
def validateNode (g : Graph) (index : DenseSuccessorIndex) (n : ℕ) (node : Node) :
    Except String Unit := do
  validateParameters node
  check (node.fn.all (·.contractValid)) "callable effect/property contract is invalid"
  validateMapChain node
  check (index.firstFanout ≠ some n)
    "naked DATA fan-out is forbidden; use an explicit RELATION node"
  (if node.op = .relation then validateRelation g node else .ok ())
  check (node.subgraphs.all (· < g.subgraphs.length)) "node references invalid subgraph"

/-- `validate_subgraph_nodes`. -/
def validateSubgraphNodes (g : Graph) (sg : Subgraph) (index : DenseSuccessorIndex) :
    Except String Unit :=
  sg.nodes.zipIdx.forM fun (node, n) => validateNode g index n node

/-! ## Topology -/

/-- The walk of `validate_linear_topology`: how many nodes it meets, of which at most `left` more. -/
def walkLoop (index : DenseSuccessorIndex) (visited : ℕ) : ℕ → ℕ → Except String ℕ
  | 0, _ => .error "subgraph contains a topology cycle"
  | left + 1, node =>
      match index.successor node with
      | none => .ok (visited + 1)
      | some next => walkLoop index (visited + 1) left next

/-- `validate_linear_topology`. -/
def validateLinearTopology (index : DenseSuccessorIndex) (entry : ℕ) : Except String Unit := do
  let visited ← walkLoop index 0 index.successors.length entry
  check (visited = index.successors.length) "subgraph contains unreachable nodes"

def validateEnds (sg : Subgraph) : Except String Unit :=
  match sg.nodes[sg.entry]?, sg.nodes[sg.tail]? with
  | some entry, some tail => do
      check (entry.op = .input) "subgraph entry must be SOURCE"
      check (sg.inputType.equal entry.inputType && sg.outputType.equal tail.outputType)
        "subgraph boundary type metadata is inconsistent"
  | _, _ => .error "subgraph entry/tail is invalid"

/-- The loop of `validate_subgraph` over the edges. -/
def validateEdges (sg : Subgraph) : Except String Unit :=
  sg.edges.forM fun edge =>
    match sg.nodes[edge.src]?, sg.nodes[edge.dst]? with
    | some src, some dst => check (src.outputType.equal dst.inputType) "data edge type mismatch"
    | _, _ => .error "edge references invalid node"

/-- `validate_subgraph`. -/
def validateSubgraph (g : Graph) (sg : Subgraph) : Except String Unit := do
  validateEnds sg
  validateEdges sg
  match DenseSuccessorIndex.build sg with
  | none => .error "subgraph topology index is invalid"
  | some index => do
      check (index.successor sg.tail).isNone "subgraph exit must not have outgoing data edges"
      validateSubgraphNodes g sg index
      validateLinearTopology index sg.entry

/-- `cflow_graph_validate`. -/
def validate (g : Graph) : Except String Unit := do
  check (g.root < g.subgraphs.length) "graph root is invalid"
  g.subgraphs.forM (validateSubgraph g)

end Cflow.Graph
