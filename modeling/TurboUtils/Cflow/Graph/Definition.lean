import Mathlib.Data.Nat.Notation
import Mathlib.Data.List.Basic

/-! The graph of a dataflow: subgraphs of typed nodes and edges, whose nodes may refer to subgraphs.
Allocation always succeeds here, and no pointer is null. -/
namespace Cflow.Graph

inductive Trait where
  | equal
  | hash
  | compare
  | copy
  | move
  | destroy
  | trivialCopy
  | trivialDestroy
  deriving DecidableEq

inductive TypeKind where
  | void
  | bool
  | integer
  | float
  | pointer
  | object
  deriving DecidableEq

/-- A valid type descriptor. The identity is what `cmeta_type_equal` compares: descriptors of one
identity may differ in the rest. -/
structure TypeDesc where
  identity : String
  size : ℕ
  kind : TypeKind
  pointee : Option TypeDesc
  traits : List Trait

namespace TypeDesc

/-- `cmeta_type_equal`. -/
def equal (a b : TypeDesc) : Bool := a.identity = b.identity

/-- `cmeta_type_require_traits`. -/
def requireTraits (type : TypeDesc) (required : List Trait) : Bool := required ⊆ type.traits

/-- `cflow_value_storage_type_supported`. -/
def storageSupported (type : TypeDesc) : Bool :=
  type.requireTraits [.trivialCopy, .trivialDestroy]

/-- `cflow_value_type_supported`. -/
def supported (type : TypeDesc) : Bool :=
  type.storageSupported || type.requireTraits [.copy, .move, .destroy]

theorem equal_iff {a b : TypeDesc} : a.equal b = true ↔ a.identity = b.identity :=
  decide_eq_true_iff

end TypeDesc

abbrev Value := List UInt8

inductive Protocol where
  | value
  | generator
  deriving DecidableEq

/-- `cmeta_sig_desc`. -/
structure Signature where
  returnType : TypeDesc
  params : List TypeDesc
  protocol : Protocol

/-- `cmeta_gen_status`. -/
inductive GenStatus where
  | value
  | valueAndDone
  | done
  | error
  | mutated
  deriving DecidableEq

structure Properties where
  deterministic : Bool
  total : Bool
  idempotent : Bool
  noAlias : Bool
  associative : Bool
  deriving DecidableEq

/-- A callable. The signature is that of `cmeta_callable_signature`, which a callable that does not
bind lacks; what it computes fails where it has no adapter. -/
structure Callable where
  sig : Option Signature
  pure : Bool
  properties : Properties
  invoke : List Value → Option Value
  generate : Value → ℕ → GenStatus × Value × ℕ

/-- `cmeta_callable_contract_valid`. -/
def Callable.contractValid (fn : Callable) : Bool := fn.sig.isSome

inductive Op where
  | input
  | relation
  | filter
  | map
  | transform
  | flatMap
  | reduce
  | zip
  | take
  | skip
  | distinct
  | sorted
  deriving DecidableEq

inductive Coordination where
  | all
  | any
  | latest
  | sequence
  deriving DecidableEq

inductive Completion where
  | coordinator
  | firstResult
  | allDone
  deriving DecidableEq

inductive ErrorPolicy where
  | failFast
  | ignore
  | tryNext
  deriving DecidableEq

inductive ResultPolicy where
  | fold
  | select
  | invoke
  deriving DecidableEq

structure RelationSchema where
  coordination : Coordination
  completion : Completion
  result : ResultPolicy
  error : ErrorPolicy
  deriving DecidableEq

/-- `cflow_node_params` under its `cflow_node_param_kind`. -/
inductive NodeParam where
  | none
  | take (count : ℕ)
  | skip (count : ℕ)
  | distinct (maxUnique : ℕ)
  | sorted (maxElements : ℕ)
  deriving DecidableEq

structure Node where
  op : Op
  fn : Option Callable
  fnChain : List Callable
  relation : Option RelationSchema
  inputType : TypeDesc
  outputType : TypeDesc
  subgraphs : List ℕ
  sizeParameter : Option ℕ
  param : NodeParam

structure Edge where
  src : ℕ
  srcPort : ℕ
  dst : ℕ
  dstPort : ℕ
  deriving DecidableEq

structure Subgraph where
  nodes : List Node
  edges : List Edge
  entry : ℕ
  tail : ℕ
  inputType : TypeDesc
  outputType : TypeDesc

end Cflow.Graph

structure Cflow.Graph where
  subgraphs : List Cflow.Graph.Subgraph
  root : ℕ
