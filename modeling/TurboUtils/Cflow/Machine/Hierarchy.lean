import TurboUtils.Cflow.Machine.Select

/-! `cflow_machine_hierarchy_build`: a tree of states is validated, its transitions are expanded to
the leaves, and a flat machine is built from them together with the route of every row. Indices
into the sorted states stand for the nodes; `SIZE_MAX` is `none`. -/
namespace Cflow.Machine

/-- `cflow_machine_hierarchy_status`, less success. -/
inductive HierarchyStatus where
  | invalidArgument
  | empty
  | limitExceeded
  | invalidId
  | duplicateId
  | invalidType
  | typeMismatch
  | invalidParent
  | invalidInitialChild
  | invalidStateKind
  | unknownState
  | ambiguousTransition
  | flatMachineRejected
  deriving DecidableEq, Repr

structure HierarchyState (τ : Type) where
  id : ℕ
  /-- Zero for the root. -/
  parent : ℕ
  /-- Zero for a leaf. -/
  initialChild : ℕ
  valueType : τ
  kind : StateKind

structure HierarchyDefinition (τ : Type) where
  states : List (HierarchyState τ)
  initialState : ℕ
  events : List (EventType τ)
  guards : List (Guard τ)
  actions : List (Action τ)
  transitions : List Transition

/-- Where the two paths of a row lie in the array of all paths. -/
structure RouteRecord where
  exitOffset : ℕ
  exitCount : ℕ
  entryOffset : ℕ
  entryCount : ℕ
  deriving DecidableEq, Repr

structure ExpandedTransition where
  transition : Transition
  declarationPriority : ℕ
  declarationDepth : ℕ
  sourceIndex : ℕ
  targetIndex : ℕ
  deriving DecidableEq, Repr

/-- The nodes with their parents and depths, the first part of `cflow_machine_hierarchy_impl`. -/
structure Nodes (τ : Type) where
  states : List (HierarchyState τ)
  parents : List (Option ℕ)
  depths : List ℕ

/-- `cflow_machine_hierarchy_impl`. -/
structure Hierarchy (τ : Type) extends Nodes τ where
  flat : Machine τ
  routes : List RouteRecord
  routeStates : List ℕ

/-- The largest value of a `size_t`. -/
def sizeMax : ℕ := 2 ^ 64 - 1

def deeperFirst (a b : ExpandedTransition) : Ordering :=
  compareOn (·.declarationDepth) b a

def compareExpandedTransition : ExpandedTransition → ExpandedTransition → Ordering :=
  compareLex (compareOn (·.transition.source)) <| compareLex (compareOn (·.transition.event)) <|
    compareLex deeperFirst <|
    compareLex (compareOn (·.declarationPriority)) <| compareLex (compareOn (·.transition.target)) <|
    compareLex (compareOn (·.transition.guard)) (compareOn (·.transition.action))

section Nodes

variable {τ : Type} [TypeDesc τ]

open TypeDesc

def findStateIndex (states : List (HierarchyState τ)) (id : ℕ) : Option ℕ :=
  findIndex (·.id) states id

/-! ## copy_states -/

def checkNode (stateType : τ) (previous : Option (HierarchyState τ)) (state : HierarchyState τ) :
    Except HierarchyStatus Unit :=
  if state.id = 0 then .error .invalidId
  else if previous.any (·.id = state.id) then .error .duplicateId
  else if !valid state.valueType then .error .invalidType
  else if !equal stateType state.valueType then .error .typeMismatch
  else match state.kind with
    | .other _ => .error .invalidStateKind
    | _ => .ok ()

def parentIndex (states : List (HierarchyState τ)) (state : HierarchyState τ) : Option ℕ :=
  if state.parent = 0 then none else findStateIndex states state.parent

def checkNodes (states : List (HierarchyState τ)) (stateType : τ) :
    Option (HierarchyState τ) → List (HierarchyState τ) →
      Except HierarchyStatus (List (Option ℕ))
  | _, [] => .ok []
  | previous, state :: rest => do
      checkNode stateType previous state
      if state.parent ≠ 0 && (parentIndex states state).isNone then .error .invalidParent
      else
        let parents ← checkNodes states stateType (some state) rest
        .ok (parentIndex states state :: parents)

def copyStates (definition : HierarchyDefinition τ) : Except HierarchyStatus (Nodes τ) :=
  match BinarySearch.sortBy (compareOn (·.id)) definition.states with
  | [] => .error .empty
  | first :: rest =>
      if definition.states.length > maxStates then .error .limitExceeded
      else do
        let parents ← checkNodes (first :: rest) first.valueType none (first :: rest)
        .ok ⟨first :: rest, parents, List.replicate (first :: rest).length 0⟩

/-! ## validate_tree -/

def Nodes.parent (impl : Nodes τ) (index : ℕ) : Option ℕ := impl.parents.getD index none
def Nodes.depth (impl : Nodes τ) (index : ℕ) : ℕ := impl.depths.getD index 0
def Nodes.initialChild (impl : Nodes τ) (index : ℕ) : ℕ :=
  (impl.states[index]?.map (·.initialChild)).getD 0
def Nodes.stateId (impl : Nodes τ) (index : ℕ) : ℕ := (impl.states[index]?.map (·.id)).getD 0

inductive Color where
  | white
  | gray
  | black
  deriving DecidableEq, Repr

def paint (parents : List (Option ℕ)) :
    ℕ → Option ℕ → List Color → List ℕ → Option ℕ × List Color × List ℕ
  | 0, current, colors, stack => (current, colors, stack)
  | _ + 1, none, colors, stack => (none, colors, stack)
  | fuel + 1, some node, colors, stack =>
      if colors.getD node .black = .white then
        paint parents fuel (parents.getD node none) (colors.set node .gray) (node :: stack)
      else (some node, colors, stack)

def unwind (parents : List (Option ℕ)) : List ℕ → List ℕ → List Color → List ℕ × List Color
  | [], depths, colors => (depths, colors)
  | node :: stack, depths, colors =>
      let depth := (parents.getD node none).elim 0 fun parent => depths.getD parent 0 + 1
      unwind parents stack (depths.set node depth) (colors.set node .black)

/-- The walk up from one node. The nodes are painted once, so a round for each is enough. -/
def visit (parents : List (Option ℕ)) (index : ℕ) (marks : List ℕ × List Color) :
    Except HierarchyStatus (List ℕ × List Color) :=
  if marks.2.getD index .black = .black then .ok marks
  else
    let (current, colors, stack) := paint parents (parents.length + 1) (some index) marks.2 []
    if current.any fun node => colors.getD node .black = .gray then .error .invalidParent
    else .ok (unwind parents stack marks.1 colors)

def markHasChild (parents : List (Option ℕ)) : List Bool :=
  parents.foldl (fun marks parent => parent.elim marks fun i => marks.set i true)
    (List.replicate parents.length false)

def checkChildren (impl : Nodes τ) (hasChild : List Bool) (index : ℕ) (state : HierarchyState τ) :
    Except HierarchyStatus Unit :=
  if hasChild.getD index false then
    if state.kind ≠ .active then .error .invalidStateKind
    else if state.initialChild = 0 then .error .invalidInitialChild
    else match findStateIndex impl.states state.initialChild with
      | none => .error .invalidInitialChild
      | some child =>
          if impl.parent child ≠ some index then .error .invalidInitialChild else .ok ()
  else if state.initialChild ≠ 0 then .error .invalidInitialChild
  else .ok ()

def validateTree (impl : Nodes τ) : Except HierarchyStatus (Nodes τ) := do
  if impl.parents.count none ≠ 1 then .error .invalidParent
  else
    let (depths, _) ← (List.range impl.states.length).foldlM
      (fun marks index => visit impl.parents index marks)
      (impl.depths, List.replicate impl.states.length .white)
    let _ ← impl.states.zipIdx.foldlM
      (fun _ row => checkChildren impl (markHasChild impl.parents) row.2 row.1) ()
    .ok { impl with depths := depths }

/-! ## expand_transitions -/

/-- The leaf reached by entering the initial child again and again, for at most so many hops. -/
def resolveFrom (impl : Nodes τ) : ℕ → ℕ → Option ℕ
  | 0, index => if impl.initialChild index = 0 then some index else none
  | hops + 1, index =>
      if impl.initialChild index = 0 then some index
      else (findStateIndex impl.states (impl.initialChild index)).bind (resolveFrom impl hops)

def resolveInitialLeaf (impl : Nodes τ) (index : ℕ) : Option ℕ :=
  resolveFrom impl impl.states.length index

def descendantLoop (impl : Nodes τ) (ancestor : ℕ) : ℕ → Option ℕ → Bool
  | 0, _ => false
  | _ + 1, none => false
  | fuel + 1, some node =>
      if node = ancestor then true else descendantLoop impl ancestor fuel (impl.parent node)

def isDescendant (impl : Nodes τ) (node ancestor : ℕ) : Bool :=
  descendantLoop impl ancestor (impl.states.length + 1) (some node)

def leaves (impl : Nodes τ) : List ℕ :=
  (List.range impl.states.length).filter fun index => impl.initialChild index = 0

def countDeclaration (impl : Nodes τ) (leaf count : ℕ) (decl : Transition) :
    Except HierarchyStatus ℕ :=
  match findStateIndex impl.states decl.source with
  | none => .error .unknownState
  | some source =>
      if isDescendant impl leaf source then
        if count = maxTransitions then .error .limitExceeded else .ok (count + 1)
      else .ok count

def countRows (impl : Nodes τ) (transitions : List Transition) : Except HierarchyStatus ℕ :=
  (leaves impl).foldlM (fun count leaf => transitions.foldlM (countDeclaration impl leaf) count) 0

def expandDeclaration (impl : Nodes τ) (leaf : ℕ) (rows : List ExpandedTransition)
    (decl : Transition) : Except HierarchyStatus (List ExpandedTransition) :=
  match findStateIndex impl.states decl.target, findStateIndex impl.states decl.source with
  | none, _ => .error .unknownState
  | some _, none => .ok rows
  | some targetNode, some source =>
      if !isDescendant impl leaf source then .ok rows
      else match resolveInitialLeaf impl targetNode with
        | none => .error .invalidInitialChild
        | some target => .ok (rows ++ [{
            transition := { decl with source := impl.stateId leaf, target := impl.stateId target }
            declarationPriority := decl.priority
            declarationDepth := impl.depth source
            sourceIndex := leaf
            targetIndex := target }])

def fillRows (impl : Nodes τ) (transitions : List Transition) :
    Except HierarchyStatus (List ExpandedTransition) :=
  (leaves impl).foldlM (fun rows leaf => transitions.foldlM (expandDeclaration impl leaf) rows) []

def ExpandedTransition.clashes (a b : ExpandedTransition) : Bool :=
  a.transition.source = b.transition.source && a.transition.event = b.transition.event &&
    a.declarationDepth = b.declarationDepth && a.declarationPriority = b.declarationPriority

def ExpandedTransition.numbered (row : ExpandedTransition) (previous : Option ExpandedTransition) :
    ExpandedTransition :=
  let priority := previous.elim 0 fun before =>
    if row.transition.source ≠ before.transition.source ||
        row.transition.event ≠ before.transition.event then 0
    else (before.transition.priority + 1) % 2 ^ 32
  { row with transition := { row.transition with priority := priority } }

def numberRows : Option ExpandedTransition → List ExpandedTransition →
    Except HierarchyStatus (List ExpandedTransition)
  | _, [] => .ok []
  | previous, row :: rest =>
      if previous.any row.clashes then .error .ambiguousTransition
      else do
        let rows ← numberRows (some (row.numbered previous)) rest
        .ok (row.numbered previous :: rows)

def expandTransitions (impl : Nodes τ) (transitions : List Transition) :
    Except HierarchyStatus (List ExpandedTransition) := do
  let _ ← countRows impl transitions
  let rows ← fillRows impl transitions
  numberRows none (BinarySearch.sortBy compareExpandedTransition rows)

/-! ## build_flat_machine -/

def flatState (state : HierarchyState τ) : State τ := ⟨state.id, state.valueType, state.kind⟩

def buildFlatMachine (impl : Nodes τ) (definition : HierarchyDefinition τ)
    (rows : List ExpandedTransition) : Except HierarchyStatus (Machine τ) :=
  match (findStateIndex impl.states definition.initialState).bind (resolveInitialLeaf impl) with
  | none => .error .unknownState
  | some initialLeaf =>
      let flatDefinition : Definition τ := {
        states := (impl.states.filter (·.initialChild = 0)).map flatState
        initialState := impl.stateId initialLeaf
        events := definition.events
        guards := definition.guards
        actions := definition.actions
        transitions := rows.map (·.transition) }
      match build flatDefinition with
      | .ok flat => .ok flat
      | .error .limitExceeded => .error .limitExceeded
      | .error _ => .error .flatMachineRejected

/-! ## build_routes -/

/-- The three loops of `least_common_ancestor`, each with the node it leaves. -/
def raiseTo (impl : Nodes τ) (depth : ℕ) : ℕ → ℕ → ℕ
  | 0, node => node
  | fuel + 1, node =>
      if impl.depth node > depth then raiseTo impl depth fuel ((impl.parent node).getD 0) else node

def raiseBoth (impl : Nodes τ) : ℕ → ℕ → ℕ → ℕ
  | 0, source, _ => source
  | fuel + 1, source, target =>
      if source = target then source
      else raiseBoth impl fuel ((impl.parent source).getD 0) ((impl.parent target).getD 0)

def leastCommonAncestor (impl : Nodes τ) (source target : ℕ) : ℕ :=
  let source := raiseTo impl (impl.depth target) impl.states.length source
  let target := raiseTo impl (impl.depth source) impl.states.length target
  raiseBoth impl impl.states.length source target

def countRoute (impl : Nodes τ) (total : ℕ) (row : ExpandedTransition) :
    Except HierarchyStatus ℕ :=
  let lca := leastCommonAncestor impl row.sourceIndex row.targetIndex
  let exits := impl.depth row.sourceIndex - impl.depth lca
  let entries := impl.depth row.targetIndex - impl.depth lca
  if exits > sizeMax - total || entries > sizeMax - total - exits then .error .limitExceeded
  else .ok (total + (exits + entries))

/-- Writes the nodes below the common ancestor, going up: the next cursor and their number. -/
def writeExits (impl : Nodes τ) (lca : ℕ) : ℕ → ℕ → ℕ → ℕ → List ℕ → ℕ × ℕ × List ℕ
  | 0, _, cursor, count, states => (cursor, count, states)
  | fuel + 1, node, cursor, count, states =>
      if node = lca then (cursor, count, states)
      else writeExits impl lca fuel ((impl.parent node).getD 0) (cursor + 1) (count + 1)
        (states.set cursor (impl.stateId node))

def writeEntries (impl : Nodes τ) (lca : ℕ) : ℕ → ℕ → ℕ → List ℕ → List ℕ
  | 0, _, _, states => states
  | fuel + 1, node, entryEnd, states =>
      if node = lca then states
      else writeEntries impl lca fuel ((impl.parent node).getD 0) (entryEnd - 1)
        (states.set (entryEnd - 1) (impl.stateId node))

def writeRoute (impl : Nodes τ) (route : ℕ × List ℕ × List RouteRecord)
    (row : ExpandedTransition) : ℕ × List ℕ × List RouteRecord :=
  let (start, states, routes) := route
  let lca := leastCommonAncestor impl row.sourceIndex row.targetIndex
  let (cursor, exitCount, states) :=
    writeExits impl lca impl.states.length row.sourceIndex start 0 states
  let entryCount := impl.depth row.targetIndex - impl.depth lca
  let states :=
    writeEntries impl lca impl.states.length row.targetIndex (cursor + entryCount) states
  (cursor + entryCount, states, routes ++ [⟨start, exitCount, cursor, entryCount⟩])

def buildRoutes (impl : Nodes τ) (rows : List ExpandedTransition) :
    Except HierarchyStatus (List RouteRecord × List ℕ) := do
  let total ← rows.foldlM (countRoute impl) 0
  -- the width of a state id is four bytes
  if total > sizeMax / 4 then .error .limitExceeded
  else
    let (_, states, routes) := rows.foldl (writeRoute impl) (0, List.replicate total 0, [])
    .ok (routes, states)

/-! ## The hierarchy -/

/-- `cflow_machine_hierarchy_build`. -/
def hierarchyBuild (definition : HierarchyDefinition τ) : Except HierarchyStatus (Hierarchy τ) := do
  if definition.states.length = 0 then .error .empty
  else if definition.initialState = 0 then .error .invalidArgument
  else
    let impl ← copyStates definition
    let impl ← validateTree impl
    let rows ← expandTransitions impl definition.transitions
    let flat ← buildFlatMachine impl definition rows
    let (routes, routeStates) ← buildRoutes impl rows
    .ok { toNodes := impl, flat := flat, routes := routes, routeStates := routeStates }

structure Route where
  exitStates : List ℕ
  entryStates : List ℕ
  deriving DecidableEq, Repr

/-- `cflow_machine_hierarchy_route_at`. -/
def routeAt (hierarchy : Hierarchy τ) (index : ℕ) : Option Route :=
  hierarchy.routes[index]?.map fun route => {
    exitStates := (hierarchy.routeStates.drop route.exitOffset).take route.exitCount
    entryStates := (hierarchy.routeStates.drop route.entryOffset).take route.entryCount }

end Nodes

end Cflow.Machine
