import TurboUtils.Cflow.Graph.Topology
import TurboUtils.Cflow.Plan.Compile

/-! The types of the values between the instructions of a plan. -/
namespace Cflow.Graph

/-! ## Paths -/

/-- What the builders and the optimizer derive the output type of a node from: the type of its
input, or what its last callable returns. -/
structure Node.Derived (node : Node) : Prop where
  same : node.op = .input ∨ node.op = .filter → node.outputType = node.inputType
  returned : node.op = .map ∨ node.op = .transform → ∀ fn,
    (Plan.mapCallables node).getLast? = some fn → ∀ sig, fn.sig = some sig →
      node.outputType = sig.returnType

def Flows (type : TypeDesc) : List Node → TypeDesc → Prop
  | [], last => type.equal last
  | node :: rest, last => type.equal node.inputType ∧ Flows node.outputType rest last

section Flows

variable {type type' last : TypeDesc} {nodes rest : List Node}

theorem TypeDesc.equal_trans {a b c : TypeDesc} (h : a.equal b = true) (h' : b.equal c = true) :
    a.equal c = true :=
  equal_iff.2 ((equal_iff.1 h).trans (equal_iff.1 h'))

theorem TypeDesc.equal_symm {a b : TypeDesc} (h : a.equal b = true) : b.equal a = true :=
  equal_iff.2 (equal_iff.1 h).symm

theorem Flows.of_equal (h : Flows type nodes last) (hequal : type'.equal type = true) :
    Flows type' nodes last := by
  cases nodes with
  | nil => exact TypeDesc.equal_trans hequal h
  | cons node rest => exact ⟨TypeDesc.equal_trans hequal h.1, h.2⟩

theorem Flows.filter_input (h : Flows type nodes last) (hderived : ∀ node ∈ nodes, node.Derived) :
    Flows type (nodes.filter (·.op ≠ .input)) last := by
  induction nodes generalizing type with
  | nil => exact h
  | cons node rest ih =>
    obtain ⟨hnode, hrest⟩ := List.forall_mem_cons.1 hderived
    have hflows := ih h.2 hrest
    by_cases hop : node.op = .input
    · rw [List.filter_cons_of_neg (by simpa using hop)]
      rw [hnode.same (.inl hop)] at hflows
      exact hflows.of_equal h.1
    · rw [List.filter_cons_of_pos (by simpa using hop)]
      exact ⟨h.1, hflows⟩

end Flows

end Cflow.Graph

namespace Cflow.Plan

open Graph (Callable Flows Node Subgraph TypeDesc)
open SuccessorWalk (IsWalk)

/-- The nodes that the compiler meets are nodes of the subgraph, and the types flow through them to
its tail. -/
theorem pathLoop_flows {sg : Subgraph} {index : Graph.DenseSuccessorIndex}
    (hindexes : Graph.DenseSuccessorIndex.Indexes sg.nodes.length sg.edges index)
    (htyped : sg.Typed) {walk : List ℕ} (hwalk : IsWalk index.successor walk)
    (hlast : walk.getLast? = some sg.tail) {left id : ℕ} (hhead : walk.head? = some id)
    {nodes : List Node} (hnodes : pathLoop sg index left id = some nodes) {type : TypeDesc}
    (htype : ∀ node, sg.nodes[id]? = some node → type.equal node.inputType = true) :
    Flows type nodes sg.outputType ∧ nodes ⊆ sg.nodes := by
  induction walk generalizing left id nodes type with
  | nil => cases hhead
  | cons n rest ih =>
    cases hhead
    cases left with
    | zero => cases hnodes
    | succ left =>
      obtain ⟨node, hnode, hmore⟩ := Option.bind_eq_some_iff.1 hnodes
      have hmem := List.mem_of_getElem? hnode
      cases rest with
      | nil =>
        rw [hwalk] at hmore
        cases hmore
        cases hlast
        obtain ⟨tail, htail, houtput⟩ := htyped.tail
        rw [hnode] at htail
        cases htail
        exact ⟨⟨htype node hnode, TypeDesc.equal_symm houtput⟩, List.cons_subset.2 ⟨hmem, List.nil_subset _⟩⟩
      | cons m rest =>
        rw [hwalk.1] at hmore
        obtain ⟨more, hloop, hcons⟩ := Option.bind_eq_some_iff.1 hmore
        cases hcons
        obtain ⟨edge, hedge, hsrc, hdst⟩ := hindexes.sound _ _ hwalk.1
        obtain ⟨src, dst, hsrcNode, hdstNode, hequal⟩ := htyped.edges edge hedge
        rw [hsrc, hnode] at hsrcNode
        cases hsrcNode
        rw [hdst] at hdstNode
        obtain ⟨hflows, hsubset⟩ := ih hwalk.2 (by rwa [List.getLast?_cons_cons] at hlast) rfl hloop
          fun node hnode => by rw [hdstNode] at hnode; cases hnode; exact hequal
        exact ⟨⟨htype node hnode, hflows⟩, List.cons_subset.2 ⟨hmem, hsubset⟩⟩

theorem pathNodes_flows {g : Graph} {sg : Subgraph} (h : Graph.validateSubgraph g sg = .ok ())
    {index : Graph.DenseSuccessorIndex} (hbuild : Graph.DenseSuccessorIndex.build sg = some index)
    {nodes : List Node} (hnodes : pathNodes sg index = some nodes) :
    Flows sg.inputType nodes sg.outputType ∧ nodes ⊆ sg.nodes := by
  obtain ⟨htyped, ⟨path, hpath, -⟩, -⟩ := Graph.validateSubgraph_ok h
  obtain ⟨index', hbuild', hindexes, hfanout, hexit, -, -⟩ := Graph.validateSubgraph_index h
  rw [hbuild] at hbuild'
  cases hbuild'
  refine pathLoop_flows hindexes htyped (Graph.isWalk_of_path hindexes hfanout hexit hpath)
    hpath.last hpath.head hnodes fun node hnode => ?_
  obtain ⟨entry, hentry, -, hequal⟩ := htyped.entry
  rw [hnode] at hentry
  cases hentry
  exact hequal

/-! ## Instructions -/

section Chains

variable {expected last : TypeDesc} {fns : List Callable} {calls : List Call}

theorem prepareUnaryCall_eq_some {fn : Callable} {call : Call} (h : prepareUnaryCall fn = some call) :
    ∃ result input, fn.sig = some ⟨result, [input], .value⟩ ∧
      call = ⟨fn, some (input, result)⟩ := by
  unfold prepareUnaryCall at h
  split at h
  next result input hsig =>
    cases h
    exact ⟨result, input, hsig, rfl⟩
  · cases h

theorem prepareChain_cons {fn : Callable} (h : prepareChain expected (fn :: fns) = some (calls, last)) :
    ∃ result input rest, fn.sig = some ⟨result, [input], .value⟩ ∧ input.equal expected = true ∧
      prepareChain result fns = some (rest, last) ∧ calls = ⟨fn, some (input, result)⟩ :: rest := by
  rw [prepareChain] at h
  split at h
  next fn' input' result' hcall =>
    obtain ⟨_, _, hsig, heq⟩ := prepareUnaryCall_eq_some hcall
    cases heq
    split_ifs at h with hinput
    obtain ⟨⟨rest, last'⟩, hrest, hcons⟩ := Option.bind_eq_some_iff.1 h
    cases hcons
    exact ⟨_, _, rest, hsig, hinput, hrest, rfl⟩
  · cases h

theorem prepareChain_last (h : prepareChain expected fns = some (calls, last)) {fn : Callable}
    (hfn : fns.getLast? = some fn) : ∃ sig, fn.sig = some sig ∧ sig.returnType = last := by
  induction fns generalizing expected calls with
  | nil => cases hfn
  | cons first fns ih =>
    obtain ⟨result, input, rest, hsig, -, hrest, -⟩ := prepareChain_cons h
    cases fns with
    | nil =>
      cases hfn
      cases hrest
      exact ⟨_, hsig, rfl⟩
    | cons second fns =>
      rw [List.getLast?_cons_cons] at hfn
      exact ih hrest hfn

theorem mapCall_type {v v' : ValueVec} {call : Call} {input output : TypeDesc}
    (htypes : call.types = some (input, output)) (h : mapCall v call = some v') :
    v'.type = output := by
  unfold mapCall at h
  rw [htypes] at h
  dsimp only at h
  split_ifs at h
  obtain ⟨next, hnext, h⟩ := Option.bind_eq_some_iff.1 h
  obtain ⟨values, _, h⟩ := Option.bind_eq_some_iff.1 h
  cases h
  unfold vecInit at hnext
  split_ifs at hnext
  cases hnext
  rfl

theorem foldlM_mapCall_type (h : prepareChain expected fns = some (calls, last)) {v v' : ValueVec}
    (hv : v.type = expected ∨ fns ≠ []) (hrun : calls.foldlM mapCall v = some v') :
    v'.type = last := by
  induction fns generalizing expected calls v with
  | nil =>
    cases h
    cases hrun
    exact hv.resolve_right (absurd rfl)
  | cons fn fns ih =>
    obtain ⟨result, input, rest, -, -, hrest, rfl⟩ := prepareChain_cons h
    obtain ⟨mid, hmid, hmore⟩ := Option.bind_eq_some_iff.1 hrun
    exact ih hrest (.inl (mapCall_type rfl hmid)) hmore

end Chains

section Generators

variable {lifecycle : Lifecycle} {v v' : ValueVec} {value : Graph.Value} {source : TypeDesc}

theorem vecCopyAppend_type (h : vecCopyAppend lifecycle v value = some v') : v'.type = v.type := by
  unfold vecCopyAppend at h
  split_ifs at h
  obtain ⟨_, _, rfl⟩ := Option.map_eq_some_iff.1 h
  rfl

theorem foldlM_type {α : Type} {f : ValueVec → α → Option ValueVec}
    (hf : ∀ v a v', f v a = some v' → v'.type = v.type) {l : List α}
    (h : l.foldlM f v = some v') : v'.type = v.type := by
  induction l generalizing v with
  | nil =>
    cases h
    rfl
  | cons a l ih =>
    obtain ⟨mid, hmid, hrest⟩ := Option.bind_eq_some_iff.1 h
    exact (ih hrest).trans (hf v a mid hmid)

theorem vecInit_type {type : TypeDesc} {capacity : ℕ} (h : vecInit type capacity = some v) :
    v.type = type := by
  unfold vecInit at h
  split_ifs at h
  cases h
  rfl

theorem vecReserve_type {capacity : ℕ} (h : vecReserve lifecycle v capacity = some v') :
    v'.type = v.type := by
  unfold vecReserve at h
  split_ifs at h
  · cases h
    rfl
  · cases h
    rfl
  · obtain ⟨out, hout, hcopied⟩ := Option.bind_eq_some_iff.1 h
    exact (foldlM_type (fun _ _ _ => vecCopyAppend_type) hcopied).trans (vecInit_type hout)

theorem vecMoveAppend_type (h : vecMoveAppend lifecycle v source value = some v') :
    v'.type = v.type := by
  unfold vecMoveAppend at h
  split_ifs at h
  obtain ⟨_, _, rfl⟩ := Option.map_eq_some_iff.1 h
  rfl

theorem appendGenerated_type (h : appendGenerated lifecycle v source value = some v') :
    v'.type = v.type := by
  unfold appendGenerated at h
  split_ifs at h
  · obtain ⟨mid, hmid, happend⟩ := Option.bind_eq_some_iff.1 h
    exact (vecMoveAppend_type happend).trans (vecReserve_type hmid)
  · obtain ⟨mid, hmid, happend⟩ := Option.bind_eq_some_iff.1 h
    exact (vecMoveAppend_type happend).trans (vecReserve_type hmid)
  · exact vecMoveAppend_type h

theorem generateLoop_type {i : Inst} {fn : Callable} {input : Graph.Value} {fuel cursor : ℕ}
    (h : generateLoop lifecycle i fn input v fuel cursor = some v') : v'.type = v.type := by
  induction fuel generalizing v cursor with
  | zero => cases h
  | succ fuel ih =>
    rw [generateLoop] at h
    split at h
    · obtain ⟨mid, hmid, hrest⟩ := Option.bind_eq_some_iff.1 h
      exact (ih hrest).trans (appendGenerated_type hmid)
    · exact appendGenerated_type h
    · cases h
      rfl
    · cases h
    · cases h

end Generators

structure Compiled (node : Node) (inst : Inst) : Prop where
  opcode : opcodeFor node.op = some inst.opcode
  input : inst.inputType = node.inputType
  output : inst.outputType = node.outputType
  chain : inst.opcode = .map → mapCallables node ≠ [] ∧
    ∃ last, prepareChain node.inputType (mapCallables node) = some (inst.fnChain, last)

theorem compileNode_compiled {node : Node} {inst : Inst} (h : compileNode node = .ok inst) :
    Compiled node inst := by
  unfold compileNode at h
  split at h
  · cases h
  next opcode hopcode =>
    dsimp only at h
    split at h
    next =>
      split at h
      · split_ifs at h
        cases h
        exact ⟨hopcode, rfl, rfl, fun hmap => (by cases hmap)⟩
      · cases h
    next =>
      split at h
      · cases h
      next callables hne =>
        split at h
        · cases h
        next calls last hchain =>
          split_ifs at h
          cases h
          exact ⟨hopcode, rfl, rfl, fun _ => ⟨hne, last, hchain⟩⟩
    next =>
      split_ifs at h
      cases h
      exact ⟨hopcode, rfl, rfl, fun hmap => (by cases hmap)⟩
    next =>
      split_ifs at h
      cases h
      exact ⟨hopcode, rfl, rfl, fun hmap => (by cases hmap)⟩
    next _ hmap _ _ =>
      cases h
      exact ⟨hopcode, rfl, rfl, fun h => absurd h hmap⟩

section Prefixes

variable {lifecycle : Lifecycle} {fuel : ℕ} {v v' : ValueVec} {node : Node} {inst : Inst}

theorem opcodeFor_eq_filter {op : Graph.Op} (h : opcodeFor op = some .filter) : op = .filter := by
  cases op <;> cases h
  rfl

theorem opcodeFor_eq_map {op : Graph.Op} (h : opcodeFor op = some .map) :
    op = .map ∨ op = .transform := by
  cases op <;> cases h
  · exact .inl rfl
  · exact .inr rfl

/-- An instruction of a parallel prefix leaves values of the output type of its node. -/
theorem step_type (hcompiled : Compiled node inst) (hderived : node.Derived)
    (hparallel : instIsParallelPrefix inst = true) (houtput : node.outputType.storageSupported = true)
    (hv : v.type.equal node.inputType = true) (hstored : v.type.storageSupported = true)
    (h : inst.step lifecycle v fuel = some v') :
    v'.type.equal node.outputType = true ∧ v'.type.storageSupported = true := by
  have hopcode := hcompiled.opcode
  unfold Inst.step at h
  unfold instIsParallelPrefix at hparallel
  split at h
  next hfilter =>
    rw [hfilter] at hopcode
    unfold stepFilter at h
    split_ifs at h
    obtain ⟨values, _, rfl⟩ := Option.map_eq_some_iff.1 h
    rw [hderived.same (.inr (opcodeFor_eq_filter hopcode))]
    exact ⟨hv, hstored⟩
  next hmap =>
    rw [hmap] at hopcode
    obtain ⟨hne, last, hchain⟩ := hcompiled.chain hmap
    unfold stepMap at h
    split_ifs at h
    obtain ⟨cur, hcur, h⟩ := Option.bind_eq_some_iff.1 h
    split_ifs at h
    cases h
    have hlast : node.outputType = last := by
      obtain ⟨fn, hfn⟩ := Option.isSome_iff_exists.1 (List.getLast?_isSome.2 hne)
      obtain ⟨sig, hsig, hreturn⟩ := prepareChain_last hchain hfn
      rw [hderived.returned (opcodeFor_eq_map hopcode) fn hfn sig hsig, hreturn]
    rw [foldlM_mapCall_type hchain (.inr hne) hcur, ← hlast]
    exact ⟨Graph.TypeDesc.equal_iff.2 rfl, houtput⟩
  next =>
    unfold stepFlatMap at h
    split_ifs at h
    obtain ⟨out, hout, h⟩ := Option.bind_eq_some_iff.1 h
    obtain ⟨call, _, h⟩ := Option.bind_eq_some_iff.1 h
    rw [foldlM_type (fun _ _ _ => generateLoop_type) h, vecInit_type hout, hcompiled.output]
    exact ⟨Graph.TypeDesc.equal_iff.2 rfl, houtput⟩
  next hreduce => simp [hreduce] at hparallel
  next htake => simp [htake] at hparallel
  next hskip => simp [hskip] at hparallel

/-- The types flow on behind a parallel prefix. -/
theorem prefix_flows {nodes rest : List Node} {code : List Inst} {last : TypeDesc}
    (hcode : List.Forall₂ Compiled nodes code) (hderived : ∀ node ∈ nodes, node.Derived)
    (hparallel : ∀ inst ∈ code, instIsParallelPrefix inst = true)
    (houtput : ∀ node ∈ nodes, node.outputType.storageSupported = true)
    (hflows : Flows v.type (nodes ++ rest) last) (hstored : v.type.storageSupported = true)
    (h : code.foldlM (fun v inst => inst.step lifecycle v fuel) v = some v') :
    Flows v'.type rest last ∧ v'.type.storageSupported = true := by
  induction hcode generalizing v with
  | nil =>
    cases h
    exact ⟨hflows, hstored⟩
  | cons hnode _ ih =>
    obtain ⟨hderivedNode, hderived⟩ := List.forall_mem_cons.1 hderived
    obtain ⟨hparallelInst, hparallel⟩ := List.forall_mem_cons.1 hparallel
    obtain ⟨houtputNode, houtput⟩ := List.forall_mem_cons.1 houtput
    obtain ⟨mid, hmid, hrest⟩ := Option.bind_eq_some_iff.1 h
    obtain ⟨htype, hmidStored⟩ :=
      step_type hnode hderivedNode hparallelInst houtputNode hflows.1 hstored hmid
    exact ih hderived hparallel houtput (hflows.2.of_equal htype) hmidStored hrest

end Prefixes

end Cflow.Plan
