import TurboUtils.Cflow.Graph.Validate
import TurboUtils.Lib.DepthFirst

/-! What `cflow_graph_validate` admits: subgraphs that are one typed path, and, when no subgraph
refers back to itself, nesting that ends. -/
namespace Cflow.Graph

open SuccessorWalk (IsWalk steps)

namespace DenseSuccessorIndex

structure Indexes (count : ℕ) (edges : List Edge) (index : DenseSuccessorIndex) : Prop where
  size : index.successors.length = count
  sound : ∀ n m, index.successor n = some m → ∃ edge ∈ edges, edge.src = n ∧ edge.dst = m
  complete : ∀ edge ∈ edges, (index.successor edge.src).isSome
  range : ∀ edge ∈ edges, edge.src < count ∧ edge.dst < count
  fanout : ∀ n, index.firstFanout = some n → n < count
  single : index.firstFanout = none → (edges.map Edge.src).Nodup

theorem successor_set {index : DenseSuccessorIndex} {n m : ℕ} (hn : n < index.successors.length)
    (value : ℕ) : successor { index with successors := index.successors.set n (some value) } m =
      if n = m then some value else index.successor m := by
  unfold successor
  rw [List.getElem?_set]
  split_ifs with hnm
  · rfl
  · rfl

/-- Each edge adds a successor, or it is a fan-out. -/
theorem addEdge_indexes {count : ℕ} {edges : List Edge} {index index' : DenseSuccessorIndex}
    (h : Indexes count edges index) {edge : Edge} (hadd : index.addEdge edge = some index') :
    Indexes count (edges ++ [edge]) index' := by
  unfold addEdge at hadd
  split_ifs at hadd with hrange
  rw [not_or, Nat.not_le, Nat.not_le, h.size] at hrange
  have hrange' : ∀ e ∈ edges ++ [edge], e.src < count ∧ e.dst < count := by
    intro e he
    rcases List.mem_append.1 he with he | he
    · exact h.range e he
    · rw [List.mem_singleton.1 he]
      exact hrange
  -- An edge whose source has a successor leaves the successors alone.
  have hkept : ∀ index', index'.successors = index.successors →
      (index.successor edge.src).isSome → (∃ n, index'.firstFanout = some n ∧ n < count) →
        Indexes count (edges ++ [edge]) index' := by
    intro index' hsame hsome hfanout
    obtain ⟨first, hfirst, hlt⟩ := hfanout
    have hsuccessor : ∀ n, index'.successor n = index.successor n := fun n => by
      rw [successor, hsame, successor]
    refine ⟨by rw [hsame, h.size], fun n m hm => ?_, fun e he => ?_, hrange', fun n hn => ?_,
      fun hnone => ?_⟩
    · obtain ⟨e, he, hsrc⟩ := h.sound n m (by rw [← hsuccessor, hm])
      exact ⟨e, List.mem_append_left _ he, hsrc⟩
    · rw [hsuccessor]
      rcases List.mem_append.1 he with he | he
      · exact h.complete e he
      · rw [List.mem_singleton.1 he]
        exact hsome
    · rw [hfirst] at hn
      cases hn
      exact hlt
    · rw [hfirst] at hnone
      cases hnone
  split at hadd
  next hsuccessor =>
    cases hadd
    have hlt : edge.src < index.successors.length := h.size ▸ hrange.1
    refine ⟨by rw [List.length_set, h.size], fun n m hm => ?_, fun e he => ?_, hrange',
      h.fanout, fun hnone => ?_⟩
    · rw [successor_set hlt] at hm
      split_ifs at hm with hsame
      · cases hm
        exact ⟨edge, List.mem_append_right _ List.mem_cons_self, hsame, rfl⟩
      · obtain ⟨e, he, hsrc⟩ := h.sound n m hm
        exact ⟨e, List.mem_append_left _ he, hsrc⟩
    · rw [successor_set hlt]
      split_ifs with hsame
      · rfl
      · rcases List.mem_append.1 he with he | he
        · exact h.complete e he
        · rw [List.mem_singleton.1 he] at hsame
          exact absurd rfl hsame
    · rw [List.map_append, List.nodup_append]
      refine ⟨h.single hnone, List.nodup_singleton _, fun n hn m hm hnm => ?_⟩
      obtain ⟨e, he, rfl⟩ := List.mem_map.1 hn
      rw [List.map_singleton, List.mem_singleton] at hm
      have hsome := h.complete e he
      rw [hnm, hm, successor, hsuccessor] at hsome
      cases hsome
  next found hsuccessor =>
    have hsome : (index.successor edge.src).isSome := by
      rw [successor, hsuccessor]
      rfl
    split at hadd
    · cases hadd
      exact hkept _ rfl hsome ⟨_, rfl, hrange.1⟩
    next first hfirst =>
      split_ifs at hadd
      · cases hadd
        exact hkept _ rfl hsome ⟨_, rfl, hrange.1⟩
      · cases hadd
        exact hkept _ rfl hsome ⟨_, hfirst, h.fanout _ hfirst⟩

theorem foldlM_indexes {count : ℕ} {edges rest : List Edge} {index index' : DenseSuccessorIndex}
    (h : Indexes count edges index) (hbuild : rest.foldlM addEdge index = some index') :
    Indexes count (edges ++ rest) index' := by
  induction rest generalizing edges index with
  | nil =>
    cases hbuild
    rwa [List.append_nil]
  | cons edge rest ih =>
    rw [List.foldlM_cons] at hbuild
    obtain ⟨mid, hmid, hrest⟩ := Option.bind_eq_some_iff.1 hbuild
    rw [List.append_cons]
    exact ih (addEdge_indexes h hmid) hrest

theorem build_indexes {sg : Subgraph} {index : DenseSuccessorIndex} (h : build sg = some index) :
    Indexes sg.nodes.length sg.edges index := by
  unfold build at h
  split_ifs at h
  have hempty : ∀ n, successor ⟨List.replicate sg.nodes.length none, none⟩ n = none := by
    intro n
    unfold successor
    rw [List.getElem?_replicate]
    split_ifs <;> rfl
  have hstart : Indexes sg.nodes.length [] ⟨List.replicate sg.nodes.length none, none⟩ := by
    refine ⟨List.length_replicate, fun n m hm => ?_, fun _ he => absurd he List.not_mem_nil,
      fun _ he => absurd he List.not_mem_nil, fun _ hn => absurd hn (Option.some_ne_none _).symm,
      fun _ => List.nodup_nil⟩
    rw [hempty] at hm
    cases hm
  exact foldlM_indexes hstart h

theorem Indexes.successor_iff {count : ℕ} {edges : List Edge} {index : DenseSuccessorIndex}
    (h : Indexes count edges index) (hfanout : index.firstFanout = none) {n m : ℕ} :
    index.successor n = some m ↔ ∃ edge ∈ edges, edge.src = n ∧ edge.dst = m := by
  constructor
  · exact h.sound n m
  · rintro ⟨edge, hmem, rfl, rfl⟩
    obtain ⟨m, hm⟩ := Option.isSome_iff_exists.1 (h.complete edge hmem)
    obtain ⟨edge', hmem', hsrc, hdst⟩ := h.sound _ _ hm
    have hsame : edge' = edge := List.inj_on_of_nodup_map (h.single hfanout) hmem' hmem hsrc
    rw [hm, ← hdst, hsame]

end DenseSuccessorIndex

section Walk

variable {index : DenseSuccessorIndex} {visited total left node : ℕ}

/-- The walk that `validate_linear_topology` made. -/
theorem walkLoop_ok (h : walkLoop index visited left node = .ok total) : ∃ walk,
    IsWalk index.successor walk ∧ walk.head? = some node ∧ total = visited + walk.length := by
  induction left generalizing visited node with
  | zero => cases h
  | succ left ih =>
    rw [walkLoop] at h
    split at h
    next hnone =>
      cases h
      exact ⟨[node], hnone, rfl, rfl⟩
    next m hnext =>
      obtain ⟨walk, hwalk, hhead, rfl⟩ := ih h
      cases walk with
      | nil => cases hhead
      | cons first rest =>
        cases hhead
        refine ⟨node :: m :: rest, ⟨hnext, hwalk⟩, rfl, ?_⟩
        simp only [List.length_cons]
        omega

theorem walk_lt {count : ℕ} {edges : List Edge}
    (h : DenseSuccessorIndex.Indexes count edges index) (hnode : node < count) {walk : List ℕ}
    (hwalk : IsWalk index.successor walk) (hhead : walk.head? = some node) :
    ∀ n ∈ walk, n < count := by
  induction walk generalizing node with
  | nil => exact hwalk.elim
  | cons m rest ih =>
    cases hhead
    refine List.forall_mem_cons.2 ⟨hnode, ?_⟩
    cases rest with
    | nil => exact fun _ hn => absurd hn List.not_mem_nil
    | cons next rest =>
      obtain ⟨edge, hedge, -, rfl⟩ := h.sound _ _ hwalk.1
      exact ih (h.range edge hedge).2 hwalk.2 rfl

end Walk

/-- The edges of a subgraph are the steps of one path, from its entry to its tail, through each of
its nodes once. -/
structure Subgraph.IsPath (sg : Subgraph) (path : List ℕ) : Prop where
  nodup : path.Nodup
  mem : ∀ n, n ∈ path ↔ n < sg.nodes.length
  head : path.head? = some sg.entry
  last : path.getLast? = some sg.tail
  edges : (sg.edges.map fun edge => (edge.src, edge.dst)).Perm (steps path)

theorem isWalk_of_path {sg : Subgraph} {index : DenseSuccessorIndex}
    (h : DenseSuccessorIndex.Indexes sg.nodes.length sg.edges index)
    (hfanout : index.firstFanout = none) (htail : index.successor sg.tail = none)
    {path : List ℕ} (hpath : sg.IsPath path) : IsWalk index.successor path := by
  refine SuccessorWalk.isWalk_of_steps (fun n m hnm => ?_) hpath.last htail
  obtain ⟨edge, hedge, heq⟩ := List.mem_map.1 (hpath.edges.mem_iff.2 hnm)
  cases heq
  exact (h.successor_iff hfanout).2 ⟨edge, hedge, rfl, rfl⟩

/-- The edges that passed the validation are one path. -/
theorem isPath_of_walk {sg : Subgraph} {index : DenseSuccessorIndex}
    (h : DenseSuccessorIndex.Indexes sg.nodes.length sg.edges index)
    (hfanout : index.firstFanout = none) (hentry : sg.entry < sg.nodes.length)
    (htail : index.successor sg.tail = none) (htailLt : sg.tail < sg.nodes.length)
    (htopology : validateLinearTopology index sg.entry = .ok ()) : ∃! path, sg.IsPath path := by
  unfold validateLinearTopology at htopology
  obtain ⟨total, htotal, hcount⟩ := Fallible.bind_eq_ok.1 htopology
  have hne : total = sg.nodes.length := by
    rw [← h.size]
    exact of_decide_eq_true (check_eq_ok.1 hcount)
  obtain ⟨walk, hwalk, hhead, hlength⟩ := walkLoop_ok htotal
  rw [zero_add] at hlength
  have hlt := walk_lt h hentry hwalk hhead
  have hnodup := hwalk.nodup
  have hmem : ∀ n, n ∈ walk ↔ n < sg.nodes.length := by
    have hperm : walk.Perm (List.range sg.nodes.length) :=
      (hnodup.subperm fun n hn => List.mem_range.2 (hlt n hn)).perm_of_length_le
        (by rw [List.length_range, ← hne, hlength])
    exact fun n => by rw [hperm.mem_iff, List.mem_range]
  refine ⟨walk, ⟨hnodup, hmem, hhead, hwalk.getLast?_eq ((hmem _).2 htailLt) htail, ?_⟩,
    fun path hpath => IsWalk.unique (isWalk_of_path h hfanout htail hpath) hwalk
      (hpath.head.trans hhead.symm)⟩
  have hedges : (sg.edges.map fun edge => (edge.src, edge.dst)).Nodup := by
    refine List.Nodup.of_map Prod.fst ?_
    rw [List.map_map]
    exact h.single hfanout
  refine (List.perm_ext_iff_of_nodup hedges (SuccessorWalk.steps_nodup hnodup)).2 fun ⟨n, m⟩ => ?_
  rw [hwalk.mem_steps, h.successor_iff hfanout, List.mem_map]
  constructor
  · rintro ⟨edge, hedge, heq⟩
    cases heq
    exact ⟨(hmem _).2 (h.range edge hedge).1, edge, hedge, rfl, rfl⟩
  · rintro ⟨-, edge, hedge, rfl, rfl⟩
    exact ⟨edge, hedge, rfl⟩

/-! ## Subgraphs -/

/-- What `validate_subgraph` says about the types: they are equal along the edges and at the ends. -/
structure Subgraph.Typed (sg : Subgraph) : Prop where
  entry : ∃ node, sg.nodes[sg.entry]? = some node ∧ node.op = .input ∧
    sg.inputType.equal node.inputType = true
  tail : ∃ node, sg.nodes[sg.tail]? = some node ∧ sg.outputType.equal node.outputType = true
  edges : ∀ edge ∈ sg.edges, ∃ src dst, sg.nodes[edge.src]? = some src ∧
    sg.nodes[edge.dst]? = some dst ∧ src.outputType.equal dst.inputType = true

structure Node.Admitted (g : Graph) (node : Node) : Prop where
  parameters : validateParameters node = .ok ()
  contract : ∀ fn, node.fn = some fn → fn.contractValid = true
  chain : validateMapChain node = .ok ()
  relation : node.op = .relation → validateRelation g node = .ok ()
  references : ∀ bid ∈ node.subgraphs, bid < g.subgraphs.length

section Checks

variable {g : Graph} {sg : Subgraph} {index : DenseSuccessorIndex} {node : Node} {n : ℕ}

theorem validateNode_ok (h : validateNode g index n node = .ok ()) :
    node.Admitted g ∧ index.firstFanout ≠ some n := by
  unfold validateNode at h
  obtain ⟨_, hparameters, h⟩ := Fallible.bind_eq_ok.1 h
  obtain ⟨_, hcontract, h⟩ := Fallible.bind_eq_ok.1 h
  obtain ⟨_, hchain, h⟩ := Fallible.bind_eq_ok.1 h
  obtain ⟨_, hfanout, h⟩ := Fallible.bind_eq_ok.1 h
  obtain ⟨_, hrelation, hreferences⟩ := Fallible.bind_eq_ok.1 h
  refine ⟨⟨hparameters, fun fn hfn => ?_, hchain, fun hop => ?_, fun bid hbid => ?_⟩,
    of_decide_eq_true (check_eq_ok.1 hfanout)⟩
  · rw [check_eq_ok, hfn] at hcontract
    exact hcontract
  · rwa [if_pos hop] at hrelation
  · exact of_decide_eq_true (List.all_eq_true.1 (check_eq_ok.1 hreferences) bid hbid)

theorem validateEnds_ok (h : validateEnds sg = .ok ()) :
    (∃ node, sg.nodes[sg.entry]? = some node ∧ node.op = .input ∧
      sg.inputType.equal node.inputType = true) ∧
    ∃ node, sg.nodes[sg.tail]? = some node ∧ sg.outputType.equal node.outputType = true := by
  unfold validateEnds at h
  split at h
  next entry tail hentry htail =>
    obtain ⟨_, hop, htypes⟩ := Fallible.bind_eq_ok.1 h
    rw [check_eq_ok, Bool.and_eq_true] at htypes
    exact ⟨⟨entry, hentry, of_decide_eq_true (check_eq_ok.1 hop), htypes.1⟩,
      tail, htail, htypes.2⟩
  · cases h

theorem validateEdges_ok (h : validateEdges sg = .ok ()) {edge : Edge} (hedge : edge ∈ sg.edges) :
    ∃ src dst, sg.nodes[edge.src]? = some src ∧ sg.nodes[edge.dst]? = some dst ∧
      src.outputType.equal dst.inputType = true := by
  have hchecked := Fallible.forM_eq_ok.1 h edge hedge
  split at hchecked
  next src dst hsrc hdst => exact ⟨src, dst, hsrc, hdst, check_eq_ok.1 hchecked⟩
  · cases hchecked

/-- The index of a subgraph that passed: no fan-out, and no successor of the tail. -/
theorem validateSubgraph_index (h : validateSubgraph g sg = .ok ()) :
    ∃ index, DenseSuccessorIndex.build sg = some index ∧
      DenseSuccessorIndex.Indexes sg.nodes.length sg.edges index ∧ index.firstFanout = none ∧
        index.successor sg.tail = none ∧ (∀ node ∈ sg.nodes, node.Admitted g) ∧
          validateLinearTopology index sg.entry = .ok () := by
  unfold validateSubgraph at h
  obtain ⟨_, _, h⟩ := Fallible.bind_eq_ok.1 h
  obtain ⟨_, _, h⟩ := Fallible.bind_eq_ok.1 h
  split at h
  · cases h
  next index hbuild =>
    obtain ⟨_, hexit, h⟩ := Fallible.bind_eq_ok.1 h
    obtain ⟨_, hnodes, htopology⟩ := Fallible.bind_eq_ok.1 h
    have hadmitted : ∀ n node, sg.nodes[n]? = some node →
        node.Admitted g ∧ index.firstFanout ≠ some n := by
      intro n node hnode
      exact validateNode_ok
        (Fallible.forM_eq_ok.1 hnodes (node, n) (List.mem_zipIdx_iff_getElem?.2 hnode))
    have hindexes := DenseSuccessorIndex.build_indexes hbuild
    refine ⟨index, hbuild, hindexes, ?_, Option.isNone_iff_eq_none.1 (check_eq_ok.1 hexit),
      fun node hnode => ?_, htopology⟩
    · rw [Option.eq_none_iff_forall_ne_some]
      intro n hn
      exact (hadmitted n _ (List.getElem?_eq_getElem (hindexes.fanout n hn))).2 hn
    · obtain ⟨n, hn⟩ := List.mem_iff_getElem?.1 hnode
      exact (hadmitted n node hn).1

theorem validateSubgraph_ok (h : validateSubgraph g sg = .ok ()) :
    sg.Typed ∧ (∃! path, sg.IsPath path) ∧ ∀ node ∈ sg.nodes, node.Admitted g := by
  obtain ⟨index, -, hindexes, hfanout, hexit, hadmitted, htopology⟩ := validateSubgraph_index h
  unfold validateSubgraph at h
  obtain ⟨_, hends, h⟩ := Fallible.bind_eq_ok.1 h
  obtain ⟨_, hedges, _⟩ := Fallible.bind_eq_ok.1 h
  obtain ⟨hentry, htail⟩ := validateEnds_ok hends
  have hlt : ∀ {m : ℕ}, (∃ node, sg.nodes[m]? = some node) → m < sg.nodes.length :=
    fun ⟨_, hm⟩ => (List.getElem?_eq_some_iff.1 hm).1
  exact ⟨⟨hentry, htail, fun edge => validateEdges_ok hedges⟩,
    isPath_of_walk hindexes hfanout (hlt (hentry.imp fun _ h => h.1)) hexit
      (hlt (htail.imp fun _ h => h.1)) htopology, hadmitted⟩

end Checks

/-! ## Relations -/

/-- The branches of a relation take what the relation takes, and what they give is what its result
is made of. -/
structure Node.BranchesTyped (g : Graph) (node : Node) (schema : RelationSchema) : Prop where
  input : ∀ bid ∈ node.subgraphs, equalType (inputTypeOf g bid) node.inputType = true
  homogeneous : schema.result ≠ .invoke →
    ∀ bid ∈ node.subgraphs, equalType node.outputType (outputTypeOf g bid) = true
  invoke : schema.result = .invoke → ∃ sig, node.fn.bind Callable.sig = some sig ∧
    sig.params.length = node.subgraphs.length ∧ node.outputType.equal sig.returnType = true ∧
      ∀ (k : ℕ) (bid : ℕ), node.subgraphs[k]? = some bid →
        equalType sig.params[k]? (outputTypeOf g bid) = true

section Relations

variable {g : Graph} {node : Node} {schema : RelationSchema} {rsig : Option Signature}
  {homogeneous homogeneous' : Option TypeDesc} {k bid : ℕ} {branches : List ℕ}

theorem equalType_trans {a b c : Option TypeDesc} (h : equalType a b = true)
    (h' : equalType b c = true) : equalType a c = true := by
  cases a <;> cases b <;> cases c <;>
    simp_all [equalType, TypeDesc.equal]

structure BranchPasses (g : Graph) (node : Node) (schema : RelationSchema)
    (rsig : Option Signature) (k bid : ℕ) : Prop where
  input : equalType (inputTypeOf g bid) node.inputType = true
  invoke : schema.result = .invoke → ∃ sig, rsig = some sig ∧
    sig.params.length = node.subgraphs.length ∧ equalType sig.params[k]? (outputTypeOf g bid) = true

theorem validateBranch_ok
    (h : validateBranch g node schema rsig homogeneous k bid = .ok homogeneous') :
    BranchPasses g node schema rsig k bid ∧ (schema.result ≠ .invoke →
      homogeneous' = homogeneous.or (outputTypeOf g bid) ∧
        equalType homogeneous' (outputTypeOf g bid) = true) := by
  unfold validateBranch at h
  obtain ⟨_, hinput, h⟩ := Fallible.bind_eq_ok.1 h
  rw [check_eq_ok, Bool.and_eq_true] at hinput
  dsimp only at h
  split_ifs at h with hinvoke
  · obtain ⟨_, hsig, _⟩ := Fallible.bind_eq_ok.1 h
    rw [check_eq_ok] at hsig
    refine ⟨⟨hinput.2, fun _ => ?_⟩, fun hne => absurd hinvoke hne⟩
    cases rsig with
    | none => cases hsig
    | some sig =>
      rw [Option.any_some, Bool.and_eq_true, decide_eq_true_eq] at hsig
      exact ⟨sig, rfl, hsig⟩
  · obtain ⟨_, hequal, h⟩ := Fallible.bind_eq_ok.1 h
    cases h
    exact ⟨⟨hinput.2, fun hresult => absurd hresult hinvoke⟩, fun _ => ⟨rfl, check_eq_ok.1 hequal⟩⟩

theorem validateBranches_ok
    (h : validateBranches g node schema rsig homogeneous k branches = .ok homogeneous') :
    (∀ i bid, branches[i]? = some bid → BranchPasses g node schema rsig (k + i) bid) ∧
      (schema.result ≠ .invoke → (∀ type, homogeneous = some type → homogeneous' = some type) ∧
        ∀ bid ∈ branches, equalType homogeneous' (outputTypeOf g bid) = true) := by
  induction branches generalizing homogeneous k with
  | nil =>
    cases h
    exact ⟨fun i bid hbid => (by cases hbid),
      fun _ => ⟨fun _ htype => htype, fun _ hbid => absurd hbid List.not_mem_nil⟩⟩
  | cons first rest ih =>
    obtain ⟨mid, hfirst, hrest⟩ := Fallible.bind_eq_ok.1 h
    obtain ⟨hpasses, hmid⟩ := validateBranch_ok hfirst
    obtain ⟨hpasses', hhomogeneous⟩ := ih hrest
    refine ⟨fun i bid hbid => ?_, fun hne => ?_⟩
    · cases i with
      | zero =>
        cases hbid
        exact hpasses
      | succ i =>
        rw [← Nat.succ_add_eq_add_succ]
        exact hpasses' i bid hbid
    · obtain ⟨hkept, hall⟩ := hhomogeneous hne
      obtain ⟨rfl, hequal⟩ := hmid hne
      obtain ⟨type, htype⟩ : ∃ type, homogeneous.or (outputTypeOf g first) = some type := by
        cases hor : homogeneous.or (outputTypeOf g first) with
        | none => rw [hor] at hequal; cases hequal
        | some type => exact ⟨type, rfl⟩
      have hsame := hkept type htype
      refine ⟨fun type' htype' => ?_, List.forall_mem_cons.2 ⟨?_, hall⟩⟩
      · rw [htype'] at htype
        rw [hsame, ← htype]
        rfl
      · rw [hsame, ← htype]
        exact hequal

theorem validateRelation_ok (h : validateRelation g node = .ok ()) :
    ∃ schema, node.relation = some schema ∧ node.BranchesTyped g schema := by
  unfold validateRelation at h
  split at h
  · cases h
  next schema hschema =>
    obtain ⟨_, hnonempty, h⟩ := Fallible.bind_eq_ok.1 h
    obtain ⟨_, _, h⟩ := Fallible.bind_eq_ok.1 h
    obtain ⟨homogeneous, hbranches, hresult⟩ := Fallible.bind_eq_ok.1 h
    obtain ⟨hpasses, hhomogeneous⟩ := validateBranches_ok hbranches
    have hbranch : ∀ k bid, node.subgraphs[k]? = some bid →
        BranchPasses g node schema (node.fn.bind Callable.sig) k bid := by
      intro k bid hbid
      have hpass := hpasses k bid hbid
      rwa [zero_add] at hpass
    refine ⟨schema, hschema, fun bid hbid => ?_, fun hne => ?_, fun hinvoke => ?_⟩
    · obtain ⟨k, hk⟩ := List.mem_iff_getElem?.1 hbid
      exact (hbranch k bid hk).input
    · have houtput : equalType node.outputType homogeneous = true := by
        unfold validateResult at hresult
        split at hresult
        · exact absurd (by assumption) hne
        · obtain ⟨_, houtput, _⟩ := Fallible.bind_eq_ok.1 hresult
          exact check_eq_ok.1 houtput
        · obtain ⟨_, houtput, _⟩ := Fallible.bind_eq_ok.1 hresult
          exact check_eq_ok.1 houtput
      exact fun bid hbid => equalType_trans houtput ((hhomogeneous hne).2 bid hbid)
    · obtain ⟨first, rest, hcons⟩ := List.exists_cons_of_ne_nil (l := node.subgraphs) (by
        rw [check_eq_ok] at hnonempty
        intro hnil
        rw [hnil] at hnonempty
        cases hnonempty)
      obtain ⟨sig, hsig, hlength, -⟩ := (hbranch 0 first (by rw [hcons]; rfl)).invoke hinvoke
      refine ⟨sig, hsig, hlength, ?_, fun k bid hbid => ?_⟩
      · unfold validateResult at hresult
        rw [hinvoke, hsig] at hresult
        dsimp only at hresult
        split at hresult
        next heq =>
          cases heq
          exact check_eq_ok.1 hresult
        · cases hresult
      · obtain ⟨sig', hsig', -, htype⟩ := (hbranch k bid hbid).invoke hinvoke
        rw [hsig] at hsig'
        cases hsig'
        exact htype

end Relations

/-! ## References -/

def references (g : Graph) (id : ℕ) : List ℕ :=
  (g.subgraphs[id]?.map fun sg => sg.nodes.flatMap Node.subgraphs).getD []

/-- The visit of normalization, of optimization and of the property analysis: it refuses a subgraph
that is met while it is open. -/
def referencesVisited (g : Graph) : Bool :=
  (DepthFirst.visitAll g.references (List.range g.subgraphs.length)).isSome

/-- What a graph has to be for its transformations and its evaluation to end. -/
structure Sound (g : Graph) : Prop where
  paths : ∀ sg ∈ g.subgraphs, ∃! path, sg.IsPath path
  typed : ∀ sg ∈ g.subgraphs, sg.Typed
  relations : ∀ sg ∈ g.subgraphs, ∀ node ∈ sg.nodes, node.op = .relation →
    ∃ schema, node.relation = some schema ∧ node.BranchesTyped g schema
  acyclic : ∀ id, ¬Relation.TransGen (fun t s => t ∈ g.references s) id id
  ends : ∀ id, ∃ depth, (DepthFirst.visits g.references depth id).isSome

theorem references_mem {g : Graph} {id bid : ℕ} : bid ∈ g.references id ↔
    ∃ sg, g.subgraphs[id]? = some sg ∧ ∃ node ∈ sg.nodes, bid ∈ node.subgraphs := by
  unfold references
  cases h : g.subgraphs[id]? with
  | none => simp
  | some sg => simp

/-- A graph that is admitted is sound if and only if no subgraph is met while it is open. -/
theorem sound_iff {g : Graph} (h : g.validate = .ok ()) : g.Sound ↔ g.referencesVisited = true := by
  unfold validate at h
  obtain ⟨_, hroot, h⟩ := Fallible.bind_eq_ok.1 h
  have hsubgraphs := fun sg hsg => validateSubgraph_ok (Fallible.forM_eq_ok.1 h sg hsg)
  have hlt : ∀ id bid, bid ∈ g.references id → id < g.subgraphs.length := by
    intro id bid hbid
    obtain ⟨sg, hsg, -⟩ := references_mem.1 hbid
    exact (List.getElem?_eq_some_iff.1 hsg).1
  have hclosed : ∀ id ∈ List.range g.subgraphs.length, ∀ bid ∈ g.references id,
      bid ∈ List.range g.subgraphs.length := by
    intro id _ bid hbid
    obtain ⟨sg, hsg, node, hnode, hmem⟩ := references_mem.1 hbid
    exact List.mem_range.2 (((hsubgraphs sg (List.mem_of_getElem? hsg)).2.2 node hnode).references
      bid hmem)
  unfold referencesVisited
  rw [DepthFirst.visitAll_isSome_iff hclosed]
  constructor
  · exact fun hsound id _ => hsound.acyclic id
  · intro hacyclic
    have hacc : ∀ id, Acc (DepthFirst.Below g.references) id := by
      intro id
      by_cases hid : id < g.subgraphs.length
      · obtain ⟨done, hdone⟩ := Option.isSome_iff_exists.1
          ((DepthFirst.visitAll_isSome_iff hclosed).2 hacyclic)
        exact DepthFirst.visitAll_acc hdone (List.mem_range.2 hid)
      · exact Acc.intro _ fun bid hbid => absurd (hlt id bid hbid) hid
    exact ⟨fun sg hsg => (hsubgraphs sg hsg).2.1, fun sg hsg => (hsubgraphs sg hsg).1,
      fun sg hsg node hnode hop => validateRelation_ok
        (((hsubgraphs sg hsg).2.2 node hnode).relation hop),
      fun id => DepthFirst.not_transGen_of_acc (hacc id),
      fun id => DepthFirst.visits_isSome_iff.2 (hacc id)⟩

namespace Examples

def int : TypeDesc := ⟨"int", 4, .integer, none, [.trivialCopy, .trivialDestroy]⟩

def first : Callable where
  sig := some ⟨int, [int, int], .value⟩
  pure := true
  properties := ⟨true, true, false, true, true⟩
  invoke := List.head?
  generate _ cursor := (.error, [], cursor)

def input : Node := ⟨.input, none, [], none, int, int, [], none, .none⟩

def fold (branches : List ℕ) : Node :=
  ⟨.relation, some first, [], some ⟨.all, .coordinator, .fold, .failFast⟩, int, int, branches,
    none, .none⟩

/-- A subgraph with a relation, whose branches are given, and one that passes its input on. -/
def nested (branches : List ℕ) : Graph where
  subgraphs := [⟨[input, fold branches], [⟨0, 0, 1, 0⟩], 0, 1, int, int⟩,
    ⟨[input], [], 0, 0, int, int⟩]
  root := 0

end Examples

theorem sound_nested : (Examples.nested [1, 1]).Sound := (sound_iff rfl).2 rfl

/-- A graph whose relation refers to the subgraph that holds it is admitted, and no depth of nesting
is enough for it. -/
theorem selfReference_admitted :
    (Examples.nested [0]).validate = .ok () ∧ ¬(Examples.nested [0]).Sound :=
  ⟨rfl, fun hsound => hsound.acyclic 0 (.single List.mem_cons_self)⟩

end Cflow.Graph
