import TurboUtils.Cflow.Machine.HierarchyRoutes

/-! The flat machine of a hierarchy: for every leaf and event it tries the transitions that the leaf
declares or inherits, and every row comes with the route it takes through the tree. -/
namespace Cflow.Machine

variable {τ : Type}

open RootedTree

/-! ## What the hierarchy is for -/

def IsLeaf (states : List (HierarchyState τ)) (s : HierarchyState τ) : Prop :=
  ∀ c ∈ states, c.parent ≠ s.id

/-- Following the initial children from a state ends at this leaf. -/
structure EntersAt (states : List (HierarchyState τ)) (target leaf : ℕ) : Prop where
  declared : ∃ s ∈ states, s.id = leaf ∧ s.initialChild = 0
  reached : Relation.ReflTransGen (fun a b => declaredChild states a = some b) target leaf

structure IsRowOf (states : List (HierarchyState τ)) (leaf : ℕ) (decl row : Transition) : Prop where
  source : row.source = leaf
  event : row.event = decl.event
  guard : row.guard = decl.guard
  action : row.action = decl.action
  target : EntersAt states decl.target row.target

/-- The first transition is declared further inside, or at the same state with less priority. -/
def InnermostFirst (states : List (HierarchyState τ)) (a b : Transition) : Prop :=
  (Ancestor (declaredParent states) b.source a.source ∧ a.source ≠ b.source) ∨
    (a.source = b.source ∧ a.priority < b.priority)

/-- The states of a route lie between the ends of a transition and their lowest common ancestor:
the ones to exit from the inside out, the ones to enter from the outside in. -/
def IsRoute (states : List (HierarchyState τ)) (transition : Transition) (route : Route) : Prop :=
  ∃ lca, IsLowestCommon (declaredParent states) transition.source transition.target lca ∧
    Climb (declaredParent states) transition.source route.exitStates lca ∧
    Climb (declaredParent states) transition.target route.entryStates.reverse lca

open Classical in
/-- The hierarchy is the flat form of its definition. -/
structure Flattens (definition : HierarchyDefinition τ) (hierarchy : Hierarchy τ) : Prop where
  tree : SingleRootedTree definition.states
  initialChildren : InitialChildrenDirect definition.states
  rows : ∀ leaf ∈ definition.states, IsLeaf definition.states leaf → ∀ event,
    ∃ declared : List Transition,
      declared.Perm (definition.transitions.filter fun decl =>
        decl.event = event ∧ Ancestor (declaredParent definition.states) decl.source leaf.id) ∧
      declared.Pairwise (InnermostFirst definition.states) ∧
      List.Forall₂ (IsRowOf definition.states leaf.id) declared
        ((scannedRows hierarchy.flat leaf.id event).map Prod.fst)
  routes : ∀ i transition, hierarchy.flat.transitions[i]? = some transition →
    ∃ route, routeAt hierarchy i = some route ∧ IsRoute definition.states transition route
  routeCount : hierarchy.routes.length = hierarchy.flat.transitions.length

/-! ## The parts -/

instance : Std.TransCmp compareTransition := by
  unfold compareTransition
  infer_instance

theorem sorted_of_follows {rows : List ExpandedTransition} (h : rows.IsChain Follows) :
    (rows.map (·.transition)).Pairwise fun a b => (compareTransition a b).isLE := by
  rw [← List.isChain_iff_pairwise, List.isChain_map]
  refine h.imp fun a b hab => ?_
  obtain ⟨hp, hn⟩ := hab
  rw [compareTransition_isLE]
  unfold ExpandedTransition.Precedes at hp
  by_cases hs : a.transition.source = b.transition.source
  · by_cases he : a.transition.event = b.transition.event
    · have := hn hs he
      omega
    · omega
  · omega

theorem precedes_of_follows {rows : List ExpandedTransition} (h : rows.IsChain Follows) :
    rows.Pairwise ExpandedTransition.Precedes := by
  rw [← List.isChain_iff_pairwise]
  exact h.imp fun _ _ hab => hab.1

theorem forall₂_pairwise {α β : Type} {r : α → β → Prop} {s : α → α → Prop} {t : β → β → Prop}
    (h : ∀ a a' b b', r a b → r a' b' → t b b' → s a a') : ∀ {l : List α} {m : List β},
      List.Forall₂ r l m → m.Pairwise t → l.Pairwise s
  | _, _, .nil, _ => .nil
  | a :: l, b :: m, .cons hab hrest, hm => by
    obtain ⟨hb, hm⟩ := List.pairwise_cons.1 hm
    refine List.pairwise_cons.2 ⟨fun a' ha' => ?_, forall₂_pairwise h hrest hm⟩
    obtain ⟨i, hi, rfl⟩ := List.getElem_of_mem ha'
    have hi' : i < m.length := hrest.length_eq ▸ hi
    exact h a l[i] b m[i] hab (hrest.get hi hi') (hb _ (List.getElem_mem hi'))

theorem resolveFrom_lt {impl : Nodes τ} : ∀ {hops index target : ℕ},
    resolveFrom impl hops index = some target → index < impl.states.length →
      target < impl.states.length
  | 0, index, target, h, hi => by
    simp only [resolveFrom] at h
    split_ifs at h
    cases h
    exact hi
  | hops + 1, index, target, h, hi => by
    simp only [resolveFrom] at h
    split_ifs at h
    · cases h
      exact hi
    · obtain ⟨child, hchild, h⟩ := Option.bind_eq_some_iff.1 h
      exact resolveFrom_lt h (Copied.findStateIndex_some hchild).1

section Parts

variable {impl : Nodes τ} {states : List (HierarchyState τ)} (hp : impl.states.Perm states)

theorem resolveFrom_ok (hc : Copied impl) (hp : impl.states.Perm states) :
    ∀ {hops index target : ℕ}, resolveFrom impl hops index = some target →
      impl.initialChild target = 0 ∧
        Relation.ReflTransGen (fun a b => declaredChild states a = some b) (impl.stateId index)
          (impl.stateId target)
  | 0, index, target, h => by
    simp only [resolveFrom] at h
    split_ifs at h with h0
    cases h
    exact ⟨h0, .refl⟩
  | hops + 1, index, target, h => by
    simp only [resolveFrom] at h
    split_ifs at h with h0
    · cases h
      exact ⟨h0, .refl⟩
    · obtain ⟨child, hchild, h⟩ := Option.bind_eq_some_iff.1 h
      obtain ⟨hleaf, hrest⟩ := resolveFrom_ok hc hp h
      refine ⟨hleaf, .head ?_ hrest⟩
      rw [declaredChild_stateId hc hp, if_neg h0, (Copied.findStateIndex_some hchild).2]

variable (ht : Tree impl)
include ht hp

theorem leaf_index {leaf : HierarchyState τ} (hmem : leaf ∈ states) (hleaf : IsLeaf states leaf) :
    ∃ i ∈ leaves impl, impl.stateId i = leaf.id := by
  obtain ⟨i, hi, hget, hid⟩ := exists_index hp hmem
  refine ⟨i, mem_leaves.2 ⟨hi, ?_⟩, hid⟩
  rw [Nodes.initialChild, hget]
  refine ht.leaf i leaf hget fun hparent => ?_
  rw [ht.parents] at hparent
  obtain ⟨c, hc, hci⟩ := List.mem_map.1 hparent
  rw [parentIndex] at hci
  split_ifs at hci
  refine hleaf c (hp.mem_iff.1 hc) ?_
  rw [← hid, (Copied.findStateIndex_some hci).2]

theorem expands_enters {leaf : ℕ} {decl : Transition} {row : ExpandedTransition}
    (h : Expands impl leaf decl row) : row.targetIndex < impl.states.length ∧
      EntersAt states decl.target row.transition.target := by
  obtain ⟨node, hnode, hres⟩ := h.targetIndex
  obtain ⟨hlt, hid⟩ := Copied.findStateIndex_some hnode
  have htarget := resolveFrom_lt hres hlt
  obtain ⟨hleaf, hreach⟩ := resolveFrom_ok ht.toCopied hp hres
  have hget := List.getElem?_eq_getElem htarget
  rw [hid] at hreach
  rw [h.target]
  refine ⟨htarget, ⟨impl.states[row.targetIndex], hp.mem_iff.1 (List.getElem_mem htarget),
    (Copied.stateId_eq hget).symm, ?_⟩, hreach⟩
  rw [Nodes.initialChild, hget] at hleaf
  exact hleaf

theorem inherits_iff {leaf : ℕ} (hleaf : leaf < impl.states.length) {decl : Transition} :
    inherits impl leaf decl = true ↔
      Ancestor (declaredParent states) decl.source (impl.stateId leaf) := by
  constructor
  · intro h
    cases hsource : findStateIndex impl.states decl.source with
    | none =>
      rw [inherits, hsource] at h
      cases h
    | some source =>
      rw [inherits, hsource] at h
      obtain ⟨hlt, hid⟩ := Copied.findStateIndex_some hsource
      rw [← hid, ancestor_stateId ht.toCopied hp hlt hleaf]
      exact (ht.isDescendant_iff hleaf).1 h
  · intro h
    obtain ⟨source, hid, hanc⟩ := h.lift impl.stateId (declaredParent_stateId ht.toCopied hp)
    have hlt := ht.ancestor_lt hanc hleaf
    rw [inherits, ← hid, ht.findStateIndex_eq hlt, Option.any_some]
    exact (ht.isDescendant_iff hleaf).2 hanc

/-- Rows of one leaf and event that precede one another were declared from the inside out. -/
theorem innermostFirst_of_precedes {leaf : ℕ} (hleaf : leaf < impl.states.length)
    {a b : Transition} {row row' : ExpandedTransition} (ha : Expands impl leaf a row)
    (hb : Expands impl leaf b row') (he : row.transition.event = row'.transition.event)
    (h : row.Precedes row') : InnermostFirst states a b := by
  obtain ⟨x, hx, hxd, hxdepth⟩ := ha.declared
  obtain ⟨y, hy, hyd, hydepth⟩ := hb.declared
  obtain ⟨hxlt, hxid⟩ := Copied.findStateIndex_some hx
  obtain ⟨hylt, hyid⟩ := Copied.findStateIndex_some hy
  have hxanc := (ht.isDescendant_iff hleaf).1 hxd
  have hyanc := (ht.isDescendant_iff hleaf).1 hyd
  have hsource : row.transition.source = row'.transition.source := by rw [ha.source, hb.source]
  unfold ExpandedTransition.Precedes at h
  rw [hxdepth, hydepth, ha.declarationPriority, hb.declarationPriority] at h
  have hcases : impl.depth y < impl.depth x ∨
      impl.depth x = impl.depth y ∧ a.priority < b.priority := by omega
  rcases hcases with hd | ⟨hd, hprio⟩
  · refine .inl ⟨?_, fun heq => ?_⟩
    · rw [← hxid, ← hyid, ancestor_stateId ht.toCopied hp hylt hxlt]
      exact hyanc.of_depth_le ht.leveled hxanc hd.le
    · rw [← hxid, ← hyid] at heq
      rw [ht.stateId_inj hxlt hylt heq] at hd
      exact lt_irrefl _ hd
  · refine .inr ⟨?_, hprio⟩
    have hxy := (hxanc.of_depth_le ht.leveled hyanc hd.le).eq_of_depth ht.leveled hd.ge
    rw [← hxid, ← hyid, hxy]

end Parts

/-! ## The flat machine -/

section Build

variable [TypeDesc τ]

/-- The flat machine keeps the rows as they are: they are sorted already. Its states are leaves. -/
theorem buildFlatMachine_ok {impl : Nodes τ} {definition : HierarchyDefinition τ}
    {rows : List ExpandedTransition} {flat : Machine τ} (hf : rows.IsChain Follows)
    (h : buildFlatMachine impl definition rows = .ok flat) :
    flat.transitions = rows.map (·.transition) ∧
      ∀ state ∈ flat.states, ∃ s ∈ impl.states, flatState s = state := by
  unfold buildFlatMachine at h
  split at h
  · cases h
  · simp only at h
    split at h
    · rename_i machine hbuild
      cases h
      rw [(build_ok hbuild).1]
      refine ⟨BinarySearch.sortBy_of_pairwise _ (sorted_of_follows hf), fun state hstate => ?_⟩
      obtain ⟨s, hs, hflat⟩ := List.mem_map.1 ((BinarySearch.sortBy_perm _ _).mem_iff.1 hstate)
      exact ⟨s, List.mem_of_mem_filter hs, hflat⟩
    · cases h
    · cases h

/-- The steps of a successful build. -/
theorem hierarchyBuild_ok {definition : HierarchyDefinition τ} {hierarchy : Hierarchy τ}
    (h : hierarchyBuild definition = .ok hierarchy) :
    hierarchy.states.Perm definition.states ∧ Tree hierarchy.toNodes ∧
      ∃ rows, Expanded hierarchy.toNodes definition.transitions rows ∧
        (hierarchy.flat.transitions = rows.map (·.transition) ∧
          ∀ state ∈ hierarchy.flat.states, ∃ s ∈ hierarchy.states, flatState s = state) ∧
        buildRoutes hierarchy.toNodes rows = .ok (hierarchy.routes, hierarchy.routeStates) := by
  unfold hierarchyBuild at h
  split_ifs at h
  obtain ⟨copied, hcopy, h⟩ := Fallible.bind_eq_ok.1 h
  obtain ⟨impl, htree, h⟩ := Fallible.bind_eq_ok.1 h
  obtain ⟨rows, hrows, h⟩ := Fallible.bind_eq_ok.1 h
  obtain ⟨flat, hflat, h⟩ := Fallible.bind_eq_ok.1 h
  obtain ⟨⟨routes, routeStates⟩, hroutes, h⟩ := Fallible.bind_eq_ok.1 h
  cases h
  obtain ⟨hperm, hcopied⟩ := copyStates_ok hcopy
  obtain ⟨hstates, ht⟩ := validateTree_ok hcopied htree
  have hexp := expandTransitions_ok ht.toCopied hrows
  exact ⟨hstates ▸ hperm, ht, rows, hexp, buildFlatMachine_ok hexp.follows hflat, hroutes⟩

omit [TypeDesc τ] in
theorem Expanded.inRange {definition : HierarchyDefinition τ} {hierarchy : Hierarchy τ}
    {rows : List ExpandedTransition} (hp : hierarchy.states.Perm definition.states)
    (ht : Tree hierarchy.toNodes)
    (hexp : Expanded hierarchy.toNodes definition.transitions rows) {row : ExpandedTransition}
    (hrow : row ∈ rows) :
    row.sourceIndex < hierarchy.states.length ∧ row.targetIndex < hierarchy.states.length := by
  obtain ⟨leaf, hleaf, decl, -, hrow⟩ := hexp.ofLeaf row hrow
  exact ⟨hrow.sourceIndex ▸ (mem_leaves.1 hleaf).1, (expands_enters hp ht hrow).1⟩

/-- Every row of the flat machine has its route. -/
theorem hierarchyBuild_routes {definition : HierarchyDefinition τ} {hierarchy : Hierarchy τ}
    (h : hierarchyBuild definition = .ok hierarchy) {i : ℕ} {transition : Transition}
    (hi : hierarchy.flat.transitions[i]? = some transition) :
    ∃ route, routeAt hierarchy i = some route ∧
      IsRoute definition.states transition route := by
  obtain ⟨hp, ht, rows, hexp, ⟨hflat, -⟩, hroutes⟩ := hierarchyBuild_ok h
  have hdesc := buildRoutes_ok ht (fun row hrow => hexp.inRange hp ht hrow) hroutes
  rw [hflat, List.getElem?_map] at hi
  obtain ⟨row, hrow, rfl⟩ := Option.map_eq_some_iff.1 hi
  obtain ⟨hilt, rfl⟩ := List.getElem?_eq_some_iff.1 hrow
  have hilt' : i < hierarchy.routes.length := hdesc.length_eq ▸ hilt
  obtain ⟨lca, exits, entries, hd⟩ := hdesc.get hilt hilt'
  obtain ⟨leaf, -, decl, -, hrow⟩ := hexp.ofLeaf rows[i] (List.getElem_mem hilt)
  have hsource : rows[i].transition.source = hierarchy.stateId rows[i].sourceIndex := by
    rw [hrow.source, hrow.sourceIndex]
  obtain ⟨hs, htarget⟩ := hexp.inRange hp ht (List.getElem_mem hilt)
  have hparent := declaredParent_stateId ht.toCopied hp
  have hstep : ∀ x p, hierarchy.parent x = some p →
      declaredParent definition.states (hierarchy.stateId x) = some (hierarchy.stateId p) :=
    fun x p hxp => by rw [hparent, hxp, Option.map_some]
  refine ⟨⟨exits.map hierarchy.stateId, (entries.map hierarchy.stateId).reverse⟩, ?_,
    hierarchy.stateId lca, ?_, ?_, ?_⟩
  · rw [routeAt, List.getElem?_eq_getElem hilt', Option.map_some]
    congr 2
    · exact hd.exitStates
    · exact hd.entryStates
  · rw [hsource, hrow.target]
    exact hd.lowest.map hierarchy.stateId hparent fun x y hx hy hxy =>
      ht.stateId_inj (ht.ancestor_lt hx hs) (ht.ancestor_lt hy htarget) hxy
  · rw [hsource]
    exact hd.climbOut.map _ hstep
  · rw [hrow.target, List.reverse_reverse]
    exact hd.climbIn.map _ hstep

/-- A build that succeeds has found one tree with direct initial children, and its flat machine
tries, for every leaf and event, the transitions declared at the leaf and above it, from the inside
out; every row of the machine has its route. -/
theorem hierarchyBuild_flattens (definition : HierarchyDefinition τ) (hierarchy : Hierarchy τ)
    (h : hierarchyBuild definition = .ok hierarchy) : Flattens definition hierarchy := by
  obtain ⟨hp, ht, rows, hexp, ⟨hflat, -⟩, hroutes⟩ := hierarchyBuild_ok h
  have hsorted : Sorted hierarchy.flat := by
    rw [Sorted, hflat]
    exact sorted_of_follows hexp.follows
  have hdesc := buildRoutes_ok ht (fun row hrow => hexp.inRange hp ht hrow) hroutes
  refine ⟨singleRootedTree ht hp, initialChildrenDirect ht hp, ?_,
    fun i transition hi => hierarchyBuild_routes h hi, ?_⟩
  · intro leaf hmem hleaf event
    obtain ⟨i, hi, hid⟩ := leaf_index hp ht hmem hleaf
    have hlt := (mem_leaves.1 hi).1
    obtain ⟨declared, hperm, hfor⟩ := hexp.own i hi event
    refine ⟨declared, ?_, ?_, ?_⟩
    · convert hperm using 1
      refine List.filter_congr fun decl _ => ?_
      rw [Bool.eq_iff_iff]
      simp only [decide_eq_true_eq, Bool.and_eq_true, inherits_iff hp ht hlt, hid, and_comm]
    · have hpre := (precedes_of_follows hexp.follows).filter
        (·.isFor (hierarchy.stateId i) event)
      have hboth : (rows.filter (·.isFor (hierarchy.stateId i) event)).Pairwise fun a b =>
          a.transition.event = b.transition.event ∧ a.Precedes b := by
        refine List.Pairwise.imp_of_mem (fun {a b} ha hb hab => ⟨?_, hab⟩) hpre
        have hae := (List.mem_filter.1 ha).2
        have hbe := (List.mem_filter.1 hb).2
        simp only [ExpandedTransition.isFor, Transition.isFor, Bool.and_eq_true,
          decide_eq_true_eq] at hae hbe
        rw [hae.2, hbe.2]
      exact forall₂_pairwise (r := Expands hierarchy.toNodes i) (fun a a' b b' ha hb hab =>
        innermostFirst_of_precedes hp ht hlt ha hb hab.1 hab.2) hfor hboth
    · rw [scannedRows_fst hsorted, hflat, List.filter_map, List.forall₂_map_right_iff, ← hid]
      refine hfor.imp fun decl row hrow => ?_
      exact ⟨hrow.source, hrow.event, hrow.guard, hrow.action, (expands_enters hp ht hrow).2⟩
  · rw [← hdesc.length_eq, hflat, List.length_map]

end Build

/-! ## A door -/

/-- A door is broken or in service; in service it is closed at first, or open. The event 7 opens
the closed door, and breaks the door in any state of service that does not handle it. -/
def door : HierarchyDefinition Unit where
  states := [⟨5, 4, 0, (), .active⟩, ⟨1, 4, 0, (), .active⟩, ⟨4, 9, 1, (), .active⟩,
    ⟨9, 0, 4, (), .active⟩, ⟨2, 9, 0, (), .done⟩]
  initialState := 9
  events := [⟨7, ()⟩]
  guards := []
  actions := []
  transitions := [⟨4, 7, 0, 0, 2, 3⟩, ⟨1, 7, 0, 0, 5, 0⟩]

theorem hierarchyBuild_flattens_door :
    ∃ hierarchy, hierarchyBuild door = .ok hierarchy ∧ Flattens door hierarchy := by
  have hok : (hierarchyBuild door).isOk = true := by decide
  cases h : hierarchyBuild door with
  | error status =>
    rw [h] at hok
    cases hok
  | ok hierarchy => exact ⟨hierarchy, rfl, hierarchyBuild_flattens door hierarchy h⟩

/-- The closed door opens first and breaks second; the broken door is reached from outside. -/
example : (hierarchyBuild door).toOption.map (fun h =>
    ((scannedRows h.flat 1 7).map fun row => (row.1.target, routeAt h row.2))) =
      some [(5, some ⟨[1], [5]⟩), (2, some ⟨[1, 4], [2]⟩)] := by decide

end Cflow.Machine
