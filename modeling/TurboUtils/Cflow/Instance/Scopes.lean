import TurboUtils.Cflow.Instance.Machine
import TurboUtils.Cflow.Machine.Flattening

/-! The scopes of timers in the tree of a hierarchy: what the search through the nodes decides, and
which scopes a transition keeps. -/
namespace Cflow.Instance

open Machine RootedTree

variable {τ : Type}

/-- The current state is active, and the scope is this state or one above it. -/
structure InScope (states : List (HierarchyState τ)) (current scope : ℕ) : Prop where
  active : ∃ s ∈ states, s.id = current ∧ s.kind = .active
  above : Ancestor (declaredParent states) scope current

section Built

variable [TypeDesc τ] {definition : HierarchyDefinition τ} {hierarchy : Hierarchy τ}
  (hb : hierarchyBuild definition = .ok hierarchy)
include hb

theorem inScope_of_scopeActive {current scope : ℕ}
    (h : scopeActive hierarchy current scope = true) : InScope definition.states current scope := by
  obtain ⟨hp, ht, -⟩ := hierarchyBuild_ok hb
  unfold scopeActive at h
  split at h
  · rename_i i j hi hj
    obtain ⟨hilt, rfl⟩ := Copied.findStateIndex_some hi
    obtain ⟨hjlt, rfl⟩ := Copied.findStateIndex_some hj
    rw [List.getElem?_eq_getElem hilt] at h
    simp only [Option.any_some, Bool.and_eq_true, decide_eq_true_eq] at h
    refine ⟨⟨_, hp.mem_iff.1 (List.getElem_mem hilt), ?_, h.1⟩, ?_⟩
    · rw [Copied.stateId_eq (List.getElem?_eq_getElem hilt)]
    · rw [ancestor_stateId ht.toCopied hp hjlt hilt]
      exact (ht.isDescendant_iff hilt).1 h.2
  · cases h

theorem flat_state {id : ℕ} {state : State τ} (h : findState hierarchy.flat id = some state) :
    ∃ i s, hierarchy.states[i]? = some s ∧ findStateIndex hierarchy.states id = some i ∧
      s ∈ definition.states ∧ s.id = state.id ∧ s.kind = state.kind := by
  obtain ⟨hp, ht, rows, -, ⟨-, hstates⟩, -⟩ := hierarchyBuild_ok hb
  obtain ⟨hmem, rfl⟩ := findRow_some h
  obtain ⟨s, hs, rfl⟩ := hstates state hmem
  obtain ⟨i, hi, hget⟩ := List.getElem_of_mem hs
  have hsome := hget ▸ List.getElem?_eq_getElem hi
  have hindex := ht.toCopied.findStateIndex_eq hi
  rw [Copied.stateId_eq hsome] at hindex
  exact ⟨i, s, hsome, hindex, hp.mem_iff.1 hs, rfl, rfl⟩

theorem endsService_iff {i : ℕ} {transition : Transition} {target : State τ}
    (hi : hierarchy.flat.transitions[i]? = some transition)
    (ht : findState hierarchy.flat transition.target = some target) :
    endsService hierarchy i = true ↔ target.kind ≠ .active := by
  obtain ⟨j, s, hs, hj, -, -, hkind⟩ := flat_state hb ht
  rw [endsService, hi, Option.any_some, hj, Option.any_some, hs, Option.any_some, hkind,
    decide_eq_true_eq]

/-- A transition keeps a scope, exits it, or ends the service of the timers. -/
theorem transition_inScope {i : ℕ} {transition : Transition} {target : State τ} {scope : ℕ}
    (hi : hierarchy.flat.transitions[i]? = some transition)
    (ht : findState hierarchy.flat transition.target = some target)
    (h : InScope definition.states transition.source scope) :
    InScope definition.states target.id scope ∨ endsService hierarchy i = true ∨
      ∀ route ∈ routeAt hierarchy i, scope ∈ route.exitStates := by
  by_cases hends : endsService hierarchy i = true
  · exact .inr (.inl hends)
  obtain ⟨_, s, -, -, hs, hid, hkind⟩ := flat_state hb ht
  have hactive : s.kind = .active := by
    by_contra hne
    exact hends ((endsService_iff hb hi ht).2 (hkind ▸ hne))
  obtain ⟨route, hroute, lca, hlca, hexits, -⟩ := hierarchyBuild_routes hb hi
  rcases hexits.mem_or_ancestor h.above with hexit | habove
  · refine .inr (.inr fun route' hroute' => ?_)
    rw [hroute] at hroute'
    cases hroute'
    exact hexit
  · refine .inl ⟨⟨s, hs, hid, hactive⟩, ?_⟩
    rw [(findRow_some ht).2]
    exact habove.trans hlca.right

end Built

end Cflow.Instance
