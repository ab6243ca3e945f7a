import Mathlib.Data.List.GetD
import TurboUtils.Lib.Fallible
import TurboUtils.Lib.RootedTree
import TurboUtils.Cflow.Machine.Hierarchy

/-! What `copy_states` and `validate_tree` establish: the nodes are sorted by their ids, and they
form one tree, whose inner nodes name one of their children. -/
namespace Cflow.Machine

variable {τ : Type}

/-! ## copy_states -/

/-- The nodes as `copy_states` leaves them. -/
structure Copied (impl : Nodes τ) : Prop where
  sorted : impl.states.Pairwise fun a b => a.id < b.id
  idNonzero : ∀ s ∈ impl.states, s.id ≠ 0
  parents : impl.parents = impl.states.map (parentIndex impl.states)
  parentKnown : ∀ s ∈ impl.states, s.parent ≠ 0 → parentIndex impl.states s ≠ none
  depths : impl.depths.length = impl.states.length

section Copy

variable [TypeDesc τ]

theorem checkNode_ok {ty : τ} {previous : Option (HierarchyState τ)} {state : HierarchyState τ}
    (h : checkNode ty previous state = .ok ()) :
    state.id ≠ 0 ∧ ∀ p ∈ previous, p.id ≠ state.id := by
  unfold checkNode at h
  split_ifs at h with h0 hp
  refine ⟨h0, fun p hmem he => hp ?_⟩
  rw [Option.mem_def.1 hmem]
  simpa using he

theorem checkNodes_ok {states : List (HierarchyState τ)} {ty : τ} :
    ∀ {rest : List (HierarchyState τ)} {previous : Option (HierarchyState τ)}
      {parents : List (Option ℕ)}, checkNodes states ty previous rest = .ok parents →
      parents = rest.map (parentIndex states) ∧
        (∀ s ∈ rest, s.id ≠ 0 ∧ (s.parent ≠ 0 → parentIndex states s ≠ none)) ∧
        (previous.toList ++ rest).IsChain fun a b => a.id ≠ b.id
  | [], previous, parents, h => by
    cases h
    cases previous <;> simp
  | state :: rest, previous, parents, h => by
    simp only [checkNodes, Fallible.bind_eq_ok] at h
    obtain ⟨_, hcheck, h⟩ := h
    obtain ⟨h0, hprev⟩ := checkNode_ok hcheck
    split_ifs at h with hknown
    obtain ⟨tail, htail, h⟩ := Fallible.bind_eq_ok.1 h
    cases h
    obtain ⟨hmap, hall, hchain⟩ := checkNodes_ok htail
    refine ⟨by rw [hmap, List.map_cons], ?_, ?_⟩
    · intro s hs
      rcases List.mem_cons.1 hs with rfl | hs
      · refine ⟨h0, fun hp hn => hknown ?_⟩
        simp [hp, hn]
      · exact hall s hs
    · cases previous with
      | none => exact hchain
      | some p => exact List.isChain_cons_cons.2 ⟨hprev p rfl, hchain⟩

instance isTrans_key {α : Type} (key : α → ℕ) : IsTrans α fun a b => key a < key b where
  trans _ _ _ := lt_trans

theorem copyStates_ok {definition : HierarchyDefinition τ} {impl : Nodes τ}
    (h : copyStates definition = .ok impl) :
    impl.states.Perm definition.states ∧ Copied impl := by
  unfold copyStates at h
  have hperm := BinarySearch.sortBy_perm (compareOn (·.id)) definition.states
  have hsorted := BinarySearch.sortBy_pairwise (compareOn fun s : HierarchyState τ => s.id)
    definition.states
  split at h
  · cases h
  · rename_i first rest hrows
    rw [hrows] at hperm hsorted
    split_ifs at h
    obtain ⟨parents, hparents, h⟩ := Fallible.bind_eq_ok.1 h
    cases h
    obtain ⟨hmap, hall, hchain⟩ := checkNodes_ok hparents
    refine ⟨hperm, ?_, fun s hs => (hall s hs).1, hmap, fun s hs => (hall s hs).2,
      List.length_replicate⟩
    rw [← List.isChain_iff_pairwise, List.isChain_iff_getElem]
    intro i hi
    have hle := List.pairwise_iff_getElem.1 hsorted i (i + 1) (Nat.lt_of_succ_lt hi) hi
      (Nat.lt_succ_self i)
    rw [compareOn, Nat.isLE_compare] at hle
    have hne := List.isChain_iff_getElem.1 hchain i hi
    exact lt_of_le_of_ne hle hne

end Copy

/-! ## validate_tree: the depths -/

section Depths

variable (parents : List (Option ℕ))

/-- Every black node has its depth, which is that of its black parent and one. -/
structure Settled (marks : List ℕ × List Color) : Prop where
  depths : marks.1.length = parents.length
  colors : marks.2.length = parents.length
  root : ∀ i, marks.2.getD i .black = .black → parents.getD i none = none → marks.1.getD i 0 = 0
  child : ∀ i p, marks.2.getD i .black = .black → parents.getD i none = some p →
    marks.2.getD p .black = .black ∧ marks.1.getD i 0 = marks.1.getD p 0 + 1

/-- The stack holds the nodes on the way from its last one up to the current one. -/
def Stacked : List ℕ → Option ℕ → Prop
  | [], _ => True
  | node :: stack, current => parents.getD node none = current ∧ Stacked stack (some node)

theorem getD_set {α : Type} (l : List α) (i j : ℕ) (a d : α) :
    (l.set i a).getD j d = if i = j ∧ i < l.length then a else l.getD j d := by
  rw [List.getD_eq_getElem?_getD, List.getD_eq_getElem?_getD, List.getElem?_set]
  by_cases hij : i = j
  · subst hij
    by_cases hi : i < l.length
    · simp [hi]
    · simp [hi]
  · simp [hij]

/-- What the gray nodes of a walk are: exactly those on the stack are new. -/
structure Painted (before : List Color) (current : Option ℕ) (colors : List Color)
    (stack : List ℕ) : Prop where
  length : colors.length = before.length
  stacked : Stacked parents stack current
  nodup : stack.Nodup
  gray : ∀ i ∈ stack, colors.getD i .black = .gray
  black : ∀ i, colors.getD i .black = .black ↔ before.getD i .black = .black

theorem paint_spec {before : List Color} :
    ∀ {fuel : ℕ} {current : Option ℕ} {colors : List Color} {stack : List ℕ},
      Painted parents before current colors stack → colors.count .white < fuel →
      ∃ current' colors' pushed, paint parents fuel current colors stack =
          (current', colors', pushed ++ stack) ∧
        Painted parents before current' colors' (pushed ++ stack) ∧
        (∀ node ∈ current', colors'.getD node .black ≠ .white) ∧
        (∀ node ∈ current, colors.getD node .black = .white → node ∈ pushed)
  | 0, _, _, _, _, hf => absurd hf (Nat.not_lt_zero _)
  | fuel + 1, none, colors, stack, h, _ => ⟨none, colors, [], rfl, h, by simp, by simp⟩
  | fuel + 1, some node, colors, stack, h, hf => by
    by_cases hwhite : colors.getD node .black = .white
    · have hlt : node < colors.length := by
        by_contra hge
        rw [List.getD_eq_default _ _ (Nat.not_lt.1 hge)] at hwhite
        cases hwhite
      have hnot : node ∉ stack := fun hmem => by
        rw [h.gray node hmem] at hwhite
        cases hwhite
      have hstep : Painted parents before (parents.getD node none) (colors.set node .gray)
          (node :: stack) := by
        refine ⟨by rw [List.length_set, h.length], ⟨rfl, h.stacked⟩,
          List.nodup_cons.2 ⟨hnot, h.nodup⟩, ?_, ?_⟩
        · intro i hi
          rw [getD_set]
          by_cases hni : node = i
          · rw [if_pos ⟨hni, hlt⟩]
          · rw [if_neg fun hc => hni hc.1]
            exact h.gray i ((List.mem_cons.1 hi).resolve_left (Ne.symm hni))
        · intro i
          rw [getD_set, ← h.black i]
          by_cases hni : node = i
          · subst hni
            rw [if_pos ⟨rfl, hlt⟩, hwhite]
            simp
          · rw [if_neg fun hc => hni hc.1]
      have hcount : (colors.set node .gray).count .white < fuel := by
        have hget : colors[node] = .white := by
          rwa [List.getD_eq_getElem _ _ hlt] at hwhite
        have := List.count_set (b := Color.white) (a := Color.gray) hlt
        have hpos := List.count_pos_iff.2 (hget ▸ List.getElem_mem hlt)
        simp only [hget] at this
        simp at this
        omega
      obtain ⟨current', colors', pushed, hrun, hp, hend, _⟩ := paint_spec hstep hcount
      refine ⟨current', colors', pushed ++ [node], ?_, ?_, hend, ?_⟩
      · rw [paint, if_pos hwhite, hrun]
        simp
      · simpa using hp
      · intro x hx _
        cases hx
        simp
    · refine ⟨some node, colors, [], ?_, h, ?_, ?_⟩
      · rw [paint, if_neg hwhite]
        rfl
      · intro x hx
        cases hx
        exact hwhite
      · intro x hx hw
        cases hx
        exact absurd hw hwhite

/-- Unwinding a stack of gray nodes whose highest one has a black parent makes them black. -/
theorem unwind_spec : ∀ {stack depths : List ℕ} {colors : List Color} {current : Option ℕ},
    Settled parents (depths, colors) → Stacked parents stack current → stack.Nodup →
    (∀ i ∈ stack, colors.getD i .black = .gray) →
    (∀ node ∈ current, colors.getD node .black = .black) →
    Settled parents (unwind parents stack depths colors) ∧
      ∀ i, (unwind parents stack depths colors).2.getD i .black = .black ↔
        colors.getD i .black = .black ∨ i ∈ stack
  | [], depths, colors, _, hs, _, _, _, _ => ⟨hs, by simp [unwind]⟩
  | node :: stack, depths, colors, current, hs, hst, hn, hg, hc => by
    obtain ⟨hparent, hst⟩ := hst
    obtain ⟨hnotin, hn⟩ := List.nodup_cons.1 hn
    have hgray := hg node List.mem_cons_self
    have hlt : node < colors.length := by
      by_contra hge
      rw [List.getD_eq_default _ _ (Nat.not_lt.1 hge)] at hgray
      cases hgray
    have hltd : node < depths.length := by
      have h1 : depths.length = parents.length := hs.depths
      have h2 : colors.length = parents.length := hs.colors
      omega
    have hcolor : ∀ i, (colors.set node .black).getD i .black = .black ↔
        colors.getD i .black = .black ∨ i = node := by
      intro i
      rw [getD_set]
      by_cases hi : node = i
      · simp [hi ▸ hlt, hi]
      · simp [hi, Ne.symm hi]
    have hsettled : Settled parents (depths.set node ((parents.getD node none).elim 0 fun parent =>
        depths.getD parent 0 + 1), colors.set node .black) := by
      refine ⟨by rw [List.length_set, hs.depths], by rw [List.length_set, hs.colors], ?_, ?_⟩
      · intro i hi hroot
        rw [getD_set]
        by_cases hni : node = i
        · subst hni
          simp only [hltd, and_self, if_true]
          rw [hroot]
          rfl
        · rw [if_neg fun hcon => hni hcon.1]
          exact hs.root i (((hcolor i).1 hi).resolve_right (Ne.symm hni)) hroot
      · intro i p hi hip
        by_cases hni : node = i
        · subst hni
          have hp := hc p (hparent.symm.trans hip)
          have hpn : node ≠ p := fun heq => by
            rw [← heq, hgray] at hp
            cases hp
          refine ⟨(hcolor p).2 (.inl hp), ?_⟩
          rw [getD_set, if_pos ⟨rfl, hltd⟩, getD_set, if_neg fun hcon => hpn hcon.1, hip]
          rfl
        · obtain ⟨hp, hd⟩ := hs.child i p (((hcolor i).1 hi).resolve_right (Ne.symm hni)) hip
          -- a black node has a black parent, so the node turning black is not that parent
          have hpn : node ≠ p := fun heq => by
            change colors.getD p .black = .black at hp
            rw [← heq, hgray] at hp
            cases hp
          refine ⟨(hcolor p).2 (.inl hp), ?_⟩
          rw [getD_set, if_neg fun hcon => hni hcon.1, getD_set, if_neg fun hcon => hpn hcon.1]
          exact hd
    have hrest : ∀ i ∈ stack, (colors.set node .black).getD i .black = .gray := by
      intro i hi
      rw [getD_set, if_neg fun hcon : node = i ∧ _ => hnotin (hcon.1 ▸ hi)]
      exact hg i (List.mem_cons_of_mem _ hi)
    obtain ⟨hfinal, hblack⟩ := unwind_spec hsettled hst hn hrest fun x hx => by
      cases hx
      exact (hcolor node).2 (.inr rfl)
    refine ⟨hfinal, fun i => ?_⟩
    rw [unwind, hblack i, hcolor i, List.mem_cons, or_assoc]

/-- A visit that finds no cycle leaves its node black, and no black node changes. -/
theorem visit_ok {index : ℕ} {marks marks' : List ℕ × List Color}
    (h : visit parents index marks = .ok marks') (hs : Settled parents marks) :
    Settled parents marks' ∧ marks'.2.getD index .black = .black ∧
      ∀ i, marks.2.getD i .black = .black → marks'.2.getD i .black = .black := by
  unfold visit at h
  split_ifs at h with hblack
  · cases h
    exact ⟨hs, hblack, fun _ hi => hi⟩
  · have hcount : marks.2.count .white < parents.length + 1 :=
      Nat.lt_succ_of_le (hs.colors ▸ List.count_le_length)
    have hstart : Painted parents marks.2 (some index) marks.2 [] :=
      ⟨rfl, trivial, List.nodup_nil, by simp, fun _ => Iff.rfl⟩
    obtain ⟨current, colors, pushed, hrun, hp, hend, hmem⟩ := paint_spec parents hstart hcount
    rw [List.append_nil] at hrun hp
    simp only [hrun] at h
    split_ifs at h with hgray
    cases h
    have hcurrent : ∀ node ∈ current, colors.getD node .black = .black := by
      intro node hnode
      have hg : colors.getD node .black ≠ .gray := fun hg => hgray (by
        rw [Option.mem_def.1 hnode]
        simpa using hg)
      have hw := hend node hnode
      cases hc : colors.getD node .black with
      | white => exact absurd hc hw
      | gray => exact absurd hc hg
      | black => rfl
    have hsettled : Settled parents (marks.1, colors) :=
      ⟨hs.depths, by rw [hp.length, hs.colors],
        fun i hi => hs.root i ((hp.black i).1 hi),
        fun i p hi hip => ⟨(hp.black p).2 (hs.child i p ((hp.black i).1 hi) hip).1,
          (hs.child i p ((hp.black i).1 hi) hip).2⟩⟩
    obtain ⟨hfinal, hall⟩ := unwind_spec parents hsettled hp.stacked hp.nodup hp.gray hcurrent
    refine ⟨hfinal, ?_, fun i hi => (hall i).2 (.inl ((hp.black i).2 hi))⟩
    rw [hall]
    by_cases hin : index ∈ pushed
    · exact .inr hin
    · -- a node that was not pushed was met at once, and is not gray
      refine .inl ?_
      by_cases hw : marks.2.getD index .black = .white
      · exact absurd (hmem index rfl hw) hin
      · rw [paint, if_neg hw] at hrun
        cases hrun
        exact hcurrent index rfl

theorem visits_ok : ∀ {l : List ℕ} {marks marks' : List ℕ × List Color},
    l.foldlM (fun marks index => visit parents index marks) marks = .ok marks' →
    Settled parents marks → Settled parents marks' ∧
      (∀ i ∈ l, marks'.2.getD i .black = .black) ∧
      ∀ i, marks.2.getD i .black = .black → marks'.2.getD i .black = .black
  | [], marks, marks', h, hs => by
    cases h
    exact ⟨hs, by simp, fun _ hi => hi⟩
  | index :: l, marks, marks', h, hs => by
    obtain ⟨mid, hmid, hrest⟩ := Fallible.foldlM_cons_ok.1 h
    obtain ⟨hs', hb, hkeep⟩ := visit_ok parents hmid hs
    obtain ⟨hs'', hall, hkeep'⟩ := visits_ok hrest hs'
    refine ⟨hs'', fun i hi => ?_, fun i hi => hkeep' i (hkeep i hi)⟩
    rcases List.mem_cons.1 hi with rfl | hi
    · exact hkeep' _ hb
    · exact hall i hi

end Depths

/-! ## validate_tree: the tree -/

theorem foldl_marks {l : List (Option ℕ)} {marks : List Bool} {i : ℕ} (hi : i < marks.length) :
    (l.foldl (fun marks parent => parent.elim marks fun i => marks.set i true) marks).getD i
      false = true ↔ marks.getD i false = true ∨ some i ∈ l := by
  induction l generalizing marks with
  | nil => simp
  | cons parent l ih =>
    rw [List.foldl_cons]
    cases parent with
    | none => simpa using ih hi
    | some p =>
      rw [Option.elim_some, ih (by rwa [List.length_set]), getD_set]
      by_cases hp : p = i
      · simp [hp, hi]
      · simp [hp, Ne.symm hp]

theorem markHasChild_iff {parents : List (Option ℕ)} {i : ℕ} (hi : i < parents.length) :
    (markHasChild parents).getD i false = true ↔ some i ∈ parents := by
  rw [markHasChild, foldl_marks (by simpa using hi)]
  simp [List.getD_eq_getElem?_getD, hi]

/-- The nodes as `validate_tree` leaves them. -/
structure Tree (impl : Nodes τ) : Prop extends Copied impl where
  oneRoot : impl.parents.count none = 1
  leveled : RootedTree.Leveled impl.parent impl.depth
  inner : ∀ i s, impl.states[i]? = some s → some i ∈ impl.parents → s.kind = .active ∧
    s.initialChild ≠ 0 ∧
      ∃ child, findStateIndex impl.states s.initialChild = some child ∧ impl.parent child = some i
  leaf : ∀ i s, impl.states[i]? = some s → some i ∉ impl.parents → s.initialChild = 0

theorem checkChildren_ok {impl : Nodes τ} {hasChild : List Bool} {i : ℕ} {s : HierarchyState τ}
    (h : checkChildren impl hasChild i s = .ok ()) :
    (hasChild.getD i false = true → s.kind = .active ∧ s.initialChild ≠ 0 ∧
      ∃ child, findStateIndex impl.states s.initialChild = some child ∧
        impl.parent child = some i) ∧
    (hasChild.getD i false = false → s.initialChild = 0) := by
  unfold checkChildren at h
  split_ifs at h with hc hk h0 h0
  · refine ⟨fun _ => ⟨not_not.1 hk, h0, ?_⟩, fun hf => absurd (hc.symm.trans hf) (by decide)⟩
    split at h
    · cases h
    · rename_i child hfind
      split_ifs at h with hp
      exact ⟨child, hfind, not_not.1 hp⟩
  · exact ⟨fun ht => absurd ht hc, fun _ => not_not.1 h0⟩

theorem validateTree_ok {impl impl' : Nodes τ} (hc : Copied impl)
    (h : validateTree impl = .ok impl') : impl'.states = impl.states ∧ Tree impl' := by
  have hlen : impl.parents.length = impl.states.length := by rw [hc.parents, List.length_map]
  unfold validateTree at h
  split_ifs at h with hroot
  obtain ⟨⟨depths, colors⟩, hvisits, h⟩ := Fallible.bind_eq_ok.1 h
  obtain ⟨_, hchildren, h⟩ := Fallible.bind_eq_ok.1 h
  cases h
  have hstart : Settled impl.parents (impl.depths, List.replicate impl.states.length .white) := by
    have hblack : ∀ i, (List.replicate impl.states.length Color.white).getD i .black = .black →
        impl.parents.length ≤ i := fun i hi => by
      by_contra hlt
      rw [List.getD_eq_getElem?_getD, List.getElem?_replicate, if_pos (by omega)] at hi
      cases hi
    refine ⟨by rw [hc.depths, hlen], by rw [List.length_replicate, hlen], ?_, ?_⟩
    · intro i hi _
      exact List.getD_eq_default _ _ (by rw [hc.depths, ← hlen]; exact hblack i hi)
    · intro i p hi hip
      rw [List.getD_eq_default _ _ (hblack i hi)] at hip
      cases hip
  obtain ⟨hs, hall, _⟩ := visits_ok impl.parents hvisits hstart
  have hblack : ∀ i, colors.getD i .black = .black := fun i => by
    by_cases hi : i < impl.states.length
    · exact hall i (List.mem_range.2 hi)
    · exact List.getD_eq_default _ _ (by
        have : colors.length = impl.parents.length := hs.colors
        omega)
  have hchild : ∀ i s, impl.states[i]? = some s →
      checkChildren impl (markHasChild impl.parents) i s = .ok () := fun i s hi => by
    have hmem : (s, i) ∈ impl.states.zipIdx := List.mem_zipIdx_iff_getElem?.2 hi
    obtain ⟨_, _, hok⟩ := Fallible.foldlM_step hmem hchildren
    exact hok
  have hlt : ∀ i s, impl.states[i]? = some s → i < impl.parents.length := fun i s hi => by
    rw [hlen]
    exact (List.getElem?_eq_some_iff.1 hi).1
  refine ⟨rfl, ⟨⟨hc.sorted, hc.idNonzero, hc.parents, hc.parentKnown, ?_⟩, not_not.1 hroot,
    ⟨fun i hi => hs.root i (hblack i) hi, fun i p hip => (hs.child i p (hblack i) hip).2⟩,
    ?_, ?_⟩⟩
  · have : depths.length = impl.parents.length := hs.depths
    rw [this, hlen]
  · intro i s hi hp
    exact (checkChildren_ok (hchild i s hi)).1 ((markHasChild_iff (hlt i s hi)).2 hp)
  · intro i s hi hp
    refine (checkChildren_ok (hchild i s hi)).2 ?_
    rw [← Bool.not_eq_true, markHasChild_iff (hlt i s hi)]
    exact hp

/-! ## The nodes by index and by id -/

namespace Copied

variable {impl : Nodes τ} (hc : Copied impl)
include hc

theorem parent_eq {i : ℕ} {s : HierarchyState τ} (hi : impl.states[i]? = some s) :
    impl.parent i = parentIndex impl.states s := by
  rw [Nodes.parent, List.getD_eq_getElem?_getD, hc.parents, List.getElem?_map, hi]
  rfl

theorem parent_none {i : ℕ} (hi : impl.states.length ≤ i) : impl.parent i = none :=
  List.getD_eq_default _ _ (by rw [hc.parents, List.length_map]; exact hi)

omit hc in
theorem stateId_eq {i : ℕ} {s : HierarchyState τ} (hi : impl.states[i]? = some s) :
    impl.stateId i = s.id := by
  rw [Nodes.stateId, hi]
  rfl

omit hc in
theorem stateId_zero {i : ℕ} (hi : impl.states.length ≤ i) : impl.stateId i = 0 := by
  rw [Nodes.stateId, List.getElem?_eq_none hi]
  rfl

theorem stateId_inj {i j : ℕ} (hi : i < impl.states.length) (hj : j < impl.states.length)
    (h : impl.stateId i = impl.stateId j) : i = j := by
  have hlt := List.pairwise_iff_getElem.1 hc.sorted
  rw [stateId_eq (List.getElem?_eq_getElem hi), stateId_eq (List.getElem?_eq_getElem hj)] at h
  rcases Nat.lt_trichotomy i j with hij | hij | hij
  · exact absurd (hlt i j hi hj hij) (by omega)
  · exact hij
  · exact absurd (hlt j i hj hi hij) (by omega)

omit hc in
theorem findStateIndex_some {id i : ℕ} (h : findStateIndex impl.states id = some i) :
    i < impl.states.length ∧ impl.stateId i = id := by
  obtain ⟨s, hs, rfl⟩ := findIndex_some h
  exact ⟨(List.getElem?_eq_some_iff.1 hs).1, stateId_eq hs⟩

theorem findStateIndex_eq {i : ℕ} (hi : i < impl.states.length) :
    findStateIndex impl.states (impl.stateId i) = some i := by
  rw [stateId_eq (List.getElem?_eq_getElem hi)]
  exact findIndex_eq hc.sorted (List.getElem?_eq_getElem hi)

theorem parent_lt {i p : ℕ} (h : impl.parent i = some p) : p < impl.states.length := by
  by_cases hi : i < impl.states.length
  · rw [hc.parent_eq (List.getElem?_eq_getElem hi), parentIndex] at h
    split_ifs at h
    exact (findStateIndex_some h).1
  · rw [hc.parent_none (Nat.not_lt.1 hi)] at h
    cases h

theorem ancestor_lt {i j : ℕ} (h : RootedTree.Ancestor impl.parent i j)
    (hj : j < impl.states.length) : i < impl.states.length := by
  obtain ⟨path, hpath⟩ := h
  induction hpath with
  | here => exact hj
  | up hp _ ih => exact ih (hc.parent_lt hp)

end Copied

def declaredParent (states : List (HierarchyState τ)) (id : ℕ) : Option ℕ :=
  (states.find? (·.id = id)).bind fun s => if s.parent = 0 then none else some s.parent

def declaredChild (states : List (HierarchyState τ)) (id : ℕ) : Option ℕ :=
  (states.find? (·.id = id)).bind fun s => if s.initialChild = 0 then none else some s.initialChild

section Declared

variable {impl : Nodes τ} (hc : Copied impl) {states : List (HierarchyState τ)}
  (hp : impl.states.Perm states)
include hc hp

theorem ids_nodup : (states.map (·.id)).Nodup := by
  refine (hp.map _).nodup_iff.1 ?_
  exact List.Pairwise.imp (fun h => h.ne) (List.pairwise_map.2 hc.sorted)

theorem find?_declared {s : HierarchyState τ} (hs : s ∈ states) :
    states.find? (·.id = s.id) = some s := by
  cases hf : states.find? (·.id = s.id) with
  | none => simpa using List.find?_eq_none.1 hf s hs
  | some t =>
    have ht : t.id = s.id := by simpa using List.find?_some hf
    rw [List.inj_on_of_nodup_map (ids_nodup hc hp) (List.mem_of_find?_eq_some hf) hs ht]

theorem find?_stateId {i : ℕ} : states.find? (·.id = impl.stateId i) = impl.states[i]? := by
  by_cases hi : i < impl.states.length
  · have hs := List.getElem?_eq_getElem hi
    rw [hs, Copied.stateId_eq hs]
    exact find?_declared hc hp (hp.mem_iff.1 (List.getElem_mem hi))
  · rw [List.getElem?_eq_none (Nat.not_lt.1 hi), Copied.stateId_zero (Nat.not_lt.1 hi),
      List.find?_eq_none]
    intro s hs
    simpa using hc.idNonzero s (hp.mem_iff.2 hs)

theorem declaredParent_stateId (i : ℕ) :
    declaredParent states (impl.stateId i) = (impl.parent i).map impl.stateId := by
  rw [declaredParent, find?_stateId hc hp]
  by_cases hi : i < impl.states.length
  · have hs := List.getElem?_eq_getElem hi
    rw [hs, hc.parent_eq hs, Option.bind_some, parentIndex]
    split_ifs with h0
    · rfl
    · cases hf : findStateIndex impl.states impl.states[i].parent with
      | none =>
        refine absurd ?_ (hc.parentKnown _ (List.getElem_mem hi) h0)
        rw [parentIndex, if_neg h0, hf]
      | some p => rw [Option.map_some, (Copied.findStateIndex_some hf).2]
  · rw [List.getElem?_eq_none (Nat.not_lt.1 hi), hc.parent_none (Nat.not_lt.1 hi)]
    rfl

theorem declaredChild_stateId (i : ℕ) : declaredChild states (impl.stateId i) =
    if impl.initialChild i = 0 then none else some (impl.initialChild i) := by
  rw [declaredChild, find?_stateId hc hp, Nodes.initialChild]
  cases impl.states[i]? <;> rfl

omit hc in
theorem exists_index {s : HierarchyState τ} (hs : s ∈ states) :
    ∃ i < impl.states.length, impl.states[i]? = some s ∧ impl.stateId i = s.id := by
  obtain ⟨i, hi, hget⟩ := List.getElem_of_mem (hp.mem_iff.2 hs)
  have hsome := hget ▸ List.getElem?_eq_getElem hi
  exact ⟨i, hi, hsome, Copied.stateId_eq hsome⟩

theorem ancestor_stateId {i j : ℕ} (hi : i < impl.states.length) (hj : j < impl.states.length) :
    RootedTree.Ancestor (declaredParent states) (impl.stateId i) (impl.stateId j) ↔
      RootedTree.Ancestor impl.parent i j := by
  constructor
  · intro h
    obtain ⟨x, hx, hxj⟩ := h.lift impl.stateId (declaredParent_stateId hc hp)
    rwa [hc.stateId_inj (hc.ancestor_lt hxj hj) hi hx] at hxj
  · intro h
    exact h.map impl.stateId fun x p hxp => by
      rw [declaredParent_stateId hc hp, hxp, Option.map_some]

end Declared

/-! ## One tree -/

theorem eq_of_count_one {α : Type} [BEq α] [LawfulBEq α] {a : α} :
    ∀ {l : List α} {i j : ℕ}, l.count a = 1 → l[i]? = some a → l[j]? = some a → i = j
  | [], _, _, _, hi, _ => by simp at hi
  | x :: l, i, j, h, hi, hj => by
    by_cases hx : x = a
    · have hnot : a ∉ l := List.count_eq_zero.1 (by
        rw [hx, List.count_cons_self] at h
        omega)
      have hzero : ∀ k, (x :: l)[k]? = some a → k = 0 := fun k hk => by
        cases k with
        | zero => rfl
        | succ k => exact absurd (List.mem_of_getElem? (l := l) (i := k) hk) hnot
      rw [hzero i hi, hzero j hj]
    · have hne : some x ≠ some a := fun he => hx (Option.some.inj he)
      cases i with
      | zero => exact absurd hi hne
      | succ i =>
        cases j with
        | zero => exact absurd hj hne
        | succ j =>
          rw [List.count_cons_of_ne hx] at h
          rw [eq_of_count_one h hi hj]

/-- The states are told apart by their ids, and from every one the parents lead to one root. -/
structure SingleRootedTree (states : List (HierarchyState τ)) : Prop where
  distinct : (states.map (·.id)).Nodup
  rooted : ∃ root ∈ states, root.parent = 0 ∧ ∀ s ∈ states, (s.parent = 0 → s = root) ∧
    RootedTree.Ancestor (declaredParent states) root.id s.id

def InitialChildrenDirect (states : List (HierarchyState τ)) : Prop :=
  ∀ s ∈ states, (∃ c ∈ states, c.parent = s.id) →
    ∃ c ∈ states, c.id = s.initialChild ∧ c.parent = s.id

namespace Tree

variable {impl : Nodes τ} (ht : Tree impl)
include ht

/-- All ways up end at the one node without a parent. -/
theorem exists_root : ∃ root < impl.states.length, impl.parent root = none ∧
    ∀ i < impl.states.length, RootedTree.Ancestor impl.parent root i := by
  have hmem : none ∈ impl.parents := List.count_pos_iff.1 (by rw [ht.oneRoot]; exact Nat.one_pos)
  obtain ⟨root, hlt, hget⟩ := List.getElem_of_mem hmem
  have hlen : impl.parents.length = impl.states.length := by rw [ht.parents, List.length_map]
  have hroot := hget ▸ List.getElem?_eq_getElem hlt
  refine ⟨root, hlen ▸ hlt, ?_, ?_⟩
  · rw [Nodes.parent, List.getD_eq_getElem?_getD, hroot]
    rfl
  intro i hi
  -- the way up from a node is as long as the node is deep
  induction hd : impl.depth i generalizing i with
  | zero =>
    cases hp : impl.parent i with
    | none =>
      have hi' : impl.parents[i]? = some none := by
        rw [Nodes.parent, List.getD_eq_getElem _ _ (hlen ▸ hi)] at hp
        rw [List.getElem?_eq_getElem (hlen ▸ hi), hp]
      rw [eq_of_count_one ht.oneRoot hi' hroot]
      exact .refl root
    | some p =>
      have := ht.leveled.child i p hp
      omega
  | succ d ih =>
    cases hp : impl.parent i with
    | none =>
      have := ht.leveled.root i hp
      omega
    | some p =>
      have := ht.leveled.child i p hp
      exact (ih p (ht.parent_lt hp) (by omega)).trans (.of_parent hp)

theorem depth_lt {i : ℕ} (hi : i < impl.states.length) : impl.depth i < impl.states.length := by
  obtain ⟨root, hroot, hnone, hall⟩ := ht.exists_root
  obtain ⟨path, hpath⟩ := hall i hi
  have hlen := hpath.depth_eq ht.leveled
  rw [ht.leveled.root root hnone] at hlen
  have hsub : ∀ x ∈ root :: path, x ∈ List.range impl.states.length := fun x hx => by
    rcases List.mem_cons.1 hx with rfl | hx
    · exact List.mem_range.2 hroot
    · exact List.mem_range.2 (ht.ancestor_lt (hpath.mem_ancestor hx).2 hi)
  have hle := ((hpath.nodup ht.leveled).subperm hsub).length_le
  rw [List.length_cons, List.length_range] at hle
  omega

/-- The walk up from a node meets exactly the nodes above it. -/
theorem descendantLoop_iff {ancestor node fuel : ℕ} (hf : impl.depth node < fuel) :
    descendantLoop impl ancestor fuel (some node) = true ↔
      RootedTree.Ancestor impl.parent ancestor node := by
  induction fuel generalizing node with
  | zero => omega
  | succ fuel ih =>
    rw [descendantLoop, RootedTree.ancestor_iff]
    by_cases hn : node = ancestor
    · simp [hn]
    · rw [if_neg hn, or_iff_right (Ne.symm hn)]
      cases hp : impl.parent node with
      | none => cases fuel <;> simp [descendantLoop]
      | some p =>
        have := ht.leveled.child node p hp
        rw [ih (by omega)]
        simp

theorem isDescendant_iff {node ancestor : ℕ} (hn : node < impl.states.length) :
    isDescendant impl node ancestor = true ↔
      RootedTree.Ancestor impl.parent ancestor node :=
  ht.descendantLoop_iff (Nat.lt_succ_of_lt (ht.depth_lt hn))

end Tree

section Declared

variable {impl : Nodes τ} (ht : Tree impl) {states : List (HierarchyState τ)}
  (hp : impl.states.Perm states)
include ht hp

theorem singleRootedTree : SingleRootedTree states := by
  obtain ⟨r, hr, hnone, hall⟩ := ht.exists_root
  have hget := List.getElem?_eq_getElem hr
  have hparent : ∀ i s, impl.states[i]? = some s → s.parent = 0 → i = r := fun i s hi h0 => by
    have hpi : impl.parent i = none := by rw [ht.parent_eq hi, parentIndex, if_pos h0]
    have hroot := hall i (List.getElem?_eq_some_iff.1 hi).1
    rw [RootedTree.ancestor_root hpi] at hroot
    exact hroot.symm
  have h0 : impl.states[r].parent = 0 := by
    rw [ht.parent_eq hget] at hnone
    by_contra h0
    exact ht.parentKnown _ (List.getElem_mem hr) h0 hnone
  refine ⟨ids_nodup ht.toCopied hp, impl.states[r], hp.mem_iff.1 (List.getElem_mem hr), h0, ?_⟩
  intro s hs
  obtain ⟨i, hi, hsome, hid⟩ := exists_index hp hs
  constructor
  · intro hs0
    have hir := hparent i s hsome hs0
    subst hir
    exact (Option.some.inj (hget.symm.trans hsome)).symm
  · rw [← hid, ← Copied.stateId_eq hget, ancestor_stateId ht.toCopied hp hr hi]
    exact hall i hi

theorem initialChildrenDirect : InitialChildrenDirect states := by
  rintro s hs ⟨c, hc, hcs⟩
  obtain ⟨i, hi, hsome, hid⟩ := exists_index hp hs
  obtain ⟨j, hj, hsomej, hidj⟩ := exists_index hp hc
  have hparent : impl.parent j = some i := by
    rw [ht.parent_eq hsomej, parentIndex, hcs, ← hid, if_neg, ht.findStateIndex_eq hi]
    rw [hid]
    exact ht.idNonzero s (hp.mem_iff.2 hs)
  have hmem : some i ∈ impl.parents := by
    rw [Nodes.parent, List.getD_eq_getElem?_getD] at hparent
    cases hget : impl.parents[j]? with
    | none =>
      rw [hget] at hparent
      cases hparent
    | some p =>
      rw [hget] at hparent
      exact hparent ▸ List.mem_of_getElem? hget
  obtain ⟨-, -, child, hfind, hchild⟩ := ht.inner i s hsome hmem
  obtain ⟨hlt, hcid⟩ := Copied.findStateIndex_some hfind
  have hget := List.getElem?_eq_getElem hlt
  refine ⟨impl.states[child], hp.mem_iff.1 (List.getElem_mem hlt), ?_, ?_⟩
  · rw [← hcid, Copied.stateId_eq hget]
  · rw [ht.parent_eq hget, parentIndex] at hchild
    split_ifs at hchild
    rw [← (Copied.findStateIndex_some hchild).2, hid]

end Declared

end Cflow.Machine
