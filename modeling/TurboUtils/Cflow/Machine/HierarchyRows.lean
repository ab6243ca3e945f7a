import TurboUtils.Cflow.Machine.HierarchyTree

/-! What `expand_transitions` makes of the declarations: sorted rows that, for every leaf and event,
are the transitions the leaf declares or inherits. -/
namespace Cflow.Machine

variable {τ : Type}

def inherits (impl : Nodes τ) (leaf : ℕ) (decl : Transition) : Bool :=
  (findStateIndex impl.states decl.source).any (isDescendant impl leaf)

/-- The row is what a declaration becomes at a leaf, whatever priority it got. -/
structure Expands (impl : Nodes τ) (leaf : ℕ) (decl : Transition) (row : ExpandedTransition) :
    Prop where
  event : row.transition.event = decl.event
  guard : row.transition.guard = decl.guard
  action : row.transition.action = decl.action
  source : row.transition.source = impl.stateId leaf
  sourceIndex : row.sourceIndex = leaf
  target : row.transition.target = impl.stateId row.targetIndex
  targetIndex : ∃ node, findStateIndex impl.states decl.target = some node ∧
    resolveInitialLeaf impl node = some row.targetIndex
  declared : ∃ node, findStateIndex impl.states decl.source = some node ∧
    isDescendant impl leaf node = true ∧ row.declarationDepth = impl.depth node
  declarationPriority : row.declarationPriority = decl.priority

/-! ## Counting and filling -/

section Fill

variable {impl : Nodes τ}

theorem countDeclaration_ok {leaf n n' : ℕ} {decl : Transition}
    (h : countDeclaration impl leaf n decl = .ok n') :
    (∃ source, findStateIndex impl.states decl.source = some source) ∧
      n' = n + (if inherits impl leaf decl then 1 else 0) ∧
      (n ≤ maxTransitions → n' ≤ maxTransitions) := by
  unfold countDeclaration at h
  split at h
  · cases h
  · rename_i source hsource
    have hin : inherits impl leaf decl = isDescendant impl leaf source := by
      rw [inherits, hsource]
      rfl
    rw [hin]
    split_ifs at h with hd hmax <;> cases h
    · exact ⟨⟨source, hsource⟩, by simp [hd], by omega⟩
    · exact ⟨⟨source, hsource⟩, by simp [hd], id⟩

theorem countRows_ok {transitions : List Transition} {count : ℕ}
    (h : countRows impl transitions = .ok count) : count ≤ maxTransitions ∧
      count = ((leaves impl).map fun leaf => (transitions.map fun decl =>
        if inherits impl leaf decl then 1 else 0).sum).sum := by
  have hinner : ∀ n leaf n', transitions.foldlM (countDeclaration impl leaf) n = .ok n' →
      n' = n + (transitions.map fun decl => if inherits impl leaf decl then 1 else 0).sum :=
    fun _ leaf _ h => Fallible.foldlM_add (f := countDeclaration impl leaf)
      (fun _ _ _ hd => (countDeclaration_ok hd).2.1) h
  have hbound : ∀ n leaf n', n ≤ maxTransitions →
      transitions.foldlM (countDeclaration impl leaf) n = .ok n' → n' ≤ maxTransitions :=
    fun n leaf n' hn h => Fallible.foldlM_keeps (P := fun n => n ≤ maxTransitions)
      (fun _ _ _ _ hn hd => (countDeclaration_ok hd).2.2 hn) hn h
  refine ⟨Fallible.foldlM_keeps (P := fun n => n ≤ maxTransitions)
    (fun n leaf _ n' hn hl => hbound n leaf n' hn hl) (Nat.zero_le _) h, ?_⟩
  rw [Fallible.foldlM_add hinner h, Nat.zero_add]

def expandOne (impl : Nodes τ) (leaf : ℕ) (decl : Transition) : List ExpandedTransition :=
  match expandDeclaration impl leaf [] decl with
  | .ok rows => rows
  | .error _ => []

theorem expandDeclaration_ok {leaf : ℕ} {rows rows' : List ExpandedTransition} {decl : Transition}
    (h : expandDeclaration impl leaf rows decl = .ok rows') :
    rows' = rows ++ expandOne impl leaf decl ∧
      (inherits impl leaf decl = false → expandOne impl leaf decl = []) ∧
      (inherits impl leaf decl = true →
        ∃ row, expandOne impl leaf decl = [row] ∧ Expands impl leaf decl row) := by
  unfold expandDeclaration at h
  unfold expandOne expandDeclaration inherits
  cases htarget : findStateIndex impl.states decl.target with
  | none =>
    rw [htarget] at h
    cases h
  | some targetNode =>
    cases hsource : findStateIndex impl.states decl.source with
    | none =>
      simp only [htarget, hsource] at h ⊢
      cases h
      simp
    | some source =>
      simp only [htarget, hsource, Option.any_some] at h ⊢
      cases hd : isDescendant impl leaf source with
      | false =>
        simp only [hd, Bool.not_false, if_true] at h ⊢
        cases h
        simp
      | true =>
        simp only [hd, Bool.not_true, Bool.false_eq_true, if_false] at h ⊢
        cases hres : resolveInitialLeaf impl targetNode with
        | none =>
          rw [hres] at h
          cases h
        | some target =>
          simp only [hres] at h ⊢
          cases h
          refine ⟨rfl, by simp, fun _ => ⟨_, rfl, ?_⟩⟩
          exact ⟨rfl, rfl, rfl, rfl, rfl, rfl, ⟨targetNode, htarget, hres⟩,
            ⟨source, hsource, hd, rfl⟩, rfl⟩

theorem fillRows_ok {transitions : List Transition} {rows : List ExpandedTransition}
    (h : fillRows impl transitions = .ok rows) :
    rows = (leaves impl).flatMap (fun leaf => transitions.flatMap (expandOne impl leaf)) ∧
      ∀ leaf ∈ leaves impl, ∀ decl ∈ transitions,
        (inherits impl leaf decl = false → expandOne impl leaf decl = []) ∧
        (inherits impl leaf decl = true →
          ∃ row, expandOne impl leaf decl = [row] ∧ Expands impl leaf decl row) := by
  have hinner : ∀ rows leaf rows', transitions.foldlM (expandDeclaration impl leaf) rows =
      .ok rows' → rows' = rows ++ transitions.flatMap (expandOne impl leaf) :=
    fun _ leaf _ h => Fallible.foldlM_append (f := expandDeclaration impl leaf)
      (fun _ _ _ hd => (expandDeclaration_ok hd).1) h
  constructor
  · rw [Fallible.foldlM_append hinner h, List.nil_append]
  · intro leaf hleaf decl hdecl
    obtain ⟨_, _, hinner⟩ := Fallible.foldlM_step hleaf h
    obtain ⟨_, _, hstep⟩ := Fallible.foldlM_step hdecl hinner
    exact (expandDeclaration_ok hstep).2

/-- What a leaf has of the declarations, each with its row. -/
theorem flatMap_expandOne {leaf : ℕ} {transitions : List Transition}
    (h : ∀ decl ∈ transitions, (inherits impl leaf decl = false → expandOne impl leaf decl = []) ∧
      (inherits impl leaf decl = true →
        ∃ row, expandOne impl leaf decl = [row] ∧ Expands impl leaf decl row)) :
    List.Forall₂ (Expands impl leaf) (transitions.filter (inherits impl leaf))
      (transitions.flatMap (expandOne impl leaf)) := by
  induction transitions with
  | nil => exact .nil
  | cons decl transitions ih =>
    obtain ⟨hno, hyes⟩ := h decl List.mem_cons_self
    have hrest := ih fun d hd => h d (List.mem_cons_of_mem _ hd)
    rw [List.flatMap_cons]
    cases hin : inherits impl leaf decl with
    | false => rwa [List.filter_cons_of_neg (by simp [hin]), hno hin]
    | true =>
      obtain ⟨row, hrow, hexp⟩ := hyes hin
      rw [List.filter_cons_of_pos hin, hrow]
      exact .cons hexp hrest

theorem mem_flatMap_expandOne {leaf : ℕ} {transitions : List Transition}
    (h : ∀ decl ∈ transitions, (inherits impl leaf decl = false → expandOne impl leaf decl = []) ∧
      (inherits impl leaf decl = true →
        ∃ row, expandOne impl leaf decl = [row] ∧ Expands impl leaf decl row))
    {row : ExpandedTransition} (hrow : row ∈ transitions.flatMap (expandOne impl leaf)) :
    ∃ decl ∈ transitions, Expands impl leaf decl row := by
  obtain ⟨decl, hdecl, hrow⟩ := List.mem_flatMap.1 hrow
  obtain ⟨hno, hyes⟩ := h decl hdecl
  refine ⟨decl, hdecl, ?_⟩
  cases hin : inherits impl leaf decl with
  | false =>
    rw [hno hin] at hrow
    cases hrow
  | true =>
    obtain ⟨own, hown, hexp⟩ := hyes hin
    rw [hown, List.mem_singleton] at hrow
    exact hrow ▸ hexp

theorem fillRows_length {transitions : List Transition} {rows : List ExpandedTransition} {count : ℕ}
    (hcount : countRows impl transitions = .ok count) (h : fillRows impl transitions = .ok rows) :
    rows.length ≤ maxTransitions := by
  obtain ⟨hle, rfl⟩ := countRows_ok hcount
  obtain ⟨rfl, hall⟩ := fillRows_ok h
  refine le_trans (le_of_eq ?_) hle
  rw [List.length_flatMap]
  congr 1
  refine List.map_congr_left fun leaf hleaf => ?_
  rw [List.length_flatMap]
  congr 1
  refine List.map_congr_left fun decl hdecl => ?_
  obtain ⟨hno, hyes⟩ := hall leaf hleaf decl hdecl
  cases hin : inherits impl leaf decl with
  | false => rw [hno hin]; rfl
  | true =>
    obtain ⟨row, hrow, -⟩ := hyes hin
    rw [hrow]
    rfl

end Fill

/-! ## Sorting and numbering -/

/-- The order of the rows: by source, event, depth from the deepest, and declared priority. -/
def ExpandedTransition.Precedes (a b : ExpandedTransition) : Prop :=
  a.transition.source < b.transition.source ∨ a.transition.source = b.transition.source ∧
    (a.transition.event < b.transition.event ∨ a.transition.event = b.transition.event ∧
      (b.declarationDepth < a.declarationDepth ∨ a.declarationDepth = b.declarationDepth ∧
        a.declarationPriority < b.declarationPriority))

instance : IsTrans ExpandedTransition ExpandedTransition.Precedes where
  trans a b c := by
    unfold ExpandedTransition.Precedes
    omega

theorem precedes_of_isLE {a b : ExpandedTransition} (h : (compareExpandedTransition a b).isLE)
    (hc : b.clashes a = false) : a.Precedes b := by
  unfold ExpandedTransition.Precedes
  simp only [ExpandedTransition.clashes, Bool.and_eq_false_iff, decide_eq_false_iff_not] at hc
  simp only [compareExpandedTransition, deeperFirst, compareLex, compareOn] at h
  rcases Nat.lt_trichotomy a.transition.source b.transition.source with h1 | h1 | h1
  · exact .inl h1
  · rcases Nat.lt_trichotomy a.transition.event b.transition.event with h2 | h2 | h2
    · exact .inr ⟨h1, .inl h2⟩
    · rcases Nat.lt_trichotomy b.declarationDepth a.declarationDepth with h3 | h3 | h3
      · exact .inr ⟨h1, .inr ⟨h2, .inl h3⟩⟩
      · rcases Nat.lt_trichotomy a.declarationPriority b.declarationPriority with h4 | h4 | h4
        · exact .inr ⟨h1, .inr ⟨h2, .inr ⟨h3.symm, h4⟩⟩⟩
        · omega
        · simp [h1, h2, h3, Nat.compare_eq_gt.2 h4] at h
      · simp [h1, h2, Nat.compare_eq_gt.2 h3] at h
    · simp [h1, Nat.compare_eq_gt.2 h2] at h
  · simp [Nat.compare_eq_gt.2 h1] at h

instance : Std.TransCmp deeperFirst :=
  inferInstanceAs (Std.TransCmp fun a b => compareOn ExpandedTransition.declarationDepth b a)

instance : Std.TransCmp compareExpandedTransition := by
  unfold compareExpandedTransition
  infer_instance

def unnumbered (row : ExpandedTransition) : ExpandedTransition :=
  { row with transition := { row.transition with priority := 0 } }

/-- Two rows one after the other: the second one has the next priority of its group, or begins
another group. -/
def Follows (a b : ExpandedTransition) : Prop :=
  a.Precedes b ∧ (a.transition.source = b.transition.source →
    a.transition.event = b.transition.event → a.transition.priority < b.transition.priority)

theorem numberRows_ok : ∀ {previous : Option ExpandedTransition}
    {rows rows' : List ExpandedTransition}, numberRows previous rows = .ok rows' →
    ((previous.toList ++ rows).IsChain fun a b => (compareExpandedTransition a b).isLE) →
    previous.elim 0 (·.transition.priority) + rows.length < 2 ^ 32 →
    rows'.map unnumbered = rows.map unnumbered ∧ (previous.toList ++ rows').IsChain Follows
  | previous, [], rows', h, _, _ => by
    cases h
    cases previous <;> simp
  | previous, row :: rest, rows', h, hs, hlt => by
    rw [numberRows] at h
    split_ifs at h with hclash
    obtain ⟨tail, htail, h⟩ := Fallible.bind_eq_ok.1 h
    cases h
    have hbound : (row.numbered previous).transition.priority + rest.length < 2 ^ 32 ∧
        ∀ p ∈ previous, p.transition.source = row.transition.source →
          p.transition.event = row.transition.event →
            p.transition.priority < (row.numbered previous).transition.priority := by
      rw [List.length_cons] at hlt
      cases previous with
      | none => exact ⟨by simpa [ExpandedTransition.numbered] using Nat.lt_of_succ_lt hlt, by simp⟩
      | some p =>
        simp only [Option.elim_some] at hlt
        have hmod : (p.transition.priority + 1) % 2 ^ 32 = p.transition.priority + 1 :=
          Nat.mod_eq_of_lt (by omega)
        simp only [ExpandedTransition.numbered, Option.elim_some, hmod]
        constructor
        · split_ifs <;> omega
        · rintro q hq hsrc hev
          cases hq
          rw [if_neg (by simp [hsrc, hev])]
          exact Nat.lt_succ_self _
    have hs' : (some (row.numbered previous)).toList ++ rest |>.IsChain
        fun a b => (compareExpandedTransition a b).isLE := by
      have hrow : (row :: rest).IsChain fun a b => (compareExpandedTransition a b).isLE := by
        cases previous with
        | none => exact hs
        | some p => exact (List.isChain_cons_cons.1 hs).2
      cases rest with
      | nil => simp
      | cons next rest => exact List.isChain_cons_cons.2 (List.isChain_cons_cons.1 hrow)
    obtain ⟨hmap, hchain⟩ := numberRows_ok htail hs' hbound.1
    refine ⟨by rw [List.map_cons, List.map_cons, hmap]; rfl, ?_⟩
    cases previous with
    | none => exact hchain
    | some p =>
      refine List.isChain_cons_cons.2 ⟨⟨?_, hbound.2 p rfl⟩, hchain⟩
      exact precedes_of_isLE (List.isChain_cons_cons.1 hs).1 (Bool.not_eq_true _ ▸ hclash)

/-! ## The rows -/

theorem expands_unnumbered {impl : Nodes τ} {leaf : ℕ} {decl : Transition}
    {row : ExpandedTransition} :
    Expands impl leaf decl (unnumbered row) ↔ Expands impl leaf decl row :=
  ⟨fun h => ⟨h.1, h.2, h.3, h.4, h.5, h.6, h.7, h.8, h.9⟩,
    fun h => ⟨h.1, h.2, h.3, h.4, h.5, h.6, h.7, h.8, h.9⟩⟩

def ExpandedTransition.isFor (source event : ℕ) (row : ExpandedTransition) : Bool :=
  row.transition.isFor source event

theorem filter_flatMap {α β : Type} {p : β → Bool} {g : α → List β} {a : α} :
    ∀ {l : List α}, l.Nodup → a ∈ l → (∀ x ∈ l, x ≠ a → (g x).filter p = []) →
      (l.flatMap g).filter p = (g a).filter p
  | [], _, ha, _ => by cases ha
  | x :: l, hn, ha, hg => by
    obtain ⟨hx, hn⟩ := List.nodup_cons.1 hn
    rw [List.flatMap_cons, List.filter_append]
    rcases List.mem_cons.1 ha with rfl | ha
    · have hrest : (l.flatMap g).filter p = [] := by
        rw [List.filter_flatMap, List.flatMap_eq_nil_iff]
        exact fun y hy => hg y (List.mem_cons_of_mem _ hy) fun he => hx (he ▸ hy)
      rw [hrest, List.append_nil]
    · rw [hg x List.mem_cons_self fun he => hx (he ▸ ha), List.nil_append]
      exact filter_flatMap hn ha fun y hy => hg y (List.mem_cons_of_mem _ hy)

theorem forall₂_filter {α β : Type} {r : α → β → Prop} {p : α → Bool} {q : β → Bool}
    (hpq : ∀ a b, r a b → p a = q b) : ∀ {l : List α} {m : List β}, List.Forall₂ r l m →
      List.Forall₂ r (l.filter p) (m.filter q)
  | _, _, .nil => .nil
  | a :: _, b :: _, .cons hab h => by
    have ih := forall₂_filter hpq h
    cases hp : p a with
    | true =>
      rw [List.filter_cons_of_pos hp, List.filter_cons_of_pos (hpq a b hab ▸ hp)]
      exact .cons hab ih
    | false =>
      rw [List.filter_cons_of_neg (by simp [hp]),
        List.filter_cons_of_neg (by simp [← hpq a b hab, hp])]
      exact ih

section Rows

variable {impl : Nodes τ} (hc : Copied impl) {transitions : List Transition}
  {rows : List ExpandedTransition}

theorem mem_leaves {leaf : ℕ} : leaf ∈ leaves impl ↔
    leaf < impl.states.length ∧ impl.initialChild leaf = 0 := by
  simp [leaves]

theorem leaves_nodup : (leaves impl).Nodup := List.nodup_range.filter _


include hc in
/-- Before the sort, the rows of a leaf and event are the leaf's own. -/
theorem fillRows_filter (h : fillRows impl transitions = .ok rows) {leaf : ℕ} (event : ℕ)
    (hleaf : leaf ∈ leaves impl) : List.Forall₂ (Expands impl leaf)
      (transitions.filter fun decl => inherits impl leaf decl && decl.event = event)
      (rows.filter (·.isFor (impl.stateId leaf) event)) := by
  obtain ⟨rfl, hall⟩ := fillRows_ok h
  rw [filter_flatMap leaves_nodup hleaf]
  · have hown := flatMap_expandOne (hall leaf hleaf)
    rw [← List.filter_filter]
    have hand := forall₂_filter (p := fun decl : Transition => decl.event = event)
      (q := (·.isFor (impl.stateId leaf) event)) (fun decl row hrow => by
        simp [ExpandedTransition.isFor, Transition.isFor, hrow.source, hrow.event]) hown
    convert hand using 1
    rw [List.filter_filter, List.filter_filter]
    simp only [Bool.and_comm]
  · intro x hx hne
    rw [List.filter_eq_nil_iff]
    intro row hrow hfor
    obtain ⟨decl, hdecl, hexp⟩ := mem_flatMap_expandOne (hall x hx) hrow
    simp only [ExpandedTransition.isFor, Transition.isFor, Bool.and_eq_true,
      decide_eq_true_eq] at hfor
    refine hne (hc.stateId_inj (mem_leaves.1 hx).1 (mem_leaves.1 hleaf).1 ?_)
    rw [← hexp.source, hfor.1]

theorem mem_fillRows (h : fillRows impl transitions = .ok rows) {row : ExpandedTransition}
    (hrow : row ∈ rows) : ∃ leaf ∈ leaves impl, ∃ decl ∈ transitions,
      Expands impl leaf decl row := by
  have hall := (fillRows_ok h).2
  rw [(fillRows_ok h).1] at hrow
  obtain ⟨leaf, hleaf, hrow⟩ := List.mem_flatMap.1 hrow
  have hexp : ∃ decl ∈ transitions, Expands impl leaf decl row :=
    mem_flatMap_expandOne (hall leaf hleaf) hrow
  exact ⟨leaf, hleaf, hexp⟩

end Rows

structure Expanded (impl : Nodes τ) (transitions : List Transition)
    (rows : List ExpandedTransition) : Prop where
  /-- They are sorted, and numbered within each source and event. -/
  follows : rows.IsChain Follows
  /-- Every row is that of a leaf. -/
  ofLeaf : ∀ row ∈ rows, ∃ leaf ∈ leaves impl, ∃ decl ∈ transitions, Expands impl leaf decl row
  /-- The rows of a leaf and event are the transitions the leaf has for the event. -/
  own : ∀ leaf ∈ leaves impl, ∀ event, ∃ declared : List Transition,
    declared.Perm (transitions.filter fun decl => inherits impl leaf decl && decl.event = event) ∧
      List.Forall₂ (Expands impl leaf) declared (rows.filter (·.isFor (impl.stateId leaf) event))

theorem expandTransitions_ok {impl : Nodes τ} (hc : Copied impl) {transitions : List Transition}
    {rows : List ExpandedTransition} (h : expandTransitions impl transitions = .ok rows) :
    Expanded impl transitions rows := by
  obtain ⟨count, hcount, h⟩ := Fallible.bind_eq_ok.1 h
  obtain ⟨filled, hfill, h⟩ := Fallible.bind_eq_ok.1 h
  have hperm := BinarySearch.sortBy_perm compareExpandedTransition filled
  have hlen : filled.length < 2 ^ 32 :=
    (fillRows_length hcount hfill).trans_lt (by decide)
  obtain ⟨hmap, hchain⟩ := numberRows_ok h
    (BinarySearch.sortBy_pairwise compareExpandedTransition filled).isChain
    (by simpa [hperm.length_eq] using hlen)
  have hmapped : (rows.map unnumbered).Perm (filled.map unnumbered) := hmap ▸ hperm.map unnumbered
  refine ⟨hchain, ?_, ?_⟩
  · intro row hrow
    obtain ⟨row', hrow', he⟩ := List.mem_map.1
      (hmapped.mem_iff.1 (List.mem_map_of_mem (f := unnumbered) hrow))
    obtain ⟨leaf, hleaf, decl, hdecl, hexp⟩ := mem_fillRows hfill hrow'
    refine ⟨leaf, hleaf, decl, hdecl, ?_⟩
    rw [← expands_unnumbered, ← he, expands_unnumbered]
    exact hexp
  · intro leaf hleaf event
    have hown := fillRows_filter hc hfill event hleaf
    have hfilter : ((rows.filter (·.isFor (impl.stateId leaf) event)).map unnumbered).Perm
        ((filled.filter (·.isFor (impl.stateId leaf) event)).map unnumbered) := by
      have hcomm : ∀ l : List ExpandedTransition,
          (l.filter (·.isFor (impl.stateId leaf) event)).map unnumbered =
            (l.map unnumbered).filter (·.isFor (impl.stateId leaf) event) := fun l => by
        rw [List.filter_map]
        rfl
      rw [hcomm, hcomm]
      exact hmapped.filter _
    have hexp : List.Forall₂ (fun row decl => Expands impl leaf decl row)
        ((filled.filter (·.isFor (impl.stateId leaf) event)).map unnumbered)
        (transitions.filter fun decl => inherits impl leaf decl && decl.event = event) := by
      rw [List.forall₂_map_left_iff]
      exact hown.flip.imp fun _ _ he => expands_unnumbered.2 he
    obtain ⟨declared, hfor, hdeclared⟩ := List.perm_comp_forall₂ hfilter hexp
    refine ⟨declared, hdeclared, ?_⟩
    rw [List.forall₂_map_left_iff] at hfor
    exact hfor.flip.imp fun _ _ he => expands_unnumbered.1 he

end Cflow.Machine
