import TurboUtils.Lib.Segments
import TurboUtils.Cflow.Machine.HierarchyRows

/-! What `build_routes` writes: for every row the nodes between its ends and their lowest common
ancestor, each row's in its own part of one array. -/
namespace Cflow.Machine

variable {τ : Type}

open RootedTree

/-! ## The lowest common ancestor -/

section Lca

variable {impl : Nodes τ} (hl : Leveled impl.parent impl.depth)
include hl

/-- Raising a node to the depth of another keeps what is above both. -/
theorem raiseTo_spec (other : ℕ) : ∀ (fuel node : ℕ), impl.depth node ≤ impl.depth other + fuel →
    impl.depth (raiseTo impl (impl.depth other) fuel node) =
        min (impl.depth node) (impl.depth other) ∧
      (∀ c, Ancestor impl.parent c node → Ancestor impl.parent c other →
        Ancestor impl.parent c (raiseTo impl (impl.depth other) fuel node)) ∧
      ∀ c, IsLowestCommon impl.parent (raiseTo impl (impl.depth other) fuel node) other c →
        IsLowestCommon impl.parent node other c
  | 0, node, hf => ⟨by rw [raiseTo]; omega, fun _ h _ => h, fun _ h => h⟩
  | fuel + 1, node, hf => by
    rw [raiseTo]
    split_ifs with hd
    · cases hp : impl.parent node with
      | none =>
        have := hl.root node hp
        omega
      | some p =>
        have hdp := hl.child node p hp
        obtain ⟨hdepth, habove, hlca⟩ := raiseTo_spec other fuel p (by omega)
        refine ⟨?_, ?_, fun c h => (hlca c h).of_parent_left hl hp hd⟩
        · rw [Option.getD_some, hdepth]
          omega
        · intro c hc ho
          exact habove c ((ancestor_up hp ((ho.depth_le hl).trans_lt hd)).1 hc) ho
    · exact ⟨by omega, fun _ h _ => h, fun _ h => h⟩

theorem raiseBoth_spec {source target c fuel : ℕ} (hd : impl.depth source = impl.depth target)
    (hf : impl.depth source ≤ fuel) (hcs : Ancestor impl.parent c source)
    (hct : Ancestor impl.parent c target) :
    IsLowestCommon impl.parent source target (raiseBoth impl fuel source target) := by
  induction fuel generalizing source target with
  | zero =>
    have heq : source = target := by
      by_contra hne
      obtain ⟨s, _, hs, -⟩ := exists_parents hl hne hd hcs hct
      have := hl.child source s hs
      omega
    subst heq
    exact .self source
  | succ fuel ih =>
    rw [raiseBoth]
    split_ifs with heq
    · subst heq
      exact .self source
    · obtain ⟨s, t, hs, ht, hcs', hct'⟩ := exists_parents hl heq hd hcs hct
      have hds := hl.child source s hs
      have hdt := hl.child target t ht
      rw [hs, ht]
      exact (ih (by omega) (by omega) hcs' hct').of_parents hl heq hd hs ht

end Lca

theorem leastCommonAncestor_spec {impl : Nodes τ} (ht : Tree impl) {source target : ℕ}
    (hs : source < impl.states.length) (htarget : target < impl.states.length) :
    IsLowestCommon impl.parent source target (leastCommonAncestor impl source target) := by
  have hl := ht.leveled
  have hds := ht.depth_lt hs
  have hdt := ht.depth_lt htarget
  obtain ⟨root, -, -, hall⟩ := ht.exists_root
  obtain ⟨hd1, habove1, hup1⟩ := raiseTo_spec hl target impl.states.length source (by omega)
  obtain ⟨hd2, habove2, hup2⟩ := raiseTo_spec hl
    (raiseTo impl (impl.depth target) impl.states.length source) impl.states.length target
    (by omega)
  have hroot1 := habove1 root (hall source hs) (hall target htarget)
  have hroot2 := habove2 root (hall target htarget) hroot1
  exact hup1 _ (hup2 _ (raiseBoth_spec hl (by omega) (by omega) hroot1 hroot2).symm).symm

/-! ## The paths -/

section Paths

open Segments

variable {impl : Nodes τ} (hl : Leveled impl.parent impl.depth)
include hl

theorem writeExits_spec {lca node : ℕ} {path : List ℕ} (h : Climb impl.parent node path lca) :
    ∀ (fuel cursor count : ℕ) (states : List ℕ), path.length ≤ fuel →
      cursor + path.length ≤ states.length →
      writeExits impl lca fuel node cursor count states =
        (cursor + path.length, count + path.length,
          overwrite states cursor (path.map impl.stateId)) := by
  induction h with
  | here node =>
    intro fuel cursor count states _ _
    cases fuel <;> simp [writeExits]
  | @up node p lca path hp h ih =>
    intro fuel cursor count states hf hlen
    have hne : node ≠ lca := fun he => by
      have h1 := h.depth_eq hl
      have h2 := hl.child node p hp
      rw [he] at h2
      omega
    rw [List.length_cons] at hf hlen
    obtain ⟨fuel, rfl⟩ : ∃ k, fuel = k + 1 := ⟨fuel - 1, by omega⟩
    rw [writeExits, if_neg hne, hp, Option.getD_some,
      ih _ _ _ _ (by omega) (by rw [List.length_set]; omega),
      overwrite_set_cons (by rw [List.length_cons, List.length_map]; omega), List.map_cons,
      List.length_cons]
    congr 1
    · omega
    · congr 1
      omega

theorem writeEntries_spec {lca node : ℕ} {path : List ℕ} (h : Climb impl.parent node path lca) :
    ∀ (fuel start : ℕ) (states : List ℕ), path.length ≤ fuel →
      start + path.length ≤ states.length →
      writeEntries impl lca fuel node (start + path.length) states =
        overwrite states start (path.map impl.stateId).reverse := by
  induction h with
  | here node =>
    intro fuel start states _ _
    cases fuel <;> simp [writeEntries]
  | @up node p lca path hp h ih =>
    intro fuel start states hf hlen
    have hne : node ≠ lca := fun he => by
      have h1 := h.depth_eq hl
      have h2 := hl.child node p hp
      rw [he] at h2
      omega
    rw [List.length_cons] at hf hlen
    obtain ⟨fuel, rfl⟩ : ∃ k, fuel = k + 1 := ⟨fuel - 1, by omega⟩
    rw [writeEntries, if_neg hne, hp, Option.getD_some, List.length_cons,
      show start + (path.length + 1) - 1 = start + path.length by omega,
      ih _ _ _ (by omega) (by rw [List.length_set]; omega), List.map_cons, List.reverse_cons]
    have hset := @overwrite_set_snoc _ states (path.map impl.stateId).reverse start
      (impl.stateId node) (by rw [List.length_reverse, List.length_map]; omega)
    rwa [List.length_reverse, List.length_map] at hset

end Paths

/-! ## The routes -/

/-- The two segments of a route are the nodes between the ends of its row and their lowest common
ancestor: those to leave from the inside out, those to enter from the outside in. -/
structure Describes (impl : Nodes τ) (states : List ℕ) (row : ExpandedTransition)
    (route : RouteRecord) (lca : ℕ) (exits entries : List ℕ) : Prop where
  lowest : IsLowestCommon impl.parent row.sourceIndex row.targetIndex lca
  climbOut : Climb impl.parent row.sourceIndex exits lca
  climbIn : Climb impl.parent row.targetIndex entries lca
  exitStates : Segments.segment states route.exitOffset route.exitCount =
    exits.map impl.stateId
  entryStates : Segments.segment states route.entryOffset route.entryCount =
    (entries.map impl.stateId).reverse

/-- What `countRoute` adds for a row. -/
def routeLength (impl : Nodes τ) (row : ExpandedTransition) : ℕ :=
  let lca := leastCommonAncestor impl row.sourceIndex row.targetIndex
  (impl.depth row.sourceIndex - impl.depth lca) + (impl.depth row.targetIndex - impl.depth lca)

section Routes

variable {impl : Nodes τ} (ht : Tree impl)

theorem countRoute_ok {total total' : ℕ} {row : ExpandedTransition}
    (h : countRoute impl total row = .ok total') : total' = total + routeLength impl row := by
  simp only [countRoute] at h
  split_ifs at h
  cases h
  rfl

include ht

/-- One row: its paths are written from the cursor on, and what lies before it stays. -/
theorem writeRoute_spec {row : ExpandedTransition} (hs : row.sourceIndex < impl.states.length)
    (htarget : row.targetIndex < impl.states.length) {start : ℕ} {states : List ℕ}
    (routes : List RouteRecord) (hlen : start + routeLength impl row ≤ states.length) :
    ∃ states' route, writeRoute impl (start, states, routes) row =
        (start + routeLength impl row, states', routes ++ [route]) ∧
      states'.length = states.length ∧ states'.take start = states.take start ∧
      ∀ final : List ℕ, final.take (start + routeLength impl row) =
          states'.take (start + routeLength impl row) →
        ∃ lca exits entries, Describes impl final row route lca exits entries := by
  have hl := ht.leveled
  have hlca := leastCommonAncestor_spec ht hs htarget
  obtain ⟨exits, hexits⟩ := hlca.left
  obtain ⟨entries, hentries⟩ := hlca.right
  have hex := hexits.depth_eq hl
  have hen := hentries.depth_eq hl
  have hds := ht.depth_lt hs
  have hdt := ht.depth_lt htarget
  have hroute : routeLength impl row = exits.length + entries.length := by
    simp only [routeLength]
    omega
  have hlenx : (exits.map impl.stateId).length = exits.length := List.length_map _
  have hlene : (entries.map impl.stateId).reverse.length = entries.length := by
    rw [List.length_reverse, List.length_map]
  have hmid : (Segments.overwrite states start (exits.map impl.stateId)).length = states.length :=
    Segments.length_overwrite (by omega)
  have hcount : impl.depth row.targetIndex -
      impl.depth (leastCommonAncestor impl row.sourceIndex row.targetIndex) = entries.length := by
    omega
  have take_second : ∀ states' : List ℕ, states'.length = states.length →
      (Segments.overwrite states' (start + exits.length)
        (entries.map impl.stateId).reverse).take (start + exits.length) =
          states'.take (start + exits.length) :=
    fun states' h => Segments.take_overwrite (by omega)
  have hsecond := take_second _ hmid
  refine ⟨Segments.overwrite (Segments.overwrite states start (exits.map impl.stateId))
    (start + exits.length) (entries.map impl.stateId).reverse,
    ⟨start, exits.length, start + exits.length, entries.length⟩, ?_, ?_, ?_, ?_⟩
  · simp only [writeRoute]
    rw [writeExits_spec hl hexits _ _ _ _ (by omega) (by omega)]
    simp only [hcount]
    rw [writeEntries_spec hl hentries _ _ _ (by omega) (by omega), hroute, Nat.zero_add,
      Nat.add_assoc]
  · rw [Segments.length_overwrite (by omega), hmid]
  · have h := congrArg (List.take start) hsecond
    rwa [List.take_take, List.take_take, min_eq_left (Nat.le_add_right _ _),
      Segments.take_overwrite (by omega)] at h
  · intro final hfinal
    rw [hroute] at hfinal
    refine ⟨_, exits, entries, hlca, hexits, hentries, ?_, ?_⟩
    · change Segments.segment final start exits.length = _
      rw [Segments.segment_congr (by omega) hfinal, Segments.segment_congr le_rfl hsecond,
        ← hlenx, Segments.segment_overwrite (by omega)]
    · change Segments.segment final (start + exits.length) entries.length = _
      rw [Segments.segment_congr (by omega) hfinal, ← hlene, Segments.segment_overwrite (by omega)]

theorem writeRoutes_spec : ∀ {rows : List ExpandedTransition} {start : ℕ} {states : List ℕ}
    (routes : List RouteRecord), (∀ row ∈ rows, row.sourceIndex < impl.states.length ∧
      row.targetIndex < impl.states.length) →
    start + (rows.map (routeLength impl)).sum ≤ states.length →
    ∃ start' states' new, rows.foldl (writeRoute impl) (start, states, routes) =
        (start', states', routes ++ new) ∧
      states'.take start = states.take start ∧
      List.Forall₂ (fun row route => ∃ lca exits entries,
        Describes impl states' row route lca exits entries) rows new
  | [], start, states, routes, _, _ => ⟨start, states, [], by simp, rfl, .nil⟩
  | row :: rows, start, states, routes, hrows, hlen => by
    rw [List.map_cons, List.sum_cons] at hlen
    obtain ⟨hs, htarget⟩ := hrows row List.mem_cons_self
    obtain ⟨states₁, route, hrun, hlen₁, htake₁, hdesc⟩ :=
      writeRoute_spec ht hs htarget routes (show start + routeLength impl row ≤
        states.length by omega)
    obtain ⟨start', states', new, hrest, htake, hall⟩ :=
      writeRoutes_spec (routes ++ [route]) (fun r hr => hrows r (List.mem_cons_of_mem _ hr))
        (show start + routeLength impl row + (rows.map (routeLength impl)).sum ≤ states₁.length by
          omega)
    refine ⟨start', states', route :: new, ?_, ?_, .cons (hdesc states' htake) hall⟩
    · rw [List.foldl_cons, hrun, hrest, List.append_assoc, List.singleton_append]
    · have h := congrArg (List.take start) htake
      rw [List.take_take, List.take_take, min_eq_left (Nat.le_add_right _ _)] at h
      rw [h, htake₁]

theorem buildRoutes_ok {rows : List ExpandedTransition} {routes : List RouteRecord}
    {states : List ℕ} (hrows : ∀ row ∈ rows, row.sourceIndex < impl.states.length ∧
      row.targetIndex < impl.states.length) (h : buildRoutes impl rows = .ok (routes, states)) :
    List.Forall₂ (fun row route => ∃ lca exits entries,
      Describes impl states row route lca exits entries) rows routes := by
  obtain ⟨total, htotal, h⟩ := Fallible.bind_eq_ok.1 h
  have hsum : total = 0 + (rows.map (routeLength impl)).sum :=
    Fallible.foldlM_add (fun _ _ _ hr => countRoute_ok hr) htotal
  split_ifs at h
  obtain ⟨start', states', new, hrun, -, hall⟩ := writeRoutes_spec ht [] hrows
    (show 0 + (rows.map (routeLength impl)).sum ≤ (List.replicate total 0).length by
      rw [List.length_replicate, hsum])
  rw [hrun] at h
  cases h
  exact hall

end Routes

end Cflow.Machine
