import TurboUtils.Utils.AcAutomaton

/-! What adding patterns and building leave in the automata: each node stands for one word, its outputs are
the patterns that are this word, and behind a build its link leads to the longest proper suffix. -/
namespace AcAutomaton
open SuffixLinks

/-! ## The two tries -/

section Nodes

variable {N β : Type} {nodes : List N}

theorem bind_modify (nodes : List N) (i : ℕ) (f : N → N) (g : N → Option β) (k : ℕ) :
    ((nodes.modify i f)[k]?).bind g =
      if k = i then nodes[k]?.bind fun node => g (f node) else nodes[k]?.bind g := by
  by_cases h : k = i
  · subst h
    rw [if_pos rfl, List.getElem?_modify_eq]
    cases nodes[k]? <;> rfl
  · rw [if_neg h, List.getElem?_modify_ne f nodes (Ne.symm h)]

theorem bind_append (nodes : List N) (new : N) (g : N → Option β) (k : ℕ) :
    ((nodes ++ [new])[k]?).bind g = if k = nodes.length then g new else nodes[k]?.bind g := by
  split_ifs with h
  · rw [h, List.getElem?_concat_length]
    rfl
  · rcases Nat.lt_or_gt_of_ne h with hlt | hgt
    · rw [List.getElem?_append_left hlt]
    · rw [List.getElem?_eq_none hgt.le, List.getElem?_eq_none]
      rw [List.length_append, List.length_singleton]
      exact hgt

theorem bind_grown {i : ℕ} (hi : i < nodes.length) (new : N) (f : N → N) (g : N → Option β) (k : ℕ) :
    (((nodes ++ [new]).modify i f)[k]?).bind g =
      if k = i then nodes[k]?.bind fun node => g (f node)
      else if k = nodes.length then g new else nodes[k]?.bind g := by
  rw [bind_modify, bind_append, bind_append]
  split_ifs with hki hkn
  · exact absurd (hki ▸ hkn : i = nodes.length) (Nat.ne_of_lt hi)
  all_goals rfl

theorem bind_length (nodes : List N) (g : N → Option β) : nodes[nodes.length]?.bind g = none := by
  rw [List.getElem?_eq_none (Nat.le_refl _)]
  rfl

end Nodes

section ByteTrie

variable {nodes nodes' : List ByteNode} {memory : Memory} {i j k : ℕ} {ch : UInt8}

theorem mem_allBytes (ch : UInt8) : ch ∈ allBytes :=
  List.mem_map.2 ⟨ch.toNat, List.mem_range.2 ch.toNat_lt, UInt8.ofNat_toNat⟩

theorem mem_byteEdges :
    (ch, j) ∈ byteStore.edges nodes i ↔ byteStore.child nodes i ch = some j := by
  unfold byteStore
  rw [List.mem_filterMap]
  constructor
  · rintro ⟨b, -, hb⟩
    obtain ⟨child, hchild, heq⟩ := Option.map_eq_some_iff.1 hb
    obtain ⟨rfl, rfl⟩ := Prod.mk.inj heq
    exact hchild
  · exact fun h => ⟨ch, mem_allBytes ch, Option.map_eq_some_iff.2 ⟨j, h, rfl⟩⟩

theorem byteStore_lawful : byteStore.Lawful := by
  have hchild : ∀ nodes i j, byteStore.child (byteStore.setLink nodes i j) = byteStore.child nodes := by
    intro nodes i j
    funext k ch
    refine (bind_modify nodes i _ _ k).trans ?_
    split_ifs <;> rfl
  refine ⟨fun nodes i j => List.length_modify _ _ _, hchild, fun nodes i j => ?_, fun nodes i j => ?_,
    fun nodes i j k hi => ?_⟩
  · funext k
    have hfun := fun ch => congrFun (congrFun (hchild nodes i j) k) ch
    exact congrArg (fun edge : UInt8 → Option (UInt8 × ℕ) => allBytes.filterMap edge)
      (funext fun ch => congrArg (Option.map fun child => (ch, child)) (hfun ch))
  · funext k
    refine (bind_modify nodes i _ _ k).trans ?_
    split_ifs <;> rfl
  · refine (bind_modify nodes i _ _ k).trans ?_
    split_ifs with hki
    · have hlt : k < nodes.length := hki ▸ hi
      rw [List.getElem?_eq_getElem hlt]
      rfl
    · rfl

/-- A byte is added: a node is appended where there is none and a push is granted. -/
theorem addByte_adds (memory : Memory) :
    Adds byteStore (addByte memory) (fun _ => True) fun nodes => pushes memory.nodes nodes.length := by
  refine ⟨fun nodes i ch j _ _ h => ?_, fun nodes i ch _ hi hmissing hgrows => ?_,
    fun nodes i ch _ _ hmissing hgrows => ?_⟩
  · rw [addByte, h]
  · replace hi : i < nodes.length := hi
    have hchild : ∀ k d j, byteStore.child ((nodes ++ [newByteNode]).modify i fun node =>
        { node with next := Function.update node.next ch (some nodes.length) }) k d = some j ↔
        (k = i ∧ d = ch ∧ j = nodes.length) ∨ byteStore.child nodes k d = some j := by
      intro k d j
      have hk := bind_grown hi newByteNode (fun node : ByteNode =>
        { node with next := Function.update node.next ch (some nodes.length) }) (fun node => node.next d) k
      unfold byteStore
      dsimp only
      rw [hk]
      split_ifs with hki hkn
      · rw [hki, List.getElem?_eq_getElem hi]
        dsimp only [Option.bind_some]
        by_cases hd : d = ch
        · subst hd
          have hnone : (nodes[i].next d) = none := by
            have hbind : (nodes[i]?.bind fun node => node.next d) = none := hmissing
            rwa [List.getElem?_eq_getElem hi] at hbind
          rw [Function.update_self, hnone]
          constructor
          · intro h
            exact Or.inl ⟨rfl, rfl, (Option.some.inj h).symm⟩
          · rintro (⟨-, -, rfl⟩ | h)
            · rfl
            · cases h
        · rw [Function.update_of_ne hd]
          exact (or_iff_right fun h => hd h.2.1).symm
      · rw [hkn, bind_length]
        exact iff_of_false nofun fun h => h.elim (fun h => hki (hkn.trans h.1)) nofun
      · exact (or_iff_right fun h => hki h.1).symm
    refine ⟨_, by rw [addByte, hmissing]; exact if_pos hgrows, ⟨?_, hchild, fun k d j => ?_,
      fun k hk => ?_, fun k hk => ?_, fun d => ?_, ?_, ?_⟩, trivial⟩
    · exact (List.length_modify _ _ _).trans List.length_append
    · rw [mem_byteEdges, mem_byteEdges]
      exact hchild k d j
    · refine (bind_grown hi _ _ ByteNode.fail k).trans ?_
      rw [@if_neg (k = nodes.length) _ (Nat.ne_of_lt hk)]
      split_ifs <;> rfl
    · refine (bind_grown hi _ _ ByteNode.outputs k).trans ?_
      rw [@if_neg (k = nodes.length) _ (Nat.ne_of_lt hk)]
      split_ifs <;> rfl
    · have hnone : byteStore.child nodes nodes.length d = none := bind_length nodes _
      refine ⟨hnone, fun j hj => ?_⟩
      cases hnone.symm.trans (mem_byteEdges.1 hj)
    · refine (bind_grown hi _ _ ByteNode.fail nodes.length).trans ?_
      rw [if_neg (Nat.ne_of_gt hi), if_pos rfl]
      rfl
    · refine (bind_grown hi _ _ ByteNode.outputs nodes.length).trans ?_
      rw [if_neg (Nat.ne_of_gt hi), if_pos rfl]
      rfl
  · rw [addByte, hmissing]
    exact ⟨nodes, if_neg (by rw [hgrows]; decide), Idle.refl byteStore nodes, trivial⟩

end ByteTrie

section Utf8Tries

variable {edges : List Utf8Edge} {trie : Utf8Trie} {memory : Memory} {start : Option ℕ} {i k : ℕ}
  {cp : UInt32}

/-- Edges lead to older ones. -/
def Descends (edges : List Utf8Edge) : Prop :=
  ∀ (k : ℕ) (edge : Utf8Edge) (m : ℕ), edges[k]? = some edge → edge.nextEdge = some m → m < k

/-- Edges lead to older ones, and a node has an edge that is there. -/
structure Wellformed (trie : Utf8Trie) : Prop where
  descends : Descends trie.edges
  first : ∀ i m : ℕ, trie.nodes[i]?.bind Utf8Node.firstEdge = some m → m < trie.edges.length

theorem findChild_eq (edges : List Utf8Edge) (cp : UInt32) (fuel : ℕ) (start : Option ℕ) :
    findChild edges cp fuel start =
      ((edgeList edges fuel start).find? fun edge => edge.1 = cp).map Prod.snd := by
  induction fuel generalizing start with
  | zero => cases start <;> rfl
  | succ fuel ih =>
    cases start with
    | none => rfl
    | some k =>
      rw [findChild, edgeList]
      cases edges[k]? with
      | none => rfl
      | some edge =>
        dsimp only
        split_ifs with h
        · rw [List.find?_cons, decide_eq_true h]
          rfl
        · rw [List.find?_cons, decide_eq_false h]
          exact ih edge.nextEdge

/-- Later edges and more rounds do not change a list of edges. -/
theorem edgeList_append (h : Descends edges) (more : List Utf8Edge) {fuel fuel' : ℕ}
    (hstart : ∀ k, start = some k → k < edges.length ∧ k < fuel ∧ k < fuel') :
    edgeList (edges ++ more) fuel' start = edgeList edges fuel start := by
  induction fuel generalizing start fuel' with
  | zero =>
    cases start with
    | none => cases fuel' <;> rfl
    | some k => exact absurd (hstart k rfl).2.1 (Nat.not_lt_zero k)
  | succ fuel ih =>
    cases start with
    | none => cases fuel' <;> rfl
    | some k =>
      obtain ⟨hlt, hk, hk'⟩ := hstart k rfl
      obtain ⟨n, rfl⟩ : ∃ n, fuel' = n + 1 := ⟨fuel' - 1, by omega⟩
      rw [edgeList, edgeList, List.getElem?_append_left hlt]
      cases hedge : edges[k]? with
      | none => rfl
      | some edge =>
        dsimp only
        rw [@ih edge.nextEdge n fun m hm => ?_]
        have hless := h k edge m hedge hm
        omega

variable {edge : Utf8Edge} {trie' : Utf8Trie}

theorem utf8Edges_grown (h : Wellformed trie) (hi : i < trie.nodes.length)
    (hedge : edge = ⟨trie.nodes.length, cp, trie.nodes[i]?.bind Utf8Node.firstEdge⟩)
    (htrie : trie' = ⟨(trie.nodes ++ [newUtf8Node]).modify i
      fun node => { node with firstEdge := some trie.edges.length }, trie.edges ++ [edge]⟩) (k : ℕ) :
    utf8Store.edges trie' k =
      if k = i then (cp, trie.nodes.length) :: utf8Store.edges trie k
      else if k = trie.nodes.length then [] else utf8Store.edges trie k := by
  have hfirst := bind_grown hi newUtf8Node
    (fun node => { node with firstEdge := some trie.edges.length }) Utf8Node.firstEdge k
  have hstart : ∀ k m : ℕ, trie.nodes[k]?.bind Utf8Node.firstEdge = some m →
      m < trie.edges.length ∧ m < trie.edges.length ∧ m < trie.edges.length + 1 := fun k m hm =>
    ⟨h.first k m hm, h.first k m hm, Nat.lt_succ_of_lt (h.first k m hm)⟩
  subst htrie
  unfold utf8Store
  dsimp only
  rw [hfirst, List.length_append, List.length_singleton]
  split_ifs with hki hkn
  · rw [hki, List.getElem?_eq_getElem hi, Option.bind_some, edgeList, List.getElem?_concat_length]
    dsimp only
    rw [hedge]
    dsimp only
    rw [edgeList_append h.descends _ fun m hm =>
      ⟨(hstart i m hm).1, (hstart i m hm).1, (hstart i m hm).1⟩, List.getElem?_eq_getElem hi]
  · rfl
  · exact edgeList_append h.descends _ (hstart k)

theorem utf8Edges_length (trie : Utf8Trie) : utf8Store.edges trie trie.nodes.length = [] := by
  unfold utf8Store
  dsimp only
  rw [bind_length]
  cases trie.edges.length <;> rfl

theorem utf8Child_eq (trie : Utf8Trie) (k : ℕ) (cp : UInt32) : utf8Store.child trie k cp =
    ((utf8Store.edges trie k).find? fun edge => edge.1 = cp).map Prod.snd :=
  findChild_eq _ _ _ _

theorem utf8Child_grown (h : Wellformed trie) (hi : i < trie.nodes.length)
    (hedge : edge = ⟨trie.nodes.length, cp, trie.nodes[i]?.bind Utf8Node.firstEdge⟩)
    (htrie : trie' = ⟨(trie.nodes ++ [newUtf8Node]).modify i
      fun node => { node with firstEdge := some trie.edges.length }, trie.edges ++ [edge]⟩)
    (hmissing : utf8Store.child trie i cp = none) (k : ℕ) (d : UInt32) (j : ℕ) :
    utf8Store.child trie' k d = some j ↔
      (k = i ∧ d = cp ∧ j = trie.nodes.length) ∨ utf8Store.child trie k d = some j := by
  rw [utf8Child_eq, utf8Edges_grown h hi hedge htrie]
  split_ifs with hki hkn
  · rw [List.find?_cons]
    by_cases hd : cp = d
    · rw [hki, ← hd, hmissing, decide_eq_true rfl]
      constructor
      · exact fun hj => Or.inl ⟨rfl, rfl, (Option.some.inj hj).symm⟩
      · rintro (⟨-, -, rfl⟩ | hj)
        · rfl
        · cases hj
    · rw [decide_eq_false hd, utf8Child_eq]
      exact (or_iff_right fun hj => hd hj.2.1.symm).symm
  · have hnone : utf8Store.child trie trie.nodes.length d = none := by
      rw [utf8Child_eq, utf8Edges_length]
      rfl
    rw [hkn, hnone]
    exact iff_of_false nofun fun hj => hj.elim (fun hj => hki (hkn.trans hj.1)) nofun
  · rw [utf8Child_eq]
    exact (or_iff_right fun hj => hki hj.1).symm

/-- A code point is added: a node and an edge are appended where there is no child and both pushes are
granted. -/
theorem addChild_adds (memory : Memory) : Adds utf8Store (addChild memory) Wellformed fun trie =>
    pushes memory.nodes trie.nodes.length && pushes memory.edges trie.edges.length := by
  refine ⟨fun trie i cp j _ _ h => ?_, fun trie i cp hgood hi hmissing hgrows => ?_,
    fun trie i cp hgood hi hmissing hgrows => ?_⟩
  · rw [addChild, h]
  · obtain ⟨hnodes, hedges⟩ := Bool.and_eq_true_iff.1 hgrows
    replace hi : i < trie.nodes.length := hi
    obtain ⟨edge, hedge⟩ : ∃ edge : Utf8Edge, edge =
      ⟨trie.nodes.length, cp, trie.nodes[i]?.bind Utf8Node.firstEdge⟩ := ⟨_, rfl⟩
    obtain ⟨trie', htrie⟩ : ∃ trie' : Utf8Trie, trie' = ⟨(trie.nodes ++ [newUtf8Node]).modify i
      fun node => { node with firstEdge := some trie.edges.length }, trie.edges ++ [edge]⟩ := ⟨_, rfl⟩
    have hadd : addChild memory trie i cp = (some trie.nodes.length, trie') := by
      rw [addChild, hmissing, htrie, hedge]
      dsimp only
      rw [if_pos hnodes, if_pos hedges]
    have hlist := utf8Edges_grown hgood hi hedge htrie
    have hchild := utf8Child_grown hgood hi hedge htrie hmissing
    have hread : ∀ {β : Type} (g : Utf8Node → Option β) (k : ℕ), trie'.nodes[k]?.bind g =
        if k = i then trie.nodes[k]?.bind fun node =>
          g { node with firstEdge := some trie.edges.length }
        else if k = trie.nodes.length then g newUtf8Node else trie.nodes[k]?.bind g := by
      intro β g k
      rw [htrie]
      exact bind_grown hi newUtf8Node _ g k
    have hlength : trie'.nodes.length = trie.nodes.length + 1 := by
      rw [htrie]
      exact (List.length_modify _ _ _).trans List.length_append
    refine ⟨trie', hadd, ⟨hlength, hchild, fun k d j => ?_, fun k hk => ?_, fun k hk => ?_, fun d => ?_,
      ?_, ?_⟩, ⟨fun k e m hk hm => ?_, fun k m hm => ?_⟩⟩
    · rw [hlist]
      split_ifs with hki hkn
      · rw [List.mem_cons, Prod.mk.injEq]
        exact or_congr_left ⟨fun h => ⟨hki, h⟩, fun h => h.2⟩
      · rw [hkn, utf8Edges_length]
        exact iff_of_false List.not_mem_nil fun h => h.elim (fun h => hki (hkn.trans h.1))
          List.not_mem_nil
      · exact (or_iff_right fun h => hki h.1).symm
    · refine (hread Utf8Node.fail k).trans ?_
      rw [@if_neg (k = trie.nodes.length) _ (Nat.ne_of_lt hk)]
      split_ifs <;> rfl
    · refine (hread Utf8Node.outputs k).trans ?_
      rw [@if_neg (k = trie.nodes.length) _ (Nat.ne_of_lt hk)]
      split_ifs <;> rfl
    · have hempty : utf8Store.edges trie (utf8Store.size trie) = [] := utf8Edges_length trie
      refine ⟨?_, fun j hj => ?_⟩
      · rw [utf8Child_eq, hempty]
        rfl
      · rw [hempty] at hj
        exact List.not_mem_nil hj
    · refine (hread Utf8Node.fail trie.nodes.length).trans ?_
      rw [if_neg (Nat.ne_of_gt hi), if_pos rfl]
      rfl
    · refine (hread Utf8Node.outputs trie.nodes.length).trans ?_
      rw [if_neg (Nat.ne_of_gt hi), if_pos rfl]
      rfl
    · rw [htrie] at hk
      rcases Nat.lt_trichotomy k trie.edges.length with hlt | rfl | hgt
      · rw [List.getElem?_append_left hlt] at hk
        exact hgood.descends k e m hk hm
      · rw [List.getElem?_concat_length] at hk
        obtain rfl := Option.some.inj hk
        rw [hedge] at hm
        exact hgood.first i m hm
      · rw [List.getElem?_eq_none] at hk
        · cases hk
        · rw [List.length_append, List.length_singleton]
          exact hgt
    · rw [hread] at hm
      have hedges' : trie'.edges.length = trie.edges.length + 1 := by
        rw [htrie]
        exact List.length_append
      rw [hedges']
      split_ifs at hm with hki hkn
      · rw [hki, List.getElem?_eq_getElem hi] at hm
        obtain rfl := Option.some.inj hm
        exact Nat.lt_succ_self _
      · cases hm
      · exact Nat.lt_succ_of_lt (hgood.first k m hm)
  · rw [addChild, hmissing]
    dsimp only
    split_ifs with hnodes hedges
    · rw [hnodes, hedges] at hgrows
      cases hgrows
    · -- The node is there, but nothing leads to it.
      have hread : ∀ {β : Type} (g : Utf8Node → Option β), ∀ k < trie.nodes.length,
          (trie.nodes ++ [newUtf8Node])[k]?.bind g = trie.nodes[k]?.bind g := by
        intro β g k hk
        rw [bind_append, if_neg (Nat.ne_of_lt hk)]
      refine ⟨_, rfl, ⟨?_, fun k hk => ?_, fun k hk => ?_, fun k hk => hread _ k hk,
        fun k hk => hread _ k hk⟩, hgood.descends, fun k m hm => ?_⟩
      · have hsize : (trie.nodes ++ [newUtf8Node]).length = trie.nodes.length + 1 := List.length_append
        exact (Nat.le_succ _).trans_eq hsize.symm
      · funext d
        exact congrArg (findChild trie.edges d trie.edges.length) (hread _ k hk)
      · exact congrArg (edgeList trie.edges trie.edges.length) (hread _ k hk)
      · rw [bind_append] at hm
        split_ifs at hm
        · cases hm
        · exact hgood.first k m hm
    · exact ⟨trie, rfl, Idle.refl utf8Store trie, hgood⟩

theorem utf8Store_lawful : utf8Store.Lawful := by
  have hfirst : ∀ (trie : Utf8Trie) (i j k : ℕ),
      (utf8Store.setLink trie i j).nodes[k]?.bind Utf8Node.firstEdge =
        trie.nodes[k]?.bind Utf8Node.firstEdge := by
    intro trie i j k
    refine (bind_modify trie.nodes i _ _ k).trans ?_
    split_ifs <;> rfl
  refine ⟨fun trie i j => List.length_modify _ _ _, fun trie i j => ?_, fun trie i j => ?_,
    fun trie i j => ?_, fun trie i j k hi => ?_⟩
  · funext k d
    exact congrArg (findChild trie.edges d trie.edges.length) (hfirst trie i j k)
  · funext k
    exact congrArg (edgeList trie.edges trie.edges.length) (hfirst trie i j k)
  · funext k
    refine (bind_modify trie.nodes i _ _ k).trans ?_
    split_ifs <;> rfl
  · refine (bind_modify trie.nodes i _ _ k).trans ?_
    split_ifs with hki
    · have hlt : k < trie.nodes.length := hki ▸ hi
      rw [List.getElem?_eq_getElem hlt]
      rfl
    · rfl

theorem wellformed_modify (h : Wellformed trie) (i : ℕ) {f : Utf8Node → Utf8Node}
    (hf : ∀ node, (f node).firstEdge = node.firstEdge) :
    Wellformed { trie with nodes := trie.nodes.modify i f } := by
  refine ⟨h.descends, fun k m hm => h.first k m ?_⟩
  rw [bind_modify] at hm
  split_ifs at hm
  · rwa [funext hf] at hm
  · exact hm

end Utf8Tries

/-! ## What an automaton knows of its patterns -/

section Patterns

variable {α : Type} [DecidableEq α] {patterns : List (List α)} {p w : List α} {id : ℕ}

def idsOf (patterns : List (List α)) (w : List α) : List ℕ :=
  ((List.range patterns.length).filter fun id => patterns[id]? = some w).reverse

theorem mem_idsOf : id ∈ idsOf patterns w ↔ patterns[id]? = some w := by
  rw [idsOf, List.mem_reverse, List.mem_filter, List.mem_range, decide_eq_true_iff]
  refine and_iff_right_of_imp fun h => ?_
  obtain ⟨hlt, -⟩ := List.getElem?_eq_some_iff.1 h
  exact hlt

theorem idsOf_pairwise (patterns : List (List α)) (w : List α) :
    (idsOf patterns w).Pairwise fun a b => b < a := by
  rw [idsOf, List.pairwise_reverse]
  exact List.Pairwise.filter _ List.pairwise_lt_range

theorem idsOf_append (patterns : List (List α)) (p w : List α) : idsOf (patterns ++ [p]) w =
    if p = w then patterns.length :: idsOf patterns w else idsOf patterns w := by
  have hold : ((List.range patterns.length).filter fun id => (patterns ++ [p])[id]? = some w) =
      (List.range patterns.length).filter fun id => patterns[id]? = some w :=
    List.filter_congr fun id hid => by
      rw [List.getElem?_append_left (List.mem_range.1 hid)]
  rw [idsOf, List.length_append, List.length_singleton, List.range_succ, List.filter_append, hold,
    List.filter_singleton, List.getElem?_concat_length]
  split_ifs with h
  · rw [decide_eq_true (congrArg some h)]
    exact List.reverse_append
  · rw [decide_eq_false fun hp => h (Option.some.inj hp)]
    exact congrArg List.reverse (List.append_nil _)

theorem idsOf_eq_nil (h : w ∉ patterns) : idsOf patterns w = [] := by
  refine List.eq_nil_iff_forall_not_mem.2 fun id hid => h ?_
  exact List.mem_of_getElem? (mem_idsOf.1 hid)

/-- The outputs from one on are these patterns, each of this length. -/
def Chain (outputs : List Output) (len : ℕ) : Option ℕ → List ℕ → Prop
  | start, [] => start = none
  | start, id :: ids => ∃ k next, start = some k ∧ outputs[k]? = some ⟨id, len, next⟩ ∧
      (∀ m, next = some m → m < k) ∧ Chain outputs len next ids

variable {outputs : List Output} {len fuel pos : ℕ} {start : Option ℕ} {ids : List ℕ}

theorem Chain.lt_length (h : Chain outputs len start ids) {k : ℕ} (hk : start = some k) :
    k < outputs.length := by
  cases ids with
  | nil =>
    cases h.symm.trans hk
  | cons id ids =>
    obtain ⟨k', next, hstart, houtput, -⟩ := h
    obtain rfl := Option.some.inj (hk.symm.trans hstart)
    exact (List.getElem?_eq_some_iff.1 houtput).1

theorem Chain.append (h : Chain outputs len start ids) (more : List Output) :
    Chain (outputs ++ more) len start ids := by
  induction ids generalizing start with
  | nil => exact h
  | cons id ids ih =>
    obtain ⟨k, next, hstart, houtput, hless, hrest⟩ := h
    refine ⟨k, next, hstart, ?_, hless, ih hrest⟩
    rw [List.getElem?_append_left (List.getElem?_eq_some_iff.1 houtput).1]
    exact houtput

/-- What is reported of the outputs of a node. -/
theorem reportsFrom_eq (h : Chain outputs len start ids) (hfuel : ∀ k, start = some k → k < fuel)
    (hlen : ids ≠ [] → 0 < len) (hpos : len ≤ pos + 1) : reportsFrom outputs pos fuel start =
      .ok (ids.map fun id => ⟨id, pos + 1 - len, pos + 1⟩) := by
  induction ids generalizing start fuel with
  | nil =>
    obtain rfl : start = none := h
    cases fuel <;> rfl
  | cons id ids ih =>
    obtain ⟨k, next, rfl, houtput, hless, hrest⟩ := h
    have hpositive := hlen (List.cons_ne_nil id ids)
    obtain ⟨n, rfl⟩ : ∃ n, fuel = n + 1 := ⟨fuel - 1, by have := hfuel k rfl; omega⟩
    rw [reportsFrom, houtput]
    dsimp only
    rw [ih hrest (fun m hm => by have := hless m hm; have := hfuel k rfl; omega) fun _ => hpositive]
    dsimp only
    rw [if_neg (by omega)]
    rfl

end Patterns

/-! ## Automata -/

/-- The trie of one kind of automaton, and how it is changed. -/
structure Machine (S α : Type) where
  store : Store S α
  add : Memory → S → ℕ → α → Option ℕ × S
  setHead : S → ℕ → ℕ → S
  good : S → Prop
  grows : Memory → S → Bool

/-- Symbols are added to the trie, and nothing but a link or an output is set. -/
structure Machine.Lawful {S α : Type} (M : Machine S α) : Prop where
  store : M.store.Lawful
  adds : ∀ memory, Adds M.store (M.add memory) M.good (M.grows memory)
  setLink : ∀ s i j, M.good s → M.good (M.store.setLink s i j)
  setHead : ∀ s i j, M.good s → M.good (M.setHead s i j)
  size : ∀ s i j, M.store.size (M.setHead s i j) = M.store.size s
  child : ∀ s i j, M.store.child (M.setHead s i j) = M.store.child s
  edges : ∀ s i j, M.store.edges (M.setHead s i j) = M.store.edges s
  link : ∀ s i j, M.store.link (M.setHead s i j) = M.store.link s
  output : ∀ s i j k, i < M.store.size s →
    M.store.output (M.setHead s i j) k = if k = i then some j else M.store.output s k

def byteMachine : Machine (List ByteNode) UInt8 where
  store := byteStore
  add := addByte
  setHead := setByteOutput
  good _ := True
  grows memory nodes := pushes memory.nodes nodes.length

def utf8Machine : Machine Utf8Trie UInt32 where
  store := utf8Store
  add := addChild
  setHead := setUtf8Output
  good := Wellformed
  grows memory trie := pushes memory.nodes trie.nodes.length && pushes memory.edges trie.edges.length

theorem byteMachine_lawful : byteMachine.Lawful := by
  have hkeep : ∀ {β : Type} (g : ByteNode → Option β) (nodes : List ByteNode) (i j k : ℕ),
      (∀ node, g { node with outputs := some j } = g node) →
        (setByteOutput nodes i j)[k]?.bind g = nodes[k]?.bind g := by
    intro β g nodes i j k hg
    refine (bind_modify nodes i _ g k).trans ?_
    split_ifs
    · rw [funext hg]
    · rfl
  have hchild : ∀ nodes i j, byteStore.child (setByteOutput nodes i j) = byteStore.child nodes := by
    intro nodes i j
    funext k ch
    exact hkeep _ nodes i j k fun _ => rfl
  refine ⟨byteStore_lawful, addByte_adds, fun _ _ _ _ => trivial, fun _ _ _ _ => trivial,
    fun nodes i j => List.length_modify _ _ _, hchild, fun nodes i j => ?_, fun nodes i j => ?_,
    fun nodes i j k hi => ?_⟩
  · funext k
    have hfun := fun ch => congrFun (congrFun (hchild nodes i j) k) ch
    exact congrArg (fun edge : UInt8 → Option (UInt8 × ℕ) => allBytes.filterMap edge)
      (funext fun ch => congrArg (Option.map fun child => (ch, child)) (hfun ch))
  · funext k
    exact hkeep _ nodes i j k fun _ => rfl
  · refine (bind_modify nodes i _ ByteNode.outputs k).trans ?_
    split_ifs with hki
    · have hlt : k < nodes.length := hki ▸ hi
      rw [List.getElem?_eq_getElem hlt]
      rfl
    · rfl

theorem utf8Machine_lawful : utf8Machine.Lawful := by
  have hkeep : ∀ {β : Type} (g : Utf8Node → Option β) (trie : Utf8Trie) (i j k : ℕ),
      (∀ node, g { node with outputs := some j } = g node) →
        (setUtf8Output trie i j).nodes[k]?.bind g = trie.nodes[k]?.bind g := by
    intro β g trie i j k hg
    refine (bind_modify trie.nodes i _ g k).trans ?_
    split_ifs
    · rw [funext hg]
    · rfl
  refine ⟨utf8Store_lawful, addChild_adds, fun trie i j h => wellformed_modify h i fun _ => rfl,
    fun trie i j h => wellformed_modify h i fun _ => rfl, fun trie i j => List.length_modify _ _ _,
    fun trie i j => ?_, fun trie i j => ?_, fun trie i j => ?_, fun trie i j k hi => ?_⟩
  · funext k d
    exact congrArg (findChild trie.edges d trie.edges.length) (hkeep _ trie i j k fun _ => rfl)
  · funext k
    exact congrArg (edgeList trie.edges trie.edges.length) (hkeep _ trie i j k fun _ => rfl)
  · funext k
    exact hkeep _ trie i j k fun _ => rfl
  · refine (bind_modify trie.nodes i _ Utf8Node.outputs k).trans ?_
    split_ifs with hki
    · have hlt : k < trie.nodes.length := hki ▸ hi
      rw [List.getElem?_eq_getElem hlt]
      rfl
    · rfl

section Automata

variable {S α : Type} [DecidableEq α] {M : Machine S α} {ac ac' : Automaton S}
  {patterns : List (List α)} {symbols : List α} {memory : Memory} {grants : ℕ → Bool} {id : ℕ}

/-- What an automaton knows: its trie holds the patterns, each with its id at its end, and behind a build
the links are right. -/
structure Holds (M : Machine S α) (ac : Automaton S) (patterns : List (List α)) : Prop where
  good : M.good ac.trie
  tree : Tree M.store ac.trie
  root : M.store.link ac.trie 0 = none
  chains : ∀ w i, walk M.store ac.trie w 0 = some i →
    Chain ac.outputs w.length (M.store.output ac.trie i) (idsOf patterns w)
  ends : ∀ p ∈ patterns, p ≠ [] ∧ has M.store ac.trie p = true
  nextId : ac.nextPatternId = patterns.length
  linked : ac.built = true → Linked M.store ac.trie

/-- More words change nothing of what is known of the patterns. -/
theorem Holds.chains_extends (h : Holds M ac patterns) {trie : S} {p : List α}
    (hext : Extends M.store ac.trie trie p) (w : List α) (i : ℕ) (hw : walk M.store trie w 0 = some i) :
    Chain ac.outputs w.length (M.store.output trie i) (idsOf patterns w) := by
  cases hold : walk M.store ac.trie w 0 with
  | some j =>
    obtain ⟨hj, -, hout⟩ := hext.old w j hold
    obtain rfl := Option.some.inj (hj.symm.trans hw)
    rw [hout]
    exact h.chains w j hold
  | none =>
    obtain ⟨-, -, hout⟩ := hext.new w i hw hold
    have hno : w ∉ patterns := fun hmem => by
      have hhas := (h.ends w hmem).2
      rw [has, hold] at hhas
      cases hhas
    rw [hout, idsOf_eq_nil hno]
    exact rfl

theorem Holds.root_extends (h : Holds M ac patterns) {trie : S} {p : List α}
    (hext : Extends M.store ac.trie trie p) : M.store.link trie 0 = none :=
  (hext.old [] 0 rfl).2.1.trans h.root

theorem Holds.ends_extends (h : Holds M ac patterns) {trie : S} {p : List α}
    (hext : Extends M.store ac.trie trie p) :
    ∀ q ∈ patterns, q ≠ [] ∧ has M.store trie q = true := by
  intro q hq
  obtain ⟨hne, hhas⟩ := h.ends q hq
  obtain ⟨i, hi⟩ := has_iff.1 hhas
  exact ⟨hne, has_iff.2 ⟨i, (hext.old q i hi).1⟩⟩

/-- A pattern is recorded at its end. -/
theorem Holds.record (hM : M.Lawful) (h : Holds M ac patterns) (hne : symbols ≠ []) {trie : S}
    {state : ℕ} (hgood : M.good trie) (hext : Extends M.store ac.trie trie symbols)
    (hstate : walk M.store trie symbols 0 = some state) :
    Holds M ⟨M.setHead trie state ac.outputs.length,
      ac.outputs ++ [⟨ac.nextPatternId, symbols.length, M.store.output trie state⟩], false,
      ac.nextPatternId + 1⟩ (patterns ++ [symbols]) := by
  have hlt := hext.tree.lt_size symbols state hstate
  have hchild := hM.child trie state ac.outputs.length
  have hold := h.chains_extends hext
  refine ⟨hM.setHead _ _ _ hgood, hext.tree.congr (hM.size _ _ _) hchild (hM.edges _ _ _), ?_,
    fun w i hw => ?_, fun q hq => ?_, ?_, nofun⟩
  · rw [hM.link]
    exact h.root_extends hext
  · rw [walk_congr hchild] at hw
    rw [hM.output _ _ _ _ hlt, idsOf_append]
    by_cases hword : symbols = w
    · subst hword
      obtain rfl := Option.some.inj (hw.symm.trans hstate)
      rw [if_pos rfl, if_pos rfl]
      have hchain := hold symbols i hstate
      refine ⟨ac.outputs.length, M.store.output trie i, rfl, ?_, fun m hm => hchain.lt_length hm,
        hchain.append _⟩
      rw [List.getElem?_concat_length, h.nextId]
    · have hi : i ≠ state := by
        rintro rfl
        exact hword (hext.tree.unique symbols w i hstate hw)
      rw [if_neg hi, if_neg hword]
      exact (hold w i hw).append _
  · rw [has_congr hchild]
    rcases List.mem_append.1 hq with hq | hq
    · exact h.ends_extends hext q hq
    · obtain rfl := List.mem_singleton.1 hq
      exact ⟨hne, has_iff.2 ⟨state, hstate⟩⟩
  · rw [List.length_append, List.length_singleton, h.nextId]

def Machine.addSymbols (M : Machine S α) (memory : Memory) :
    Automaton S → List α → Except AddError ℕ × Automaton S :=
  AcAutomaton.addSymbols M.store (M.add memory) memory.outputs M.setHead

theorem Holds.addSymbols (hM : M.Lawful) (h : Holds M ac patterns) (hne : symbols ≠ [])
    (hadd : M.addSymbols memory ac symbols = (.ok id, ac')) :
    id = patterns.length ∧ Holds M ac' (patterns ++ [symbols]) ∧
      (Full M.store ac.trie → Full M.store ac'.trie) := by
  obtain ⟨o, trie, hinsert, hgood, hext, hend⟩ := (hM.adds memory).insertPath
    (p := symbols.take uint32Max) h.good h.tree (u := []) rfl
  rw [Machine.addSymbols, AcAutomaton.addSymbols, hinsert] at hadd
  cases o with
  | none => cases hadd
  | some state =>
    dsimp only at hadd
    split_ifs at hadd with hlong
    · cases hadd
    · rw [List.take_of_length_le (Nat.not_lt.1 hlong)] at hext hend hinsert
      have hstate : walk M.store trie symbols 0 = some state := hend state rfl
      rw [addOutput] at hadd
      split_ifs at hadd with hroom
      · obtain ⟨hid, rfl⟩ := Prod.mk.inj hadd
        obtain rfl := Except.ok.inj hid
        refine ⟨h.nextId, h.record hM hne hgood hext hstate, fun hfull => ?_⟩
        exact ((hM.adds memory).insertPath_full (u := []) h.good h.tree hfull rfl
          hinsert).congr (hM.size _ _ _)
          (hM.child _ _ _)
      · cases hadd

theorem Holds.build (hM : M.Lawful) (h : Holds M ac patterns)
    (hbuild : build M.store grants ac = some ac') : Holds M ac' patterns ∧ ac'.built = true ∧
      (Full M.store ac.trie → Full M.store ac'.trie) := by
  obtain ⟨trie, hlink, rfl⟩ := Option.map_eq_some_iff.1 hbuild
  obtain ⟨hsame, hlinked⟩ := link_linked hM.store h.tree h.root hlink
  refine ⟨⟨link_induct hM.setLink hlink h.good, hlinked.tree, hlinked.root, fun w i hw => ?_,
    fun q hq => ?_, h.nextId, fun _ => hlinked⟩, rfl, fun hfull => hfull.congr hsame.size hsame.child⟩
  · rw [hsame.walk] at hw
    rw [hsame.output]
    exact h.chains w i hw
  · rw [hsame.has]
    exact h.ends q hq

def reportsOf (patterns : List (List α)) (pos : ℕ) (w : List α) : List Report :=
  (idsOf patterns w).map fun id => ⟨id, pos + 1 - w.length, pos + 1⟩

/-- What is reported in a text: at each position the patterns that end there, the longest ones first. -/
def expected (patterns : List (List α)) (text : List α) : List Report :=
  occurrences (fun _ => true) (reportsOf patterns) [] text

omit [DecidableEq α] in
theorem occurrences_filter {β : Type} {T : List α → Bool} {found : ℕ → List α → List β}
    (h : ∀ pos w, T w = false → found pos w = []) (before text : List α) :
    occurrences T found before text = occurrences (fun _ => true) found before text := by
  induction text generalizing before with
  | nil => rfl
  | cons c text ih =>
    have hall : ∀ ws : List (List α), (ws.filter T).flatMap (found before.length) =
        (ws.filter fun _ => true).flatMap (found before.length) := by
      intro ws
      rw [List.filter_true]
      induction ws with
      | nil => rfl
      | cons w ws ih =>
        cases hw : T w with
        | true => rw [List.filter_cons_of_pos hw, List.flatMap_cons, List.flatMap_cons, ih]
        | false =>
          rw [List.filter_cons_of_neg (by rw [hw]; decide), List.flatMap_cons, h _ w hw, ih]
          rfl
    rw [occurrences, occurrences, hall, ih]

/-- Matching reports what is expected. -/
theorem Holds.matchSymbols (h : Holds M ac patterns) (hbuilt : ac.built = true) (text : List α) :
    matchSymbols M.store ac text = .ok (expected patterns text) := by
  have hreport : ∀ pos u j, walk M.store ac.trie u 0 = some j → u.length ≤ pos + 1 →
      reportsFrom ac.outputs pos ac.outputs.length (M.store.output ac.trie j) =
        .ok (reportsOf patterns pos u) := by
    intro pos u j hu hlen
    have hchain := h.chains u j hu
    refine reportsFrom_eq hchain (fun k hk => hchain.lt_length hk) (fun hids => ?_) hlen
    obtain ⟨id, hid⟩ := List.exists_mem_of_ne_nil _ hids
    exact List.length_pos_of_ne_nil (h.ends u (List.mem_of_getElem? (mem_idsOf.1 hid))).1
  have hscan := scan_eq (t := []) (i := 0) (h.linked hbuilt) hreport text rfl
  refine hscan.trans (congrArg Except.ok (occurrences_filter (fun pos w hw => ?_) [] text))
  have hno : w ∉ patterns := fun hmem => by
    rw [(h.ends w hmem).2] at hw
    cases hw
  rw [reportsOf, idsOf_eq_nil hno]
  rfl

end Automata

end AcAutomaton
