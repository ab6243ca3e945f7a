import Mathlib.Data.List.Infix
import Mathlib.Data.List.TakeWhile
import Mathlib.Logic.Function.Basic
import Mathlib.Tactic

/-! Tries with suffix links: each node is linked with the one of its longest proper suffix that is in
the trie. The links are set level by level; a text is read along the trie, and along the links where the
trie ends. -/
namespace SuffixLinks

/-! ## Longest suffixes -/

section Words

variable {α : Type} {T : List α → Bool} {w u v : List α} {c : α}

/-- The longest suffix of a word among the words of `T`. -/
def longest (T : List α → Bool) : List α → List α
  | [] => []
  | c :: w => if T (c :: w) then c :: w else longest T w

theorem longest_of_mem (h : T w = true) : longest T w = w := by
  cases w with
  | nil => rfl
  | cons c w => exact if_pos h

theorem mem_longest (hnil : T [] = true) (w : List α) : T (longest T w) = true := by
  induction w with
  | nil => exact hnil
  | cons c w ih =>
    rw [longest]
    split_ifs with h
    · exact h
    · exact ih

theorem longest_suffix (T : List α → Bool) (w : List α) : longest T w <:+ w := by
  induction w with
  | nil => exact List.suffix_rfl
  | cons c w ih =>
    rw [longest]
    split_ifs
    · exact List.suffix_rfl
    · exact ih.trans (List.suffix_cons c w)

theorem length_longest_le (T : List α → Bool) (w : List α) : (longest T w).length ≤ w.length :=
  (longest_suffix T w).length_le

theorem longest_snoc (hT : ∀ u c, T (u ++ [c]) = true → T u = true) (w : List α) (c : α) :
    longest T (w ++ [c]) = longest T (longest T w ++ [c]) := by
  induction w with
  | nil => rfl
  | cons b w ih =>
    by_cases hb : T (b :: w) = true
    · rw [longest_of_mem hb]
    · have hno : ¬T (b :: w ++ [c]) = true := fun h => hb (hT _ c h)
      rw [longest, if_neg hb, ← ih]
      exact if_neg hno

theorem filter_tails_longest (T : List α → Bool) (w : List α) :
    w.tails.filter T = (longest T w).tails.filter T := by
  induction w with
  | nil => rfl
  | cons c w ih =>
    by_cases h : T (c :: w) = true
    · rw [longest_of_mem h]
    · rw [longest, if_neg h, List.tails_cons, List.filter_cons_of_neg h, ih]

theorem filter_tails_cons (h : T (c :: w) = true) :
    (c :: w).tails.filter T = (c :: w) :: (longest T w).tails.filter T := by
  rw [List.tails_cons, List.filter_cons_of_pos h, filter_tails_longest]

end Words

/-! ## Tries -/

/-- What is read of a trie and set in it. The node of the empty word is `0`. -/
structure Store (S α : Type) where
  size : S → ℕ
  child : S → ℕ → α → Option ℕ
  edges : S → ℕ → List (α × ℕ)
  link : S → ℕ → Option ℕ
  setLink : S → ℕ → ℕ → S
  output : S → ℕ → Option ℕ

/-- A link is set, and nothing else. -/
structure Store.Lawful {S α : Type} (st : Store S α) : Prop where
  size : ∀ s i j, st.size (st.setLink s i j) = st.size s
  child : ∀ s i j, st.child (st.setLink s i j) = st.child s
  edges : ∀ s i j, st.edges (st.setLink s i j) = st.edges s
  output : ∀ s i j, st.output (st.setLink s i j) = st.output s
  link : ∀ s i j k, i < st.size s →
    st.link (st.setLink s i j) k = if k = i then some j else st.link s k

section Definitions

variable {S α : Type} (st : Store S α)

def walk (s : S) : List α → ℕ → Option ℕ
  | [], i => some i
  | c :: w, i => (st.child s i c).bind (walk s w)

def has (s : S) (w : List α) : Bool := (walk st s w 0).isSome

/-- The target of a link: the first node along the links that goes on with `c`, or the root. -/
def findLink (s : S) (c : α) : ℕ → Option ℕ → ℕ
  | _, none => 0
  | 0, some _ => 0
  | fuel + 1, some i =>
      match st.child s i c with
      | some j => j
      | none => findLink s c fuel (st.link s i)

/-- A store whose links are being set, how many nodes were queued, and those that wait. -/
structure Pending (S : Type) where
  store : S
  pushed : ℕ
  queue : List ℕ

def linkEdges (grants : ℕ → Bool) (limit : ℕ) (target : S → α → ℕ) :
    List (α × ℕ) → Pending S → Option (Pending S)
  | [], p => some p
  | (c, j) :: rest, p =>
      if st.size p.store ≤ j then none
      else if p.pushed < limit && grants p.pushed then
        linkEdges grants limit target rest
          ⟨st.setLink p.store j (target p.store c), p.pushed + 1, p.queue ++ [j]⟩
      else none

def linkLoop (grants : ℕ → Bool) (limit : ℕ) : ℕ → Pending S → Option S
  | 0, p => some p.store
  | fuel + 1, p =>
      match p.queue with
      | [] => some p.store
      | i :: queue =>
          (linkEdges st grants limit
            (fun s c => findLink st s c (st.size s) (st.link s i))
            (st.edges p.store i) { p with queue }).bind (linkLoop grants limit fuel)

def link (grants : ℕ → Bool) (s : S) : Option S :=
  (linkEdges st grants (st.size s) (fun _ _ => 0) (st.edges s 0) ⟨s, 0, []⟩).bind
    (linkLoop st grants (st.size s) (st.size s))

/-- Why a text is not read to its end: the reader refuses it, it leaves the nodes, or it goes round. -/
inductive Failure where
  | refused
  | wild
  | endless
  deriving DecidableEq

def advance (s : S) (c : α) : ℕ → ℕ → Except Failure ℕ
  | 0, _ => .error .endless
  | fuel + 1, i =>
      match st.child s i c with
      | some j => .ok j
      | none =>
          if i = 0 then .ok 0
          else
            match st.link s i with
            | none => .error .wild
            | some i => advance s c fuel i

def collect {β : Type} (s : S) (report : Option ℕ → Except Failure (List β)) :
    ℕ → Option ℕ → Except Failure (List β)
  | _, none => .ok []
  | 0, some _ => .error .endless
  | fuel + 1, some i =>
      if st.size s ≤ i then .error .wild
      else
        match report (st.output s i) with
        | .error e => .error e
        | .ok here =>
            match collect s report fuel (st.link s i) with
            | .error e => .error e
            | .ok rest => .ok (here ++ rest)

def scan {β : Type} (s : S) (report : ℕ → Option ℕ → Except Failure (List β)) :
    List α → ℕ → ℕ → Except Failure (List β)
  | [], _, _ => .ok []
  | c :: text, i, pos =>
      match advance st s c (st.size s) i with
      | .error e => .error e
      | .ok i =>
          match collect st s (report pos) (st.size s) (some i) with
          | .error e => .error e
          | .ok here =>
              match scan s report text i (pos + 1) with
              | .error e => .error e
              | .ok rest => .ok (here ++ rest)

end Definitions

/-! ## Nodes and words -/

section Trees

variable {S α : Type} {st : Store S α} {s s' : S} {u v w : List α} {c : α} {i j n fuel : ℕ}

theorem walk_append (u v : List α) (i : ℕ) :
    walk st s (u ++ v) i = (walk st s u i).bind (walk st s v) := by
  induction u generalizing i with
  | nil => rfl
  | cons c u ih =>
    rw [List.cons_append, walk, walk, Option.bind_assoc]
    exact congrArg _ (funext ih)

theorem walk_snoc (w : List α) (c : α) (i : ℕ) :
    walk st s (w ++ [c]) i = (walk st s w i).bind fun j => st.child s j c := by
  rw [walk_append]
  exact congrArg _ (funext fun j => Option.bind_fun_some (st.child s j c))

theorem walk_snoc_of_eq (h : walk st s w i = some j) : walk st s (w ++ [c]) i = st.child s j c := by
  rw [walk_snoc, h, Option.bind_some]

theorem walk_congr (h : st.child s' = st.child s) : walk st s' = walk st s := by
  funext w
  induction w with
  | nil => rfl
  | cons c w ih =>
    funext i
    rw [walk, walk, h, ih]

theorem has_congr (h : st.child s' = st.child s) : has st s' = has st s := by
  funext w
  rw [has, has, walk_congr h]

theorem has_iff : has st s w = true ↔ ∃ i, walk st s w 0 = some i := Option.isSome_iff_exists

theorem has_nil : has st s [] = true := rfl

theorem has_of_append (h : has st s (u ++ v) = true) : has st s u = true := by
  obtain ⟨i, hi⟩ := has_iff.1 h
  rw [walk_append] at hi
  obtain ⟨j, hj, -⟩ := Option.bind_eq_some_iff.1 hi
  exact has_iff.2 ⟨j, hj⟩

theorem exists_walk_longest (st : Store S α) (s : S) (w : List α) :
    ∃ i, walk st s (longest (has st s) w) 0 = some i :=
  has_iff.1 (mem_longest has_nil w)

/-- Along the links of `v`, three cases: the trie goes on with `c`, it never does, or the next link
decides. -/
theorem longest_cases (h : has st s v = true) (c : α) :
    (has st s (v ++ [c]) = true ∧ longest (has st s) (v ++ [c]) = v ++ [c]) ∨
      (has st s (v ++ [c]) = false ∧ v = [] ∧ longest (has st s) (v ++ [c]) = []) ∨
      (has st s (v ++ [c]) = false ∧ ∃ b w, v = b :: w ∧
        longest (has st s) (v ++ [c]) = longest (has st s) (longest (has st s) w ++ [c])) := by
  cases hnext : has st s (v ++ [c]) with
  | true => exact Or.inl ⟨rfl, longest_of_mem hnext⟩
  | false =>
    have hno : ¬has st s (v ++ [c]) = true := by rw [hnext]; decide
    refine Or.inr ?_
    cases v with
    | nil => exact Or.inl ⟨rfl, rfl, if_neg hno⟩
    | cons b w =>
      refine Or.inr ⟨rfl, b, w, rfl, ?_⟩
      rw [← longest_snoc (fun u c => has_of_append) w c]
      exact if_neg hno

/-- A node stands for one word, and its edges are its children. -/
structure Tree (st : Store S α) (s : S) : Prop where
  unique : ∀ u v i, walk st s u 0 = some i → walk st s v 0 = some i → u = v
  lt_size : ∀ w i, walk st s w 0 = some i → i < st.size s
  edges : ∀ w i c j, walk st s w 0 = some i → ((c, j) ∈ st.edges s i ↔ st.child s i c = some j)

theorem Tree.congr (h : Tree st s) (hsize : st.size s' = st.size s) (hchild : st.child s' = st.child s)
    (hedges : st.edges s' = st.edges s) : Tree st s' := by
  constructor
  · rw [walk_congr hchild]
    exact h.unique
  · rw [walk_congr hchild, hsize]
    exact h.lt_size
  · rw [walk_congr hchild, hedges, hchild]
    exact h.edges

/-- Every node is reached. -/
def Full (st : Store S α) (s : S) : Prop := ∀ i < st.size s, ∃ w, walk st s w 0 = some i

theorem Full.congr (h : Full st s) (hsize : st.size s' = st.size s) (hchild : st.child s' = st.child s) :
    Full st s' := by
  unfold Full
  rw [walk_congr hchild, hsize]
  exact h

theorem Tree.length_lt (h : Tree st s) (hw : walk st s w 0 = some i) : w.length < st.size s := by
  have htake : ∀ k : Fin (w.length + 1), ∃ j, walk st s (w.take k) 0 = some j := fun k => by
    refine has_iff.1 (has_of_append (v := w.drop k) ?_)
    rw [List.take_append_drop]
    exact has_iff.2 ⟨i, hw⟩
  choose node hnode using htake
  have hinj : Function.Injective fun k => (⟨node k, h.lt_size _ _ (hnode k)⟩ : Fin (st.size s)) := by
    intro k l hkl
    have hsame : node k = node l := congrArg Fin.val hkl
    have hlength := congrArg List.length (h.unique _ _ _ (hnode k) (hsame ▸ hnode l))
    rw [List.length_take, List.length_take] at hlength
    exact Fin.ext (by omega)
  have hcard := Fintype.card_le_of_injective _ hinj
  rw [Fintype.card_fin, Fintype.card_fin] at hcard
  exact hcard

/-- The link of a word leads to its longest proper suffix in the trie. -/
def LinkedAt (st : Store S α) (s : S) (w : List α) : Prop :=
  ∀ i, walk st s w 0 = some i → st.link s i = walk st s (longest (has st s) w.tail) 0

/-- A trie whose links are right for the words of at most so many symbols. -/
structure LinkedTo (st : Store S α) (n : ℕ) (s : S) : Prop where
  tree : Tree st s
  root : st.link s 0 = none
  linked : ∀ w, w ≠ [] → w.length ≤ n → LinkedAt st s w

structure Linked (st : Store S α) (s : S) : Prop where
  tree : Tree st s
  root : st.link s 0 = none
  linked : ∀ w, w ≠ [] → LinkedAt st s w

theorem Linked.shallower (h : Linked st s) (hw : w ≠ []) (hi : walk st s w 0 = some i) :
    ∃ v j, st.link s i = some j ∧ walk st s v 0 = some j ∧ v.length < w.length := by
  obtain ⟨j, hj⟩ := exists_walk_longest st s w.tail
  refine ⟨_, j, (h.linked w hw i hi).trans hj, hj, ?_⟩
  have hle := length_longest_le (has st s) w.tail
  have hpos := List.length_pos_of_ne_nil hw
  rw [List.length_tail] at hle
  omega

theorem findLink_none (fuel : ℕ) : findLink st s c fuel none = 0 := by
  cases fuel with
  | zero => rfl
  | succ fuel => rfl

theorem findLink_eq (h : LinkedTo st n s) (hv : walk st s v 0 = some i) (hn : v.length ≤ n)
    (hfuel : v.length < fuel) :
    walk st s (longest (has st s) (v ++ [c])) 0 = some (findLink st s c fuel (some i)) := by
  induction fuel generalizing v i with
  | zero => omega
  | succ fuel ih =>
    rw [findLink]
    rcases longest_cases (has_iff.2 ⟨i, hv⟩) c with ⟨hhas, heq⟩ | ⟨hhas, rfl, heq⟩ |
      ⟨hhas, b, w, rfl, heq⟩
    all_goals
      rw [heq]
      rw [has, walk_snoc_of_eq hv] at hhas
    · obtain ⟨j, hj⟩ := Option.isSome_iff_exists.1 hhas
      rw [walk_snoc_of_eq hv, hj]
    · obtain rfl : 0 = i := Option.some.inj hv
      rw [Option.isSome_eq_false_iff, Option.isNone_iff_eq_none] at hhas
      rw [hhas, h.root]
      dsimp only
      rw [findLink_none]
      rfl
    · rw [Option.isSome_eq_false_iff, Option.isNone_iff_eq_none] at hhas
      obtain ⟨j, hj⟩ := exists_walk_longest st s w
      have hle := length_longest_le (has st s) w
      rw [List.length_cons] at hn hfuel
      rw [hhas, h.linked _ (List.cons_ne_nil b w) hn i hv, List.tail_cons, hj]
      exact ih hj (by omega) (by omega)

theorem advance_eq (h : Linked st s) (hv : walk st s v 0 = some i) (hfuel : v.length < fuel) :
    ∃ j, advance st s c fuel i = .ok j ∧
      walk st s (longest (has st s) (v ++ [c])) 0 = some j := by
  induction fuel generalizing v i with
  | zero => omega
  | succ fuel ih =>
    rw [advance]
    rcases longest_cases (has_iff.2 ⟨i, hv⟩) c with ⟨hhas, heq⟩ | ⟨hhas, rfl, heq⟩ |
      ⟨hhas, b, w, rfl, heq⟩
    all_goals
      rw [heq]
      rw [has, walk_snoc_of_eq hv] at hhas
    · obtain ⟨j, hj⟩ := Option.isSome_iff_exists.1 hhas
      rw [walk_snoc_of_eq hv, hj]
      exact ⟨j, rfl, rfl⟩
    · obtain rfl : 0 = i := Option.some.inj hv
      rw [Option.isSome_eq_false_iff, Option.isNone_iff_eq_none] at hhas
      rw [hhas]
      exact ⟨0, rfl, rfl⟩
    · rw [Option.isSome_eq_false_iff, Option.isNone_iff_eq_none] at hhas
      obtain ⟨j, hj⟩ := exists_walk_longest st s w
      have hle := length_longest_le (has st s) w
      have hroot : i ≠ 0 := by
        rintro rfl
        exact List.cons_ne_nil b w (h.tree.unique _ _ _ hv rfl)
      rw [List.length_cons] at hfuel
      rw [hhas]
      dsimp only
      rw [if_neg hroot, h.linked _ (List.cons_ne_nil b w) i hv, List.tail_cons, hj]
      exact ih hj (by omega)

end Trees

/-! ## Links are set level by level -/

structure SameTrie {S α : Type} (st : Store S α) (s s' : S) : Prop where
  size : st.size s' = st.size s
  child : st.child s' = st.child s
  edges : st.edges s' = st.edges s
  output : st.output s' = st.output s

section Linking

variable {S α : Type} {st : Store S α} {s s' : S} {u v w : List α} {c : α} {i j n fuel limit : ℕ}
  {grants : ℕ → Bool}

theorem SameTrie.refl (st : Store S α) (s : S) : SameTrie st s s := ⟨rfl, rfl, rfl, rfl⟩

theorem SameTrie.trans {s₁ s₂ s₃ : S} (h : SameTrie st s₁ s₂) (h' : SameTrie st s₂ s₃) :
    SameTrie st s₁ s₃ :=
  ⟨h'.size.trans h.size, h'.child.trans h.child, h'.edges.trans h.edges, h'.output.trans h.output⟩

theorem SameTrie.walk (h : SameTrie st s s') : walk st s' = walk st s := walk_congr h.child

theorem SameTrie.has (h : SameTrie st s s') : has st s' = has st s := has_congr h.child

theorem SameTrie.tree (h : SameTrie st s s') (htree : Tree st s) : Tree st s' :=
  htree.congr h.size h.child h.edges

theorem SameTrie.setLink (hst : st.Lawful) (s : S) (i j : ℕ) : SameTrie st s (st.setLink s i j) :=
  ⟨hst.size s i j, hst.child s i j, hst.edges s i j, hst.output s i j⟩

theorem linkedAt_setLink (hst : st.Lawful) (htree : Tree st s) (hw : walk st s w 0 = some i)
    (hj : walk st s (longest (has st s) w.tail) 0 = some j) (hv : v = w ∨ LinkedAt st s v) :
    LinkedAt st (st.setLink s i j) v := by
  have hsame := SameTrie.setLink hst s i j
  intro k hk
  rw [hsame.walk] at hk ⊢
  rw [hsame.has, hst.link s i j k (htree.lt_size w i hw)]
  split_ifs with hki
  · subst hki
    obtain rfl := htree.unique v w k hk hw
    exact hj.symm
  · rcases hv with rfl | hv
    · exact absurd (Option.some.inj (hk.symm.trans hw)) hki
    · exact hv k hk

/-- The children of `u` are linked and queued. -/
structure Queued (st : Store S α) (u : List α) (es : List (α × ℕ)) (p p' : Pending S) : Prop where
  same : SameTrie st p.store p'.store
  linkedTo : LinkedTo st u.length p'.store
  queue : p'.queue = p.queue ++ es.map Prod.snd
  pushed : p'.pushed = p.pushed + es.length
  still : ∀ v, LinkedAt st p.store v → LinkedAt st p'.store v
  linked : ∀ e ∈ es, LinkedAt st p'.store (u ++ [e.1])

theorem linkEdges_queued (hst : st.Lawful) {es : List (α × ℕ)} {p p' : Pending S}
    {target : S → α → ℕ} (h : linkEdges st grants limit target es p = some p')
    (hgood : LinkedTo st u.length p.store) (hes : ∀ e ∈ es, walk st p.store (u ++ [e.1]) 0 = some e.2)
    (htarget : ∀ s, SameTrie st p.store s → LinkedTo st u.length s → ∀ c,
      walk st s (longest (has st s) (u ++ [c]).tail) 0 = some (target s c)) :
    Queued st u es p p' := by
  induction es generalizing p with
  | nil =>
    obtain rfl := Option.some.inj h
    exact ⟨SameTrie.refl st _, hgood, (List.append_nil _).symm, rfl, fun v hv => hv, nofun⟩
  | cons e es ih =>
    obtain ⟨c, j⟩ := e
    rw [linkEdges] at h
    split_ifs at h with hsize hroom
    have hj : walk st p.store (u ++ [c]) 0 = some j := hes _ List.mem_cons_self
    have hset : ∀ v, v = u ++ [c] ∨ LinkedAt st p.store v →
        LinkedAt st (st.setLink p.store j (target p.store c)) v := fun v =>
      linkedAt_setLink hst hgood.tree hj (htarget _ (SameTrie.refl st _) hgood c)
    have hsame := SameTrie.setLink hst p.store j (target p.store c)
    have hroot : 0 ≠ j := by
      rintro rfl
      exact List.append_ne_nil_of_right_ne_nil u (List.cons_ne_nil c [])
        (hgood.tree.unique _ _ _ hj rfl)
    have hgood' : LinkedTo st u.length (st.setLink p.store j (target p.store c)) := by
      refine ⟨hsame.tree hgood.tree, ?_, fun w hw hlen => hset w (Or.inr (hgood.linked w hw hlen))⟩
      rw [hst.link _ _ _ _ (hgood.tree.lt_size _ _ hj), if_neg hroot]
      exact hgood.root
    have hrest := ih h hgood' (fun e he => by
      rw [hsame.walk]
      exact hes e (List.mem_cons_of_mem _ he)) (fun s hs => htarget s (hsame.trans hs))
    refine ⟨hsame.trans hrest.same, hrest.linkedTo, ?_, ?_,
      fun v hv => hrest.still v (hset v (Or.inr hv)), ?_⟩
    · rw [hrest.queue, List.append_assoc]
      rfl
    · rw [hrest.pushed, List.length_cons]
      dsimp only
      omega
    · rintro e' he'
      rcases List.mem_cons.1 he' with rfl | he'
      · exact hrest.still _ (hset _ (Or.inl rfl))
      · exact hrest.linked e' he'

theorem linkEdges_pushed {es : List (α × ℕ)} {p p' : Pending S} {target : S → α → ℕ}
    (h : linkEdges st grants limit target es p = some p') (hp : p.pushed ≤ limit) :
    p'.pushed ≤ limit := by
  induction es generalizing p with
  | nil =>
    obtain rfl := Option.some.inj h
    exact hp
  | cons e es ih =>
    obtain ⟨c, j⟩ := e
    rw [linkEdges] at h
    split_ifs at h with hsize hroom
    rw [Bool.and_eq_true, decide_eq_true_iff] at hroom
    exact ih h hroom.1

theorem linkEdges_induct {P : S → Prop} (hset : ∀ s i j, P s → P (st.setLink s i j))
    {es : List (α × ℕ)} {p p' : Pending S} {target : S → α → ℕ}
    (h : linkEdges st grants limit target es p = some p') (hp : P p.store) : P p'.store := by
  induction es generalizing p with
  | nil =>
    obtain rfl := Option.some.inj h
    exact hp
  | cons e es ih =>
    rw [linkEdges] at h
    split_ifs at h with hsize hroom
    exact ih h (hset _ _ _ hp)

theorem linkLoop_induct {P : S → Prop} (hset : ∀ s i j, P s → P (st.setLink s i j)) {p : Pending S}
    (h : linkLoop st grants limit fuel p = some s') (hp : P p.store) : P s' := by
  induction fuel generalizing p with
  | zero =>
    obtain rfl := Option.some.inj h
    exact hp
  | succ fuel ih =>
    obtain ⟨store, pushed, queue⟩ := p
    cases queue with
    | nil =>
      obtain rfl := Option.some.inj h
      exact hp
    | cons i queue =>
      obtain ⟨p', hp', hloop⟩ := Option.bind_eq_some_iff.1 h
      exact ih hloop (linkEdges_induct hset hp' hp)

theorem link_induct {P : S → Prop} (hset : ∀ s i j, P s → P (st.setLink s i j))
    (h : link st grants s = some s') (hs : P s) : P s' := by
  obtain ⟨p, hp, hloop⟩ := Option.bind_eq_some_iff.1 h
  exact linkLoop_induct hset hloop (linkEdges_induct hset hp hs)

/-- What holds while links are set: the words that wait are linked, they come in the order of their
lengths, and whatever is not linked yet goes on from one of them. -/
structure Levels (st : Store S α) (s₀ s : S) (queue : List ℕ) (words : List (List α)) : Prop where
  same : SameTrie st s₀ s
  tree : Tree st s
  root : st.link s 0 = none
  queued : List.Forall₂ (fun i w => walk st s w 0 = some i) queue words
  proper : ∀ w ∈ words, w ≠ []
  linked : ∀ w ∈ words, LinkedAt st s w
  near : ∀ u ∈ words, ∀ v ∈ words, v.length ≤ u.length + 1
  sorted : words.Pairwise fun u v => u.length ≤ v.length
  rest : ∀ w, w ≠ [] → has st s w = true → LinkedAt st s w ∨ ∃ u ∈ words, u <+: w ∧ u ≠ w

theorem linkedAt_of_not_has (h : ¬has st s w = true) : LinkedAt st s w :=
  fun _ hi => absurd (has_iff.2 ⟨_, hi⟩) h

theorem Levels.linkedTo {queue : List ℕ} {words : List (List α)} {s₀ : S}
    (h : Levels st s₀ s queue (u :: words)) : LinkedTo st u.length s := by
  refine ⟨h.tree, h.root, fun w hw hlen => ?_⟩
  by_cases hhas : has st s w = true
  · rcases h.rest w hw hhas with hlinked | ⟨v, hv, hstart, hne⟩
    · exact hlinked
    · have hless : v.length < w.length :=
        Nat.lt_of_le_of_ne hstart.length_le fun heq => hne (hstart.eq_of_length heq)
      have hmin : u.length ≤ v.length := by
        rcases List.mem_cons.1 hv with rfl | hv
        · exact Nat.le_refl _
        · exact List.rel_of_pairwise_cons h.sorted hv
      omega
  · exact linkedAt_of_not_has hhas

/-- The children of a node wait instead of it. -/
theorem Queued.levels {es : List (α × ℕ)} {p p' : Pending S} {s₀ : S} {ws : List (List α)}
    (h : Queued st u es p p') (hsame : SameTrie st s₀ p.store) (htree : Tree st p.store)
    (hu : walk st p.store u 0 = some i) (hes : es = st.edges p.store i)
    (hqueued : List.Forall₂ (fun i w => walk st p.store w 0 = some i) p.queue ws)
    (hproper : ∀ w ∈ ws, w ≠ []) (hlinked : ∀ w ∈ ws, LinkedAt st p.store w)
    (hnear : ∀ v ∈ ws, u.length ≤ v.length ∧ v.length ≤ u.length + 1)
    (hsorted : ws.Pairwise fun u v => u.length ≤ v.length)
    (hrest : ∀ w, w ≠ [] → has st p.store w = true →
      LinkedAt st p.store w ∨ ∃ v ∈ u :: ws, v <+: w ∧ v ≠ w) :
    Levels st s₀ p'.store p'.queue (ws ++ es.map fun e => u ++ [e.1]) := by
  have hchild : ∀ e ∈ es, walk st p.store (u ++ [e.1]) 0 = some e.2 := by
    rintro ⟨c, j⟩ he
    rw [walk_snoc_of_eq hu]
    rw [hes] at he
    exact (htree.edges u i c j hu).1 he
  have hnew : ∀ v ∈ es.map fun e => u ++ [e.1], v.length = u.length + 1 := by
    intro v hv
    obtain ⟨e, -, rfl⟩ := List.mem_map.1 hv
    exact List.length_append
  refine ⟨hsame.trans h.same, h.linkedTo.tree, h.linkedTo.root, ?_, ?_, ?_, ?_, ?_, ?_⟩
  · rw [h.queue, h.same.walk]
    refine List.rel_append hqueued ?_
    rw [List.forall₂_map_left_iff, List.forall₂_map_right_iff, List.forall₂_same]
    exact hchild
  · intro w hw
    rcases List.mem_append.1 hw with hw | hw
    · exact hproper w hw
    · exact List.ne_nil_of_length_eq_add_one (hnew w hw)
  · intro w hw
    rcases List.mem_append.1 hw with hw | hw
    · exact h.still w (hlinked w hw)
    · obtain ⟨e, he, rfl⟩ := List.mem_map.1 hw
      exact h.linked e he
  · intro a ha b hb
    have hle : ∀ v ∈ ws ++ es.map fun e => u ++ [e.1], u.length ≤ v.length ∧
        v.length ≤ u.length + 1 := by
      intro v hv
      rcases List.mem_append.1 hv with hv | hv
      · exact hnear v hv
      · have hlen := hnew v hv
        omega
    have hless := (hle a ha).1
    have hmore := (hle b hb).2
    omega
  · refine List.pairwise_append.2 ⟨hsorted, ?_, fun a ha b hb => ?_⟩
    · refine List.Pairwise.imp_of_mem (R := fun _ _ => True) ?_ (List.pairwise_of_forall fun _ _ => trivial)
      intro a b ha hb _
      exact ((hnew a ha).trans (hnew b hb).symm).le
    · rw [hnew b hb]
      exact (hnear a ha).2
  · intro w hw hhas
    rw [h.same.has] at hhas
    rcases hrest w hw hhas with hstill | ⟨v, hv, hstart, hne⟩
    · exact Or.inl (h.still w hstill)
    · rcases List.mem_cons.1 hv with rfl | hv
      · obtain ⟨t, rfl⟩ := hstart
        cases t with
        | nil => exact absurd (List.append_nil v).symm hne
        | cons c t =>
          have hcons : v ++ c :: t = v ++ [c] ++ t := List.append_cons v c t
          obtain ⟨j, hj⟩ : ∃ j, walk st p.store (v ++ [c]) 0 = some j := by
            rw [hcons] at hhas
            exact has_iff.1 (has_of_append hhas)
          have hmem : (c, j) ∈ es := by
            rw [hes]
            refine (htree.edges v i c j hu).2 ?_
            rwa [walk_snoc_of_eq hu] at hj
          cases t with
          | nil => exact Or.inl (h.linked (c, j) hmem)
          | cons d t =>
            refine Or.inr ⟨v ++ [c], List.mem_append_right _ (List.mem_map.2 ⟨(c, j), hmem, rfl⟩),
              ⟨d :: t, hcons.symm⟩, fun heq => ?_⟩
            have hlen := congrArg List.length heq
            rw [List.length_append, List.length_append, List.length_cons, List.length_cons,
              List.length_cons, List.length_nil] at hlen
            omega
      · exact Or.inr ⟨v, List.mem_append_left _ hv, hstart, hne⟩

theorem Levels.done {s₀ : S} {words : List (List α)} (h : Levels st s₀ s [] words) :
    SameTrie st s₀ s ∧ Linked st s := by
  obtain rfl : words = [] := List.forall₂_nil_left_iff.1 h.queued
  refine ⟨h.same, h.tree, h.root, fun w hw => ?_⟩
  by_cases hhas : has st s w = true
  · exact (h.rest w hw hhas).resolve_right fun ⟨_, hmem, _⟩ => absurd hmem List.not_mem_nil
  · exact linkedAt_of_not_has hhas

theorem findLink_tail (h : LinkedTo st u.length s) (hu : u ≠ []) (hi : walk st s u 0 = some i) (c : α) :
    walk st s (longest (has st s) (u ++ [c]).tail) 0 =
      some (findLink st s c (st.size s) (st.link s i)) := by
  obtain ⟨b, w, rfl⟩ := List.exists_cons_of_ne_nil hu
  obtain ⟨j, hj⟩ := exists_walk_longest st s w
  have hle := length_longest_le (has st s) w
  rw [List.cons_append, List.tail_cons, longest_snoc (fun u c => has_of_append) w c,
    h.linked _ hu (Nat.le_refl _) i hi, List.tail_cons, hj]
  exact findLink_eq h hj (hle.trans (Nat.le_succ _)) (h.tree.length_lt hj)

theorem linkLoop_linked (hst : st.Lawful) {s₀ : S} {p : Pending S} {words : List (List α)}
    (h : linkLoop st grants limit fuel p = some s') (hlevels : Levels st s₀ p.store p.queue words)
    (hpushed : p.pushed ≤ limit) (hfuel : limit + p.queue.length = fuel + p.pushed) :
    SameTrie st s₀ s' ∧ Linked st s' := by
  induction fuel generalizing p words with
  | zero =>
    obtain rfl := Option.some.inj h
    have hnil : p.queue = [] := List.eq_nil_of_length_eq_zero (by omega)
    rw [hnil] at hlevels
    exact hlevels.done
  | succ fuel ih =>
    obtain ⟨store, pushed, queue⟩ := p
    rw [linkLoop] at h
    dsimp only at h hlevels hpushed hfuel
    cases queue with
    | nil =>
      obtain rfl := Option.some.inj h
      exact hlevels.done
    | cons i queue =>
      obtain ⟨p', hp', hloop⟩ := Option.bind_eq_some_iff.1 h
      obtain ⟨u, ws, hu, hqueued, rfl⟩ := List.forall₂_cons_left_iff.1 hlevels.queued
      have hgood := hlevels.linkedTo
      have hp := linkEdges_queued hst hp' hgood
        (fun e he => by
          rw [walk_snoc_of_eq hu]
          exact (hlevels.tree.edges u i e.1 e.2 hu).1 he)
        (fun s hs hlinked c => findLink_tail hlinked
          (hlevels.proper u List.mem_cons_self) (by rwa [hs.walk]) c)
      have hnext : Levels st s₀ p'.store p'.queue (ws ++ (st.edges store i).map fun e => u ++ [e.1]) :=
        hp.levels hlevels.same hlevels.tree hu rfl hqueued
          (fun w hw => hlevels.proper w (List.mem_cons_of_mem u hw))
          (fun w hw => hlevels.linked w (List.mem_cons_of_mem u hw))
          (fun v hv => ⟨List.rel_of_pairwise_cons hlevels.sorted hv,
            hlevels.near u List.mem_cons_self v (List.mem_cons_of_mem u hv)⟩)
          (List.Pairwise.of_cons hlevels.sorted) hlevels.rest
      refine ih hloop hnext (linkEdges_pushed hp' hpushed) ?_
      have hlen := congrArg List.length hp.queue
      rw [List.length_append, List.length_map] at hlen
      have hcount := hp.pushed
      dsimp only at hlen hcount
      rw [List.length_cons] at hfuel
      omega

theorem link_linked (hst : st.Lawful) (htree : Tree st s) (hroot : st.link s 0 = none)
    (h : link st grants s = some s') : SameTrie st s s' ∧ Linked st s' := by
  obtain ⟨p, hp, hloop⟩ := Option.bind_eq_some_iff.1 h
  have hgood : LinkedTo st (List.length ([] : List α)) s :=
    ⟨htree, hroot, fun w hw hlen => absurd (List.eq_nil_of_length_eq_zero (Nat.le_zero.1 hlen)) hw⟩
  have hqueued := linkEdges_queued (u := []) hst hp hgood
    (fun e he => by
      rw [walk_snoc_of_eq rfl]
      exact (htree.edges [] 0 e.1 e.2 rfl).1 he)
    (fun _ _ _ _ => rfl)
  have hlevels : Levels st s p.store p.queue ([] ++ (st.edges s 0).map fun e => [] ++ [e.1]) :=
    hqueued.levels (SameTrie.refl st s) htree rfl rfl List.Forall₂.nil nofun nofun nofun
      List.Pairwise.nil fun w hw _ => Or.inr ⟨[], List.mem_cons_self, List.nil_prefix, hw.symm⟩
  refine linkLoop_linked hst hloop hlevels (linkEdges_pushed hp (Nat.zero_le _)) ?_
  rw [hqueued.queue, hqueued.pushed, List.length_append, List.length_map, List.length_nil]

end Linking

/-! ## Texts are read -/

section Reading

variable {S α β : Type} {st : Store S α} {s : S} {v t : List α} {i fuel pos : ℕ}

/-- What is reported in a text of which some symbols have been read: at each position, by all suffixes
in the trie, the longest one first. -/
def occurrences (T : List α → Bool) (found : ℕ → List α → List β) : List α → List α → List β
  | _, [] => []
  | before, c :: text =>
      ((before ++ [c]).tails.filter T).flatMap (found before.length) ++
        occurrences T found (before ++ [c]) text

theorem collect_none (report : Option ℕ → Except Failure (List β)) (fuel : ℕ) :
    collect st s report fuel none = .ok [] := by
  cases fuel with
  | zero => rfl
  | succ fuel => rfl

theorem collect_eq (h : Linked st s) {report : Option ℕ → Except Failure (List β)}
    {found : List α → List β} (hv : walk st s v 0 = some i) (hfuel : v.length < fuel)
    (hreport : ∀ u j, walk st s u 0 = some j → u.length ≤ v.length →
      report (st.output s j) = .ok (found u)) :
    collect st s report fuel (some i) = .ok ((v.tails.filter (has st s)).flatMap found) := by
  induction fuel generalizing v i with
  | zero => omega
  | succ fuel ih =>
    rw [collect, if_neg (Nat.not_le_of_lt (h.tree.lt_size v i hv)), hreport v i hv (Nat.le_refl _)]
    dsimp only
    cases v with
    | nil =>
      obtain rfl : 0 = i := Option.some.inj hv
      rw [h.root, collect_none, List.tails, List.filter_cons_of_pos has_nil, List.filter_nil,
        List.flatMap_cons]
      rfl
    | cons b w =>
      obtain ⟨j, hj⟩ := exists_walk_longest st s w
      have hle := length_longest_le (has st s) w
      rw [List.length_cons] at hfuel
      rw [h.linked _ (List.cons_ne_nil b w) i hv, List.tail_cons, hj,
        ih hj (by omega) (fun u k hu hlen => hreport u k hu (by rw [List.length_cons]; omega)),
        filter_tails_cons (has_iff.2 ⟨i, hv⟩), List.flatMap_cons]

/-- Reading a text reports all occurrences in it. -/
theorem scan_eq (h : Linked st s) {report : ℕ → Option ℕ → Except Failure (List β)}
    {found : ℕ → List α → List β}
    (hreport : ∀ pos u j, walk st s u 0 = some j → u.length ≤ pos + 1 →
      report pos (st.output s j) = .ok (found pos u)) (text : List α)
    (hi : walk st s (longest (has st s) t) 0 = some i) :
    scan st s report text i t.length = .ok (occurrences (has st s) found t text) := by
  induction text generalizing t i with
  | nil => rfl
  | cons c text ih =>
    obtain ⟨j, hadvance, hj⟩ := @advance_eq S α st s _ c i (st.size s) h hi (h.tree.length_lt hi)
    rw [← longest_snoc (fun u c => has_of_append)] at hj
    have hle := length_longest_le (has st s) (t ++ [c])
    rw [List.length_append, List.length_singleton] at hle
    have hcollect := collect_eq h hj (h.tree.length_lt hj)
      (fun u k hu hlen => hreport t.length u k hu (hlen.trans hle))
    have hlength : t.length + 1 = (t ++ [c]).length := by
      rw [List.length_append, List.length_singleton]
    rw [scan, hadvance]
    dsimp only
    rw [hcollect]
    dsimp only
    rw [hlength, ih hj, ← filter_tails_longest]
    rfl

end Reading

/-! ## Words are added -/

section Growing

variable {S α : Type} {st : Store S α} {s s' : S} {u v w p : List α} {c : α} {i j : ℕ}

/-- A node was appended, and it is the child of `i` behind `c`. -/
structure Grown (st : Store S α) (s s' : S) (i : ℕ) (c : α) : Prop where
  size : st.size s' = st.size s + 1
  child : ∀ k d j, st.child s' k d = some j ↔
    (k = i ∧ d = c ∧ j = st.size s) ∨ st.child s k d = some j
  edges : ∀ k d j, (d, j) ∈ st.edges s' k ↔ (k = i ∧ d = c ∧ j = st.size s) ∨ (d, j) ∈ st.edges s k
  link : ∀ k < st.size s, st.link s' k = st.link s k
  output : ∀ k < st.size s, st.output s' k = st.output s k
  leaf : ∀ d, st.child s (st.size s) d = none ∧ ∀ j, (d, j) ∉ st.edges s (st.size s)
  unlinked : st.link s' (st.size s) = none
  silent : st.output s' (st.size s) = none

/-- Words were added: what was there stays, and what is new has neither a link nor an output. -/
structure Extends (st : Store S α) (s s' : S) (p : List α) : Prop where
  tree : Tree st s'
  old : ∀ w i, walk st s w 0 = some i →
    walk st s' w 0 = some i ∧ st.link s' i = st.link s i ∧ st.output s' i = st.output s i
  new : ∀ w i, walk st s' w 0 = some i → walk st s w 0 = none →
    w <+: p ∧ st.link s' i = none ∧ st.output s' i = none

theorem Extends.refl (h : Tree st s) (p : List α) : Extends st s s p :=
  ⟨h, fun _ _ hi => ⟨hi, rfl, rfl⟩, fun w i hi hno => by
    rw [hno] at hi
    cases hi⟩

theorem Extends.trans {s₁ s₂ s₃ : S} (h : Extends st s₁ s₂ p) (h' : Extends st s₂ s₃ p) :
    Extends st s₁ s₃ p := by
  refine ⟨h'.tree, fun w i hi => ?_, fun w i hi hno => ?_⟩
  · obtain ⟨hi₂, hlink₂, hout₂⟩ := h.old w i hi
    obtain ⟨hi₃, hlink₃, hout₃⟩ := h'.old w i hi₂
    exact ⟨hi₃, hlink₃.trans hlink₂, hout₃.trans hout₂⟩
  · cases hmid : walk st s₂ w 0 with
    | none => exact h'.new w i hi hmid
    | some j =>
      obtain ⟨hj, hlink, hout⟩ := h'.old w j hmid
      obtain rfl := Option.some.inj (hj.symm.trans hi)
      obtain ⟨hstart, hlink₂, hout₂⟩ := h.new w j hmid hno
      exact ⟨hstart, hlink.trans hlink₂, hout.trans hout₂⟩

theorem Extends.mono (h : Extends st s s' p) {q : List α} (hpq : p <+: q) : Extends st s s' q :=
  ⟨h.tree, h.old, fun w i hi hno => ⟨(h.new w i hi hno).1.trans hpq, (h.new w i hi hno).2⟩⟩

/-- The words of a trie that has grown. -/
theorem Grown.walk_iff (h : Grown st s s' i c) (htree : Tree st s) (hu : walk st s u 0 = some i)
    (hmissing : st.child s i c = none) : walk st s' w 0 = some j ↔
      (w = u ++ [c] ∧ j = st.size s) ∨ walk st s w 0 = some j := by
  induction w using List.reverseRecOn generalizing j with
  | nil =>
    refine (or_iff_right fun hnil => ?_).symm
    exact List.append_ne_nil_of_right_ne_nil u (List.cons_ne_nil c []) hnil.1.symm
  | append_singleton w d ih =>
    rw [walk_snoc, walk_snoc, Option.bind_eq_some_iff, Option.bind_eq_some_iff]
    constructor
    · rintro ⟨k, hk, hj⟩
      rcases ih.1 hk with ⟨rfl, rfl⟩ | hold
      · rcases (h.child _ d j).1 hj with ⟨hself, -, -⟩ | hchild
        · exact absurd (htree.lt_size u i hu) (by omega)
        · rw [(h.leaf d).1] at hchild
          cases hchild
      · rcases (h.child k d j).1 hj with ⟨rfl, rfl, rfl⟩ | hchild
        · rw [htree.unique w u k hold hu]
          exact Or.inl ⟨rfl, rfl⟩
        · exact Or.inr ⟨k, hold, hchild⟩
    · rintro (⟨hword, rfl⟩ | ⟨k, hk, hj⟩)
      · obtain ⟨rfl, hd⟩ := List.append_inj' hword rfl
        obtain rfl := List.head_eq_of_cons_eq hd
        exact ⟨i, ih.2 (Or.inr hu), (h.child i d _).2 (Or.inl ⟨rfl, rfl, rfl⟩)⟩
      · exact ⟨k, ih.2 (Or.inr hk), (h.child k d j).2 (Or.inr hj)⟩

theorem Grown.extends (h : Grown st s s' i c) (htree : Tree st s) (hu : walk st s u 0 = some i)
    (hmissing : st.child s i c = none) : Extends st s s' (u ++ [c]) := by
  have hwalk : ∀ {w j}, walk st s' w 0 = some j ↔
      (w = u ++ [c] ∧ j = st.size s) ∨ walk st s w 0 = some j := h.walk_iff htree hu hmissing
  refine ⟨⟨fun v w k hv hw => ?_, fun w k hw => ?_, fun w k d j hw => ?_⟩, fun w k hk => ?_,
    fun w k hk hno => ?_⟩
  · rcases hwalk.1 hv with ⟨rfl, rfl⟩ | hv
    · rcases hwalk.1 hw with ⟨rfl, -⟩ | hw
      · rfl
      · exact absurd (htree.lt_size _ _ hw) (Nat.lt_irrefl _)
    · rcases hwalk.1 hw with ⟨rfl, rfl⟩ | hw
      · exact absurd (htree.lt_size _ _ hv) (Nat.lt_irrefl _)
      · exact htree.unique v w k hv hw
  · rw [h.size]
    rcases hwalk.1 hw with ⟨-, rfl⟩ | hw
    · exact Nat.lt_succ_self _
    · exact Nat.lt_succ_of_lt (htree.lt_size w k hw)
  · rw [h.edges, h.child]
    refine or_congr_right ?_
    rcases hwalk.1 hw with ⟨-, rfl⟩ | hw
    · exact iff_of_false ((h.leaf d).2 j) (by rw [(h.leaf d).1]; nofun)
    · exact htree.edges w k d j hw
  · have hlt := htree.lt_size w k hk
    exact ⟨hwalk.2 (Or.inr hk), h.link k hlt, h.output k hlt⟩
  · rcases hwalk.1 hk with ⟨rfl, rfl⟩ | hk
    · exact ⟨List.prefix_rfl, h.unlinked, h.silent⟩
    · rw [hno] at hk
      cases hk

structure Idle (st : Store S α) (s s' : S) : Prop where
  size : st.size s ≤ st.size s'
  child : ∀ k < st.size s, st.child s' k = st.child s k
  edges : ∀ k < st.size s, st.edges s' k = st.edges s k
  link : ∀ k < st.size s, st.link s' k = st.link s k
  output : ∀ k < st.size s, st.output s' k = st.output s k

theorem Idle.refl (st : Store S α) (s : S) : Idle st s s :=
  ⟨Nat.le_refl _, fun _ _ => rfl, fun _ _ => rfl, fun _ _ => rfl, fun _ _ => rfl⟩

theorem Idle.walk (h : Idle st s s') (htree : Tree st s) (w : List α) :
    walk st s' w 0 = walk st s w 0 := by
  induction w using List.reverseRecOn with
  | nil => rfl
  | append_singleton w d ih =>
    rw [walk_snoc, walk_snoc, ih]
    cases hw : SuffixLinks.walk st s w 0 with
    | none => rfl
    | some k => exact congrFun (h.child k (htree.lt_size w k hw)) d

theorem Idle.has (h : Idle st s s') (htree : Tree st s) : has st s' = has st s := by
  funext w
  rw [SuffixLinks.has, SuffixLinks.has, h.walk htree]

theorem Idle.tree (h : Idle st s s') (htree : Tree st s) : Tree st s' := by
  refine ⟨fun u v i hu hv => ?_, fun w i hw => ?_, fun w i c j hw => ?_⟩
  · rw [h.walk htree] at hu hv
    exact htree.unique u v i hu hv
  · rw [h.walk htree] at hw
    exact Nat.lt_of_lt_of_le (htree.lt_size w i hw) h.size
  · rw [h.walk htree] at hw
    have hlt := htree.lt_size w i hw
    rw [h.edges i hlt, h.child i hlt]
    exact htree.edges w i c j hw

theorem Idle.extends (h : Idle st s s') (htree : Tree st s) (p : List α) : Extends st s s' p := by
  refine ⟨h.tree htree, fun w i hi => ?_, fun w i hi hno => ?_⟩
  · have hlt := htree.lt_size w i hi
    exact ⟨(h.walk htree w).trans hi, h.link i hlt, h.output i hlt⟩
  · rw [h.walk htree, hno] at hi
    cases hi

theorem Idle.linked (h : Idle st s s') (hlinked : Linked st s) : Linked st s' := by
  have hroot := hlinked.tree.lt_size [] 0 rfl
  refine ⟨h.tree hlinked.tree, (h.link 0 hroot).trans hlinked.root, fun w hw i hi => ?_⟩
  rw [h.walk hlinked.tree] at hi
  rw [h.link i (hlinked.tree.lt_size w i hi), h.walk hlinked.tree, h.has hlinked.tree]
  exact hlinked.linked w hw i hi

def insertPath (add : S → ℕ → α → Option ℕ × S) : List α → ℕ → S → Option ℕ × S
  | [], i, s => (some i, s)
  | c :: p, i, s =>
      match add s i c with
      | (none, s) => (none, s)
      | (some j, s) => insertPath add p j s

/-- What adding one symbol does: a child that is there is found, and a new one is appended where there
is room. -/
structure Adds (st : Store S α) (add : S → ℕ → α → Option ℕ × S) (good : S → Prop)
    (grows : S → Bool) : Prop where
  found : ∀ s i c j, good s → i < st.size s → st.child s i c = some j → add s i c = (some j, s)
  grown : ∀ s i c, good s → i < st.size s → st.child s i c = none → grows s = true →
    ∃ s', add s i c = (some (st.size s), s') ∧ Grown st s s' i c ∧ good s'
  idle : ∀ s i c, good s → i < st.size s → st.child s i c = none → grows s = false →
    ∃ s', add s i c = (none, s') ∧ Idle st s s' ∧ good s'

variable {add : S → ℕ → α → Option ℕ × S} {good : S → Prop} {grows : S → Bool}

/-- What has been added, and where the word ends. -/
theorem Adds.insertPath (h : Adds st add good grows) (hgood : good s) (htree : Tree st s)
    (hu : walk st s u 0 = some i) : ∃ o s', insertPath add p i s = (o, s') ∧ good s' ∧
      Extends st s s' (u ++ p) ∧ ∀ j, o = some j → walk st s' (u ++ p) 0 = some j := by
  induction p generalizing s u i with
  | nil =>
    rw [List.append_nil]
    refine ⟨some i, s, rfl, hgood, Extends.refl htree u, fun j hj => ?_⟩
    obtain rfl := Option.some.inj hj
    exact hu
  | cons c p ih =>
    have hlt := htree.lt_size u i hu
    rw [List.append_cons, SuffixLinks.insertPath]
    cases hchild : st.child s i c with
    | some j =>
      rw [h.found s i c j hgood hlt hchild]
      exact ih hgood htree ((walk_snoc_of_eq hu).trans hchild)
    | none =>
      cases hgrows : grows s with
      | true =>
        obtain ⟨s₁, hadd, hgrown, hgood₁⟩ := h.grown s i c hgood hlt hchild hgrows
        have hext := hgrown.extends htree hu hchild
        rw [hadd]
        obtain ⟨o, s', heq, hgood', hext', hend⟩ := ih hgood₁ hext.tree
          ((hgrown.walk_iff htree hu hchild).2 (Or.inl ⟨rfl, rfl⟩))
        exact ⟨o, s', heq, hgood', (hext.mono (List.prefix_append _ p)).trans hext', hend⟩
      | false =>
        obtain ⟨s', hadd, hidle, hgood'⟩ := h.idle s i c hgood hlt hchild hgrows
        rw [hadd]
        exact ⟨none, s', rfl, hgood', hidle.extends htree _, nofun⟩

theorem Adds.insertPath_found (h : Adds st add good grows) (hgood : good s) (htree : Tree st s)
    (hu : walk st s u 0 = some i) (hp : has st s (u ++ p) = true) :
    ∃ j, SuffixLinks.insertPath add p i s = (some j, s) := by
  induction p generalizing u i with
  | nil => exact ⟨i, rfl⟩
  | cons c p ih =>
    rw [List.append_cons] at hp
    obtain ⟨j, hj⟩ := has_iff.1 (has_of_append hp)
    rw [SuffixLinks.insertPath, h.found s i c j hgood (htree.lt_size u i hu)
      ((walk_snoc_of_eq hu).symm.trans hj)]
    exact ih hj hp

theorem Adds.insertPath_full (h : Adds st add good grows) (hgood : good s) (htree : Tree st s)
    (hfull : Full st s) (hu : walk st s u 0 = some i)
    (hp : SuffixLinks.insertPath add p i s = (some j, s')) : Full st s' := by
  induction p generalizing s u i with
  | nil =>
    obtain ⟨-, rfl⟩ := Prod.mk.inj hp
    exact hfull
  | cons c p ih =>
    have hlt := htree.lt_size u i hu
    rw [SuffixLinks.insertPath] at hp
    cases hchild : st.child s i c with
    | some k =>
      rw [h.found s i c k hgood hlt hchild] at hp
      exact ih hgood htree hfull ((walk_snoc_of_eq hu).trans hchild) hp
    | none =>
      cases hgrows : grows s with
      | true =>
        obtain ⟨s₁, hadd, hgrown, hgood₁⟩ := h.grown s i c hgood hlt hchild hgrows
        rw [hadd] at hp
        have hwalk : ∀ {w k}, walk st s₁ w 0 = some k ↔
            (w = u ++ [c] ∧ k = st.size s) ∨ walk st s w 0 = some k := hgrown.walk_iff htree hu hchild
        refine ih hgood₁ (hgrown.extends htree hu hchild).tree (fun k hk => ?_)
          (hwalk.2 (Or.inl ⟨rfl, rfl⟩)) hp
        rw [hgrown.size] at hk
        rcases Nat.lt_succ_iff_lt_or_eq.1 hk with hk | rfl
        · obtain ⟨w, hw⟩ := hfull k hk
          exact ⟨w, hwalk.2 (Or.inr hw)⟩
        · exact ⟨u ++ [c], hwalk.2 (Or.inl ⟨rfl, rfl⟩)⟩
      | false =>
        obtain ⟨s₁, hadd, -⟩ := h.idle s i c hgood hlt hchild hgrows
        rw [hadd] at hp
        cases hp

/-- Without room for its first missing symbol, a word changes nothing that is reached. -/
theorem Adds.insertPath_idle (h : Adds st add good grows) (hgood : good s) (htree : Tree st s)
    (hu : walk st s u 0 = some i) (hp : has st s (u ++ p) = false) (hgrows : grows s = false) :
    ∃ s', SuffixLinks.insertPath add p i s = (none, s') ∧ Idle st s s' := by
  induction p generalizing u i with
  | nil =>
    rw [List.append_nil, has, hu] at hp
    cases hp
  | cons c p ih =>
    have hlt := htree.lt_size u i hu
    rw [SuffixLinks.insertPath]
    cases hchild : st.child s i c with
    | some j =>
      rw [h.found s i c j hgood hlt hchild]
      rw [List.append_cons] at hp
      exact ih ((walk_snoc_of_eq hu).trans hchild) hp
    | none =>
      obtain ⟨s', hadd, hidle, -⟩ := h.idle s i c hgood hlt hchild hgrows
      rw [hadd]
      exact ⟨s', rfl, hidle⟩

/-- With room for its first missing symbol, a word leaves a new one. -/
theorem Adds.insertPath_grown (h : Adds st add good grows) (hgood : good s) (htree : Tree st s)
    (hu : walk st s u 0 = some i) (hp : has st s (u ++ p) = false) (hgrows : grows s = true) :
    ∃ w, has st (SuffixLinks.insertPath add p i s).2 w = true ∧ has st s w = false := by
  induction p generalizing u i with
  | nil =>
    rw [List.append_nil, has, hu] at hp
    cases hp
  | cons c p ih =>
    have hlt := htree.lt_size u i hu
    rw [SuffixLinks.insertPath]
    cases hchild : st.child s i c with
    | some j =>
      rw [h.found s i c j hgood hlt hchild]
      rw [List.append_cons] at hp
      exact ih ((walk_snoc_of_eq hu).trans hchild) hp
    | none =>
      obtain ⟨s₁, hadd, hgrown, hgood₁⟩ := h.grown s i c hgood hlt hchild hgrows
      have hnew := (hgrown.walk_iff htree hu hchild).2 (Or.inl ⟨rfl, rfl⟩)
      obtain ⟨o, s', heq, -, hext, -⟩ := h.insertPath (p := p) hgood₁
        (hgrown.extends htree hu hchild).tree hnew
      rw [hadd]
      dsimp only
      rw [heq]
      refine ⟨u ++ [c], has_iff.2 ⟨_, (hext.old _ _ hnew).1⟩, ?_⟩
      rw [has, walk_snoc_of_eq hu, hchild]
      rfl

/-- Where a trie has a word that another one does not have, it has one that does not go on. -/
theorem exists_maximal (htree : Tree st s') (hw : has st s' w = true) (hno : has st s w = false) :
    ∃ v, has st s' v = true ∧ has st s v = false ∧ ∀ d, has st s' (v ++ [d]) = false := by
  obtain ⟨n, hn⟩ : ∃ n, n = st.size s' - w.length := ⟨_, rfl⟩
  induction n using Nat.strong_induction_on generalizing w with
  | h n ih =>
    by_cases hlonger : ∃ d, has st s' (w ++ [d]) = true
    · obtain ⟨d, hd⟩ := hlonger
      obtain ⟨i, hi⟩ := has_iff.1 hd
      have hlt := htree.length_lt hi
      have hlen : (w ++ [d]).length = w.length + 1 := List.length_append
      refine ih _ ?_ hd ?_ rfl
      · omega
      · rw [Bool.eq_false_iff]
        intro hold
        rw [has_of_append hold] at hno
        cases hno
    · exact ⟨w, hw, hno, fun d => Bool.eq_false_iff.2 fun hd => hlonger ⟨d, hd⟩⟩

/-- A text that leads to a node without a link, and on from there, is not read to its end. -/
theorem scan_unlinked {β : Type} {report : ℕ → Option ℕ → Except Failure (List β)} {k pos : ℕ}
    (hsize : 0 < st.size s) (hw : walk st s w i = some k) (hk : k ≠ 0) (hlink : st.link s k = none)
    {d : α} (hd : st.child s k d = none) (rest : List α) (found : List β) :
    scan st s report (w ++ d :: rest) i pos ≠ .ok found := by
  obtain ⟨n, hn⟩ : ∃ n, st.size s = n + 1 := ⟨_, (Nat.sub_add_cancel hsize).symm⟩
  induction w generalizing i pos found with
  | nil =>
    obtain rfl := Option.some.inj hw
    rw [List.nil_append, scan, hn, advance, hd]
    dsimp only
    rw [if_neg hk, hlink]
    nofun
  | cons c w ih =>
    obtain ⟨j, hj, hrest⟩ := Option.bind_eq_some_iff.1 hw
    rw [List.cons_append, scan, hn, advance, hj]
    dsimp only
    cases collect st s (report pos) (n + 1) (some j) with
    | error e => nofun
    | ok here =>
      dsimp only
      cases hscan : scan st s report (w ++ d :: rest) j (pos + 1) with
      | error e => nofun
      | ok later => exact absurd hscan (ih hrest later)

end Growing

end SuffixLinks
