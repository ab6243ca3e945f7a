import TurboUtils.Cstl.Rbtree.Contents

/-! `rbtree_t` is an ordered multimap: each call does to the tree what the multimap does to its
entries, and without duplicates what a finite map does. -/
namespace Cstl.Rbtree

open RedBlack Std LinkedChain OrderedMultimap

variable {K V : Type} {cmp : K → K → Ordering} {t : RbTree K V} {s : State K V}

/-- The answer of `rbtree_put`. -/
def PutResult.answer : PutResult → Answer V
  | .inserted => .inserted
  | .replaced => .replaced
  | .capacityExceeded => .capacityExceeded

theorem cut_unique {α : Type*} {p : α → Prop} {xs ys xs' ys' : List α}
    (h : xs ++ ys = xs' ++ ys') (hx : ∀ a ∈ xs, p a) (hy : ∀ a ∈ ys, ¬ p a)
    (hx' : ∀ a ∈ xs', p a) (hy' : ∀ a ∈ ys', ¬ p a) : xs = xs' ∧ ys = ys' := by
  classical
  have hcut {us vs : List α} (hu : ∀ a ∈ us, p a) (hv : ∀ a ∈ vs, ¬ p a) :
      (us ++ vs).filter p = us ∧ (us ++ vs).filter (¬ p ·) = vs := by
    have h1 : us.filter p = us := List.filter_eq_self.mpr (by simpa using hu)
    have h2 : vs.filter p = [] := List.filter_eq_nil_iff.mpr (by simpa using hv)
    have h3 : us.filter (¬ p ·) = [] := List.filter_eq_nil_iff.mpr (by simpa using hu)
    have h4 : vs.filter (¬ p ·) = vs := List.filter_eq_self.mpr (by simpa using hv)
    rw [List.filter_append, List.filter_append, h1, h2, h3, h4, List.append_nil, List.nil_append]
    exact ⟨rfl, rfl⟩
  have hl := hcut hx hy
  rw [h, (hcut hx' hy').1, (hcut hx' hy').2] at hl
  exact ⟨hl.1.symm, hl.2.symm⟩

/-! ## `rbtree_put` -/

/-- The place of a new key cuts the entries behind those whose keys are not greater. -/
theorem Ok.place [TransCmp cmp] (h : Ok cmp t s) {key : K} {k : List (Frame ℕ)} {c : Ordering}
    (hk : before k ++ after k = s.entries.map Entry.name)
    (hfit : Fitting cmp t (keysOf t key) key k c) :
    before k = (rank cmp .lt key s.entries ++ rank cmp .eq key s.entries).map Entry.name ∧
      after k = (rank cmp .gt key s.entries).map Entry.name := by
  have hkey : ∀ e ∈ s.entries, (cmp key (keysOf t key e.name) ≠ .lt ↔ cmp e.key key ≠ .gt) := by
    intro e he
    rw [h.keysOf_eq he, ne_eq, ne_eq, OrientedCmp.gt_iff_lt]
  have hsplit := congrArg (List.map Entry.name) (h.sorted.split key)
  rw [List.map_append] at hsplit
  apply cut_unique (p := fun i => cmp key (keysOf t key i) ≠ .lt) (hk.trans hsplit)
  · intro i hi
    rcases hfit.before i hi with hgt | ⟨-, heq⟩
    · simp [hgt]
    · simp [heq]
  · intro i hi
    simp [hfit.after i hi]
  · intro i hi
    obtain ⟨e, he, rfl⟩ := List.mem_map.mp hi
    rw [List.mem_append, mem_rank, mem_rank] at he
    rcases he with ⟨he, hlt⟩ | ⟨he, heq⟩
    · exact (hkey e he).mpr (by simp [hlt])
    · exact (hkey e he).mpr (by simp [heq])
  · intro i hi hne
    obtain ⟨e, he, rfl⟩ := List.mem_map.mp hi
    obtain ⟨he, hgt⟩ := mem_rank.mp he
    exact (hkey e he).mp hne hgt

theorem Ok.no_equal [TransCmp cmp] (h : Ok cmp t s) {key : K} {k : List (Frame ℕ)} {c : Ordering}
    (hk : before k ++ after k = s.entries.map Entry.name)
    (hfit : Fitting cmp t (keysOf t key) key k c) (hdup : t.allowDuplicates = false) :
    rank cmp .eq key s.entries = [] := by
  obtain ⟨hbefore, -⟩ := h.place hk hfit
  rw [List.eq_nil_iff_forall_not_mem]
  intro e he
  obtain ⟨he', heq⟩ := mem_rank.mp he
  have hplace : e.name ∈ before k := by
    rw [hbefore, List.map_append]
    exact List.mem_append_right _ (List.mem_map_of_mem he)
  rcases hfit.before e.name hplace with hgt | ⟨hyes, -⟩
  · rw [h.keysOf_eq he', OrientedCmp.gt_iff_lt, heq] at hgt
    exact absurd hgt (by simp)
  · exact absurd (hdup.symm.trans hyes) (by simp)

theorem Fitting.beside {keys : ℕ → K} {key : K} {k : List (Frame ℕ)} {c : Ordering}
    (h : Fitting cmp t keys key k c) : Beside (above k) c (RedBlack.before k)
    (RedBlack.after k) := by
  cases k with
  | nil => exact .alone rfl rfl rfl
  | cons f k =>
    have hside := h.side f rfl
    by_cases hc : c = .lt
    · rw [if_pos hc] at hside
      exact .before f.elem rfl hc (by simp [RedBlack.after, hside])
    · rw [if_neg hc] at hside
      exact .behind f.elem rfl hc (by simp [RedBlack.before, hside])

theorem attach_links {keys : ℕ → K} {key : K} {k : List (Frame ℕ)} {c : Ordering}
    (h : Fitting cmp t keys key k c) (u : RbTree K V) (n : ℕ) :
    (u.attach n (above k) c).links = setSlot (u.links.setParent n (above k)) k (some n) := by
  cases k with
  | nil => rfl
  | cons f k =>
    have hside := h.side f rfl
    by_cases hc : c = .lt
    · rw [if_pos hc] at hside
      simp only [RbTree.attach, above, hc, if_true, (RbTree.sameTree_setAfter _ _ _).1, setSlot, hside]
      rfl
    · rw [if_neg hc] at hside
      simp only [RbTree.attach, above, hc, if_false, (RbTree.sameTree_setBefore _ _ _).1, setSlot, hside]
      rfl

theorem attach_rest (u : RbTree K V) (n : ℕ) (parent : Option ℕ) (c : Ordering) :
    (u.attach n parent c).object = u.object ∧ (u.attach n parent c).size = u.size ∧
      (u.attach n parent c).unused = u.unused ∧
      (u.attach n parent c).elementLimit = u.elementLimit ∧
      (u.attach n parent c).allowDuplicates = u.allowDuplicates := by
  cases parent with
  | none => exact ⟨rfl, rfl, rfl, rfl, rfl⟩
  | some i =>
    by_cases hc : c = .lt
    · simp only [RbTree.attach, hc, if_true]
      exact (RbTree.sameTree_setAfter _ _ _).2
    · simp only [RbTree.attach, hc, if_false]
      exact (RbTree.sameTree_setBefore _ _ _).2

/-- `rbtree_put` of a key that is there gives it the value. -/
theorem replaced_ok [TransCmp cmp] (h : Ok cmp t s) (hdup : t.allowDuplicates = false)
    {e : Entry K V} (he : e ∈ s.entries) {key : K} (hkey : cmp e.key key = .eq) (value : V) :
    Ok cmp { t with object := Function.update t.object e.name (some (e.key, value)) }
      ⟨s.entries.map fun x => if cmp x.key key = .eq then { x with value := value } else x,
        s.created⟩ := by
  have hnames : (s.entries.map fun x => if cmp x.key key = .eq then { x with value := value } else x).map
      Entry.name = s.entries.map Entry.name := by
    rw [List.map_map]
    apply List.map_congr_left
    intro x _
    dsimp only [Function.comp]
    split_ifs <;> rfl
  have hkeys : ∀ x : Entry K V,
      (if cmp x.key key = .eq then { x with value := value } else x).key = x.key := by
    intro x
    split_ifs <;> rfl
  have hname : ∀ x : Entry K V,
      (if cmp x.key key = .eq then { x with value := value } else x).name = x.name := by
    intro x
    split_ifs <;> rfl
  obtain ⟨T, hw, hvalid, hT⟩ := h.tree
  constructor
  · exact ⟨T, hw, hvalid, hT.trans hnames.symm⟩
  · rw [hnames]
    exact h.list
  · intro y hy
    obtain ⟨x, hx, rfl⟩ := List.mem_map.mp hy
    by_cases hxk : cmp x.key key = .eq
    · obtain rfl := (h.apart hdup).eq_of_eq hx he hxk hkey
      simp [hxk]
    · have hne : x.name ≠ e.name := by
        intro heq
        apply hxk
        rw [List.inj_on_of_nodup_map h.nodup hx he heq, hkey]
      simp [hxk, Function.update_of_ne hne, h.object x hx]
  · simpa using h.size_eq
  · exact h.unused_eq
  · intro y hy
    obtain ⟨x, hx, rfl⟩ := List.mem_map.mp hy
    rw [hname]
    exact h.fresh x hx
  · rw [Sorted, List.pairwise_map]
    apply h.sorted.imp
    intro a b hab
    rwa [Before, hkeys, hkeys, hname, hname]
  · intro _
    rw [Apart, List.pairwise_map]
    apply (h.apart hdup).imp
    intro a b hab
    rwa [hkeys, hkeys]

/-- `rbtree_put` of a new key. -/
theorem inserted_ok [TransCmp cmp] (h : Ok cmp t s) {key : K} {k : List (Frame ℕ)} {c : Ordering}
    {T : Shape ℕ} (hw : Whole t.links T) (hvalid : T.Valid)
    (hT : T.inorder = s.entries.map Entry.name) (hplug : plug k .nil = T)
    (hfit : Fitting cmp t (keysOf t key) key k c) (value : V) :
    ∃ links, Links.insertFix t.fuel ((t.nodeCreate key value).1.attach t.unused (above k) c).links
        t.unused = some links ∧
      Ok cmp { (t.nodeCreate key value).1.attach t.unused (above k) c with
          links := links, size := ((t.nodeCreate key value).1.attach t.unused (above k) c).size + 1 }
        ⟨rank cmp .lt key s.entries ++ rank cmp .eq key s.entries ++
          ⟨s.created, key, value⟩ :: rank cmp .gt key s.entries, s.created + 1⟩ := by
  have hnames : before k ++ after k = s.entries.map Entry.name := by
    rw [← hT, ← hplug, inorder_plug]
    simp
  obtain ⟨hbefore, hafter⟩ := h.place hnames hfit
  have hfresh : t.unused ∉ s.entries.map Entry.name := by
    intro hmem
    obtain ⟨e, he, heq⟩ := List.mem_map.mp hmem
    exact absurd (h.fresh e he) (by rw [heq, h.unused_eq]; exact lt_irrefl _)
  have hn : t.unused ∉ nodes k := by rwa [nodes, hnames]
  obtain ⟨hobject, hsize, hunused, -, hdup⟩ :=
    attach_rest (t.nodeCreate key value).1 t.unused (above k) c
  subst hplug
  -- the new red node has only a red parent to fear
  have hrise : Rising k (.node true .nil t.unused .nil) := by
    obtain ⟨hblack, hcalm, m, hm⟩ := hvalid
    obtain ⟨n, hnil, hfits⟩ := balanced_plug.mp hm
    refine ⟨rfl, ⟨by simp, trivial, trivial⟩, (calm_plug.mp hcalm).2.1, ?_, m,
      balanced_plug.mpr ⟨n, ⟨n, rfl, hnil, hnil⟩, hfits⟩⟩
    cases k with
    | nil => rfl
    | cons f k => rwa [red_plug] at hblack
  have hlength : k.length < t.fuel := by
    have hlen := congrArg List.length hnames
    rw [List.length_append, List.length_map, ← h.size_eq] at hlen
    have hpath := length_path k
    rw [RbTree.fuel]
    omega
  have hwhole := attach_whole hw hn
  obtain ⟨links, T', hrun, hw', hvalid', hin⟩ := insertFix_spec hlength hwhole rfl hrise
  have horder : before k ++ t.unused :: after k =
      (rank cmp .lt key s.entries ++ rank cmp .eq key s.entries ++
        ⟨s.created, key, value⟩ :: rank cmp .gt key s.entries).map Entry.name := by
    rw [List.map_append, List.map_cons, ← hbefore, ← hafter, ← h.unused_eq]
  have hin' := hin.trans (inorder_plug k _)
  rw [Shape.inorder_node, Shape.inorder_nil, List.nil_append, List.append_assoc, List.singleton_append,
    horder] at hin'
  have hold : ∀ e ∈ rank cmp .lt key s.entries ++ rank cmp .eq key s.entries ++
      rank cmp .gt key s.entries, e ∈ s.entries := by
    intro e he
    rwa [← h.sorted.split key] at he
  have hmem : ∀ e ∈ rank cmp .lt key s.entries ++ rank cmp .eq key s.entries ++
      ⟨s.created, key, value⟩ :: rank cmp .gt key s.entries,
      e = ⟨s.created, key, value⟩ ∨ e ∈ s.entries := by
    intro e he
    rw [List.mem_append, List.mem_cons] at he
    rcases he with he | he | he
    · exact .inr (hold e (List.mem_append_left _ he))
    · exact .inl he
    · exact .inr (hold e (List.mem_append_right _ he))
  refine ⟨links, ?_, ⟨⟨T', hw', hvalid', hin'⟩, ?_, fun e he => ?_, ?_, ?_, fun e he => ?_,
    h.sorted.insert h.fresh key value, fun hno => ?_⟩⟩
  · rw [attach_links hfit]
    exact hrun
  · have hlist : Linked (t.nodeCreate key value).1.next (t.nodeCreate key value).1.previous
        (t.nodeCreate key value).1.head (t.nodeCreate key value).1.tail (before k ++ after k) := by
      rw [hnames]
      refine ⟨h.list.first_eq, h.list.last_eq, h.list.nodup, seg_congr (fun i hi => ?_) h.list.seg⟩
      have hne : i ≠ t.unused := fun heq => hfresh (heq ▸ hi)
      exact ⟨Function.update_of_ne hne _ _, Function.update_of_ne hne _ _⟩
    have hnew := attach_list hlist (by rwa [hnames]) (Function.update_self _ _ _)
      (Function.update_self _ _ _) hfit.beside
    rw [horder] at hnew
    exact hnew
  · rw [hobject]
    rcases hmem e he with rfl | he
    · rw [← h.unused_eq]
      exact Function.update_self _ _ _
    · have hne : e.name ≠ t.unused := fun heq => hfresh (heq ▸ List.mem_map_of_mem he)
      exact (Function.update_of_ne hne _ _).trans (h.object e he)
  · rw [hsize]
    have hlen := congrArg List.length (h.sorted.split key)
    simp only [List.length_append] at hlen
    simp only [RbTree.nodeCreate, h.size_eq, List.length_append, List.length_cons]
    omega
  · rw [hunused, ← h.unused_eq]
    rfl
  · rcases hmem e he with rfl | he
    · exact Nat.lt_succ_self _
    · exact Nat.lt_succ_of_lt (h.fresh e he)
  · rw [hdup] at hno
    have hno : t.allowDuplicates = false := hno
    exact (h.apart hno).insert (h.sorted.split key) (h.no_equal hnames hfit hno) _ _

/-- Only the entries are others. -/
def SameKind (t t' : RbTree K V) : Prop :=
  t'.elementLimit = t.elementLimit ∧ t'.allowDuplicates = t.allowDuplicates

theorem put_ok [TransCmp cmp] (h : Ok cmp t s) (key : K) (value : V) :
    ∃ t' r, t.put cmp key value = some (t', r) ∧
      Ok cmp t' (step cmp t.allowDuplicates t.elementLimit s (.put key value)).1 ∧
      r.answer = (step cmp t.allowDuplicates t.elementLimit s (.put key value)).2 ∧
      SameKind t t' := by
  obtain ⟨T, hw, hvalid, hT⟩ := h.tree
  have hlen : T.inorder.length ≤ t.fuel := by
    rw [hT, List.length_map, RbTree.fuel, h.size_eq]
    exact Nat.le_succ _
  have hstart : Fitting cmp t (keysOf t key) key [] .eq := ⟨by simp [before], by simp [after], by simp⟩
  rcases descend_spec hw.rep (h.keyed hT key) hstart hlen with
    ⟨i, hi, hrun, hdup, heq⟩ | ⟨k, c, hrun, hplug, hfit⟩
  · rw [hT, List.mem_map] at hi
    obtain ⟨e, he, rfl⟩ := hi
    rw [h.keysOf_eq he] at heq
    have hkey := OrientedCmp.eq_symm heq
    have hany : rank cmp .eq key s.entries ≠ [] := List.ne_nil_of_mem (mem_rank.mpr ⟨he, hkey⟩)
    have hstep : step cmp t.allowDuplicates t.elementLimit s (.put key value) =
        (⟨s.entries.map fun x => if cmp x.key key = .eq then { x with value := value } else x,
          s.created⟩, .replaced) := by
      rw [step, if_pos ⟨hdup, hany⟩]
    rw [hstep]
    refine ⟨_, .replaced, ?_, replaced_ok h hdup he hkey value, rfl, rfl, rfl⟩
    rw [RbTree.put, hw.root]
    simp [show t.descend cmp key t.fuel (ptr T) none .eq = some (.equal e.name) from hrun,
      h.keyOf_eq he]
  · have hnames : before k ++ after k = s.entries.map Entry.name := by
      rw [← hT, ← show plug k .nil = T from hplug, inorder_plug]
      simp
    have hnot : ¬ (t.allowDuplicates = false ∧ rank cmp .eq key s.entries ≠ []) := by
      rintro ⟨hdup, hany⟩
      exact hany (h.no_equal hnames hfit hdup)
    have hdescend : t.descend cmp key t.fuel t.links.root none .eq = some (.below (above k) c) := by
      rw [hw.root]
      exact hrun
    by_cases hfull : t.elementLimit ≤ s.entries.length
    · have hstep : step cmp t.allowDuplicates t.elementLimit s (.put key value) =
          (s, .capacityExceeded) := by
        rw [step, if_neg hnot, if_pos hfull]
      rw [hstep]
      refine ⟨t, .capacityExceeded, ?_, h, rfl, rfl, rfl⟩
      rw [← h.size_eq] at hfull
      rw [RbTree.put, hdescend]
      simp [hfull]
    · have hstep : step cmp t.allowDuplicates t.elementLimit s (.put key value) =
          (⟨rank cmp .lt key s.entries ++ rank cmp .eq key s.entries ++
            ⟨s.created, key, value⟩ :: rank cmp .gt key s.entries, s.created + 1⟩, .inserted) := by
        rw [step, if_neg hnot, if_neg hfull]
      rw [hstep]
      obtain ⟨links, hfix, hok⟩ := inserted_ok h hw hvalid hT hplug hfit value
      obtain ⟨-, -, -, hlimit, hdup⟩ := attach_rest (t.nodeCreate key value).1 t.unused (above k) c
      rw [← h.size_eq] at hfull
      refine ⟨_, .inserted, ?_, hok, rfl, hlimit, hdup⟩
      rw [RbTree.put, hdescend]
      simp only [Option.bind_eq_bind, Option.bind_some, if_neg hfull]
      rw [show (t.nodeCreate key value).2 = t.unused from rfl, hfix]
      rfl

/-! ## `rbtree_remove_node` -/

/-- The removal of one entry. -/
theorem removeNode_middle [TransCmp cmp] {xs ys : List (Entry K V)} {e : Entry K V} {n : ℕ}
    (h : Ok cmp t ⟨xs ++ e :: ys, n⟩) :
    ∃ t', t.removeNode e.name = some (t', e.value) ∧ Ok cmp t' ⟨xs ++ ys, n⟩ ∧ SameKind t t' := by
  obtain ⟨T, hw, hvalid, hT⟩ := h.tree
  have hnodup := h.nodup
  have hobject := h.object e (by simp)
  have hlist := h.list
  simp only [List.map_append, List.map_cons] at hT hnodup hlist
  have hmem : e.name ∈ T.inorder := by
    rw [hT]
    simp
  obtain ⟨k, c, l, r, rfl⟩ := exists_plug hmem
  have hlength : (plug k (.node c l e.name r)).inorder.length < t.fuel := by
    rw [hT, RbTree.fuel, h.size_eq]
    simp
  obtain ⟨links, T', hrun, hw', hvalid', hin⟩ := removeNode_spec hw hvalid hlength
  -- the entries before and after the node are those on both sides of it in the tree
  have hcut : before k ++ l.inorder = xs.map Entry.name ∧
      r.inorder ++ after k = ys.map Entry.name := by
    rw [inorder_plug, Shape.inorder_node] at hT
    have hsame : (before k ++ l.inorder) ++ e.name :: (r.inorder ++ after k) =
        xs.map Entry.name ++ e.name :: ys.map Entry.name := by
      rw [← hT]
      simp
    have hout := hnodup
    rw [← hsame, List.nodup_middle, List.nodup_cons, List.mem_append, not_or] at hout
    have hparts := (List.append_cons_inj_of_notMem hout.1.1 hout.1.2).mp hsame
    exact ⟨hparts.1, hparts.2.2⟩
  rw [hcut.1, hcut.2] at hin
  have hprevious : t.previous e.name = (xs.map Entry.name).getLast? := hlist.cut.1 e.name rfl
  have hnext : t.next e.name = (ys.map Entry.name).head? := by
    have hcut' : Linked t.next t.previous t.head t.tail
        ((xs.map Entry.name ++ [e.name]) ++ ys.map Entry.name) := by
      rwa [List.append_assoc, List.singleton_append]
    exact hcut'.cut.2 e.name (by simp)
  have hfree := hnodup
  rw [List.nodup_middle, List.nodup_cons, List.mem_append, not_or] at hfree
  obtain ⟨⟨hex, hey⟩, hrest⟩ := hfree
  let t1 : RbTree K V := { t with links := links }
  let t2 := t1.setAfter (t1.previous e.name) (t1.next e.name)
  have hnext2 : t2.next e.name = (ys.map Entry.name).head? := by
    simp [t2, t1, hprevious, hnext]
  have hprevious2 : t2.previous e.name = (xs.map Entry.name).getLast? := by
    simp [t2, t1, hprevious]
  have hkeep : t2.previous = t.previous ∧ t2.tail = t.tail := by simp [t2, t1]
  let t3 := t2.setBefore (t2.next e.name) (t2.previous e.name)
  have hsame : RbTree.SameTree t1 t3 := by
    have hone := RbTree.sameTree_setAfter t1 (t1.previous e.name) (t1.next e.name)
    have htwo := RbTree.sameTree_setBefore t2 (t2.next e.name) (t2.previous e.name)
    obtain ⟨h1, h2, h3, h4, h5, h6⟩ := hone
    obtain ⟨g1, g2, g3, g4, g5, g6⟩ := htwo
    exact ⟨g1.trans h1, g2.trans h2, g3.trans h3, g4.trans h4, g5.trans h5, g6.trans h6⟩
  obtain ⟨hlinks, hobjects, hsize, hunused, hlimit, hdup⟩ := hsame
  refine ⟨{ t3 with object := Function.update t3.object e.name none, size := t3.size - 1 }, ?_,
    ⟨⟨T', by rwa [hlinks], hvalid', by rw [hin, List.map_append]⟩, ?_, fun x hx => ?_, ?_,
      hunused.trans h.unused_eq, fun x hx => ?_, ?_, fun hno => ?_⟩, hlimit, hdup⟩
  · rw [RbTree.removeNode, hobject, Option.bind_eq_bind, Option.bind_some]
    simp only [hrun]
    rfl
  · rw [List.map_append]
    apply hlist.unsplice (n := e.name)
    · intro i hi
      simp [t3, t2, t1, hprevious, hnext]
    · intro i hi
      simp [t3, hnext2, hprevious2, hkeep]
    · simp [t3, t2, t1, hprevious, hnext]
    · simp [t3, hnext2, hprevious2, hkeep]
  · have hne : x.name ≠ e.name := by
      intro heq
      rw [List.mem_append] at hx
      exact hx.elim (fun hx => hex (heq ▸ List.mem_map_of_mem hx))
        fun hx => hey (heq ▸ List.mem_map_of_mem hx)
    rw [hobjects]
    exact (Function.update_of_ne hne _ _).trans (h.object x (by
      rw [List.mem_append] at hx
      rcases hx with hx | hx <;> simp [hx]))
  · have hcount := h.size_eq
    rw [hsize]
    simp only [List.length_append, List.length_cons, t1] at hcount ⊢
    omega
  · apply h.fresh x
    rw [List.mem_append] at hx
    rcases hx with hx | hx <;> simp [hx]
  · exact h.sorted.sublist (List.Sublist.append_left (List.sublist_cons_self _ _) _)
  · rw [hdup] at hno
    exact (h.apart hno).sublist (List.Sublist.append_left (List.sublist_cons_self _ _) _)

theorem removeNode_ok [TransCmp cmp] (h : Ok cmp t s) {e : Entry K V} (he : e ∈ s.entries) :
    ∃ t', t.removeNode e.name = some (t', e.value) ∧
      Ok cmp t' ⟨s.entries.filter fun x => x.name ≠ e.name, s.created⟩ ∧ SameKind t t' := by
  obtain ⟨entries, n⟩ := s
  obtain ⟨xs, ys, rfl⟩ := List.append_of_mem he
  obtain ⟨t', hrun, hok, hkind⟩ := removeNode_middle h
  refine ⟨t', hrun, ?_, hkind⟩
  rwa [filter_name h.nodup]

/-! ## Multimaps -/

theorem Ok.bounds [TransCmp cmp] (h : Ok cmp t s) (key : K) :
    t.lowerBound cmp key =
        some ((rank cmp .eq key s.entries ++ rank cmp .gt key s.entries).map Entry.name).head? ∧
      t.upperBound cmp key = some ((rank cmp .gt key s.entries).map Entry.name).head? := by
  have hle := h.sorted.filter_eq key fun o => decide (o ≠ .lt)
  have hgt := h.sorted.filter_eq key fun o => decide (o = .gt)
  simp only [ne_eq, not_true, decide_false, reduceCtorEq, not_false_eq_true, decide_true, if_true,
    Bool.false_eq_true, if_false, List.nil_append] at hle hgt
  rw [h.lowerBound_eq, h.upperBound_eq, List.head?_map, List.head?_map, ← List.head?_filter,
    ← List.head?_filter]
  exact ⟨by simp only [ne_eq, hle], by simp only [hgt]⟩

theorem Ok.next_eq (h : Ok cmp t s) {xs ys : List (Entry K V)} {e : Entry K V}
    (hs : s.entries = xs ++ e :: ys) : t.next e.name = (ys.map Entry.name).head? := by
  have hlist := h.list
  rw [hs, List.append_cons, List.map_append] at hlist
  exact hlist.cut.2 e.name (by simp)

theorem Ok.head_ne (h : Ok cmp t s) {xs ys zs : List (Entry K V)} {e : Entry K V}
    (hs : s.entries = xs ++ e :: (ys ++ zs)) : some e.name ≠ (zs.map Entry.name).head? := by
  have hnodup := h.nodup
  rw [hs, List.map_append, List.map_cons, List.nodup_middle, List.nodup_cons, List.mem_append,
    not_or, List.map_append, List.mem_append, not_or] at hnodup
  exact fun heq => hnodup.1.2.2 (List.mem_of_mem_head? heq.symm)

theorem Ok.countLoop_eq (h : Ok cmp t s) {xs ys zs : List (Entry K V)}
    (hs : s.entries = xs ++ (ys ++ zs)) {fuel : ℕ} (hfuel : ys.length < fuel) (n : ℕ) :
    t.countLoop (zs.map Entry.name).head? fuel ((ys ++ zs).map Entry.name).head? n =
      some (n + ys.length) := by
  induction ys generalizing xs fuel n with
  | nil =>
    obtain ⟨fuel, rfl⟩ := Nat.exists_eq_succ_of_ne_zero (Nat.ne_zero_of_lt hfuel)
    rw [RbTree.countLoop, List.nil_append, if_pos rfl]
    rfl
  | cons e ys ih =>
    obtain ⟨fuel, rfl⟩ := Nat.exists_eq_succ_of_ne_zero (Nat.ne_zero_of_lt hfuel)
    have hstop := h.head_ne hs
    have hrest : s.entries = (xs ++ [e]) ++ (ys ++ zs) := by
      rw [hs, List.append_assoc]
      rfl
    rw [List.length_cons] at hfuel ⊢
    rw [List.cons_append] at hs ⊢
    rw [List.map_cons, List.head?_cons, RbTree.countLoop, if_neg hstop, Option.bind_eq_bind,
      Option.bind_some, h.next_eq hs, ih hrest (by omega)]
    congr 1
    omega

theorem Ok.count_eq [TransCmp cmp] (h : Ok cmp t s) (key : K) :
    t.count cmp key = some (rank cmp .eq key s.entries).length := by
  obtain ⟨hlower, hupper⟩ := h.bounds key
  have hsplit := h.sorted.split key
  rw [List.append_assoc] at hsplit
  have hfuel : (rank cmp .eq key s.entries).length < t.fuel := by
    rw [RbTree.fuel, h.size_eq]
    exact Nat.lt_succ_of_le (List.length_filter_le _ _)
  rw [RbTree.count, hlower, hupper]
  simp only [Option.bind_eq_bind, Option.bind_some]
  rw [h.countLoop_eq hsplit hfuel 0, Nat.zero_add]

theorem Ok.before_bound (h : Ok cmp t s) {xs ys : List (Entry K V)} (hs : s.entries = xs ++ ys) :
    (match (ys.map Entry.name).head? with
      | none => t.tail
      | some i => t.previous i) = (xs.map Entry.name).getLast? := by
  have hlist := h.list
  rw [hs, List.map_append] at hlist
  cases ys with
  | nil => simpa using hlist.last_eq
  | cons y ys => exact hlist.cut.1 y.name rfl

/-- `multimap_remove`. -/
theorem remove_ok [TransCmp cmp] (h : Ok cmp t s) (key : K) (dup : Bool) (limit : ℕ) :
    ∃ t' o, t.remove cmp key = some (t', o) ∧
      Ok cmp t' (step cmp dup limit s (.remove key)).1 ∧
      .removed o = (step cmp dup limit s (.remove key)).2 ∧ SameKind t t' := by
  obtain ⟨hlower, hupper⟩ := h.bounds key
  have hsplit := h.sorted.split key
  rw [List.append_assoc] at hsplit
  rw [RbTree.remove, hlower, hupper]
  simp only [Option.bind_eq_bind, Option.bind_some]
  rcases List.eq_nil_or_concat (rank cmp .eq key s.entries) with hnil | ⟨es, e, hlast⟩
  · refine ⟨t, none, ?_, ?_, ?_, rfl, rfl⟩
    · rw [hnil, List.nil_append, if_pos rfl]
    · simpa [step, hnil] using h
    · simp [step, hnil]
  · rw [List.concat_eq_append] at hlast
    have he : e ∈ rank cmp .eq key s.entries := by
      rw [hlast]
      simp
    have he' := (mem_rank.mp he).1
    have hne : ((rank cmp .eq key s.entries ++ rank cmp .gt key s.entries).map Entry.name).head? ≠
        ((rank cmp .gt key s.entries).map Entry.name).head? := by
      obtain ⟨f, fs, hfirst⟩ := List.exists_cons_of_ne_nil (List.ne_nil_of_mem he)
      rw [hfirst, List.cons_append] at hsplit
      rw [hfirst]
      exact h.head_ne hsplit
    have hnode := h.before_bound (h.sorted.split key)
    rw [hlast, ← List.append_assoc, List.map_append, List.map_singleton, List.getLast?_concat] at hnode
    obtain ⟨t', hrun, hok, hkind⟩ := removeNode_ok h he'
    refine ⟨t', some e.value, ?_, ?_, ?_, hkind⟩
    · rw [if_neg hne]
      generalize ((rank cmp .gt key s.entries).map Entry.name).head? = stop at hnode ⊢
      cases stop with
      | none =>
        have hnode : t.tail = some e.name := hnode
        simp [hnode, hrun]
      | some i =>
        have hnode : t.previous i = some e.name := hnode
        simp [hnode, hrun]
    · simpa [step, hlast] using hok
    · simp [step, hlast]

/-- The loop of `multimap_erase` takes out the entries between the two bounds. -/
theorem eraseLoop_ok [TransCmp cmp] {xs ys zs : List (Entry K V)} {n : ℕ}
    (h : Ok cmp t ⟨xs ++ (ys ++ zs), n⟩) {fuel : ℕ} (hfuel : ys.length < fuel) (removed : ℕ) :
    ∃ t', RbTree.eraseLoop (zs.map Entry.name).head? fuel t ((ys ++ zs).map Entry.name).head? removed =
        some (t', removed + ys.length) ∧ Ok cmp t' ⟨xs ++ zs, n⟩ ∧ SameKind t t' := by
  induction ys generalizing t fuel removed with
  | nil =>
    obtain ⟨fuel, rfl⟩ := Nat.exists_eq_succ_of_ne_zero (Nat.ne_zero_of_lt hfuel)
    refine ⟨t, ?_, h, rfl, rfl⟩
    rw [RbTree.eraseLoop, List.nil_append, if_pos rfl]
    rfl
  | cons e ys ih =>
    obtain ⟨fuel, rfl⟩ := Nat.exists_eq_succ_of_ne_zero (Nat.ne_zero_of_lt hfuel)
    have hstop := h.head_ne rfl
    have hnext := h.next_eq rfl
    obtain ⟨t1, hrun1, h1, hlimit1, hdup1⟩ := removeNode_middle h
    rw [List.length_cons] at hfuel ⊢
    obtain ⟨t', hrun, h', hlimit, hdup⟩ := ih h1 (Nat.lt_of_succ_lt_succ hfuel) (removed + 1)
    refine ⟨t', ?_, h', hlimit.trans hlimit1, hdup.trans hdup1⟩
    rw [List.cons_append, List.map_cons, List.head?_cons, RbTree.eraseLoop, if_neg hstop]
    simp only [Option.bind_eq_bind, Option.bind_some, hnext, hrun1]
    refine hrun.trans ?_
    congr 2
    omega

/-- `multimap_erase`. -/
theorem erase_ok [TransCmp cmp] (h : Ok cmp t s) (key : K) :
    ∃ t', t.erase cmp key = some (t', (rank cmp .eq key s.entries).length) ∧
      Ok cmp t' ⟨s.entries.filter fun e => cmp e.key key ≠ .eq, s.created⟩ ∧ SameKind t t' := by
  obtain ⟨hlower, hupper⟩ := h.bounds key
  have hsplit := h.sorted.split key
  have hkept := h.sorted.filter_eq key fun o => decide (o ≠ .eq)
  simp only [ne_eq, not_true, decide_false, reduceCtorEq, not_false_eq_true, decide_true, if_true,
    Bool.false_eq_true, if_false, List.append_nil] at hkept
  have hfuel : (rank cmp .eq key s.entries).length < t.fuel := by
    rw [RbTree.fuel, h.size_eq]
    exact Nat.lt_succ_of_le (List.length_filter_le _ _)
  have hparts : Ok cmp t ⟨rank cmp .lt key s.entries ++
      (rank cmp .eq key s.entries ++ rank cmp .gt key s.entries), s.created⟩ := by
    rwa [← List.append_assoc, ← hsplit]
  obtain ⟨t', hrun, hok, hkind⟩ := eraseLoop_ok hparts hfuel 0
  refine ⟨t', ?_, ?_, hkind⟩
  · rw [RbTree.erase, hlower, hupper]
    simp only [Option.bind_eq_bind, Option.bind_some]
    rw [hrun, Nat.zero_add]
  · simp only [ne_eq, hkept]
    exact hok

/-! ## Runs -/

namespace RbTree

variable (cmp)

/-- One call; `drop` is `rbtree_remove_node`, `remove` and `erase` are those of the multimap. -/
def step (t : RbTree K V) : Op K V → Option (RbTree K V × Answer V)
  | .put k v => (t.put cmp k v).map fun x => (x.1, x.2.answer)
  | .drop i => (t.removeNode i).map fun x => (x.1, .removed (some x.2))
  | .remove k => (t.remove cmp k).map fun x => (x.1, .removed x.2)
  | .erase k => (t.erase cmp k).map fun x => (x.1, .erased x.2)

def run (t : RbTree K V) : List (Op K V) → Option (List (RbTree K V × Answer V))
  | [] => some []
  | op :: ops => do
      let x ← t.step cmp op
      let rest ← run x.1 ops
      some (x :: rest)

def OnNodes (t : RbTree K V) : List (Op K V) → Prop
  | [] => True
  | op :: ops => (∀ i, op = .drop i → i ∈ walk t.next t.fuel t.head) ∧
      ∀ x, t.step cmp op = some x → OnNodes x.1 ops

end RbTree

structure Shows (cmp : K → K → Ordering) (t : RbTree K V) (es : List (Entry K V)) : Prop where
  tree : ∃ T, Whole t.links T ∧ T.Valid ∧ T.inorder = es.map Entry.name
  sorted : Sorted cmp es
  apart : t.allowDuplicates = false → Apart cmp es
  object : ∀ e ∈ es, t.object e.name = some (e.key, e.value)
  forward : ∀ fuel, es.length ≤ fuel → walk t.next fuel t.head = es.map Entry.name
  backward : ∀ fuel, es.length ≤ fuel → walk t.previous fuel t.tail = (es.map Entry.name).reverse
  size_eq : t.size = es.length
  find : ∀ key, ∃ o, t.find cmp key = some o ∧
    (∀ i, o = some i → ∃ e ∈ es, e.name = i ∧ cmp e.key key = .eq) ∧
    (o = none → ∀ e ∈ es, cmp e.key key ≠ .eq)
  lowerBound : ∀ key, t.lowerBound cmp key =
    some ((es.find? fun e => cmp e.key key ≠ .lt).map Entry.name)
  upperBound : ∀ key, t.upperBound cmp key =
    some ((es.find? fun e => cmp e.key key = .gt).map Entry.name)
  count : ∀ key, t.count cmp key = some (rank cmp .eq key es).length

theorem Ok.shows [TransCmp cmp] (h : Ok cmp t s) : Shows cmp t s.entries where
  tree := h.tree
  sorted := h.sorted
  apart := h.apart
  object := h.object
  forward fuel hfuel := (h.list.walks (by simpa using hfuel)).1
  backward fuel hfuel := (h.list.walks (by simpa using hfuel)).2
  size_eq := h.size_eq
  find := h.find_spec
  lowerBound := h.lowerBound_eq
  upperBound := h.upperBound_eq
  count := h.count_eq

def Agrees (cmp : K → K → Ordering) (x : RbTree K V × Answer V) (y : State K V × Answer V) : Prop :=
  x.2 = y.2 ∧ Shows cmp x.1 y.1.entries

theorem Ok.mem_walk (h : Ok cmp t s) {i : ℕ} (hi : i ∈ walk t.next t.fuel t.head) :
    ∃ e ∈ s.entries, e.name = i := by
  have hlength : (s.entries.map Entry.name).length ≤ t.fuel := by
    rw [List.length_map, RbTree.fuel, h.size_eq]
    exact Nat.le_succ _
  rw [(h.list.walks hlength).1, List.mem_map] at hi
  exact hi

theorem Ok.find_name (h : Ok cmp t s) {e : Entry K V} (he : e ∈ s.entries) :
    (s.entries.find? fun x => x.name = e.name) = some e := by
  obtain ⟨entries, n⟩ := s
  obtain ⟨xs, ys, rfl⟩ := List.append_of_mem he
  have hnodup := h.nodup
  rw [List.map_append, List.map_cons, List.nodup_middle, List.nodup_cons, List.mem_append,
    not_or] at hnodup
  have hx : xs.find? (fun x => x.name = e.name) = none := by
    rw [List.find?_eq_none]
    intro x hx
    simpa using fun heq : x.name = e.name => hnodup.1.1 (heq ▸ List.mem_map_of_mem hx)
  rw [List.find?_append, hx, List.find?_cons_of_pos (by simp)]
  rfl

theorem Ok.exists_mapOp [TransCmp cmp] (h : Ok cmp t s) (op : Op K V)
    (hlive : ∀ i, op = .drop i → i ∈ walk t.next t.fuel t.head) :
    ∃ o, mapOp cmp s op = some o := by
  cases op with
  | put k v => exact ⟨_, rfl⟩
  | drop i =>
    obtain ⟨e, he, rfl⟩ := h.mem_walk (hlive i rfl)
    exact ⟨.remove (classOf cmp e.key), by rw [mapOp, h.find_name he]; rfl⟩
  | remove k => exact ⟨_, rfl⟩
  | erase k => exact ⟨_, rfl⟩

/-- Each call on the tree is the operation on the entries. -/
theorem step_ok [TransCmp cmp] (h : Ok cmp t s) (op : Op K V)
    (hlive : ∀ i, op = .drop i → i ∈ walk t.next t.fuel t.head) :
    ∃ t' a, t.step cmp op = some (t', a) ∧
      Ok cmp t' (OrderedMultimap.step cmp t.allowDuplicates t.elementLimit s op).1 ∧
      a = (OrderedMultimap.step cmp t.allowDuplicates t.elementLimit s op).2 ∧ SameKind t t' := by
  cases op with
  | put k v =>
    obtain ⟨t', r, hrun, hok, hanswer, hkind⟩ := put_ok h k v
    exact ⟨t', r.answer, by rw [RbTree.step, hrun]; rfl, hok, hanswer, hkind⟩
  | drop i =>
    obtain ⟨e, he, rfl⟩ := h.mem_walk (hlive i rfl)
    obtain ⟨t', hrun, hok, hkind⟩ := removeNode_ok h he
    refine ⟨t', .removed (some e.value), by rw [RbTree.step, hrun]; rfl, hok, ?_, hkind⟩
    rw [OrderedMultimap.step, h.find_name he]
    rfl
  | remove k =>
    obtain ⟨t', o, hrun, hok, hanswer, hkind⟩ := remove_ok h k t.allowDuplicates t.elementLimit
    exact ⟨t', .removed o, by rw [RbTree.step, hrun]; rfl, hok, hanswer, hkind⟩
  | erase k =>
    obtain ⟨t', hrun, hok, hkind⟩ := erase_ok h k
    exact ⟨t', _, by rw [RbTree.step, hrun]; rfl, hok, rfl, hkind⟩

theorem run_ok [TransCmp cmp] (h : Ok cmp t s) {ops : List (Op K V)} (hlive : t.OnNodes cmp ops) :
    ∃ trace, t.run cmp ops = some trace ∧
      List.Forall₂ (Agrees cmp) trace
        (OrderedMultimap.run cmp t.allowDuplicates t.elementLimit s ops) ∧
      (t.allowDuplicates = false → ∃ os, mapOps cmp false t.elementLimit s ops = some os ∧
        List.Forall₂ (MapAgrees cmp) (OrderedMultimap.run cmp false t.elementLimit s ops)
          (BoundedMap.run t.elementLimit (contents cmp s.entries) os)) := by
  induction ops generalizing t s with
  | nil => exact ⟨[], rfl, .nil, fun _ => ⟨[], rfl, .nil⟩⟩
  | cons op ops ih =>
    obtain ⟨hop, hrest⟩ := hlive
    obtain ⟨t', a, hstep, hok, ha, hlimit, hdup⟩ := step_ok h op hop
    obtain ⟨trace, hrun, hagrees, hmap⟩ := ih hok (hrest _ hstep)
    refine ⟨(t', a) :: trace, ?_, ?_, fun hno => ?_⟩
    · rw [RbTree.run, hstep]
      simp [hrun]
    · rw [OrderedMultimap.run]
      rw [hlimit, hdup] at hagrees
      exact .cons ⟨ha, hok.shows⟩ hagrees
    · obtain ⟨o, ho⟩ := h.exists_mapOp op hop
      rw [hno] at hok
      obtain ⟨os, hos, hmaps⟩ := hmap (hdup.trans hno)
      rw [hlimit, hno] at hos hmaps
      have hone := step_map t.elementLimit h.sorted (h.apart hno) h.nodup ho
      refine ⟨o :: os, ?_, ?_⟩
      · rw [mapOps, ho, hos]
      · rw [OrderedMultimap.run, BoundedMap.run]
        rw [hone.1] at hmaps
        exact .cons hone hmaps

/-- Every sequence of calls on a new tree that removes only nodes of the tree runs through. After each
call the tree is a red-black tree that shows the entries of the ordered multimap, and without
duplicates these are a finite map on the classes of equal keys. -/
theorem rbtree_refines_ordered_multimap (cmp : K → K → Ordering) [TransCmp cmp] (limit : ℕ)
    (dup : Bool) (ops : List (Op K V)) (hlive : (create K V limit dup).OnNodes cmp ops) :
    ∃ trace, (create K V limit dup).run cmp ops = some trace ∧
      List.Forall₂ (Agrees cmp) trace (OrderedMultimap.run cmp dup limit ⟨[], 0⟩ ops) ∧
      (dup = false → ∃ os, mapOps cmp dup limit ⟨[], 0⟩ ops = some os ∧
        List.Forall₂ (MapAgrees cmp) (OrderedMultimap.run cmp dup limit ⟨[], 0⟩ ops)
          (BoundedMap.run limit ∅ os)) := by
  obtain ⟨trace, hrun, hagrees, hmap⟩ := run_ok (ok_create limit dup) hlive
  refine ⟨trace, hrun, hagrees, fun hno => ?_⟩
  subst hno
  exact hmap rfl

theorem rbtree_refines_ordered_multimap_small :
    TransCmp (compare : ℕ → ℕ → Ordering) ∧
    (create ℕ ℕ 3 true).OnNodes compare [.put 5 1, .put 5 2, .drop 0] ∧
    ∃ trace, (create ℕ ℕ 3 true).run compare [.put 5 1, .put 5 2, .drop 0] = some trace ∧
      List.Forall₂ (Agrees compare) trace
        (OrderedMultimap.run compare true 3 ⟨[], 0⟩ [.put 5 1, .put 5 2, .drop 0]) := by
  have hlive : (create ℕ ℕ 3 true).OnNodes compare [.put 5 1, .put 5 2, .drop 0] := by
    refine ⟨by simp, fun x hx => ⟨by simp, fun y hy => ⟨fun i hi => ?_, fun _ _ => trivial⟩⟩⟩
    have hin : (((create ℕ ℕ 3 true).step compare (.put 5 1)).bind fun x =>
        (x.1.step compare (.put 5 2)).map fun y =>
          decide (0 ∈ walk y.1.next y.1.fuel y.1.head)) = some true := by decide
    obtain rfl : 0 = i := by simpa using hi
    rw [hx, Option.bind_some, hy, Option.map_some, Option.some.injEq, decide_eq_true_iff] at hin
    exact hin
  obtain ⟨trace, hrun, hagrees, -⟩ := rbtree_refines_ordered_multimap compare 3 true _ hlive
  exact ⟨inferInstance, hlive, trace, hrun, hagrees⟩

end Cstl.Rbtree
