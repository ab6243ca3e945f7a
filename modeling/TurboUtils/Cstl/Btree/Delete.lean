import TurboUtils.Cstl.Btree.Insert

/-! Deletion of a key that is present. A node on the way down always has one entry to
spare, so a child can be merged without leaving the node short. -/
namespace Cstl.Btree

variable {K V : Type*}

/-! ## Merging and borrowing -/

theorem Balanced.children_append {t h : ℕ} {b c : Node K V} (hb : Balanced t h b)
    (hc : Balanced t h c) :
    (if b.leaf then b.children else b.children ++ c.children) = b.children ++ c.children := by
  cases h with
  | zero => simp [hb.2, hc.2]
  | succ h => simp [hb.1]

theorem Balanced.leaf_eq {t h : ℕ} {b c : Node K V} (hb : Balanced t h b)
    (hc : Balanced t h c) : b.leaf = c.leaf := by
  cases h <;> exact hb.1.trans hc.1.symm

theorem mergeChildren_spec {t h : ℕ} (ht : 2 ≤ t) {n : Node K V} (l r : List (Entry K V))
    (s : Entry K V) (cl cr : List (Node K V)) {c d : Node K V} {i : ℕ}
    (he : n.entries = l ++ s :: r) (hch : n.children = cl ++ c :: d :: cr) (hl : l.length = i)
    (hcl : cl.length = i) (hc : Shape t (t - 1) h c) (hd : Shape t (t - 1) h d)
    (hnc : c.numKeys = t - 1) (hnd : d.numKeys = t - 1) :
    ∃ m, mergeChildren n i = .mk n.leaf (l ++ r) (cl ++ m :: cr) ∧
      Shape t (t - 1) h m ∧ t ≤ m.numKeys ∧
      inorder h m = inorder h c ++ s :: inorder h d := by
  have hbc := (shape_iff.mp hc).1
  have hbd := (shape_iff.mp hd).1
  obtain ⟨lc, ec, cc⟩ := c
  obtain ⟨ld, ed, cd⟩ := d
  simp only [Node.numKeys_mk] at hnc hnd
  have hnum : (Node.mk lc (ec ++ s :: ed) (cc ++ cd)).numKeys = 2 * t - 1 := by
    simp only [Node.numKeys_mk, List.length_append, List.length_cons]
    omega
  refine ⟨.mk lc (ec ++ s :: ed) (cc ++ cd), ?_, ?_, ?_, ?_⟩
  · have hd' : n.child (i + 1) = .mk ld ed cd :=
      child_middle_succ cl cr hch hcl
    rw [mergeChildren, child_middle cl _ hch hcl, hd', hbc.children_append hbd]
    simp only [he, hch, getElem?_middle hl, eraseIdx_middle hl, set_middle hcl, Node.leaf_mk,
      Node.entries_mk, Node.children_mk]
    rw [show cl ++ Node.mk lc (ec ++ s :: ed) (cc ++ cd) :: Node.mk ld ed cd :: cr =
      (cl ++ [Node.mk lc (ec ++ s :: ed) (cc ++ cd)]) ++ Node.mk ld ed cd :: cr by simp,
      eraseIdx_middle (by simp [hcl])]
    simp
  · exact shape_iff.mpr ⟨hbc.join hbd, by omega, by omega⟩
  · omega
  · exact inorder_join lc hbc hbd

/-- Two neighbours after an entry moved across: the contents around the separator are the
same, the child `c'` has gained an entry and the separator came from the sibling. -/
structure Borrowed (t h : ℕ) (old : List (Entry K V)) (sibling : Node K V) (z : Entry K V)
    (b' c' : Node K V) : Prop where
  left : Shape t (t - 1) h b'
  right : Shape t (t - 1) h c'
  mem : z ∈ inorder h sibling
  inorder : Btree.inorder h b' ++ z :: Btree.inorder h c' = old

theorem borrowPrevious_spec {t h : ℕ} (ht : 2 ≤ t) {n : Node K V} (l r : List (Entry K V))
    (s : Entry K V) (cl cr : List (Node K V)) {b c : Node K V} {i : ℕ}
    (he : n.entries = l ++ s :: r) (hch : n.children = cl ++ b :: c :: cr) (hl : l.length + 1 = i)
    (hcl : cl.length + 1 = i) (hb : Shape t (t - 1) h b) (hc : Shape t (t - 1) h c)
    (hnb : t ≤ b.numKeys) (hnc : c.numKeys = t - 1) :
    ∃ z b' c', borrowPrevious n i = .mk n.leaf (l ++ z :: r) (cl ++ b' :: c' :: cr) ∧
      Borrowed t h (inorder h b ++ s :: inorder h c) b z b' c' ∧ c'.numKeys = t := by
  have hmax := hb.bounds.2
  have hbb := (shape_iff.mp hb).1
  have hbc := (shape_iff.mp hc).1
  have hlf : b.leaf = c.leaf := hbb.leaf_eq hbc
  obtain ⟨lb, eb, cb⟩ := b
  obtain ⟨lc, ec, cc⟩ := c
  obtain rfl : lb = lc := hlf
  simp only [Node.numKeys_mk] at hnb hnc hmax
  rcases List.eq_nil_or_concat eb with rfl | ⟨a, z, rfl⟩
  · simp only [List.length_nil] at hnb
    omega
  rw [List.concat_eq_append] at *
  simp only [List.length_append, List.length_singleton] at hnb hmax
  obtain ⟨hleft, hright⟩ := hbb.split
  have hjoin := inorder_join lb hleft hright (m := z)
  rw [List.take_append_drop] at hjoin
  have hlast : cb.getLast?.toList = cb.drop (a.length + 1) ∧
      cb.dropLast = cb.take (a.length + 1) ∨ lb = true ∧ cb = [] := by
    cases h with
    | zero => exact Or.inr hbb
    | succ h =>
      have hlen := hbb.2.1
      simp only [Node.children_mk, Node.numKeys_mk, List.length_append,
        List.length_singleton] at hlen
      rcases List.eq_nil_or_concat cb with rfl | ⟨cb, x, rfl⟩
      · simp at hlen
      · simp only [List.concat_eq_append, List.length_append, List.length_singleton] at hlen ⊢
        have : a.length + 1 = cb.length := by omega
        exact Or.inl (by simp [this])
  refine ⟨z, .mk lb a (cb.take (a.length + 1)), .mk lb (s :: ec) (cb.drop (a.length + 1) ++ cc),
    ?_, ⟨?_, ?_, ?_, ?_⟩, ?_⟩
  · have hsib : n.child (i - 1) = .mk lb (a ++ [z]) cb :=
      child_middle cl _ hch (by omega)
    have hchild : n.child i = .mk lb ec cc :=
      child_middle (cl ++ [.mk lb (a ++ [z]) cb]) cr (by simp [hch]) (by simp [hcl])
    have hsep : n.entries[i - 1]? = some s := by rw [he, getElem?_middle (by omega)]
    rw [borrowPrevious, hsib, hchild, hsep]
    simp only [Node.entries_mk, List.getLast?_append, List.getLast?_singleton, Option.some_or,
      Node.leaf_mk, Node.children_mk, List.dropLast_concat, he,
      set_middle (show l.length = i - 1 by omega)]
    have hcs : ∀ x y : Node K V, ((n.children.set i x).set (i - 1) y) = cl ++ y :: x :: cr := by
      intro x y
      rw [hch, show cl ++ Node.mk lb (a ++ [z]) cb :: Node.mk lb ec cc :: cr =
        (cl ++ [Node.mk lb (a ++ [z]) cb]) ++ Node.mk lb ec cc :: cr by simp,
        set_middle (by simp [hcl]), List.append_assoc, List.singleton_append,
        set_middle (by omega)]
    rw [hcs]
    rcases hlast with ⟨h1, h2⟩ | ⟨rfl, rfl⟩
    · cases h with
      | zero =>
        obtain ⟨rfl, rfl⟩ := hbb
        obtain ⟨-, rfl⟩ := hbc
        simp
      | succ h =>
        obtain rfl : lb = false := hbb.1
        simp [h1, h2]
    · simp
  · exact shape_iff.mpr ⟨hleft, by simp; omega, by simp; omega⟩
  · have := hright.join (m := s) hbc
    exact shape_iff.mpr ⟨this, by simp; omega, by simp; omega⟩
  · rw [hjoin]
    simp
  · have := inorder_join lb hright hbc (m := s)
    rw [List.nil_append] at this
    rw [this, hjoin]
    simp
  · rw [Node.numKeys_mk, List.length_cons]
    omega

theorem borrowNext_spec {t h : ℕ} (ht : 2 ≤ t) {n : Node K V} (l r : List (Entry K V))
    (s : Entry K V) (cl cr : List (Node K V)) {c d : Node K V} {i : ℕ}
    (he : n.entries = l ++ s :: r) (hch : n.children = cl ++ c :: d :: cr) (hl : l.length = i)
    (hcl : cl.length = i) (hc : Shape t (t - 1) h c) (hd : Shape t (t - 1) h d)
    (hnc : c.numKeys = t - 1) (hnd : t ≤ d.numKeys) :
    ∃ z c' d', borrowNext n i = .mk n.leaf (l ++ z :: r) (cl ++ c' :: d' :: cr) ∧
      Borrowed t h (inorder h c ++ s :: inorder h d) d z c' d' ∧ c'.numKeys = t := by
  have hmax := hd.bounds.2
  have hbc := (shape_iff.mp hc).1
  have hbd := (shape_iff.mp hd).1
  have hlf : c.leaf = d.leaf := hbc.leaf_eq hbd
  obtain ⟨lc, ec, cc⟩ := c
  obtain ⟨ld, ed, cd⟩ := d
  obtain rfl : lc = ld := hlf
  simp only [Node.numKeys_mk] at hnc hnd hmax
  cases ed with
  | nil =>
    simp only [List.length_nil] at hnd
    omega
  | cons z b =>
    simp only [List.length_cons] at hnd hmax
    have hsplit : Balanced t h (.mk lc [] (cd.take 1)) ∧ Balanced t h (.mk lc b (cd.drop 1)) :=
      hbd.split
    obtain ⟨hleft, hright⟩ := hsplit
    have hjoin := inorder_join lc hleft hright (m := z)
    rw [List.take_append_drop, List.nil_append] at hjoin
    have hhead : cd.head?.toList = cd.take 1 ∧ cd.tail = cd.drop 1 := by
      cases cd <;> simp
    refine ⟨z, .mk lc (ec ++ [s]) (cc ++ cd.take 1), .mk lc b (cd.drop 1),
      ?_, ⟨?_, ?_, ?_, ?_⟩, ?_⟩
    · have hsib : n.child (i + 1) = .mk lc (z :: b) cd :=
        child_middle_succ cl cr hch hcl
      have hchild : n.child i = .mk lc ec cc := child_middle cl _ hch hcl
      have hsep : n.entries[i]? = some s := by rw [he, getElem?_middle hl]
      rw [borrowNext, hsib, hchild, hsep]
      simp only [Node.entries_mk, List.head?_cons, Node.leaf_mk, Node.children_mk, List.tail_cons,
        he, hch, set_middle hl, set_middle hcl, hhead.1, hhead.2]
      have hcs : ∀ x y : Node K V, (cl ++ x :: Node.mk lc (z :: b) cd :: cr).set (i + 1) y =
          cl ++ x :: y :: cr := by
        intro x y
        rw [show cl ++ x :: Node.mk lc (z :: b) cd :: cr =
          (cl ++ [x]) ++ Node.mk lc (z :: b) cd :: cr by simp, set_middle (by simp [hcl])]
        simp
      rw [hcs]
      cases h with
      | zero =>
        obtain ⟨rfl, rfl⟩ := hbd
        simp
      | succ h =>
        obtain rfl : lc = false := hbd.1
        simp
    · exact shape_iff.mpr ⟨hbc.join hleft, by simp; omega, by simp; omega⟩
    · exact shape_iff.mpr ⟨hright, by simp; omega, by simp; omega⟩
    · rw [hjoin]
      simp
    · have := inorder_join lc hbc hleft (m := s)
      rw [this, hjoin]
      simp
    · simp only [Node.numKeys_mk, List.length_append, List.length_singleton]
      omega

/-! ## The neighbours of a separator -/

theorem Shape.inorder_ne_nil {t lo h : ℕ} {n : Node K V} (hs : Shape t lo h n)
    (hn : 1 ≤ n.numKeys) : inorder h n ≠ [] := by
  cases h with
  | zero =>
    intro hnil
    rw [inorder] at hnil
    simp [Node.numKeys, hnil] at hn
  | succ h =>
    obtain ⟨l, r, cl, c, cr, he, hc, hl, hcl, hr, -⟩ := hs.cut (i := 0) (Nat.zero_le _)
    have hne : post (inorder h) r cr ≠ [] := by
      intro hnil
      have hhead := head?_post (inorder h) hr
      rw [hnil] at hhead
      have : r = [] := List.head?_eq_none_iff.mp hhead.symm
      rw [Node.numKeys, he, List.length_append, hl, this] at hn
      simp at hn
    rw [inorder_cut he hc (by omega)]
    simp [hne]

theorem rightmost_eq {t : ℕ} (ht : 2 ≤ t) {h : ℕ} : ∀ (fuel lo : ℕ) (n : Node K V), h < fuel →
    Shape t lo h n → rightmost fuel n = (inorder h n).getLast? := by
  induction h with
  | zero =>
    intro fuel lo n hf hs
    obtain ⟨fuel, rfl⟩ := Nat.exists_eq_succ_of_ne_zero (Nat.ne_zero_of_lt hf)
    rw [rightmost, if_pos hs.1, inorder]
  | succ h ih =>
    intro fuel lo n hf hs
    obtain ⟨fuel, rfl⟩ := Nat.exists_eq_succ_of_ne_zero (Nat.ne_zero_of_lt hf)
    obtain ⟨l, r, cl, c, cr, he, hc, hl, hcl, hr, hchild⟩ := hs.cut (i := n.numKeys) le_rfl
    have hsc : Shape t (t - 1) h c := hs.2.2.2 c (by simp [hc])
    have hrnil : r = [] := by
      rw [Node.numKeys, he, List.length_append] at hl
      exact List.length_eq_zero_iff.mp (by omega)
    have hne : inorder h c ≠ [] := hsc.inorder_ne_nil (by have := hsc.bounds.1; omega)
    rw [rightmost, if_neg (by simp [hs.1]), hchild, ih fuel (t - 1) c (by omega) hsc,
      inorder_cut he hc (by omega), hrnil]
    simp only [post, List.append_nil, List.getLast?_append]
    rw [List.getLast?_eq_some_getLast hne]
    rfl

theorem leftmost_eq {t : ℕ} (ht : 2 ≤ t) {h : ℕ} : ∀ (fuel lo : ℕ) (n : Node K V), h < fuel →
    Shape t lo h n → leftmost fuel n = (inorder h n).head? := by
  induction h with
  | zero =>
    intro fuel lo n hf hs
    obtain ⟨fuel, rfl⟩ := Nat.exists_eq_succ_of_ne_zero (Nat.ne_zero_of_lt hf)
    rw [leftmost, if_pos hs.1, inorder]
  | succ h ih =>
    intro fuel lo n hf hs
    obtain ⟨fuel, rfl⟩ := Nat.exists_eq_succ_of_ne_zero (Nat.ne_zero_of_lt hf)
    obtain ⟨l, r, cl, c, cr, he, hc, hl, hcl, hr, hchild⟩ := hs.cut (i := 0) (Nat.zero_le _)
    have hsc : Shape t (t - 1) h c := hs.2.2.2 c (by simp [hc])
    have hlnil : l = [] := List.length_eq_zero_iff.mp hl
    have hclnil : cl = [] := List.length_eq_zero_iff.mp hcl
    have hne : inorder h c ≠ [] := hsc.inorder_ne_nil (by have := hsc.bounds.1; omega)
    rw [leftmost, if_neg (by simp [hs.1]), hchild, ih fuel (t - 1) c (by omega) hsc,
      inorder_cut he hc (by omega), hlnil, hclnil]
    simp only [pre, List.nil_append, List.head?_append]
    rw [List.head?_eq_some_head hne]
    rfl

/-! ## Deletion -/

/-- The call succeeds and takes exactly one entry with the key out of `old`. -/
def DeleteOk (t lo h : ℕ) (old : List (Entry K V)) (key : K)
    (res : Option (Node K V × Entry K V)) : Prop :=
  ∃ n' e, res = some (n', e) ∧ Shape t lo h n' ∧ e.key = key ∧
    ∃ xs ys, old = xs ++ e :: ys ∧ inorder h n' = xs ++ ys

theorem DeleteOk.store {t lo h : ℕ} {key : K} (l r : List (Entry K V)) (cl cr : List (Node K V))
    {c : Node K V} {i : ℕ} {res : Option (Node K V × Entry K V)}
    (hs : Shape t lo (h + 1) (.mk false (l ++ r) (cl ++ c :: cr))) (hl : l.length = i)
    (hcl : cl.length = i) (h' : DeleteOk t (t - 1) h (inorder h c) key res) :
    DeleteOk t lo (h + 1) (inorder (h + 1) (.mk false (l ++ r) (cl ++ c :: cr))) key
      (withChild (.mk false (l ++ r) (cl ++ c :: cr)) i res) := by
  obtain ⟨n', e, rfl, hn', hk, xs, ys, hold, hnew⟩ := h'
  refine ⟨.mk false (l ++ r) (cl ++ n' :: cr), e, ?_, hs.replace hn', hk,
    pre (inorder h) cl l ++ xs, ys ++ post (inorder h) r cr, ?_, ?_⟩
  · simp [withChild, set_middle hcl]
  · rw [inorder_cut (l := l) (r := r) (c := c) rfl rfl (by omega), hold]
    simp
  · rw [inorder_cut (l := l) (r := r) (c := n') rfl rfl (by omega), hnew]
    simp

/-- A node after two children were merged, and the deletion from the merged child. -/
theorem DeleteOk.merged {t lo h : ℕ} {key : K} (l r : List (Entry K V)) (s : Entry K V)
    (cl cr : List (Node K V)) {c d m : Node K V} {i : ℕ} {res : Option (Node K V × Entry K V)}
    (hs : Shape t lo (h + 1) (.mk false (l ++ s :: r) (cl ++ c :: d :: cr)))
    (hspare : lo + 1 ≤ (l ++ s :: r).length) (hl : l.length = i) (hcl : cl.length = i)
    (hm : Shape t (t - 1) h m) (hin : inorder h m = inorder h c ++ s :: inorder h d)
    (h' : DeleteOk t (t - 1) h (inorder h m) key res) :
    DeleteOk t lo (h + 1) (inorder (h + 1) (.mk false (l ++ s :: r) (cl ++ c :: d :: cr))) key
      (withChild (.mk false (l ++ r) (cl ++ m :: cr)) i res) := by
  have hs' : Shape t lo (h + 1) (.mk false (l ++ r) (cl ++ m :: cr)) := by
    have hlen := hs.2.1
    have hmax := hs.2.2.1.2
    simp only [Node.children_mk, Node.numKeys_mk, List.length_append, List.length_cons]
      at hlen hmax hspare
    refine shape_of_cut ?_ ?_ ?_ ?_
    · simp only [List.length_append, List.length_cons]
      omega
    · simp only [List.length_append]
      omega
    · simp only [List.length_append]
      omega
    · intro x hx
      simp only [List.mem_append, List.mem_cons] at hx
      rcases hx with hx | rfl | hx
      · exact hs.2.2.2 x (by simp [hx])
      · exact hm
      · exact hs.2.2.2 x (by simp [hx])
  have heq : inorder (h + 1) (.mk false (l ++ s :: r) (cl ++ c :: d :: cr)) =
      inorder (h + 1) (.mk false (l ++ r) (cl ++ m :: cr)) := by
    rw [inorder_pair (by omega), inorder_cut (l := l) (r := r) (c := m) rfl rfl (by omega), hin]
    simp
  rw [heq]
  exact h'.store l r cl cr hs' hl hcl

variable [LinearOrder K]

theorem Sorted.eq_of_key {xs : List (Entry K V)} (h : Sorted xs) {a b : Entry K V} (ha : a ∈ xs)
    (hb : b ∈ xs) (hk : a.key = b.key) : a = b := by
  induction xs with
  | nil => simp at ha
  | cons x xs ih =>
    obtain ⟨hx, hxs⟩ := List.pairwise_cons.mp h
    rcases List.mem_cons.mp ha with rfl | ha'
    · rcases List.mem_cons.mp hb with rfl | hb'
      · rfl
      · exact absurd hk (hx b hb').ne
    · rcases List.mem_cons.mp hb with rfl | hb'
      · exact absurd hk (hx a ha').ne'
      · exact ih hxs ha' hb'

theorem Sorted.last_unique {xs ys : List (Entry K V)} {e z : Entry K V}
    (h : Sorted (xs ++ e :: ys)) (hz : (xs ++ e :: ys).getLast? = some z)
    (hk : e.key = z.key) : ys = [] ∧ e = z := by
  obtain rfl : e = z := h.eq_of_key (by simp) (List.mem_of_getLast? hz) hk
  rcases List.eq_nil_or_concat ys with rfl | ⟨ys, y, rfl⟩
  · exact ⟨rfl, rfl⟩
  · have hy : y = e := by simpa [List.getLast?_append, List.getLast?_cons] using hz
    subst hy
    have := (List.pairwise_cons.mp h.append.2.1).1 y (by simp)
    exact absurd this (lt_irrefl _)

theorem Sorted.head_unique {xs ys : List (Entry K V)} {e z : Entry K V}
    (h : Sorted (xs ++ e :: ys)) (hz : (xs ++ e :: ys).head? = some z)
    (hk : e.key = z.key) : xs = [] ∧ e = z := by
  obtain rfl : e = z := h.eq_of_key (by simp) (List.mem_of_head? hz) hk
  cases xs with
  | nil => exact ⟨rfl, rfl⟩
  | cons x xs =>
    obtain rfl : x = e := by simpa using hz
    exact absurd (h.append.2.2 x (by simp) x (by simp)) (lt_irrefl _)

theorem search_miss {n : Node K V} {l r : List (Entry K V)} {key : K} (he : n.entries = l ++ r)
    (hlt : ∀ e ∈ l, e.key < key) (hgt : ∀ e ∈ r, key < e.key) :
    lowerBound n key = l.length ∧ hit n key = none := by
  have hge : ∀ e ∈ r, key ≤ e.key := fun e he => (hgt e he).le
  refine ⟨lowerBound_eq he hlt hge, ?_⟩
  rw [hit_eq he hlt hge]
  cases r with
  | nil => rfl
  | cons e r => simp [Option.filter, (hgt e (by simp)).ne']

theorem deleteStructural_ready {t fuel : ℕ} (ht : 2 ≤ t) {key : K} (l r : List (Entry K V))
    (cl cr : List (Node K V)) {c : Node K V} (hcl : cl.length = l.length)
    (hlt : ∀ e ∈ l, e.key < key) (hgt : ∀ e ∈ r, key < e.key) (hc : t ≤ c.numKeys) :
    deleteStructural t (fuel + 1) (.mk false (l ++ r) (cl ++ c :: cr)) key =
      withChild (.mk false (l ++ r) (cl ++ c :: cr)) l.length (deleteStructural t fuel c key) := by
  obtain ⟨hidx, hhit⟩ := search_miss (n := .mk false (l ++ r) (cl ++ c :: cr)) rfl hlt hgt
  have hchild : (Node.mk false (l ++ r) (cl ++ c :: cr)).child l.length = c :=
    child_middle cl cr rfl hcl
  simp only [deleteStructural, hhit, hidx, hchild]
  rw [if_neg (by omega)]

/-- What the search leaves to the right when it does not hit. -/
theorem Descent.gt_of_miss {h : ℕ} {n : Node K V} {key : K} {l r : List (Entry K V)}
    {cl cr : List (Node K V)} {c : Node K V} (hd : Descent h n key l r cl c cr)
    (hsort : Sorted (Btree.inorder (h + 1) n)) (hmiss : Btree.hit n key = none) :
    ∀ x ∈ post (Btree.inorder h) r cr, key < x.key := by
  rw [hd.inorder] at hsort
  have hpost : Sorted (post (Btree.inorder h) r cr) := hsort.append.2.1.append.2.1
  intro x hx
  rcases hhead : r.head? with _ | z
  · obtain rfl : r = [] := List.head?_eq_none_iff.mp hhead
    simp [post] at hx
  · have hz : key ≠ z.key := by
      intro hk
      rw [hd.hit, hhead] at hmiss
      simp [Option.filter, hk] at hmiss
    have hzpost : (post (Btree.inorder h) r cr).head? = some z := by
      rw [head?_post _ hd.right, hhead]
    have hle := hd.after z (List.mem_of_head? hzpost)
    exact (lt_of_le_of_ne hle hz).trans_le (hpost.head_le hzpost x hx)

theorem Descent.mem_child {h : ℕ} {n : Node K V} {key : K} {l r : List (Entry K V)}
    {cl cr : List (Node K V)} {c : Node K V} (hd : Descent h n key l r cl c cr)
    (hgt : ∀ x ∈ post (Btree.inorder h) r cr, key < x.key)
    (hmem : ∃ x ∈ Btree.inorder (h + 1) n, x.key = key) :
    ∃ x ∈ Btree.inorder h c, x.key = key := by
  obtain ⟨x, hx, hk⟩ := hmem
  rw [hd.inorder] at hx
  rcases List.mem_append.mp hx with hx | hx
  · exact absurd hk (hd.before x hx).ne
  · rcases List.mem_append.mp hx with hx | hx
    · exact ⟨x, hx, hk⟩
    · exact absurd hk (hgt x hx).ne'

/-- The separator is replaced by its predecessor, which goes out of the left child. -/
theorem DeleteOk.predecessor {t lo h : ℕ} (l r : List (Entry K V)) (e z : Entry K V)
    (cl cr : List (Node K V)) {c d : Node K V} {res : Option (Node K V × Entry K V)}
    (hs : Shape t lo (h + 1) (.mk false (l ++ e :: r) (cl ++ c :: d :: cr)))
    (hl : cl.length = l.length) (hsort : Sorted (inorder h c))
    (hz : (inorder h c).getLast? = some z)
    (h' : DeleteOk t (t - 1) h (inorder h c) z.key res) :
    DeleteOk t lo (h + 1) (inorder (h + 1) (.mk false (l ++ e :: r) (cl ++ c :: d :: cr))) e.key
      ((withChild (.mk false (l ++ z :: r) (cl ++ c :: d :: cr)) l.length res).map
        fun x => (x.1, e)) := by
  obtain ⟨n', e', rfl, hn', hk, xs, ys, hold, hnew⟩ := h'
  rw [hold] at hsort hz
  obtain ⟨rfl, rfl⟩ := hsort.last_unique hz hk
  refine ⟨.mk false (l ++ e' :: r) (cl ++ n' :: d :: cr), e, ?_, ?_, rfl,
    pre (inorder h) cl l ++ (xs ++ [e']), inorder h d ++ post (inorder h) r cr, ?_, ?_⟩
  · simp [withChild, set_middle hl]
  · exact hs.replace_pair hn' (hs.2.2.2 d (by simp))
  · rw [inorder_pair hl, hold]
    simp
  · rw [inorder_pair hl, hnew]
    simp

theorem DeleteOk.successor {t lo h : ℕ} (l r : List (Entry K V)) (e z : Entry K V)
    (cl cr : List (Node K V)) {c d : Node K V} {res : Option (Node K V × Entry K V)}
    (hs : Shape t lo (h + 1) (.mk false (l ++ e :: r) (cl ++ c :: d :: cr)))
    (hl : cl.length = l.length) (hsort : Sorted (inorder h d))
    (hz : (inorder h d).head? = some z)
    (h' : DeleteOk t (t - 1) h (inorder h d) z.key res) :
    DeleteOk t lo (h + 1) (inorder (h + 1) (.mk false (l ++ e :: r) (cl ++ c :: d :: cr))) e.key
      ((withChild (.mk false (l ++ z :: r) (cl ++ c :: d :: cr)) (l.length + 1) res).map
        fun x => (x.1, e)) := by
  obtain ⟨n', e', rfl, hn', hk, xs, ys, hold, hnew⟩ := h'
  rw [hold] at hsort hz
  obtain ⟨rfl, rfl⟩ := hsort.head_unique hz hk
  have hset : (cl ++ c :: d :: cr).set (l.length + 1) n' = cl ++ c :: n' :: cr := by
    rw [show cl ++ c :: d :: cr = (cl ++ [c]) ++ d :: cr by simp, set_middle (by simp [hl])]
    simp
  refine ⟨.mk false (l ++ e' :: r) (cl ++ c :: n' :: cr), e, ?_, ?_, rfl,
    pre (inorder h) cl l ++ inorder h c, e' :: (ys ++ post (inorder h) r cr), ?_, ?_⟩
  · simp [withChild, hset]
  · exact hs.replace_pair (hs.2.2.2 c (by simp)) hn'
  · rw [inorder_pair hl, hold]
    simp
  · rw [inorder_pair hl, hnew]
    simp

/-- Deletion below a node that has an entry to spare, for every height. -/
def DeletesBelow (t h : ℕ) (K V : Type*) [LinearOrder K] : Prop :=
  ∀ (fuel lo : ℕ) (n : Node K V) (key : K), 2 * h + 1 ≤ fuel → Shape t lo h n →
    lo + 1 ≤ n.numKeys → Sorted (inorder h n) → (∃ x ∈ inorder h n, x.key = key) →
    DeleteOk t lo h (inorder h n) key (deleteStructural t fuel n key)

/-- The key is a separator of the node. -/
theorem deleteStructural_hit {t lo h fuel : ℕ} (ht : 2 ≤ t) (ih : DeletesBelow t h K V)
    (l r : List (Entry K V)) (e : Entry K V) (cl cr : List (Node K V)) {c d : Node K V}
    (hf : 2 * h + 1 ≤ fuel)
    (hs : Shape t lo (h + 1) (.mk false (l ++ e :: r) (cl ++ c :: d :: cr)))
    (hspare : lo + 1 ≤ (l ++ e :: r).length) (hl : cl.length = l.length)
    (hsort : Sorted (inorder (h + 1) (.mk false (l ++ e :: r) (cl ++ c :: d :: cr))))
    (hlt : ∀ x ∈ l, x.key < e.key) (hge : ∀ x ∈ e :: r, e.key ≤ x.key) :
    DeleteOk t lo (h + 1) (inorder (h + 1) (.mk false (l ++ e :: r) (cl ++ c :: d :: cr))) e.key
      (deleteStructural t (fuel + 1) (.mk false (l ++ e :: r) (cl ++ c :: d :: cr)) e.key) := by
  have hc : Shape t (t - 1) h c := hs.2.2.2 c (by simp)
  have hd : Shape t (t - 1) h d := hs.2.2.2 d (by simp)
  have hidx : lowerBound (.mk false (l ++ e :: r) (cl ++ c :: d :: cr)) e.key = l.length :=
    lowerBound_eq rfl hlt hge
  have hhit : hit (.mk false (l ++ e :: r) (cl ++ c :: d :: cr)) e.key = some e := by
    rw [hit_eq (l := l) (r := e :: r) rfl hlt hge]
    simp [Option.filter]
  have hcc : (Node.mk false (l ++ e :: r) (cl ++ c :: d :: cr)).child l.length = c :=
    child_middle cl _ rfl hl
  have hcd : (Node.mk false (l ++ e :: r) (cl ++ c :: d :: cr)).child (l.length + 1) = d :=
    child_middle_succ cl cr rfl hl
  rw [inorder_pair hl] at hsort
  have hsc : Sorted (inorder h c ++ e :: inorder h d) := by
    have := hsort.append.2.1
    rw [← List.cons_append, ← List.append_assoc] at this
    exact this.append.1
  simp only [deleteStructural, hhit, hidx, hcc, hcd, Node.leaf_mk, Node.entries_mk,
    Node.children_mk, set_middle, Bool.false_eq_true, if_false]
  split_ifs with hnc hnd
  · obtain ⟨z, hz⟩ : ∃ z, (inorder h c).getLast? = some z :=
      ⟨_, List.getLast?_eq_some_getLast (hc.inorder_ne_nil (by omega))⟩
    rw [rightmost_eq ht _ (t - 1) c (by rw [hc.levels_eq]; omega) hc, hz]
    exact DeleteOk.predecessor l r e z cl cr hs hl hsc.append.1 hz
      (ih fuel (t - 1) c z.key hf hc (by omega) hsc.append.1 ⟨z, List.mem_of_getLast? hz, rfl⟩)
  · obtain ⟨z, hz⟩ : ∃ z, (inorder h d).head? = some z :=
      ⟨_, List.head?_eq_some_head (hd.inorder_ne_nil (by omega))⟩
    have hsd : Sorted (inorder h d) := (List.pairwise_cons.mp hsc.append.2.1).2
    rw [leftmost_eq ht _ (t - 1) d (by rw [hd.levels_eq]; omega) hd, hz]
    exact DeleteOk.successor l r e z cl cr hs hl hsd hz
      (ih fuel (t - 1) d z.key hf hd (by omega) hsd ⟨z, List.mem_of_head? hz, rfl⟩)
  · have hbc := hc.bounds
    have hbd := hd.bounds
    obtain ⟨m, hmerge, hm, hnm, hin⟩ := mergeChildren_spec (i := l.length)
      (n := .mk false (l ++ e :: r) (cl ++ c :: d :: cr)) ht l r e cl cr rfl rfl rfl hl hc hd
      (by omega) (by omega)
    have hcm : (mergeChildren (.mk false (l ++ e :: r) (cl ++ c :: d :: cr)) l.length).child
        l.length = m := by
      rw [hmerge]
      exact child_middle cl cr rfl hl
    rw [hcm, hmerge]
    exact DeleteOk.merged l r e cl cr hs hspare rfl hl hm hin
      (ih fuel (t - 1) m e.key hf hm (by omega) (by rwa [hin]) ⟨e, by simp [hin], rfl⟩)

/-- The key is below child `c`, which has no entry to spare and cannot borrow: it is merged
with its right neighbour. -/
theorem deleteStructural_merge_next {t lo h fuel : ℕ} (ht : 2 ≤ t) (ih : DeletesBelow t h K V)
    (l r : List (Entry K V)) (s : Entry K V) (cl cr : List (Node K V)) {c d : Node K V} {key : K}
    (hf : 2 * h + 1 ≤ fuel)
    (hs : Shape t lo (h + 1) (.mk false (l ++ s :: r) (cl ++ c :: d :: cr)))
    (hspare : lo + 1 ≤ (l ++ s :: r).length) (hl : cl.length = l.length)
    (hsort : Sorted (inorder (h + 1) (.mk false (l ++ s :: r) (cl ++ c :: d :: cr))))
    (hnc : c.numKeys = t - 1) (hnd : d.numKeys = t - 1)
    (hmem : ∃ x ∈ inorder h c ++ inorder h d, x.key = key) :
    let n' := mergeChildren (.mk false (l ++ s :: r) (cl ++ c :: d :: cr)) l.length
    DeleteOk t lo (h + 1) (inorder (h + 1) (.mk false (l ++ s :: r) (cl ++ c :: d :: cr))) key
      (withChild n' l.length (deleteStructural t fuel (n'.child l.length) key)) := by
  have hc : Shape t (t - 1) h c := hs.2.2.2 c (by simp)
  have hd : Shape t (t - 1) h d := hs.2.2.2 d (by simp)
  obtain ⟨m, hmerge, hm, hnm, hin⟩ := mergeChildren_spec (i := l.length)
    (n := .mk false (l ++ s :: r) (cl ++ c :: d :: cr)) ht l r s cl cr rfl rfl rfl hl hc hd hnc hnd
  have hcm : (mergeChildren (.mk false (l ++ s :: r) (cl ++ c :: d :: cr)) l.length).child
      l.length = m := by
    rw [hmerge]
    exact child_middle cl cr rfl hl
  have hsm : Sorted (inorder h m) := by
    rw [inorder_pair hl] at hsort
    have := hsort.append.2.1
    rw [← List.cons_append, ← List.append_assoc] at this
    rw [hin]
    exact this.append.1
  obtain ⟨x, hx, hk⟩ := hmem
  have hxm : x ∈ inorder h m := by
    rw [hin]
    rcases List.mem_append.mp hx with hx | hx <;> simp [hx]
  intro n'
  rw [show n'.child l.length = m from hcm, show n' = _ from hmerge]
  exact DeleteOk.merged l r s cl cr hs hspare rfl hl hm hin
    (ih fuel (t - 1) m key hf hm (by omega) hsm ⟨x, hxm, hk⟩)

theorem deleteStructural_borrowed {t lo h fuel : ℕ} (ht : 2 ≤ t) (ih : DeletesBelow t h K V)
    (l r : List (Entry K V)) (cl cr : List (Node K V)) {c : Node K V} {key : K}
    {old : List (Entry K V)} (hf : 2 * h + 1 ≤ fuel)
    (hs : Shape t lo (h + 1) (.mk false (l ++ r) (cl ++ c :: cr)))
    (hl : cl.length = l.length)
    (hold : inorder (h + 1) (.mk false (l ++ r) (cl ++ c :: cr)) = old) (hsort : Sorted old)
    (hlt : ∀ x ∈ l, x.key < key) (hgt : ∀ x ∈ r, key < x.key) (hc : t ≤ c.numKeys)
    (hmem : ∃ x ∈ inorder h c, x.key = key) :
    DeleteOk t lo (h + 1) old key
      (deleteStructural t (fuel + 1) (.mk false (l ++ r) (cl ++ c :: cr)) key) := by
  subst hold
  rw [deleteStructural_ready ht l r cl cr hl hlt hgt hc]
  rw [inorder_cut (l := l) (r := r) (c := c) rfl rfl hl] at hsort
  exact DeleteOk.store l r cl cr hs rfl hl
    (ih fuel (t - 1) c key hf (hs.2.2.2 c (by simp)) (by omega) hsort.append.2.1.append.1 hmem)

/-- The key is below child `c`, which borrows the last entry of its left neighbour. -/
theorem deleteStructural_borrow_previous {t lo h fuel : ℕ} (ht : 2 ≤ t)
    (ih : DeletesBelow t h K V) (l r : List (Entry K V)) (s : Entry K V)
    (cl cr : List (Node K V)) {b c : Node K V} {key : K} (hf : 2 * h + 1 ≤ fuel)
    (hs : Shape t lo (h + 1) (.mk false (l ++ s :: r) (cl ++ b :: c :: cr)))
    (hl : cl.length = l.length)
    (hsort : Sorted (inorder (h + 1) (.mk false (l ++ s :: r) (cl ++ b :: c :: cr))))
    (hbefore : ∀ x ∈ pre (inorder h) (cl ++ [b]) (l ++ [s]), x.key < key)
    (hlt : ∀ x ∈ l, x.key < key) (hgt : ∀ x ∈ r, key < x.key)
    (hmem : ∃ x ∈ inorder h c, x.key = key) (hnb : t ≤ b.numKeys) (hnc : c.numKeys = t - 1) :
    DeleteOk t lo (h + 1) (inorder (h + 1) (.mk false (l ++ s :: r) (cl ++ b :: c :: cr))) key
      (deleteStructural t (fuel + 1)
        (borrowPrevious (.mk false (l ++ s :: r) (cl ++ b :: c :: cr)) (l.length + 1)) key) := by
  have hb : Shape t (t - 1) h b := hs.2.2.2 b (by simp)
  have hc : Shape t (t - 1) h c := hs.2.2.2 c (by simp)
  obtain ⟨z, b', c', hborrow, hbor, hnc'⟩ := borrowPrevious_spec (i := l.length + 1)
    (n := .mk false (l ++ s :: r) (cl ++ b :: c :: cr)) ht l r s cl cr rfl rfl rfl
    (by omega) hb hc hnb hnc
  rw [hborrow, Node.leaf_mk]
  have hin : inorder (h + 1) (.mk false (l ++ z :: r) (cl ++ b' :: c' :: cr)) =
      inorder (h + 1) (.mk false (l ++ s :: r) (cl ++ b :: c :: cr)) := by
    rw [inorder_pair hl, inorder_pair hl, ← List.cons_append,
      ← List.append_assoc (inorder h b'), hbor.inorder]
    simp
  have hpre : ∀ y ∈ inorder h b, y.key < key := by
    intro y hy
    apply hbefore
    rw [pre_concat _ hl]
    simp [hy]
  obtain ⟨x, hx, hkey⟩ := hmem
  have hxc : x ∈ inorder h c' := by
    have hx' : x ∈ inorder h b' ++ z :: inorder h c' := by
      rw [hbor.inorder]
      simp [hx]
    rcases List.mem_append.mp hx' with hx' | hx'
    · -- what stays in the sibling is in front of the new separator
      have hbs := hsort
      rw [← hin, inorder_pair hl] at hbs
      have hxz := hbs.append.2.1.append.2.2 x hx' z (by simp)
      exact absurd (hxz.trans (hpre z hbor.mem)) (by rw [hkey]; exact lt_irrefl _)
    · rcases List.mem_cons.mp hx' with rfl | hx'
      · exact absurd (hpre x hbor.mem) (by rw [hkey]; exact lt_irrefl _)
      · exact hx'
  have hs' : Shape t lo (h + 1) (.mk false (l ++ z :: r) (cl ++ b' :: c' :: cr)) :=
    hs.replace_pair hbor.left hbor.right
  have hltz : ∀ y ∈ l ++ [z], y.key < key := by
    intro y hy
    rcases List.mem_append.mp hy with hy | hy
    · exact hlt y hy
    · rw [List.mem_singleton.mp hy]
      exact hpre z hbor.mem
  have hgoal := deleteStructural_borrowed ht ih (l ++ [z]) r (cl ++ [b']) cr hf
    (by simpa using hs') (by simp [hl]) (by simpa using hin) hsort hltz hgt (by omega)
    ⟨x, hxc, hkey⟩
  simpa using hgoal

/-- The key is below child `c`, which borrows the first entry of its right neighbour. -/
theorem deleteStructural_borrow_next {t lo h fuel : ℕ} (ht : 2 ≤ t) (ih : DeletesBelow t h K V)
    (l r : List (Entry K V)) (s : Entry K V) (cl cr : List (Node K V)) {c d : Node K V} {key : K}
    (hf : 2 * h + 1 ≤ fuel)
    (hs : Shape t lo (h + 1) (.mk false (l ++ s :: r) (cl ++ c :: d :: cr)))
    (hl : cl.length = l.length)
    (hsort : Sorted (inorder (h + 1) (.mk false (l ++ s :: r) (cl ++ c :: d :: cr))))
    (hafter : ∀ x ∈ post (inorder h) (s :: r) (d :: cr), key < x.key)
    (hlt : ∀ x ∈ l, x.key < key) (hgt : ∀ x ∈ r, key < x.key)
    (hmem : ∃ x ∈ inorder h c, x.key = key) (hnc : c.numKeys = t - 1) (hnd : t ≤ d.numKeys) :
    DeleteOk t lo (h + 1) (inorder (h + 1) (.mk false (l ++ s :: r) (cl ++ c :: d :: cr))) key
      (deleteStructural t (fuel + 1)
        (borrowNext (.mk false (l ++ s :: r) (cl ++ c :: d :: cr)) l.length) key) := by
  have hc : Shape t (t - 1) h c := hs.2.2.2 c (by simp)
  have hd : Shape t (t - 1) h d := hs.2.2.2 d (by simp)
  obtain ⟨z, c', d', hborrow, hbor, hnc'⟩ := borrowNext_spec (i := l.length)
    (n := .mk false (l ++ s :: r) (cl ++ c :: d :: cr)) ht l r s cl cr rfl rfl rfl
    hl hc hd hnc hnd
  rw [hborrow, Node.leaf_mk]
  have hin : inorder (h + 1) (.mk false (l ++ z :: r) (cl ++ c' :: d' :: cr)) =
      inorder (h + 1) (.mk false (l ++ s :: r) (cl ++ c :: d :: cr)) := by
    rw [inorder_pair hl, inorder_pair hl, ← List.cons_append,
      ← List.append_assoc (inorder h c'), hbor.inorder]
    simp
  have hpost : ∀ y ∈ inorder h d, key < y.key := by
    intro y hy
    apply hafter
    simp [post, hy]
  obtain ⟨x, hx, hkey⟩ := hmem
  have hxc : x ∈ inorder h c' := by
    have hx' : x ∈ inorder h c' ++ z :: inorder h d' := by
      rw [hbor.inorder]
      simp [hx]
    rcases List.mem_append.mp hx' with hx' | hx'
    · exact hx'
    · rcases List.mem_cons.mp hx' with rfl | hx'
      · exact absurd (hpost x hbor.mem) (by rw [hkey]; exact lt_irrefl _)
      · have hbs := hsort
        rw [← hin, inorder_pair hl] at hbs
        have hzx := (List.pairwise_cons.mp hbs.append.2.1.append.2.1).1 x (by simp [hx'])
        exact absurd ((hpost z hbor.mem).trans hzx) (by rw [hkey]; exact lt_irrefl _)
  have hgtz : ∀ y ∈ z :: r, key < y.key := by
    intro y hy
    rcases List.mem_cons.mp hy with rfl | hy
    · exact hpost y hbor.mem
    · exact hgt y hy
  exact deleteStructural_borrowed ht ih l (z :: r) cl (d' :: cr) hf
    (hs.replace_pair hbor.left hbor.right) hl hin hsort hlt hgtz (by omega) ⟨x, hxc, hkey⟩

/-- The key is below child `c`, which has no entry to spare. -/
theorem deleteStructural_short {t lo h fuel : ℕ} (ht : 2 ≤ t) (ih : DeletesBelow t h K V)
    (l r : List (Entry K V)) (cl cr : List (Node K V)) {c : Node K V} {key : K}
    (hf : 2 * h + 2 ≤ fuel) (hs : Shape t lo (h + 1) (.mk false (l ++ r) (cl ++ c :: cr)))
    (hspare : lo + 1 ≤ (l ++ r).length) (hl : cl.length = l.length) (hr : r.length = cr.length)
    (hsort : Sorted (inorder (h + 1) (.mk false (l ++ r) (cl ++ c :: cr))))
    (hbefore : ∀ x ∈ pre (inorder h) cl l, x.key < key) (hlt : ∀ x ∈ l, x.key < key)
    (hafter : ∀ x ∈ post (inorder h) r cr, key < x.key)
    (hmem : ∃ x ∈ inorder h c, x.key = key) (hnc : c.numKeys = t - 1) :
    DeleteOk t lo (h + 1) (inorder (h + 1) (.mk false (l ++ r) (cl ++ c :: cr))) key
      (deleteStructural t (fuel + 1) (.mk false (l ++ r) (cl ++ c :: cr)) key) := by
  obtain ⟨fuel, rfl⟩ : ∃ f, fuel = f + 1 := ⟨fuel - 1, by omega⟩
  have hgt : ∀ x ∈ r, key < x.key := fun x hx => hafter x (mem_post hr hx)
  obtain ⟨hidx, hhit⟩ := search_miss (n := .mk false (l ++ r) (cl ++ c :: cr)) rfl hlt hgt
  have hchild : (Node.mk false (l ++ r) (cl ++ c :: cr)).child l.length = c :=
    child_middle cl cr rfl hl
  rw [deleteStructural]
  simp only [hhit, hidx, hchild, Node.numKeys_mk, if_pos hnc]
  split_ifs with hprev hnext hright
  · obtain ⟨hpos, hnb⟩ := hprev
    obtain rfl | ⟨l, s, rfl⟩ := List.eq_nil_or_concat l
    · simp at hpos
    obtain rfl | ⟨cl, b, rfl⟩ := List.eq_nil_or_concat cl
    · simp at hl
    simp only [List.concat_eq_append, List.append_assoc, List.singleton_append,
      List.length_append, List.length_singleton, Nat.add_sub_cancel] at *
    have hcl : cl.length = l.length := by omega
    rw [child_middle cl (c :: cr) rfl hcl] at hnb
    exact deleteStructural_borrow_previous ht ih l r s cl cr (by omega) hs hcl hsort hbefore
      (fun x hx => hlt x (List.mem_append_left _ hx)) hgt hmem hnb hnc
  · obtain ⟨hpos, hnd⟩ := hnext
    cases r with
    | nil => simp at hpos
    | cons s r =>
      cases cr with
      | nil => simp at hr
      | cons d cr =>
        rw [child_middle_succ cl cr rfl hl] at hnd
        exact deleteStructural_borrow_next ht ih l r s cl cr (by omega) hs hl hsort hafter hlt
          (fun x hx => hgt x (List.mem_cons_of_mem s hx)) hmem hnc hnd
  · -- nothing to borrow, merged with the right neighbour
    cases r with
    | nil => simp at hright
    | cons s r =>
      cases cr with
      | nil => simp at hr
      | cons d cr =>
        have hd : Shape t (t - 1) h d := hs.2.2.2 d (by simp)
        rw [child_middle_succ cl cr rfl hl] at hnext
        have hnd : d.numKeys = t - 1 := by
          have := hd.bounds.1
          by_contra hne
          exact hnext ⟨by simp, by omega⟩
        obtain ⟨x, hx, hkey⟩ := hmem
        exact deleteStructural_merge_next ht ih l r s cl cr (by omega) hs hspare hl hsort hnc hnd
          ⟨x, by simp [hx], hkey⟩
  · -- the last child, merged with the left neighbour
    have hrnil : r = [] := by
      rw [List.length_append] at hright
      exact List.length_eq_zero_iff.mp (by omega)
    subst hrnil
    obtain rfl : cr = [] := List.length_eq_zero_iff.mp hr.symm
    obtain rfl | ⟨l, s, rfl⟩ := List.eq_nil_or_concat l
    · simp at hspare
    obtain rfl | ⟨cl, b, rfl⟩ := List.eq_nil_or_concat cl
    · simp at hl
    simp only [List.concat_eq_append, List.append_assoc, List.singleton_append,
      List.length_append, List.length_singleton, List.append_nil, Nat.add_sub_cancel] at *
    have hcl : cl.length = l.length := by omega
    have hb : Shape t (t - 1) h b := hs.2.2.2 b (by simp)
    rw [child_middle cl [c] rfl hcl] at hprev
    have hnb : b.numKeys = t - 1 := by
      have := hb.bounds.1
      by_contra hne
      exact hprev ⟨by omega, by omega⟩
    obtain ⟨x, hx, hkey⟩ := hmem
    exact deleteStructural_merge_next ht ih l [] s cl [] (by omega) hs (by simpa using hspare)
      hcl hsort hnb hnc ⟨x, by simp [hx], hkey⟩

/-- `btree_delete_structural` on a key that is present. -/
theorem deletesBelow {t : ℕ} (ht : 2 ≤ t) (h : ℕ) : DeletesBelow t h K V := by
  induction h with
  | zero =>
    intro fuel lo n key hf hs hspare hsort hmem
    obtain ⟨fuel, rfl⟩ := Nat.exists_eq_succ_of_ne_zero (Nat.ne_zero_of_lt hf)
    obtain ⟨l, r, he, hlt, hge⟩ := exists_cut (show Sorted n.entries from hsort) key
    obtain ⟨x, hx, rfl⟩ := hmem
    rw [inorder, he] at hx hsort
    have hxr : x ∈ r := (List.mem_append.mp hx).resolve_left fun hx => lt_irrefl _ (hlt x hx)
    cases r with
    | nil => simp at hxr
    | cons e r =>
      have hek : e.key = x.key := by
        apply le_antisymm _ (hge e (by simp))
        exact hsort.append.2.1.head_le rfl x hxr
      have hhit : hit n x.key = some e := by
        rw [hit_eq he hlt hge]
        simp [Option.filter, hek]
      have hnum : n.numKeys = l.length + (r.length + 1) := by simp [Node.numKeys, he]
      obtain ⟨hleaf, hcs, -, hmax⟩ := hs
      simp only [deleteStructural, hhit, if_pos hleaf, lowerBound_eq he hlt hge, he,
        eraseIdx_middle]
      refine ⟨_, e, rfl, ⟨hleaf, hcs, ?_, ?_⟩, hek, l, r, he, rfl⟩
      · rw [Node.numKeys_mk, List.length_append]
        omega
      · rw [Node.numKeys_mk, List.length_append]
        omega
  | succ h ih =>
    intro fuel lo n key hf hs hspare hsort hmem
    obtain ⟨fuel, rfl⟩ : ∃ f, fuel = f + 1 := ⟨fuel - 1, by omega⟩
    obtain ⟨l, r, cl, c, cr, hd, hlt, hge⟩ := hs.descent hsort key
    have hn : n = .mk false (l ++ r) (cl ++ c :: cr) := by
      obtain ⟨lf, es, cs⟩ := n
      obtain ⟨rfl, -⟩ := hs
      rw [← hd.entries, ← hd.children]
      rfl
    cases hhit : hit n key with
    | some e =>
      rw [hd.hit] at hhit
      obtain ⟨hhead, hek⟩ := Option.filter_eq_some_iff.mp hhit
      obtain rfl : e.key = key := by simpa using hek
      obtain ⟨r, rfl⟩ := List.head?_eq_some_iff.mp hhead
      cases cr with
      | nil => exact absurd hd.right (by simp)
      | cons d cr =>
        have hleft := hd.left
        subst hn
        exact deleteStructural_hit ht ih l r e cl cr (by omega) hs hspare hleft hsort hlt hge
    | none =>
      have hafter := hd.gt_of_miss hsort hhit
      have hmemc := hd.mem_child hafter hmem
      have hc : Shape t (t - 1) h c := hs.2.2.2 c (by simp [hd.children])
      have hleft := hd.left
      have hright := hd.right
      have hbefore := hd.before
      subst hn
      by_cases hnc : c.numKeys = t - 1
      · exact deleteStructural_short ht ih l r cl cr (by omega) hs hspare hleft hright hsort
          hbefore hlt hafter hmemc hnc
      · have := hc.bounds.1
        exact deleteStructural_borrowed ht ih l r cl cr (by omega) hs hleft rfl hsort hlt
          (fun x hx => hafter x (mem_post hright hx)) (by omega) hmemc

end Cstl.Btree
