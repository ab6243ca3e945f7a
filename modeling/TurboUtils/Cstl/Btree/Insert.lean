import TurboUtils.Cstl.Btree.Shape

/-! Insertion keeps a node balanced and puts the new entry at its place in the contents,
in front of the link it reports. -/
namespace Cstl.Btree

variable {K V : Type*}

/-! ## Nodes joined around a separator -/

/-- A node of height `h` with its subtrees in order, whatever the number of its own keys. -/
def Balanced (t : ℕ) : ℕ → Node K V → Prop
  | 0, n => n.leaf = true ∧ n.children = []
  | h + 1, n =>
      n.leaf = false ∧ n.children.length = n.numKeys + 1 ∧
        ∀ c ∈ n.children, Shape t (t - 1) h c

theorem shape_iff {t lo h : ℕ} {n : Node K V} :
    Shape t lo h n ↔ Balanced t h n ∧ lo ≤ n.numKeys ∧ n.numKeys ≤ 2 * t - 1 := by
  cases h with
  | zero => simp only [Shape, Balanced, and_assoc]
  | succ h =>
    simp only [Shape, Balanced]
    tauto

theorem Balanced.join {t h : ℕ} {lf lf' : Bool} {a b : List (Entry K V)} {m : Entry K V}
    {ca cb : List (Node K V)} (ha : Balanced t h (.mk lf a ca))
    (hb : Balanced t h (.mk lf' b cb)) :
    Balanced t h (.mk lf (a ++ m :: b) (ca ++ cb)) := by
  cases h with
  | zero => simp_all [Balanced]
  | succ h =>
    obtain ⟨hlf, hla, hca⟩ := ha
    obtain ⟨-, hlb, hcb⟩ := hb
    simp only [Node.children_mk, Node.numKeys_mk] at hla hlb hca hcb
    refine ⟨hlf, ?_, ?_⟩
    · simp only [Node.children_mk, Node.numKeys_mk, List.length_append, List.length_cons]
      omega
    · intro c hc
      rcases List.mem_append.mp hc with hc | hc
      · exact hca c hc
      · exact hcb c hc

theorem Balanced.split {t h : ℕ} {lf : Bool} {a b : List (Entry K V)} {m : Entry K V}
    {cs : List (Node K V)} (hn : Balanced t h (.mk lf (a ++ m :: b) cs)) :
    Balanced t h (.mk lf a (cs.take (a.length + 1))) ∧
      Balanced t h (.mk lf b (cs.drop (a.length + 1))) := by
  cases h with
  | zero => simp_all [Balanced]
  | succ h =>
    obtain ⟨hlf, hlen, hcs⟩ := hn
    simp only [Node.children_mk, Node.numKeys_mk, List.length_append, List.length_cons] at hlen hcs
    refine ⟨⟨hlf, ?_, fun c hc => hcs c (List.mem_of_mem_take hc)⟩,
      ⟨hlf, ?_, fun c hc => hcs c (List.mem_of_mem_drop hc)⟩⟩
    · simp only [Node.children_mk, Node.numKeys_mk, List.length_take]
      omega
    · simp only [Node.children_mk, Node.numKeys_mk, List.length_drop]
      omega

theorem inorder_join {t h : ℕ} {lf lf' : Bool} (lf'' : Bool) {a b : List (Entry K V)} {m : Entry K V}
    {ca cb : List (Node K V)} (ha : Balanced t h (.mk lf a ca))
    (hb : Balanced t h (.mk lf' b cb)) :
    inorder h (.mk lf'' (a ++ m :: b) (ca ++ cb)) =
      inorder h (.mk lf a ca) ++ m :: inorder h (.mk lf' b cb) := by
  cases h with
  | zero => rfl
  | succ h =>
    obtain ⟨-, hla, -⟩ := ha
    obtain ⟨-, hlb, -⟩ := hb
    simp only [Node.children_mk, Node.numKeys_mk] at hla hlb
    cases ca with
    | nil => simp at hla
    | cons c ca =>
      cases cb with
      | nil => simp at hlb
      | cons d cb =>
        simp only [inorder, Node.children_mk, Node.entries_mk, List.cons_append]
        rw [post_append _ (by simpa using hla.symm)]
        simp [post]

theorem inorder_pair {h : ℕ} {lf : Bool} {l r : List (Entry K V)} {s : Entry K V}
    {cl cr : List (Node K V)} {c d : Node K V} (hl : cl.length = l.length) :
    inorder (h + 1) (.mk lf (l ++ s :: r) (cl ++ c :: d :: cr)) =
      pre (inorder h) cl l ++
        (inorder h c ++ s :: (inorder h d ++ post (inorder h) r cr)) := by
  rw [inorder_cut (l := l) (r := s :: r) rfl rfl hl]
  rfl

theorem pre_concat (f : Node K V → List (Entry K V)) {cl : List (Node K V)} {c : Node K V}
    {l : List (Entry K V)} {s : Entry K V} (hl : cl.length = l.length) :
    pre f (cl ++ [c]) (l ++ [s]) = pre f cl l ++ (f c ++ [s]) := by
  rw [pre_append f hl]
  rfl

/-! ## Splitting -/

/-- What `btree_split_child` makes of a full child. -/
theorem splitChild_spec {t h : ℕ} (ht : 2 ≤ t) {n : Node K V} (l r : List (Entry K V))
    (cl cr : List (Node K V)) {c : Node K V} {i : ℕ} (he : n.entries = l ++ r)
    (hc : n.children = cl ++ c :: cr) (hl : l.length = i) (hcl : cl.length = i)
    (hs : Shape t (t - 1) h c) (hfull : c.numKeys = 2 * t - 1) :
    ∃ m left right, splitChild t n i = .mk n.leaf (l ++ m :: r) (cl ++ left :: right :: cr) ∧
      inorder h c = inorder h left ++ m :: inorder h right ∧
      (Shape t (t - 1) h left ∧ left.numKeys = t - 1) ∧
      (Shape t (t - 1) h right ∧ right.numKeys = t - 1) := by
  obtain ⟨lf, es, cs⟩ := c
  simp only [Node.numKeys_mk] at hfull
  have hm : t - 1 < es.length := by omega
  have hes : es = es.take (t - 1) ++ es[t - 1] :: es.drop t := by
    have := List.take_append_drop (t - 1) es
    rw [List.drop_eq_getElem_cons hm, show t - 1 + 1 = t by omega] at this
    exact this.symm
  have hla : (es.take (t - 1)).length = t - 1 := by
    rw [List.length_take]
    omega
  have hlb : (es.drop t).length = t - 1 := by
    rw [List.length_drop]
    omega
  have hb := (shape_iff.mp hs).1
  rw [hes] at hb
  obtain ⟨hleft, hright⟩ := hb.split
  rw [hla, show t - 1 + 1 = t by omega] at hleft hright
  refine ⟨es[t - 1], .mk lf (es.take (t - 1)) (cs.take t), .mk lf (es.drop t) (cs.drop t),
    ?_, ?_, ⟨?_, hla⟩, ⟨?_, hlb⟩⟩
  · rw [splitChild, child_middle cl cr hc hcl]
    simp only [Node.entries_mk, List.getElem?_eq_getElem hm, he, hc, set_middle hcl,
      insertIdx_middle hl, Node.leaf_mk, Node.children_mk]
    rw [show cl ++ Node.mk lf (es.take (t - 1)) (cs.take t) :: cr =
      (cl ++ [Node.mk lf (es.take (t - 1)) (cs.take t)]) ++ cr by simp,
      insertIdx_middle (by simp [hcl])]
    simp
  · rw [← inorder_join lf hleft hright, ← hes, List.take_append_drop]
  · exact shape_iff.mpr ⟨hleft, hla.ge, by rw [Node.numKeys_mk]; omega⟩
  · exact shape_iff.mpr ⟨hright, hlb.ge, by rw [Node.numKeys_mk]; omega⟩

/-! ## Descent -/

theorem nextLink_eq {n : Node K V} {l r : List (Entry K V)} {i : ℕ} (he : n.entries = l ++ r)
    (hl : l.length = i) (next : Option ℕ) :
    nextLink n i next = (r.head?.map Entry.link).or next := by
  rw [nextLink, he, getElem?_cut hl]
  cases r <;> rfl

variable [LinearOrder K]

/-- `new` is `old` with the entry put at its place, and `next` is the link that follows it,
taken from `after` when the entry comes last. -/
def Spliced (e : Entry K V) (after : Option ℕ) (old new : List (Entry K V)) (next : Option ℕ) :
    Prop :=
  ∃ xs ys, old = xs ++ ys ∧ new = xs ++ e :: ys ∧ (∀ x ∈ xs, x.key < e.key) ∧
    (∀ y ∈ ys, e.key < y.key) ∧ next = (ys.head?.map Entry.link).or after

theorem Spliced.lift {e : Entry K V} {after next : Option ℕ} {before old new rest : List (Entry K V)}
    (h : Spliced e ((rest.head?.map Entry.link).or after) old new next)
    (hb : ∀ x ∈ before, x.key < e.key) (hr : ∀ y ∈ rest, e.key < y.key) :
    Spliced e after (before ++ (old ++ rest)) (before ++ (new ++ rest)) next := by
  obtain ⟨xs, ys, rfl, rfl, hx, hy, rfl⟩ := h
  refine ⟨before ++ xs, ys ++ rest, by simp, by simp, ?_, ?_, ?_⟩
  · intro x hx'
    exact (List.mem_append.mp hx').elim (hb x) (hx x)
  · intro y hy'
    exact (List.mem_append.mp hy').elim (hy y) (hr y)
  · rw [List.head?_append]
    cases ys <;> simp

theorem lt_of_absent {key : K} {xs : List (Entry K V)} (h : ∀ x ∈ xs, key ≤ x.key)
    (habs : ∀ x ∈ xs, x.key ≠ key) : ∀ x ∈ xs, key < x.key :=
  fun x hx => lt_of_le_of_ne (h x hx) (habs x hx).symm

/-- The result of the descent from a node that is not full. -/
def InsertOk (t lo h : ℕ) (e : Entry K V) (n : Node K V) (next : Option ℕ)
    (res : Node K V × Option ℕ) : Prop :=
  Shape t lo h res.1 ∧ Spliced e next (inorder h n) (inorder h res.1) res.2

/-- Storing the result of the descent into a child back into its node. -/
theorem InsertOk.store {t lo h : ℕ} {e : Entry K V} (l r : List (Entry K V))
    (cl cr : List (Node K V)) {c : Node K V} {next : Option ℕ} {res : Node K V × Option ℕ}
    (hs : Shape t lo (h + 1) (.mk false (l ++ r) (cl ++ c :: cr)))
    (hl : cl.length = l.length) (hr : r.length = cr.length)
    (hb : ∀ x ∈ pre (inorder h) cl l, x.key < e.key)
    (ha : ∀ x ∈ post (inorder h) r cr, e.key < x.key)
    (h' : InsertOk t (t - 1) h e c ((r.head?.map Entry.link).or next) res) :
    InsertOk t lo (h + 1) e (.mk false (l ++ r) (cl ++ c :: cr)) next
      (.mk false (l ++ r) ((cl ++ c :: cr).set l.length res.1), res.2) := by
  obtain ⟨hshape, hsp⟩ := h'
  rw [set_middle hl]
  refine ⟨hs.replace hshape, ?_⟩
  rw [inorder_cut (l := l) (r := r) (c := c) rfl rfl hl,
    inorder_cut (l := l) (r := r) (c := res.1) rfl rfl hl]
  rw [← head?_post (inorder h) hr] at hsp
  exact hsp.lift hb ha

theorem insertLoop_spec {t : ℕ} (ht : 2 ≤ t) (e : Entry K V) {h : ℕ} :
    ∀ (fuel lo : ℕ) (n : Node K V) (next : Option ℕ), h < fuel → Shape t lo h n →
      n.numKeys < 2 * t - 1 → Sorted (inorder h n) → (∀ x ∈ inorder h n, x.key ≠ e.key) →
      InsertOk t lo h e n next (insertLoop t e fuel n next) := by
  induction h with
  | zero =>
    intro fuel lo n next hf hs hn hsort habs
    obtain ⟨fuel, rfl⟩ := Nat.exists_eq_succ_of_ne_zero (Nat.ne_zero_of_lt hf)
    obtain ⟨l, r, he, hlt, hge⟩ := exists_cut (show Sorted n.entries from hsort) e.key
    have hnum : n.numKeys = l.length + r.length := by rw [Node.numKeys, he, List.length_append]
    obtain ⟨hleaf, hcs, hlo, -⟩ := hs
    rw [insertLoop, if_pos hleaf, lowerBound_eq he hlt hge, nextLink_eq he rfl, he,
      insertIdx_middle rfl, hleaf, hcs]
    refine ⟨⟨rfl, rfl, ?_, ?_⟩, l, r, he, rfl, hlt, ?_, rfl⟩
    · rw [Node.numKeys_mk, List.length_append, List.length_cons]
      omega
    · rw [Node.numKeys_mk, List.length_append, List.length_cons]
      omega
    · refine lt_of_absent hge fun x hx => habs x ?_
      rw [inorder, he]
      exact List.mem_append_right l hx
  | succ h ih =>
    intro fuel lo n next hf hs hn hsort habs
    obtain ⟨fuel, rfl⟩ := Nat.exists_eq_succ_of_ne_zero (Nat.ne_zero_of_lt hf)
    obtain ⟨l, r, cl, c, cr, hd, -, -⟩ := hs.descent hsort e.key
    have hafter : ∀ x ∈ post (inorder h) r cr, e.key < x.key := by
      refine lt_of_absent hd.after fun x hx => habs x ?_
      rw [hd.inorder]
      simp [hx]
    have hsortc : Sorted (inorder h c) := by
      rw [hd.inorder] at hsort
      exact hsort.append.2.1.append.1
    have habsc : ∀ x ∈ inorder h c, x.key ≠ e.key := by
      intro x hx
      apply habs
      rw [hd.inorder]
      simp [hx]
    have hc : Shape t (t - 1) h c := hs.2.2.2 c (by simp [hd.children])
    have hn' : n = .mk false (l ++ r) (cl ++ c :: cr) := by
      obtain ⟨lf, es, cs⟩ := n
      obtain ⟨rfl, -⟩ := hs
      rw [← hd.entries, ← hd.children]
      rfl
    have hleaf : ¬ n.leaf = true := by simp [hs.1]
    rw [insertLoop, if_neg hleaf, hd.child, hd.index, nextLink_eq hd.entries rfl]
    split_ifs with hfull
    · -- the child is full: it is split and the descent goes into one half
      obtain ⟨m, left, right, hsplit, hin, ⟨hsl, hnl⟩, ⟨hsr, hnr⟩⟩ :=
        splitChild_spec ht l r cl cr hd.entries hd.children rfl hd.left hc hfull
      have hs' : Shape t lo (h + 1) (.mk false (l ++ m :: r) (cl ++ left :: right :: cr)) := by
        have hlen := hs.2.1
        simp only [hd.entries, hd.children, Node.numKeys, List.length_append,
          List.length_cons] at hlen hn hs
        refine shape_of_cut (by simp; omega) ?_ (by simp; omega) ?_
        · have := hs.2.2.1.1
          simp only [Node.numKeys, hd.entries, List.length_append] at this
          simp
          omega
        · intro d hd'
          simp only [List.mem_append, List.mem_cons] at hd'
          rcases hd' with hd' | rfl | rfl | hd'
          · exact hs.2.2.2 d (by simp [hd.children, hd'])
          · exact hsl
          · exact hsr
          · exact hs.2.2.2 d (by simp [hd.children, hd'])
      have heq : inorder (h + 1) n =
          inorder (h + 1) (.mk false (l ++ m :: r) (cl ++ left :: right :: cr)) := by
        rw [hd.inorder, inorder_pair hd.left, hin]
        simp
      rw [hin] at hsortc habsc
      have hm : m.key ≠ e.key := habsc m (by simp)
      have hsplit' : splitChild t n l.length =
          .mk false (l ++ m :: r) (cl ++ left :: right :: cr) := by rw [hsplit, hs.1]
      simp only [hsplit', Node.entries_mk, getElem?_middle, Node.leaf_mk, Node.children_mk]
      by_cases hgt : m.key < e.key
      · rw [if_pos (compare_gt_iff_gt.mpr hgt)]
        have hchild : (Node.mk false (l ++ m :: r) (cl ++ left :: right :: cr)).child
            (l.length + 1) = right :=
          child_middle (cl ++ [left]) cr (by simp) (by simp [hd.left])
        have hrec := ih fuel (t - 1) right ((r.head?.map Entry.link).or next) (by omega) hsr (by omega)
          (List.pairwise_cons.mp hsortc.append.2.1).2
          (fun x hx => habsc x (by simp [hx]))
        have hstore := InsertOk.store (l ++ [m]) r (cl ++ [left]) cr
          (c := right) (by simpa using hs') (by simp [hd.left]) hd.right ?_ hafter hrec
        · rw [hchild]
          simp only [List.append_assoc, List.cons_append, List.nil_append, List.length_append,
            List.length_singleton] at hstore
          exact ⟨hstore.1, heq ▸ hstore.2⟩
        · rw [pre_concat _ hd.left]
          intro x hx
          simp only [List.mem_append, List.mem_singleton] at hx
          rcases hx with hx | hx | rfl
          · exact hd.before x hx
          · exact (hsortc.append.2.2 x hx m (by simp)).trans hgt
          · exact hgt
      · have hlt : e.key < m.key := lt_of_le_of_ne (not_lt.mp hgt) hm.symm
        rw [if_neg (by rw [compare_gt_iff_gt]; exact hgt)]
        have hchild : (Node.mk false (l ++ m :: r) (cl ++ left :: right :: cr)).child
            l.length = left := child_middle cl (right :: cr) rfl hd.left
        have hrec := ih fuel (t - 1) left (some m.link) (by omega) hsl (by omega) hsortc.append.1 (fun x hx => habsc x (by simp [hx]))
        have hstore := InsertOk.store l (m :: r) cl (right :: cr) hs' hd.left
          (by simp [hd.right]) hd.before ?_ (show InsertOk t (t - 1) h e left
            (((m :: r).head?.map Entry.link).or next) _ from hrec)
        · rw [hchild]
          exact ⟨hstore.1, heq ▸ hstore.2⟩
        · intro x hx
          simp only [post, List.mem_cons, List.mem_append] at hx
          rcases hx with rfl | hx | hx
          · exact hlt
          · exact hlt.trans ((List.pairwise_cons.mp hsortc.append.2.1).1 x hx)
          · exact hafter x hx
    · have hrec := ih fuel (t - 1) c ((r.head?.map Entry.link).or next) (by omega) hc
        (lt_of_le_of_ne hc.bounds.2 hfull) hsortc habsc
      subst hn'
      exact hrec.store l r cl cr hs hd.left hd.right hd.before hafter

/-- `btree_insert_prepared` on a tree without the key. -/
theorem insertPrepared_spec {t : ℕ} (ht : 2 ≤ t) (e : Entry K V) {h lo : ℕ} {n : Node K V}
    (hs : Shape t lo h n) (hpos : 1 ≤ lo) (hsort : Sorted (inorder h n))
    (habs : ∀ x ∈ inorder h n, x.key ≠ e.key) :
    ∃ h', Shape t 1 h' (insertPrepared t (some n) e).1 ∧
      Spliced e none (inorder h n) (inorder h' (insertPrepared t (some n) e).1)
        (insertPrepared t (some n) e).2 := by
  rw [insertPrepared]
  split_ifs with hfull
  · obtain ⟨m, left, right, hsplit, hin, ⟨hsl, hnl⟩, ⟨hsr, hnr⟩⟩ :=
      splitChild_spec (n := .mk false [] [n]) (i := 0) ht [] [] [] [] rfl rfl rfl rfl (hs.mono (by omega)) hfull
    have hs' : Shape t 1 (h + 1) (.mk false [m] [left, right]) := by
      refine shape_of_cut rfl le_rfl (by simp; omega) ?_
      simp [hsl, hsr]
    have heq : inorder (h + 1) (.mk false [m] [left, right]) = inorder h n := by
      simp [inorder, post, hin]
    rw [hsplit]
    have hins := insertLoop_spec ht e (n.levels + 1) 1 _ none (by rw [hs.levels_eq]; omega) hs' (by simp; omega) (by rwa [heq]) (by rwa [heq])
    exact ⟨h + 1, hins.1, heq ▸ hins.2⟩
  · have hins := insertLoop_spec ht e n.levels 1 n none (by rw [hs.levels_eq]; omega)
      (hs.mono (hpos.trans hs.bounds.1))
      (lt_of_le_of_ne hs.bounds.2 hfull) hsort habs
    exact ⟨h, hins⟩

end Cstl.Btree
