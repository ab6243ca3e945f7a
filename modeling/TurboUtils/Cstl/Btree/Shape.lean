import TurboUtils.Cstl.Btree.Node

/-! Balanced nodes and their in-order contents. A node is cut at a slot into the part
before a child, the child and the part after it, and every operation is stated on that cut. -/
namespace Cstl.Btree

variable {K V : Type*}

/-! ## Lists cut at an index -/

section cut

variable {α : Type*}

theorem set_middle {l r : List α} {x y : α} {i : ℕ} (h : l.length = i) :
    (l ++ x :: r).set i y = l ++ y :: r := by
  subst h
  simp

theorem getElem?_middle {l r : List α} {x : α} {i : ℕ} (h : l.length = i) :
    (l ++ x :: r)[i]? = some x := by
  subst h
  simp

theorem getElem?_cut {l r : List α} {i : ℕ} (h : l.length = i) : (l ++ r)[i]? = r.head? := by
  subst h
  cases r <;> simp

theorem insertIdx_middle {l r : List α} {x : α} {i : ℕ} (h : l.length = i) :
    (l ++ r).insertIdx i x = l ++ x :: r := by
  subst h
  induction l with
  | nil => rfl
  | cons a l ih => simp [ih]

theorem eraseIdx_middle {l r : List α} {x : α} {i : ℕ} (h : l.length = i) :
    (l ++ x :: r).eraseIdx i = l ++ r := by
  subst h
  induction l with
  | nil => rfl
  | cons a l ih => simp [ih]

end cut

theorem child_middle {n : Node K V} (cl cr : List (Node K V)) {c : Node K V} {i : ℕ}
    (hc : n.children = cl ++ c :: cr) (h : cl.length = i) : n.child i = c := by
  rw [Node.child, hc, List.getD_eq_getElem?_getD, getElem?_middle h]
  rfl

theorem child_middle_succ {n : Node K V} (cl cr : List (Node K V)) {c d : Node K V} {i : ℕ}
    (hc : n.children = cl ++ c :: d :: cr) (h : cl.length = i) : n.child (i + 1) = d :=
  child_middle (cl ++ [c]) cr (by simp [hc]) (by simp [h])

/-! ## Contents -/

def pre (f : Node K V → List (Entry K V)) : List (Node K V) → List (Entry K V) → List (Entry K V)
  | c :: cs, e :: es => f c ++ e :: pre f cs es
  | _, _ => []

def post (f : Node K V → List (Entry K V)) : List (Entry K V) → List (Node K V) → List (Entry K V)
  | e :: es, c :: cs => e :: (f c ++ post f es cs)
  | _, _ => []

/-- The entries below a node of height `h`, from left to right. -/
def inorder : ℕ → Node K V → List (Entry K V)
  | 0, n => n.entries
  | h + 1, n =>
      match n.children with
      | [] => n.entries
      | c :: cs => inorder h c ++ post (inorder h) n.entries cs

def Sorted [LinearOrder K] (l : List (Entry K V)) : Prop := l.Pairwise fun a b => a.key < b.key

/-- A subtree of height `h` all of whose leaves are at the bottom, whose own node holds
between `lo` and `2 * t - 1` entries and every other one between `t - 1` and `2 * t - 1`. -/
def Shape (t : ℕ) : ℕ → ℕ → Node K V → Prop
  | lo, 0, n => n.leaf = true ∧ n.children = [] ∧ lo ≤ n.numKeys ∧ n.numKeys ≤ 2 * t - 1
  | lo, h + 1, n =>
      n.leaf = false ∧ n.children.length = n.numKeys + 1 ∧
        (lo ≤ n.numKeys ∧ n.numKeys ≤ 2 * t - 1) ∧ ∀ c ∈ n.children, Shape t (t - 1) h c

theorem Shape.bounds {t lo h : ℕ} {n : Node K V} (hs : Shape t lo h n) :
    lo ≤ n.numKeys ∧ n.numKeys ≤ 2 * t - 1 := by
  cases h with
  | zero => exact hs.2.2
  | succ h => exact hs.2.2.1

theorem Shape.mono {t lo lo' h : ℕ} {n : Node K V} (hs : Shape t lo h n) (hl : lo' ≤ n.numKeys) :
    Shape t lo' h n := by
  cases h with
  | zero => exact ⟨hs.1, hs.2.1, hl, hs.2.2.2⟩
  | succ h => exact ⟨hs.1, hs.2.1, ⟨hl, hs.2.2.1.2⟩, hs.2.2.2⟩

theorem Shape.levels_eq {t lo h : ℕ} {n : Node K V} (hs : Shape t lo h n) : n.levels = h + 1 := by
  induction h generalizing lo n with
  | zero =>
    obtain ⟨l, es, cs⟩ := n
    obtain rfl : cs = [] := hs.2.1
    rfl
  | succ h ih =>
    obtain ⟨l, es, cs⟩ := n
    cases cs with
    | nil => exact absurd hs.2.1 (by simp)
    | cons c cs =>
      rw [Node.levels, ih (hs.2.2.2 c (by simp))]

theorem pre_append (f : Node K V → List (Entry K V)) {cl cs : List (Node K V)}
    {l es : List (Entry K V)} (h : cl.length = l.length) :
    pre f (cl ++ cs) (l ++ es) = pre f cl l ++ pre f cs es := by
  induction cl generalizing l with
  | nil =>
    obtain rfl : l = [] := List.length_eq_zero_iff.mp h.symm
    rfl
  | cons c cl ih =>
    cases l with
    | nil => simp at h
    | cons e l => simp [pre, ih (Nat.succ.inj h)]

theorem post_append (f : Node K V → List (Entry K V)) {cr cs : List (Node K V)}
    {r es : List (Entry K V)} (h : r.length = cr.length) :
    post f (r ++ es) (cr ++ cs) = post f r cr ++ post f es cs := by
  induction r generalizing cr with
  | nil =>
    obtain rfl : cr = [] := List.length_eq_zero_iff.mp h.symm
    rfl
  | cons e r ih =>
    cases cr with
    | nil => simp at h
    | cons c cr => simp [post, ih (Nat.succ.inj h)]

/-- The contents cut at a child. -/
theorem inorder_cut {h : ℕ} {n : Node K V} {l r : List (Entry K V)} {cl cr : List (Node K V)}
    {c : Node K V} (he : n.entries = l ++ r) (hc : n.children = cl ++ c :: cr)
    (hl : cl.length = l.length) :
    inorder (h + 1) n = pre (inorder h) cl l ++ (inorder h c ++ post (inorder h) r cr) := by
  have key : ∀ (cl : List (Node K V)) (l : List (Entry K V)), cl.length = l.length →
      ∀ c0 cs0, cl ++ c :: cr = c0 :: cs0 → inorder h c0 ++ post (inorder h) (l ++ r) cs0 =
        pre (inorder h) cl l ++ (inorder h c ++ post (inorder h) r cr) := by
    intro cl
    induction cl with
    | nil =>
      intro l hl c0 cs0 hcs
      obtain rfl : l = [] := List.length_eq_zero_iff.mp hl.symm
      obtain ⟨rfl, rfl⟩ := List.cons.inj hcs
      rfl
    | cons d cl ih =>
      intro l hl c0 cs0 hcs
      cases l with
      | nil => simp at hl
      | cons e l =>
        obtain ⟨rfl, rfl⟩ := List.cons.inj hcs
        obtain ⟨c1, cs1, h1⟩ : ∃ c1 cs1, cl ++ c :: cr = c1 :: cs1 := by
          cases cl <;> simp
        have := ih l (Nat.succ.inj hl) c1 cs1 h1
        change inorder h d ++ post (inorder h) (e :: (l ++ r)) (cl ++ c :: cr) = _
        rw [h1, post, this]
        simp [pre]
  obtain ⟨c0, cs0, h0⟩ : ∃ c0 cs0, n.children = c0 :: cs0 := by
    rw [hc]
    cases cl <;> simp
  rw [inorder, h0, he]
  exact key cl l hl c0 cs0 (by rw [← hc, h0])

theorem getLast?_pre (f : Node K V → List (Entry K V)) {cl : List (Node K V)}
    {l : List (Entry K V)} (h : cl.length = l.length) : (pre f cl l).getLast? = l.getLast? := by
  rcases List.eq_nil_or_concat l with rfl | ⟨l', e, rfl⟩
  · obtain rfl : cl = [] := List.length_eq_zero_iff.mp h
    rfl
  · rcases List.eq_nil_or_concat cl with rfl | ⟨cl', c, rfl⟩
    · simp at h
    · simp only [List.concat_eq_append, List.length_append, List.length_singleton] at h ⊢
      rw [pre_append f (by omega)]
      simp [pre]

theorem head?_post (f : Node K V → List (Entry K V)) {cr : List (Node K V)}
    {r : List (Entry K V)} (h : r.length = cr.length) : (post f r cr).head? = r.head? := by
  cases r with
  | nil => rfl
  | cons e r =>
    cases cr with
    | nil => simp at h
    | cons c cr => rfl

theorem mem_post {f : Node K V → List (Entry K V)} {cr : List (Node K V)}
    {r : List (Entry K V)} (h : r.length = cr.length) {e : Entry K V} (he : e ∈ r) :
    e ∈ post f r cr := by
  induction r generalizing cr with
  | nil => simp at he
  | cons x r ih =>
    cases cr with
    | nil => simp at h
    | cons c cr =>
      rcases List.mem_cons.mp he with rfl | he
      · simp [post]
      · simp [post, ih (Nat.succ.inj h) he]

theorem sublist_pre (f : Node K V → List (Entry K V)) {cl : List (Node K V)}
    {l : List (Entry K V)} (h : cl.length = l.length) : l.Sublist (pre f cl l) := by
  induction cl generalizing l with
  | nil =>
    obtain rfl : l = [] := List.length_eq_zero_iff.mp h.symm
    simp
  | cons c cl ih =>
    cases l with
    | nil => simp
    | cons e l =>
      rw [pre]
      exact ((ih (Nat.succ.inj h)).cons_cons e).trans (List.sublist_append_right ..)

/-- Any slot of an inner node cuts it. -/
theorem Shape.cut {t lo h : ℕ} {n : Node K V} (hs : Shape t lo (h + 1) n) {i : ℕ}
    (hi : i ≤ n.numKeys) :
    ∃ l r cl c cr, n.entries = l ++ r ∧ n.children = cl ++ c :: cr ∧ l.length = i ∧
      cl.length = i ∧ r.length = cr.length ∧ n.child i = c := by
  have hlen := hs.2.1
  have hlt : i < n.children.length := by omega
  refine ⟨n.entries.take i, n.entries.drop i, n.children.take i, n.children.get ⟨i, hlt⟩,
    n.children.drop (i + 1), (List.take_append_drop i n.entries).symm, ?_, ?_, ?_, ?_, ?_⟩
  · rw [List.get_eq_getElem, List.getElem_cons_drop, List.take_append_drop]
  · simp only [List.length_take]
    exact Nat.min_eq_left hi
  · simp only [List.length_take]
    omega
  · simp only [List.length_drop]
    simp only [Node.numKeys] at hlen
    omega
  · rw [Node.child, List.getD_eq_getElem?_getD, List.getElem?_eq_getElem hlt]
    rfl

theorem shape_of_cut {t lo h : ℕ} {es : List (Entry K V)} {cs : List (Node K V)}
    (hlen : cs.length = es.length + 1) (hlo : lo ≤ es.length) (hhi : es.length ≤ 2 * t - 1)
    (hcs : ∀ c ∈ cs, Shape t (t - 1) h c) : Shape t lo (h + 1) (.mk false es cs) :=
  ⟨rfl, hlen, ⟨hlo, hhi⟩, hcs⟩

theorem Shape.replace {t lo h : ℕ} {l r : List (Entry K V)} {cl cr : List (Node K V)}
    {c c' : Node K V} (hs : Shape t lo (h + 1) (.mk false (l ++ r) (cl ++ c :: cr)))
    (hc : Shape t (t - 1) h c') :
    Shape t lo (h + 1) (.mk false (l ++ r) (cl ++ c' :: cr)) := by
  refine ⟨rfl, by simpa using hs.2.1, hs.2.2.1, ?_⟩
  intro d hd
  simp only [Node.children_mk, List.mem_append, List.mem_cons] at hd
  rcases hd with hd | rfl | hd
  · exact hs.2.2.2 d (by simp [hd])
  · exact hc
  · exact hs.2.2.2 d (by simp [hd])

theorem Shape.replace_pair {t lo h : ℕ} {l r : List (Entry K V)} {s z : Entry K V}
    {cl cr : List (Node K V)} {b c b' c' : Node K V}
    (hs : Shape t lo (h + 1) (.mk false (l ++ s :: r) (cl ++ b :: c :: cr)))
    (hb : Shape t (t - 1) h b') (hc : Shape t (t - 1) h c') :
    Shape t lo (h + 1) (.mk false (l ++ z :: r) (cl ++ b' :: c' :: cr)) := by
  refine ⟨rfl, by simpa using hs.2.1, by simpa using hs.2.2.1, ?_⟩
  intro d hd
  simp only [Node.children_mk, List.mem_append, List.mem_cons] at hd
  rcases hd with hd | rfl | rfl | hd
  · exact hs.2.2.2 d (by simp [hd])
  · exact hb
  · exact hc
  · exact hs.2.2.2 d (by simp [hd])

variable [LinearOrder K]

/-! ## Search in one node -/

theorem lowerBoundLoop_eq {es l r : List (Entry K V)} {key : K} (he : es = l ++ r)
    (hl : ∀ e ∈ l, e.key < key) (hr : ∀ e ∈ r, key ≤ e.key) (fuel left right : ℕ)
    (hleft : left ≤ l.length) (hright : l.length ≤ right) (hlen : right ≤ es.length)
    (hf : right - left ≤ fuel) : lowerBoundLoop es key fuel left right = l.length := by
  induction fuel generalizing left right with
  | zero =>
    rw [lowerBoundLoop]
    omega
  | succ fuel ih =>
    by_cases hlt : left < right
    · have hm : left + (right - left) / 2 < es.length := by omega
      simp only [lowerBoundLoop, if_pos hlt, List.getElem?_eq_getElem hm]
      by_cases hin : left + (right - left) / 2 < l.length
      · have hkey : (es[left + (right - left) / 2]).key < key := by
          apply hl
          simp [he, List.getElem_append_left hin]
        rw [if_pos (compare_lt_iff_lt.mpr hkey)]
        exact ih _ _ (by omega) (by omega) hlen (by omega)
      · have hkey : key ≤ (es[left + (right - left) / 2]).key := by
          apply hr
          subst he
          rw [List.getElem_append_right (by omega)]
          exact List.getElem_mem _
        rw [if_neg (by rw [compare_lt_iff_lt]; exact not_lt.mpr hkey)]
        exact ih _ _ (by omega) (by omega) (by omega) (by omega)
    · simp only [lowerBoundLoop, if_neg hlt]
      omega

theorem lowerBound_eq {n : Node K V} {l r : List (Entry K V)} {key : K} (he : n.entries = l ++ r)
    (hl : ∀ e ∈ l, e.key < key) (hr : ∀ e ∈ r, key ≤ e.key) : lowerBound n key = l.length := by
  have hlen : n.numKeys = l.length + r.length := by rw [Node.numKeys, he, List.length_append]
  exact lowerBoundLoop_eq he hl hr _ _ _ (Nat.zero_le _) (by omega) le_rfl (by omega)

theorem exists_cut {es : List (Entry K V)} (hs : Sorted es) (key : K) :
    ∃ l r, es = l ++ r ∧ (∀ e ∈ l, e.key < key) ∧ ∀ e ∈ r, key ≤ e.key := by
  induction es with
  | nil => exact ⟨[], [], rfl, by simp, by simp⟩
  | cons e es ih =>
    obtain ⟨he, hes⟩ := List.pairwise_cons.mp hs
    by_cases hlt : e.key < key
    · obtain ⟨l, r, rfl, h1, h2⟩ := ih hes
      exact ⟨e :: l, r, rfl, by simpa [hlt] using h1, h2⟩
    · refine ⟨[], e :: es, rfl, by simp, ?_⟩
      intro x hx
      rcases List.mem_cons.mp hx with rfl | hx
      · exact not_lt.mp hlt
      · exact (not_lt.mp hlt).trans (he x hx).le

theorem hit_eq {n : Node K V} {l r : List (Entry K V)} {key : K} (he : n.entries = l ++ r)
    (hl : ∀ e ∈ l, e.key < key) (hr : ∀ e ∈ r, key ≤ e.key) :
    hit n key = r.head?.filter fun e => decide (e.key = key) := by
  rw [hit, lowerBound_eq he hl hr, he, getElem?_cut rfl]
  cases r with
  | nil => rfl
  | cons e r => by_cases h : e.key = key <;> simp [Option.filter, h]

/-! ## Order around a cut -/

theorem Sorted.append {xs ys : List (Entry K V)} (h : Sorted (xs ++ ys)) :
    Sorted xs ∧ Sorted ys ∧ ∀ a ∈ xs, ∀ b ∈ ys, a.key < b.key := List.pairwise_append.mp h

theorem Sorted.le_last {xs : List (Entry K V)} (h : Sorted xs) {z : Entry K V}
    (hz : xs.getLast? = some z) : ∀ a ∈ xs, a.key ≤ z.key := by
  obtain ⟨ys, rfl⟩ := List.getLast?_eq_some_iff.mp hz
  intro a ha
  rcases List.mem_append.mp ha with ha | ha
  · exact (h.append.2.2 a ha z (by simp)).le
  · rw [List.mem_singleton.mp ha]

theorem Sorted.head_le {xs : List (Entry K V)} (h : Sorted xs) {z : Entry K V}
    (hz : xs.head? = some z) : ∀ a ∈ xs, z.key ≤ a.key := by
  cases xs with
  | nil => simp at hz
  | cons x xs =>
    obtain rfl : x = z := by simpa using hz
    intro a ha
    rcases List.mem_cons.mp ha with rfl | ha
    · exact le_rfl
    · exact ((List.pairwise_cons.mp h).1 a ha).le

/-- Where a key belongs below an inner node: the contents before the child the search
descends into are smaller, and those after it are not. -/
structure Descent (h : ℕ) (n : Node K V) (key : K) (l r : List (Entry K V))
    (cl : List (Node K V)) (c : Node K V) (cr : List (Node K V)) : Prop where
  entries : n.entries = l ++ r
  children : n.children = cl ++ c :: cr
  left : cl.length = l.length
  right : r.length = cr.length
  index : lowerBound n key = l.length
  child : n.child (lowerBound n key) = c
  inorder : inorder (h + 1) n =
    pre (Btree.inorder h) cl l ++ (Btree.inorder h c ++ post (Btree.inorder h) r cr)
  before : ∀ x ∈ pre (Btree.inorder h) cl l, x.key < key
  after : ∀ x ∈ post (Btree.inorder h) r cr, key ≤ x.key
  hit : hit n key = r.head?.filter fun e => decide (e.key = key)

theorem Shape.descent {t lo h : ℕ} {n : Node K V} (hs : Shape t lo (h + 1) n)
    (hsort : Sorted (inorder (h + 1) n)) (key : K) :
    ∃ l r cl c cr, Descent h n key l r cl c cr ∧ (∀ e ∈ l, e.key < key) ∧
      (∀ e ∈ r, key ≤ e.key) := by
  -- the entries of the node are a sublist of its contents, hence sorted
  have hes : Sorted n.entries := by
    obtain ⟨l, r, cl, c, cr, he, hc, hl, hcl, hr, -⟩ := hs.cut (i := n.numKeys) le_rfl
    have hr0 : r = [] := by
      have : n.numKeys = l.length + r.length := by rw [Node.numKeys, he, List.length_append]
      exact List.length_eq_zero_iff.mp (by omega)
    subst hr0
    rw [List.append_nil] at he
    rw [inorder_cut (l := l) (r := []) (by simpa using he) hc (by omega)] at hsort
    rw [he]
    exact hsort.append.1.sublist (sublist_pre _ (by omega))
  obtain ⟨l, r, he, hlt, hge⟩ := exists_cut hes key
  have hidx := lowerBound_eq he hlt hge
  have hnum : n.numKeys = l.length + r.length := by rw [Node.numKeys, he, List.length_append]
  obtain ⟨l', r', cl, c, cr, he', hc, hl', hcl, hr', hchild⟩ := hs.cut (i := l.length) (by omega)
  obtain ⟨rfl, rfl⟩ := List.append_inj (he'.symm.trans he) hl'
  have hin := inorder_cut (h := h) he' hc (by omega)
  refine ⟨l', r', cl, c, cr, ⟨he', hc, by omega, hr', hidx, by rw [hidx, hchild], hin, ?_, ?_,
    hit_eq he' hlt hge⟩, hlt, hge⟩
  · intro x hx
    rw [hin] at hsort
    rcases hlast : l'.getLast? with _ | z
    · obtain rfl : l' = [] := List.getLast?_eq_none_iff.mp hlast
      obtain rfl : cl = [] := List.length_eq_zero_iff.mp hcl
      simp [pre] at hx
    · have := hsort.append.1.le_last (by rw [getLast?_pre _ (by omega), hlast]) x hx
      exact this.trans_lt (hlt z (List.mem_of_getLast? hlast))
  · intro x hx
    rw [hin] at hsort
    rcases hhead : r'.head? with _ | z
    · obtain rfl : r' = [] := List.head?_eq_none_iff.mp hhead
      simp [post] at hx
    · have := hsort.append.2.1.append.2.1.head_le (by rw [head?_post _ hr', hhead]) x hx
      exact (hge z (List.mem_of_head? hhead)).trans this

end Cstl.Btree
