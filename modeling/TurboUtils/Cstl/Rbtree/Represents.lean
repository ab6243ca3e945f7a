import TurboUtils.Cstl.Rbtree.Links

/-! The pointers show a tree: the parent pointers, the children and the colours of all nodes are
those of the tree. What a store does is stated for a path and a subtree, so that a whole tree is
known again after it. -/
namespace Cstl.Rbtree

open RedBlack

/-! ## What a read finds after a store -/

namespace Links

variable (h : Links) (d e : Side) (i j : ℕ) (o p : Option ℕ) (c : Bool)

@[simp] theorem setRoot_root : (h.setRoot o).root = o := rfl
@[simp] theorem setRoot_parent : (h.setRoot o).parent = h.parent := rfl
@[simp] theorem setRoot_child : (h.setRoot o).child = h.child := rfl
@[simp] theorem setRoot_red : (h.setRoot o).red = h.red := rfl

@[simp] theorem setParent_root : (h.setParent i o).root = h.root := rfl
@[simp] theorem setParent_child : (h.setParent i o).child = h.child := rfl
@[simp] theorem setParent_red : (h.setParent i o).red = h.red := rfl

@[simp] theorem setParent_parent : (h.setParent i o).parent j = if j = i then o else h.parent j :=
  Function.update_apply _ _ _ _

@[simp] theorem setChild_root : (h.setChild d i o).root = h.root := rfl
@[simp] theorem setChild_parent : (h.setChild d i o).parent = h.parent := rfl
@[simp] theorem setChild_red : (h.setChild d i o).red = h.red := rfl

@[simp] theorem setChild_child :
    (h.setChild d i o).child e j = if e = d ∧ j = i then o else h.child e j := by
  by_cases he : e = d
  · subst he
    simp only [setChild, Function.update_self, Function.update_apply, true_and]
  · simp only [setChild, Function.update_of_ne he, he, false_and, if_false]

@[simp] theorem setRed_root : (h.setRed i c).root = h.root := rfl
@[simp] theorem setRed_parent : (h.setRed i c).parent = h.parent := rfl
@[simp] theorem setRed_child : (h.setRed i c).child = h.child := rfl

@[simp] theorem setRed_red : (h.setRed i c).red j = if j = i then c else h.red j :=
  Function.update_apply _ _ _ _

@[simp] theorem adopt_root : (h.adopt o p).root = h.root := by cases o <;> rfl
@[simp] theorem adopt_child : (h.adopt o p).child = h.child := by cases o <;> rfl
@[simp] theorem adopt_red : (h.adopt o p).red = h.red := by cases o <;> rfl

@[simp] theorem adopt_parent :
    (h.adopt o p).parent j = if o = some j then p else h.parent j := by
  cases o with
  | none => rfl
  | some i => simp [adopt, eq_comm]

end Links

/-! ## Trees and paths of nodes -/

def ptr : Shape ℕ → Option ℕ
  | .nil => none
  | .node _ _ i _ => some i

@[simp] theorem ptr_nil : ptr .nil = none := rfl

@[simp] theorem ptr_node (c : Bool) (l : Shape ℕ) (i : ℕ) (r : Shape ℕ) :
    ptr (.node c l i r) = some i := rfl

@[simp] theorem ptr_link (d : Side) (c : Bool) (a : Shape ℕ) (i : ℕ) (b : Shape ℕ) :
    ptr (.link d c a i b) = some i := by cases d <;> rfl

theorem mem_of_ptr {t : Shape ℕ} {i : ℕ} (h : ptr t = some i) : i ∈ t.inorder := by
  cases t with
  | nil => exact absurd h (by simp)
  | node c l j r =>
    obtain rfl := Option.some.inj h
    simp

theorem exists_ptr {t : Shape ℕ} {i : ℕ} (h : i ∈ t.inorder) : ∃ j, ptr t = some j := by
  cases t with
  | nil => exact absurd h (by simp)
  | node c l j r => exact ⟨j, rfl⟩

/-- The nodes of `t` are linked and coloured as in `t`, below the node `p`. -/
def Rep (h : Links) : Option ℕ → Shape ℕ → Prop
  | _, .nil => True
  | p, .node c l i r => h.parent i = p ∧ h.red i = c ∧ h.child .left i = ptr l ∧
      h.child .right i = ptr r ∧ Rep h (some i) l ∧ Rep h (some i) r

/-- The node above an open place. -/
def above : List (Frame ℕ) → Option ℕ
  | [] => none
  | f :: _ => some f.elem

/-- The nodes on the path and beside it are linked and coloured as in it, with `o` in the open
place. -/
def RepPath (h : Links) : Option ℕ → List (Frame ℕ) → Prop
  | o, [] => h.root = o
  | o, f :: k => h.child f.side f.elem = o ∧ h.child f.side.other f.elem = ptr f.sibling ∧
      h.parent f.elem = above k ∧ h.red f.elem = f.red ∧ Rep h (some f.elem) f.sibling ∧
      RepPath h (some f.elem) k

def nodes (k : List (Frame ℕ)) : List ℕ := before k ++ after k

/-- The pointers show the tree `t`. -/
structure Whole (h : Links) (t : Shape ℕ) : Prop where
  root : h.root = ptr t
  rep : Rep h none t
  nodup : t.inorder.Nodup

variable {h h' : Links} {t t' : Shape ℕ} {k : List (Frame ℕ)} {o p : Option ℕ} {d : Side}

theorem rep_link {c : Bool} {a b : Shape ℕ} {i : ℕ} :
    Rep h p (.link d c a i b) ↔ h.parent i = p ∧ h.red i = c ∧ h.child d i = ptr a ∧
      h.child d.other i = ptr b ∧ Rep h (some i) a ∧ Rep h (some i) b := by
  cases d with
  | left => rfl
  | right =>
    simp only [Shape.link, Rep, Side.other]
    tauto

theorem mem_nodes_cons {f : Frame ℕ} {i : ℕ} :
    i ∈ nodes (f :: k) ↔ i = f.elem ∨ i ∈ f.sibling.inorder ∨ i ∈ nodes k := by
  simp only [nodes, before, after]
  cases f.side <;> simp <;> tauto

theorem rep_plug : h.root = ptr (plug k t) ∧ Rep h none (plug k t) ↔
    RepPath h (ptr t) k ∧ Rep h (above k) t := by
  induction k generalizing t with
  | nil => rfl
  | cons f k ih =>
    rw [plug, ih, Frame.fill, rep_link, ptr_link, RepPath, above]
    tauto

theorem nodup_plug : (plug k t).inorder.Nodup ↔
    (nodes k).Nodup ∧ t.inorder.Nodup ∧ ∀ i ∈ t.inorder, i ∉ nodes k := by
  have hperm : ((plug k t).inorder).Perm (nodes k ++ t.inorder) := by
    rw [inorder_plug, nodes, List.append_assoc, List.append_assoc]
    exact List.Perm.append_left _ List.perm_append_comm
  rw [hperm.nodup_iff, List.nodup_append]
  constructor
  · rintro ⟨hk, ht, hdisj⟩
    exact ⟨hk, ht, fun i hi hin => hdisj i hin i hi rfl⟩
  · rintro ⟨hk, ht, hdisj⟩
    exact ⟨hk, ht, fun i hi j hj heq => hdisj j hj (heq ▸ hi)⟩

theorem whole_plug : Whole h (plug k t) ↔ RepPath h (ptr t) k ∧ Rep h (above k) t ∧
    (nodes k).Nodup ∧ t.inorder.Nodup ∧ ∀ i ∈ t.inorder, i ∉ nodes k := by
  rw [← nodup_plug, ← and_assoc, ← rep_plug]
  exact ⟨fun hw => ⟨⟨hw.root, hw.rep⟩, hw.nodup⟩, fun hw => ⟨hw.1.1, hw.1.2, hw.2⟩⟩

/-! ## What a store leaves as it is -/

/-- Node `i` is as before. -/
def Same (h h' : Links) (i : ℕ) : Prop :=
  h'.parent i = h.parent i ∧ h'.red i = h.red i ∧ ∀ d, h'.child d i = h.child d i

theorem Rep.congr (hr : Rep h p t) (hsame : ∀ i ∈ t.inorder, Same h h' i) : Rep h' p t := by
  induction t generalizing p with
  | nil => trivial
  | node c l i r ihl ihr =>
    obtain ⟨hparent, hred, hleft, hright, hl, hr⟩ := hr
    obtain ⟨hsp, hsr, hsc⟩ := hsame i (by simp)
    exact ⟨hsp.trans hparent, hsr.trans hred, (hsc _).trans hleft, (hsc _).trans hright,
      ihl hl fun j hj => hsame j (by simp [hj]), ihr hr fun j hj => hsame j (by simp [hj])⟩

/-- Only the parent of the root of `t` is another one. -/
theorem Rep.adopt {p' : Option ℕ} (hr : Rep h p t) (hnodup : t.inorder.Nodup)
    (hroot : ∀ i, ptr t = some i → h'.parent i = p')
    (hsame : ∀ i ∈ t.inorder, h'.red i = h.red i ∧ (∀ d, h'.child d i = h.child d i) ∧
      (ptr t ≠ some i → h'.parent i = h.parent i)) : Rep h' p' t := by
  cases t with
  | nil => trivial
  | node c l i r =>
    obtain ⟨hparent, hred, hleft, hright, hl, hr⟩ := hr
    obtain ⟨hsr, hsc, -⟩ := hsame i (by simp)
    rw [Shape.inorder_node, List.nodup_middle, List.nodup_cons, List.mem_append, not_or] at hnodup
    obtain ⟨⟨hil, hir⟩, -⟩ := hnodup
    refine ⟨hroot i rfl, hsr.trans hred, (hsc _).trans hleft, (hsc _).trans hright,
      hl.congr fun j hj => ?_, hr.congr fun j hj => ?_⟩
    · obtain ⟨hjr, hjc, hjp⟩ := hsame j (by simp [hj])
      refine ⟨hjp ?_, hjr, hjc⟩
      rintro ⟨⟩
      exact hil hj
    · obtain ⟨hjr, hjc, hjp⟩ := hsame j (by simp [hj])
      refine ⟨hjp ?_, hjr, hjc⟩
      rintro ⟨⟩
      exact hir hj

theorem RepPath.congr (hk : RepPath h o k) (hroot : h'.root = h.root)
    (hsame : ∀ i ∈ nodes k, Same h h' i) : RepPath h' o k := by
  induction k generalizing o with
  | nil => exact hroot.trans hk
  | cons f k ih =>
    obtain ⟨hopen, hother, hparent, hred, hs, hk⟩ := hk
    obtain ⟨hsp, hsr, hsc⟩ := hsame f.elem (mem_nodes_cons.mpr (.inl rfl))
    exact ⟨(hsc _).trans hopen, (hsc _).trans hother, hsp.trans hparent, hsr.trans hred,
      hs.congr fun i hi => hsame i (mem_nodes_cons.mpr (.inr (.inl hi))),
      ih hk fun i hi => hsame i (mem_nodes_cons.mpr (.inr (.inr hi)))⟩

def setSlot (h : Links) (k : List (Frame ℕ)) (o : Option ℕ) : Links :=
  match k with
  | [] => h.setRoot o
  | f :: _ => h.setChild f.side f.elem o

@[simp] theorem setSlot_parent : (setSlot h k o).parent = h.parent := by cases k <;> rfl

@[simp] theorem setSlot_red : (setSlot h k o).red = h.red := by cases k <;> rfl

theorem setSlot_child {i : ℕ} (hi : i ∉ nodes k) (e : Side) :
    (setSlot h k o).child e i = h.child e i := by
  cases k with
  | nil => rfl
  | cons f k =>
    have hne : i ≠ f.elem := fun heq => hi (mem_nodes_cons.mpr (.inl heq))
    simp [setSlot, hne]

theorem nodup_nodes_cons {f : Frame ℕ} (hn : (nodes (f :: k)).Nodup) :
    f.elem ∉ f.sibling.inorder ∧ f.elem ∉ nodes k ∧ (nodes k).Nodup ∧ f.sibling.inorder.Nodup ∧
      ∀ i ∈ f.sibling.inorder, i ∉ nodes k := by
  have hperm : (nodes (f :: k)).Perm (f.elem :: (f.sibling.inorder ++ nodes k)) := by
    rw [List.perm_iff_count]
    intro i
    simp only [nodes, before, after]
    cases f.side <;> simp [List.count_append, List.count_cons] <;> omega
  rw [hperm.nodup_iff, List.nodup_cons, List.mem_append, not_or, List.nodup_append] at hn
  obtain ⟨⟨h1, h2⟩, h3, h4, h5⟩ := hn
  exact ⟨h1, h2, h4, h3, fun i hi hin => h5 i hi i hin rfl⟩

/-- Everything on the path is as before, but for the pointer in the open place. -/
theorem RepPath.retarget {o' : Option ℕ} (hk : RepPath h o k) (hn : (nodes k).Nodup)
    (hroot : h'.root = (setSlot h k o').root)
    (hsame : ∀ i ∈ nodes k, Same (setSlot h k o') h' i) : RepPath h' o' k := by
  cases k with
  | nil => exact hroot
  | cons f k =>
    obtain ⟨hopen, hother, hparent, hred, hs, hk⟩ := hk
    obtain ⟨hfs, hfk, -⟩ := nodup_nodes_cons hn
    have hrest : ∀ i ∈ nodes (f :: k), i ≠ f.elem → Same h h' i := by
      intro i hi hne
      obtain ⟨hsp, hsr, hsc⟩ := hsame i hi
      refine ⟨hsp.trans (by simp), hsr.trans (by simp), fun e => (hsc e).trans ?_⟩
      simp [setSlot, hne]
    obtain ⟨hsp, hsr, hsc⟩ := hsame f.elem (mem_nodes_cons.mpr (.inl rfl))
    refine ⟨(hsc _).trans (by simp [setSlot]), (hsc _).trans ?_, hsp.trans ?_, hsr.trans ?_,
      hs.congr fun i hi => ?_, hk.congr hroot fun i hi => ?_⟩
    · simp [setSlot, (Side.ne_other f.side).symm, hother]
    · simpa using hparent
    · simpa using hred
    · exact hrest i (mem_nodes_cons.mpr (.inr (.inl hi))) fun heq => hfs (heq ▸ hi)
    · exact hrest i (mem_nodes_cons.mpr (.inr (.inr hi))) fun heq => hfk (heq ▸ hi)

/-- The pointer to a node of the tree is in the open place of its path. -/
theorem redirect_eq {i : ℕ} {o' : Option ℕ} (hk : RepPath h (some i) k)
    (hparent : h.parent i = above k) (hi : i ∉ nodes k) (d : Side) :
    h.redirect d i o' = setSlot h k o' := by
  unfold Links.redirect
  rw [hparent]
  cases k with
  | nil => rfl
  | cons f k =>
    obtain ⟨hopen, hother, -, -, -, -⟩ := hk
    dsimp only [above, setSlot]
    by_cases hd : f.side = d
    · rw [← hd, if_pos hopen]
    · have hd' : d = f.side.other := Side.eq_other_of_ne (Ne.symm hd)
      rw [if_neg, hd', Side.other_other]
      rw [hd', hother]
      intro hptr
      exact hi (mem_nodes_cons.mpr (.inr (.inl (mem_of_ptr hptr))))

end Cstl.Rbtree
