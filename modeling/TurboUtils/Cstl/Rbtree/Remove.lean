import TurboUtils.Cstl.Rbtree.DeleteFix

/-! The removal of a node: a node with at most one child is replaced by its child, another one by its
successor. -/
namespace Cstl.Rbtree

open RedBlack

variable {h h' : Links} {t : Shape ℕ} {k : List (Frame ℕ)} {d : Side}

theorem transplant_eq {x : ℕ} {o : Option ℕ} (hk : RepPath h (some x) k)
    (hparent : h.parent x = above k) (hx : x ∉ nodes k) :
    h.transplant x o = (setSlot h k o).adopt o (above k) := by
  rw [Links.transplant, redirect_eq hk hparent hx, setSlot_parent, hparent]

/-- A node with one child is replaced by it; nothing is stored in any other node outside of the
path. -/
theorem transplant_child {c : Bool} {a : Shape ℕ} {x : ℕ}
    (hw : Whole h (plug k (.link d c a x .nil))) :
    Whole (h.transplant x (ptr a)) (plug k a) := by
  obtain ⟨hk, hr, hnk, hnt, hdisj⟩ := whole_plug.mp hw
  rw [rep_link] at hr
  obtain ⟨hparent, -, -, -, ha, -⟩ := hr
  rw [ptr_link] at hk
  have hx := hdisj x (Shape.mem_link.mpr (.inl rfl))
  obtain ⟨-, -, hna, -⟩ := nodup_link.mp hnt
  have hak : ∀ i ∈ a.inorder, i ∉ nodes k :=
    fun i hi => hdisj i (Shape.mem_link.mpr (.inr (.inl hi)))
  rw [transplant_eq hk hparent hx, whole_plug]
  refine ⟨hk.retarget hnk (by simp) fun i hi => ?_, ha.adopt hna (fun i hi => ?_) fun i hi => ?_, hnk,
    hna, hak⟩
  · have hia : ptr a ≠ some i := fun hroot => hak i (mem_of_ptr hroot) hi
    exact ⟨by simp [hia], by simp, fun e => by simp⟩
  · simp [hi]
  · exact ⟨by simp, fun e => by simp [setSlot_child (hak i hi)], fun hroot => by simp [hroot]⟩

theorem Lacking.relabel {k' : List (Frame ℕ)} {f : Frame ℕ} (hlack : Lacking (k' ++ f :: k) t)
    (x : ℕ) : Lacking (k' ++ f.relabel x :: k) t := by
  obtain ⟨hcalm, hpath, hroot, n, m, ht, hk⟩ := hlack
  exact ⟨hcalm, (calmPath_relabel _ _ _ _).mpr hpath, (rootRed_relabel _ _ _ _).trans hroot, n, m, ht,
    (fits_relabel _ _ _ _ _ _).mpr hk⟩

theorem valid_unlink_red {a : Shape ℕ} {x : ℕ} (hvalid : (plug k (.link d true a x .nil)).Valid) :
    (plug k a).Valid := by
  obtain ⟨hblack, hcalm, m, hm⟩ := hvalid
  rw [calm_plug, Shape.calm_link, Shape.red_link] at hcalm
  obtain ⟨⟨hred, ha, -⟩, hpath, hhead⟩ := hcalm
  obtain ⟨n, ht, hk⟩ := balanced_plug.mp hm
  obtain ⟨_, rfl, han, -⟩ := Shape.balanced_link.mp ht
  refine ⟨?_, calm_plug.mpr ⟨ha, hpath, fun _ => hhead rfl⟩, m, balanced_plug.mpr ⟨n, han, hk⟩⟩
  cases k with
  | nil => exact (hred rfl).1
  | cons f k => rwa [red_plug] at hblack ⊢

theorem lacking_unlink_black {a : Shape ℕ} {x : ℕ}
    (hvalid : (plug k (.link d false a x .nil)).Valid) : Lacking k a := by
  obtain ⟨hblack, hcalm, m, hm⟩ := hvalid
  rw [calm_plug, Shape.calm_link, Shape.red_link] at hcalm
  obtain ⟨⟨-, ha, -⟩, hpath, -⟩ := hcalm
  obtain ⟨n, ht, hk⟩ := balanced_plug.mp hm
  obtain ⟨j, rfl, han, -⟩ := Shape.balanced_link.mp ht
  refine ⟨ha.blacken, hpath, ?_, j, m, han, hk⟩
  cases k with
  | nil => rfl
  | cons f k => rwa [red_plug] at hblack

/-! ## The successor -/

/-- `rbtree_minimum` goes down to a node that has nothing before it. -/
theorem minimum_spec {p : Option ℕ} {i fuel : ℕ} (hr : Rep h p t) (hi : ptr t = some i)
    (hfuel : t.inorder.length ≤ fuel) :
    ∃ k c m r, t = plug k (.node c .nil m r) ∧ before k = [] ∧ h.minimum fuel i = some m := by
  induction t generalizing p i fuel with
  | nil => exact absurd hi (by simp)
  | node c l j r ihl _ =>
    obtain rfl := Option.some.inj hi
    obtain ⟨-, -, hleft, -, hl, -⟩ := hr
    cases fuel with
    | zero => exact absurd hfuel (by simp)
    | succ fuel =>
      cases l with
      | nil => exact ⟨[], c, j, r, rfl, rfl, by rw [Links.minimum, hleft]; rfl⟩
      | node cl ll jl lr =>
        have hlen : (Shape.node cl ll jl lr).inorder.length ≤ fuel := by
          rw [Shape.inorder_node, List.length_append, List.length_cons] at hfuel
          omega
        obtain ⟨k, c', m, r', heq, hbefore, hrun⟩ := ihl hl rfl hlen
        refine ⟨k ++ [⟨.left, c, j, r⟩], c', m, r', ?_, ?_, ?_⟩
        · rw [plug_append, ← heq]
          rfl
        · rw [before_append, hbefore]
          rfl
        · rw [Links.minimum, hleft]
          exact hrun

/-- Before the successor `m` takes the place of `x`: the subtree `r` without `m` is already below
`m`. -/
structure Prepared (h : Links) (k : List (Frame ℕ)) (c : Bool) (l : Shape ℕ) (x m : ℕ)
    (r : Shape ℕ) : Prop where
  path : RepPath h (some x) k
  parent : h.parent x = above k
  red : h.red x = c
  left : h.child .left x = ptr l
  right : h.child .right m = ptr r
  repl : Rep h (some x) l
  repr : Rep h (some m) r
  nodup : (plug k (.node c l m r)).inorder.Nodup
  fresh : x ∉ (plug k (.node c l m r)).inorder

/-- The last stores of `replaceBySuccessor`. -/
theorem Prepared.finish {c : Bool} {l r : Shape ℕ} {x m l' : ℕ} (hp : Prepared h k c l x m r)
    (hl' : ptr l = some l') :
    Whole ((((h.transplant x (some m)).setChild .left m (some l')).setParent l' (some m)).setRed m c)
      (plug k (.node c l m r)) := by
  obtain ⟨hk, hparent, -, -, hright, hl, hr, hnodup, hfresh⟩ := hp
  rw [inorder_plug, List.mem_append, List.mem_append, not_or, not_or, Shape.inorder_node,
    List.mem_append, List.mem_cons, not_or, not_or] at hfresh
  obtain ⟨⟨hxb, hxl, hxm, hxr⟩, hxa⟩ := hfresh
  have hxk : x ∉ nodes k := by
    rw [nodes, List.mem_append, not_or]
    exact ⟨hxb, hxa⟩
  obtain ⟨hnk, hnt, hdisj⟩ := nodup_plug.mp hnodup
  obtain ⟨hml, hmr, hnl, hnr, hlr⟩ := (nodup_link (d := .left)).mp hnt
  have hmk : m ∉ nodes k := hdisj m (by simp)
  have hlk : ∀ i ∈ l.inorder, i ∉ nodes k := fun i hi => hdisj i (by simp [hi])
  have hrk : ∀ i ∈ r.inorder, i ∉ nodes k := fun i hi => hdisj i (by simp [hi])
  have hl'mem : l' ∈ l.inorder := mem_of_ptr hl'
  have hml' : m ≠ l' := fun heq => hml (heq ▸ hl'mem)
  rw [transplant_eq hk hparent hxk, whole_plug]
  refine ⟨hk.retarget hnk (by simp) fun i hi => ?_, ⟨?_, ?_, ?_, ?_, ?_, ?_⟩, hnk, hnt, hdisj⟩
  · have him : i ≠ m := fun heq => hmk (heq ▸ hi)
    have hil' : i ≠ l' := fun heq => hlk l' hl'mem (heq ▸ hi)
    exact ⟨by simp [him.symm, hil'], by simp [him], fun e => by simp [him]⟩
  · simp [hml']
  · simp
  · simp [hl']
  · simp [setSlot_child hmk, hright]
  · refine hl.adopt hnl (fun i hi => ?_) fun i hi => ?_
    · obtain rfl : l' = i := Option.some.inj (hl'.symm.trans hi)
      simp
    · have him : i ≠ m := fun heq => hml (heq ▸ hi)
      refine ⟨by simp [him], fun e => by simp [setSlot_child (hlk i hi), him], fun hroot => ?_⟩
      have hil' : i ≠ l' := fun heq => hroot (heq ▸ hl')
      simp [hil', him.symm]
  · refine hr.congr fun i hi => ?_
    have him : i ≠ m := fun heq => hmr (heq ▸ hi)
    have hil' : i ≠ l' := fun heq => hlr l' hl'mem (heq ▸ hi)
    exact ⟨by simp [hil', him.symm], by simp [him], fun e => by
      simp [setSlot_child (hrk i hi), him]⟩

theorem Prepared.kept {c : Bool} {l r : Shape ℕ} {x m : ℕ} (hp : Prepared h k c l x m r) :
    (h.transplant x (some m)).child .left x = ptr l ∧ (h.transplant x (some m)).red x = c := by
  have hxk : x ∉ nodes k := by
    intro hx
    rw [nodes, List.mem_append] at hx
    apply hp.fresh
    rw [inorder_plug, List.mem_append, List.mem_append]
    exact hx.elim (fun hb => .inl (.inl hb)) .inr
  rw [transplant_eq hp.path hp.parent hxk]
  exact ⟨by simp [setSlot_child hxk, hp.left], by simp [hp.red]⟩

/-- The successor is the right child. -/
theorem prepared_next {c cm : Bool} {l r : Shape ℕ} {x m : ℕ}
    (hw : Whole h (plug k (.node c l x (.node cm .nil m r))))
    (hnodup : (plug k (.node c l m r)).inorder.Nodup)
    (hfresh : x ∉ (plug k (.node c l m r)).inorder) :
    Prepared (h.adopt (ptr r) (some m)) k c l x m r := by
  obtain ⟨hk, hr, -⟩ := whole_plug.mp hw
  obtain ⟨hparent, hred, hleft, -, hl, -, -, -, hright, -, hr⟩ := hr
  -- the child of the successor gets the parent that it has
  have hsame : ∀ i, Same h (h.adopt (ptr r) (some m)) i := by
    intro i
    refine ⟨?_, by simp, fun e => by simp⟩
    rw [Links.adopt_parent]
    split_ifs with hroot
    · exact (hr.parent_eq hroot).symm
    · rfl
  exact ⟨hk.congr (by simp) fun i _ => hsame i, (hsame x).1.trans hparent, (hsame x).2.1.trans hred,
    ((hsame x).2.2 _).trans hleft, ((hsame m).2.2 _).trans hright, hl.congr fun i _ => hsame i,
    hr.congr fun i _ => hsame i, hnodup, hfresh⟩

/-- The successor has been taken out of the right subtree. -/
theorem prepared_far {c : Bool} {l r : Shape ℕ} {x m r' : ℕ} (hw : Whole h (plug k (.node c l x r)))
    (hr' : ptr r = some r') (hm : m ∉ (plug k (.node c l x r)).inorder)
    (hnodup : (plug k (.node c l m r)).inorder.Nodup)
    (hfresh : x ∉ (plug k (.node c l m r)).inorder) :
    Prepared ((h.setChild .right m (h.child .right x)).setParent r' (some m)) k c l x m r := by
  obtain ⟨hk, hr, -, hnt, hdisj⟩ := whole_plug.mp hw
  obtain ⟨-, hxr, -, hnr, hlr⟩ := (nodup_link (d := .left)).mp hnt
  obtain ⟨hparent, hred, hleft, hright, hl, hr⟩ := hr
  have hmem : r' ∈ r.inorder := mem_of_ptr hr'
  rw [inorder_plug, List.mem_append, List.mem_append, not_or, not_or, Shape.inorder_node,
    List.mem_append, List.mem_cons, not_or, not_or] at hm
  obtain ⟨⟨hmb, hml, hmx, hmr⟩, hma⟩ := hm
  have hrest : ∀ i, i ≠ m → i ≠ r' →
      Same h ((h.setChild .right m (h.child .right x)).setParent r' (some m)) i :=
    fun i him hir => ⟨by simp [hir], by simp, fun e => by simp [him]⟩
  have hpath : ∀ i ∈ nodes k, i ≠ m ∧ i ≠ r' := by
    intro i hi
    refine ⟨fun heq => ?_, fun heq => hdisj r' (by simp [hmem]) (heq ▸ hi)⟩
    rw [nodes, List.mem_append] at hi
    exact hi.elim (heq ▸ hmb) (heq ▸ hma)
  have hx : x ≠ m ∧ x ≠ r' := ⟨Ne.symm hmx, fun heq => hxr (heq ▸ hmem)⟩
  refine ⟨hk.congr (by simp) fun i hi => hrest i (hpath i hi).1 (hpath i hi).2, ?_, by simpa, ?_, ?_,
    hl.congr fun i hi => hrest i ?_ ?_, hr.adopt hnr (fun i hi => ?_) fun i hi => ?_, hnodup, hfresh⟩
  · simpa [hx.2] using hparent
  · simpa [hx.1] using hleft
  · simp [hright]
  · exact fun heq => hml (heq ▸ hi)
  · exact fun heq => hlr i hi (heq ▸ hmem)
  · obtain rfl : r' = i := Option.some.inj (hr'.symm.trans hi)
    simp
  · have him : i ≠ m := fun heq => hmr (heq ▸ hi)
    refine ⟨by simp, fun e => by simp [him], fun hroot => ?_⟩
    have hir : i ≠ r' := fun heq => hroot (heq ▸ hr')
    simp [hir]

/-- The successor `m` of `x`, at the place `k'` in the right subtree, takes the place of `x`; its
child takes its place. -/
theorem replaceBySuccessor_spec {k' : List (Frame ℕ)} {c cm : Bool} {l r : Shape ℕ} {x m l' : ℕ}
    (hw : Whole h (plug k (.node c l x (plug k' (.node cm .nil m r))))) (hl' : ptr l = some l')
    (hbefore : before k' = []) :
    ∃ h', h.replaceBySuccessor x m = some (h', ptr r, above (k' ++ ⟨.right, c, m, l⟩ :: k)) ∧
      Whole h' (plug k (.node c l m (plug k' r))) := by
  have horder (i : ℕ) (u : Shape ℕ) : (plug k (.node c l i u)).inorder =
      (before k ++ l.inorder) ++ i :: (u.inorder ++ after k) := by
    simp [inorder_plug]
  have hsub : (plug k' (.node cm .nil m r)).inorder = m :: (plug k' r).inorder := by
    simp [inorder_plug, hbefore]
  have hnodup := hw.nodup
  rw [horder, hsub, List.cons_append, List.nodup_middle, List.nodup_cons, ← horder] at hnodup
  obtain ⟨hfresh, hnodup⟩ := hnodup
  have hsame : plug k (.node c l x (plug k' (.node cm .nil m r))) =
      plug (k' ++ ⟨.right, c, x, l⟩ :: k) (.link .right cm r m .nil) := by
    rw [plug_append]
    rfl
  have hw2 := hw
  rw [hsame] at hw2
  obtain ⟨-, hrm, -, -, hdisj⟩ := whole_plug.mp hw2
  obtain ⟨hparent, -, -, hright, -⟩ := hrm
  rw [Links.replaceBySuccessor, hright, hparent]
  cases k' with
  | nil =>
    have hp := prepared_next hw hnodup hfresh
    refine ⟨_, ?_, hp.finish hl'⟩
    simp [above, hp.kept, hl']
  | cons g k' =>
    have hw1 := transplant_child hw2
    have hback : plug ((g :: k') ++ ⟨.right, c, x, l⟩ :: k) r =
        plug k (.node c l x (plug (g :: k') r)) := by
      rw [plug_append]
      rfl
    have hmfree : m ∉ (plug k (.node c l x (plug (g :: k') r))).inorder := by
      obtain ⟨-, hnr, hm⟩ := nodup_plug.mp hw2.nodup
      rw [← hback, mem_plug, not_or]
      exact ⟨hm m (Shape.mem_link.mpr (.inl rfl)), (nodup_link.mp hnr).1⟩
    have hgx : g.elem ≠ x := by
      intro heq
      apply hfresh
      rw [mem_plug, Shape.inorder_node, ← heq]
      simp [elem_mem_plug]
    obtain ⟨r', hr'⟩ := exists_ptr (elem_mem_plug g k' r)
    rw [hback] at hw1
    have hp := prepared_far hw1 hr' hmfree hnodup hfresh
    obtain ⟨-, hrep, -⟩ := whole_plug.mp hw1
    have hxr : (h.transplant m (ptr r)).child .right x = some r' := hrep.2.2.2.1.trans hr'
    rw [hxr] at hp
    refine ⟨_, ?_, hp.finish hl'⟩
    simp [above, hp.kept, hl', hgx, hxr]

theorem repair_spec {fuel : ℕ} {c : Bool} (hw : Whole h (plug k t)) (hfuel : k.length + 2 ≤ fuel)
    (hred : c = true → (plug k t).Valid) (hblack : c = false → Lacking k t) :
    ∃ h' T, (if c then some h else Links.deleteFix fuel h (ptr t) (above k)) = some h' ∧ Whole h' T ∧
      T.Valid ∧ T.inorder = (plug k t).inorder := by
  cases c with
  | true => exact ⟨h, _, rfl, hw, hred rfl, rfl⟩
  | false => exact deleteFix_spec (.inl hfuel) hw (hblack rfl)

theorem unlink_spec {fuel : ℕ} {c : Bool} {a : Shape ℕ} {x : ℕ}
    (hw : Whole h (plug k (.link d c a x .nil))) (hvalid : (plug k (.link d c a x .nil)).Valid)
    (hfuel : k.length + 2 ≤ fuel) :
    ∃ h' T, (if c then some (h.transplant x (ptr a))
        else Links.deleteFix fuel (h.transplant x (ptr a)) (ptr a) (above k)) = some h' ∧
      Whole h' T ∧ T.Valid ∧ T.inorder = (plug k a).inorder := by
  refine repair_spec (transplant_child hw) hfuel (fun hc => ?_) fun hc => ?_
  · rw [hc] at hvalid
    exact valid_unlink_red hvalid
  · rw [hc] at hvalid
    exact lacking_unlink_black hvalid

/-- `rbtree_remove_node` makes a red-black tree of the other nodes in the same order. -/
theorem removeNode_spec {fuel : ℕ} {c : Bool} {l r : Shape ℕ} {x : ℕ}
    (hw : Whole h (plug k (.node c l x r))) (hvalid : (plug k (.node c l x r)).Valid)
    (hfuel : (plug k (.node c l x r)).inorder.length < fuel) :
    ∃ h' T, Links.removeNode fuel h x = some h' ∧ Whole h' T ∧ T.Valid ∧
      T.inorder = (before k ++ l.inorder) ++ (r.inorder ++ after k) := by
  obtain ⟨-, hrep, -⟩ := whole_plug.mp hw
  obtain ⟨hparent, hred, hleft, hright, -, hr⟩ := hrep
  have hpath := length_path k
  have hlength : (plug k (.node c l x r)).inorder.length =
      (before k).length + l.inorder.length + 1 + r.inorder.length + (after k).length := by
    simp [inorder_plug]
    omega
  rw [hlength] at hfuel
  rw [Links.removeNode, hleft, hright]
  cases l with
  | nil =>
    obtain ⟨h', T, hrun, hw', hvalid', hin⟩ := unlink_spec (d := .right) hw hvalid
      (by omega : k.length + 2 ≤ fuel)
    refine ⟨h', T, ?_, hw', hvalid', hin.trans (by simp [inorder_plug])⟩
    simpa [hred, hparent] using hrun
  | node cl ll l' lr =>
    cases r with
    | nil =>
      obtain ⟨h', T, hrun, hw', hvalid', hin⟩ := unlink_spec (d := .left) hw hvalid
        (by omega : k.length + 2 ≤ fuel)
      refine ⟨h', T, ?_, hw', hvalid', hin.trans (by simp [inorder_plug])⟩
      simpa [hred, hparent] using hrun
    | node cr rl r' rr =>
      obtain ⟨k', cm, m, rm, hplace, hbefore, hmin⟩ := minimum_spec hr rfl
        (by omega : (Shape.node cr rl r' rr).inorder.length ≤ fuel)
      rw [hplace] at hw hvalid hfuel
      have hturn (i : ℕ) (u : Shape ℕ) : plug k (.node c (.node cl ll l' lr) i (plug k' u)) =
          plug (k' ++ ⟨.right, c, i, .node cl ll l' lr⟩ :: k) u := by
        rw [plug_append]
        rfl
      obtain ⟨h1, hrun1, hw1⟩ := replaceBySuccessor_spec hw rfl hbefore
      rw [hturn] at hw hw1 hvalid
      obtain ⟨-, ⟨-, hmred, -⟩, -⟩ := whole_plug.mp hw
      have hlen : (k' ++ ⟨.right, c, m, .node cl ll l' lr⟩ :: k).length + 2 ≤ fuel := by
        have hpath' := length_path k'
        simp only [inorder_plug, List.length_append, List.length_cons, Shape.inorder_node,
          Shape.inorder_nil] at hfuel ⊢
        omega
      obtain ⟨h', T, hrun, hw', hvalid', hin⟩ := repair_spec (c := cm) hw1 hlen
        (fun hc => by
          rw [hc] at hvalid
          exact (valid_relabel _ _ _ m _).mpr (valid_unlink_red (d := .right) hvalid))
        (fun hc => by
          rw [hc] at hvalid
          exact (lacking_unlink_black (d := .right) hvalid).relabel m)
      refine ⟨h', T, ?_, hw', hvalid', hin.trans ?_⟩
      · simpa [hmin, hrun1, hmred] using hrun
      · rw [hplace, ← hturn]
        simp [inorder_plug, hbefore]

end Cstl.Rbtree
