import TurboUtils.Cstl.Rbtree.Represents

/-! Rotations and colour changes on the whole tree, and the repair after an insertion. -/
namespace Cstl.Rbtree

open RedBlack

variable {h h' : Links} {t : Shape ℕ} {k : List (Frame ℕ)} {d : Side}

theorem nodup_link {c : Bool} {a b : Shape ℕ} {x : ℕ} : (Shape.link d c a x b).inorder.Nodup ↔
    x ∉ a.inorder ∧ x ∉ b.inorder ∧ a.inorder.Nodup ∧ b.inorder.Nodup ∧
      ∀ i ∈ a.inorder, i ∉ b.inorder := by
  have hperm : (Shape.link d c a x b).inorder.Perm (x :: (a.inorder ++ b.inorder)) := by
    rw [List.perm_iff_count]
    intro i
    cases d <;> simp [Shape.link, List.count_cons] <;> omega
  rw [hperm.nodup_iff, List.nodup_cons, List.mem_append, not_or, List.nodup_append]
  constructor
  · rintro ⟨⟨h1, h2⟩, h3, h4, h5⟩
    exact ⟨h1, h2, h3, h4, fun i hi hin => h5 i hi i hin rfl⟩
  · rintro ⟨h1, h2, h3, h4, h5⟩
    exact ⟨⟨h1, h2⟩, h3, h4, fun i hi j hj heq => h5 i hi (heq ▸ hj)⟩

/-- The node `x` goes down to side `d`, its other child comes up. -/
theorem rotate_spec {c e : Bool} {a m b : Shape ℕ} {x y : ℕ}
    (hw : Whole h (plug k (.link d c a x (.link d e m y b)))) :
    ∃ h', Links.rotate d h x = some h' ∧ Whole h' (plug k (.link d e (.link d c a x m) y b)) := by
  obtain ⟨hk, hr, hnk, hnt, hdisj⟩ := whole_plug.mp hw
  rw [rep_link, rep_link, ptr_link] at hr
  obtain ⟨hpx, hcx, hax, hyx, ha, hpy, hcy, hmy, hby, hm, hb⟩ := hr
  rw [ptr_link] at hk
  have hnodup := hnt
  rw [nodup_link, nodup_link] at hnt
  obtain ⟨hxa, hxy, hna, ⟨hym, hyb, hnm, hnb, hmb⟩, harest⟩ := hnt
  simp only [Shape.mem_link, not_or] at hxy hdisj harest
  obtain ⟨hxy, hxm, hxb⟩ := hxy
  have hmroot : ∀ i, ptr m = some i → i ∈ m.inorder := fun i hi => mem_of_ptr hi
  have hmx : ptr m ≠ some x := fun hi => hxm (hmroot x hi)
  have hmy' : ptr m ≠ some y := fun hi => hym (hmroot y hi)
  have hxk := hdisj x (.inl rfl)
  have hyk := hdisj y (.inr (.inr (.inl rfl)))
  -- the pointer to `x` is redirected in a tree whose path is untouched
  have hpath : ∀ i ∈ nodes k, i ≠ x ∧ i ≠ y ∧ ptr m ≠ some i := by
    intro i hi
    refine ⟨fun heq => hxk (heq ▸ hi), fun heq => hyk (heq ▸ hi), fun hroot => ?_⟩
    exact hdisj i (.inr (.inr (.inr (.inl (hmroot i hroot))))) hi
  let h2 := (((h.setChild d.other x (ptr m)).adopt (ptr m) (some x)).setParent y (above k))
  have hsame2 : ∀ i ∈ nodes k, Same h h2 i := by
    intro i hi
    obtain ⟨hix, hiy, him⟩ := hpath i hi
    exact ⟨by simp [h2, hiy, him], by simp [h2], fun f => by simp [h2, hix]⟩
  have hredirect : h2.redirect d x (some y) = setSlot h2 k (some y) := by
    apply redirect_eq (hk.congr (by simp [h2]) hsame2) _ hxk
    simp [h2, hxy, hmx, hpx]
  refine ⟨((setSlot h2 k (some y)).setChild d y (some x)).setParent x (some y), ?_, ?_⟩
  · rw [← hredirect]
    simp [Links.rotate, hyx, hmy, h2, hmx, hpx]
  have hdy := Side.ne_other d
  have houtside : ∀ i, i ∉ nodes k → i ≠ x → i ≠ y → ptr m ≠ some i →
      Same h (((setSlot h2 k (some y)).setChild d y (some x)).setParent x (some y)) i := by
    intro i hik hix hiy him
    exact ⟨by simp [h2, hix, hiy, him], by simp [h2], fun f => by
      simp [setSlot_child hik, h2, hix, hiy]⟩
  rw [whole_plug, ptr_link, rep_link, rep_link, ptr_link]
  refine ⟨hk.retarget hnk ?_ fun i hi => ?_, ⟨?_, ?_, ?_, ?_, ⟨?_, ?_, ?_, ?_, ?_, ?_⟩, ?_⟩, hnk, ?_,
    ?_⟩
  · cases k <;> simp [setSlot, h2]
  · obtain ⟨hix, hiy, him⟩ := hpath i hi
    refine ⟨by simp [h2, hix, hiy, him], by simp [h2], fun f => ?_⟩
    cases k <;> simp [setSlot, h2, hix, hiy]
  · simp [h2, Ne.symm hxy]
  · simpa [h2] using hcy
  · simp
  · simp [setSlot_child hyk, h2, Ne.symm hxy, hby, hdy.symm]
  · simp
  · simpa [h2] using hcx
  · simp [setSlot_child hxk, h2, hxy, hax, hdy]
  · simp [setSlot_child hxk, h2, hxy]
  · apply ha.congr
    intro i hi
    obtain ⟨hiy, him, -⟩ := harest i hi
    exact houtside i (hdisj i (.inr (.inl hi))) (fun heq => hxa (heq ▸ hi)) hiy
      fun hroot => him (hmroot i hroot)
  · apply hm.adopt hnm
    · intro i hi
      have hix : i ≠ x := fun heq => hmx (heq ▸ hi)
      have hiy : i ≠ y := fun heq => hmy' (heq ▸ hi)
      simp [h2, hix, hiy, hi]
    · intro i hi
      have hik := hdisj i (.inr (.inr (.inr (.inl hi))))
      have hix : i ≠ x := fun heq => hxm (heq ▸ hi)
      have hiy : i ≠ y := fun heq => hym (heq ▸ hi)
      exact ⟨by simp [h2], fun f => by simp [setSlot_child hik, h2, hix, hiy],
        fun hroot => by simp [h2, hix, hiy, hroot]⟩
  · apply hb.congr
    intro i hi
    exact houtside i (hdisj i (.inr (.inr (.inr (.inr hi))))) (fun heq => hxb (heq ▸ hi))
      (fun heq => hyb (heq ▸ hi)) fun hroot => hmb i (hmroot i hroot) hi
  · rw [Shape.inorder_rotate d c c e e a m b x y]
    exact hnodup
  · intro i hi
    rw [Shape.inorder_rotate d c c e e a m b x y, Shape.mem_link, Shape.mem_link] at hi
    exact hdisj i hi

/-- The colour of one node is changed. -/
theorem recolour_spec {c : Bool} {a b : Shape ℕ} {x : ℕ} (hw : Whole h (plug k (.link d c a x b)))
    (c' : Bool) : Whole (h.setRed x c') (plug k (.link d c' a x b)) := by
  obtain ⟨hk, hr, hnk, hnt, hdisj⟩ := whole_plug.mp hw
  have hsame : ∀ i, i ≠ x → Same h (h.setRed x c') i :=
    fun i hi => ⟨by simp, by simp [hi], fun e => by simp⟩
  have hx := hdisj x (Shape.mem_link.mpr (.inl rfl))
  have hnodup := hnt
  rw [nodup_link] at hnt
  obtain ⟨hxa, hxb, -⟩ := hnt
  rw [rep_link] at hr
  obtain ⟨hparent, -, hnear, hfar, ha, hb⟩ := hr
  rw [ptr_link] at hk
  rw [whole_plug, ptr_link, rep_link, ← Shape.inorder_recolour d c c' a x b]
  refine ⟨hk.congr (by simp) fun i hi => hsame i fun heq => hx (heq ▸ hi), ⟨by simpa, by simp,
    by simpa, by simpa, ha.congr fun i hi => hsame i fun heq => hxa (heq ▸ hi),
    hb.congr fun i hi => hsame i fun heq => hxb (heq ▸ hi)⟩, hnk, hnodup, hdisj⟩

theorem recolour_frame {f : Frame ℕ} (hw : Whole h (plug (f :: k) t)) (c : Bool) :
    Whole (h.setRed f.elem c) (plug ({ f with red := c } :: k) t) :=
  recolour_spec (k := k) hw c

theorem recolour_sibling {f : Frame ℕ} {c : Bool} {a b : Shape ℕ} {x : ℕ}
    (hw : Whole h (plug (f :: k) t)) (hs : f.sibling = .link d c a x b) (c' : Bool) :
    Whole (h.setRed x c') (plug ({ f with sibling := .link d c' a x b } :: k) t) := by
  rw [plug_turn, hs] at hw
  rw [plug_turn]
  exact recolour_spec hw c'

theorem Rep.parent_eq {p : Option ℕ} {i : ℕ} (hr : Rep h p t) (hi : ptr t = some i) :
    h.parent i = p := by
  cases t with
  | nil => exact absurd hi (by simp)
  | node c l j r =>
    obtain rfl := Option.some.inj hi
    exact hr.1

theorem Rep.isRed_eq {p : Option ℕ} (hr : Rep h p t) : h.isRed (ptr t) = t.red := by
  cases t with
  | nil => rfl
  | node c l j r => exact hr.2.1

theorem Rep.isBlack_eq {p : Option ℕ} (hr : Rep h p t) : h.isBlack (ptr t) = !t.red := by
  cases t with
  | nil => rfl
  | node c l j r => exact congrArg (!·) hr.2.1

theorem side_eq {o : Option ℕ} {f : Frame ℕ} (hk : RepPath h o (f :: k)) (hne : ptr f.sibling ≠ o) :
    (if h.child .left f.elem = o then Side.left else Side.right) = f.side := by
  obtain ⟨hopen, hother, -, -, -, -⟩ := hk
  cases hside : f.side with
  | left =>
    rw [hside] at hopen
    rw [if_pos hopen]
  | right =>
    rw [hside] at hother
    have hother' : h.child .left f.elem = ptr f.sibling := hother
    rw [if_neg fun heq => hne (hother'.symm.trans heq)]

/-! ## The end of the repair -/

theorem blackenRoot_spec (hw : Whole h t) {i : ℕ} (hi : ptr t = some i) (hblack : t.red = false) :
    ∃ h', h.blackenRoot = some h' ∧ Whole h' t := by
  refine ⟨h.setRed i false, by simp [Links.blackenRoot, hw.root, hi], ?_⟩
  cases t with
  | nil => exact absurd hi (by simp)
  | node c l j r =>
    obtain rfl := Option.some.inj hi
    have hnew := recolour_spec (k := []) (d := .left) hw false
    rwa [show c = false from hblack]

theorem blackenRoot_red {l r : Shape ℕ} {i : ℕ} (hw : Whole h (.node true l i r)) :
    ∃ h', h.blackenRoot = some h' ∧ Whole h' (.node false l i r) :=
  ⟨h.setRed i false, by simp [Links.blackenRoot, hw.root],
    recolour_spec (k := []) (d := .left) hw false⟩

/-! ## The repair -/

/-- A red node below a red one on the inner side of the grandparent is rotated to the outer
side. -/
theorem straighten_spec {f : Frame ℕ} {u : Shape ℕ} {g x : ℕ}
    (hw : Whole h (plug k (.link d false (f.fill t) g u))) (hx : ptr t = some x)
    (htred : t.red = true) (hfred : f.red = true) (htcalm : t.Calm) (hscalm : f.sibling.Calm)
    (hsred : f.sibling.red = false) :
    ∃ h' n y a b, Links.straighten d h x f.elem g = some (h', n, y, g) ∧
      Whole h' (plug k (.link d false (.link d true a y b) g u)) ∧ ptr a = some n ∧
      a.red = true ∧ a.Calm ∧ b.Calm ∧ b.red = false ∧
      (Shape.link d true a y b).inorder = (f.fill t).inorder ∧
      ∀ m, t.Balanced m → f.sibling.Balanced m → a.Balanced m ∧ b.Balanced m := by
  have hplug : plug k (.link d false (f.fill t) g u) = plug (f :: ⟨d, false, g, u⟩ :: k) t := rfl
  rw [hplug] at hw
  obtain ⟨hk, hr, -, -, hdisj⟩ := whole_plug.mp hw
  rw [hx] at hk
  have hxk := hdisj x (mem_of_ptr hx)
  obtain ⟨hopen, hother, -⟩ := hk
  by_cases hside : f.side = d
  · refine ⟨h, x, f.elem, t, f.sibling, ?_, ?_, hx, htred, htcalm, hscalm, hsred, ?_,
      fun m ht hs => ⟨ht, hs⟩⟩
    · have hne : h.child d.other f.elem ≠ some x := by
        rw [← hside, hother]
        exact fun hptr => hxk (mem_nodes_cons.mpr (.inr (.inl (mem_of_ptr hptr))))
      rw [Links.straighten, if_neg hne]
    · rw [← hplug, Frame.fill, hside, hfred] at hw
      exact hw
    · rw [Frame.fill, hside, hfred]
  · have hinner : f.side = d.other := Side.eq_other_of_ne hside
    obtain ⟨c, l, y, r, rfl⟩ : ∃ c l y r, t = .node c l y r := by
      cases t with
      | nil => exact absurd hx (by simp)
      | node c l y r => exact ⟨c, l, y, r, rfl⟩
    obtain rfl := Option.some.inj hx
    obtain rfl : c = true := htred
    obtain ⟨a, b, hlink⟩ := Shape.exists_link d true l y r
    rw [hlink] at hw htcalm ⊢
    have hfill : f.fill (.link d true a y b) =
        .link d true f.sibling f.elem (.link d true a y b) := by
      rw [Frame.fill, hinner, hfred, Shape.link_other]
    have hw : Whole h (plug (⟨d, false, g, u⟩ :: k)
        (.link d true f.sibling f.elem (.link d true a y b))) := hfill ▸ hw
    obtain ⟨h', hrotate, hw'⟩ := rotate_spec hw
    obtain ⟨hk', hr', -⟩ := whole_plug.mp hw'
    rw [rep_link, rep_link] at hr'
    rw [Shape.calm_link] at htcalm
    refine ⟨h', f.elem, y, .link d true f.sibling f.elem a, b, ?_, hw', ptr_link _ _ _ _ _,
      Shape.red_link _ _ _ _ _, ?_, htcalm.2.2, (htcalm.1 rfl).2, ?_, fun m ht hs => ?_⟩
    · rw [Links.straighten, if_pos (hinner ▸ hopen), hrotate]
      simp [hr'.1, hr'.2.2.2.2.1.1, above]
    · rw [Shape.calm_link]
      exact ⟨fun _ => ⟨hsred, (htcalm.1 rfl).1⟩, hscalm, htcalm.2.1⟩
    · rw [hfill, Shape.inorder_rotate d true true true true f.sibling a b f.elem y]
    · rw [Shape.balanced_link] at ht
      obtain ⟨j, rfl, ha, hb⟩ := ht
      rw [Shape.balanced_link]
      exact ⟨⟨m, rfl, hs, ha⟩, hb⟩

theorem insertFix_settled {f : Frame ℕ} {x : ℕ} (hw : Whole h (plug (f :: k) t))
    (hx : ptr t = some x) (hblack : f.red = false) (hvalid : (plug (f :: k) t).Valid) (fuel : ℕ) :
    ∃ h', Links.insertFix (fuel + 1) h x = some h' ∧ Whole h' (plug (f :: k) t) := by
  obtain ⟨hk, hr, -⟩ := whole_plug.mp hw
  have hparent : h.parent x = some f.elem := hr.parent_eq hx
  have hred : h.red f.elem = false := hk.2.2.2.1.trans hblack
  obtain ⟨i, hi⟩ := exists_ptr (elem_mem_plug f k t)
  obtain ⟨h', hend, hw'⟩ := blackenRoot_spec hw hi hvalid.black
  refine ⟨h', ?_, hw'⟩
  rw [Links.insertFix, hparent]
  dsimp only
  rw [if_pos hred, hend]

/-- The tree at the end of the path is red; but for its parent, all colours are right. -/
structure Rising (k : List (Frame ℕ)) (t : Shape ℕ) : Prop where
  red : t.red = true
  calm : t.Calm
  path : CalmPath k
  root : rootRed k = false
  balanced : ∃ m, (plug k t).Balanced m

theorem Rising.valid {f : Frame ℕ} (hrise : Rising (f :: k) t) (hblack : f.red = false) :
    (plug (f :: k) t).Valid where
  black := (red_plug f k t).trans hrise.root
  calm := calm_plug.mpr ⟨hrise.calm, hrise.path, fun _ => hblack⟩
  balanced := hrise.balanced

theorem Rising.exchange {f g : Frame ℕ} {ul ur : Shape ℕ} {u : ℕ} (hrise : Rising (f :: g :: k) t)
    (hfred : f.red = true) (hgred : g.red = false) (huncle : g.sibling = .node true ul u ur) :
    Rising k (.link g.side true (.link f.side false t f.elem f.sibling) g.elem
      (.node false ul u ur)) := by
  obtain ⟨hred, hcalm, ⟨hfcalm, hscalm, -, hucalm, hpath⟩, hroot, m, hm⟩ := hrise
  rw [huncle] at hucalm
  refine ⟨Shape.red_link _ _ _ _ _, ?_, hpath, rootRed_tail (rootRed_tail hroot), m, ?_⟩
  · rw [Shape.calm_link, Shape.calm_link]
    exact ⟨fun _ => ⟨Shape.red_link _ _ _ _ _, rfl⟩, ⟨by simp, hcalm, hscalm⟩, by simp, hucalm.2⟩
  · obtain ⟨n, ht, hs, hu, hk⟩ := balanced_plug.mp hm
    rw [hfred, huncle] at hu
    rw [hfred, hgred] at hk
    obtain ⟨_, rfl, hul, hur⟩ := hu
    exact balanced_plug.mpr ⟨n + 1, Shape.balanced_link.mpr ⟨n + 1, rfl,
      Shape.balanced_link.mpr ⟨n, rfl, ht, hs⟩, n, rfl, hul, hur⟩, hk⟩

theorem Rising.settle {f g : Frame ℕ} {a b : Shape ℕ} (y : ℕ) (hrise : Rising (f :: g :: k) t)
    (hfred : f.red = true) (hgred : g.red = false) (huncle : g.sibling.red = false)
    (ha : a.Calm) (hb : b.Calm) (hbred : b.red = false)
    (hbalanced : ∀ m, t.Balanced m → f.sibling.Balanced m → a.Balanced m ∧ b.Balanced m) :
    (plug k (.link g.side false a y (.link g.side true b g.elem g.sibling))).Valid := by
  obtain ⟨-, -, ⟨-, -, -, hucalm, hpath⟩, hroot, m, hm⟩ := hrise
  refine ⟨black_plug (rootRed_tail (rootRed_tail hroot)) (Shape.red_link _ _ _ _ _), ?_, m, ?_⟩
  · rw [calm_plug, Shape.calm_link, Shape.calm_link, Shape.red_link]
    exact ⟨⟨by simp, ha, fun _ => ⟨hbred, huncle⟩, hb, hucalm⟩, hpath, by simp⟩
  · obtain ⟨n, ht, hs, hu, hk⟩ := balanced_plug.mp hm
    obtain ⟨han, hbn⟩ := hbalanced n ht hs
    rw [hfred] at hu
    rw [hfred, hgred] at hk
    exact balanced_plug.mpr ⟨n + 1, Shape.balanced_link.mpr ⟨n, rfl, han,
      Shape.balanced_link.mpr ⟨n, rfl, hbn, hu⟩⟩, hk⟩

theorem exchange_spec {f g : Frame ℕ} {ul ur : Shape ℕ} {u : ℕ}
    (hw : Whole h (plug (f :: g :: k) t)) (huncle : g.sibling = .node true ul u ur) :
    Whole (((h.setRed f.elem false).setRed u false).setRed g.elem true)
      (plug k (.link g.side true (.link f.side false t f.elem f.sibling) g.elem
        (.node false ul u ur))) := by
  have hparent := recolour_frame hw false
  have huncle' := recolour_sibling (d := .left) (k := k) hparent huncle false
  exact recolour_frame (k := k) huncle' true

theorem settle_spec {a b u : Shape ℕ} {y g : ℕ}
    (hw : Whole h (plug k (.link d false (.link d true a y b) g u))) :
    ∃ h', Links.rotate d.other ((h.setRed y false).setRed g true) g = some h' ∧
      Whole h' (plug k (.link d false a y (.link d true b g u))) := by
  have hparent : Whole (h.setRed y false) (plug k (.link d false (.link d false a y b) g u)) :=
    recolour_spec (k := ⟨d, false, g, u⟩ :: k) hw false
  have hboth := recolour_spec hparent true
  have hturn (e : Bool) : Shape.link d true (.link d e a y b) g u =
      .link d.other true u g (.link d.other e b y a) := by
    rw [Shape.link_other, Shape.link_other]
  rw [hturn] at hboth
  obtain ⟨h', hrotate, hw'⟩ := rotate_spec hboth
  refine ⟨h', hrotate, ?_⟩
  rwa [Shape.link_other, Shape.link_other] at hw'

/-- `rbtree_insert_fix` makes a red-black tree of the same nodes in the same order. -/
theorem insertFix_spec {fuel x : ℕ} (hfuel : k.length < fuel) (hw : Whole h (plug k t))
    (hx : ptr t = some x) (hrise : Rising k t) :
    ∃ h' T, Links.insertFix fuel h x = some h' ∧ Whole h' T ∧ T.Valid ∧
      T.inorder = (plug k t).inorder := by
  induction fuel generalizing h k t x with
  | zero => exact absurd hfuel (Nat.not_lt_zero _)
  | succ fuel ih =>
    obtain ⟨hk, hr, -, -, hdisj⟩ := whole_plug.mp hw
    have hparent := hr.parent_eq hx
    cases k with
    | nil =>
      obtain ⟨hred, hcalm, -, -, m, hm⟩ := hrise
      cases t with
      | nil => exact absurd hx (by simp)
      | node c l j r =>
        obtain rfl : c = true := hred
        obtain ⟨h', hend, hw'⟩ := blackenRoot_red hw
        refine ⟨h', _, ?_, hw', ⟨rfl, ⟨by simp, hcalm.2⟩, ?_⟩, rfl⟩
        · rw [Links.insertFix, hparent]
          exact hend
        · obtain ⟨n, -, hl, hr⟩ := hm
          exact ⟨n + 1, n, rfl, hl, hr⟩
    | cons f k =>
      cases hfred : f.red with
      | false =>
        obtain ⟨h', hrun, hw'⟩ := insertFix_settled hw hx hfred (hrise.valid hfred) fuel
        exact ⟨h', _, hrun, hw', hrise.valid hfred, rfl⟩
      | true =>
        obtain ⟨g, k, rfl, hgred⟩ := exists_grandparent hrise.root hrise.path hfred
        obtain ⟨-, -, hfparent, hfcolour, -, hkg⟩ := hk
        have hf : f.elem ∉ nodes (g :: k) := (nodup_nodes_cons (whole_plug.mp hw).2.2.1).2.1
        have hside := side_eq hkg fun hptr =>
          hf (mem_nodes_cons.mpr (.inr (.inl (mem_of_ptr hptr))))
        have huncle : h.child g.side.other g.elem = ptr g.sibling := hkg.2.1
        have hucolour : h.isRed (ptr g.sibling) = g.sibling.red := hkg.2.2.2.2.1.isRed_eq
        rw [Links.insertFix, hparent]
        simp only [above, hfcolour, hfred, hfparent, Option.bind_eq_bind, Option.bind_some, hside,
          huncle, hucolour, Bool.true_eq_false, if_false]
        cases hured : g.sibling.red with
        | true =>
          obtain ⟨ul, u, ur, hu⟩ := Shape.exists_of_red hured
          have hlen : k.length < fuel := by
            simp only [List.length_cons] at hfuel
            omega
          obtain ⟨h', T, hrun, hw', hvalid, hin⟩ := ih hlen (exchange_spec hw hu)
            (ptr_link _ _ _ _ _) (hrise.exchange hfred hgred hu)
          refine ⟨h', T, by simpa [hu] using hrun, hw', hvalid, hin.trans ?_⟩
          apply inorder_plug_congr k
          rw [Frame.fill, hu]
          exact Shape.inorder_link_congr (Shape.inorder_recolour _ _ _ _ _ _) rfl
        | false =>
          have hw : Whole h (plug k (.link g.side false (f.fill t) g.elem g.sibling)) := hgred ▸ hw
          obtain ⟨⟨hfcalm, hscalm, -⟩, htcalm⟩ := And.intro hrise.path hrise.calm
          obtain ⟨h1, n, y, a, b, hstraight, hw1, hn, -, ha, hb, hbred, hin, hbalanced⟩ :=
            straighten_spec hw hx hrise.red hfred htcalm hscalm (hfcalm hfred).1
          obtain ⟨h2, hrotate, hw2⟩ := settle_spec hw1
          have hvalid := hrise.settle y hfred hgred hured ha hb hbred hbalanced
          obtain ⟨fuel, rfl⟩ : ∃ rest, fuel = rest + 1 := by
            simp only [List.length_cons] at hfuel
            exact Nat.exists_eq_succ_of_ne_zero (by omega)
          obtain ⟨h', hrun, hw'⟩ := insertFix_settled (k := k)
            (f := ⟨g.side, false, y, .link g.side true b g.elem g.sibling⟩) hw2 hn rfl hvalid fuel
          refine ⟨h', _, ?_, hw', hvalid, ?_⟩
          · simp [hstraight, hrotate, hrun]
          · apply inorder_plug_congr k
            simp only [Frame.fill, hgred]
            exact (Shape.inorder_rotate _ true false false true a b _ y _).symm.trans
              (Shape.inorder_link_congr hin rfl)

end Cstl.Rbtree
