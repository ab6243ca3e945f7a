import TurboUtils.Cstl.Rbtree.InsertFix

/-! The repair after a removal: below an open place a black node is missing, and the place moves up
until the tree is as it should be. -/
namespace Cstl.Rbtree

open RedBlack

variable {h h' : Links} {t : Shape ℕ} {k : List (Frame ℕ)} {d : Side}

/-- The tree at the end of the path has one black node too few; its root may be red below a red
parent. -/
structure Lacking (k : List (Frame ℕ)) (t : Shape ℕ) : Prop where
  calm : t.blacken.Calm
  path : CalmPath k
  root : rootRed k = false
  balanced : ∃ n m, t.Balanced n ∧ Fits k (n + 1) m

theorem blacken_spec (hw : Whole h (plug k t)) : Whole (h.blacken (ptr t)) (plug k t.blacken) := by
  cases t with
  | nil => exact hw
  | node c l i r => exact recolour_spec (d := .left) hw false

theorem Lacking.valid_red (hlack : Lacking k t) (hred : t.red = true) :
    (plug k t.blacken).Valid := by
  obtain ⟨hcalm, hpath, hroot, n, m, ht, hk⟩ := hlack
  exact ⟨black_plug hroot (by simp), calm_plug.mpr ⟨hcalm, hpath, by simp⟩, m,
    balanced_plug.mpr ⟨n + 1, ht.blacken hred, hk⟩⟩

theorem Lacking.valid_root (hlack : Lacking [] t) : t.blacken.Valid := by
  obtain ⟨hcalm, -, -, n, m, ht, -⟩ := hlack
  refine ⟨by simp, hcalm, ?_⟩
  cases hred : t.red with
  | true => exact ⟨n + 1, ht.blacken hred⟩
  | false => exact ⟨n, by rwa [Shape.blacken_of_black hred]⟩

theorem Lacking.sibling {f : Frame ℕ} (hlack : Lacking (f :: k) t) :
    ∃ n m, t.Balanced n ∧ f.sibling.Balanced (n + 1) ∧ Fits k (Shape.grow f.red (n + 1)) m := by
  obtain ⟨-, -, -, n, m, ht, hs, hk⟩ := hlack
  exact ⟨n, m, ht, hs, hk⟩

/-- After a rotation the sibling is black, and a parent below a new node is red. -/
theorem blackSibling_spec {f : Frame ℕ} (hw : Whole h (plug (f :: k) t))
    (hlack : Lacking (f :: k) t) :
    ∃ h' c s k', Links.blackSibling f.side h f.elem = some (h', ptr s) ∧
      Whole h' (plug (⟨f.side, c, f.elem, s⟩ :: k') t) ∧ Lacking (⟨f.side, c, f.elem, s⟩ :: k') t ∧
      s.red = false ∧
      (plug (⟨f.side, c, f.elem, s⟩ :: k') t).inorder = (plug (f :: k) t).inorder ∧
      (k' = k ∨ c = true) := by
  obtain ⟨hk, -⟩ := whole_plug.mp hw
  obtain ⟨-, hother, -, -, hs, -⟩ := hk
  cases hred : f.sibling.red with
  | false =>
    refine ⟨h, f.red, f.sibling, k, ?_, hw, hlack, hred, rfl, .inl rfl⟩
    simp [Links.blackSibling, hother, hs.isRed_eq, hred]
  | true =>
    obtain ⟨l, x, r, hlink⟩ := Shape.exists_of_red hred
    obtain ⟨a, b, hab⟩ := Shape.exists_link f.side true l x r
    rw [hab] at hlink
    have hfred : f.red = false := by
      by_contra hne
      exact absurd (hred.symm.trans (hlack.path.1 (by simpa using hne)).1) (by simp)
    have hw2 := recolour_frame (recolour_sibling hw hlink false) true
    obtain ⟨h', hrotate, hw'⟩ := rotate_spec (d := f.side) (k := k) hw2
    obtain ⟨hcalm, ⟨-, hscalm, hpath⟩, hroot, n, m, ht, hsn, hkm⟩ := hlack
    rw [hlink, Shape.calm_link] at hscalm
    rw [hlink, Shape.balanced_link] at hsn
    obtain ⟨_, rfl, han, hbn⟩ := hsn
    rw [hfred] at hkm
    obtain ⟨hared, hbred⟩ := hscalm.1 rfl
    refine ⟨h', true, a, ⟨f.side, false, x, b⟩ :: k, ?_, hw',
      ⟨hcalm, ⟨fun _ => ⟨hared, rfl⟩, hscalm.2.1, by simp, hscalm.2.2, hpath⟩, ?_, n, m, ht, han, hbn,
        hkm⟩, hared, ?_, .inr rfl⟩
    · have hs' : h'.child f.side.other f.elem = ptr a := by
        obtain ⟨hk', -⟩ := whole_plug (k := ⟨f.side, true, f.elem, a⟩ :: ⟨f.side, false, x, b⟩ :: k)
          |>.mp hw'
        exact hk'.2.1
      have hptr : ptr f.sibling = some x := by rw [hlink, ptr_link]
      rw [Links.blackSibling, hother, hs.isRed_eq, hred, if_pos rfl, hptr]
      simp [hrotate, hs']
    · cases k with
      | nil => rfl
      | cons g k => exact rootRed_tail (f := f) hroot
    · apply inorder_plug_congr k
      simp only [Frame.fill, hlink]
      exact Shape.inorder_rotate _ _ _ _ _ _ _ _ _ _

/-- A black sibling with a red child gets it on the far side. -/
theorem farRed_spec {f : Frame ℕ} {a b : Shape ℕ} {x : ℕ} (hw : Whole h (plug (f :: k) t))
    (hlack : Lacking (f :: k) t) (hs : f.sibling = .link f.side false a x b)
    (hred : a.red = true ∨ b.red = true) :
    ∃ h' y a' b', Links.farRed f.side h f.elem x = some (h', y) ∧
      Whole h' (plug ({ f with sibling := .link f.side false a' y b' } :: k) t) ∧
      Lacking ({ f with sibling := .link f.side false a' y b' } :: k) t ∧ b'.red = true ∧
      (Shape.link f.side false a' y b').inorder = f.sibling.inorder := by
  obtain ⟨⟨-, -, -, -, hrep, -⟩, -⟩ := whole_plug.mp hw
  rw [hs, rep_link] at hrep
  obtain ⟨-, -, hnear, hfar, harep, hbrep⟩ := hrep
  cases hbred : b.red with
  | true =>
    refine ⟨h, x, a, b, ?_, ?_, ?_, hbred, by rw [hs]⟩
    · simp [Links.farRed, hfar, hbrep.isBlack_eq, hbred]
    · rwa [← hs]
    · rwa [← hs]
  | false =>
    have hared : a.red = true := by simpa [hbred] using hred
    obtain ⟨l, y, r, hlink⟩ := Shape.exists_of_red hared
    obtain ⟨a1, a2, hab⟩ := Shape.exists_link f.side true l y r
    rw [hab] at hlink
    rw [plug_turn, hs, hlink] at hw
    obtain ⟨h', hrotate, hw'⟩ := settle_spec hw
    obtain ⟨⟨hopen, -⟩, -⟩ := whole_plug.mp hw'
    obtain ⟨hcalm, ⟨hfcalm, hscalm, hpath⟩, hroot, n, m, ht, hsn, hkm⟩ := hlack
    rw [hs, hlink, Shape.calm_link, Shape.calm_link] at hscalm
    obtain ⟨-, ⟨hred12, ha1, ha2⟩, hb⟩ := hscalm
    rw [hs, hlink, Shape.balanced_link] at hsn
    obtain ⟨j, hj, haj, hbj⟩ := hsn
    obtain rfl : n = j := Nat.succ.inj hj
    obtain ⟨_, rfl, h1, h2⟩ := Shape.balanced_link.mp haj
    refine ⟨h', y, a1, .link f.side true a2 x b, ?_, ?_,
      ⟨hcalm, ⟨fun hf => ⟨Shape.red_link _ _ _ _ _, (hfcalm hf).2⟩, ?_, hpath⟩, ?_, n, m, ht, ?_,
        hkm⟩, by simp, ?_⟩
    · rw [ptr_link] at hopen
      rw [Links.farRed, hfar, hbrep.isBlack_eq, hnear, hlink, ptr_link]
      simp [hbred, Links.blacken, hrotate, hopen]
    · rw [plug_turn]
      exact hw'
    · rw [Shape.calm_link, Shape.calm_link]
      exact ⟨by simp, ha1, fun _ => ⟨(hred12 rfl).2, hbred⟩, ha2, hb⟩
    · cases k with
      | nil => exact hroot
      | cons g k => exact hroot
    · exact Shape.balanced_link.mpr ⟨n, rfl, h1, Shape.balanced_link.mpr ⟨n, rfl, h2, hbj⟩⟩
    · rw [hs, hlink, Shape.inorder_rotate f.side true false false true]

/-- The last rotation: the sibling takes the place and the colour of the parent. -/
theorem lastRotation_spec {f : Frame ℕ} {a b : Shape ℕ} {x : ℕ} (hw : Whole h (plug (f :: k) t))
    (hs : f.sibling = .link f.side false a x b) :
    ∃ h', Links.rotate f.side
        (((h.setRed x (h.red f.elem)).setRed f.elem false).blacken (ptr b)) f.elem = some h' ∧
      Whole h' (plug k (.link f.side f.red (.link f.side false t f.elem a) x b.blacken)) := by
  obtain ⟨⟨-, -, -, hred, -⟩, -⟩ := whole_plug.mp hw
  have hw2 := recolour_frame (recolour_sibling hw hs f.red) false
  have hfar : plug (⟨f.side, false, f.elem, .link f.side f.red a x b⟩ :: k) t =
      plug (⟨f.side.other, f.red, x, a⟩ :: ⟨f.side.other, false, f.elem, t⟩ :: k) b := by
    simp only [plug, Frame.fill, Shape.link_other]
  have hw3 : Whole _ (plug (⟨f.side.other, f.red, x, a⟩ :: ⟨f.side.other, false, f.elem, t⟩ :: k) _) :=
    blacken_spec (hfar ▸ hw2)
  have hback : plug (⟨f.side.other, f.red, x, a⟩ :: ⟨f.side.other, false, f.elem, t⟩ :: k) b.blacken =
      plug k (.link f.side false t f.elem (.link f.side f.red a x b.blacken)) := by
    simp only [plug, Frame.fill, Shape.link_other]
  rw [hback] at hw3
  rw [hred]
  exact rotate_spec hw3

theorem RepPath.exists_root {o : Option ℕ} {f : Frame ℕ} (hk : RepPath h o (f :: k)) :
    ∃ i ∈ nodes (f :: k), h.root = some i := by
  induction k generalizing f o with
  | nil => exact ⟨f.elem, mem_nodes_cons.mpr (.inl rfl), hk.2.2.2.2.2⟩
  | cons g k ih =>
    obtain ⟨i, hi, hroot⟩ := ih hk.2.2.2.2.2
    exact ⟨i, mem_nodes_cons.mpr (.inr (.inr hi)), hroot⟩

theorem deleteFix_stop {node parent : Option ℕ} {fuel : ℕ}
    (hstop : node = h.root ∨ h.isBlack node = false) :
    Links.deleteFix (fuel + 1) h node parent = some (h.blacken node) := by
  have hneg : ¬ (node ≠ h.root ∧ h.isBlack node = true) := by
    rintro ⟨hne, hblack⟩
    rcases hstop with heq | hred
    · exact hne heq
    · exact absurd (hblack.symm.trans hred) (by simp)
  cases parent <;> exact if_neg hneg

theorem deleteFix_root (hw : Whole h t) (hvalid : t.Valid) {fuel : ℕ} (hfuel : 0 < fuel) :
    ∃ h', Links.deleteFix fuel h h.root none = some h' ∧ Whole h' t := by
  obtain ⟨fuel, rfl⟩ := Nat.exists_eq_succ_of_ne_zero (Nat.ne_of_gt hfuel)
  refine ⟨_, deleteFix_stop (.inl rfl), ?_⟩
  have hend := blacken_spec (k := []) hw
  rw [plug, Shape.blacken_of_black hvalid.black, ← hw.root] at hend
  exact hend

theorem Lacking.up {f : Frame ℕ} {a b : Shape ℕ} {x : ℕ} (hlack : Lacking (f :: k) t)
    (htred : t.red = false) (hs : f.sibling = .link f.side false a x b) (hared : a.red = false)
    (hbred : b.red = false) :
    Lacking k (.link f.side f.red t f.elem (.link f.side true a x b)) := by
  obtain ⟨hcalm, ⟨-, hscalm, hpath⟩, hroot, n, m, ht, hsn, hkm⟩ := hlack
  rw [Shape.blacken_of_black htred] at hcalm
  rw [hs, Shape.calm_link] at hscalm
  rw [hs, Shape.balanced_link] at hsn
  obtain ⟨j, hj, ha, hb⟩ := hsn
  obtain rfl : n = j := Nat.succ.inj hj
  refine ⟨?_, hpath, rootRed_tail hroot, Shape.grow f.red n, m,
    Shape.balanced_link.mpr ⟨n, rfl, ht, Shape.balanced_link.mpr ⟨n, rfl, ha, hb⟩⟩, ?_⟩
  · rw [Shape.blacken_link, Shape.calm_link, Shape.calm_link]
    exact ⟨by simp, hcalm, fun _ => ⟨hared, hbred⟩, hscalm.2⟩
  · cases hc : f.red <;> simpa [Shape.grow, hc] using hkm

/-- The tree after the last rotation. -/
theorem Lacking.valid_last {f : Frame ℕ} {a b : Shape ℕ} {x : ℕ} (hlack : Lacking (f :: k) t)
    (htred : t.red = false) (hs : f.sibling = .link f.side false a x b) (hbred : b.red = true) :
    (plug k (.link f.side f.red (.link f.side false t f.elem a) x b.blacken)).Valid := by
  obtain ⟨hcalm, ⟨hfcalm, hscalm, hpath⟩, hroot, n, m, ht, hsn, hkm⟩ := hlack
  rw [Shape.blacken_of_black htred] at hcalm
  rw [hs, Shape.calm_link] at hscalm
  rw [hs, Shape.balanced_link] at hsn
  obtain ⟨j, hj, ha, hb⟩ := hsn
  obtain rfl : n = j := Nat.succ.inj hj
  refine ⟨?_, calm_plug.mpr ⟨?_, hpath, fun hc => ?_⟩, m, balanced_plug.mpr ⟨_, ?_, hkm⟩⟩
  · cases k with
    | nil => exact (Shape.red_link _ _ _ _ _).trans hroot
    | cons g k => exact (red_plug g k _).trans hroot
  · rw [Shape.calm_link, Shape.calm_link]
    exact ⟨fun _ => ⟨Shape.red_link _ _ _ _ _, b.red_blacken⟩, ⟨by simp, hcalm, hscalm.2.1⟩,
      hscalm.2.2.blacken⟩
  · rw [Shape.red_link] at hc
    exact (hfcalm hc).2
  · exact Shape.balanced_link.mpr ⟨n + 1, rfl, Shape.balanced_link.mpr ⟨n, rfl, ht, ha⟩,
      hb.blacken hbred⟩

/-- `rbtree_delete_fix` makes a red-black tree of the same nodes in the same order. -/
theorem deleteFix_spec {fuel : ℕ} (hfuel : k.length + 2 ≤ fuel ∨ t.red = true ∧ 0 < fuel)
    (hw : Whole h (plug k t)) (hlack : Lacking k t) :
    ∃ h' T, Links.deleteFix fuel h (ptr t) (above k) = some h' ∧ Whole h' T ∧ T.Valid ∧
      T.inorder = (plug k t).inorder := by
  induction fuel generalizing h k t with
  | zero => omega
  | succ fuel ih =>
    obtain ⟨hk, hr, hnk, -, hdisj⟩ := whole_plug.mp hw
    have hend := blacken_spec hw
    have hin : (plug k t.blacken).inorder = (plug k t).inorder :=
      inorder_plug_congr k t.inorder_blacken
    cases hred : t.red with
    | true =>
      refine ⟨_, _, deleteFix_stop (.inr ?_), hend, hlack.valid_red hred, hin⟩
      rw [hr.isBlack_eq, hred]
      rfl
    | false =>
      cases k with
      | nil => exact ⟨_, _, deleteFix_stop (.inl hk.symm), hend, hlack.valid_root, hin⟩
      | cons f k =>
        have hblack : h.isBlack (ptr t) = true := by simp [hr.isBlack_eq, hred]
        have hroot : ptr t ≠ h.root := by
          obtain ⟨i, hi, hroot⟩ := hk.exists_root
          rw [hroot]
          exact fun hptr => hdisj i (mem_of_ptr hptr) hi
        obtain ⟨n, m, -, hsn, -⟩ := hlack.sibling
        obtain ⟨c, l, s, r, hs⟩ := hsn.exists_node (Nat.succ_ne_zero n)
        have hside := side_eq hk fun hptr => hdisj s (mem_of_ptr (hptr.symm.trans (by rw [hs]; rfl)))
          (mem_nodes_cons.mpr (.inr (.inl (by simp [hs]))))
        obtain ⟨h1, c1, s1, k1, hrun1, hw1, hlack1, hs1, hin1, hlen⟩ := blackSibling_spec hw hlack
        obtain ⟨⟨-, hother, hfparent, hfred, hsrep, hk1⟩, -⟩ := whole_plug.mp hw1
        obtain ⟨n, m, -, hsn, -⟩ := hlack1.sibling
        obtain ⟨c, l, s, r, rfl⟩ := hsn.exists_node (Nat.succ_ne_zero n)
        obtain rfl : c = false := hs1
        obtain ⟨a, b, hab⟩ := Shape.exists_link f.side false l s r
        rw [hab] at hrun1 hw1 hlack1 hin1 hsrep
        rw [rep_link] at hsrep
        obtain ⟨-, -, hnear, hfar, harep, hbrep⟩ := hsrep
        rw [above, Links.deleteFix, if_pos ⟨hroot, hblack⟩]
        simp only [hside, hrun1, Option.bind_eq_bind, Option.bind_some, ptr_link,
          hnear, hfar, harep.isBlack_eq, hbrep.isBlack_eq]
        by_cases hcalm : a.red = false ∧ b.red = false
        · obtain ⟨hared, hbred⟩ := hcalm
          have hup := hlack1.up hred rfl hared hbred
          have hfuel1 : k1.length + 2 ≤ fuel ∨
              (Shape.link f.side c1 t f.elem (.link f.side true a s b)).red = true ∧ 0 < fuel := by
            have hlength : k.length + 2 ≤ fuel := by simpa [hred] using hfuel
            rcases hlen with rfl | rfl
            · exact .inl hlength
            · exact .inr ⟨Shape.red_link _ _ _ _ _, by omega⟩
          obtain ⟨h', T, hrun, hw', hvalid, hin'⟩ :=
            ih hfuel1 (recolour_sibling (k := k1) hw1 rfl true) hup
          refine ⟨h', T, ?_, hw', hvalid, (hin'.trans ?_).trans hin1⟩
          · rw [ptr_link, ← hfparent] at hrun
            simpa [hared, hbred] using hrun
          · exact inorder_plug_congr k1
              (Shape.inorder_link_congr rfl (Shape.inorder_recolour _ _ _ _ _ _))
        · have hsome : a.red = true ∨ b.red = true := by
            cases ha : a.red <;> cases hb : b.red <;> simp_all
          obtain ⟨h2, y, a', b', hrun2, hw2, hlack2, hb', hin2⟩ := farRed_spec hw1 hlack1 rfl hsome
          obtain ⟨⟨-, -, -, -, hsrep2, -⟩, -⟩ := whole_plug.mp hw2
          have hfar2 := (rep_link.mp hsrep2).2.2.2.1
          obtain ⟨h3, hrotate, hw3⟩ := lastRotation_spec hw2 rfl
          have hvalid := hlack2.valid_last hred rfl hb'
          have hpos : 0 < fuel := by
            rcases hfuel with hfuel | ⟨hred', -⟩
            · omega
            · exact absurd (hred.symm.trans hred') (by simp)
          obtain ⟨h', hrun, hw'⟩ := deleteFix_root hw3 hvalid hpos
          refine ⟨h', _, ?_, hw', hvalid, Eq.trans ?_ hin1⟩
          · have hmixed : (!a.red && !b.red) = false := by
              rcases hsome with hc | hc <;> simp [hc]
            rw [hmixed, if_neg (by simp)]
            simp [hrun2, hfar2, hrotate, hrun]
          · apply inorder_plug_congr k1
            rw [Shape.inorder_rotate f.side false c1 c1 false]
            exact Shape.inorder_link_congr rfl
              ((Shape.inorder_link_congr rfl b'.inorder_blacken).trans hin2)

end Cstl.Rbtree
