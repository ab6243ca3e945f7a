import Mathlib.Tactic

/-! Nodes with a parent each, except for the roots: the way up from a node, its ancestors, and the
lowest common ancestor of two nodes. -/
namespace RootedTree

/-- Going up from the first node, the nodes of the path are left one after the other until the last
node is reached, which is not left. -/
inductive Climb {α : Type*} (parent : α → Option α) : α → List α → α → Prop
  | here (a : α) : Climb parent a [] a
  | up {a p b : α} {path : List α} (hp : parent a = some p) (h : Climb parent p path b) :
      Climb parent a (a :: path) b

def Ancestor {α : Type*} (parent : α → Option α) (a b : α) : Prop :=
  ∃ path, Climb parent b path a

/-- The third node is above both others (or one of them), and every such node is above it. -/
structure IsLowestCommon {α : Type*} (parent : α → Option α) (a b c : α) : Prop where
  left : Ancestor parent c a
  right : Ancestor parent c b
  lowest : ∀ d, Ancestor parent d a → Ancestor parent d b → Ancestor parent d c

structure Leveled {α : Type*} (parent : α → Option α) (depth : α → ℕ) : Prop where
  root : ∀ a, parent a = none → depth a = 0
  child : ∀ a p, parent a = some p → depth a = depth p + 1

section Paths

variable {α : Type*} {parent : α → Option α} {a b c : α} {path : List α}

theorem Climb.append {more : List α} (h : Climb parent a path b) (h' : Climb parent b more c) :
    Climb parent a (path ++ more) c := by
  induction h with
  | here => exact h'
  | up hp _ ih => exact (ih h').up hp

theorem Ancestor.refl (a : α) : Ancestor parent a a := ⟨[], .here a⟩

theorem Ancestor.trans (h : Ancestor parent a b) (h' : Ancestor parent b c) :
    Ancestor parent a c := by
  obtain ⟨path, hpath⟩ := h
  obtain ⟨more, hmore⟩ := h'
  exact ⟨more ++ path, hmore.append hpath⟩

theorem Ancestor.of_parent (hp : parent b = some a) : Ancestor parent a b :=
  ⟨[b], (Climb.here a).up hp⟩

theorem ancestor_iff : Ancestor parent a b ↔
    a = b ∨ ∃ p, parent b = some p ∧ Ancestor parent a p := by
  constructor
  · rintro ⟨path, h⟩
    cases h with
    | here => exact .inl rfl
    | up hp h => exact .inr ⟨_, hp, _, h⟩
  · rintro (rfl | ⟨p, hp, h⟩)
    · exact .refl a
    · exact h.trans (.of_parent hp)

theorem ancestor_root (hb : parent b = none) : Ancestor parent a b ↔ a = b := by
  rw [ancestor_iff, hb]
  simp

theorem Climb.mem_ancestor (h : Climb parent a path b) {x : α} (hx : x ∈ path) :
    Ancestor parent b x ∧ Ancestor parent x a := by
  induction h with
  | here => cases hx
  | up hp h ih =>
    rcases List.mem_cons.1 hx with rfl | hx
    · exact ⟨⟨_, h.up hp⟩, .refl _⟩
    · exact ⟨(ih hx).1, (ih hx).2.trans (.of_parent hp)⟩

theorem Climb.mem_or_ancestor (h : Climb parent a path b) {x : α} (hx : Ancestor parent x a) :
    x ∈ path ∨ Ancestor parent x b := by
  induction h with
  | here => exact .inr hx
  | up hp _ ih =>
    rcases ancestor_iff.1 hx with rfl | ⟨q, hq, hxq⟩
    · exact .inl List.mem_cons_self
    · rw [hp] at hq
      cases hq
      exact (ih hxq).imp_left (List.mem_cons_of_mem _)

theorem Ancestor.comparable (ha : Ancestor parent a c) (hb : Ancestor parent b c) :
    Ancestor parent a b ∨ Ancestor parent b a := by
  obtain ⟨path, hpath⟩ := hb
  induction hpath with
  | here => exact .inl ha
  | up hp hmore ih =>
    rcases ancestor_iff.1 ha with rfl | ⟨q, hq, hqa⟩
    · exact .inr ⟨_, hmore.up hp⟩
    · rw [hp] at hq
      cases hq
      exact ih hqa

theorem ancestor_up {depth : α → ℕ} {d : α} (hp : parent a = some b) (hd : depth d < depth a) :
    Ancestor parent d a ↔ Ancestor parent d b := by
  rw [ancestor_iff]
  constructor
  · rintro (rfl | ⟨q, hq, h⟩)
    · exact absurd hd (lt_irrefl _)
    · rw [hp] at hq
      cases hq
      exact h
  · exact fun h => .inr ⟨b, hp, h⟩

theorem IsLowestCommon.symm (h : IsLowestCommon parent a b c) : IsLowestCommon parent b a c :=
  ⟨h.right, h.left, fun d hb ha => h.lowest d ha hb⟩

theorem IsLowestCommon.self (a : α) : IsLowestCommon parent a a a :=
  ⟨.refl a, .refl a, fun _ h _ => h⟩

theorem Climb.map {β : Type*} {parent' : β → Option β} (f : α → β)
    (hf : ∀ x p, parent x = some p → parent' (f x) = some (f p)) (h : Climb parent a path b) :
    Climb parent' (f a) (path.map f) (f b) := by
  induction h with
  | here a => exact .here (f a)
  | up hp _ ih => exact ih.up (hf _ _ hp)

theorem Ancestor.map {β : Type*} {parent' : β → Option β} (f : α → β)
    (hf : ∀ x p, parent x = some p → parent' (f x) = some (f p)) (h : Ancestor parent a b) :
    Ancestor parent' (f a) (f b) := by
  obtain ⟨path, hpath⟩ := h
  exact ⟨path.map f, hpath.map f hf⟩

theorem Ancestor.lift {β : Type*} {parent' : β → Option β} (f : α → β)
    (hf : ∀ x, parent' (f x) = (parent x).map f) {y : β} (h : Ancestor parent' y (f b)) :
    ∃ x, f x = y ∧ Ancestor parent x b := by
  obtain ⟨path, hpath⟩ := h
  generalize hz : f b = z at hpath
  induction hpath generalizing b with
  | here => exact ⟨b, hz, .refl b⟩
  | up hp _ ih =>
    subst hz
    rw [hf] at hp
    obtain ⟨q, hq, rfl⟩ := Option.map_eq_some_iff.1 hp
    obtain ⟨x, hx, hxq⟩ := ih rfl
    exact ⟨x, hx, hxq.trans (.of_parent hq)⟩

theorem IsLowestCommon.map {β : Type*} {parent' : β → Option β} (f : α → β)
    (hf : ∀ x, parent' (f x) = (parent x).map f)
    (hinj : ∀ x y, Ancestor parent x a → Ancestor parent y b → f x = f y → x = y)
    (h : IsLowestCommon parent a b c) : IsLowestCommon parent' (f a) (f b) (f c) := by
  have hstep : ∀ x p, parent x = some p → parent' (f x) = some (f p) := fun x p hp => by
    rw [hf, hp, Option.map_some]
  refine ⟨h.left.map f hstep, h.right.map f hstep, fun d hda hdb => ?_⟩
  obtain ⟨x, rfl, hx⟩ := hda.lift f hf
  obtain ⟨y, hy, hyb⟩ := hdb.lift f hf
  have hxy := hinj x y hx hyb hy.symm
  subst hxy
  exact (h.lowest x hx hyb).map f hstep

end Paths

section Levels

variable {α : Type*} {parent : α → Option α} {depth : α → ℕ} (hl : Leveled parent depth)
  {a b c d : α} {path : List α}
include hl

theorem Climb.depth_eq (h : Climb parent a path b) : depth a = depth b + path.length := by
  induction h with
  | here => rfl
  | up hp _ ih =>
    rw [hl.child _ _ hp, ih, List.length_cons]
    omega

theorem Climb.mem_depth (h : Climb parent a path b) {x : α} (hx : x ∈ path) :
    depth b < depth x ∧ depth x ≤ depth a := by
  induction h with
  | here => cases hx
  | up hp h ih =>
    have ha := hl.child _ _ hp
    have hlen := h.depth_eq hl
    rcases List.mem_cons.1 hx with rfl | hx
    · omega
    · have := ih hx
      omega

theorem Climb.nodup (h : Climb parent a path b) : (b :: path).Nodup := by
  have hend : b ∉ path := fun hb => lt_irrefl _ (h.mem_depth hl hb).1
  refine List.nodup_cons.2 ⟨hend, ?_⟩
  clear hend
  induction h with
  | here => exact List.nodup_nil
  | up hp h ih =>
    refine List.nodup_cons.2 ⟨fun ha => ?_, ih⟩
    have := (h.mem_depth hl ha).2
    have := hl.child _ _ hp
    omega

theorem Ancestor.depth_le (h : Ancestor parent a b) : depth a ≤ depth b := by
  obtain ⟨path, hpath⟩ := h
  have := hpath.depth_eq hl
  omega

theorem Ancestor.eq_of_depth (h : Ancestor parent a b) (hd : depth b ≤ depth a) : a = b := by
  obtain ⟨path, hpath⟩ := h
  have := hpath.depth_eq hl
  cases hpath with
  | here => rfl
  | up => simp at this; omega

theorem Ancestor.of_depth_le (ha : Ancestor parent a c) (hb : Ancestor parent b c)
    (hd : depth a ≤ depth b) : Ancestor parent a b := by
  rcases ha.comparable hb with h | h
  · exact h
  · rw [h.eq_of_depth hl hd]
    exact .refl a

theorem IsLowestCommon.of_parent_left (hp : parent a = some d) (hd : depth b < depth a)
    (h : IsLowestCommon parent d b c) : IsLowestCommon parent a b c where
  left := h.left.trans (.of_parent hp)
  right := h.right
  lowest e hea heb :=
    h.lowest e ((ancestor_up hp ((heb.depth_le hl).trans_lt hd)).1 hea) heb

/-- Two different nodes of one depth with a node above both have parents below it. -/
theorem exists_parents (hne : a ≠ b) (hd : depth a = depth b) (ha : Ancestor parent c a)
    (hb : Ancestor parent c b) : ∃ a' b', parent a = some a' ∧ parent b = some b' ∧
      Ancestor parent c a' ∧ Ancestor parent c b' := by
  have hlt : depth c < depth a := by
    refine lt_of_le_of_ne (ha.depth_le hl) fun he => hne ?_
    rw [← ha.eq_of_depth hl he.ge, hb.eq_of_depth hl (he.trans hd).ge]
  cases hpa : parent a with
  | none =>
    have := hl.root a hpa
    omega
  | some a' =>
    cases hpb : parent b with
    | none =>
      have := hl.root b hpb
      omega
    | some b' =>
      exact ⟨a', b', rfl, rfl, (ancestor_up hpa hlt).1 ha, (ancestor_up hpb (hd ▸ hlt)).1 hb⟩

theorem IsLowestCommon.of_parents {a' b' : α} (hne : a ≠ b) (hd : depth a = depth b)
    (ha : parent a = some a') (hb : parent b = some b') (h : IsLowestCommon parent a' b' c) :
    IsLowestCommon parent a b c where
  left := h.left.trans (.of_parent ha)
  right := h.right.trans (.of_parent hb)
  lowest e hea heb := by
    have hlt : depth e < depth a := by
      refine lt_of_le_of_ne (hea.depth_le hl) fun he => hne ?_
      rw [← hea.eq_of_depth hl he.ge, heb.eq_of_depth hl (he.trans hd).ge]
    exact h.lowest e ((ancestor_up ha hlt).1 hea) ((ancestor_up hb (hd ▸ hlt)).1 heb)

end Levels

end RootedTree
