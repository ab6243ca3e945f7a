import Mathlib.Data.List.Nodup
import Mathlib.Tactic

/-! Red-black trees and the paths to a place in them. A path is the list of frames from the place
up to the root, and what holds of a whole tree splits into what holds of the path and of the
subtree at its end. -/
namespace RedBlack

inductive Side where
  | left | right
  deriving DecidableEq

def Side.other : Side → Side
  | .left => .right
  | .right => .left

@[simp] theorem Side.other_other (d : Side) : d.other.other = d := by cases d <;> rfl

theorem Side.ne_other (d : Side) : d ≠ d.other := by cases d <;> simp [other]

theorem Side.eq_other_of_ne {d e : Side} (h : d ≠ e) : d = e.other := by
  cases d <;> cases e <;> simp_all [other]

inductive Shape (α : Type*) where
  | nil
  | node (red : Bool) (l : Shape α) (x : α) (r : Shape α)

/-- A node above an open place on side `side`. -/
structure Frame (α : Type*) where
  side : Side
  red : Bool
  elem : α
  sibling : Shape α

variable {α : Type*}

namespace Shape

def red : Shape α → Bool
  | nil => false
  | node c _ _ _ => c

def inorder : Shape α → List α
  | nil => []
  | node _ l x r => l.inorder ++ x :: r.inorder

/-- A node with the subtree `near` on side `d`. -/
def link (d : Side) (c : Bool) (near : Shape α) (x : α) (far : Shape α) : Shape α :=
  match d with
  | .left => node c near x far
  | .right => node c far x near

@[simp] theorem red_nil : (nil : Shape α).red = false := rfl

@[simp] theorem red_node (c : Bool) (l : Shape α) (x : α) (r : Shape α) : (node c l x r).red = c := rfl

@[simp] theorem inorder_nil : (nil : Shape α).inorder = [] := rfl

@[simp] theorem inorder_node (c : Bool) (l : Shape α) (x : α) (r : Shape α) :
    (node c l x r).inorder = l.inorder ++ x :: r.inorder := rfl

@[simp] theorem red_link (d : Side) (c : Bool) (a : Shape α) (x : α) (b : Shape α) :
    (link d c a x b).red = c := by cases d <;> rfl

theorem link_other (d : Side) (c : Bool) (a : Shape α) (x : α) (b : Shape α) :
    link d.other c a x b = link d c b x a := by cases d <;> rfl

theorem exists_link (d : Side) (c : Bool) (l : Shape α) (x : α) (r : Shape α) :
    ∃ a b, node c l x r = link d c a x b := by
  cases d with
  | left => exact ⟨l, r, rfl⟩
  | right => exact ⟨r, l, rfl⟩

theorem exists_of_red {t : Shape α} (h : t.red = true) : ∃ l x r, t = node true l x r := by
  cases t with
  | nil => exact absurd h (by simp)
  | node c l x r =>
    obtain rfl : c = true := h
    exact ⟨l, x, r, rfl⟩

theorem mem_link {d : Side} {c : Bool} {a b : Shape α} {x y : α} :
    y ∈ (link d c a x b).inorder ↔ y = x ∨ y ∈ a.inorder ∨ y ∈ b.inorder := by
  cases d <;> simp only [link, inorder_node, List.mem_append, List.mem_cons] <;> tauto

theorem inorder_link_congr {d : Side} {c c' : Bool} {a a' b b' : Shape α} {x : α}
    (ha : a.inorder = a'.inorder) (hb : b.inorder = b'.inorder) :
    (link d c a x b).inorder = (link d c' a' x b').inorder := by
  cases d <;> simp only [link, inorder_node, ha, hb]

theorem inorder_recolour (d : Side) (c c' : Bool) (a : Shape α) (x : α) (b : Shape α) :
    (link d c a x b).inorder = (link d c' a x b).inorder := inorder_link_congr rfl rfl

theorem inorder_rotate (d : Side) (c c' e e' : Bool) (a m b : Shape α) (x y : α) :
    (link d e (link d c a x m) y b).inorder = (link d c' a x (link d e' m y b)).inorder := by
  cases d <;> simp [link]

/-! ## Balance and colours -/

def grow (c : Bool) (n : ℕ) : ℕ := if c then n else n + 1

/-- Every path down to a leaf has `n` black nodes. -/
def Balanced : Shape α → ℕ → Prop
  | nil, n => n = 0
  | node c l _ r, n => ∃ m, n = grow c m ∧ l.Balanced m ∧ r.Balanced m

/-- No red node has a red child. -/
def Calm : Shape α → Prop
  | nil => True
  | node c l _ r => (c = true → l.red = false ∧ r.red = false) ∧ l.Calm ∧ r.Calm

theorem balanced_link {d : Side} {c : Bool} {a b : Shape α} {x : α} {n : ℕ} :
    (link d c a x b).Balanced n ↔ ∃ m, n = grow c m ∧ a.Balanced m ∧ b.Balanced m := by
  cases d with
  | left => rfl
  | right =>
    simp only [link, Balanced]
    exact exists_congr fun m => by tauto

theorem calm_link {d : Side} {c : Bool} {a b : Shape α} {x : α} :
    (link d c a x b).Calm ↔
      (c = true → a.red = false ∧ b.red = false) ∧ a.Calm ∧ b.Calm := by
  cases d with
  | left => rfl
  | right =>
    simp only [link, Calm]
    tauto

theorem Balanced.exists_node {t : Shape α} {n : ℕ} (h : t.Balanced n) (hn : n ≠ 0) :
    ∃ c l x r, t = node c l x r := by
  cases t with
  | nil => exact absurd h hn
  | node c l x r => exact ⟨c, l, x, r, rfl⟩

def blacken : Shape α → Shape α
  | nil => nil
  | node _ l x r => node false l x r

@[simp] theorem red_blacken (t : Shape α) : t.blacken.red = false := by cases t <;> rfl

@[simp] theorem inorder_blacken (t : Shape α) : t.blacken.inorder = t.inorder := by cases t <;> rfl

theorem blacken_link (d : Side) (c : Bool) (a : Shape α) (x : α) (b : Shape α) :
    (link d c a x b).blacken = link d false a x b := by cases d <;> rfl

theorem blacken_of_black {t : Shape α} (h : t.red = false) : t.blacken = t := by
  cases t with
  | nil => rfl
  | node c l x r => exact congrArg (node · l x r) h.symm

theorem Calm.blacken {t : Shape α} (h : t.Calm) : t.blacken.Calm := by
  cases t with
  | nil => trivial
  | node c l x r => exact ⟨by simp, h.2⟩

theorem Balanced.blacken {t : Shape α} {n : ℕ} (h : t.Balanced n) (hred : t.red = true) :
    t.blacken.Balanced (n + 1) := by
  obtain ⟨l, x, r, rfl⟩ := exists_of_red hred
  obtain ⟨_, rfl, hl, hr⟩ := h
  exact ⟨n, rfl, hl, hr⟩

/-- A red-black tree. -/
structure Valid (t : Shape α) : Prop where
  black : t.red = false
  calm : t.Calm
  balanced : ∃ n, t.Balanced n

end Shape

open Shape

/-! ## Paths -/

def Frame.fill (f : Frame α) (t : Shape α) : Shape α := Shape.link f.side f.red t f.elem f.sibling

/-- The whole tree with `t` at the end of the path. -/
def plug : List (Frame α) → Shape α → Shape α
  | [], t => t
  | f :: k, t => plug k (f.fill t)

def headRed : List (Frame α) → Bool
  | [] => false
  | f :: _ => f.red

def rootRed : List (Frame α) → Bool
  | [] => false
  | [f] => f.red
  | _ :: f :: k => rootRed (f :: k)

/-- A subtree with `n` black nodes makes a whole tree with `m`. -/
def Fits : List (Frame α) → ℕ → ℕ → Prop
  | [], n, m => n = m
  | f :: k, n, m => f.sibling.Balanced n ∧ Fits k (grow f.red n) m

/-- No red node on the path has a red parent or a red child beside the path. -/
def CalmPath : List (Frame α) → Prop
  | [] => True
  | f :: k => (f.red = true → f.sibling.red = false ∧ headRed k = false) ∧ f.sibling.Calm ∧
      CalmPath k

def before : List (Frame α) → List α
  | [] => []
  | f :: k => before k ++ match f.side with
    | .left => []
    | .right => f.sibling.inorder ++ [f.elem]

def after : List (Frame α) → List α
  | [] => []
  | f :: k => (match f.side with
    | .left => f.elem :: f.sibling.inorder
    | .right => []) ++ after k

theorem inorder_plug (k : List (Frame α)) (t : Shape α) :
    (plug k t).inorder = before k ++ t.inorder ++ after k := by
  induction k generalizing t with
  | nil => simp [plug, before, after]
  | cons f k ih =>
    rw [plug, ih, Frame.fill, before, after]
    cases f.side <;> simp [Shape.link]

theorem plug_append (k k' : List (Frame α)) (t : Shape α) :
    plug (k ++ k') t = plug k' (plug k t) := by
  induction k generalizing t with
  | nil => rfl
  | cons f k ih => exact ih _

theorem mem_plug {k : List (Frame α)} {t : Shape α} {x : α} :
    x ∈ (plug k t).inorder ↔ x ∈ before k ++ after k ∨ x ∈ t.inorder := by
  rw [inorder_plug]
  simp only [List.mem_append]
  tauto

/-- Each element is at the end of a path. -/
theorem exists_plug {t : Shape α} {x : α} (h : x ∈ t.inorder) :
    ∃ k c l r, t = plug k (.node c l x r) := by
  induction t with
  | nil => exact absurd h (by simp)
  | node c l y r ihl ihr =>
    rw [inorder_node, List.mem_append, List.mem_cons] at h
    rcases h with h | rfl | h
    · obtain ⟨k, c', l', r', heq⟩ := ihl h
      refine ⟨k ++ [⟨.left, c, y, r⟩], c', l', r', ?_⟩
      rw [plug_append, ← heq]
      rfl
    · exact ⟨[], c, l, r, rfl⟩
    · obtain ⟨k, c', l', r', heq⟩ := ihr h
      refine ⟨k ++ [⟨.right, c, y, l⟩], c', l', r', ?_⟩
      rw [plug_append, ← heq]
      rfl

theorem elem_mem_plug (f : Frame α) (k : List (Frame α)) (t : Shape α) :
    f.elem ∈ (plug (f :: k) t).inorder := by
  rw [mem_plug, before, after]
  cases f.side <;> simp

theorem plug_turn (f : Frame α) (k : List (Frame α)) (t : Shape α) :
    plug (f :: k) t = plug (⟨f.side.other, f.red, f.elem, t⟩ :: k) f.sibling := by
  simp only [plug, Frame.fill, Shape.link_other]

theorem inorder_plug_congr (k : List (Frame α)) {t t' : Shape α} (h : t.inorder = t'.inorder) :
    (plug k t).inorder = (plug k t').inorder := by
  rw [inorder_plug, inorder_plug, h]

theorem before_append (k k' : List (Frame α)) : before (k ++ k') = before k' ++ before k := by
  induction k with
  | nil => simp [before]
  | cons f k ih => simp [before, ih]

theorem length_path (k : List (Frame α)) : k.length ≤ (before k).length + (after k).length := by
  induction k with
  | nil => exact Nat.zero_le _
  | cons f k ih =>
    rw [before, after]
    cases f.side <;> simp <;> omega

theorem balanced_plug {k : List (Frame α)} {t : Shape α} {m : ℕ} :
    (plug k t).Balanced m ↔ ∃ n, t.Balanced n ∧ Fits k n m := by
  induction k generalizing t with
  | nil => simp [plug, Fits]
  | cons f k ih =>
    simp only [plug, ih, Frame.fill, balanced_link, Fits]
    constructor
    · rintro ⟨n, ⟨l, rfl, ht, hs⟩, hk⟩
      exact ⟨l, ht, hs, hk⟩
    · rintro ⟨l, ht, hs, hk⟩
      exact ⟨_, ⟨l, rfl, ht, hs⟩, hk⟩

theorem calm_plug {k : List (Frame α)} {t : Shape α} :
    (plug k t).Calm ↔ t.Calm ∧ CalmPath k ∧ (t.red = true → headRed k = false) := by
  induction k generalizing t with
  | nil => simp [plug, CalmPath, headRed]
  | cons f k ih =>
    simp only [plug, ih, Frame.fill, calm_link, red_link, CalmPath, headRed]
    cases ht : t.red <;> cases hf : f.red <;> simp <;> tauto

theorem red_plug (f : Frame α) (k : List (Frame α)) (t : Shape α) :
    (plug (f :: k) t).red = rootRed (f :: k) := by
  induction k generalizing f t with
  | nil => simp [plug, Frame.fill, rootRed]
  | cons g k ih => exact ih g _

theorem black_plug {k : List (Frame α)} {t : Shape α} (hk : rootRed k = false)
    (ht : t.red = false) : (plug k t).red = false := by
  cases k with
  | nil => exact ht
  | cons f k => rwa [red_plug]

theorem exists_grandparent {f : Frame α} {k : List (Frame α)} (hroot : rootRed (f :: k) = false)
    (hcalm : CalmPath (f :: k)) (hf : f.red = true) : ∃ g k', k = g :: k' ∧ g.red = false := by
  cases k with
  | nil => exact absurd (hf.symm.trans hroot) (by simp)
  | cons g k' => exact ⟨g, k', rfl, (hcalm.1 hf).2⟩

theorem rootRed_tail {f : Frame α} {k : List (Frame α)} (h : rootRed (f :: k) = false) :
    rootRed k = false := by
  cases k with
  | nil => rfl
  | cons g k' => exact h

/-! ## Taking an element out -/

def Frame.relabel (f : Frame α) (x : α) : Frame α := { f with elem := x }

section Relabel

variable (k k' : List (Frame α)) (f : Frame α) (x : α)

theorem headRed_relabel : headRed (k' ++ f.relabel x :: k) = headRed (k' ++ f :: k) := by
  cases k' <;> rfl

theorem rootRed_relabel : rootRed (k' ++ f.relabel x :: k) = rootRed (k' ++ f :: k) := by
  induction k' with
  | nil => cases k <;> rfl
  | cons g k' ih => cases k' <;> exact ih

theorem calmPath_relabel : CalmPath (k' ++ f.relabel x :: k) ↔ CalmPath (k' ++ f :: k) := by
  induction k' with
  | nil => rfl
  | cons g k' ih => simp only [List.cons_append, CalmPath, headRed_relabel, ih]

theorem fits_relabel (n m : ℕ) : Fits (k' ++ f.relabel x :: k) n m ↔ Fits (k' ++ f :: k) n m := by
  induction k' generalizing n with
  | nil => rfl
  | cons g k' ih => simp only [List.cons_append, Fits, ih]

theorem valid_relabel (t : Shape α) :
    (plug (k' ++ f.relabel x :: k) t).Valid ↔ (plug (k' ++ f :: k) t).Valid := by
  have hred (g : Frame α) : (plug (k' ++ g :: k) t).red = rootRed (k' ++ g :: k) := by
    cases k' <;> exact red_plug _ _ _
  constructor
  · rintro ⟨hblack, hcalm, hbal⟩
    rw [hred, rootRed_relabel, ← hred] at hblack
    rw [calm_plug, calmPath_relabel, headRed_relabel, ← calm_plug] at hcalm
    simp only [balanced_plug, fits_relabel] at hbal
    exact ⟨hblack, hcalm, by simpa only [balanced_plug] using hbal⟩
  · rintro ⟨hblack, hcalm, hbal⟩
    rw [hred, ← rootRed_relabel (x := x), ← hred] at hblack
    rw [calm_plug, ← calmPath_relabel (x := x), ← headRed_relabel (x := x), ← calm_plug] at hcalm
    simp only [balanced_plug] at hbal
    exact ⟨hblack, hcalm, by simpa only [balanced_plug, fits_relabel] using hbal⟩

end Relabel

end RedBlack
