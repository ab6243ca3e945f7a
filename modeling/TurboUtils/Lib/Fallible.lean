import Mathlib.Data.List.Basic
import Mathlib.Tactic

/-! Computations that stop at the first error: what their success says about the steps. -/
namespace Fallible

universe u

variable {ε : Type*} {α : Type*} {β γ : Type u}

theorem bind_eq_ok {x : Except ε β} {f : β → Except ε γ} {c : γ} :
    (x >>= f) = .ok c ↔ ∃ b, x = .ok b ∧ f b = .ok c := by
  cases x with
  | error e => simp [bind, Except.bind]
  | ok b => simp [bind, Except.bind]

theorem map_eq_ok {x : Except ε β} {f : β → γ} {c : γ} :
    x.map f = .ok c ↔ ∃ b, x = .ok b ∧ f b = c := by
  cases x with
  | error e => simp [Except.map]
  | ok b => simp [Except.map]

theorem forM_eq_ok {f : α → Except ε PUnit} {l : List α} :
    l.forM f = .ok ⟨⟩ ↔ ∀ a ∈ l, f a = .ok ⟨⟩ := by
  induction l with
  | nil => simp [pure, Except.pure, List.forM]
  | cons a l ih =>
    have hcons : (a :: l).forM f = (f a >>= fun _ => l.forM f) := rfl
    rw [hcons, bind_eq_ok, List.forall_mem_cons, ← ih]
    exact ⟨fun ⟨_, h⟩ => h, fun h => ⟨_, h⟩⟩

theorem mapM_forall₂ {α' : Type u} {f : α' → Except ε β} {R : α' → β → Prop}
    (hf : ∀ a b, f a = .ok b → R a b) {l : List α'} {l' : List β} (h : l.mapM f = .ok l') :
    List.Forall₂ R l l' := by
  induction l generalizing l' with
  | nil =>
    cases h
    exact .nil
  | cons a l ih =>
    rw [List.mapM_cons] at h
    obtain ⟨b, hb, h⟩ := bind_eq_ok.1 h
    obtain ⟨rest, hrest, h⟩ := bind_eq_ok.1 h
    cases h
    exact .cons (hf a b hb) (ih hrest)

section Folds

variable {f : β → α → Except ε β} {l : List α} {b b' : β}

theorem foldlM_cons_ok {a : α} :
    (a :: l).foldlM f b = .ok b' ↔ ∃ c, f b a = .ok c ∧ l.foldlM f c = .ok b' := by
  rw [List.foldlM_cons, bind_eq_ok]

theorem foldlM_keeps {P : β → Prop} (hstep : ∀ b, ∀ a ∈ l, ∀ c, P b → f b a = .ok c → P c)
    (hb : P b) (h : l.foldlM f b = .ok b') : P b' := by
  induction l generalizing b with
  | nil =>
    cases h
    exact hb
  | cons a l ih =>
    obtain ⟨c, hc, hrest⟩ := foldlM_cons_ok.1 h
    exact ih (fun b a ha => hstep b a (List.mem_cons_of_mem _ ha))
      (hstep b a List.mem_cons_self c hb hc) hrest

theorem foldlM_step {a : α} (ha : a ∈ l) (h : l.foldlM f b = .ok b') :
    ∃ b c, f b a = .ok c := by
  induction l generalizing b with
  | nil => cases ha
  | cons x l ih =>
    obtain ⟨c, hc, hrest⟩ := foldlM_cons_ok.1 h
    rcases List.mem_cons.1 ha with rfl | ha
    · exact ⟨b, c, hc⟩
    · exact ih ha hrest

theorem foldlM_exists {P : β → Prop} {Q : α → Prop}
    (hstep : ∀ b, ∀ a ∈ l, ∀ c, f b a = .ok c → (P c ↔ P b ∨ Q a))
    (h : l.foldlM f b = .ok b') : P b' ↔ P b ∨ ∃ a ∈ l, Q a := by
  induction l generalizing b with
  | nil =>
    cases h
    simp
  | cons a l ih =>
    obtain ⟨c, hc, hrest⟩ := foldlM_cons_ok.1 h
    rw [ih (fun b a ha => hstep b a (List.mem_cons_of_mem _ ha)) hrest,
      hstep b a List.mem_cons_self c hc, List.exists_mem_cons_iff, or_assoc]

end Folds

theorem foldlM_append {f : List β → α → Except ε (List β)} {g : α → List β}
    (hf : ∀ rows a rows', f rows a = .ok rows' → rows' = rows ++ g a) {l : List α}
    {rows rows' : List β} (h : l.foldlM f rows = .ok rows') : rows' = rows ++ l.flatMap g := by
  induction l generalizing rows with
  | nil =>
    cases h
    simp
  | cons a l ih =>
    obtain ⟨mid, hmid, hrest⟩ := foldlM_cons_ok.1 h
    rw [ih hrest, hf _ _ _ hmid, List.flatMap_cons, List.append_assoc]

theorem foldlM_add {f : ℕ → α → Except ε ℕ} {g : α → ℕ}
    (hf : ∀ n a n', f n a = .ok n' → n' = n + g a) {l : List α} {n n' : ℕ}
    (h : l.foldlM f n = .ok n') : n' = n + (l.map g).sum := by
  induction l generalizing n with
  | nil =>
    cases h
    simp
  | cons a l ih =>
    obtain ⟨mid, hmid, hrest⟩ := foldlM_cons_ok.1 h
    rw [ih hrest, hf _ _ _ hmid, List.map_cons, List.sum_cons, Nat.add_assoc]

end Fallible
