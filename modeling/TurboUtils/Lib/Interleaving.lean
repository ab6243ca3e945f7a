import Mathlib.Logic.Function.Basic
import Mathlib.Tactic

/-! Threads over one shared state, in any interleaving. A step is one atomic section: it changes the
shared state and may put calls on the stack of its thread. A thread works off its calls first and
then goes on from its point, if it has one; a thread that has neither may begin something. Labels
resolve what the code leaves open. -/
namespace Interleaving

/-- The calls that a thread has still to work off, and where it goes on after them. -/
structure Thread (C P : Type) where
  calls : List C
  point : Option P

/-- What a section leads to: the shared state, the calls it makes, and the point it goes on from. -/
structure Outcome (S C P : Type) where
  shared : S
  calls : List C
  point : Option P

/-- What the threads run; `none` where a section is not possible, or blocked. -/
structure Program (S C P L : Type) where
  call : ℕ → C → L → S → Option (S × List C)
  resume : ℕ → P → L → S → Option (Outcome S C P)
  start : ℕ → L → S → Option (Outcome S C P)

structure State (S C P : Type) where
  shared : S
  threads : ℕ → Thread C P

variable {S C P L : Type}

def State.put (s : State S C P) (t : ℕ) (shared : S) (thread : Thread C P) : State S C P :=
  ⟨shared, Function.update s.threads t thread⟩

theorem put_self {s : State S C P} {t : ℕ} {shared : S} {thread : Thread C P} :
    (s.put t shared thread).threads t = thread := Function.update_self ..

theorem put_other {s : State S C P} {t u : ℕ} {shared : S} {thread : Thread C P} (h : u ≠ t) :
    (s.put t shared thread).threads u = s.threads u := Function.update_of_ne h ..

variable (p : Program S C P L)

/-- One step of a thread. -/
def step (s : State S C P) (t : ℕ) (l : L) : Option (State S C P) :=
  match s.threads t with
  | ⟨c :: calls, point⟩ =>
      (p.call t c l s.shared).map fun r => s.put t r.1 ⟨r.2 ++ calls, point⟩
  | ⟨[], some point⟩ =>
      (p.resume t point l s.shared).map fun r => s.put t r.shared ⟨r.calls, r.point⟩
  | ⟨[], none⟩ =>
      (p.start t l s.shared).map fun r => s.put t r.shared ⟨r.calls, r.point⟩

def run (s : State S C P) : List (ℕ × L) → Option (State S C P)
  | [] => some s
  | (t, l) :: schedule => (step p s t l).bind fun s' => run s' schedule

inductive Section (t : ℕ) (l : L) (s : S) : Thread C P → S → Thread C P → Prop
  | call {c calls point s' pushed} (h : p.call t c l s = some (s', pushed)) :
      Section t l s ⟨c :: calls, point⟩ s' ⟨pushed ++ calls, point⟩
  | resume {point r} (h : p.resume t point l s = some r) :
      Section t l s ⟨[], some point⟩ r.shared ⟨r.calls, r.point⟩
  | start {r} (h : p.start t l s = some r) :
      Section t l s ⟨[], none⟩ r.shared ⟨r.calls, r.point⟩

theorem step_section {s s' : State S C P} {t : ℕ} {l : L} (h : step p s t l = some s') :
    ∃ shared thread, Section p t l s.shared (s.threads t) shared thread ∧
      s' = s.put t shared thread := by
  unfold step at h
  split at h
  · rename_i ht
    obtain ⟨r, hr, rfl⟩ := Option.map_eq_some_iff.1 h
    exact ⟨_, _, ht ▸ .call hr, rfl⟩
  · rename_i ht
    obtain ⟨r, hr, rfl⟩ := Option.map_eq_some_iff.1 h
    exact ⟨_, _, ht ▸ .resume hr, rfl⟩
  · rename_i ht
    obtain ⟨r, hr, rfl⟩ := Option.map_eq_some_iff.1 h
    exact ⟨_, _, ht ▸ .start hr, rfl⟩

theorem step_call {s : State S C P} {t : ℕ} {l : L} {c : C} {calls pushed : List C}
    {point : Option P} {s' : S} (ht : s.threads t = ⟨c :: calls, point⟩)
    (h : p.call t c l s.shared = some (s', pushed)) :
    step p s t l = some (s.put t s' ⟨pushed ++ calls, point⟩) := by
  unfold step
  rw [ht]
  exact congrArg (Option.map _) h

/-! ## Conditions on steps -/

/-- A condition on sections of calls and on sections at points, with the state before them. -/
structure Condition (S C P L : Type) where
  call : ℕ → C → L → S → Prop
  resume : ℕ → P → L → S → Prop

def Condition.always : Condition S C P L := ⟨fun _ _ _ _ => True, fun _ _ _ _ => True⟩

variable (k : Condition S C P L)

/-- The section that the thread would run next meets the condition. -/
def Condition.Meets (t : ℕ) (l : L) (s : S) : Thread C P → Prop
  | ⟨c :: _, _⟩ => k.call t c l s
  | ⟨[], some point⟩ => k.resume t point l s
  | ⟨[], none⟩ => True

def RunMeets : State S C P → List (ℕ × L) → Prop
  | _, [] => True
  | s, (t, l) :: schedule =>
      k.Meets t l s.shared (s.threads t) ∧
        ∀ s', step p s t l = some s' → RunMeets s' schedule

theorem always_meets (t : ℕ) (l : L) (s : S) (thread : Thread C P) :
    Condition.always.Meets t l s thread := by
  unfold Condition.Meets
  split <;> trivial

theorem runMeets_always {schedule : List (ℕ × L)} {s : State S C P} :
    RunMeets p Condition.always s schedule := by
  induction schedule generalizing s with
  | nil => trivial
  | cons x schedule ih => exact ⟨always_meets x.1 x.2 _ _, fun _ _ => ih⟩

instance [∀ t c l s, Decidable (k.call t c l s)] [∀ t point l s, Decidable (k.resume t point l s)]
    (t : ℕ) (l : L) (s : S) : ∀ thread : Thread C P, Decidable (k.Meets t l s thread)
  | ⟨c :: _, _⟩ => inferInstanceAs (Decidable (k.call t c l s))
  | ⟨[], some point⟩ => inferInstanceAs (Decidable (k.resume t point l s))
  | ⟨[], none⟩ => isTrue trivial

instance decidableRunMeets [∀ t c l s, Decidable (k.call t c l s)]
    [∀ t point l s, Decidable (k.resume t point l s)] :
    ∀ (schedule : List (ℕ × L)) (s : State S C P), Decidable (RunMeets p k s schedule)
  | [], _ => isTrue trivial
  | (t, l) :: schedule, s =>
      match h : step p s t l with
      | none => decidable_of_iff (k.Meets t l s.shared (s.threads t))
          ⟨fun hm => ⟨hm, fun s' hs' => by rw [h] at hs'; cases hs'⟩, And.left⟩
      | some s' =>
          have := decidableRunMeets schedule s'
          decidable_of_iff (k.Meets t l s.shared (s.threads t) ∧ RunMeets p k s' schedule)
            ⟨fun hm => ⟨hm.1, fun s'' hs'' => by rw [h] at hs''; cases hs''; exact hm.2⟩,
              fun hm => ⟨hm.1, hm.2 s' h⟩⟩

def Condition.withLabels (A : L → Prop) : Condition S C P L :=
  ⟨fun t c l s => A l ∧ k.call t c l s, fun t point l s => A l ∧ k.resume t point l s⟩

variable {p k}

theorem runMeets_withLabels {A : L → Prop} :
    ∀ {schedule : List (ℕ × L)} {s : State S C P}, (∀ x ∈ schedule, A x.2) →
      RunMeets p k s schedule → RunMeets p (k.withLabels A) s schedule
  | [], _, _, _ => trivial
  | (t, l) :: schedule, s, hl, h => by
    refine ⟨?_, fun s' hs' => runMeets_withLabels (fun x hx => hl x (List.mem_cons_of_mem _ hx))
      (h.2 s' hs')⟩
    have hfirst := h.1
    unfold Condition.Meets at hfirst ⊢
    split
    · rename_i ht
      rw [ht] at hfirst
      exact ⟨hl (t, l) List.mem_cons_self, hfirst⟩
    · rename_i ht
      rw [ht] at hfirst
      exact ⟨hl (t, l) List.mem_cons_self, hfirst⟩
    · trivial

theorem run_keeps {Q : State S C P → Prop}
    (hstep : ∀ s t l s', Q s → k.Meets t l s.shared (s.threads t) → step p s t l = some s' → Q s') :
    ∀ {schedule : List (ℕ × L)} {s s' : State S C P}, Q s → RunMeets p k s schedule →
      run p s schedule = some s' → Q s'
  | [], s, s', hs, _, h => by
    cases h
    exact hs
  | (t, l) :: schedule, s, s', hs, hm, h => by
    obtain ⟨mid, hmid, hrest⟩ := Option.bind_eq_some_iff.1 h
    exact run_keeps hstep (hstep s t l mid hs hm.1 hmid) (hm.2 mid hmid) hrest

theorem run_append {a b : List (ℕ × L)} {s : State S C P} :
    run p s (a ++ b) = (run p s a).bind fun s' => run p s' b := by
  induction a generalizing s with
  | nil => rfl
  | cons x a ih =>
    obtain ⟨t, l⟩ := x
    rw [List.cons_append, run, run, Option.bind_assoc]
    congr 1
    funext s'
    exact ih

/-! ## Invariants of threads -/

/-- Every thread is as it should be, given what is shared. -/
def Everywhere (T : ℕ → S → Thread C P → Prop) (s : State S C P) : Prop :=
  ∀ t, T t s.shared (s.threads t)

theorem step_everywhere {T : ℕ → S → Thread C P → Prop}
    (hself : ∀ {t l s s' thread thread'}, T t s thread → k.Meets t l s thread →
      Section p t l s thread s' thread' → T t s' thread')
    (hother : ∀ {t l s s' thread thread'}, T t s thread → k.Meets t l s thread →
      Section p t l s thread s' thread' → ∀ u ≠ t, ∀ other, T u s other → T u s' other)
    {s s' : State S C P} {t : ℕ} {l : L} (hs : Everywhere T s)
    (hm : k.Meets t l s.shared (s.threads t)) (h : step p s t l = some s') : Everywhere T s' := by
  obtain ⟨shared, thread, hsection, rfl⟩ := step_section p h
  intro u
  by_cases hu : u = t
  · subst hu
    rw [put_self]
    exact hself (hs u) hm hsection
  · rw [put_other hu]
    exact hother (hs t) hm hsection u hu _ (hs u)

theorem run_everywhere {T : ℕ → S → Thread C P → Prop}
    (hself : ∀ {t l s s' thread thread'}, T t s thread → k.Meets t l s thread →
      Section p t l s thread s' thread' → T t s' thread')
    (hother : ∀ {t l s s' thread thread'}, T t s thread → k.Meets t l s thread →
      Section p t l s thread s' thread' → ∀ u ≠ t, ∀ other, T u s other → T u s' other)
    {schedule : List (ℕ × L)} {s s' : State S C P} (hs : Everywhere T s)
    (hm : RunMeets p k s schedule) (h : run p s schedule = some s') : Everywhere T s' :=
  run_keeps (fun _ _ _ _ hs hm hstep => step_everywhere hself hother hs hm hstep) hs hm h

end Interleaving
