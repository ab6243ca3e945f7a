import Mathlib.Data.List.Basic
import Mathlib.Data.List.Nodup
import Mathlib.Logic.Relation
import Mathlib.Tactic

/-! Walks along a partial successor function, to where it stops. -/
namespace SuccessorWalk

variable {α : Type*} (next : α → Option α)

/-- Each member leads to the one behind it, and the last one leads nowhere. -/
def IsWalk : List α → Prop
  | [] => False
  | [a] => next a = none
  | a :: b :: rest => next a = some b ∧ IsWalk (b :: rest)

def steps (walk : List α) : List (α × α) := walk.zip walk.tail

variable {next} {a b : α} {walk walk' rest : List α}

/-- A walk is determined by where it starts. -/
theorem IsWalk.unique (h : IsWalk next walk) (h' : IsWalk next walk')
    (hhead : walk.head? = walk'.head?) : walk = walk' := by
  induction walk generalizing walk' with
  | nil => exact h.elim
  | cons a rest ih =>
    cases walk' with
    | nil => exact h'.elim
    | cons a' rest' =>
      obtain rfl : a = a' := Option.some.inj hhead
      cases rest with
      | nil =>
        cases rest' with
        | nil => rfl
        | cons b rest' => exact absurd (h.symm.trans h'.1) (by simp)
      | cons b rest =>
        cases rest' with
        | nil => exact absurd (h'.symm.trans h.1) (by simp)
        | cons b' rest' =>
          have hnext : b = b' := Option.some.inj (h.1.symm.trans h'.1)
          rw [ih h.2 h'.2 (congrArg some hnext)]

theorem IsWalk.suffix {front : List α} (h : IsWalk next (front ++ a :: rest)) :
    IsWalk next (a :: rest) := by
  induction front with
  | nil => exact h
  | cons b front ih =>
    cases front with
    | nil => exact h.2
    | cons c front => exact ih h.2

theorem IsWalk.nodup (h : IsWalk next walk) : walk.Nodup := by
  induction walk with
  | nil => exact List.nodup_nil
  | cons a rest ih =>
    have htail : rest.Nodup := by
      cases rest with
      | nil => exact List.nodup_nil
      | cons b rest => exact ih h.2
    refine List.nodup_cons.2 ⟨fun ha => ?_, htail⟩
    obtain ⟨front, back, rfl⟩ := List.append_of_mem ha
    have hback : IsWalk next (a :: back) := (show IsWalk next ((a :: front) ++ a :: back) from h).suffix
    have hlength := congrArg List.length (h.unique hback rfl)
    simp only [List.length_cons, List.length_append] at hlength
    omega

theorem IsWalk.mem_steps (h : IsWalk next walk) :
    (a, b) ∈ steps walk ↔ a ∈ walk ∧ next a = some b := by
  induction walk with
  | nil => exact h.elim
  | cons c rest ih =>
    cases rest with
    | nil =>
      have hnone : next c = none := h
      constructor
      · intro hmem
        cases hmem
      · rintro ⟨hmem, hnext⟩
        rw [List.mem_singleton.1 hmem, hnone] at hnext
        cases hnext
    | cons d rest =>
      have hsteps : steps (c :: d :: rest) = (c, d) :: steps (d :: rest) := rfl
      rw [hsteps, List.mem_cons, ih h.2]
      constructor
      · rintro (heq | ⟨hmem, hnext⟩)
        · cases heq
          exact ⟨List.mem_cons_self, h.1⟩
        · exact ⟨List.mem_cons_of_mem _ hmem, hnext⟩
      · rintro ⟨hmem, hnext⟩
        rcases List.mem_cons.1 hmem with rfl | hmem
        · rw [h.1] at hnext
          cases hnext
          exact .inl rfl
        · exact .inr ⟨hmem, hnext⟩

theorem IsWalk.getLast?_eq (h : IsWalk next walk) (ha : a ∈ walk) (hnext : next a = none) :
    walk.getLast? = some a := by
  induction walk with
  | nil => exact h.elim
  | cons c rest ih =>
    cases rest with
    | nil =>
      rw [List.mem_singleton.1 ha]
      rfl
    | cons d rest =>
      rw [List.getLast?_cons_cons]
      rcases List.mem_cons.1 ha with rfl | ha
      · rw [h.1] at hnext
        cases hnext
      · exact ih h.2 ha

theorem isWalk_of_steps (hsteps : ∀ a b, (a, b) ∈ steps walk → next a = some b)
    (hlast : walk.getLast? = some a) (ha : next a = none) : IsWalk next walk := by
  induction walk with
  | nil => cases hlast
  | cons c rest ih =>
    cases rest with
    | nil =>
      cases hlast
      exact ha
    | cons d rest =>
      rw [List.getLast?_cons_cons] at hlast
      refine ⟨hsteps c d List.mem_cons_self, ih (fun a b hab => ?_) hlast⟩
      exact hsteps a b (List.mem_cons_of_mem (c, d) hab)

theorem steps_nodup (h : walk.Nodup) : (steps walk).Nodup := by
  induction walk with
  | nil => exact List.nodup_nil
  | cons a rest ih =>
    cases rest with
    | nil => exact List.nodup_nil
    | cons b rest =>
      have htail := List.nodup_cons.1 h
      exact List.nodup_cons.2 ⟨fun hmem => htail.1 (List.of_mem_zip hmem).1, ih htail.2⟩

end SuccessorWalk

/-! Depth-first visits of a graph, which fail where they meet a name that is still open. -/
namespace DepthFirst

variable {ν : Type*} (refs : ν → List ν)

/-- The name on the left is one that the name on the right refers to. -/
def Below (t s : ν) : Prop := t ∈ refs s

def visits : ℕ → ν → Option ℕ
  | 0, _ => none
  | depth + 1, s => (refs s).foldlM (fun total t => (visits depth t).map (total + ·)) 1

variable {refs} {s : ν}

theorem foldlM_isSome {β : Type*} {f : β → ν → Option β} {l : List ν} {b : β}
    (hf : ∀ t ∈ l, ∀ b, (f b t).isSome) : (l.foldlM f b).isSome := by
  induction l generalizing b with
  | nil => rfl
  | cons t l ih =>
    obtain ⟨mid, hmid⟩ := Option.isSome_iff_exists.1 (hf t List.mem_cons_self b)
    rw [List.foldlM_cons, hmid]
    exact ih fun t ht => hf t (List.mem_cons_of_mem _ ht)

theorem foldlM_isSome_mem {β : Type*} {f : β → ν → Option β} {l : List ν} {b : β}
    (h : (l.foldlM f b).isSome) {t : ν} (ht : t ∈ l) : ∃ b, (f b t).isSome := by
  induction l generalizing b with
  | nil => cases ht
  | cons u l ih =>
    obtain ⟨c, hc⟩ := Option.isSome_iff_exists.1 h
    rw [List.foldlM_cons] at hc
    obtain ⟨mid, hmid, hrest⟩ := Option.bind_eq_some_iff.1 hc
    rcases List.mem_cons.1 ht with rfl | ht
    · exact ⟨b, Option.isSome_of_mem hmid⟩
    · exact ih (Option.isSome_of_mem hrest) ht

theorem visits_succ {depth : ℕ} : (visits refs (depth + 1) s).isSome ↔
    ∀ t ∈ refs s, (visits refs depth t).isSome := by
  rw [visits]
  constructor
  · intro h t ht
    obtain ⟨_, hsome⟩ := foldlM_isSome_mem h ht
    rwa [Option.isSome_map] at hsome
  · exact fun h => foldlM_isSome fun t ht _ => by rw [Option.isSome_map]; exact h t ht

theorem visits_mono {depth depth' : ℕ} (hle : depth ≤ depth')
    (h : (visits refs depth s).isSome) : (visits refs depth' s).isSome := by
  induction depth generalizing depth' s with
  | zero => cases h
  | succ depth ih =>
    obtain ⟨rest, rfl⟩ := Nat.exists_eq_add_of_le hle
    rw [Nat.add_right_comm, visits_succ]
    exact fun t ht => ih (Nat.le_add_right _ _) (visits_succ.1 h t ht)

/-- Finitely many nested visits are enough exactly where the references are well-founded. -/
theorem visits_isSome_iff : (∃ depth, (visits refs depth s).isSome) ↔ Acc (Below refs) s := by
  constructor
  · rintro ⟨depth, h⟩
    induction depth generalizing s with
    | zero => cases h
    | succ depth ih => exact Acc.intro _ fun t ht => ih (visits_succ.1 h t ht)
  · intro h
    induction h with
    | intro s _ ih =>
      have hdepth : ∀ l : List ν, (∀ t ∈ l, t ∈ refs s) →
          ∃ depth, ∀ t ∈ l, (visits refs depth t).isSome := by
        intro l hl
        induction l with
        | nil => exact ⟨0, fun _ ht => absurd ht List.not_mem_nil⟩
        | cons t l ihl =>
          obtain ⟨d, hd⟩ := ih t (hl t List.mem_cons_self)
          obtain ⟨d', hd'⟩ := ihl fun t ht => hl t (List.mem_cons_of_mem _ ht)
          exact ⟨max d d', List.forall_mem_cons.2 ⟨visits_mono (le_max_left _ _) hd,
            fun t ht => visits_mono (le_max_right _ _) (hd' t ht)⟩⟩
      obtain ⟨depth, hdepth⟩ := hdepth (refs s) fun _ ht => ht
      exact ⟨depth + 1, visits_succ.2 hdepth⟩

theorem not_transGen_of_acc {r : ν → ν → Prop} (h : Acc r s) : ¬Relation.TransGen r s s := by
  intro hcycle
  have hacc : Acc (Relation.TransGen r) s := h.transGen
  induction hacc with
  | intro s _ ih => exact ih s hcycle (h.inv_of_transGen hcycle) hcycle

variable (refs) [DecidableEq ν]

/-- Visits a name that is neither open nor done, and what it refers to before it is done. -/
def visit : ℕ → List ν → List ν → ν → Option (List ν)
  | 0, _, done, s => if s ∈ done then some done else none
  | depth + 1, opened, done, s =>
      if s ∈ done then some done
      else if s ∈ opened then none
      else ((refs s).foldlM (visit depth (s :: opened)) done).map (s :: ·)

def visitAll (names : List ν) : Option (List ν) :=
  names.foldlM (visit refs names.length []) []

variable {refs} {depth : ℕ} {opened done done' names : List ν}

section Sound

structure Adds (refs : ν → List ν) (done done' : List ν) : Prop where
  kept : done ⊆ done'
  acc : (∀ d ∈ done, Acc (Below refs) d) → ∀ d ∈ done', Acc (Below refs) d

omit [DecidableEq ν] in
theorem Adds.trans {done'' : List ν} (h : Adds refs done done') (h' : Adds refs done' done'') :
    Adds refs done done'' :=
  ⟨List.Subset.trans h.kept h'.kept, fun hdone => h'.acc (h.acc hdone)⟩

omit [DecidableEq ν] in
theorem foldlM_adds {f : List ν → ν → Option (List ν)} {l : List ν}
    (hf : ∀ t ∈ l, ∀ done done', f done t = some done' → Adds refs done done' ∧ t ∈ done')
    (h : l.foldlM f done = some done') : Adds refs done done' ∧ ∀ t ∈ l, t ∈ done' := by
  induction l generalizing done with
  | nil =>
    cases h
    exact ⟨⟨List.Subset.refl _, fun hdone => hdone⟩, fun _ ht => absurd ht List.not_mem_nil⟩
  | cons t l ih =>
    rw [List.foldlM_cons] at h
    obtain ⟨mid, hmid, hrest⟩ := Option.bind_eq_some_iff.1 h
    obtain ⟨hadds, ht⟩ := hf t List.mem_cons_self done mid hmid
    obtain ⟨hadds', hl⟩ := ih (fun t ht => hf t (List.mem_cons_of_mem _ ht)) hrest
    exact ⟨hadds.trans hadds', List.forall_mem_cons.2 ⟨hadds'.kept ht, hl⟩⟩

/-- What is done is well-founded under the references. -/
theorem visit_adds (h : visit refs depth opened done s = some done') :
    Adds refs done done' ∧ s ∈ done' := by
  induction depth generalizing opened done done' s with
  | zero =>
    rw [visit] at h
    split_ifs at h with hdone
    cases h
    exact ⟨⟨List.Subset.refl _, fun hdone => hdone⟩, hdone⟩
  | succ depth ih =>
    rw [visit] at h
    split_ifs at h with hdone hopen
    · cases h
      exact ⟨⟨List.Subset.refl _, fun hdone => hdone⟩, hdone⟩
    · obtain ⟨mid, hmid, rfl⟩ := Option.map_eq_some_iff.1 h
      obtain ⟨hadds, hrefs⟩ := foldlM_adds (fun t _ _ _ ht => ih ht) hmid
      refine ⟨⟨fun d hd => List.mem_cons_of_mem _ (hadds.kept hd), fun hacc d hd => ?_⟩,
        List.mem_cons_self⟩
      rcases List.mem_cons.1 hd with rfl | hd
      · exact Acc.intro _ fun t ht => hadds.acc hacc t (hrefs t ht)
      · exact hadds.acc hacc d hd

theorem visitAll_acc (h : visitAll refs names = some done) (hs : s ∈ names) :
    Acc (Below refs) s := by
  obtain ⟨hadds, hnames⟩ := foldlM_adds (fun t _ _ _ ht => visit_adds ht) h
  exact hadds.acc (fun _ hd => absurd hd List.not_mem_nil) s (hnames s hs)

end Sound

section Complete

/-- No name refers back to itself. -/
def Acyclic (refs : ν → List ν) (names : List ν) : Prop :=
  ∀ s ∈ names, ¬Relation.TransGen (Below refs) s s

/-- Where nothing refers back to itself, a visit only meets open names above it, and there are not
more of them than names. -/
theorem visit_isSome (hacyclic : Acyclic refs names)
    (hclosed : ∀ s ∈ names, ∀ t ∈ refs s, t ∈ names) (hnodup : opened.Nodup)
    (hopened : opened ⊆ names) (habove : ∀ o ∈ opened, Relation.TransGen (Below refs) s o)
    (hdepth : names.length ≤ depth + opened.length) (hs : s ∈ names) :
    (visit refs depth opened done s).isSome := by
  have hnot : s ∉ opened := fun hmem => hacyclic s hs (habove s hmem)
  have hlength : opened.length + 1 ≤ names.length :=
    ((List.nodup_cons.2 ⟨hnot, hnodup⟩).subperm (List.cons_subset.2 ⟨hs, hopened⟩)).length_le
  induction depth generalizing opened done s with
  | zero => omega
  | succ depth ih =>
    rw [visit]
    split_ifs with hdone
    · rfl
    · rw [Option.isSome_map]
      refine foldlM_isSome fun t ht done => ?_
      have ht' := hclosed s hs t ht
      have habove' : ∀ o ∈ s :: opened, Relation.TransGen (Below refs) t o := by
        refine List.forall_mem_cons.2 ⟨.single ht, fun o ho => .head ht (habove o ho)⟩
      have hnot' : t ∉ s :: opened := fun hmem => hacyclic t ht' (habove' t hmem)
      have hnodup' : (s :: opened).Nodup := List.nodup_cons.2 ⟨hnot, hnodup⟩
      have hopened' : s :: opened ⊆ names := List.cons_subset.2 ⟨hs, hopened⟩
      refine ih hnodup' hopened' habove' ?_ ht' hnot'
        ((List.nodup_cons.2 ⟨hnot', hnodup'⟩).subperm
          (List.cons_subset.2 ⟨ht', hopened'⟩)).length_le
      rw [List.length_cons]
      omega

theorem visitAll_isSome_iff (hclosed : ∀ s ∈ names, ∀ t ∈ refs s, t ∈ names) :
    (visitAll refs names).isSome ↔ Acyclic refs names := by
  constructor
  · intro h s hs
    obtain ⟨done, hdone⟩ := Option.isSome_iff_exists.1 h
    exact not_transGen_of_acc (visitAll_acc hdone hs)
  · intro hacyclic
    exact foldlM_isSome fun s hs done => visit_isSome hacyclic hclosed List.nodup_nil
      (List.nil_subset _) (fun _ ho => absurd ho List.not_mem_nil) (Nat.le_add_right _ _) hs

end Complete

end DepthFirst
