import Mathlib.Data.List.Basic
import Mathlib.Logic.Relation
import Mathlib.Tactic

/-! Breadth-first marking of a finite graph: one mark for each position, and a queue of the names
that were marked and not yet looked at. -/
namespace Marking

variable {ν : Type*} (index : ν → Option ℕ) (next : ν → List ν)

def visit (marks : List Bool × List ν) (v : ν) : List Bool × List ν :=
  match index v with
  | none => marks
  | some i => if marks.1.getD i false then marks else (marks.1.set i true, marks.2 ++ [v])

def loop : ℕ → List Bool × List ν → List Bool
  | 0, marks => marks.1
  | _ + 1, (marks, []) => marks
  | rounds + 1, (marks, v :: queue) => loop rounds ((next v).foldl (visit index) (marks, queue))

def Reaches : ν → ν → Prop := Relation.ReflTransGen fun v w => w ∈ next v

def Indexes (names : List ν) : Prop := ∀ (v : ν) (i : ℕ), index v = some i ↔ names[i]? = some v

variable {index next} {names : List ν}

def Marked (names : List ν) (marks : List Bool) (v : ν) : Prop :=
  ∃ i : ℕ, names[i]? = some v ∧ marks[i]? = some true

/-- The state of the loop: what is marked can be reached, and what follows it is marked too once it
has left the queue. -/
structure Invariant (next : ν → List ν) (names : List ν) (start : ν)
    (marks : List Bool × List ν) : Prop where
  size : marks.1.length = names.length
  sound : ∀ v, Marked names marks.1 v → Reaches next start v
  queued : ∀ v ∈ marks.2, Marked names marks.1 v
  done : ∀ v, Marked names marks.1 v → v ∈ marks.2 ∨ ∀ w ∈ next v, Marked names marks.1 w

def work (marks : List Bool × List ν) : ℕ := marks.2.length + marks.1.count false

section visit

variable {marks : List Bool × List ν} {v : ν}

theorem Indexes.mem (h : Indexes index names) (hv : v ∈ names) :
    ∃ i, index v = some i ∧ names[i]? = some v := by
  obtain ⟨i, hi⟩ := List.mem_iff_getElem?.1 hv
  exact ⟨i, (h v i).2 hi, hi⟩

theorem marked_set {i : ℕ} (hi : names[i]? = some v) (hn : ∀ j, names[j]? = some v → j = i)
    {bits : List Bool} (hlt : i < bits.length) {w : ν} :
    Marked names (bits.set i true) w ↔ Marked names bits w ∨ w = v := by
  constructor
  · rintro ⟨j, hj, hmark⟩
    rw [List.getElem?_set] at hmark
    split_ifs at hmark with hij
    · subst hij
      rw [hi] at hj
      exact Or.inr (Option.some.inj hj).symm
    · exact Or.inl ⟨j, hj, hmark⟩
  · rintro (⟨j, hj, hmark⟩ | rfl)
    · refine ⟨j, hj, ?_⟩
      rw [List.getElem?_set]
      split_ifs
      · rfl
      · exact hmark
    · exact ⟨i, hi, List.getElem?_set_self hlt⟩

/-- A visit marks one name more, which is queued when it is new. -/
theorem visit_spec (h : Indexes index names) (hv : v ∈ names)
    (hsize : marks.1.length = names.length) :
    (visit index marks v).1.length = names.length ∧
      (∀ w, Marked names (visit index marks v).1 w ↔ Marked names marks.1 w ∨ w = v) ∧
      (∀ w, w ∈ (visit index marks v).2 ↔ w ∈ marks.2 ∨ (w = v ∧ ¬ Marked names marks.1 v)) ∧
      work (visit index marks v) = work marks := by
  obtain ⟨i, hindex, hi⟩ := h.mem hv
  have hunique : ∀ j, names[j]? = some v → j = i := fun j hj =>
    Option.some.inj (((h v j).2 hj).symm.trans hindex)
  have hlt : i < marks.1.length := hsize ▸ (List.getElem?_eq_some_iff.1 hi).1
  have hmarked : Marked names marks.1 v ↔ marks.1[i] = true := by
    constructor
    · rintro ⟨j, hj, hmark⟩
      rw [hunique j hj, List.getElem?_eq_getElem hlt] at hmark
      exact Option.some.inj hmark
    · exact fun hmark => ⟨i, hi, by rw [List.getElem?_eq_getElem hlt, hmark]⟩
  have hget : marks.1.getD i false = marks.1[i] := by
    rw [List.getD_eq_getElem?_getD, List.getElem?_eq_getElem hlt, Option.getD_some]
  unfold visit
  rw [hindex]
  dsimp only
  rw [hget]
  by_cases hold : marks.1[i] = true
  · rw [if_pos hold]
    refine ⟨hsize, fun w => ?_, fun w => ?_, rfl⟩
    · rw [or_iff_left_of_imp]
      rintro rfl
      exact hmarked.2 hold
    · rw [or_iff_left]
      exact fun hw => hw.2 (hmarked.2 hold)
  · rw [if_neg hold]
    refine ⟨by rw [List.length_set]; exact hsize, fun w => marked_set hi hunique hlt,
      fun w => ?_, ?_⟩
    · rw [List.mem_append, List.mem_singleton, and_iff_left (mt hmarked.1 hold)]
    · unfold work
      have hcount := @List.count_set _ _ true false marks.1 i hlt
      have hpos : 0 < marks.1.count false := by
        rw [List.count_pos_iff, ← Bool.eq_false_of_not_eq_true hold]
        exact List.getElem_mem hlt
      simp only [Bool.eq_false_of_not_eq_true hold] at hcount
      rw [List.length_append, List.length_singleton, hcount]
      simp
      omega

/-- The visits of one round. -/
theorem foldl_visit_spec (h : Indexes index names) {ws : List ν} (hws : ∀ w ∈ ws, w ∈ names)
    (hsize : marks.1.length = names.length) :
    (ws.foldl (visit index) marks).1.length = names.length ∧
      (∀ w, Marked names (ws.foldl (visit index) marks).1 w ↔ Marked names marks.1 w ∨ w ∈ ws) ∧
      (∀ w, w ∈ (ws.foldl (visit index) marks).2 ↔
        w ∈ marks.2 ∨ (w ∈ ws ∧ ¬ Marked names marks.1 w)) ∧
      work (ws.foldl (visit index) marks) = work marks := by
  induction ws generalizing marks with
  | nil => simp [hsize]
  | cons w ws ih =>
    obtain ⟨hw, hrest⟩ := List.forall_mem_cons.1 hws
    obtain ⟨hsize', hmarked, hqueued, hwork⟩ := visit_spec h hw hsize
    obtain ⟨hsize'', hmarked', hqueued', hwork'⟩ := ih hrest hsize'
    rw [List.foldl_cons]
    refine ⟨hsize'', fun x => ?_, fun x => ?_, hwork'.trans hwork⟩
    · rw [hmarked', hmarked, List.mem_cons, or_assoc]
    · rw [hqueued', hqueued, hmarked, List.mem_cons]
      by_cases hx : x = w
      · subst hx
        tauto
      · tauto

end visit

/-! ## The loop -/

theorem Invariant.round {start v : ν} {bits : List Bool} {queue : List ν}
    (h : Indexes index names) (hclosed : ∀ v ∈ names, ∀ w ∈ next v, w ∈ names)
    (hi : Invariant next names start (bits, v :: queue)) :
    Invariant next names start ((next v).foldl (visit index) (bits, queue)) ∧
      work ((next v).foldl (visit index) (bits, queue)) < work (bits, v :: queue) := by
  have hv := hi.queued v List.mem_cons_self
  have hmem : v ∈ names := by
    obtain ⟨i, hget, -⟩ := hv
    exact List.mem_of_getElem? hget
  obtain ⟨hsize, hmarked, hqueued, hwork⟩ :=
    @foldl_visit_spec _ index names (bits, queue) h _ (hclosed v hmem) hi.size
  constructor
  · constructor
    case size => exact hsize
    case sound =>
      intro w hw
      rcases (hmarked w).1 hw with hw | hw
      · exact hi.sound w hw
      · exact (hi.sound v hv).tail hw
    case queued =>
      intro w hw
      rw [hmarked]
      rcases (hqueued w).1 hw with hw | hw
      · exact Or.inl (hi.queued w (List.mem_cons_of_mem _ hw))
      · exact Or.inr hw.1
    case done =>
      intro w hw
      rw [hqueued]
      by_cases hold : Marked names bits w
      · rcases hi.done w hold with hq | hdone
        · rcases List.mem_cons.1 hq with rfl | hq
          · exact Or.inr fun x hx => (hmarked x).2 (Or.inr hx)
          · exact Or.inl (Or.inl hq)
        · exact Or.inr fun x hx => (hmarked x).2 (Or.inl (hdone x hx))
      · exact Or.inl (Or.inr ⟨((hmarked w).1 hw).resolve_left hold, hold⟩)
  · rw [hwork]
    unfold work
    dsimp only
    rw [List.length_cons]
    omega

/-- With enough rounds the loop marks what can be reached and nothing else. -/
theorem loop_marks {start : ν} (h : Indexes index names)
    (hclosed : ∀ v ∈ names, ∀ w ∈ next v, w ∈ names) {rounds : ℕ} {marks : List Bool × List ν}
    (hi : Invariant next names start marks) (hstart : Marked names marks.1 start)
    (hrounds : work marks ≤ rounds) :
    (loop index next rounds marks).length = names.length ∧
      ∀ v, Marked names (loop index next rounds marks) v ↔ Reaches next start v := by
  -- an empty queue leaves a set of marks that is closed under the edges
  have hclose : ∀ {bits : List Bool}, Invariant next names start (bits, []) →
      Marked names bits start → ∀ v, Marked names bits v ↔ Reaches next start v := by
    intro bits hi hstart v
    refine ⟨hi.sound v, fun hv => ?_⟩
    induction hv with
    | refl => exact hstart
    | tail _ hedge ih => exact (hi.done _ ih).resolve_left List.not_mem_nil _ hedge
  induction rounds generalizing marks with
  | zero =>
    obtain ⟨bits, queue⟩ := marks
    cases queue with
    | nil => exact ⟨hi.size, hclose hi hstart⟩
    | cons v queue =>
      unfold work at hrounds
      rw [List.length_cons] at hrounds
      omega
  | succ rounds ih =>
    obtain ⟨bits, queue⟩ := marks
    cases queue with
    | nil => exact ⟨hi.size, hclose hi hstart⟩
    | cons v queue =>
      obtain ⟨hi', hless⟩ := hi.round h hclosed
      have hmem : ∀ w ∈ next v, w ∈ names := by
        obtain ⟨i, hget, -⟩ := hi.queued v List.mem_cons_self
        exact hclosed v (List.mem_of_getElem? hget)
      refine ih hi' ?_ (by omega)
      exact ((@foldl_visit_spec _ index names (bits, queue) h _ hmem hi.size).2.1 start).2
        (Or.inl hstart)

/-- From one name the loop marks everything exactly when everything can be reached. -/
theorem loop_all_iff {start : ν} {i : ℕ} (h : Indexes index names)
    (hclosed : ∀ v ∈ names, ∀ w ∈ next v, w ∈ names) (hi : names[i]? = some start) {rounds : ℕ}
    (hrounds : names.length ≤ rounds) :
    (loop index next rounds ((List.replicate names.length false).set i true, [start])).all id =
      true ↔ ∀ v ∈ names, Reaches next start v := by
  have hlt : i < (List.replicate names.length false).length := by
    rw [List.length_replicate]
    exact (List.getElem?_eq_some_iff.1 hi).1
  have hunique : ∀ j, names[j]? = some start → j = i := fun j hj =>
    Option.some.inj (((h start j).2 hj).symm.trans ((h start i).2 hi))
  have hnone : ∀ v, ¬ Marked names (List.replicate names.length false) v := by
    rintro v ⟨j, -, hj⟩
    rw [List.getElem?_replicate] at hj
    split_ifs at hj
    cases hj
  have hfirst : ∀ v, Marked names ((List.replicate names.length false).set i true) v ↔ v = start :=
    fun v => (marked_set hi hunique hlt).trans (or_iff_right (hnone v))
  have hinvariant : Invariant next names start
      ((List.replicate names.length false).set i true, [start]) := by
    constructor
    case size => rw [List.length_set, List.length_replicate]
    case sound =>
      intro v hv
      rw [(hfirst v).1 hv]
      exact .refl
    case queued => exact fun v hv => (hfirst v).2 (List.mem_singleton.1 hv)
    case done => exact fun v hv => Or.inl (List.mem_singleton.2 ((hfirst v).1 hv))
  have hwork : work ((List.replicate names.length false).set i true, [start]) ≤ rounds := by
    unfold work
    rw [List.count_set hlt]
    simp only [List.getElem_replicate, List.count_replicate_self, List.length_singleton]
    rw [List.length_replicate] at hlt
    simp
    omega
  obtain ⟨hsize, hmarks⟩ := loop_marks h hclosed hinvariant ((hfirst start).2 rfl) hwork
  generalize loop index next rounds
    ((List.replicate names.length false).set i true, [start]) = bits at hsize hmarks
  rw [List.all_eq_true]
  constructor
  · intro hall v hv
    obtain ⟨j, hj⟩ := List.mem_iff_getElem?.1 hv
    have hj' : j < bits.length := hsize ▸ (List.getElem?_eq_some_iff.1 hj).1
    refine (hmarks v).1 ⟨j, hj, ?_⟩
    rw [List.getElem?_eq_getElem hj']
    exact congrArg some (hall _ (List.getElem_mem hj'))
  · intro hall b hb
    obtain ⟨j, hj, rfl⟩ := List.getElem_of_mem hb
    have hj' : j < names.length := hsize ▸ hj
    obtain ⟨k, hk, hmark⟩ := (hmarks _).2 (hall names[j] (List.getElem_mem hj'))
    have hkj : k = j := Option.some.inj (((h _ k).2 hk).symm.trans
      ((h _ j).2 (List.getElem?_eq_getElem hj')))
    rw [hkj, List.getElem?_eq_getElem hj] at hmark
    exact Option.some.inj hmark

end Marking
