import TurboUtils.Concurrency.Disruptor.Publication
import TurboUtils.Lib.Kahn
import Mathlib.Data.List.GetD

/-! Dependencies between the consumers of a broadcast disruptor, set one row at a time or from a
topology of stages. -/
namespace Concurrency.Disruptor

/-! ## Rows -/

/-- The rows that `disruptor_dependencies_would_cycle` walks. -/
def proposedRows (d : Disruptor) (slot : ℕ) (dependencies : List ℕ) : ℕ → List ℕ :=
  Function.update d.consumerDependencies slot dependencies

/-- `disruptor_dependencies_would_cycle`. -/
def dependenciesWouldCycle (d : Disruptor) (slot : ℕ) (dependencies : List ℕ) : Bool :=
  decide (Kahn.visited d.consumerCapacity (d.proposedRows slot dependencies) ≠ d.consumerCapacity)

/-- `disruptor_consumer_set_dependencies`; a consumer is given by its slot. -/
def consumerSetDependencies (d : Disruptor) (slot : ℕ) (dependencies : List ℕ) :
    Disruptor × Bool :=
  if d.mode ≠ .broadcast ∨ d.consumerIsRegistered slot = false then (d, false)
  else if d.consumerCapacity < dependencies.length then (d, false)
  else if ¬((∀ v ∈ dependencies, d.consumerIsRegistered v = true ∧ v ≠ slot) ∧
      dependencies.Nodup) then (d, false)
  else if d.dependenciesWouldCycle slot dependencies then (d, false)
  else ({ d with consumerDependencies := d.proposedRows slot dependencies }, true)

/-! ## Topologies -/

/-- `disruptor_topology_t` without names: the slots of the stages, and which stage runs after
which. The group functions only call `disruptor_topology_after`. -/
structure Topology where
  stages : List ℕ
  edges : ℕ → ℕ → Bool

namespace Topology

/-- `disruptor_topology_create`. -/
def create : Topology := ⟨[], fun _ _ => false⟩

/-- `disruptor_topology_stage`. -/
def stage (t : Topology) (d : Disruptor) (slot : ℕ) : Topology × Option ℕ :=
  if d.consumerIsRegistered slot = false ∨ d.consumerCapacity ≤ t.stages.length then (t, none)
  else if slot ∈ t.stages then (t, none)
  else ({ t with stages := t.stages ++ [slot] }, some t.stages.length)

/-- `disruptor_topology_after`. -/
def after (t : Topology) (stage dependency : ℕ) : Topology × Bool :=
  if t.stages.length ≤ stage ∨ t.stages.length ≤ dependency ∨ stage = dependency then (t, false)
  else
    ({ t with
        edges := Function.update t.edges stage
          (Function.update (t.edges stage) dependency true) }, true)

/-- The stages that `stage` runs after. -/
def dependencies (t : Topology) (stage : ℕ) : List ℕ :=
  (List.range t.stages.length).filter (t.edges stage)

/-- `disruptor_topology_has_cycle`. -/
def hasCycle (t : Topology) : Bool :=
  decide (Kahn.visited t.stages.length t.dependencies ≠ t.stages.length)

def slot (t : Topology) (stage : ℕ) : ℕ := t.stages.getD stage 0

/-- The row written for a stage. -/
def row (t : Topology) (stage : ℕ) : List ℕ := (t.dependencies stage).map t.slot

/-- `disruptor_topology_commit`. -/
def commit (t : Topology) (d : Disruptor) : Disruptor × Bool :=
  if t.stages = [] then (d, false)
  else if t.hasCycle then (d, false)
  else if ¬∀ slot ∈ t.stages, d.consumerIsRegistered slot = true then (d, false)
  else
    ({ d with
        consumerDependencies := (List.range t.stages.length).foldl
          (fun rows i => Function.update rows (t.slot i) (t.row i)) d.consumerDependencies }, true)

end Topology

/-! ## What the functions answer -/

variable {d : Disruptor}

def Unwound (rows : ℕ → List ℕ) : Prop := Kahn.Acyclic fun u v => v ∈ rows u

theorem unwound_nil : Unwound fun _ => [] := by
  intro v hcycle
  obtain ⟨w, hw, -⟩ := Relation.TransGen.head'_iff.mp hcycle
  exact absurd hw (by simp)

theorem dependenciesWouldCycle_iff {slot : ℕ} {dependencies : List ℕ}
    (hlt : ∀ u v, v ∈ d.proposedRows slot dependencies u →
      u < d.consumerCapacity ∧ v < d.consumerCapacity) :
    d.dependenciesWouldCycle slot dependencies = false ↔
      Unwound (d.proposedRows slot dependencies) := by
  have hedge : Kahn.Edge d.consumerCapacity (d.proposedRows slot dependencies) =
      fun u v => v ∈ d.proposedRows slot dependencies u := by
    funext u v
    exact propext ⟨fun h => h.2, fun h => ⟨(hlt u v h).1, h⟩⟩
  rw [dependenciesWouldCycle, decide_eq_false_iff_not, not_not,
    Kahn.visited_eq_iff fun u _ v hv => (hlt u v hv).2, hedge]
  rfl

inductive Setting (d : Disruptor) (slot : ℕ) (dependencies : List ℕ) : Disruptor × Bool → Prop
  | invalid (h : d.mode ≠ .broadcast ∨ d.consumerIsRegistered slot = false ∨
      d.consumerCapacity < dependencies.length ∨
      (∃ v ∈ dependencies, d.consumerIsRegistered v = false ∨ v = slot) ∨
      ¬dependencies.Nodup) : Setting d slot dependencies (d, false)
  | cycle (hslot : d.consumerIsRegistered slot = true)
      (hdeps : ∀ v ∈ dependencies, d.consumerIsRegistered v = true)
      (h : d.dependenciesWouldCycle slot dependencies = true) :
      Setting d slot dependencies (d, false)
  | done (hslot : d.consumerIsRegistered slot = true)
      (hdeps : ∀ v ∈ dependencies, d.consumerIsRegistered v = true)
      (h : d.dependenciesWouldCycle slot dependencies = false) :
      Setting d slot dependencies
        ({ d with consumerDependencies := d.proposedRows slot dependencies }, true)

theorem consumerSetDependencies_cases (d : Disruptor) (slot : ℕ) (dependencies : List ℕ) :
    Setting d slot dependencies (consumerSetDependencies d slot dependencies) := by
  unfold consumerSetDependencies
  split
  next h =>
    apply Setting.invalid
    rcases h with h | h
    · exact .inl h
    · exact .inr (.inl h)
  next hmode =>
  split
  next h => exact .invalid (.inr (.inr (.inl h)))
  split
  next h =>
    apply Setting.invalid
    right; right; right
    by_cases hnodup : dependencies.Nodup
    · left
      by_contra hnone
      apply h
      refine ⟨fun v hv => ?_, hnodup⟩
      by_contra hv'
      refine hnone ⟨v, hv, ?_⟩
      rw [not_and_or, Bool.not_eq_true, not_not] at hv'
      exact hv'
    · exact .inr hnodup
  next h =>
  obtain ⟨hdeps, -⟩ := not_not.mp h
  have hslot : d.consumerIsRegistered slot = true := by
    rw [not_or, Bool.not_eq_false] at hmode
    exact hmode.2
  split
  next hcycle => exact .cycle hslot (fun v hv => (hdeps v hv).1) hcycle
  next hcycle => exact .done hslot (fun v hv => (hdeps v hv).1) (Bool.not_eq_true _ ▸ hcycle)

/-! ## Committing a topology -/

namespace Topology

structure Built (t : Topology) (consumerCapacity : ℕ) : Prop where
  nodup : t.stages.Nodup
  lt : ∀ slot ∈ t.stages, slot < consumerCapacity

variable {t : Topology}

theorem Built.create (n : ℕ) : create.Built n := ⟨List.nodup_nil, by simp [Topology.create]⟩

theorem Built.stage (h : t.Built d.consumerCapacity) (slot : ℕ) :
    (t.stage d slot).1.Built d.consumerCapacity := by
  unfold Topology.stage
  split
  · exact h
  next hreg =>
  split
  · exact h
  next hnew =>
    have hslot : slot < d.consumerCapacity := by
      simp only [consumerIsRegistered, not_or, Bool.not_eq_false, Bool.and_eq_true,
        decide_eq_true_eq] at hreg
      exact hreg.1.1
    constructor
    · have hnodup := h.nodup.concat hnew
      rwa [List.concat_eq_append] at hnodup
    · intro v hv
      rcases List.mem_append.mp hv with hv | hv
      · exact h.lt v hv
      · rw [List.mem_singleton.mp hv]
        exact hslot

theorem Built.after {n : ℕ} (h : t.Built n) (stage dependency : ℕ) :
    (t.after stage dependency).1.Built n := by
  unfold Topology.after
  split
  · exact h
  · exact ⟨h.nodup, h.lt⟩

theorem slot_mem {i : ℕ} (hi : i < t.stages.length) : t.slot i ∈ t.stages := by
  rw [slot, List.getD_eq_getElem _ _ hi]
  exact List.getElem_mem hi

theorem exists_slot {v : ℕ} (hv : v ∈ t.stages) : ∃ i < t.stages.length, t.slot i = v := by
  obtain ⟨i, hi, rfl⟩ := List.getElem_of_mem hv
  exact ⟨i, hi, List.getD_eq_getElem _ _ hi⟩

theorem Built.slot_inj {n : ℕ} (h : t.Built n) {i j : ℕ} (hi : i < t.stages.length)
    (hj : j < t.stages.length) (heq : t.slot i = t.slot j) : i = j := by
  rw [slot, slot, List.getD_eq_getElem _ _ hi, List.getD_eq_getElem _ _ hj] at heq
  exact (List.Nodup.getElem_inj_iff h.nodup).mp heq

theorem mem_dependencies {i j : ℕ} :
    j ∈ t.dependencies i ↔ j < t.stages.length ∧ t.edges i j = true := by
  rw [dependencies, List.mem_filter, List.mem_range]

theorem mem_row {i v : ℕ} (hv : v ∈ t.row i) : v ∈ t.stages := by
  obtain ⟨j, hj, rfl⟩ := List.mem_map.mp hv
  exact slot_mem (mem_dependencies.mp hj).1

/-- The rows after a commit. -/
def committed (t : Topology) (rows : ℕ → List ℕ) : ℕ → List ℕ :=
  (List.range t.stages.length).foldl (fun rows i => Function.update rows (t.slot i) (t.row i)) rows

/-- The rows after the first `n` stages. -/
theorem foldl_rows {m : ℕ} (h : t.Built m) (rows : ℕ → List ℕ) {n : ℕ} (hn : n ≤ t.stages.length) :
    (∀ i < n, (List.range n).foldl (fun rows i => Function.update rows (t.slot i) (t.row i)) rows
        (t.slot i) = t.row i) ∧
      ∀ v, (∀ i < n, t.slot i ≠ v) → (List.range n).foldl
        (fun rows i => Function.update rows (t.slot i) (t.row i)) rows v = rows v := by
  induction n with
  | zero => exact ⟨fun i hi => absurd hi (by omega), fun v _ => rfl⟩
  | succ n ih =>
    obtain ⟨hrow, hrest⟩ := ih (by omega)
    simp only [List.range_succ, List.foldl_append, List.foldl_cons, List.foldl_nil]
    refine ⟨fun i hi => ?_, fun v hv => ?_⟩
    · rcases Nat.lt_succ_iff_lt_or_eq.mp hi with hi | rfl
      · rw [Function.update_of_ne, hrow i hi]
        intro heq
        exact absurd (h.slot_inj (by omega) (by omega) heq) (by omega)
      · rw [Function.update_self]
    · rw [Function.update_of_ne (hv n (by omega)).symm, hrest v fun i hi => hv i (by omega)]

theorem committed_slot {n : ℕ} (h : t.Built n) (rows : ℕ → List ℕ) {i : ℕ}
    (hi : i < t.stages.length) : t.committed rows (t.slot i) = t.row i :=
  (foldl_rows h rows le_rfl).1 i hi

theorem committed_other {n : ℕ} (h : t.Built n) (rows : ℕ → List ℕ) {v : ℕ} (hv : v ∉ t.stages) :
    t.committed rows v = rows v := by
  apply (foldl_rows h rows le_rfl).2 v
  rintro i hi rfl
  exact hv (slot_mem hi)

/-- The rows of the stages lead to stages only, so a cycle stays inside the topology or outside
of it. -/
theorem committed_unwound {n : ℕ} (h : t.Built n) {rows : ℕ → List ℕ} (hrows : Unwound rows)
    (hcycle : t.hasCycle = false) : Unwound (t.committed rows) := by
  have hacyclic : Kahn.Acyclic (Kahn.Edge t.stages.length t.dependencies) := by
    rw [hasCycle, decide_eq_false_iff_not, not_not] at hcycle
    exact (Kahn.visited_eq_iff fun u _ v hv => (mem_dependencies.mp hv).1).mp hcycle
  have hinside : ∀ u v, Relation.TransGen (fun u v => v ∈ t.committed rows u) u v →
      ∀ i < t.stages.length, t.slot i = u → ∃ j < t.stages.length, t.slot j = v ∧
        Relation.TransGen (Kahn.Edge t.stages.length t.dependencies) i j := by
    have hedge : ∀ i < t.stages.length, ∀ v ∈ t.committed rows (t.slot i),
        ∃ j < t.stages.length, t.slot j = v ∧ Kahn.Edge t.stages.length t.dependencies i j := by
      intro i hi v hv
      rw [committed_slot h rows hi] at hv
      obtain ⟨j, hj, rfl⟩ := List.mem_map.mp hv
      exact ⟨j, (mem_dependencies.mp hj).1, rfl, hi, hj⟩
    intro u v huv
    induction huv with
    | single huv =>
      rintro i hi rfl
      obtain ⟨j, hj, hslot, hij⟩ := hedge i hi _ huv
      exact ⟨j, hj, hslot, .single hij⟩
    | tail _ hvw ih =>
      intro i hi hslot
      obtain ⟨j, hj, rfl, hij⟩ := ih i hi hslot
      obtain ⟨k, hk, hslot', hjk⟩ := hedge j hj _ hvw
      exact ⟨k, hk, hslot', hij.tail hjk⟩
  have houtside : ∀ u v, Relation.TransGen (fun u v => v ∈ t.committed rows u) u v →
      v ∉ t.stages → Relation.TransGen (fun u v => v ∈ rows u) u v := by
    have hedge : ∀ u v, v ∈ t.committed rows u → v ∉ t.stages → u ∉ t.stages ∧ v ∈ rows u := by
      intro u v huv hv
      have hu : u ∉ t.stages := by
        intro hin
        obtain ⟨i, hi, rfl⟩ := exists_slot hin
        rw [committed_slot h rows hi] at huv
        exact hv (mem_row huv)
      rw [committed_other h rows hu] at huv
      exact ⟨hu, huv⟩
    intro u v huv
    induction huv with
    | single huv => exact fun hv => .single (hedge _ _ huv hv).2
    | tail _ hvw ih =>
      intro hw
      obtain ⟨hv, hvw⟩ := hedge _ _ hvw hw
      exact (ih hv).tail hvw
  intro v hv
  by_cases hin : v ∈ t.stages
  · obtain ⟨i, hi, hslot⟩ := exists_slot hin
    obtain ⟨j, hj, hslot', hij⟩ := hinside v v hv i hi hslot
    obtain rfl := h.slot_inj hi hj (hslot.trans hslot'.symm)
    exact hacyclic i hij
  · exact hrows v (houtside v v hv hin)

theorem commit_cases (t : Topology) (d : Disruptor) :
    t.commit d = (d, false) ∨
      (t.hasCycle = false ∧ (∀ slot ∈ t.stages, d.consumerIsRegistered slot = true) ∧
        t.commit d = ({ d with
          consumerDependencies := t.committed d.consumerDependencies }, true)) := by
  unfold commit
  split
  · exact .inl rfl
  split
  · exact .inl rfl
  next hcycle =>
  split
  · exact .inl rfl
  next hall => exact .inr ⟨Bool.not_eq_true _ ▸ hcycle, not_not.mp hall, rfl⟩

end Topology

end Concurrency.Disruptor
