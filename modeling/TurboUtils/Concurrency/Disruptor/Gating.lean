import TurboUtils.Concurrency.Disruptor.Dependencies

/-! Gating: what a registered consumer may read, over runs in which consumers come and go. Slots
are taken again by later consumers, so each consumer has a number of its own here. -/
namespace Concurrency.Disruptor

/-- A registered consumer: its number, the sequence it has released up to, and the numbers of the
consumers it was declared to depend on. -/
structure Subscriber where
  id : ℕ
  released : ℕ
  declared : List ℕ
  deriving DecidableEq

/-- A broadcast disruptor with its consumers by slot and the topologies under construction. -/
structure Gate where
  d : Disruptor
  topologies : ℕ → Topology
  members : ℕ → Option Subscriber
  nextId : ℕ

inductive GateOp where
  | register (fails : ℕ → Bool)
  | unregister (slot : ℕ)
  | setDependencies (slot : ℕ) (dependencies : List ℕ)
  | topologyCreate (topology : ℕ)
  | topologyStage (topology slot : ℕ)
  | topologyAfter (topology stage dependency : ℕ)
  | topologyCommit (topology : ℕ)
  | claim (count : ℕ)
  | publish (first last : ℕ)
  | release (slot sequence : ℕ)

/-- The consumer in `slot` now depends on those in the slots of `dependencies`. -/
def declare (members : ℕ → Option Subscriber) (slot : ℕ) (dependencies : List ℕ) :
    ℕ → Option Subscriber :=
  Function.update members slot ((members slot).map fun m =>
    { m with declared := dependencies.filterMap fun v => (members v).map Subscriber.id })

def Topology.declareAll (t : Topology) (members : ℕ → Option Subscriber) :
    ℕ → Option Subscriber :=
  (List.range t.stages.length).foldl (fun members i => declare members (t.slot i) (t.row i)) members

/-- One step; `none` for a sequence that is no `uint64_t`. -/
def Gate.step (s : Gate) : GateOp → Option Gate
  | .register fails =>
      match consumerTryRegister s.d fails with
      | (d, none) => some { s with d }
      | (d, some (slot, _)) =>
          some { s with
            d
            members := Function.update s.members slot (some ⟨s.nextId, s.d.slowestConsumer, []⟩)
            nextId := s.nextId + 1 }
  | .unregister slot =>
      some { s with
        d := consumerUnregister s.d slot
        members := Function.update s.members slot none }
  | .setDependencies slot dependencies =>
      match consumerSetDependencies s.d slot dependencies with
      | (d, false) => some { s with d }
      | (d, true) => some { s with d, members := declare s.members slot dependencies }
  | .topologyCreate k =>
      some { s with topologies := Function.update s.topologies k .create }
  | .topologyStage k slot =>
      some { s with
        topologies := Function.update s.topologies k ((s.topologies k).stage s.d slot).1 }
  | .topologyAfter k stage dependency =>
      some { s with
        topologies := Function.update s.topologies k ((s.topologies k).after stage dependency).1 }
  | .topologyCommit k =>
      match (s.topologies k).commit s.d with
      | (d, false) => some { s with d }
      | (d, true) => some { s with d, members := (s.topologies k).declareAll s.members }
  | .claim count => some { s with d := (tryClaimRange s.d count).1 }
  | .publish first last =>
      if last ≤ uint64Max then some { s with d := publishRange s.d first last } else none
  | .release slot sequence =>
      if sequence ≤ uint64Max then
        some { s with
          d := consumerReleaseEntry s.d slot sequence
          members := Function.update s.members slot
            ((s.members slot).map fun m => { m with released := sequence }) }
      else none

def Gate.start (d : Disruptor) : Gate := ⟨d, fun _ => .create, fun _ => none, 0⟩

/-- The states that runs reach whose steps are all allowed where they are taken. -/
inductive Gate.Reaches (allowed : Gate → GateOp → Prop) (d : Disruptor) : Gate → Prop
  | start : Reaches allowed d (.start d)
  | step {s s' : Gate} {op : GateOp} : Reaches allowed d s → allowed s op → s.step op = some s' →
      Reaches allowed d s'

def Depends (members : ℕ → Option Subscriber) (a b : ℕ) : Prop :=
  ∃ u v m m', members u = some m ∧ members v = some m' ∧ m.id = a ∧ m'.id = b ∧ b ∈ m.declared

/-- A consumer that is not registered, too many dependencies, or a dependency that is not
registered, is the consumer itself or is given twice. -/
def InvalidArgument (s : Gate) (slot : ℕ) (dependencies : List ℕ) : Prop :=
  s.members slot = none ∨ s.d.consumerCapacity < dependencies.length ∨
    (∃ v ∈ dependencies, s.members v = none ∨ v = slot) ∨ ¬dependencies.Nodup

/-- A registered consumer is handed a sequence exactly when it is published and the registered
consumers that it was declared to depend on have released it; no slot depends on itself; and an
allowed call that sets dependencies only fails on an invalid argument or a cycle of the declared
dependencies, and changes nothing then. -/
structure Gate.Gated (allowed : Gate → GateOp → Prop) (s : Gate) : Prop where
  handed : ∀ slot m, s.members slot = some m → ∀ x,
    (consumerWaitFor s.d slot x).isSome = true ↔ x ≤ s.d.maxReadCursor ∧
      ∀ v m', s.members v = some m' → m'.id ∈ m.declared → x ≤ m'.released
  acyclic : Kahn.Acyclic fun u v => v ∈ s.d.consumerDependencies u
  refused : ∀ slot dependencies, allowed s (.setDependencies slot dependencies) →
    (consumerSetDependencies s.d slot dependencies).2 = false →
      (consumerSetDependencies s.d slot dependencies).1 = s.d ∧
        (InvalidArgument s slot dependencies ∨
          ¬Kahn.Acyclic (Depends (declare s.members slot dependencies)))

/-! ## When no row is stale -/

/-- A slot is taken only when its row is empty and no registered consumer's row names it;
dependencies are set only while no row names a slot that is vacant and has a row of its own; and
no consumer has the cursor that stands for a vacant slot. -/
def Gate.NoStaleRow (s : Gate) : GateOp → Prop
  | .register fails => s.d.slowestConsumer ≠ vacant ∧ ∀ slot < s.d.consumerCapacity,
      s.d.consumerCursors slot = vacant → fails slot = false →
      (∀ j < slot, s.d.consumerCursors j = vacant → fails j = true) →
      s.d.consumerDependencies slot = [] ∧
        ∀ u m, s.members u = some m → slot ∉ s.d.consumerDependencies u
  | .setDependencies _ _ => ∀ u v, v ∈ s.d.consumerDependencies u → s.members v = none →
      s.d.consumerDependencies v = []
  | .release _ sequence => sequence ≠ vacant
  | _ => True

/-! ## Rows and declarations -/

def numbers (members : ℕ → Option Subscriber) (v : ℕ) : Option ℕ := (members v).map Subscriber.id

/-- Slot `v` holds consumer `e`, or that consumer is gone and nobody took its slot. -/
def Names (number : ℕ → Option ℕ) (v e : ℕ) : Prop :=
  number v = some e ∨ (number v = none ∧ ∀ u, number u ≠ some e)

def RowsDeclared (rows : ℕ → List ℕ) (members : ℕ → Option Subscriber) : Prop :=
  ∀ slot m, members slot = some m → List.Forall₂ (Names (numbers members)) (rows slot) m.declared

/-- Only numbers below `n` were declared. -/
def DeclaredBelow (n : ℕ) (members : ℕ → Option Subscriber) : Prop :=
  ∀ slot m, members slot = some m → ∀ e ∈ m.declared, e < n

variable {members : ℕ → Option Subscriber} {rows : ℕ → List ℕ}

theorem numbers_eq_some {v e : ℕ} : numbers members v = some e ↔
    ∃ m, members v = some m ∧ m.id = e := by
  rw [numbers, Option.map_eq_some_iff]

theorem numbers_eq_none {v : ℕ} : numbers members v = none ↔ members v = none := by
  rw [numbers, Option.map_eq_none_iff]

def places (members : ℕ → Option Subscriber) (v : ℕ) : Option (ℕ × ℕ) :=
  (members v).map fun m => (m.id, m.released)

theorem numbers_eq_places (members : ℕ → Option Subscriber) :
    numbers members = fun v => (places members v).map Prod.fst := by
  funext v
  rw [numbers, places, Option.map_map]
  rfl

theorem places_declare (members : ℕ → Option Subscriber) (slot : ℕ) (dependencies : List ℕ) :
    places (declare members slot dependencies) = places members := by
  funext v
  by_cases hv : v = slot
  · subst hv
    rw [places, declare, Function.update_self, Option.map_map]
    rfl
  · rw [places, declare, Function.update_of_ne hv]
    rfl

theorem numbers_declare (members : ℕ → Option Subscriber) (slot : ℕ) (dependencies : List ℕ) :
    numbers (declare members slot dependencies) = numbers members := by
  rw [numbers_eq_places, places_declare, ← numbers_eq_places]

theorem forall₂_imp_mem {α β : Type} {R S : α → β → Prop} {l : List α} {l' : List β}
    (h : List.Forall₂ R l l') (himp : ∀ a ∈ l, ∀ b ∈ l', R a b → S a b) : List.Forall₂ S l l' := by
  induction h with
  | nil => exact .nil
  | cons hab _ ih =>
    exact .cons (himp _ (.head _) _ (.head _) hab)
      (ih fun a ha b hb => himp a (.tail _ ha) b (.tail _ hb))

theorem exists_of_forall₂_left {α β : Type} {R : α → β → Prop} {l : List α} {l' : List β}
    (h : List.Forall₂ R l l') {a : α} (ha : a ∈ l) : ∃ b ∈ l', R a b := by
  induction h with
  | nil => exact absurd ha (by simp)
  | cons hab _ ih =>
    rcases List.mem_cons.mp ha with rfl | ha
    · exact ⟨_, .head _, hab⟩
    · obtain ⟨b, hb, hab⟩ := ih ha
      exact ⟨b, .tail _ hb, hab⟩

/-- A slot that is taken by a new consumer names nobody but it. -/
theorem Names.update_fresh {v e slot : ℕ} {m : Subscriber} (h : Names (numbers members) v e)
    (hv : v ≠ slot) (hm : m.id ≠ e) :
    Names (numbers (Function.update members slot (some m))) v e := by
  have hother : ∀ u, u ≠ slot →
      numbers (Function.update members slot (some m)) u = numbers members u := by
    intro u hu
    rw [numbers, Function.update_of_ne hu]
    rfl
  rcases h with hsome | ⟨hnone, hgone⟩
  · exact .inl ((hother v hv).trans hsome)
  · refine .inr ⟨(hother v hv).trans hnone, fun u hu => ?_⟩
    by_cases hus : u = slot
    · rw [hus, numbers, Function.update_self] at hu
      exact hm (Option.some.inj hu)
    · rw [hother u hus] at hu
      exact hgone u hu

/-- The consumer that leaves a slot is gone. -/
theorem Names.update_none {v e slot : ℕ} (h : Names (numbers members) v e)
    (hinjective : ∀ u v e, numbers members u = some e → numbers members v = some e → u = v) :
    Names (numbers (Function.update members slot none)) v e := by
  have hself : numbers (Function.update members slot none) slot = none := by
    rw [numbers, Function.update_self]
    rfl
  have hother : ∀ u, u ≠ slot →
      numbers (Function.update members slot none) u = numbers members u := by
    intro u hu
    rw [numbers, Function.update_of_ne hu]
    rfl
  have hgone : ∀ u, numbers (Function.update members slot none) u = some e →
      u ≠ slot ∧ numbers members u = some e := by
    intro u hu
    have hus : u ≠ slot := by
      rintro rfl
      exact absurd (hself.symm.trans hu) (by simp)
    exact ⟨hus, hother u hus ▸ hu⟩
  by_cases hv : v = slot
  · subst hv
    refine .inr ⟨hself, fun u hu => ?_⟩
    obtain ⟨hus, hu⟩ := hgone u hu
    rcases h with hsome | ⟨-, hnot⟩
    · exact hus (hinjective u v e hu hsome)
    · exact hnot u hu
  · rcases h with hsome | ⟨hnone, hnot⟩
    · exact .inl ((hother v hv).trans hsome)
    · exact .inr ⟨(hother v hv).trans hnone, fun u hu => hnot u (hgone u hu).2⟩

theorem forall₂_numbers {dependencies : List ℕ}
    (hall : ∀ v ∈ dependencies, numbers members v ≠ none) :
    List.Forall₂ (Names (numbers members)) dependencies
      (dependencies.filterMap (numbers members)) := by
  induction dependencies with
  | nil => exact .nil
  | cons v dependencies ih =>
    obtain ⟨e, he⟩ := Option.ne_none_iff_exists'.mp (hall v (.head _))
    rw [List.filterMap_cons_some he]
    exact .cons (.inl he) (ih fun v hv => hall v (.tail _ hv))

theorem RowsDeclared.declare (h : RowsDeclared rows members) {slot : ℕ} {dependencies : List ℕ}
    (hall : ∀ v ∈ dependencies, numbers members v ≠ none) :
    RowsDeclared (Function.update rows slot dependencies) (declare members slot dependencies) := by
  intro u m hu
  rw [numbers_declare]
  by_cases hslot : u = slot
  · subst hslot
    rw [Disruptor.declare, Function.update_self, Option.map_eq_some_iff] at hu
    obtain ⟨m, -, rfl⟩ := hu
    rw [Function.update_self]
    exact forall₂_numbers hall
  · rw [Disruptor.declare, Function.update_of_ne hslot] at hu
    rw [Function.update_of_ne hslot]
    exact h u m hu

theorem DeclaredBelow.declare {n : ℕ} (h : DeclaredBelow n members)
    (hnumbers : ∀ v e, numbers members v = some e → e < n) (slot : ℕ) (dependencies : List ℕ) :
    DeclaredBelow n (declare members slot dependencies) := by
  intro u m hu e he
  by_cases hslot : u = slot
  · subst hslot
    rw [Disruptor.declare, Function.update_self, Option.map_eq_some_iff] at hu
    obtain ⟨m, -, rfl⟩ := hu
    obtain ⟨v, -, hv⟩ := List.mem_filterMap.mp he
    exact hnumbers v e hv
  · rw [Disruptor.declare, Function.update_of_ne hslot] at hu
    exact h u m hu e he

theorem declareAll_spec (h : RowsDeclared rows members) {bound : ℕ}
    (hbelow : DeclaredBelow bound members) (hnumbers : ∀ v e, numbers members v = some e → e < bound)
    {t : Topology} (hall : ∀ v ∈ t.stages, numbers members v ≠ none) {n : ℕ}
    (hn : n ≤ t.stages.length) :
    RowsDeclared
        ((List.range n).foldl (fun rows i => Function.update rows (t.slot i) (t.row i)) rows)
        ((List.range n).foldl (fun members i => declare members (t.slot i) (t.row i)) members) ∧
      DeclaredBelow bound ((List.range n).foldl (fun members i =>
        declare members (t.slot i) (t.row i)) members) ∧
      places ((List.range n).foldl (fun members i => declare members (t.slot i) (t.row i))
        members) = places members := by
  induction n with
  | zero => exact ⟨h, hbelow, rfl⟩
  | succ n ih =>
    obtain ⟨hrows, hbelow', hplaces⟩ := ih (by omega)
    have hsame : numbers ((List.range n).foldl (fun members i =>
        declare members (t.slot i) (t.row i)) members) = numbers members := by
      rw [numbers_eq_places, hplaces, ← numbers_eq_places]
    simp only [List.range_succ, List.foldl_append, List.foldl_cons, List.foldl_nil]
    refine ⟨hrows.declare fun v hv => ?_, hbelow'.declare ?_ _ _, ?_⟩
    · rw [hsame]
      exact hall v (Topology.mem_row hv)
    · rw [hsame]
      exact hnumbers
    · rw [places_declare, hplaces]

/-! ## The invariant -/

structure Gate.Inv (s : Gate) : Prop where
  mode : s.d.mode = .broadcast
  read_le : s.d.maxReadCursor ≤ uint64Max
  vacancy : ∀ slot, s.members slot = none → s.d.consumerCursors slot = vacant
  member : ∀ slot m, s.members slot = some m → slot < s.d.consumerCapacity ∧
    s.d.consumerCursors slot = m.released ∧ m.released ≠ vacant ∧ m.id < s.nextId
  injective : ∀ u v e, numbers s.members u = some e → numbers s.members v = some e → u = v
  row_lt : ∀ u v, v ∈ s.d.consumerDependencies u → u < s.d.consumerCapacity ∧
    v < s.d.consumerCapacity
  rows : RowsDeclared s.d.consumerDependencies s.members
  declared_lt : DeclaredBelow s.nextId s.members
  unwound : Unwound s.d.consumerDependencies
  built : ∀ k, (s.topologies k).Built s.d.consumerCapacity

theorem le_foldl_min (f : ℕ → ℕ) (l : List ℕ) (b x : ℕ) :
    x ≤ l.foldl (fun acc i => min (f i) acc) b ↔ x ≤ b ∧ ∀ i ∈ l, x ≤ f i := by
  induction l generalizing b with
  | nil => simp
  | cons v l ih =>
    rw [List.foldl_cons, ih, le_min_iff, List.forall_mem_cons]
    tauto

theorem markRange_read (d : Disruptor) (n a : ℕ) :
    (markRange d n a).maxReadCursor = d.maxReadCursor := by
  induction n generalizing d a with
  | zero => rfl
  | succ n ih =>
    rw [markRange]
    generalize Word.add 64 a 1 = a'
    exact ih _ a'

theorem publishRange_read_le {d : Disruptor} (first : ℕ) {last : ℕ}
    (h : d.maxReadCursor ≤ uint64Max) (hlast : last ≤ uint64Max) : (publishRange d first last).maxReadCursor ≤ uint64Max := by
  have hadvance : ∀ d : Disruptor, d.maxReadCursor ≤ uint64Max →
      (tryAdvancePublishedCursor d).maxReadCursor ≤ uint64Max := by
    intro d hd
    unfold tryAdvancePublishedCursor
    split
    · exact hd
    next desired heq =>
      unfold advanced at heq
      dsimp only at heq
      split at heq
      · exact absurd heq (by simp)
      · rw [← Option.some.inj heq]
        exact Nat.le_sub_one_of_lt (Word.sub_lt _ _ _)
  unfold publishRange
  split
  · exact h
  split
  · exact hadvance _ hlast
  · apply hadvance
    rw [markRange_read]
    exact h

namespace Gate.Inv

variable {s s' : Gate}

theorem registered_iff (h : s.Inv) (slot : ℕ) :
    s.d.consumerIsRegistered slot = true ↔ s.members slot ≠ none := by
  simp only [consumerIsRegistered, Bool.and_eq_true, decide_eq_true_eq]
  constructor
  · exact fun hreg hnone => hreg.2 (h.vacancy slot hnone)
  · intro hsome
    obtain ⟨m, hm⟩ := Option.ne_none_iff_exists'.mp hsome
    obtain ⟨hlt, hcursor, hne, -⟩ := h.member slot m hm
    exact ⟨hlt, hcursor ▸ hne⟩

theorem numbers_ne_none (h : s.Inv) {slot : ℕ} (hreg : s.d.consumerIsRegistered slot = true) :
    numbers s.members slot ≠ none := fun hnone =>
  (h.registered_iff slot).mp hreg (numbers_eq_none.mp hnone)

theorem waitFor_iff (h : s.Inv) {slot : ℕ} {m : Subscriber} (hm : s.members slot = some m)
    (x : ℕ) : (consumerWaitFor s.d slot x).isSome = true ↔ x ≤ s.d.maxReadCursor ∧
      ∀ v ∈ s.d.consumerDependencies slot, x ≤ s.d.consumerCursors v := by
  have hreg : s.d.consumerIsRegistered slot = true :=
    (h.registered_iff slot).mpr (by rw [hm]; simp)
  rw [← le_foldl_min, ← consumerAvailableSequence, consumerWaitFor, if_neg (by simp [h.mode, hreg])]
  split
  next hlt => simpa using hlt
  next hge => simpa using hge

theorem handed (h : s.Inv) {slot : ℕ} {m : Subscriber} (hm : s.members slot = some m) (x : ℕ) :
    (consumerWaitFor s.d slot x).isSome = true ↔ x ≤ s.d.maxReadCursor ∧
      ∀ v m', s.members v = some m' → m'.id ∈ m.declared → x ≤ m'.released := by
  have hrow := h.rows slot m hm
  rw [h.waitFor_iff hm]
  constructor
  · rintro ⟨hread, hdeps⟩
    refine ⟨hread, fun v m' hv hdeclared => ?_⟩
    obtain ⟨w, hw, hnames⟩ : ∃ w ∈ s.d.consumerDependencies slot,
        Names (numbers s.members) w m'.id :=
      exists_of_forall₂_left (List.Forall₂.flip hrow) hdeclared
    have hid : numbers s.members v = some m'.id := numbers_eq_some.mpr ⟨m', hv, rfl⟩
    rcases hnames with hsome | ⟨-, hgone⟩
    · obtain rfl := h.injective w v _ hsome hid
      rw [← (h.member w m' hv).2.1]
      exact hdeps w hw
    · exact absurd hid (hgone v)
  · rintro ⟨hread, hdeps⟩
    refine ⟨hread, fun w hw => ?_⟩
    obtain ⟨e, he, hnames⟩ := exists_of_forall₂_left hrow hw
    rcases hnames with hsome | ⟨hnone, -⟩
    · obtain ⟨m', hw', rfl⟩ := numbers_eq_some.mp hsome
      rw [(h.member w m' hw').2.1]
      exact hdeps w m' hw' he
    · rw [h.vacancy w (numbers_eq_none.mp hnone)]
      exact hread.trans h.read_le

theorem numbers_lt (h : s.Inv) {v e : ℕ} (hv : numbers s.members v = some e) : e < s.nextId := by
  obtain ⟨m, hm, rfl⟩ := numbers_eq_some.mp hv
  exact (h.member v m hm).2.2.2

theorem registered_lt {d : Disruptor} {slot : ℕ} (hreg : d.consumerIsRegistered slot = true) :
    slot < d.consumerCapacity := by
  simp only [consumerIsRegistered, Bool.and_eq_true, decide_eq_true_eq] at hreg
  exact hreg.1

theorem proposed_lt (h : s.Inv) {slot : ℕ} {dependencies : List ℕ}
    (hslot : s.d.consumerIsRegistered slot = true)
    (hdeps : ∀ v ∈ dependencies, s.d.consumerIsRegistered v = true) (u v : ℕ)
    (huv : v ∈ s.d.proposedRows slot dependencies u) :
    u < s.d.consumerCapacity ∧ v < s.d.consumerCapacity := by
  by_cases hu : u = slot
  · subst hu
    rw [proposedRows, Function.update_self] at huv
    exact ⟨registered_lt hslot, registered_lt (hdeps v huv)⟩
  · rw [proposedRows, Function.update_of_ne hu] at huv
    exact h.row_lt u v huv

/-! ## Steps -/

/-- Steps that move cursors of the ring only. -/
theorem moved (h : s.Inv) {d : Disruptor} (hmode : d.mode = s.d.mode)
    (hcapacity : d.consumerCapacity = s.d.consumerCapacity)
    (hcursors : d.consumerCursors = s.d.consumerCursors)
    (hrows : d.consumerDependencies = s.d.consumerDependencies)
    (hread : d.maxReadCursor ≤ uint64Max) : Inv { s with d } := by
  constructor
  · exact hmode.trans h.mode
  · exact hread
  · rw [hcursors]
    exact h.vacancy
  · rw [hcursors, hcapacity]
    exact h.member
  · exact h.injective
  · rw [hrows, hcapacity]
    exact h.row_lt
  · rw [hrows]
    exact h.rows
  · exact h.declared_lt
  · rw [hrows]
    exact h.unwound
  · rw [hcapacity]
    exact h.built

theorem claim (h : s.Inv) (count : ℕ) : Inv { s with d := (tryClaimRange s.d count).1 } := by
  have hrefresh := refreshSlowestReader_same s.d
  unfold tryClaimRange
  split
  · exact h
  split
  · exact h
  dsimp only
  split
  · exact h
  split
  · exact h.moved rfl rfl rfl rfl h.read_le
  · generalize Word.add 64 (Word.add 64 s.d.writeCursor 1) (count - 1) = last
    specialize hrefresh last
    generalize refreshSlowestReader s.d last = r at hrefresh
    obtain ⟨d, slowest⟩ := r
    dsimp only at hrefresh ⊢
    subst hrefresh
    split
    · exact h.moved rfl rfl rfl rfl h.read_le
    · exact h.moved rfl rfl rfl rfl h.read_le

theorem publish (h : s.Inv) {first last : ℕ} (hlast : last ≤ uint64Max) :
    Inv { s with d := publishRange s.d first last } := by
  have hsame := publishRange_same s.d first last
  have hread := publishRange_read_le first h.read_le hlast
  unfold SameButPublished at hsame
  rw [hsame] at hread ⊢
  exact h.moved rfl rfl rfl rfl hread

theorem built_update (h : s.Inv) {k : ℕ} {t : Topology} (ht : t.Built s.d.consumerCapacity) :
    Inv { s with topologies := Function.update s.topologies k t } := by
  refine ⟨h.mode, h.read_le, h.vacancy, h.member, h.injective, h.row_lt, h.rows, h.declared_lt,
    h.unwound, fun j => ?_⟩
  by_cases hj : j = k
  · subst hj
    dsimp only
    rw [Function.update_self]
    exact ht
  · dsimp only
    rw [Function.update_of_ne hj]
    exact h.built j

/-- Steps that declare dependencies, in rows and by number. -/
theorem declared (h : s.Inv) {members : ℕ → Option Subscriber} {rows : ℕ → List ℕ}
    (hplaces : places members = places s.members) (hrows : RowsDeclared rows members)
    (hlt : ∀ u v, v ∈ rows u → u < s.d.consumerCapacity ∧ v < s.d.consumerCapacity)
    (hunwound : Unwound rows) (hdeclared : DeclaredBelow s.nextId members) :
    Inv { s with d := { s.d with consumerDependencies := rows }, members } := by
  have hnone : ∀ v, members v = none → s.members v = none := by
    intro v hv
    have hplace := congrFun hplaces v
    rw [places, hv] at hplace
    exact Option.map_eq_none_iff.mp hplace.symm
  have hsome : ∀ v m, members v = some m →
      ∃ m', s.members v = some m' ∧ m'.id = m.id ∧ m'.released = m.released := by
    intro v m hv
    have hplace := congrFun hplaces v
    rw [places, hv] at hplace
    obtain ⟨m', hm', heq⟩ := Option.map_eq_some_iff.mp hplace.symm
    exact ⟨m', hm', congrArg Prod.fst heq, congrArg Prod.snd heq⟩
  constructor
  · exact h.mode
  · exact h.read_le
  · exact fun slot hslot => h.vacancy slot (hnone slot hslot)
  · intro slot m hm
    obtain ⟨m', hm', hid, hreleased⟩ := hsome slot m hm
    have := h.member slot m' hm'
    rwa [hid, hreleased] at this
  · have hnumbers : numbers members = numbers s.members := by
      rw [numbers_eq_places, hplaces, ← numbers_eq_places]
    rw [hnumbers]
    exact h.injective
  · exact hlt
  · exact hrows
  · exact hdeclared
  · exact hunwound
  · exact h.built

theorem setDependencies (h : s.Inv) {slot : ℕ} {dependencies : List ℕ}
    (hs' : s.step (.setDependencies slot dependencies) = some s') : s'.Inv := by
  have hcases := consumerSetDependencies_cases s.d slot dependencies
  simp only [Gate.step] at hs'
  generalize consumerSetDependencies s.d slot dependencies = answer at hs' hcases
  cases hcases with
  | invalid => exact Option.some.inj hs' ▸ h
  | cycle => exact Option.some.inj hs' ▸ h
  | done hslot hdeps hcycle =>
    rw [← Option.some.inj hs']
    have hall : ∀ v ∈ dependencies, numbers s.members v ≠ none :=
      fun v hv => h.numbers_ne_none (hdeps v hv)
    have hlt := h.proposed_lt hslot hdeps
    apply h.declared (places_declare _ _ _) (h.rows.declare hall) hlt
    · exact (dependenciesWouldCycle_iff hlt).mp hcycle
    · exact h.declared_lt.declare (fun _ _ => h.numbers_lt) _ _

theorem topologyCommit (h : s.Inv) {k : ℕ} (hs' : s.step (.topologyCommit k) = some s') :
    s'.Inv := by
  have hbuilt := h.built k
  simp only [Gate.step] at hs'
  rcases (s.topologies k).commit_cases s.d with heq | ⟨hcycle, hreg, heq⟩
  · rw [heq] at hs'
    exact Option.some.inj hs' ▸ h
  · rw [heq] at hs'
    rw [← Option.some.inj hs']
    have hall : ∀ v ∈ (s.topologies k).stages, numbers s.members v ≠ none :=
      fun v hv => h.numbers_ne_none (hreg v hv)
    obtain ⟨hrows, hbelow, hplaces⟩ :=
      declareAll_spec h.rows h.declared_lt (fun _ _ => h.numbers_lt) hall le_rfl
    apply h.declared hplaces hrows
    · intro u v hv
      by_cases hu : u ∈ (s.topologies k).stages
      · obtain ⟨i, hi, rfl⟩ := Topology.exists_slot hu
        rw [← Topology.committed, Topology.committed_slot hbuilt _ hi] at hv
        exact ⟨hbuilt.lt _ hu, hbuilt.lt v (Topology.mem_row hv)⟩
      · rw [← Topology.committed, Topology.committed_other hbuilt _ hu] at hv
        exact h.row_lt u v hv
    · exact Topology.committed_unwound hbuilt h.unwound hcycle
    · exact hbelow

/-! ### Consumers that come and go -/

/-- A slot gets a new occupant, or none. -/
theorem placed (h : s.Inv) {slot cursor n : ℕ} {o : Option Subscriber} (hn : s.nextId ≤ n)
    (hvacant : o = none → cursor = vacant)
    (hmember : ∀ m, o = some m → slot < s.d.consumerCapacity ∧ cursor = m.released ∧
      m.released ≠ vacant ∧ m.id < n)
    (hfresh : ∀ m, o = some m → ∀ v, v ≠ slot → numbers s.members v ≠ some m.id)
    (hrows : RowsDeclared s.d.consumerDependencies (Function.update s.members slot o))
    (hdeclared : ∀ m, o = some m → ∀ e ∈ m.declared, e < n) :
    Inv { s with
      d := { s.d with consumerCursors := Function.update s.d.consumerCursors slot cursor }
      members := Function.update s.members slot o
      nextId := n } := by
  have hother : ∀ v, v ≠ slot →
      numbers (Function.update s.members slot o) v = numbers s.members v := by
    intro v hv
    rw [numbers, Function.update_of_ne hv]
    rfl
  constructor
  · exact h.mode
  · exact h.read_le
  · intro v hv
    dsimp only at hv ⊢
    by_cases hslot : v = slot
    · rw [hslot, Function.update_self] at hv ⊢
      exact hvacant hv
    · rw [Function.update_of_ne hslot] at hv ⊢
      exact h.vacancy v hv
  · intro v m hv
    dsimp only at hv ⊢
    by_cases hslot : v = slot
    · rw [hslot, Function.update_self] at hv ⊢
      exact hmember m hv
    · rw [Function.update_of_ne hslot] at hv ⊢
      obtain ⟨hlt, hcursor, hne, hid⟩ := h.member v m hv
      exact ⟨hlt, hcursor, hne, hid.trans_le hn⟩
  · have hslot : ∀ v e, v ≠ slot → numbers (Function.update s.members slot o) slot = some e →
        numbers (Function.update s.members slot o) v ≠ some e := by
      intro v e hv he
      obtain ⟨m, hm, rfl⟩ := numbers_eq_some.mp he
      rw [Function.update_self] at hm
      rw [hother v hv]
      exact hfresh m hm v hv
    intro u v e hu hv
    by_cases hus : u = slot
    · by_contra hne
      subst hus
      exact hslot v e (Ne.symm hne) hu hv
    · by_cases hvs : v = slot
      · subst hvs
        exact absurd hu (hslot u e hus hv)
      · rw [hother u hus] at hu
        rw [hother v hvs] at hv
        exact h.injective u v e hu hv
  · exact h.row_lt
  · exact hrows
  · intro v m hv e he
    dsimp only at hv ⊢
    by_cases hslot : v = slot
    · rw [hslot, Function.update_self] at hv
      exact hdeclared m hv e he
    · rw [Function.update_of_ne hslot] at hv
      exact (h.declared_lt v m hv e he).trans_le hn
  · exact h.unwound
  · exact h.built

theorem register (h : s.Inv) {fails : ℕ → Bool} (hop : s.NoStaleRow (.register fails))
    (hs' : s.step (.register fails) = some s') : s'.Inv := by
  obtain ⟨hslowest, hfree⟩ := hop
  rw [Gate.step, consumerTryRegister, if_neg (by rw [h.mode]; simp)] at hs'
  generalize hfind : (List.range s.d.consumerCapacity).find? (fun i =>
    decide (s.d.consumerCursors i = vacant) && !fails i) = found at hs'
  cases found with
  | none =>
    obtain rfl := Option.some.inj hs'
    exact h
  | some i =>
    obtain rfl := Option.some.inj hs'
    rw [List.find?_range_eq_some] at hfind
    simp only [Bool.and_eq_true, decide_eq_true_eq, Bool.not_eq_true'] at hfind
    obtain ⟨⟨hvacant, hfails⟩, hi, hearlier⟩ := hfind
    obtain ⟨hrow, hnamed⟩ := hfree i (List.mem_range.mp hi) hvacant hfails fun j hj hv => by
      simpa [hv] using hearlier j hj
    apply h.placed (Nat.le_succ _)
    · exact fun hnone => absurd hnone (by simp)
    · intro m hm
      obtain rfl := Option.some.inj hm
      exact ⟨List.mem_range.mp hi, rfl, hslowest, Nat.lt_succ_self _⟩
    · intro m hm v _ hv
      obtain rfl := Option.some.inj hm
      exact lt_irrefl _ (h.numbers_lt hv)
    · intro u m hu
      by_cases hui : u = i
      · rw [hui, Function.update_self] at hu
        obtain rfl := Option.some.inj hu
        rw [hui, hrow]
        exact .nil
      · rw [Function.update_of_ne hui] at hu
        refine forall₂_imp_mem (h.rows u m hu) fun v hv e he hnames => ?_
        have hvi : v ≠ i := fun heq => hnamed u m hu (heq ▸ hv)
        apply hnames.update_fresh hvi
        exact (h.declared_lt u m hu e he).ne'
    · intro m hm e he
      obtain rfl := Option.some.inj hm
      exact absurd he (by simp)

theorem unregister (h : s.Inv) {slot : ℕ} (hs' : s.step (.unregister slot) = some s') :
    s'.Inv := by
  obtain rfl := Option.some.inj hs'
  by_cases hreg : s.d.consumerIsRegistered slot = true
  · have hleave : Inv { s with
        d := { s.d with consumerCursors := Function.update s.d.consumerCursors slot vacant }
        members := Function.update s.members slot none } := by
      apply h.placed le_rfl (fun _ => rfl)
      · exact fun m hm => absurd hm (by simp)
      · exact fun m hm => absurd hm (by simp)
      · intro u m hu
        by_cases hus : u = slot
        · rw [hus, Function.update_self] at hu
          exact absurd hu (by simp)
        · rw [Function.update_of_ne hus] at hu
          refine forall₂_imp_mem (h.rows u m hu) fun v _ e _ hnames => ?_
          exact hnames.update_none h.injective
      · exact fun m hm => absurd hm (by simp)
    rw [consumerUnregister, if_neg (by simp [h.mode, hreg]), refreshSlowestReader_same]
    exact hleave.moved rfl rfl rfl rfl h.read_le
  · have hnone : s.members slot = none := by
      by_contra hsome
      exact hreg ((h.registered_iff slot).mpr hsome)
    rw [consumerUnregister, if_pos (by simp [hreg])]
    rw [show Function.update s.members slot none = s.members by
      rw [← hnone, Function.update_eq_self]]
    exact h

theorem release (h : s.Inv) {slot sequence : ℕ} (hop : s.NoStaleRow (.release slot sequence))
    (hs' : s.step (.release slot sequence) = some s') : s'.Inv := by
  simp only [Gate.step] at hs'
  split at hs'
  · obtain rfl := Option.some.inj hs'
    cases hm : s.members slot with
    | none =>
      have hreg : s.d.consumerIsRegistered slot = false := by
        by_contra hreg
        exact (h.registered_iff slot).mp (by simpa using hreg) hm
      rw [consumerReleaseEntry, if_pos (.inr hreg), Option.map_none, ← hm, Function.update_eq_self]
      exact h
    | some m =>
      have hreg : s.d.consumerIsRegistered slot = true :=
        (h.registered_iff slot).mpr (by rw [hm]; simp)
      obtain ⟨hlt, -, -, hid⟩ := h.member slot m hm
      have hsame : numbers (Function.update s.members slot
          (some { m with released := sequence })) = numbers s.members := by
        funext v
        by_cases hv : v = slot
        · rw [numbers, numbers, hv, Function.update_self, hm]
          rfl
        · rw [numbers, Function.update_of_ne hv]
          rfl
      rw [consumerReleaseEntry, if_neg (by simp [h.mode, hreg]), Option.map_some]
      apply h.placed le_rfl
      · exact fun hnone => absurd hnone (by simp)
      · intro m' hm'
        obtain rfl := Option.some.inj hm'
        exact ⟨hlt, rfl, hop, hid⟩
      · intro m' hm' v hv hnumber
        obtain rfl := Option.some.inj hm'
        exact hv (h.injective v slot _ hnumber (numbers_eq_some.mpr ⟨m, hm, rfl⟩))
      · intro u m' hu
        rw [hsame]
        by_cases hus : u = slot
        · rw [hus, Function.update_self] at hu
          obtain rfl := Option.some.inj hu
          rw [hus]
          exact h.rows slot m hm
        · rw [Function.update_of_ne hus] at hu
          exact h.rows u m' hu
      · intro m' hm' e he
        obtain rfl := Option.some.inj hm'
        exact h.declared_lt slot m hm e he
  · exact absurd hs' (by simp)

theorem step (h : s.Inv) {op : GateOp} (hop : s.NoStaleRow op) (hs' : s.step op = some s') :
    s'.Inv := by
  cases op with
  | register fails => exact h.register hop hs'
  | unregister slot => exact h.unregister hs'
  | setDependencies slot dependencies => exact h.setDependencies hs'
  | topologyCreate k => exact Option.some.inj hs' ▸ h.built_update (.create _)
  | topologyStage k slot => exact Option.some.inj hs' ▸ h.built_update ((h.built k).stage slot)
  | topologyAfter k stage dependency =>
    exact Option.some.inj hs' ▸ h.built_update ((h.built k).after stage dependency)
  | topologyCommit k => exact h.topologyCommit hs'
  | claim count => exact Option.some.inj hs' ▸ h.claim count
  | publish first last =>
    simp only [Gate.step] at hs'
    split at hs'
    next hlast => exact Option.some.inj hs' ▸ h.publish hlast
    · exact absurd hs' (by simp)
  | release slot sequence => exact h.release hop hs'

/-! ## Refused dependencies -/

/-- On a cycle of the proposed rows every slot is taken, so the consumers in them form a cycle. -/
theorem not_acyclic (h : s.Inv) {slot : ℕ} {dependencies : List ℕ}
    (hslot : s.d.consumerIsRegistered slot = true)
    (hdeps : ∀ v ∈ dependencies, s.d.consumerIsRegistered v = true)
    (hstale : ∀ u v, v ∈ s.d.consumerDependencies u → s.members v = none →
      s.d.consumerDependencies v = [])
    (hcycle : ¬Unwound (s.d.proposedRows slot dependencies)) :
    ¬Kahn.Acyclic (Depends (declare s.members slot dependencies)) := by
  intro hacyclic
  apply hcycle
  have hrows : RowsDeclared (s.d.proposedRows slot dependencies)
      (declare s.members slot dependencies) :=
    h.rows.declare fun v hv => h.numbers_ne_none (hdeps v hv)
  have htaken : ∀ u v w, v ∈ s.d.proposedRows slot dependencies u →
      w ∈ s.d.proposedRows slot dependencies v →
      ∃ e, numbers (declare s.members slot dependencies) v = some e := by
    intro u v w huv hvw
    rw [numbers_declare]
    apply Option.ne_none_iff_exists'.mp
    by_cases hvs : v = slot
    · exact h.numbers_ne_none (hvs ▸ hslot)
    · intro hnone
      rw [proposedRows, Function.update_of_ne hvs] at hvw
      by_cases hus : u = slot
      · rw [hus, proposedRows, Function.update_self] at huv
        exact h.numbers_ne_none (hdeps v huv) hnone
      · rw [proposedRows, Function.update_of_ne hus] at huv
        rw [hstale u v huv (numbers_eq_none.mp hnone)] at hvw
        exact absurd hvw (by simp)
  have hedge : ∀ u v a b, v ∈ s.d.proposedRows slot dependencies u →
      numbers (declare s.members slot dependencies) u = some a →
      numbers (declare s.members slot dependencies) v = some b →
      Depends (declare s.members slot dependencies) a b := by
    intro u v a b huv ha hb
    obtain ⟨m, hm, rfl⟩ := numbers_eq_some.mp ha
    obtain ⟨m', hm', rfl⟩ := numbers_eq_some.mp hb
    obtain ⟨e, he, hnames⟩ := exists_of_forall₂_left (hrows u m hm) huv
    rcases hnames with hsome | ⟨hnone, -⟩
    · obtain rfl := Option.some.inj (hsome.symm.trans hb)
      exact ⟨u, v, m, m', hm, hm', rfl, rfl, he⟩
    · exact absurd (hnone.symm.trans hb) (by simp)
  have hpath : ∀ u v, Relation.TransGen (fun u v => v ∈ s.d.proposedRows slot dependencies u) u v →
      ∀ a, numbers (declare s.members slot dependencies) u = some a →
      ∀ w, w ∈ s.d.proposedRows slot dependencies v →
      ∃ b, numbers (declare s.members slot dependencies) v = some b ∧
        Relation.TransGen (Depends (declare s.members slot dependencies)) a b := by
    intro u v huv
    induction huv with
    | single huv =>
      intro a ha w hw
      obtain ⟨b, hb⟩ := htaken _ _ w huv hw
      exact ⟨b, hb, .single (hedge _ _ a b huv ha hb)⟩
    | tail _ hvw ih =>
      intro a ha x hx
      obtain ⟨b, hb, hab⟩ := ih a ha _ hvw
      obtain ⟨c, hc⟩ := htaken _ _ x hvw hx
      exact ⟨c, hc, hab.tail (hedge _ _ b c hvw hb hc)⟩
  intro v hv
  obtain ⟨w, hvw, -⟩ := Relation.TransGen.head'_iff.mp hv
  obtain ⟨u, -, huv⟩ := Relation.TransGen.tail'_iff.mp hv
  obtain ⟨a, ha⟩ := htaken u v w huv hvw
  obtain ⟨b, hb, hab⟩ := hpath v v hv a ha w hvw
  obtain rfl := Option.some.inj (ha.symm.trans hb)
  exact hacyclic a hab

theorem refused (h : s.Inv) {slot : ℕ} {dependencies : List ℕ}
    (hop : s.NoStaleRow (.setDependencies slot dependencies))
    (hfalse : (consumerSetDependencies s.d slot dependencies).2 = false) :
    (consumerSetDependencies s.d slot dependencies).1 = s.d ∧
      (InvalidArgument s slot dependencies ∨
        ¬Kahn.Acyclic (Depends (declare s.members slot dependencies))) := by
  have hnone : ∀ v, s.d.consumerIsRegistered v = false → s.members v = none := by
    intro v hv
    by_contra hsome
    rw [(h.registered_iff v).mpr hsome] at hv
    exact absurd hv (by simp)
  have hcases := consumerSetDependencies_cases s.d slot dependencies
  generalize consumerSetDependencies s.d slot dependencies = answer at hfalse hcases
  cases hcases with
  | invalid hinvalid =>
    refine ⟨rfl, .inl ?_⟩
    rcases hinvalid with hmode | hslot | hcount | ⟨v, hv, hbad⟩ | hnodup
    · exact absurd h.mode hmode
    · exact .inl (hnone slot hslot)
    · exact .inr (.inl hcount)
    · exact .inr (.inr (.inl ⟨v, hv, hbad.imp_left (hnone v)⟩))
    · exact .inr (.inr (.inr hnodup))
  | cycle hslot hdeps hcycle =>
    refine ⟨rfl, .inr (h.not_acyclic hslot hdeps hop fun hunwound => ?_)⟩
    rw [(dependenciesWouldCycle_iff (h.proposed_lt hslot hdeps)).mpr hunwound] at hcycle
    exact absurd hcycle (by simp)
  | done => exact absurd hfalse (by simp)

end Gate.Inv

theorem Gate.start_inv {config : Config} {d : Disruptor} (h : create config = some d)
    (hmode : config.mode = .broadcast) : (Gate.start d).Inv := by
  obtain ⟨rfl, -⟩ := create_sized h
  constructor
  · exact hmode
  · exact Nat.zero_le _
  · exact fun _ _ => rfl
  · exact fun slot m hm => absurd hm (by simp [start])
  · exact fun u v e hu => absurd hu (by simp [start, numbers])
  · exact fun u v hv => absurd hv (by simp [start, init])
  · exact fun slot m hm => absurd hm (by simp [start])
  · exact fun slot m hm => absurd hm (by simp [start])
  · exact unwound_nil
  · exact fun _ => .create _

theorem Gate.Reaches.next {allowed : Gate → GateOp → Prop} {d : Disruptor} {s s' : Gate}
    (h : Gate.Reaches allowed d s) (op : GateOp) (hop : allowed s op) (hs' : s.step op = some s') :
    Gate.Reaches allowed d s' := h.step hop hs'

def pairGate : Config := ⟨8, 2, 2, .broadcast⟩

end Concurrency.Disruptor
