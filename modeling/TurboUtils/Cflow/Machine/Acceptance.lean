import TurboUtils.Cflow.Machine.Select
import TurboUtils.Lib.Marking

/-! What `cflow_machine_build` accepts: exactly the well-formed definitions, in whatever order their
rows stand. -/
namespace Cflow.Machine

open TypeDesc

variable {τ : Type} [TypeDesc τ]

/-! ## Well-formed definitions -/

def TypeSound (type : τ) : Prop := valid type = true ∧ size type ≠ 0

structure StateSound (state : State τ) : Prop where
  id : state.id ≠ 0
  valueType : TypeSound state.valueType
  kind : state.kind = .active ∨ state.kind = .done ∨ state.kind = .error

structure EventSound (event : EventType τ) : Prop where
  id : event.id ≠ 0
  payloadType : TypeSound event.payloadType

def Carries (d : Definition τ) (id : ℕ) (type : τ) : Prop :=
  ∃ event ∈ d.events, event.id = id ∧ equal event.payloadType type = true

structure GuardSound (d : Definition τ) (guard : Guard τ) : Prop where
  id : guard.id ≠ 0
  eventId : guard.eventId ≠ 0
  stateType : TypeSound guard.stateType
  eventType : TypeSound guard.eventType
  effects : guard.effects = 0
  properties : propertiesValid guard.properties = true
  contract : propertiesInclude guard.properties (propStable ||| propNoAlias) = true
  event : Carries d guard.eventId guard.eventType

/-- What an action gives out: nothing, a value, or an event that is declared with its type. -/
inductive ObservationSound (d : Definition τ) (action : Action τ) : Prop
  | none (h : action.observation = .none) (htype : action.outputType = none)
      (hevent : action.outputEventId = 0)
  | value (h : action.observation = .value) (type : τ) (htype : action.outputType = some type)
      (hsound : TypeSound type) (hevent : action.outputEventId = 0)
  | event (h : action.observation = .event) (type : τ) (htype : action.outputType = some type)
      (hsound : TypeSound type) (hid : action.outputEventId ≠ 0)
      (hevent : Carries d action.outputEventId type)

structure ActionSound (d : Definition τ) (action : Action τ) : Prop where
  id : action.id ≠ 0
  eventId : action.eventId ≠ 0
  sourceType : TypeSound action.sourceType
  eventType : TypeSound action.eventType
  targetType : TypeSound action.targetType
  effects : effectsValid action.effects = true
  properties : propertiesValid action.properties = true
  contract : propertiesInclude action.properties (propDeterministic ||| propNoAlias) = true
  total : action.properties &&& propTotal = 0 ∨ action.effects &&& effectMayFail = 0
  event : Carries d action.eventId action.eventType
  observation : ObservationSound d action

/-- A transition leads from a state that is not terminal; all that it names is declared and fits. -/
structure TransitionSound (d : Definition τ) (row : Transition) : Prop where
  fits : ∃ source ∈ d.states, ∃ target ∈ d.states, ∃ event ∈ d.events,
    source.id = row.source ∧ target.id = row.target ∧ event.id = row.event ∧
      source.kind = .active ∧
      (row.guard = 0 ∨ ∃ guard ∈ d.guards, guard.id = row.guard ∧ guard.eventId = row.event ∧
        equal guard.stateType source.valueType = true ∧
          equal guard.eventType event.payloadType = true) ∧
      ((row.action = 0 ∧ equal source.valueType target.valueType = true) ∨
        row.action ≠ 0 ∧ ∃ action ∈ d.actions, action.id = row.action ∧
          action.eventId = row.event ∧ equal action.sourceType source.valueType = true ∧
            equal action.eventType event.payloadType = true ∧
              equal action.targetType target.valueType = true)

def Transition.choice (row : Transition) : ℕ × ℕ × ℕ := (row.source, row.event, row.priority)

/-- The states that transitions lead to from the initial state. -/
inductive StateReached (d : Definition τ) : ℕ → Prop
  | initial : StateReached d d.initialState
  | step {row : Transition} (h : StateReached d row.source) (hrow : row ∈ d.transitions) :
      StateReached d row.target

structure WellFormed (d : Definition τ) : Prop where
  states : ∀ state ∈ d.states, StateSound state
  stateIds : (d.states.map (·.id)).Nodup
  initial : ∃ state ∈ d.states, state.id = d.initialState
  events : ∀ event ∈ d.events, EventSound event
  eventIds : (d.events.map (·.id)).Nodup
  guards : ∀ guard ∈ d.guards, GuardSound d guard
  guardIds : (d.guards.map (·.id)).Nodup
  actions : ∀ action ∈ d.actions, ActionSound d action
  actionIds : (d.actions.map (·.id)).Nodup
  transitions : ∀ row ∈ d.transitions, TransitionSound d row
  choices : (d.transitions.map Transition.choice).Nodup
  reached : ∀ state ∈ d.states, StateReached d state.id
  guardsUsed : ∀ guard ∈ d.guards, ∃ row ∈ d.transitions, row.guard = guard.id
  actionsUsed : ∀ action ∈ d.actions, ∃ row ∈ d.transitions, row.action = action.id

def WithinLimits (d : Definition τ) : Prop :=
  d.states.length ≤ maxStates ∧ d.events.length ≤ maxEvents ∧ d.guards.length ≤ maxGuards ∧
    d.actions.length ≤ maxActions ∧ d.transitions.length ≤ maxTransitions

structure Reordered (d d' : Definition τ) : Prop where
  states : d.states.Perm d'.states
  initialState : d.initialState = d'.initialState
  events : d.events.Perm d'.events
  guards : d.guards.Perm d'.guards
  actions : d.actions.Perm d'.actions
  transitions : d.transitions.Perm d'.transitions

/-- Rows that a sort by the comparisons may leave, whatever it does with ties. -/
structure Ordered (impl : Machine τ) : Prop where
  states : impl.states.Pairwise fun a b => a.id ≤ b.id
  events : impl.events.Pairwise fun a b => a.id ≤ b.id
  guards : impl.guards.Pairwise fun a b => a.id ≤ b.id
  actions : impl.actions.Pairwise fun a b => a.id ≤ b.id
  transitions : Sorted impl

/-! ## Checks over rows -/

section rows

variable {α ε κ : Type} [LinearOrder κ]

/-- A check of a row and of the row before it. -/
theorem checkRows_iff {check : Option α → α → Except ε Unit} {P : α → Prop} {R : α → α → Prop}
    (h : ∀ previous row, check previous row = .ok () ↔ P row ∧ ∀ p ∈ previous, R p row)
    {previous : Option α} {rows : List α} : checkRows check previous rows = .ok () ↔
      (∀ row ∈ rows, P row) ∧ (previous.toList ++ rows).IsChain R := by
  induction rows generalizing previous with
  | nil => cases previous <;> simp [checkRows]
  | cons row rows ih =>
    have hcons : checkRows check previous (row :: rows) = .ok () ↔
        check previous row = .ok () ∧ checkRows check (some row) rows = .ok () := by
      rw [checkRows]
      cases check previous row with
      | error e => simp
      | ok u => simp
    rw [hcons, h, ih, List.forall_mem_cons]
    cases previous with
    | none => simp only [Option.not_mem_none, false_imp_iff, implies_true, and_true,
        Option.toList_none, List.nil_append, Option.toList_some, List.singleton_append]; tauto
    | some p => simp only [Option.mem_def, Option.some.injEq, forall_eq', Option.toList_some,
        List.singleton_append, List.isChain_cons_cons]; tauto

/-- In sorted rows whose neighbours differ the keys go up. -/
theorem pairwise_lt_of_chain {key : α → κ} {rows : List α}
    (h : rows.Pairwise fun a b => key a ≤ key b) (hchain : rows.IsChain fun a b => key a ≠ key b) :
    rows.Pairwise fun a b => key a < key b := by
  induction rows with
  | nil => exact .nil
  | cons a rows ih =>
    obtain ⟨hle, hrest⟩ := List.pairwise_cons.1 h
    cases rows with
    | nil => exact List.pairwise_singleton _ _
    | cons b rows =>
      obtain ⟨hne, hchain⟩ := List.isChain_cons_cons.1 hchain
      have hlt := ih hrest hchain
      have hab := lt_of_le_of_ne (hle b List.mem_cons_self) hne
      refine List.pairwise_cons.2 ⟨fun c hc => ?_, hlt⟩
      rcases List.mem_cons.1 hc with rfl | hc
      · exact hab
      · exact hab.trans ((List.pairwise_cons.1 hlt).1 c hc)

theorem chain_ne_iff {key : α → κ} {rows : List α} (h : rows.Pairwise fun a b => key a ≤ key b) :
    (rows.IsChain fun a b => key a ≠ key b) ↔ (rows.map key).Nodup := by
  rw [List.Nodup, List.pairwise_map]
  exact ⟨fun hchain => (pairwise_lt_of_chain h hchain).imp fun hlt => hlt.ne, fun hp => hp.isChain⟩

theorem pairwise_lt_of_nodup {key : α → κ} {rows : List α}
    (h : rows.Pairwise fun a b => key a ≤ key b) (hn : (rows.map key).Nodup) :
    rows.Pairwise fun a b => key a < key b :=
  pairwise_lt_of_chain h ((chain_ne_iff h).2 hn)

theorem eq_of_perm_of_lt {key : α → κ} {rows rows' : List α} (hp : rows.Perm rows')
    (h : rows.Pairwise fun a b => key a < key b) (h' : rows'.Pairwise fun a b => key a < key b) :
    rows = rows' :=
  hp.eq_of_pairwise (fun _ _ _ _ hab hba => absurd hba hab.asymm) h h'

end rows

theorem findRow_iff {α : Type} {key : α → ℕ} {rows : List α}
    (h : rows.Pairwise fun a b => key a < key b) {id : ℕ} {row : α} :
    findRow key rows id = some row ↔ row ∈ rows ∧ key row = id := by
  constructor
  · exact findRow_some
  · rintro ⟨hmem, rfl⟩
    obtain ⟨i, hi⟩ := List.mem_iff_getElem?.1 hmem
    unfold findRow
    rw [findIndex_eq h hi, Option.bind_some, hi]

theorem findRow_eq_none_iff {α : Type} {key : α → ℕ} {rows : List α}
    (h : rows.Pairwise fun a b => key a < key b) {id : ℕ} :
    findRow key rows id = none ↔ ∀ row ∈ rows, key row ≠ id := by
  rw [Option.eq_none_iff_forall_ne_some]
  refine forall_congr' fun row => ?_
  rw [Ne, findRow_iff h, not_and]

/-! ## The domains -/

theorem validValueType_iff {type : τ} : validValueType type = true ↔ TypeSound type := by
  unfold validValueType TypeSound
  rw [Bool.and_eq_true, bne_iff_ne]

theorem any_iff {α : Type} {previous : Option α} {p : α → Prop} [DecidablePred p] :
    previous.any (fun row => decide (p row)) = true ↔ ¬ ∀ row ∈ previous, ¬ p row := by
  cases previous <;> simp

theorem checkTable_iff {α : Type} {check : Option α → α → Except Status Unit} {key : α → ℕ}
    {P : α → Prop} (h : ∀ previous row, check previous row = .ok () ↔
      P row ∧ ∀ p ∈ previous, ¬ key p = key row) {rows : List α}
    (hs : rows.Pairwise fun a b => key a ≤ key b) :
    checkRows check none rows = .ok () ↔ (∀ row ∈ rows, P row) ∧ (rows.map key).Nodup := by
  rw [checkRows_iff h, Option.toList_none, List.nil_append]
  exact and_congr_right fun _ => chain_ne_iff hs

theorem checkState_iff (previous : Option (State τ)) (state : State τ) :
    checkState previous state = .ok () ↔
      StateSound state ∧ ∀ p ∈ previous, ¬ p.id = state.id := by
  unfold checkState
  split_ifs with hid hprevious htype
  · exact iff_of_false nofun fun h => h.1.id hid
  · exact iff_of_false nofun fun h => any_iff.1 hprevious h.2
  · refine iff_of_false nofun fun h => ?_
    rw [validValueType_iff.2 h.1.valueType] at htype
    cases htype
  · rw [any_iff, not_not] at hprevious
    rw [Bool.not_eq_true', Bool.not_eq_false, validValueType_iff] at htype
    have hsound : StateSound state ↔
        state.kind = .active ∨ state.kind = .done ∨ state.kind = .error :=
      ⟨fun h => h.kind, fun h => ⟨hid, htype, h⟩⟩
    rw [hsound, and_iff_left hprevious]
    cases state.kind <;> simp

theorem then_ok_iff {x y : Except Status Unit} :
    (x >>= fun _ => y) = .ok () ↔ x = .ok () ∧ y = .ok () := by
  rw [Fallible.bind_eq_ok]
  exact ⟨fun ⟨_, h⟩ => h, fun h => ⟨(), h⟩⟩

theorem validateStateDomain_iff {impl : Machine τ} (h : Ordered impl) :
    validateStateDomain impl = .ok () ↔ ((∀ state ∈ impl.states, StateSound state) ∧
      (impl.states.map (·.id)).Nodup) ∧ ∃ state ∈ impl.states, state.id = impl.initialState := by
  unfold validateStateDomain
  rw [then_ok_iff, ← checkTable_iff checkState_iff h.states]
  refine and_congr_right fun hrows => ?_
  have hlt := pairwise_lt_of_nodup h.states ((checkTable_iff checkState_iff h.states).1 hrows).2
  unfold findState
  split
  next hnone =>
    rw [findRow_eq_none_iff hlt] at hnone
    exact iff_of_false nofun fun ⟨state, hmem, hid⟩ => hnone state hmem hid
  next state hstate => exact iff_of_true rfl ⟨state, findRow_some hstate⟩

theorem checkEvent_iff (previous : Option (EventType τ)) (event : EventType τ) :
    checkEvent previous event = .ok () ↔
      EventSound event ∧ ∀ p ∈ previous, ¬ p.id = event.id := by
  unfold checkEvent
  split_ifs with hid hprevious htype
  · exact iff_of_false nofun fun h => h.1.id hid
  · exact iff_of_false nofun fun h => any_iff.1 hprevious h.2
  · refine iff_of_false nofun fun h => ?_
    rw [validValueType_iff.2 h.1.payloadType] at htype
    cases htype
  · rw [any_iff, not_not] at hprevious
    rw [Bool.not_eq_true', Bool.not_eq_false, validValueType_iff] at htype
    exact iff_of_true rfl ⟨⟨hid, htype⟩, hprevious⟩

section events

variable {impl : Machine τ} (hevents : impl.events.Pairwise fun a b => a.id < b.id)
include hevents

theorem carries_iff {id : ℕ} {event : EventType τ} (h : findEvent impl id = some event) {type : τ} :
    Carries impl id type ↔ equal event.payloadType type = true := by
  obtain ⟨hmem, hid⟩ := findRow_some h
  constructor
  · rintro ⟨event', hmem', hid', hequal⟩
    have hfound := (findRow_iff hevents).2 ⟨hmem', hid'⟩
    unfold findEvent at h
    rw [h] at hfound
    cases hfound
    exact hequal
  · exact fun hequal => ⟨event, hmem, hid, hequal⟩

theorem not_carries {id : ℕ} (h : findEvent impl id = none) {type : τ} : ¬ Carries impl id type := by
  rintro ⟨event, hmem, hid, -⟩
  exact (findRow_eq_none_iff hevents).1 h event hmem hid

theorem checkGuard_iff (previous : Option (Guard τ)) (guard : Guard τ) :
    checkGuard impl previous guard = .ok () ↔
      GuardSound impl guard ∧ ∀ p ∈ previous, ¬ p.id = guard.id := by
  unfold checkGuard
  split_ifs with hid hprevious htype hcontract
  · rw [Bool.or_eq_true, decide_eq_true_iff, decide_eq_true_iff] at hid
    exact iff_of_false nofun fun h => hid.elim h.1.id h.1.eventId
  · exact iff_of_false nofun fun h => any_iff.1 hprevious h.2
  · refine iff_of_false nofun fun h => ?_
    rw [validValueType_iff.2 h.1.stateType, validValueType_iff.2 h.1.eventType] at htype
    cases htype
  · refine iff_of_false nofun fun h => ?_
    rw [h.1.properties, h.1.contract, h.1.effects] at hcontract
    cases hcontract
  · rw [Bool.or_eq_true, decide_eq_true_iff, decide_eq_true_iff, not_or] at hid
    rw [any_iff, not_not] at hprevious
    simp only [Bool.or_eq_true, Bool.not_eq_true', not_or, Bool.not_eq_false,
      validValueType_iff] at htype hcontract
    obtain ⟨⟨⟨-, hproperties⟩, hpure⟩, hinclude⟩ := hcontract
    have hsound : GuardSound impl guard ↔ Carries impl guard.eventId guard.eventType :=
      ⟨fun h => h.event, fun h => ⟨hid.1, hid.2, htype.1, htype.2, of_decide_eq_true hpure,
        hproperties, hinclude, h⟩⟩
    rw [hsound, and_iff_left hprevious]
    split
    next hnone => exact iff_of_false nofun (not_carries hevents hnone)
    next event hevent =>
      rw [carries_iff hevents hevent]
      cases equal event.payloadType guard.eventType <;> simp

omit hevents in
theorem any_valid_iff {type : Option τ} :
    type.any validValueType = true ↔ ∃ t, type = some t ∧ TypeSound t := by
  cases type with
  | none => simp
  | some t => simp [validValueType_iff]

theorem validateActionObservation_iff (action : Action τ) :
    validateActionObservation impl action = .ok () ↔ ObservationSound impl action := by
  unfold validateActionObservation
  cases hobservation : action.observation with
  | none =>
    dsimp only
    split_ifs with hout
    · rw [Bool.and_eq_true, Option.isNone_iff_eq_none, decide_eq_true_iff] at hout
      exact iff_of_true rfl (.none hobservation hout.1 hout.2)
    · refine iff_of_false nofun fun h => hout ?_
      cases h with
      | none _ htype hevent => simp [htype, hevent]
      | value h => cases hobservation.symm.trans h
      | event h => cases hobservation.symm.trans h
  | value =>
    dsimp only
    split_ifs with hout
    · rw [Bool.and_eq_true, any_valid_iff, decide_eq_true_iff] at hout
      obtain ⟨⟨type, htype, hsound⟩, hevent⟩ := hout
      exact iff_of_true rfl (.value hobservation type htype hsound hevent)
    · refine iff_of_false nofun fun h => hout ?_
      cases h with
      | none h => cases hobservation.symm.trans h
      | value _ type htype hsound hevent =>
        rw [Bool.and_eq_true, any_valid_iff, decide_eq_true_iff]
        exact ⟨⟨type, htype, hsound⟩, hevent⟩
      | event h => cases hobservation.symm.trans h
  | event =>
    dsimp only
    split_ifs with hout
    · refine iff_of_false nofun fun h => ?_
      rw [Bool.or_eq_true, Bool.not_eq_true', decide_eq_true_iff] at hout
      cases h with
      | none h => cases hobservation.symm.trans h
      | value h => cases hobservation.symm.trans h
      | event _ type htype hsound hid _ =>
        rw [any_valid_iff.2 ⟨type, htype, hsound⟩] at hout
        exact hout.elim nofun hid
    · rw [Bool.or_eq_true, not_or, Bool.not_eq_true', Bool.not_eq_false, any_valid_iff,
        decide_eq_true_iff] at hout
      obtain ⟨⟨type, htype, hsound⟩, hid⟩ := hout
      have hiff : ObservationSound impl action ↔ Carries impl action.outputEventId type := by
        constructor
        · intro h
          cases h with
          | none h => cases hobservation.symm.trans h
          | value h => cases hobservation.symm.trans h
          | event _ type' htype' _ _ hevent =>
            rw [htype] at htype'
            cases htype'
            exact hevent
        · exact fun h => .event hobservation type htype hsound hid h
      rw [hiff]
      split
      next hnone => exact iff_of_false nofun (not_carries hevents hnone)
      next event hevent =>
        rw [carries_iff hevents hevent, htype, Option.any_some]
        split_ifs with hequal <;> simp [hequal]
  | other raw =>
    refine iff_of_false nofun fun h => ?_
    cases h with
    | none h => cases hobservation.symm.trans h
    | value h => cases hobservation.symm.trans h
    | event h => cases hobservation.symm.trans h

theorem checkAction_iff (previous : Option (Action τ)) (action : Action τ) :
    checkAction impl previous action = .ok () ↔
      ActionSound impl action ∧ ∀ p ∈ previous, ¬ p.id = action.id := by
  unfold checkAction
  split_ifs with hid hprevious htype hcontract
  · rw [Bool.or_eq_true, decide_eq_true_iff, decide_eq_true_iff] at hid
    exact iff_of_false nofun fun h => hid.elim h.1.id h.1.eventId
  · exact iff_of_false nofun fun h => any_iff.1 hprevious h.2
  · refine iff_of_false nofun fun h => ?_
    rw [validValueType_iff.2 h.1.sourceType, validValueType_iff.2 h.1.eventType,
      validValueType_iff.2 h.1.targetType] at htype
    cases htype
  · refine iff_of_false nofun fun h => ?_
    rw [h.1.effects, h.1.properties, h.1.contract] at hcontract
    rcases h.1.total with htotal | htotal <;> simp [htotal] at hcontract
  · rw [Bool.or_eq_true, decide_eq_true_iff, decide_eq_true_iff, not_or] at hid
    rw [any_iff, not_not] at hprevious
    simp only [Bool.or_eq_true, Bool.not_eq_true', not_or, Bool.not_eq_false, Bool.and_eq_true,
      bne_iff_ne, not_and_or, not_not, validValueType_iff] at htype hcontract
    obtain ⟨⟨⟨heffects, hproperties⟩, hinclude⟩, htotal⟩ := hcontract
    have hsound : ActionSound impl action ↔
        Carries impl action.eventId action.eventType ∧ ObservationSound impl action :=
      ⟨fun h => ⟨h.event, h.observation⟩, fun h => ⟨hid.1, hid.2, htype.1.1, htype.1.2, htype.2,
        heffects, hproperties, hinclude, htotal, h.1, h.2⟩⟩
    rw [hsound, and_iff_left hprevious]
    split
    next hnone => exact iff_of_false nofun fun h => not_carries hevents hnone h.1
    next event hevent =>
      rw [carries_iff hevents hevent, ← validateActionObservation_iff hevents]
      cases equal event.payloadType action.eventType <;> simp

end events

/-! ## Transitions -/

theorem choice_le_of_isLE {a b : Transition} (h : (compareTransition a b).isLE) :
    toLex (a.source, toLex (a.event, a.priority)) ≤ toLex (b.source, toLex (b.event, b.priority)) := by
  rw [compareTransition_isLE] at h
  rw [Prod.Lex.toLex_le_toLex]
  dsimp only
  rcases h with h | ⟨h, h'⟩
  · exact Or.inl h
  · refine Or.inr ⟨h, ?_⟩
    rw [Prod.Lex.toLex_le_toLex]
    dsimp only
    omega

def optionalRow {α : Type} (key : α → ℕ) (rows : List α) (id : ℕ) : Option α :=
  if id = 0 then none else findRow key rows id

/-- An id is 0 or names a row with a property. -/
theorem optionalRow_iff {α : Type} {key : α → ℕ} {rows : List α}
    (h : rows.Pairwise fun a b => key a < key b) (id : ℕ) (p : α → Bool) :
    ((id ≠ 0 && (optionalRow key rows id).isNone) = false ∧ (optionalRow key rows id).all p = true) ↔
      (id = 0 ∨ ∃ row ∈ rows, key row = id ∧ p row = true) := by
  unfold optionalRow
  by_cases hid : id = 0
  · simp [hid]
  · rw [if_neg hid]
    cases hfound : findRow key rows id with
    | none =>
      refine iff_of_false (by simp [hid]) ?_
      rintro (hzero | ⟨row, hmem, hkey, -⟩)
      · exact hid hzero
      · exact (findRow_eq_none_iff h).1 hfound row hmem hkey
    | some row =>
      obtain ⟨hmem, hkey⟩ := findRow_some hfound
      constructor
      · rintro ⟨-, hp⟩
        exact Or.inr ⟨row, hmem, hkey, hp⟩
      · rintro (hzero | ⟨row', hmem', hkey', hp⟩)
        · exact absurd hzero hid
        · rw [(findRow_iff h).2 ⟨hmem', hkey'⟩] at hfound
          cases hfound
          exact ⟨by simp, hp⟩

theorem optionalRow_isSome {α : Type} {key : α → ℕ} {rows : List α} {id : ℕ}
    (h : (id ≠ 0 && (optionalRow key rows id).isNone) = false) :
    (optionalRow key rows id).isSome = true ↔ id ≠ 0 := by
  unfold optionalRow at h ⊢
  by_cases hid : id = 0
  · simp [hid]
  · rw [if_neg hid] at h ⊢
    cases hfound : findRow key rows id with
    | none => simp [hid, hfound] at h
    | some row => simp [hid]

section transitions

variable {impl : Machine τ} (hstates : impl.states.Pairwise fun a b => a.id < b.id)
  (hevents : impl.events.Pairwise fun a b => a.id < b.id)
  (hguards : impl.guards.Pairwise fun a b => a.id < b.id)
  (hactions : impl.actions.Pairwise fun a b => a.id < b.id)

def Guard.fits (guard : Guard τ) (row : Transition) (source : State τ) (event : EventType τ) : Bool :=
  guard.eventId = row.event && equal guard.stateType source.valueType &&
    equal guard.eventType event.payloadType

def Action.fits (action : Action τ) (row : Transition) (source target : State τ)
    (event : EventType τ) : Bool :=
  action.eventId = row.event && equal action.sourceType source.valueType &&
    equal action.eventType event.payloadType && equal action.targetType target.valueType

theorem checkTransitionTypes_iff {row : Transition} {source target : State τ} {event : EventType τ}
    {guard : Option (Guard τ)} {action : Option (Action τ)}
    (haction : action.isSome = true ↔ row.action ≠ 0) :
    checkTransitionTypes row source target event guard action = true ↔
      guard.all (·.fits row source event) = true ∧
        action.all (·.fits row source target event) = true ∧
          (row.action = 0 → equal source.valueType target.valueType = true) := by
  have hplain : (action.isSome || equal source.valueType target.valueType) = true ↔
      (row.action = 0 → equal source.valueType target.valueType = true) := by
    rw [Bool.or_eq_true, haction]
    tauto
  unfold checkTransitionTypes
  rw [Bool.and_eq_true, Bool.and_eq_true, hplain, and_assoc]
  rfl

include hstates hevents

/-- A transition whose ends and event were found. -/
theorem transitionSound_iff {row : Transition} {source target : State τ} {event : EventType τ}
    (hsource : findState impl row.source = some source)
    (htarget : findState impl row.target = some target)
    (hevent : findEvent impl row.event = some event) :
    TransitionSound impl row ↔ source.kind = .active ∧
      (row.guard = 0 ∨ ∃ guard ∈ impl.guards, guard.id = row.guard ∧
        guard.fits row source event = true) ∧
      (row.action = 0 ∨ ∃ action ∈ impl.actions, action.id = row.action ∧
        action.fits row source target event = true) ∧
      (row.action = 0 → equal source.valueType target.valueType = true) := by
  obtain ⟨hs, hsid⟩ := findRow_some hsource
  obtain ⟨ht, htid⟩ := findRow_some htarget
  obtain ⟨he, heid⟩ := findRow_some hevent
  constructor
  · rintro ⟨source', hs', target', ht', event', he', hsid', htid', heid', hkind, hguard, haction⟩
    have hsource' := (findRow_iff hstates).2 ⟨hs', hsid'⟩
    have htarget' := (findRow_iff hstates).2 ⟨ht', htid'⟩
    have hevent' := (findRow_iff hevents).2 ⟨he', heid'⟩
    unfold findState at hsource htarget
    unfold findEvent at hevent
    rw [hsource] at hsource'
    rw [htarget] at htarget'
    rw [hevent] at hevent'
    cases hsource'
    cases htarget'
    cases hevent'
    refine ⟨hkind, hguard.imp_right ?_, ?_, ?_⟩
    · rintro ⟨guard, hmem, hid, hevent, hstate, htype⟩
      exact ⟨guard, hmem, hid, by simp [Guard.fits, hevent, hstate, htype]⟩
    · rcases haction with ⟨hzero, -⟩ | ⟨-, action, hmem, hid, hevent, hsource, htype, htarget⟩
      · exact Or.inl hzero
      · exact Or.inr ⟨action, hmem, hid, by simp [Action.fits, hevent, hsource, htype, htarget]⟩
    · intro hzero
      rcases haction with ⟨-, hequal⟩ | ⟨hne, -⟩
      · exact hequal
      · exact absurd hzero hne
  · rintro ⟨hkind, hguard, haction, hplain⟩
    refine ⟨source, hs, target, ht, event, he, hsid, htid, heid, hkind, hguard.imp_right ?_, ?_⟩
    · rintro ⟨guard, hmem, hid, hfits⟩
      simp only [Guard.fits, Bool.and_eq_true, decide_eq_true_iff] at hfits
      exact ⟨guard, hmem, hid, hfits.1.1, hfits.1.2, hfits.2⟩
    · by_cases hzero : row.action = 0
      · exact Or.inl ⟨hzero, hplain hzero⟩
      · obtain ⟨action, hmem, hid, hfits⟩ := haction.resolve_left hzero
        simp only [Action.fits, Bool.and_eq_true, decide_eq_true_iff] at hfits
        exact Or.inr ⟨hzero, action, hmem, hid, hfits.1.1.1, hfits.1.1.2, hfits.1.2, hfits.2⟩

include hguards hactions

theorem checkTransition_iff (previous : Option Transition) (row : Transition) :
    checkTransition impl previous row = .ok () ↔
      TransitionSound impl row ∧ ∀ p ∈ previous, ¬ p.choice = row.choice := by
  have hprevious : (previous.any fun p => p.source = row.source && p.event = row.event &&
      p.priority = row.priority) = true ↔ ¬ ∀ p ∈ previous, ¬ p.choice = row.choice := by
    cases previous with
    | none => simp
    | some p => simp [Transition.choice, and_assoc]
  have hends : TransitionSound impl row → ∃ source target event,
      findState impl row.source = some source ∧ findState impl row.target = some target ∧
        findEvent impl row.event = some event := by
    rintro ⟨source, hs, target, ht, event, he, hsid, htid, heid, -⟩
    exact ⟨source, target, event, (findRow_iff hstates).2 ⟨hs, hsid⟩,
      (findRow_iff hstates).2 ⟨ht, htid⟩, (findRow_iff hevents).2 ⟨he, heid⟩⟩
  unfold checkTransition
  split
  next hsource =>
    refine iff_of_false nofun fun h => ?_
    obtain ⟨source, -, -, hfound, -⟩ := hends h.1
    rw [hsource] at hfound
    cases hfound
  next htarget _ =>
    refine iff_of_false nofun fun h => ?_
    obtain ⟨-, target, -, -, hfound, -⟩ := hends h.1
    rw [htarget] at hfound
    cases hfound
  next source target hsource htarget =>
  split
  next hevent =>
    refine iff_of_false nofun fun h => ?_
    obtain ⟨-, -, event, -, -, hfound⟩ := hends h.1
    rw [hevent] at hfound
    cases hfound
  next event hevent =>
  rw [transitionSound_iff hstates hevents hsource htarget hevent,
    ← optionalRow_iff hguards, ← optionalRow_iff hactions]
  change (if (row.guard ≠ 0 && (optionalRow (·.id) impl.guards row.guard).isNone) = true then _
    else if (row.action ≠ 0 && (optionalRow (·.id) impl.actions row.action).isNone) = true then _
    else if source.kind ≠ .active then _
    else if (!checkTransitionTypes row source target event (optionalRow (·.id) impl.guards row.guard)
      (optionalRow (·.id) impl.actions row.action)) = true then _ else _) = _ ↔ _
  split_ifs with hguard haction hkind htypes hambiguous
  · refine iff_of_false nofun fun h => ?_
    rw [h.1.2.1.1] at hguard
    cases hguard
  · refine iff_of_false nofun fun h => ?_
    rw [h.1.2.2.1.1] at haction
    cases haction
  · exact iff_of_false nofun fun h => hkind h.1.1
  · rw [Bool.not_eq_true] at haction
    refine iff_of_false nofun fun h => ?_
    rw [(checkTransitionTypes_iff (optionalRow_isSome haction)).2
      ⟨h.1.2.1.2, h.1.2.2.1.2, h.1.2.2.2⟩] at htypes
    cases htypes
  · exact iff_of_false nofun fun h => hprevious.1 hambiguous h.2
  · rw [Bool.not_eq_true] at hguard haction
    rw [Bool.not_eq_true', Bool.not_eq_false,
      checkTransitionTypes_iff (optionalRow_isSome haction)] at htypes
    rw [hprevious, not_not] at hambiguous
    exact iff_of_true rfl ⟨⟨not_not.1 hkind, ⟨hguard, htypes.1⟩, ⟨haction, htypes.2.1⟩, htypes.2.2⟩,
      hambiguous⟩

end transitions

theorem choices_nodup_iff {rows : List Transition}
    (h : rows.Pairwise fun a b => (compareTransition a b).isLE) :
    (rows.IsChain fun a b => ¬ a.choice = b.choice) ↔ (rows.map Transition.choice).Nodup := by
  let key : Transition → ℕ ×ₗ ℕ ×ₗ ℕ := fun row => toLex (row.source, toLex (row.event, row.priority))
  have hkey : ∀ a b : Transition, key a = key b ↔ a.choice = b.choice := by
    intro a b
    simp [key, Transition.choice]
  have hchain := @chain_ne_iff Transition _ _ key rows (h.imp fun hle => choice_le_of_isLE hle)
  rw [List.Nodup, List.pairwise_map] at hchain ⊢
  simp only [Ne, hkey] at hchain ⊢
  exact hchain

/-! ## Reachability -/

omit [TypeDesc τ] in
theorem rowsForSource_eq {impl : Machine τ} (h : Sorted impl) (source : ℕ) :
    (impl.transitions.drop (firstTransitionForSource impl source)).takeWhile
      (·.source = source) = impl.transitions.filter (·.source = source) := by
  have hsource : impl.transitions.Pairwise fun a b => a.source ≤ b.source := by
    refine h.imp fun {a b} hle => ?_
    rw [compareTransition_isLE] at hle
    omega
  unfold firstTransitionForSource
  rw [BinarySearch.lowerBound_rows source hsource]
  exact BinarySearch.takeWhile_drop_rows source hsource

def targets (impl : Machine τ) (source : ℕ) : List ℕ :=
  (impl.transitions.filter (·.source = source)).map (·.target)

omit [TypeDesc τ] in
theorem foldl_reachTarget (impl : Machine τ) (rows : List Transition) (marks : List Bool × List ℕ) :
    rows.foldl (reachTarget impl) marks =
      (rows.map (·.target)).foldl (Marking.visit (findIndex (·.id) impl.states)) marks := by
  rw [List.foldl_map]
  rfl

omit [TypeDesc τ] in
theorem reachLoop_eq {impl : Machine τ} (h : Sorted impl) (rounds : ℕ) (marks : List Bool × List ℕ) :
    reachLoop impl rounds marks =
      Marking.loop (findIndex (·.id) impl.states) (targets impl) rounds marks := by
  induction rounds generalizing marks with
  | zero => rfl
  | succ rounds ih =>
    obtain ⟨bits, queue⟩ := marks
    cases queue with
    | nil => rfl
    | cons source queue =>
      unfold reachLoop Marking.loop
      dsimp only
      rw [rowsForSource_eq h, foldl_reachTarget, ih]
      rfl

omit [TypeDesc τ] in
theorem stateReached_iff {impl : Machine τ} {id : ℕ} :
    StateReached impl id ↔ Marking.Reaches (targets impl) impl.initialState id := by
  constructor
  · intro h
    induction h with
    | initial => exact .refl
    | @step row _ hrow ih =>
      refine ih.tail (List.mem_map.2 ⟨row, List.mem_filter.2 ⟨hrow, ?_⟩, rfl⟩)
      exact decide_eq_true rfl
  · intro h
    induction h with
    | refl => exact .initial
    | tail _ hedge ih =>
      obtain ⟨row, hrow, rfl⟩ := List.mem_map.1 hedge
      obtain ⟨hmem, hsource⟩ := List.mem_filter.1 hrow
      rw [← of_decide_eq_true hsource] at ih
      exact .step ih hmem

omit [TypeDesc τ] in
theorem findIndex_indexes {impl : Machine τ} (h : impl.states.Pairwise fun a b => a.id < b.id) :
    Marking.Indexes (findIndex (·.id) impl.states) (impl.states.map (·.id)) := by
  intro id i
  rw [List.getElem?_map]
  constructor
  · intro hfound
    obtain ⟨state, hget, hid⟩ := findIndex_some hfound
    rw [hget, Option.map_some, hid]
  · intro hget
    obtain ⟨state, hstate, rfl⟩ := Option.map_eq_some_iff.1 hget
    exact findIndex_eq h hstate

theorem validateReachability_iff {impl : Machine τ} (hs : Sorted impl)
    (hstates : impl.states.Pairwise fun a b => a.id < b.id)
    (hinitial : ∃ state ∈ impl.states, state.id = impl.initialState)
    (hrows : ∀ row ∈ impl.transitions, TransitionSound impl row) :
    validateReachability impl = .ok () ↔ ∀ state ∈ impl.states, StateReached impl state.id := by
  obtain ⟨state, hmem, hid⟩ := hinitial
  obtain ⟨i, hi⟩ := List.mem_iff_getElem?.1 hmem
  have hindex : findIndex (·.id) impl.states impl.initialState = some i := by
    rw [← hid]
    exact findIndex_eq hstates hi
  have hclosed : ∀ v ∈ impl.states.map (·.id), ∀ w ∈ targets impl v, w ∈ impl.states.map (·.id) := by
    intro v _ w hw
    obtain ⟨row, hrow, rfl⟩ := List.mem_map.1 hw
    obtain ⟨-, -, target, htarget, -, -, -, htid, -⟩ := (hrows row (List.mem_filter.1 hrow).1).fits
    exact List.mem_map.2 ⟨target, htarget, htid⟩
  have hnames : (impl.states.map (·.id))[i]? = some impl.initialState := by
    rw [List.getElem?_map, hi, Option.map_some, hid]
  have hrounds : (impl.states.map (·.id)).length ≤ impl.states.length + 1 := by
    rw [List.length_map]
    exact Nat.le_succ _
  have hall := Marking.loop_all_iff (findIndex_indexes hstates) hclosed hnames hrounds
  rw [List.length_map] at hall
  unfold validateReachability
  rw [hindex]
  dsimp only
  rw [reachLoop_eq hs]
  simp only [stateReached_iff]
  rw [← List.forall_mem_map (P := Marking.Reaches (targets impl) impl.initialState), ← hall]
  split_ifs with h
  · exact iff_of_true rfl h
  · exact iff_of_false nofun h

/-! ## Declarations that are used -/

section use

variable {α : Type} {key : α → ℕ} {rows : List α} {use : Transition → ℕ}

def markOne (key : α → ℕ) (rows : List α) (use : Transition → ℕ) (used : List Bool)
    (row : Transition) : List Bool :=
  if use row = 0 then used
  else (findIndex key rows (use row)).elim used fun i => used.set i true

theorem markOne_getElem? {used : List Bool} {row : Transition} {i : ℕ} (hi : i < used.length) :
    (markOne key rows use used row).length = used.length ∧
      ((markOne key rows use used row)[i]? = some true ↔
        used[i]? = some true ∨ use row ≠ 0 ∧ findIndex key rows (use row) = some i) := by
  unfold markOne
  by_cases huse : use row = 0
  · simp [huse]
  · rw [if_neg huse]
    cases hfound : findIndex key rows (use row) with
    | none => simp
    | some j =>
      rw [Option.elim_some, List.length_set, List.getElem?_set]
      refine ⟨rfl, ?_⟩
      by_cases hj : j = i
      · subst hj
        simp [hi, huse]
      · simp [hj]

theorem foldl_markOne {transitions : List Transition} {used : List Bool} {i : ℕ}
    (hi : i < used.length) :
    (transitions.foldl (markOne key rows use) used).length = used.length ∧
      ((transitions.foldl (markOne key rows use) used)[i]? = some true ↔
        used[i]? = some true ∨
          ∃ row ∈ transitions, use row ≠ 0 ∧ findIndex key rows (use row) = some i) := by
  induction transitions generalizing used with
  | nil => simp
  | cons row transitions ih =>
    obtain ⟨hlength, hone⟩ := @markOne_getElem? _ key rows use used row i hi
    obtain ⟨hlength', hrest⟩ := ih (hlength ▸ hi)
    rw [List.foldl_cons]
    refine ⟨hlength'.trans hlength, ?_⟩
    rw [hrest, hone]
    simp only [List.mem_cons, exists_eq_or_imp, or_assoc]

/-- Everything is marked exactly when every declaration is used. -/
theorem markUsed_iff (h : rows.Pairwise fun a b => key a < key b) (hkeys : ∀ row ∈ rows, key row ≠ 0)
    (transitions : List Transition) : (markUsed key rows use transitions).all id = true ↔
      ∀ row ∈ rows, ∃ transition ∈ transitions, use transition = key row := by
  have hlength : (markUsed key rows use transitions).length = rows.length := by
    have hkeep : ∀ used : List Bool,
        (transitions.foldl (markOne key rows use) used).length = used.length := by
      intro used
      induction transitions generalizing used with
      | nil => rfl
      | cons row transitions ih =>
        rw [List.foldl_cons, ih]
        unfold markOne
        split_ifs
        · rfl
        · cases findIndex key rows (use row) <;> simp
    exact (hkeep _).trans List.length_replicate
  have hmark : ∀ i (hi : i < rows.length), (markUsed key rows use transitions)[i]? = some true ↔
      ∃ transition ∈ transitions, use transition = key rows[i] := by
    intro i hi
    have hi' : i < (List.replicate rows.length false).length := by
      rw [List.length_replicate]
      exact hi
    have hfold := (@foldl_markOne _ key rows use transitions _ i hi').2
    have hnone : ¬ (List.replicate rows.length false)[i]? = some true := by
      rw [List.getElem?_replicate, if_pos hi]
      nofun
    rw [or_iff_right hnone] at hfold
    refine hfold.trans (exists_congr fun transition => and_congr_right fun _ => ?_)
    constructor
    · rintro ⟨-, hfound⟩
      obtain ⟨row, hget, hkey⟩ := findIndex_some hfound
      rw [List.getElem?_eq_getElem hi] at hget
      cases hget
      exact hkey.symm
    · intro heq
      rw [heq]
      exact ⟨hkeys _ (List.getElem_mem hi), findIndex_eq h (List.getElem?_eq_getElem hi)⟩
  rw [List.all_eq_true]
  constructor
  · intro hall row hrow
    obtain ⟨i, hi, rfl⟩ := List.getElem_of_mem hrow
    have hi' : i < (markUsed key rows use transitions).length := hlength ▸ hi
    refine (hmark i hi).1 ?_
    rw [List.getElem?_eq_getElem hi']
    exact congrArg some (hall _ (List.getElem_mem hi'))
  · intro hall b hb
    obtain ⟨i, hi, rfl⟩ := List.getElem_of_mem hb
    have hi' : i < rows.length := hlength ▸ hi
    have hset := (hmark i hi').2 (hall _ (List.getElem_mem hi'))
    rw [List.getElem?_eq_getElem hi] at hset
    exact Option.some.inj hset

end use

/-! ## The whole validation -/

omit [TypeDesc τ] in
theorem validateDeclarationUse_iff {impl : Machine τ}
    (hguards : impl.guards.Pairwise fun a b => a.id < b.id)
    (hactions : impl.actions.Pairwise fun a b => a.id < b.id)
    (hguardIds : ∀ guard ∈ impl.guards, guard.id ≠ 0)
    (hactionIds : ∀ action ∈ impl.actions, action.id ≠ 0) :
    validateDeclarationUse impl = .ok () ↔
      (∀ guard ∈ impl.guards, ∃ row ∈ impl.transitions, row.guard = guard.id) ∧
        ∀ action ∈ impl.actions, ∃ row ∈ impl.transitions, row.action = action.id := by
  unfold validateDeclarationUse
  rw [← markUsed_iff hguards hguardIds, ← markUsed_iff hactions hactionIds, ← Bool.and_eq_true]
  split_ifs with h
  · exact iff_of_true rfl h
  · exact iff_of_false nofun h

/-- On rows in order the validation accepts exactly the well-formed tables. -/
theorem validateMachine_iff {impl : Machine τ} (h : Ordered impl) :
    validateMachine impl = .ok () ↔ WellFormed impl := by
  unfold validateMachine
  simp only [then_ok_iff, validateStateDomain_iff h]
  constructor
  · rintro ⟨⟨⟨hstates, hstateIds⟩, hinitial⟩, hevents, hguards, hactions, hrows, hreach, huse⟩
    have hstatesLt := pairwise_lt_of_nodup h.states hstateIds
    obtain ⟨hevents, heventIds⟩ := (checkTable_iff checkEvent_iff h.events).1 hevents
    have heventsLt := pairwise_lt_of_nodup h.events heventIds
    obtain ⟨hguards, hguardIds⟩ := (checkTable_iff (checkGuard_iff heventsLt) h.guards).1 hguards
    have hguardsLt := pairwise_lt_of_nodup h.guards hguardIds
    obtain ⟨hactions, hactionIds⟩ :=
      (checkTable_iff (checkAction_iff heventsLt) h.actions).1 hactions
    have hactionsLt := pairwise_lt_of_nodup h.actions hactionIds
    have hcheck := checkTransition_iff hstatesLt heventsLt hguardsLt hactionsLt
    obtain ⟨hrows, hchoices⟩ := (checkRows_iff hcheck).1 hrows
    obtain ⟨hguardsUsed, hactionsUsed⟩ := (validateDeclarationUse_iff hguardsLt hactionsLt
      (fun guard hg => (hguards guard hg).id) fun action ha => (hactions action ha).id).1 huse
    exact
      { states := hstates
        stateIds := hstateIds
        initial := hinitial
        events := hevents
        eventIds := heventIds
        guards := hguards
        guardIds := hguardIds
        actions := hactions
        actionIds := hactionIds
        transitions := hrows
        choices := (choices_nodup_iff h.transitions).1 hchoices
        reached := (validateReachability_iff h.transitions hstatesLt hinitial hrows).1 hreach
        guardsUsed := hguardsUsed
        actionsUsed := hactionsUsed }
  · intro hw
    have hstatesLt := pairwise_lt_of_nodup h.states hw.stateIds
    have heventsLt := pairwise_lt_of_nodup h.events hw.eventIds
    have hguardsLt := pairwise_lt_of_nodup h.guards hw.guardIds
    have hactionsLt := pairwise_lt_of_nodup h.actions hw.actionIds
    have hcheck := checkTransition_iff hstatesLt heventsLt hguardsLt hactionsLt
    refine ⟨⟨⟨hw.states, hw.stateIds⟩, hw.initial⟩, ?_, ?_, ?_, ?_, ?_, ?_⟩
    · exact (checkTable_iff checkEvent_iff h.events).2 ⟨hw.events, hw.eventIds⟩
    · exact (checkTable_iff (checkGuard_iff heventsLt) h.guards).2 ⟨hw.guards, hw.guardIds⟩
    · exact (checkTable_iff (checkAction_iff heventsLt) h.actions).2 ⟨hw.actions, hw.actionIds⟩
    · exact (checkRows_iff hcheck).2 ⟨hw.transitions, (choices_nodup_iff h.transitions).2 hw.choices⟩
    · exact (validateReachability_iff h.transitions hstatesLt hw.initial hw.transitions).2 hw.reached
    · exact (validateDeclarationUse_iff hguardsLt hactionsLt (fun guard hg => (hw.guards guard hg).id)
        fun action ha => (hw.actions action ha).id).2 ⟨hw.guardsUsed, hw.actionsUsed⟩

/-! ## The order of the rows -/

omit [TypeDesc τ] in
theorem Reordered.symm {d d' : Definition τ} (h : Reordered d d') : Reordered d' d :=
  ⟨h.states.symm, h.initialState.symm, h.events.symm, h.guards.symm, h.actions.symm,
    h.transitions.symm⟩

omit [TypeDesc τ] in
theorem Reordered.trans {d d' d'' : Definition τ} (h : Reordered d d') (h' : Reordered d' d'') :
    Reordered d d'' :=
  ⟨h.states.trans h'.states, h.initialState.trans h'.initialState, h.events.trans h'.events,
    h.guards.trans h'.guards, h.actions.trans h'.actions, h.transitions.trans h'.transitions⟩

section reordered

variable {d d' : Definition τ} (h : Reordered d d')
include h

theorem Reordered.carries {id : ℕ} {type : τ} (hc : Carries d id type) : Carries d' id type := by
  obtain ⟨event, hmem, hevent⟩ := hc
  exact ⟨event, h.events.mem_iff.1 hmem, hevent⟩

theorem Reordered.observation {action : Action τ} (ho : ObservationSound d action) :
    ObservationSound d' action := by
  cases ho with
  | none hobs htype hevent => exact .none hobs htype hevent
  | value hobs type htype hsound hevent => exact .value hobs type htype hsound hevent
  | event hobs type htype hsound hid hevent =>
    exact .event hobs type htype hsound hid (h.carries hevent)

theorem Reordered.transition {row : Transition} (ht : TransitionSound d row) :
    TransitionSound d' row := by
  obtain ⟨source, hs, target, ht, event, he, hsid, htid, heid, hkind, hguard, haction⟩ := ht.fits
  refine ⟨source, h.states.mem_iff.1 hs, target, h.states.mem_iff.1 ht, event,
    h.events.mem_iff.1 he, hsid, htid, heid, hkind, hguard.imp_right ?_, haction.imp_right ?_⟩
  · rintro ⟨guard, hmem, hfits⟩
    exact ⟨guard, h.guards.mem_iff.1 hmem, hfits⟩
  · rintro ⟨hne, action, hmem, hfits⟩
    exact ⟨hne, action, h.actions.mem_iff.1 hmem, hfits⟩

omit [TypeDesc τ] in
theorem Reordered.reached {id : ℕ} (hr : StateReached d id) : StateReached d' id := by
  induction hr with
  | initial =>
    rw [h.initialState]
    exact .initial
  | step _ hrow ih => exact .step ih (h.transitions.mem_iff.1 hrow)

/-- Well-formedness does not look at the order of the rows. -/
theorem Reordered.wellFormed (hw : WellFormed d) : WellFormed d' where
  states state hs := hw.states state (h.states.mem_iff.2 hs)
  stateIds := (h.states.map _).nodup_iff.1 hw.stateIds
  initial := by
    obtain ⟨state, hs, hid⟩ := hw.initial
    exact ⟨state, h.states.mem_iff.1 hs, hid.trans h.initialState⟩
  events event he := hw.events event (h.events.mem_iff.2 he)
  eventIds := (h.events.map _).nodup_iff.1 hw.eventIds
  guards guard hg := by
    have hsound := hw.guards guard (h.guards.mem_iff.2 hg)
    exact { hsound with event := h.carries hsound.event }
  guardIds := (h.guards.map _).nodup_iff.1 hw.guardIds
  actions action ha := by
    have hsound := hw.actions action (h.actions.mem_iff.2 ha)
    exact { hsound with
      event := h.carries hsound.event, observation := h.observation hsound.observation }
  actionIds := (h.actions.map _).nodup_iff.1 hw.actionIds
  transitions row hrow := h.transition (hw.transitions row (h.transitions.mem_iff.2 hrow))
  choices := (h.transitions.map _).nodup_iff.1 hw.choices
  reached state hs := h.reached (hw.reached state (h.states.mem_iff.2 hs))
  guardsUsed guard hg := by
    obtain ⟨row, hrow, huse⟩ := hw.guardsUsed guard (h.guards.mem_iff.2 hg)
    exact ⟨row, h.transitions.mem_iff.1 hrow, huse⟩
  actionsUsed action ha := by
    obtain ⟨row, hrow, huse⟩ := hw.actionsUsed action (h.actions.mem_iff.2 ha)
    exact ⟨row, h.transitions.mem_iff.1 hrow, huse⟩

end reordered

theorem choices_lt {rows : List Transition}
    (h : rows.Pairwise fun a b => (compareTransition a b).isLE)
    (hn : (rows.map Transition.choice).Nodup) :
    rows.Pairwise fun a b => toLex (a.source, toLex (a.event, a.priority)) <
      toLex (b.source, toLex (b.event, b.priority)) := by
  refine pairwise_lt_of_chain (h.imp fun hle => choice_le_of_isLE hle)
    (((choices_nodup_iff h).2 hn).imp fun a b hne heq => hne ?_)
  simpa [Transition.choice] using heq

/-- Well-formed tables can be put into order in one way only. -/
theorem ordered_unique {impl impl' : Machine τ} (h : Reordered impl impl') (ho : Ordered impl)
    (ho' : Ordered impl') (hw : WellFormed impl) : impl = impl' := by
  have hw' := h.wellFormed hw
  have hids : ∀ {α : Type} {key : α → ℕ} {rows rows' : List α}, rows.Perm rows' →
      (rows.Pairwise fun a b => key a ≤ key b) → (rows'.Pairwise fun a b => key a ≤ key b) →
        (rows.map key).Nodup → (rows'.map key).Nodup → rows = rows' :=
    fun hp h h' hn hn' => eq_of_perm_of_lt hp (pairwise_lt_of_nodup h hn) (pairwise_lt_of_nodup h' hn')
  have hstates := hids h.states ho.states ho'.states hw.stateIds hw'.stateIds
  have hevents := hids h.events ho.events ho'.events hw.eventIds hw'.eventIds
  have hguards := hids h.guards ho.guards ho'.guards hw.guardIds hw'.guardIds
  have hactions := hids h.actions ho.actions ho'.actions hw.actionIds hw'.actionIds
  have htransitions := eq_of_perm_of_lt h.transitions (choices_lt ho.transitions hw.choices)
    (choices_lt ho'.transitions hw'.choices)
  have hinitial := h.initialState
  cases impl
  cases impl'
  dsimp only at hstates hevents hguards hactions htransitions hinitial
  rw [hstates, hevents, hguards, hactions, htransitions, hinitial]

omit [TypeDesc τ] in
theorem sortRows_reordered (d : Definition τ) : Reordered d (sortRows d) :=
  ⟨(BinarySearch.sortBy_perm _ _).symm, rfl, (BinarySearch.sortBy_perm _ _).symm,
    (BinarySearch.sortBy_perm _ _).symm, (BinarySearch.sortBy_perm _ _).symm,
    (BinarySearch.sortBy_perm _ _).symm⟩

omit [TypeDesc τ] in
theorem sortRows_ordered (d : Definition τ) : Ordered (sortRows d) := by
  have hids : ∀ {α : Type} (key : α → ℕ) (rows : List α),
      (BinarySearch.sortBy (compareOn key) rows).Pairwise fun a b => key a ≤ key b := by
    intro α key rows
    exact (BinarySearch.sortBy_pairwise (compareOn key) rows).imp fun h =>
      BinarySearch.compareOn_isLE.1 h
  refine ⟨hids _ _, hids _ _, hids _ _, hids _ _, ?_⟩
  unfold Sorted sortRows compareTransition
  exact BinarySearch.sortBy_pairwise _ _

/-! ## The build -/

theorem WellFormed.states_pos {d : Definition τ} (h : WellFormed d) : d.states.length ≠ 0 := by
  obtain ⟨state, hs, -⟩ := h.initial
  exact (List.length_pos_of_mem hs).ne'

theorem build_iff {d : Definition τ} (h : WithinLimits d) {machine : Machine τ} :
    build d = .ok machine ↔ WellFormed d ∧ machine = sortRows d := by
  have hvalid : validateMachine (sortRows d) = .ok () ↔ WellFormed d := by
    rw [validateMachine_iff (sortRows_ordered d)]
    exact ⟨(sortRows_reordered d).symm.wellFormed, (sortRows_reordered d).wellFormed⟩
  obtain ⟨hs, he, hg, ha, ht⟩ := h
  unfold build
  by_cases hempty : d.states.length = 0
  · rw [if_pos hempty]
    exact iff_of_false nofun fun hw => hw.1.states_pos hempty
  · rw [if_neg hempty, if_neg (by simp; omega), ← hvalid]
    split
    next status hstatus => simp [hstatus]
    next hok => simp [hok, eq_comm]

/-- `cflow_machine_build` accepts exactly the well-formed definitions. The order of the rows decides
neither whether a definition is accepted nor the tables that come out, and what the sort does with
ties does not matter either: any arrangement of the rows in order is validated with the same result,
and is the built one when it is accepted. -/
theorem build_accepts_wellFormed {d : Definition τ} (h : WithinLimits d) :
    ((∃ machine, build d = .ok machine) ↔ WellFormed d) ∧
      (∀ d', Reordered d d' → ∀ machine, build d = .ok machine ↔ build d' = .ok machine) ∧
      ∀ impl, Reordered d impl → Ordered impl →
        (validateMachine impl = .ok () ↔ WellFormed d) ∧
          (validateMachine impl = .ok () → build d = .ok impl) := by
  refine ⟨?_, fun d' hd machine => ?_, fun impl hd ho => ?_⟩
  · simp only [build_iff h, exists_and_left, exists_eq, and_true]
  · have h' : WithinLimits d' := by
      obtain ⟨hs, he, hg, ha, ht⟩ := h
      exact ⟨hd.states.length_eq ▸ hs, hd.events.length_eq ▸ he, hd.guards.length_eq ▸ hg,
        hd.actions.length_eq ▸ ha, hd.transitions.length_eq ▸ ht⟩
    rw [build_iff h, build_iff h']
    constructor
    · rintro ⟨hw, rfl⟩
      have hrows := (sortRows_reordered d).symm.trans (hd.trans (sortRows_reordered d'))
      exact ⟨hd.wellFormed hw, ordered_unique hrows (sortRows_ordered d) (sortRows_ordered d')
        ((sortRows_reordered d).wellFormed hw)⟩
    · rintro ⟨hw, rfl⟩
      have hrows := (sortRows_reordered d').symm.trans (hd.symm.trans (sortRows_reordered d))
      exact ⟨hd.symm.wellFormed hw, ordered_unique hrows (sortRows_ordered d') (sortRows_ordered d)
        ((sortRows_reordered d').wellFormed hw)⟩
  · have hvalid : validateMachine impl = .ok () ↔ WellFormed d :=
      (validateMachine_iff ho).trans ⟨hd.symm.wellFormed, hd.wellFormed⟩
    refine ⟨hvalid, fun hok => (build_iff h).2 ⟨hvalid.1 hok, ?_⟩⟩
    exact ordered_unique (hd.symm.trans (sortRows_reordered d)) ho (sortRows_ordered d)
      (hd.wellFormed (hvalid.1 hok))

def oneStep : Definition Unit where
  states := [⟨2, (), .done⟩, ⟨1, (), .active⟩]
  initialState := 1
  events := [⟨1, ()⟩]
  guards := []
  actions := []
  transitions := [⟨1, 1, 0, 0, 2, 0⟩]

theorem oneStep_withinLimits : WithinLimits oneStep := by
  unfold WithinLimits maxStates maxEvents maxGuards maxActions maxTransitions
  decide

theorem build_accepts_oneStep : (build oneStep).isOk = true ∧ WellFormed oneStep := by
  have hok : build oneStep = .ok (sortRows oneStep) := rfl
  exact ⟨rfl, (build_accepts_wellFormed oneStep_withinLimits).1.1 ⟨_, hok⟩⟩

end Cflow.Machine
