import TurboUtils.Lib.BinarySearch
import TurboUtils.Lib.Fallible

/-! The flat machine: its declarations, and `cflow_machine_build`, which sorts a copy of them and
validates it. Allocation always succeeds here. -/
namespace Cflow.Machine

/-- What the machine asks of a type descriptor; `valid` is false of a null one. -/
class TypeDesc (τ : Type) where
  valid : τ → Bool
  equal : τ → τ → Bool
  size : τ → ℕ

/-- `cflow_machine_state_kind`; the field may hold a number that names no kind. -/
inductive StateKind where
  | active
  | done
  | error
  | other (raw : ℤ)
  deriving DecidableEq, Repr

/-- `cflow_machine_action_observation`; the field may hold a number that names no observation. -/
inductive ActionObservation where
  | none
  | value
  | event
  | other (raw : ℤ)
  deriving DecidableEq, Repr

/-- `cflow_machine_status`, less success. -/
inductive Status where
  | limitExceeded
  | empty
  | invalidId
  | duplicateId
  | invalidType
  | unknownState
  | unknownEvent
  | unknownGuard
  | unknownAction
  | typeMismatch
  | invalidContract
  | invalidObservation
  | terminalTransition
  | ambiguousTransition
  | unreachableState
  | unusedDeclaration
  deriving DecidableEq, Repr

structure State (τ : Type) where
  id : ℕ
  valueType : τ
  kind : StateKind

structure EventType (τ : Type) where
  id : ℕ
  payloadType : τ

structure Guard (τ : Type) where
  id : ℕ
  stateType : τ
  eventId : ℕ
  eventType : τ
  effects : ℕ
  properties : ℕ

structure Action (τ : Type) where
  id : ℕ
  sourceType : τ
  eventId : ℕ
  eventType : τ
  targetType : τ
  effects : ℕ
  properties : ℕ
  observation : ActionObservation
  outputType : Option τ
  outputEventId : ℕ

structure Transition where
  source : ℕ
  event : ℕ
  guard : ℕ
  action : ℕ
  target : ℕ
  priority : ℕ
  deriving DecidableEq, Repr

structure Definition (τ : Type) where
  states : List (State τ)
  initialState : ℕ
  events : List (EventType τ)
  guards : List (Guard τ)
  actions : List (Action τ)
  transitions : List Transition

/-- `cflow_machine_impl`: a definition whose rows are sorted. -/
abbrev Machine (τ : Type) := Definition τ

instance : TypeDesc Unit := ⟨fun _ => true, fun _ _ => true, fun _ => 1⟩

def maxStates : ℕ := 65536
def maxEvents : ℕ := 65536
def maxGuards : ℕ := 65536
def maxActions : ℕ := 65536
def maxTransitions : ℕ := 1048576

/-! ## Effects and properties of a callable -/

def effectMayFail : ℕ := 8
def effectMask : ℕ := 31
def propDeterministic : ℕ := 1
def propTotal : ℕ := 2
def propNoAlias : ℕ := 8
def propStable : ℕ := propDeterministic ||| propTotal
def propMask : ℕ := 31

def effectsValid (e : ℕ) : Bool := e &&& effectMask = e
def effectsArePure (e : ℕ) : Bool := e = 0
def propertiesValid (p : ℕ) : Bool := p &&& propMask = p
def propertiesInclude (p required : ℕ) : Bool := p &&& required = required

/-! ## Looking rows up -/

/-- The index of the row with an id, by bisection; all `find_*` functions are this one. -/
def findIndex {α : Type} (key : α → ℕ) (rows : List α) (id : ℕ) : Option ℕ :=
  BinarySearch.find (fun i => rows[i]?.elim .gt fun row => compare (key row) id)
    rows.length 0 rows.length

def findRow {α : Type} (key : α → ℕ) (rows : List α) (id : ℕ) : Option α :=
  (findIndex key rows id).bind (rows[·]?)

theorem findIndex_some {α : Type} {key : α → ℕ} {rows : List α} {id i : ℕ}
    (h : findIndex key rows id = some i) : ∃ row, rows[i]? = some row ∧ key row = id := by
  obtain ⟨hi, he⟩ := BinarySearch.find_some h
  rw [List.getElem?_eq_getElem hi, Option.elim_some, Nat.compare_eq_eq] at he
  exact ⟨rows[i], List.getElem?_eq_getElem hi, he⟩

theorem findIndex_eq {α : Type} {key : α → ℕ} {rows : List α} {i : ℕ} {row : α}
    (hs : rows.Pairwise fun a b => key a < key b) (h : rows[i]? = some row) :
    findIndex key rows (key row) = some i := by
  obtain ⟨hi, rfl⟩ := List.getElem?_eq_some_iff.1 h
  have hlt := List.pairwise_iff_getElem.1 hs
  apply BinarySearch.find_eq (by omega) (Nat.zero_le i) hi
  · rw [h, Option.elim_some, Nat.compare_eq_eq]
  · intro j hj
    rw [List.getElem?_eq_getElem (hj.trans hi), Option.elim_some, Nat.compare_eq_lt]
    exact hlt j i _ hi hj
  · intro j hj hij
    rw [List.getElem?_eq_getElem hj, Option.elim_some, Nat.compare_eq_gt]
    exact hlt i j hi hj hij

theorem findRow_some {α : Type} {key : α → ℕ} {rows : List α} {id : ℕ} {row : α}
    (h : findRow key rows id = some row) : row ∈ rows ∧ key row = id := by
  obtain ⟨i, hi, hrow⟩ := Option.bind_eq_some_iff.1 h
  obtain ⟨row', hrow', hkey⟩ := findIndex_some hi
  rw [hrow'] at hrow
  cases hrow
  exact ⟨List.mem_of_getElem? hrow', hkey⟩

theorem find?_of_findRow {α : Type} {key : α → ℕ} {rows : List α} {id : ℕ} {row : α}
    (hn : (rows.map key).Nodup) (h : findRow key rows id = some row) :
    rows.find? (key · = id) = some row := by
  obtain ⟨hmem, rfl⟩ := findRow_some h
  cases hfind : rows.find? (key · = key row) with
  | none => simpa using List.find?_eq_none.1 hfind row hmem
  | some found =>
    have hkey : key found = key row := by simpa using List.find?_some hfind
    rw [List.inj_on_of_nodup_map hn (List.mem_of_find?_eq_some hfind) hmem hkey]

/-- Whether there is a row depends on the ids only. -/
theorem findRow_isSome {α β : Type} {key : α → ℕ} {key' : β → ℕ} {rows : List α} {rows' : List β}
    (h : rows.map key = rows'.map key') {id : ℕ} (hs : (findRow key rows id).isSome) :
    (findRow key' rows' id).isSome := by
  have hlen : rows.length = rows'.length := by simpa using congrArg List.length h
  have hindex : findIndex key rows id = findIndex key' rows' id := by
    unfold findIndex
    have hrow : ∀ i : ℕ, (rows[i]?.elim .gt fun row => compare (key row) id) =
        rows'[i]?.elim .gt fun row => compare (key' row) id := fun i => by
      have hi := congrArg (fun ids : List ℕ => ids[i]?) h
      simp only [List.getElem?_map] at hi
      cases hr : rows[i]? <;> cases hr' : rows'[i]? <;> simp_all
    simp only [hrow, hlen]
  obtain ⟨row, hrow⟩ := Option.isSome_iff_exists.1 hs
  obtain ⟨i, hi, hget⟩ := Option.bind_eq_some_iff.1 hrow
  have hlt : i < rows'.length := hlen ▸ (List.getElem?_eq_some_iff.1 hget).1
  rw [findRow, ← hindex, hi, Option.bind_some, List.getElem?_eq_getElem hlt]
  rfl

section Build

variable {τ : Type} [TypeDesc τ]

open TypeDesc

def findState (impl : Machine τ) (id : ℕ) : Option (State τ) :=
  findRow (·.id) impl.states id
def findEvent (impl : Machine τ) (id : ℕ) : Option (EventType τ) :=
  findRow (·.id) impl.events id
def findGuard (impl : Machine τ) (id : ℕ) : Option (Guard τ) :=
  findRow (·.id) impl.guards id
def findAction (impl : Machine τ) (id : ℕ) : Option (Action τ) :=
  findRow (·.id) impl.actions id

def firstTransitionForSource (impl : Machine τ) (source : ℕ) : ℕ :=
  BinarySearch.lowerBound
    (fun i => impl.transitions[i]?.elim false fun row => row.source < source)
    impl.transitions.length 0 impl.transitions.length

/-! ## The order of the rows -/

def compareTransition : Transition → Transition → Ordering :=
  compareLex (compareOn (·.source)) <| compareLex (compareOn (·.event)) <|
    compareLex (compareOn (·.priority)) (compareOn (·.target))

/-! ## Validation -/

def checkRows {α ε : Type} (check : Option α → α → Except ε Unit) :
    Option α → List α → Except ε Unit
  | _, [] => .ok ()
  | previous, row :: rows =>
      match check previous row with
      | .error e => .error e
      | .ok () => checkRows check (some row) rows

def validValueType (type : τ) : Bool := valid type && size type != 0

def checkState (previous : Option (State τ)) (state : State τ) : Except Status Unit :=
  if state.id = 0 then .error .invalidId
  else if previous.any (·.id = state.id) then .error .duplicateId
  else if !validValueType state.valueType then .error .invalidType
  else match state.kind with
    | .other _ => .error .invalidContract
    | _ => .ok ()

def validateStateDomain (impl : Machine τ) : Except Status Unit := do
  checkRows checkState none impl.states
  match findState impl impl.initialState with
  | none => .error .unknownState
  | some _ => .ok ()

def checkEvent (previous : Option (EventType τ)) (event : EventType τ) : Except Status Unit :=
  if event.id = 0 then .error .invalidId
  else if previous.any (·.id = event.id) then .error .duplicateId
  else if !validValueType event.payloadType then .error .invalidType
  else .ok ()

def validateEventDomain (impl : Machine τ) : Except Status Unit :=
  checkRows checkEvent none impl.events

def checkGuard (impl : Machine τ) (previous : Option (Guard τ)) (guard : Guard τ) :
    Except Status Unit :=
  if guard.id = 0 || guard.eventId = 0 then .error .invalidId
  else if previous.any (·.id = guard.id) then .error .duplicateId
  else if !validValueType guard.stateType || !validValueType guard.eventType then
    .error .invalidType
  else if !effectsValid guard.effects || !propertiesValid guard.properties ||
      !effectsArePure guard.effects ||
      !propertiesInclude guard.properties (propStable ||| propNoAlias) then
    .error .invalidContract
  else match findEvent impl guard.eventId with
    | none => .error .unknownEvent
    | some event =>
        if !equal event.payloadType guard.eventType then .error .typeMismatch else .ok ()

def validateGuardDomain (impl : Machine τ) : Except Status Unit :=
  checkRows (checkGuard impl) none impl.guards

def validateActionObservation (impl : Machine τ) (action : Action τ) : Except Status Unit :=
  match action.observation with
  | .none =>
      if action.outputType.isNone && action.outputEventId = 0 then .ok ()
      else .error .invalidObservation
  | .value =>
      if action.outputType.any validValueType && action.outputEventId = 0 then .ok ()
      else .error .invalidObservation
  | .event =>
      if !action.outputType.any validValueType || action.outputEventId = 0 then
        .error .invalidObservation
      else match findEvent impl action.outputEventId with
        | none => .error .unknownEvent
        | some event =>
            if action.outputType.any (equal event.payloadType) then .ok ()
            else .error .typeMismatch
  | .other _ => .error .invalidObservation

def checkAction (impl : Machine τ) (previous : Option (Action τ)) (action : Action τ) :
    Except Status Unit :=
  if action.id = 0 || action.eventId = 0 then .error .invalidId
  else if previous.any (·.id = action.id) then .error .duplicateId
  else if !validValueType action.sourceType || !validValueType action.eventType ||
      !validValueType action.targetType then .error .invalidType
  else if !effectsValid action.effects || !propertiesValid action.properties ||
      !propertiesInclude action.properties (propDeterministic ||| propNoAlias) ||
      (action.properties &&& propTotal != 0 && action.effects &&& effectMayFail != 0) then
    .error .invalidContract
  else match findEvent impl action.eventId with
    | none => .error .unknownEvent
    | some event =>
        if !equal event.payloadType action.eventType then .error .typeMismatch
        else validateActionObservation impl action

def validateActionDomain (impl : Machine τ) : Except Status Unit :=
  checkRows (checkAction impl) none impl.actions

/-- The types a transition's guard and action are declared for, against those of its ends. -/
def checkTransitionTypes (transition : Transition) (source target : State τ)
    (event : EventType τ) (guard : Option (Guard τ)) (action : Option (Action τ)) : Bool :=
  guard.all (fun guard => guard.eventId = transition.event &&
    equal guard.stateType source.valueType && equal guard.eventType event.payloadType) &&
  action.all (fun action => action.eventId = transition.event &&
    equal action.sourceType source.valueType && equal action.eventType event.payloadType &&
    equal action.targetType target.valueType) &&
  (action.isSome || equal source.valueType target.valueType)

def checkTransition (impl : Machine τ) (previous : Option Transition) (transition : Transition) :
    Except Status Unit :=
  match findState impl transition.source, findState impl transition.target with
  | none, _ => .error .unknownState
  | _, none => .error .unknownState
  | some source, some target =>
    match findEvent impl transition.event with
    | none => .error .unknownEvent
    | some event =>
      let guard := if transition.guard = 0 then none else findGuard impl transition.guard
      let action := if transition.action = 0 then none else findAction impl transition.action
      if transition.guard ≠ 0 && guard.isNone then .error .unknownGuard
      else if transition.action ≠ 0 && action.isNone then .error .unknownAction
      else if source.kind ≠ .active then .error .terminalTransition
      else if !checkTransitionTypes transition source target event guard action then
        .error .typeMismatch
      else if previous.any fun row => row.source = transition.source &&
          row.event = transition.event && row.priority = transition.priority then
        .error .ambiguousTransition
      else .ok ()

def validateTransitions (impl : Machine τ) : Except Status Unit :=
  checkRows (checkTransition impl) none impl.transitions

/-- Marks the target of a transition and puts it into the queue unless it was there before. -/
def reachTarget (impl : Machine τ) (marks : List Bool × List ℕ) (transition : Transition) :
    List Bool × List ℕ :=
  match findIndex (·.id) impl.states transition.target with
  | none => marks
  | some target =>
      if marks.1.getD target false then marks
      else (marks.1.set target true, marks.2 ++ [transition.target])

/-- Takes states from the queue. A state enters it once, so a round for each state is enough. -/
def reachLoop (impl : Machine τ) : ℕ → List Bool × List ℕ → List Bool
  | 0, marks => marks.1
  | _ + 1, (reachable, []) => reachable
  | rounds + 1, (reachable, source :: queue) =>
      let rows := (impl.transitions.drop (firstTransitionForSource impl source)).takeWhile
        (·.source = source)
      reachLoop impl rounds (rows.foldl (reachTarget impl) (reachable, queue))

def validateReachability (impl : Machine τ) : Except Status Unit :=
  match findIndex (·.id) impl.states impl.initialState with
  | none => .error .unreachableState
  | some initial =>
      let reachable := (List.replicate impl.states.length false).set initial true
      if (reachLoop impl (impl.states.length + 1) (reachable, [impl.initialState])).all id then
        .ok ()
      else .error .unreachableState

def markUsed {α : Type} (key : α → ℕ) (rows : List α) (use : Transition → ℕ)
    (transitions : List Transition) : List Bool :=
  transitions.foldl (fun used row =>
    if use row = 0 then used
    else (findIndex key rows (use row)).elim used fun i => used.set i true)
    (List.replicate rows.length false)

def validateDeclarationUse (impl : Machine τ) : Except Status Unit :=
  if (markUsed (·.id) impl.guards (·.guard) impl.transitions).all id &&
      (markUsed (·.id) impl.actions (·.action) impl.transitions).all id then .ok ()
  else .error .unusedDeclaration

def validateMachine (impl : Machine τ) : Except Status Unit := do
  validateStateDomain impl
  validateEventDomain impl
  validateGuardDomain impl
  validateActionDomain impl
  validateTransitions impl
  validateReachability impl
  validateDeclarationUse impl

def sortRows (definition : Definition τ) : Machine τ where
  states := BinarySearch.sortBy (compareOn (·.id)) definition.states
  initialState := definition.initialState
  events := BinarySearch.sortBy (compareOn (·.id)) definition.events
  guards := BinarySearch.sortBy (compareOn (·.id)) definition.guards
  actions := BinarySearch.sortBy (compareOn (·.id)) definition.actions
  transitions := BinarySearch.sortBy compareTransition definition.transitions

/-- `cflow_machine_build`. -/
def build (definition : Definition τ) : Except Status (Machine τ) :=
  if definition.states.length = 0 then .error .empty
  else if definition.states.length > maxStates || definition.events.length > maxEvents ||
      definition.guards.length > maxGuards || definition.actions.length > maxActions ||
      definition.transitions.length > maxTransitions then .error .limitExceeded
  else match validateMachine (sortRows definition) with
    | .error status => .error status
    | .ok () => .ok (sortRows definition)

/-! ## What the checks ensure -/

theorem checkRows_ok {α ε : Type} {check : Option α → α → Except ε Unit} :
    ∀ {rows : List α} {previous : Option α}, checkRows check previous rows = .ok () →
      ∀ row ∈ rows, ∃ before, check before row = .ok ()
  | [], _, _, _, hr => absurd hr List.not_mem_nil
  | first :: rows, previous, h, row, hr => by
    rw [checkRows] at h
    split at h
    · cases h
    · rename_i hcheck
      rcases List.mem_cons.1 hr with rfl | hr
      · exact ⟨previous, hcheck⟩
      · exact checkRows_ok h row hr

structure Declared (impl : Machine τ) (transition : Transition) : Prop where
  target : (findState impl transition.target).isSome
  guard : transition.guard ≠ 0 → (findGuard impl transition.guard).isSome
  action : transition.action ≠ 0 → (findAction impl transition.action).isSome

theorem checkTransition_ok {impl : Machine τ} {previous : Option Transition}
    {transition : Transition} (h : checkTransition impl previous transition = .ok ()) :
    Declared impl transition := by
  simp only [checkTransition] at h
  split at h
  · cases h
  · cases h
  · rename_i source target hsource htarget
    split at h
    · cases h
    · refine ⟨htarget ▸ rfl, fun hne => ?_, fun hne => ?_⟩
      · by_contra hnone
        rw [Option.not_isSome_iff_eq_none] at hnone
        simp [hne, hnone] at h
      · by_contra hnone
        rw [Option.not_isSome_iff_eq_none] at hnone
        simp [hne, hnone] at h
        split at h <;> cases h

theorem checkAction_ok {impl : Machine τ} {previous : Option (Action τ)} {action : Action τ}
    (h : checkAction impl previous action = .ok ()) :
    validateActionObservation impl action = .ok () := by
  unfold checkAction at h
  split_ifs at h
  split at h
  · cases h
  · split_ifs at h
    exact h

/-- What an action emits is an event of its declared type. -/
theorem validateActionObservation_event {impl : Machine τ} {action : Action τ}
    (h : validateActionObservation impl action = .ok ()) (he : action.observation = .event) :
    ∃ type event, action.outputType = some type ∧ action.outputEventId ≠ 0 ∧
      findEvent impl action.outputEventId = some event ∧
      equal event.payloadType type = true := by
  rw [validateActionObservation, he] at h
  simp only at h
  split_ifs at h with hout
  split at h
  · cases h
  · rename_i event hevent
    split_ifs at h with hequal
    simp only [Bool.or_eq_true, Bool.not_eq_true', decide_eq_true_eq, not_or] at hout
    cases htype : action.outputType with
    | none => simp [htype] at hequal
    | some type => exact ⟨type, event, rfl, hout.2, hevent, by simpa [htype] using hequal⟩

theorem build_ok {definition : Definition τ} {machine : Machine τ}
    (h : build definition = .ok machine) :
    machine = sortRows definition ∧ validateMachine machine = .ok () := by
  unfold build at h
  split_ifs at h
  split at h
  · cases h
  · rename_i hvalid
    cases h
    exact ⟨rfl, hvalid⟩

theorem build_declares {definition : Definition τ} {machine : Machine τ}
    (h : build definition = .ok machine) :
    (∀ transition ∈ machine.transitions, Declared machine transition) ∧
      ∀ action ∈ machine.actions, validateActionObservation machine action = .ok () := by
  have hvalid := (build_ok h).2
  simp only [validateMachine, Fallible.bind_eq_ok] at hvalid
  obtain ⟨_, -, _, -, _, -, _, hactions, _, htransitions, -⟩ := hvalid
  refine ⟨fun transition hmem => ?_, fun action hmem => ?_⟩
  · obtain ⟨before, hcheck⟩ := checkRows_ok htransitions transition hmem
    exact checkTransition_ok hcheck
  · obtain ⟨before, hcheck⟩ := checkRows_ok hactions action hmem
    exact checkAction_ok hcheck

end Build

end Cflow.Machine
