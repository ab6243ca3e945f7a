import TurboUtils.Cflow.Machine.Build

/-! `select_transition`: the rows of the machine that a state and an event select, in the order in
which their guards are tried. -/
namespace Cflow.Machine

def Transition.before (source event : ℕ) (row : Transition) : Bool :=
  row.source < source || (row.source = source && row.event < event)

def Transition.isFor (source event : ℕ) (row : Transition) : Bool :=
  row.source = source && row.event = event

section Scan

variable {τ : Type}

def firstTransitionFor (impl : Machine τ) (source event : ℕ) : ℕ :=
  BinarySearch.lowerBound (fun i => impl.transitions[i]?.elim false (·.before source event))
    impl.transitions.length 0 impl.transitions.length

/-- The rows that the loop goes through, each with its index, if no guard stops it earlier. -/
def scannedRows (impl : Machine τ) (source event : ℕ) :
    List (Transition × ℕ) :=
  (impl.transitions.zipIdx.drop (firstTransitionFor impl source event)).takeWhile fun row =>
    row.1.isFor source event

end Scan

/-- Why an instance of a machine ends with an error. -/
inductive Failure where
  | guardMissing
  | guardFailed (message : Option String)
  | noTransition
  | actionMissing
  | actionContract
  | actionFailed (message : Option String)
  | targetInvalid
  | emittedFull
  | emittedRejected
  | commitInvalid
  | errorState
  | initialErrorState
  | receiveFailed
  | armFailed
  | executorFull
  | executorClosed
  deriving DecidableEq, Repr

/-- `runtime_copy_error`: a message that is absent or empty is replaced. -/
def copyError (message : Option String) : String :=
  match message with
  | some text => if text = "" then "machine runtime error" else text
  | none => "machine runtime error"

def Failure.text : Failure → String
  | .guardMissing => "machine guard binding is missing"
  | .guardFailed message => copyError message
  | .noTransition => "no enabled transition"
  | .actionMissing => "machine action binding is missing"
  | .actionContract => "machine action contract violation"
  | .actionFailed message => copyError (some (message.getD "machine action failed"))
  | .targetInvalid => "machine transition target is invalid"
  | .emittedFull => "machine emitted Event mailbox is full"
  | .emittedRejected => "machine emitted Event was rejected"
  | .commitInvalid => "machine commit phase is invalid"
  | .errorState => "entered error state"
  | .initialErrorState => "initial error state"
  | .receiveFailed => "machine mailbox receive failed"
  | .armFailed => "machine mailbox waitable arm failed"
  | .executorFull => "machine SerialExecutor is full"
  | .executorClosed => "machine SerialExecutor is closed"

/-- A guard says whether its transition is enabled, or fails with or without a message. -/
abbrev GuardFn (σ π : Type) := σ → π → Except (Option String) Bool

section Select

variable {σ π : Type} (guards : List (ℕ × GuardFn σ π)) (value : σ) (payload : π)

def transitionEnabled (transition : Transition) : Except Failure Bool :=
  if transition.guard = 0 then .ok true
  else match findRow Prod.fst guards transition.guard with
    | none => .error .guardMissing
    | some binding =>
        match binding.2 value payload with
        | .error message => .error (.guardFailed message)
        | .ok enabled => .ok enabled

def selectLoop : List (Transition × ℕ) → Except Failure (Transition × ℕ)
  | [] => .error .noTransition
  | row :: rows =>
      match transitionEnabled guards value payload row.1 with
      | .error failure => .error failure
      | .ok true => .ok row
      | .ok false => selectLoop rows

def selectTransition {τ : Type} (impl : Machine τ) (source event : ℕ) :
    Except Failure (Transition × ℕ) :=
  selectLoop guards value payload (scannedRows impl source event)

end Select

/-! ## What is scanned -/

/-- The transitions are sorted as `cflow_machine_build` leaves them. -/
def Sorted {τ : Type} (impl : Machine τ) : Prop :=
  impl.transitions.Pairwise fun a b => (compareTransition a b).isLE

theorem compareTransition_isLE {a b : Transition} : (compareTransition a b).isLE ↔
    a.source < b.source ∨ a.source = b.source ∧ (a.event < b.event ∨
      a.event = b.event ∧ (a.priority < b.priority ∨
        a.priority = b.priority ∧ a.target ≤ b.target)) := by
  simp only [compareTransition, BinarySearch.compareLex_isLE, BinarySearch.compareOn_isLE]

theorem before_of_isLE {a b : Transition} {source event : ℕ}
    (h : (compareTransition a b).isLE) (hb : b.before source event) :
    a.before source event := by
  rw [compareTransition_isLE] at h
  simp only [Transition.before, Bool.or_eq_true, Bool.and_eq_true, decide_eq_true_eq] at hb ⊢
  omega

/-- In a sorted list the rows before a state and event are the first ones. -/
theorem before_getElem (source event : ℕ) :
    ∀ {rows : List Transition}, (rows.Pairwise fun a b => (compareTransition a b).isLE) →
      ∀ (i : ℕ) (hi : i < rows.length), rows[i].before source event =
        decide (i < rows.countP (·.before source event))
  | [], _, i, hi => by simp at hi
  | row :: rows, h, i, hi => by
    have hrest := List.pairwise_cons.1 h
    have ih := before_getElem source event hrest.2
    by_cases hrow : row.before source event
    · rw [List.countP_cons_of_pos hrow]
      cases i with
      | zero => simp [hrow]
      | succ i => simpa using ih i (by simpa using hi)
    · have hnone : ∀ b ∈ rows, ¬b.before source event := fun b hb hbb =>
        hrow (before_of_isLE (hrest.1 b hb) hbb)
      rw [List.countP_cons_of_neg hrow, List.countP_eq_zero.2 hnone]
      cases i with
      | zero => simpa using hrow
      | succ i => simpa using hnone _ (List.getElem_mem _)

theorem firstTransitionFor_eq {τ : Type} {impl : Machine τ} (h : Sorted impl) (source event : ℕ) :
    firstTransitionFor impl source event = impl.transitions.countP (·.before source event) := by
  apply BinarySearch.lowerBound_eq (by omega) (Nat.zero_le _) List.countP_le_length
  intro i hi
  rw [List.getElem?_eq_getElem hi, Option.elim_some, before_getElem source event h]

/-- In a sorted list, what is left after the rows before a state and event begins with its rows. -/
theorem takeWhile_drop_before {source event : ℕ} :
    ∀ {rows : List Transition}, (rows.Pairwise fun a b => (compareTransition a b).isLE) →
      (rows.drop (rows.countP (·.before source event))).takeWhile (·.isFor source event) =
        rows.filter (·.isFor source event)
  | [], _ => rfl
  | row :: rows, h => by
    have hrest := List.pairwise_cons.1 h
    have ih := @takeWhile_drop_before source event _ hrest.2
    by_cases hrow : row.before source event
    · have hnot : ¬row.isFor source event := by
        simp only [Transition.before, Transition.isFor, Bool.or_eq_true, Bool.and_eq_true,
          decide_eq_true_eq] at hrow ⊢
        omega
      rw [List.countP_cons_of_pos hrow, List.drop_succ_cons, ih, List.filter_cons_of_neg hnot]
    · have hnone : rows.countP (·.before source event) = 0 :=
        List.countP_eq_zero.2 fun b hb hbb => hrow (before_of_isLE (hrest.1 b hb) hbb)
      rw [hnone, List.drop_zero] at ih
      rw [List.countP_cons_of_neg hrow, hnone, List.drop_zero]
      by_cases hfor : row.isFor source event
      · rw [List.takeWhile_cons_of_pos hfor, List.filter_cons_of_pos hfor, ih]
      · rw [List.takeWhile_cons_of_neg hfor, List.filter_cons_of_neg hfor, eq_comm,
          List.filter_eq_nil_iff]
        -- the row lies behind the rows searched for, and so does everything after it
        intro b hb hbfor
        have hle := compareTransition_isLE.1 (hrest.1 b hb)
        simp only [Transition.before, Transition.isFor, Bool.or_eq_true, Bool.and_eq_true,
          decide_eq_true_eq] at hrow hfor hbfor
        omega

theorem scannedRows_fst {τ : Type} {impl : Machine τ} (h : Sorted impl) (source : ℕ)
    (event : ℕ) : (scannedRows impl source event).map Prod.fst =
      impl.transitions.filter (·.isFor source event) := by
  rw [← takeWhile_drop_before h, scannedRows, firstTransitionFor_eq h]
  have hmap : ∀ rows : List (Transition × ℕ),
      (rows.takeWhile fun row => row.1.isFor source event).map Prod.fst =
        (rows.map Prod.fst).takeWhile (·.isFor source event) := fun rows => by
    rw [List.takeWhile_map]
    rfl
  rw [hmap, List.map_drop, List.zipIdx_map_fst]

theorem scannedRows_get {τ : Type} {impl : Machine τ} {source event : ℕ}
    {row : Transition × ℕ} (h : row ∈ scannedRows impl source event) :
    impl.transitions[row.2]? = some row.1 :=
  List.mem_zipIdx_iff_getElem?.1 (List.mem_of_mem_drop ((List.takeWhile_sublist _).mem h))

theorem selectLoop_mem {σ π : Type} {guards : List (ℕ × GuardFn σ π)} {value : σ} {payload : π} :
    ∀ {rows : List (Transition × ℕ)} {row : Transition × ℕ},
      selectLoop guards value payload rows = .ok row → row ∈ rows
  | [], _, h => by cases h
  | first :: rows, row, h => by
    rw [selectLoop] at h
    split at h
    · cases h
    · cases h
      exact List.mem_cons_self
    · exact List.mem_cons_of_mem _ (selectLoop_mem h)

theorem selectLoop_error {σ π : Type} {guards : List (ℕ × GuardFn σ π)} {value : σ} {payload : π}
    {failure : Failure} : ∀ {rows : List (Transition × ℕ)},
      selectLoop guards value payload rows = .error failure → failure = .noTransition ∨
        ∃ row ∈ rows, transitionEnabled guards value payload row.1 = .error failure
  | [], h => by
    cases h
    exact .inl rfl
  | first :: rows, h => by
    rw [selectLoop] at h
    split at h
    · rename_i henabled
      cases h
      exact .inr ⟨first, List.mem_cons_self, henabled⟩
    · cases h
    · refine (selectLoop_error h).imp_right fun ⟨row, hrow, he⟩ => ?_
      exact ⟨row, List.mem_cons_of_mem _ hrow, he⟩

theorem selectTransition_get {σ π τ : Type} {guards : List (ℕ × GuardFn σ π)} {value : σ}
    {payload : π} {impl : Machine τ} {source event : ℕ} {row : Transition × ℕ}
    (h : selectTransition guards value payload impl source event = .ok row) :
    impl.transitions[row.2]? = some row.1 ∧ row.1.source = source ∧ row.1.event = event := by
  have hmem := selectLoop_mem h
  refine ⟨scannedRows_get hmem, ?_⟩
  have hfor := List.all_eq_true.1 List.all_takeWhile _ hmem
  simpa [Transition.isFor] using hfor

end Cflow.Machine
