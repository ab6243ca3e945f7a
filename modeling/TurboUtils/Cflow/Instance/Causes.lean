import TurboUtils.Cflow.Instance.Calm

/-! An instance has an error only for a reason that lies with the machine, as long as the worker
does not arm the mailbox twice and does not emit into a cancelled mailbox. -/
namespace Cflow.Instance

open Machine Interleaving

variable {τ ν : Type}

section Runs

variable {c : Config τ ν}

def Label.Accepting (l : Label τ ν) : Prop := l ≠ .answer .full ∧ l ≠ .answer .closed

/-- The condition on the arming of the mailbox: there is no waiter that it would find. -/
def Call.Armable (s : Shared τ ν) : Call τ ν → Prop
  | .arm => s.mailbox.arm.isSome
  | _ => True

/-- No task arms the mailbox while its waker is registered, and no emission finds the mailbox
cancelled. -/
def undisturbed : Condition (Shared τ ν) (Call τ ν) (Point τ ν) (Label τ ν) where
  call _ call _ s := call.Armable s
  resume _ point _ s := point.Granted s

instance (t : ℕ) (call : Call τ ν) (l : Label τ ν) (s : Shared τ ν) :
    Decidable (undisturbed.call t call l s) := by
  cases call <;> unfold undisturbed Call.Armable <;> infer_instance

instance (t : ℕ) (point : Point τ ν) (l : Label τ ν) (s : Shared τ ν) :
    Decidable (undisturbed.resume t point l s) := by
  cases point <;> unfold undisturbed Point.Granted <;> infer_instance

variable {t : ℕ} {l : Label τ ν} {s s' : Shared τ ν} {thread thread' : Thread (Call τ ν) (Point τ ν)}

theorem granted_of_undisturbed {call : Call τ ν} (hl : l.Accepting)
    (hk : undisturbed.call t call l s) : call.Granted l s := by
  cases call with
  | post => exact hl
  | arm => exact hk
  | _ => trivial

theorem request_harmless (request : Request τ ν) (hierarchical : Bool) :
    ∀ call ∈ request.calls hierarchical, call.Harmless := by
  cases request <;> simp only [Request.calls] <;> (try split) <;> simp [Call.Harmless]

theorem initialShared_explained (c : Config τ ν) (initial : State τ) :
    Explained c (initialShared c initial) ∧
      ((initialShared c initial).lifecycle = .terminal → (initialShared c initial).done = true) := by
  have hframe := initialShared_frame c initial
  refine ⟨⟨fun failure hf => ?_, hframe.schema, hframe.undrained (by simp [Mailbox.init])⟩, ?_⟩
  · simp only [initialShared] at hf
    split_ifs at hf with hkind
    · cases hf
      exact .initialErrorState hkind
    · cases hf
  · simp [initialShared]

variable [RuntimeType τ]

theorem section_calm (hs : Sound c) (hevents : c.machine.events ≠ []) (hc : Calm c t s thread)
    (hk : (undisturbed.withLabels Label.Accepting).Meets t l s thread)
    (h : Section (program c) t l s thread s' thread') : Calm c t s' thread' := by
  cases h with
  | call hcall => exact call_calm hc (granted_of_undisturbed hk.1 hk.2) hcall
  | resume hresume =>
    have ht : t = 0 := by
      by_contra hne
      cases hc.balanced.caller hne
    subst ht
    cases hresume
    exact proceed_calm hs hevents hc hk.2
  | @start r hstart =>
    have hbegin : begin c t l s = some r := hstart
    have hb := section_balanced hc.balanced (.start hstart)
    obtain ⟨hcauses, hschema, hundrained⟩ := hc.explained
    unfold begin at hbegin
    split_ifs at hbegin with ht
    · cases hbegin
      exact ⟨hb, ⟨hcauses, hschema, hundrained⟩, by rintro _ ⟨⟩; trivial, callsCalm_nil, hc.ended⟩
    · split at hbegin <;> cases hbegin
      exact ⟨hb, ⟨hcauses, hschema, hundrained⟩, by rintro _ ⟨⟩, .inl (request_harmless _ _),
        fun h0 => absurd h0 ht⟩

/-- A thread relies on nothing that the sections of other threads could change. -/
theorem others_calm (hs : Sound c) (hevents : c.machine.events ≠ []) (hc : Calm c t s thread)
    (hk : (undisturbed.withLabels Label.Accepting).Meets t l s thread)
    (h : Section (program c) t l s thread s' thread') (u : ℕ) (hu : u ≠ t)
    (other : Thread (Call τ ν) (Point τ ν)) (ho : Calm c u s other) : Calm c u s' other := by
  have hb := section_others hc.balanced h u hu other ho.balanced
  have hx := (section_calm hs hevents hc hk h).explained
  by_cases hu0 : u = 0
  · -- the section is one of a caller
    have ht : t ≠ 0 := fun ht => hu (hu0.trans ht.symm)
    cases h with
    | @call call calls point s' pushed hcall =>
      have hh : call.Harmless := by
        rcases hc.calls with hharmless | ⟨⟨quantum, hpoint⟩, -⟩
        · exact hharmless call List.mem_cons_self
        · cases (hc.balanced.caller ht).symm.trans hpoint
      have hframe := perform_frame s hcall
      have hstate : s'.state = s.state := congrArg Books.state hframe.books
      have hvalue : s'.value = s.value := congrArg Books.value hframe.books
      have hquiet := perform_quiet hh (granted_of_undisturbed hk.1 hk.2) hcall
      refine ⟨hb, hx, fun p hp => (ho.point p hp).mono hquiet.healthy hstate hvalue, ?_, ?_⟩
      · refine ho.calls.imp_right fun ⟨hfinish, hcalls⟩ => ⟨hfinish, fun call hmem => ?_⟩
        exact (hcalls call hmem).mono hstate hvalue
      · intro _ hterminal
        rcases hquiet.ended hterminal with hbefore | hafter
        · exact (ho.ended hu0 hbefore).imp_left hquiet.done
        · exact .inl hafter
    | resume => cases hc.balanced.caller ht
    | @start r hstart =>
      have hbegin : begin c t l s = some r := hstart
      unfold begin at hbegin
      rw [if_neg ht] at hbegin
      split at hbegin <;> cases hbegin
      exact ho
  · have hnone := ho.balanced.caller hu0
    refine ⟨hb, hx, fun p hp => ?_, ?_, fun h0 => absurd h0 hu0⟩
    · rw [hnone] at hp
      cases hp
    · rcases ho.calls with hharmless | ⟨⟨quantum, hpoint⟩, -⟩
      · exact .inl hharmless
      · cases hnone.symm.trans hpoint

theorem created_calm (h : Created c s) : Everywhere (Calm c) (c.world s) := by
  intro t
  have hb := created_balanced h t
  cases h with
  | plain _ h =>
    obtain ⟨initial, -, -, -, -, rfl⟩ := instanceInit_ok h
    obtain ⟨hx, hended⟩ := initialShared_explained c initial
    exact ⟨hb, hx, by rintro _ ⟨⟩, callsCalm_nil, fun _ hterminal => .inl (hended hterminal)⟩
  | hierarchical hierarchy _ _ h =>
    obtain ⟨s₀, hs₀, rfl⟩ := hierarchyInstanceInit_ok h
    obtain ⟨initial, -, -, -, -, rfl⟩ := instanceInit_ok hs₀
    obtain ⟨⟨hcauses, hschema, hundrained⟩, hended⟩ := initialShared_explained c initial
    exact ⟨hb, ⟨hcauses, hschema, hundrained⟩, by rintro _ ⟨⟩, callsCalm_nil,
      fun _ hterminal => .inl (hended hterminal)⟩

theorem sound_of_built {definition : Definition τ} (hb : build definition = .ok c.machine)
    (h : Created c s) : Sound c := by
  have hinit : ∃ s₀, instanceInit c = .ok s₀ := by
    cases h with
    | plain _ h => exact ⟨s, h⟩
    | hierarchical hierarchy _ _ h =>
      obtain ⟨s₀, hs₀, -⟩ := hierarchyInstanceInit_ok h
      exact ⟨s₀, hs₀⟩
  obtain ⟨s₀, hs₀⟩ := hinit
  obtain ⟨initial, -, -, hbindings, hevents, -⟩ := instanceInit_ok hs₀
  obtain ⟨hdeclares, hemits⟩ := build_declares hb
  refine ⟨hdeclares, hemits, hbindings, ?_⟩
  rcases hevents with hnone | hschema
  · rw [hnone]
    exact List.nodup_nil
  · simp only [schemaSupported, Bool.and_eq_true, decide_eq_true_eq] at hschema
    exact hschema.2

end Runs

theorem relay_built : build relay.machine = .ok relay.machine := by
  have hok : (build relay.machine).isOk = true := by decide
  cases h : build relay.machine with
  | error status =>
    rw [h] at hok
    cases hok
  | ok machine =>
    rw [(build_ok h).1]
    rfl

def filledMeanwhile : List (ℕ × Label Unit ℕ) :=
  [(1, .call (.send ⟨7, (), 5⟩)), (1, .go), (1, .call (.send ⟨7, (), 6⟩)), (1, .go),
    (2, .call .resume), (2, .go), (2, .go), (2, .answer .accepted)] ++
    List.replicate 9 (0, .go) ++ [(1, .call (.send ⟨7, (), 8⟩)), (1, .go)] ++
    List.replicate 3 (0, .go)

/-- The instance of a machine that was built has this error after the run, for no cause, although
the executor accepted every post. -/
def Errs {τ ν : Type} [RuntimeType τ] (c : Config τ ν) (s : Shared τ ν)
    (schedule : List (ℕ × Label τ ν)) (failure : Failure) : Prop :=
  (∃ definition, build definition = .ok c.machine) ∧ Created c s ∧
    (∀ x ∈ schedule, x.2.Accepting) ∧ ∃ w, run (program c) (c.world s) schedule = some w ∧
      w.shared.error = some failure ∧ ¬Cause c w.shared.state w.shared.value failure

/-- The second resume comes when the first one has left the instance waiting for an event. -/
def resumedTwice : List (ℕ × Label Unit ℕ) :=
  [(1, .call .resume), (1, .go), (1, .go), (1, .answer .accepted)] ++ List.replicate 8 (0, .go) ++
    [(1, .call .resume), (1, .go), (1, .go), (1, .answer .accepted)] ++ List.replicate 10 (0, .go)

def closedMeanwhile : List (ℕ × Label Unit ℕ) :=
  [(1, .call (.send ⟨7, (), 5⟩)), (1, .go), (2, .call .resume), (2, .go), (2, .go),
    (2, .answer .accepted)] ++ List.replicate 9 (0, .go) ++
    [(3, .call .close)] ++ List.replicate 4 (3, .go) ++ List.replicate 3 (0, .go)

/-- A machine without events. -/
def mute : Config Unit ℕ :=
  { relay with
    machine := { relay.machine with events := [], actions := [], transitions := [] }
    actions := [] }

def resumedOnce : List (ℕ × Label Unit ℕ) :=
  [(1, .call .resume), (1, .go), (1, .go), (1, .answer .accepted)] ++ List.replicate 6 (0, .go)

theorem mute_built : build mute.machine = .ok mute.machine := by
  have hok : (build mute.machine).isOk = true := by decide
  cases h : build mute.machine with
  | error status =>
    rw [h] at hok
    cases hok
  | ok machine =>
    rw [(build_ok h).1]
    rfl

theorem errs_of_run {τ ν : Type} [RuntimeType τ] {c : Config τ ν} {s : Shared τ ν}
    {schedule : List (ℕ × Label τ ν)} {failure : Failure} {definition : Definition τ}
    (hb : build definition = .ok c.machine) (hc : Created c s)
    (ha : ∀ x ∈ schedule, x.2.Accepting)
    (hn : ∀ state value, ¬Cause c state value failure)
    (hrun : ((run (program c) (c.world s) schedule).map fun w => w.shared.error) =
      some (some failure)) : Errs c s schedule failure := by
  obtain ⟨w, hw, herror⟩ := Option.map_eq_some_iff.1 hrun
  exact ⟨⟨definition, hb⟩, hc, ha, w, hw, herror, hn _ _⟩

end Cflow.Instance
