import TurboUtils.Cflow.Instance.Harmless

/-! The invariant of an instance without an error of its own making: what a thread is about to do is
harmless, or is a failure that comes with its cause. -/
namespace Cflow.Instance

open Machine Interleaving

variable {τ ν : Type}

def Call.Explained (c : Config τ ν) (s : Shared τ ν) : Call τ ν → Prop
  | .unschedule => False
  | .fail failure => Cause c s.state s.value failure
  | _ => True

def Stage.Explained (c : Config τ ν) (s : Shared τ ν) : Stage τ ν → Prop
  | .failed failure => Cause c s.state s.value failure
  | _ => True

def Point.Calm (c : Config τ ν) (s : Shared τ ν) : Point τ ν → Prop
  | .receive _ => Healthy s
  | .take _ => Healthy s
  | .settle _ stage => Healthy s ∧ stage.Explained c s
  | .checkClosed _ decision => Healthy s ∧ decision.observes .event = true
  | .emit _ decision => Healthy s ∧ decision.observes .event = true
  | .abort _ failure => Healthy s ∧ Cause c s.state s.value failure
  | .commit _ _ => Healthy s
  | _ => True

structure Explained (c : Config τ ν) (s : Shared τ ν) : Prop where
  causes : ∀ failure ∈ s.error, Cause c s.state s.value failure
  schema : s.mailbox.schema = c.machine.events
  undrained : s.mailbox.terminal ≠ .draining

/-- The calls of a thread are harmless, but for those of a worker that finishes its task. -/
def CallsCalm (c : Config τ ν) (s : Shared τ ν) (thread : Thread (Call τ ν) (Point τ ν)) : Prop :=
  (∀ call ∈ thread.calls, call.Harmless) ∨
    (∃ quantum, thread.point = some (.finish quantum)) ∧
      ∀ call ∈ thread.calls, call.Explained c s

structure Calm (c : Config τ ν) (t : ℕ) (s : Shared τ ν) (thread : Thread (Call τ ν) (Point τ ν)) :
    Prop where
  balanced : Balanced c t s thread
  explained : Explained c s
  point : ∀ p ∈ thread.point, p.Calm c s
  calls : CallsCalm c s thread
  /-- The life of the instance ends with it being done, or is about to. -/
  ended : t = 0 → s.lifecycle = .terminal →
    s.done = true ∨ ∃ failure, Call.fail failure ∈ thread.calls

section Invariant

variable {c : Config τ ν} {s s' : Shared τ ν}

theorem Point.Calm.mono {p : Point τ ν} (h : p.Calm c s) (hhealthy : Healthy s → Healthy s')
    (hstate : s'.state = s.state) (hvalue : s'.value = s.value) : p.Calm c s' := by
  cases p with
  | receive | take | commit => exact hhealthy h
  | settle flight stage =>
    refine ⟨hhealthy h.1, ?_⟩
    cases stage with
    | failed failure =>
      have hcause := h.2
      rw [Stage.Explained] at hcause ⊢
      rwa [hstate, hvalue]
    | _ => trivial
  | checkClosed | emit => exact ⟨hhealthy h.1, h.2⟩
  | abort flight failure =>
    refine ⟨hhealthy h.1, ?_⟩
    rw [hstate, hvalue]
    exact h.2
  | _ => trivial

theorem Call.Explained.mono {call : Call τ ν} (h : call.Explained c s)
    (hstate : s'.state = s.state) (hvalue : s'.value = s.value) : call.Explained c s' := by
  cases call with
  | unschedule => exact h
  | fail failure =>
    rw [Call.Explained, hstate, hvalue]
    exact h
  | _ => trivial

theorem Call.Harmless.explained {call : Call τ ν} (h : call.Harmless) : call.Explained c s := by
  cases call with
  | unschedule | fail => cases h
  | _ => trivial

theorem commit_life (s : Shared τ ν) (event : Event τ ν) (decision : Decision τ ν) :
    (s.commit event decision).error = s.error ∧
      ((s.commit event decision).lifecycle = .terminal → s.lifecycle ≠ .terminal →
        (s.commit event decision).done = true ∨ decision.target.kind = .error) := by
  have hpublish : (((s.settleCommitted event decision).publishObservation decision).publishClose
        decision).error = s.error ∧
      (((s.settleCommitted event decision).publishObservation decision).publishClose
        decision).lifecycle = s.lifecycle := by
    unfold Shared.publishClose Shared.publishObservation
    split_ifs <;> exact ⟨rfl, rfl⟩
  refine ⟨hpublish.1, fun hterminal hbefore => ?_⟩
  simp only [Shared.commit, Shared.finishCommit] at hterminal ⊢
  split_ifs at hterminal with hover
  · simpa using hover
  · exact absurd (hpublish.2 ▸ hterminal) hbefore

/-- What follows a commit is harmless, but for the failure in an error state. -/
theorem afterCommit_calm {decision : Decision τ ν} {closing : Bool} {point : Option (Point τ ν)}
    (hstate : s.state = decision.target)
    (hpoint : decision.target.kind = .error → ∃ quantum, point = some (.finish quantum)) :
    CallsCalm c s ⟨afterCommit decision closing, point⟩ := by
  by_cases hkind : decision.target.kind = .error
  · refine .inr ⟨hpoint hkind, fun call hmem => ?_⟩
    simp only [afterCommit, hkind, if_true, failRuntime, List.mem_cons, List.not_mem_nil,
      or_false] at hmem
    rcases hmem with rfl | rfl | rfl
    · trivial
    · trivial
    · exact .errorState (hstate ▸ hkind)
  · refine .inl fun call hmem => ?_
    simp only [afterCommit, hkind, if_false, List.mem_cons] at hmem
    rcases hmem with rfl | hmem
    · trivial
    · split_ifs at hmem
      · rw [List.mem_singleton.1 hmem]
        trivial
      · cases hmem

theorem Calm.move {p : Point τ ν} {calls : List (Call τ ν)} {point : Option (Point τ ν)}
    (hc : Calm c 0 s ⟨[], some p⟩) (hb : Balanced c 0 s' ⟨calls, point⟩)
    (hx : Explained c s') (hdone : s'.done = s.done) (hlife : s'.lifecycle = s.lifecycle)
    (hpoint : ∀ p ∈ point, p.Calm c s') (hcalls : CallsCalm c s' ⟨calls, point⟩) :
    Calm c 0 s' ⟨calls, point⟩ := by
  refine ⟨hb, hx, hpoint, hcalls, fun _ hterminal => ?_⟩
  rw [hlife] at hterminal
  rcases hc.ended rfl hterminal with hd | ⟨failure, hmem⟩
  · exact .inl (hdone.trans hd)
  · exact absurd hmem List.not_mem_nil

theorem callsCalm_nil {point : Option (Point τ ν)} : CallsCalm c s ⟨[], point⟩ :=
  .inl fun _ h => absurd h List.not_mem_nil

theorem callsCalm_publishDone {quantum : Bool} :
    CallsCalm c s ⟨[.hookBegin, .publishDone], some (.finish quantum)⟩ := by
  refine .inr ⟨⟨quantum, rfl⟩, fun call h => ?_⟩
  simp only [List.mem_cons, List.not_mem_nil, or_false] at h
  rcases h with rfl | rfl <;> trivial

theorem callsCalm_hookBegin {point : Option (Point τ ν)} :
    CallsCalm c s ⟨[.hookBegin], point⟩ :=
  .inl fun call h => by rw [List.mem_singleton.1 h]; trivial

variable [RuntimeType τ] {t : ℕ} {l : Label τ ν}

/-- A section of an explained call leaves the instance explained. -/
theorem perform_explained {call : Call τ ν} {pushed : List (Call τ ν)} (hx : Explained c s)
    (hcall : call.Explained c s) (hg : call.Granted l s)
    (h : perform c t l s call = some (s', pushed)) : Explained c s' ∧
      (s.done = true → s'.done = true) ∧
      (s'.lifecycle = .terminal → s.lifecycle = .terminal ∨ s'.done = true) ∧
      ∀ failure, call = .fail failure → s'.done = true := by
  have hframe := perform_frame s h
  have hstate : s'.state = s.state := congrArg Books.state hframe.books
  have hvalue : s'.value = s.value := congrArg Books.value hframe.books
  have hschema := hframe.mailbox.schema.trans hx.schema
  have hundrained := hframe.mailbox.undrained hx.undrained
  by_cases hh : call.Harmless
  · have hquiet := perform_quiet hh hg h
    refine ⟨⟨?_, hschema, hundrained⟩, hquiet.done, hquiet.ended, ?_⟩
    · rw [hquiet.error, hstate, hvalue]
      exact hx.causes
    · rintro failure rfl
      cases hh
  · refine ⟨⟨?_, hschema, hundrained⟩, ?_⟩
    · rw [hstate, hvalue]
      cases call with
      | fail failure =>
        cases h
        simp only [Shared.fail]
        split_ifs
        · rintro _ ⟨⟩
          exact hcall
        · exact hx.causes
      | publishDone =>
        cases h
        exact hx.causes
      | unschedule => cases hcall
      | _ => exact absurd trivial hh
    · cases call with
      | fail | publishDone =>
        cases h
        exact ⟨fun _ => rfl, fun _ => .inr rfl, fun _ _ => rfl⟩
      | unschedule => cases hcall
      | _ => exact absurd trivial hh

theorem call_calm {call : Call τ ν} {calls pushed : List (Call τ ν)} {point : Option (Point τ ν)}
    (hc : Calm c t s ⟨call :: calls, point⟩) (hg : call.Granted l s)
    (h : perform c t l s call = some (s', pushed)) : Calm c t s' ⟨pushed ++ calls, point⟩ := by
  have hframe := perform_frame s h
  have hstate : s'.state = s.state := congrArg Books.state hframe.books
  have hvalue : s'.value = s.value := congrArg Books.value hframe.books
  have hpushed := perform_harmless hg h
  have hcall : call.Explained c s := by
    rcases hc.calls with hharmless | ⟨-, hexplained⟩
    · exact (hharmless call List.mem_cons_self).explained
    · exact hexplained call List.mem_cons_self
  obtain ⟨hx, hdone, hended, hfailed⟩ := perform_explained hc.explained hcall hg h
  refine ⟨section_balanced hc.balanced (.call h), hx, ?_, ?_, fun ht hterminal => ?_⟩
  · -- a worker with an event in flight only makes harmless calls
    intro p hp
    rcases hc.calls with hharmless | ⟨⟨quantum, hquantum⟩, -⟩
    · have hquiet := perform_quiet (hharmless call List.mem_cons_self) hg h
      exact (hc.point p hp).mono hquiet.healthy hstate hvalue
    · cases hquantum
      cases hp
      trivial
  · rcases hc.calls with hharmless | ⟨hfinish, hexplained⟩
    · refine .inl fun call' hmem => ?_
      rcases List.mem_append.1 hmem with hmem | hmem
      · exact hpushed call' hmem
      · exact hharmless call' (List.mem_cons_of_mem _ hmem)
    · refine .inr ⟨hfinish, fun call' hmem => ?_⟩
      rcases List.mem_append.1 hmem with hmem | hmem
      · exact (hpushed call' hmem).explained
      · exact (hexplained call' (List.mem_cons_of_mem _ hmem)).mono hstate hvalue
  · rcases hended hterminal with hbefore | hafter
    · rcases hc.ended ht hbefore with hd | ⟨failure, hmem⟩
      · exact .inl (hdone hd)
      · rcases List.mem_cons.1 hmem with heq | hmem
        · exact .inl (hfailed failure heq.symm)
        · exact .inr ⟨failure, List.mem_append_right _ hmem⟩
    · exact .inl hafter

/-- The condition on the worker's sections: it does not emit into a cancelled mailbox. -/
def Point.Granted (s : Shared τ ν) : Point τ ν → Prop
  | .emit _ _ => s.mailbox.terminal ≠ .cancelled
  | _ => True

theorem advance_calm (hs : Sound c) {flight : Flight τ ν} {stage : Stage τ ν}
    (hg : stage.Grounded c s.state s.value flight.event) (hhealthy : Healthy s)
    (he : stage.Explained c s) : (advance c s flight stage).2.Calm c s ∧
      CallsCalm c s ⟨(advance c s flight stage).1, some (advance c s flight stage).2⟩ := by
  cases stage with
  | start =>
    simp only [advance]
    split
    · rename_i hselect
      exact ⟨⟨hhealthy, select_cause hs hselect⟩, callsCalm_nil⟩
    · exact ⟨⟨hhealthy, trivial⟩, callsCalm_nil⟩
  | selected row =>
    simp only [advance]
    split
    · rename_i hrun
      exact ⟨⟨hhealthy, runAction_cause hs hg hrun⟩, callsCalm_nil⟩
    · exact ⟨⟨hhealthy, trivial⟩, callsCalm_nil⟩
  | failed failure => exact ⟨⟨hhealthy, he⟩, callsCalm_hookBegin⟩
  | ran r =>
    simp only [advance]
    split
    · rename_i hnone
      have htarget := target_declared hs hg.1
      rw [hnone] at htarget
      cases htarget
    · split_ifs with hobserves
      · exact ⟨⟨hhealthy, hobserves⟩, callsCalm_nil⟩
      · exact ⟨hhealthy, callsCalm_hookBegin⟩

theorem proceed_balanced {p : Point τ ν} (hc : Calm c 0 s ⟨[], some p⟩) :
    Balanced c 0 (proceed c s p).shared ⟨(proceed c s p).calls, (proceed c s p).point⟩ :=
  section_balanced (l := .go) hc.balanced (.resume rfl)

theorem receive_calm (hevents : c.machine.events ≠ []) {left : ℕ}
    (hc : Calm c 0 s ⟨[], some (.receive left)⟩) :
    Calm c 0 (proceed c s (.receive left)).shared
      ⟨(proceed c s (.receive left)).calls, (proceed c s (.receive left)).point⟩ := by
  have hb := proceed_balanced hc
  have hhealthy : Healthy s := hc.point _ rfl
  have hwellFormed := (hc.balanced.worker rfl).wellFormed
  obtain ⟨hcauses, hschema, hundrained⟩ := hc.explained
  simp only [proceed] at hb ⊢
  revert hb
  split
  · rename_i event mailbox hreceive
    intro hb
    obtain ⟨rest, hpending, rfl⟩ := s.mailbox.tryReceive_ok hreceive
    refine hc.move hb ⟨hcauses, hschema, hundrained⟩ rfl rfl ?_ callsCalm_nil
    rintro _ ⟨⟩
    exact ⟨hhealthy.phase, hhealthy.done, hhealthy.error, hhealthy.lifecycle⟩
  · intro hb
    exact hc.move hb ⟨hcauses, hschema, hundrained⟩ rfl rfl (by rintro _ ⟨⟩; trivial)
      callsCalm_nil
  · intro hb
    exact hc.move hb ⟨hcauses, hschema, hundrained⟩ rfl rfl (by rintro _ ⟨⟩; trivial)
      callsCalm_publishDone
  · intro hb
    exact hc.move hb ⟨hcauses, hschema, hundrained⟩ rfl rfl (by rintro _ ⟨⟩; trivial)
      callsCalm_publishDone
  · -- with a schema and a buffer that is large enough nothing else can happen
    rename_i status hempty hclosed hcancelled hreceive
    obtain ⟨-, ⟨rfl, -⟩ | rfl | rfl⟩ :=
      s.mailbox.tryReceive_error (hschema ▸ hevents) hwellFormed hreceive
    · exact absurd rfl hempty
    · exact absurd rfl hclosed
    · exact absurd rfl hcancelled

theorem emit_calm (hs : Sound c) {flight : Flight τ ν} {decision : Decision τ ν}
    (hc : Calm c 0 s ⟨[], some (.emit flight decision)⟩) (hg : s.mailbox.terminal ≠ .cancelled) :
    Calm c 0 (proceed c s (.emit flight decision)).shared
      ⟨(proceed c s (.emit flight decision)).calls,
        (proceed c s (.emit flight decision)).point⟩ := by
  have hb := proceed_balanced hc
  obtain ⟨hhealthy, hobserves⟩ := hc.point _ rfl
  have hchosen : Chosen c s.state s.value flight.event decision :=
    (hc.balanced.worker rfl).grounded _ rfl
  obtain ⟨hcauses, hschema, hundrained⟩ := hc.explained
  have hopen : s.mailbox.terminal = .opened := by
    cases hterminal : s.mailbox.terminal with
    | opened => rfl
    | draining => exact absurd hterminal hundrained
    | cancelled => exact absurd hterminal hg
  obtain ⟨view, hview, hstatus⟩ := emission_taken hs hchosen.ran hobserves hschema hopen
  have hframe := s.mailbox.trySend_frame view
  simp only [proceed, hview] at hb ⊢
  revert hb
  split
  · rename_i mailbox wake hsend
    intro hb
    rw [hsend] at hframe
    refine hc.move hb ⟨hcauses, hframe.schema.trans hschema, hframe.undrained hundrained⟩ rfl rfl
      ?_ (.inl fun call hmem => ?_)
    · rintro _ ⟨⟩
      exact ⟨hhealthy.phase, hhealthy.done, hhealthy.error, hhealthy.lifecycle⟩
    · rcases List.mem_append.1 hmem with hmem | hmem
      · exact wakes_harmless wake call hmem
      · rw [List.mem_singleton.1 hmem]
        trivial
  · intro hb
    refine hc.move hb ⟨hcauses, hschema, hundrained⟩ rfl rfl ?_ callsCalm_hookBegin
    rintro _ ⟨⟩
    exact ⟨hhealthy, .full⟩
  · rename_i hok hfull
    rcases hstatus with hstatus | hstatus
    · exact (hok _ _ (Prod.ext hstatus rfl)).elim
    · exact (hfull _ _ (Prod.ext hstatus rfl)).elim

theorem commit_calm {flight : Flight τ ν} {decision : Decision τ ν}
    (hc : Calm c 0 s ⟨[], some (.commit flight decision)⟩) :
    Calm c 0 (proceed c s (.commit flight decision)).shared
      ⟨(proceed c s (.commit flight decision)).calls,
        (proceed c s (.commit flight decision)).point⟩ := by
  have hb := proceed_balanced hc
  have hhealthy : Healthy s := hc.point _ rfl
  obtain ⟨hcauses, hschema, hundrained⟩ := hc.explained
  simp only [proceed] at hb ⊢
  revert hb
  split
  · intro hb
    exact ⟨hb, ⟨hcauses, hschema, hundrained⟩, by rintro _ ⟨⟩; trivial,
      .inl afterTerminal_harmless, fun _ _ => .inl rfl⟩
  · -- the phase and the life of the instance are those of a worker with an event in flight
    rename_i hinvalid
    have hlife := hhealthy.lifecycle
    unfold Shared.beginCommit at hinvalid
    rw [hhealthy.phase] at hinvalid
    cases hl : s.lifecycle <;> simp_all
  · rename_i hallowed
    intro hb
    obtain ⟨herror, hlife⟩ := commit_life s flight.event decision
    have hstate : (s.commit flight.event decision).state = decision.target :=
      congrArg Books.state (commit_books s flight.event decision)
    refine ⟨hb, ⟨?_, ?_, ?_⟩, ?_, ?_, fun _ hterminal => ?_⟩
    · dsimp only
      rw [herror, hhealthy.error]
      rintro _ ⟨⟩
    · dsimp only
      rw [commit_mailbox]
      exact hschema
    · dsimp only
      rw [commit_mailbox]
      exact hundrained
    · rintro _ ⟨⟩
      dsimp only
      split_ifs <;> trivial
    · exact afterCommit_calm hstate fun hkind => ⟨false, by simp [continues, hkind]⟩
    · refine (hlife hterminal hhealthy.lifecycle).imp_right fun hkind => ?_
      exact ⟨.errorState, by simp [afterCommit, failRuntime, hkind]⟩

theorem proceed_calm (hs : Sound c) (hevents : c.machine.events ≠ []) {p : Point τ ν}
    (hc : Calm c 0 s ⟨[], some p⟩) (hg : p.Granted s) :
    Calm c 0 (proceed c s p).shared ⟨(proceed c s p).calls, (proceed c s p).point⟩ := by
  have hb := proceed_balanced hc
  obtain ⟨hcauses, hschema, hundrained⟩ := hc.explained
  have hpoint := hc.point p rfl
  cases p with
  | task =>
    exact hc.move hb ⟨hcauses, hschema, hundrained⟩ rfl rfl (by rintro _ ⟨⟩; trivial) callsCalm_nil
  | receive left => exact receive_calm hevents hc
  | emit flight decision => exact emit_calm hs hc hg
  | loop left =>
    cases left with
    | zero =>
      exact hc.move hb ⟨hcauses, hschema, hundrained⟩ rfl rfl (by rintro _ ⟨⟩; trivial)
        callsCalm_nil
    | succ left =>
      simp only [proceed] at hb ⊢
      split_ifs at hb ⊢ with hsettled
      · exact hc.move hb ⟨hcauses, hschema, hundrained⟩ rfl rfl (by rintro _ ⟨⟩; trivial)
          callsCalm_nil
      · refine hc.move hb ⟨hcauses, hschema, hundrained⟩ rfl rfl ?_ callsCalm_nil
        rintro _ ⟨⟩
        simp only [Shared.settled, Bool.or_eq_true, not_or, Bool.not_eq_true,
          Option.isSome_eq_false_iff, Option.isNone_iff_eq_none] at hsettled
        refine ⟨rfl, hsettled.1.1, hsettled.1.2, fun hterminal => ?_⟩
        rcases hc.ended rfl hterminal with hd | ⟨failure, hmem⟩
        · rw [hsettled.1.1] at hd
          cases hd
        · exact absurd hmem List.not_mem_nil
  | empty =>
    refine hc.move hb ⟨hcauses, hschema, hundrained⟩ rfl rfl (by rintro _ ⟨⟩; trivial) ?_
    dsimp only [proceed]
    split_ifs
    · exact callsCalm_publishDone
    · exact .inl fun call hmem => by rw [List.mem_singleton.1 hmem]; trivial
  | take flight =>
    refine hc.move hb ⟨hcauses, hschema, hundrained⟩ rfl rfl ?_ callsCalm_nil
    rintro _ ⟨⟩
    exact ⟨⟨hpoint.phase, hpoint.done, hpoint.error, hpoint.lifecycle⟩, trivial⟩
  | settle flight stage =>
    have hgrounded : stage.Grounded c s.state s.value flight.event :=
      (hc.balanced.worker rfl).grounded _ rfl
    obtain ⟨hnext, hcalls⟩ := advance_calm hs hgrounded hpoint.1 hpoint.2
    simp only [proceed] at hb ⊢
    split_ifs at hb ⊢
    · exact ⟨hb, ⟨hcauses, hschema, hundrained⟩, by rintro _ ⟨⟩; trivial, callsCalm_nil,
        fun _ _ => .inl rfl⟩
    · exact hc.move hb ⟨hcauses, hschema, hundrained⟩ rfl rfl (by rintro _ ⟨⟩; exact hnext) hcalls
  | checkClosed flight decision =>
    simp only [proceed] at hb ⊢
    split_ifs at hb ⊢
    · exact hc.move hb ⟨hcauses, hschema, hundrained⟩ rfl rfl (by rintro _ ⟨⟩; exact hpoint.1)
        callsCalm_hookBegin
    · exact hc.move hb ⟨hcauses, hschema, hundrained⟩ rfl rfl (by rintro _ ⟨⟩; exact hpoint)
        callsCalm_nil
  | abort flight failure =>
    refine ⟨hb, ⟨?_, hschema, hundrained⟩, by rintro _ ⟨⟩; trivial,
      .inl afterTerminal_harmless, fun _ _ => .inl rfl⟩
    simp only [proceed, Shared.fail]
    split_ifs
    · rintro _ ⟨⟩
      exact hpoint.2
    · exact hcauses
  | commit flight decision => exact commit_calm hc
  | finish quantum =>
    refine hc.move hb ⟨hcauses, hschema, hundrained⟩ rfl rfl (by rintro _ ⟨⟩) ?_
    dsimp only [proceed]
    split_ifs
    · exact .inl fun call hmem => by rw [List.mem_singleton.1 hmem]; trivial
    · exact callsCalm_nil

end Invariant

end Cflow.Instance
