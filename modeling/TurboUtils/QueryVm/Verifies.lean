import TurboUtils.QueryVm.Verified
import Mathlib.Data.Set.Insert

/-! Rules for slices that the verifier accepts, from the last instruction back to the first one. -/
namespace QueryVm

open ForwardFlow

variable (instructions : ℕ → Instruction) (stop registerCount operandCount regexCount : ℕ)

/-- From a counter, with these registers written, all instructions up to the end are in range, and
what is read has been written before. -/
inductive Verifies : ℕ → Set ℕ → Prop
  | done {pc : ℕ} {written : Set ℕ} (hpc : pc = stop) (h : 0 ∈ written) : Verifies pc written
  | step {pc : ℕ} {written written' : Set ℕ} (hpc : pc < stop)
      (hrange : (instructions pc).InRange pc stop registerCount operandCount regexCount)
      (hreads : ∀ r ∈ (instructions pc).reads, r ∈ written)
      (hwritten : ∀ r ∈ written', r ∈ written ∨ (instructions pc).writes = some r)
      (hnext : Verifies (pc + 1) written')
      (htarget : ∀ t ∈ (instructions pc).target, Verifies t written') : Verifies pc written

variable {instructions stop registerCount operandCount regexCount} {pc offset len : ℕ}
  {written : Set ℕ}

theorem Instruction.target_of_writes {insn : Instruction} (h : insn.op.writesRegister = true) :
    insn.target = none := by
  obtain ⟨op, reserved, dst, arg, src1, src2⟩ := insn
  cases op <;> first | rfl | cases h

namespace Verifies

theorem inRange (h : Verifies instructions stop registerCount operandCount regexCount pc written)
    {pc' : ℕ} (hle : pc ≤ pc') (hlt : pc' < stop) :
    (instructions pc').InRange pc' stop registerCount operandCount regexCount := by
  induction h with
  | done hpc h => omega
  | @step pc written written' hpc hrange hreads hwritten hnext htarget ih ihtarget =>
    rcases eq_or_lt_of_le hle with rfl | hlt'
    · exact hrange
    · exact ih hlt'

theorem mono (h : Verifies instructions stop registerCount operandCount regexCount pc written)
    {more : Set ℕ} (hsub : written ⊆ more) :
    Verifies instructions stop registerCount operandCount regexCount pc more := by
  cases h with
  | done hpc h => exact done hpc (hsub h)
  | step hpc hrange hreads hwritten hnext htarget =>
    exact step hpc hrange (fun r hr => hsub (hreads r hr))
      (fun r hr => (hwritten r hr).imp_left fun hr => hsub hr) hnext htarget

/-- What holds at the start holds along every path. -/
theorem path (h : Verifies instructions (offset + len) registerCount operandCount regexCount offset
    ∅) {i : ℕ} {nodes : List ℕ} (hpath : Path (edges instructions offset len) i nodes) :
    Verifies instructions (offset + len) registerCount operandCount regexCount (offset + i)
      {r | WrittenAt instructions offset r nodes} := by
  induction hpath with
  | start =>
    exact h.mono (Set.empty_subset _)
  | @step i j nodes path edge ih =>
    have hi : i < len := by
      by_contra hi
      rw [edges, if_neg hi] at edge
      cases edge
    rw [edges_of_lt hi] at edge
    rcases ih with ⟨hpc, -⟩ | @⟨-, -, written', hpc, hrange, hreads, hwritten, hnext, htarget⟩
    · omega
    · have hsub : written' ⊆ {r | WrittenAt instructions offset r (nodes ++ [i])} := by
        intro r hr
        rcases hwritten r hr with ⟨k, hk, hwrites⟩ | hwrites
        · exact ⟨k, List.mem_append_left _ hk, hwrites⟩
        · exact ⟨i, List.mem_append_right _ (List.mem_singleton_self i), hwrites⟩
      have hjump (ht : (instructions (offset + i)).target = some (instructions (offset + i)).arg)
          (hj : j = (instructions (offset + i)).arg - offset) :
          Verifies instructions (offset + len) registerCount operandCount regexCount (offset + j)
            written' := by
        have hlt := hrange.target _ ht
        rw [hj, Nat.add_sub_cancel' (by omega)]
        exact htarget _ ht
      unfold Instruction.successors at edge
      unfold Instruction.target at hjump
      split_ifs at edge with hjmp hcond
      · rw [hjmp] at hjump
        exact (hjump rfl (List.mem_singleton.1 edge)).mono hsub
      · rcases List.mem_cons.1 edge with rfl | edge
        · exact hnext.mono hsub
        · rw [Bool.or_eq_true, decide_eq_true_eq, decide_eq_true_eq] at hcond
          refine (hjump ?_ (List.mem_singleton.1 edge)).mono hsub
          rcases hcond with hop | hop <;> rw [hop]
      · rw [List.mem_singleton.1 edge]
        exact hnext.mono hsub

theorem verifySlice
    (h : Verifies instructions (offset + len) registerCount operandCount regexCount offset ∅)
    {instructionCount : ℕ} {limits : Limits} (hwithin : WithinLimits offset len instructionCount
      registerCount operandCount regexCount limits) :
    verifySlice instructions true instructionCount offset len registerCount operandCount regexCount
      limits = .ok () := by
  refine (verifySlice_ok hwithin).2 ⟨rfl, fun i hi => h.inRange (by omega) (by omega), ?_, ?_⟩
  · intro i hi nodes hpath r hr
    rcases h.path hpath with ⟨hpc, -⟩ | ⟨-, -, hreads, -⟩
    · omega
    · exact hreads r hr
  · intro nodes hpath
    rcases h.path hpath with ⟨-, hwritten⟩ | ⟨hpc, -⟩
    · exact hwritten
    · omega

theorem store {insn : Instruction} (hpc : pc < stop) (hinsn : instructions pc = insn)
    (hwrites : insn.op.writesRegister = true)
    (hrange : insn.InRange pc stop registerCount operandCount regexCount)
    (hreads : ∀ r ∈ insn.reads, r ∈ written)
    (h : Verifies instructions stop registerCount operandCount regexCount (pc + 1)
      (insert insn.dst written)) :
    Verifies instructions stop registerCount operandCount regexCount pc written := by
  subst hinsn
  refine step hpc hrange hreads (fun r hr => ?_) h fun t ht => ?_
  · rcases Set.mem_insert_iff.1 hr with rfl | hr
    · exact Or.inr (if_pos hwrites)
    · exact Or.inl hr
  · rw [Instruction.target_of_writes hwrites] at ht
    cases ht

theorem branch {insn : Instruction} (hpc : pc < stop) (hinsn : instructions pc = insn)
    (hrange : insn.InRange pc stop registerCount operandCount regexCount)
    (hreads : ∀ r ∈ insn.reads, r ∈ written)
    (h : Verifies instructions stop registerCount operandCount regexCount (pc + 1) written)
    (htarget : Verifies instructions stop registerCount operandCount regexCount insn.arg written) :
    Verifies instructions stop registerCount operandCount regexCount pc written := by
  subst hinsn
  refine step hpc hrange hreads (fun r hr => Or.inl hr) h fun t ht => ?_
  unfold Instruction.target at ht
  split at ht <;> cases ht <;> exact htarget

end Verifies

end QueryVm
