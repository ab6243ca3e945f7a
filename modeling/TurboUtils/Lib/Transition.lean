import Mathlib.Data.List.Basic

/-! Runs of a system whose steps are labelled and may be impossible. -/
namespace Transition

variable {S L : Type*} (step : S → L → Option S)

def run : S → List L → Option S
  | s, [] => some s
  | s, l :: labels => (step s l).bind fun s' => run s' labels

variable {step}

theorem run_keeps {P : S → Prop} (hstep : ∀ s l s', P s → step s l = some s' → P s')
    {labels : List L} {s s' : S} (hs : P s) (h : run step s labels = some s') : P s' := by
  induction labels generalizing s with
  | nil =>
    cases h
    exact hs
  | cons l labels ih =>
    obtain ⟨mid, hmid, hrest⟩ := Option.bind_eq_some_iff.1 h
    exact ih (hstep s l mid hs hmid) hrest

theorem length_le_of_run {P : S → Prop} {cost : S → ℕ}
    (hstep : ∀ s l s', P s → step s l = some s' → P s' ∧ cost s' < cost s)
    {labels : List L} {s s' : S} (hs : P s) (h : run step s labels = some s') :
    labels.length + cost s' ≤ cost s := by
  induction labels generalizing s with
  | nil =>
    cases h
    exact Nat.le_of_eq (Nat.zero_add _)
  | cons l labels ih =>
    obtain ⟨mid, hmid, hrest⟩ := Option.bind_eq_some_iff.1 h
    obtain ⟨hkept, hless⟩ := hstep s l mid hs hmid
    have htail := ih hkept hrest
    rw [List.length_cons]
    omega

end Transition
