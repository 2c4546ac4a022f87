import Mathlib.Data.List.Induction

/-!
# Runs of labelled steps

A run is a list of labels and the states their steps lead through. New steps are added at the end, so
that an invariant about the whole history is shown step by step.
-/

namespace EZLanguage

namespace Runs

variable {State Label : Type*} {step : Label → State → State → Prop} {start final : State}

/-- The labels of the steps from the start to a state. -/
inductive Run (step : Label → State → State → Prop) (start : State) : List Label → State → Prop
  | nil : Run step start [] start
  | snoc {labels : List Label} {l : Label} {s s' : State} (hrun : Run step start labels s)
      (hstep : step l s s') : Run step start (labels ++ [l]) s'

namespace Run

/-- What holds of the start and is kept by every step, the history so far at hand, holds in the end. -/
theorem history {I : List Label → State → Prop} (hstart : I [] start)
    (hkeep : ∀ labels l s s', Run step start labels s → I labels s → step l s s' →
      I (labels ++ [l]) s')
    {labels : List Label} (hrun : Run step start labels final) : I labels final := by
  induction hrun with
  | nil => exact hstart
  | snoc hrun hstep ih => exact hkeep _ _ _ _ hrun ih hstep

/-- A run keeps what every step keeps. -/
theorem invariant {I : State → Prop} (hstart : I start)
    (hkeep : ∀ l s s', I s → step l s s' → I s') {labels : List Label}
    (hrun : Run step start labels final) : I final := by
  induction hrun with
  | nil => exact hstart
  | snoc _ hstep ih => exact hkeep _ _ _ ih hstep

theorem last {labels : List Label} {l : Label} (hrun : Run step start (labels ++ [l]) final) :
    ∃ s, Run step start labels s ∧ step l s final := by
  generalize hall : labels ++ [l] = all at hrun
  cases hrun with
  | nil => simp at hall
  | snoc hrun hstep =>
      obtain ⟨rfl, hl⟩ := List.append_inj' hall rfl
      obtain rfl := List.singleton_inj.mp hl
      exact ⟨_, hrun, hstep⟩

/-- A run goes through a state between any two parts of its history. -/
theorem split {before after : List Label} (hrun : Run step start (before ++ after) final) :
    ∃ s, Run step start before s ∧ Run step s after final := by
  induction after using List.reverseRecOn generalizing final with
  | nil =>
      rw [List.append_nil] at hrun
      exact ⟨final, hrun, .nil⟩
  | append_singleton after l ih =>
      rw [← List.append_assoc] at hrun
      obtain ⟨s, hs, hstep⟩ := last hrun
      obtain ⟨m, hbefore, hafter⟩ := ih hs
      exact ⟨m, hbefore, hafter.snoc hstep⟩

/-- The step of a run at a place of its history. -/
theorem step_at {before after : List Label} {l : Label}
    (hrun : Run step start (before ++ l :: after) final) :
    ∃ s s', Run step start before s ∧ step l s s' ∧ Run step s' after final := by
  rw [List.append_cons] at hrun
  obtain ⟨s', hfirst, hafter⟩ := split hrun
  obtain ⟨s, hbefore, hstep⟩ := last hfirst
  exact ⟨s, s', hbefore, hstep, hafter⟩

end Run

end Runs

end EZLanguage
