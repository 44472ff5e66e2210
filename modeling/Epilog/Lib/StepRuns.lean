/- Module: Epilog/Lib/StepRuns
   source: none (library)
   digest: Runs of a step function: what holds of their states, and what their steps meet. -/

import Mathlib.Data.List.Basic

set_option autoImplicit false

namespace Epilog.Lib.StepRuns

variable {σ α : Type} (step : σ → α → σ)

/-- In every state of the run, the first and the last included -/
def Throughout (holds : σ → Prop) : σ → List α → Prop
  | s, [] => holds s
  | s, a :: acts => holds s ∧ Throughout holds (step s a) acts

/-- Of every step of the run, in the state it is taken in -/
def EachStep (meets : σ → α → Prop) : σ → List α → Prop
  | _, [] => True
  | s, a :: acts => meets s a ∧ EachStep meets (step s a) acts

variable {step} {holds : σ → Prop} {meets : σ → α → Prop}

theorem Throughout.last {s : σ} {acts : List α} (all : Throughout step holds s acts) :
    holds (acts.foldl step s) := by
  induction acts generalizing s with
  | nil => exact all
  | cons a acts ih => exact ih all.2

/-- What follows from an invariant holds throughout a run whose steps meet what the invariant needs. -/
theorem throughout_of_invariant {inv : σ → Prop}
    (keeps : ∀ s a, inv s → meets s a → inv (step s a)) (follows : ∀ s, inv s → holds s) {s : σ}
    (kept : inv s) {acts : List α} (met : EachStep step meets s acts) :
    Throughout step holds s acts := by
  induction acts generalizing s with
  | nil => exact follows s kept
  | cons a acts ih => exact ⟨follows s kept, ih (keeps s a kept met.1) met.2⟩

/-- A property that every step keeps just when it meets a condition holds throughout a run just
when it holds at first and every step meets the condition. The steps may count on an invariant. -/
theorem throughout_iff_of_invariant {inv : σ → Prop}
    (keeps : ∀ s a, inv s → holds s → inv (step s a))
    (each : ∀ s a, inv s → holds s → (holds (step s a) ↔ meets s a)) {s : σ} (kept : inv s)
    (acts : List α) : Throughout step holds s acts ↔ holds s ∧ EachStep step meets s acts := by
  induction acts generalizing s with
  | nil => exact (and_iff_left trivial).symm
  | cons a acts ih =>
    constructor
    · rintro ⟨first, rest⟩
      obtain ⟨next, later⟩ := (ih (keeps s a kept first)).1 rest
      exact ⟨first, (each s a kept first).1 next, later⟩
    · rintro ⟨first, met, later⟩
      exact ⟨first, (ih (keeps s a kept first)).2 ⟨(each s a kept first).2 met, later⟩⟩

theorem throughout_iff (each : ∀ s a, holds s → (holds (step s a) ↔ meets s a)) (s : σ)
    (acts : List α) : Throughout step holds s acts ↔ holds s ∧ EachStep step meets s acts :=
  @throughout_iff_of_invariant _ _ _ _ _ (fun _ => True) (fun _ _ _ _ => trivial)
    (fun s a _ => each s a) s trivial acts

end Epilog.Lib.StepRuns
