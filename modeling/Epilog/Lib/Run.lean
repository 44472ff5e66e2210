/- Module: Epilog/Lib/Run
   source: none (library)
   digest: Computations that may fail: inversion of a run that succeeds. -/

import Mathlib.Data.List.Basic

set_option autoImplicit false

namespace Epilog.Lib.Run

variable {ε α β : Type}

/-- A sequence that succeeds has succeeded in both parts. -/
theorem bind_ok {x : Except ε α} {f : α → Except ε β} {b : β} (done : (x >>= f) = .ok b) :
    ∃ a, x = .ok a ∧ f a = .ok b := by
  cases x with
  | error e => exact nomatch done
  | ok a => exact ⟨a, rfl, done⟩

theorem map_ok {x : Except ε α} {f : α → β} {b : β} (done : x.map f = .ok b) :
    ∃ a, x = .ok a ∧ f a = b := by
  cases x with
  | error e => exact nomatch done
  | ok a => exact ⟨a, rfl, Except.ok.inj done⟩

/-- A failure of a sequence is a failure of its first part, or of the second after it. -/
theorem bind_error {x : Except ε α} {f : α → Except ε β} {e : ε}
    (failed : (x >>= f) = .error e) :
    x = .error e ∨ ∃ a, x = .ok a ∧ f a = .error e := by
  cases x with
  | error e' =>
    have same : e' = e := Except.error.inj failed
    exact .inl (by rw [same])
  | ok a => exact .inr ⟨a, rfl, failed⟩

end Epilog.Lib.Run
