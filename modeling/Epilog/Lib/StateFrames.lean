/- Module: Epilog/Lib/StateFrames
   source: none (library)
   digest: What computations with a state leave as it was, also when they throw. -/

import Mathlib.Order.Defs.Unbundled

set_option autoImplicit false

namespace Epilog.Lib.StateFrames

variable {ε σ α β : Type}

/-- The state after a computation, also after one that throws -/
def endOf : EStateM.Result ε σ α → σ
  | .ok _ s => s
  | .error _ s => s

variable (R : σ → σ → Prop)

/-- The state before a computation and the one after it are related. -/
def Frames (x : EStateM ε σ α) : Prop := ∀ s, R s (endOf (x s))

variable {R}

/-- A computation that goes on from the state it has read -/
theorem Frames.withState {f : σ → EStateM ε σ β} (each : ∀ s, R s (endOf (f s s))) :
    Frames R (do let s ← MonadState.get; f s) := each

theorem Frames.ite {c : Prop} [Decidable c] {x y : EStateM ε σ α} (yes : Frames R x)
    (no : Frames R y) : Frames R (if c then x else y) := by
  split
  · exact yes
  · exact no

theorem Frames.ok {x : EStateM ε σ α} (frames : Frames R x) {s s' : σ} {a : α}
    (ran : x s = .ok a s') : R s s' := by
  have framed := frames s
  rwa [ran] at framed

variable [IsPreorder σ R]

theorem Frames.pure (a : α) : Frames R (Pure.pure a : EStateM ε σ α) := fun s => refl_of R s

theorem Frames.throw (e : ε) : Frames R (MonadExcept.throw e : EStateM ε σ α) :=
  fun s => refl_of R s

theorem Frames.get : Frames R (MonadState.get : EStateM ε σ σ) := fun s => refl_of R s

theorem Frames.bind {x : EStateM ε σ α} {f : α → EStateM ε σ β} (first : Frames R x)
    (second : ∀ a, Frames R (f a)) : Frames R (x >>= f) := by
  intro s
  have before := first s
  simp only [Bind.bind, EStateM.bind]
  cases result : x s with
  | ok a s' =>
    rw [result] at before
    exact trans_of R before (second a s')
  | error e s' =>
    rw [result] at before
    exact before

theorem Frames.mapM {f : α → EStateM ε σ β} (each : ∀ a, Frames R (f a)) (l : List α) :
    Frames R (l.mapM f) := by
  induction l with
  | nil => exact .pure []
  | cons a l ih =>
    rw [List.mapM_cons]
    exact (each a).bind fun b => ih.bind fun bs => .pure (b :: bs)

end Epilog.Lib.StateFrames
