import Mathlib.Logic.Basic

/-!
# Runs that another machine follows

An abstract machine steps as a partial function.  A concrete machine follows a
run when it can be brought from each state of the run to the next, and a
forward simulation of single steps gives this for whole runs.
-/

namespace Simulation

universe u v

variable {S : Type u} {M : Type v}

/-- The states that a run from `s` enters, one after another. -/
inductive Run (step : S → Option S) : S → List S → Prop where
  | nil (s : S) : Run step s []
  | cons {s s' : S} {rest : List S} :
      step s = some s' → Run step s' rest → Run step s (s' :: rest)

/-- From `m`, states related to the given ones are reached one after another. -/
inductive Follows (reaches : M → M → Prop) (R : S → M → Prop) : M → List S → Prop where
  | nil (m : M) : Follows reaches R m []
  | cons {m m' : M} {s : S} {rest : List S} :
      reaches m m' → R s m' → Follows reaches R m' rest → Follows reaches R m (s :: rest)

/-- Every step from related states is followed to related states. -/
def Forward (step : S → Option S) (reaches : M → M → Prop) (R : S → M → Prop) : Prop :=
  ∀ s s' m, R s m → step s = some s' → ∃ m', reaches m m' ∧ R s' m'

variable {step : S → Option S} {reaches : M → M → Prop} {R : S → M → Prop}

theorem Forward.follows (forward : Forward step reaches R) {s : S} {m : M} {states : List S}
    (related : R s m) (ran : Run step s states) : Follows reaches R m states := by
  induction ran generalizing m with
  | nil => exact .nil m
  | cons stepped _ induction =>
      obtain ⟨m', reached, related'⟩ := forward _ _ m related stepped
      exact .cons reached related' (induction related')

end Simulation
