import RiscvPack.Lib.Runs
import Mathlib.Data.List.Infix

/-!
# Loops that read a list

A loop `while (there is text) body` whose body may leave through an exit.
`Ends` is its meaning, without a bound on the iterations.  Where what an
iteration leaves of the text depends on the text alone, the loop ends exactly
when no text at which it arrives is left as it is.
-/

namespace Loops

open Runs (Outcome)

variable {ε σ α : Type}

/-- The loop ends in this way. -/
inductive Ends (body : σ → List α → Except ε (σ × List α)) :
    σ → List α → Outcome ε σ → Prop where
  | done (s : σ) : Ends body s [] (.done s)
  | exits {s : σ} {t : List α} {reason : ε} :
      t ≠ [] → body s t = .error reason → Ends body s t (.stopped reason s)
  | next {s s' : σ} {t rest : List α} {outcome : Outcome ε σ} :
      t ≠ [] → body s t = .ok (s', rest) → Ends body s' rest outcome →
      Ends body s t outcome

/-- The texts at which a loop arrives; `left` is what an iteration leaves. -/
inductive Arrives (left : List α → Option (List α)) : List α → List α → Prop where
  | here (t : List α) : Arrives left t t
  | next {t rest u : List α} :
      t ≠ [] → left t = some rest → Arrives left rest u → Arrives left t u

variable {body : σ → List α → Except ε (σ × List α)}
  {left : List α → Option (List α)}

section Progress

variable (agrees : ∀ s t rest, left t = some rest ↔ ∃ s', body s t = .ok (s', rest))

include agrees

/-- A loop that comes back to the text it has never ends. -/
theorem not_ends_of_stuck {s : σ} {t : List α} {outcome : Outcome ε σ}
    (nonempty : t ≠ []) (stuck : left t = some t) : ¬ Ends body s t outcome := by
  intro ends
  induction ends with
  | done => exact nonempty rfl
  | exits _ stops =>
      obtain ⟨s', continues⟩ := (agrees _ _ _).mp stuck
      rw [stops] at continues
      cases continues
  | next _ continues _ induction =>
      have same := (agrees _ _ _).mpr ⟨_, continues⟩
      rw [stuck] at same
      cases same
      exact induction nonempty stuck

variable (consumes : ∀ t rest, left t = some rest → rest.length ≤ t.length ∧
  (rest.length = t.length → rest = t))

include consumes

theorem exists_ends_iff (s : σ) (t : List α) :
    (∃ outcome, Ends body s t outcome) ↔
      ∀ u, Arrives left t u → u ≠ [] → left u ≠ some u := by
  constructor
  · rintro ⟨outcome, ends⟩ u arrives
    induction arrives generalizing s with
    | here t =>
        intro nonempty stuck
        exact not_ends_of_stuck agrees nonempty stuck ends
    | next nonempty leaves _ induction =>
        cases ends with
        | done => exact absurd rfl nonempty
        | exits _ stops =>
            obtain ⟨s', continues⟩ := (agrees s _ _).mp leaves
            rw [stops] at continues
            cases continues
        | next _ continues rest =>
            have same := (agrees s _ _).mpr ⟨_, continues⟩
            rw [leaves] at same
            cases same
            exact induction _ rest
  · intro moves
    induction length : t.length using Nat.strongRecOn generalizing s t with
    | _ n induction =>
        by_cases nonempty : t = []
        · subst nonempty
          exact ⟨_, .done s⟩
        · cases result : body s t with
          | error reason => exact ⟨_, .exits nonempty result⟩
          | ok continues =>
              obtain ⟨s', rest⟩ := continues
              have leaves := (agrees s t rest).mpr ⟨s', result⟩
              obtain ⟨shorter, same⟩ := consumes t rest leaves
              have progress : rest.length < n := by
                rw [← length]
                apply lt_of_le_of_ne shorter
                intro equal
                have here := moves t (.here t) nonempty
                rw [same equal] at leaves
                exact here leaves
              obtain ⟨outcome, ends⟩ := induction rest.length progress s' rest
                (fun u arrives => moves u (.next nonempty leaves arrives)) rfl
              exact ⟨outcome, .next nonempty result ends⟩

end Progress

end Loops
