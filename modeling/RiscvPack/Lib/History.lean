import Mathlib.Logic.Function.Basic

/-!
# Update histories

A map that is changed point by point, as the list of its changes.  Looking a
key up in the history gives the change that was made to it last, and that is
what the map holds.
-/

namespace History

variable {κ ν : Type} [DecidableEq κ]

/-- The value a key was given last. -/
def latest : List (κ × ν) → κ → Option ν
  | [], _ => none
  | (key, v) :: later, k => (latest later k).or (if key = k then some v else none)

/-- The map after a history of changes. -/
def replay (f : κ → ν) (changes : List (κ × ν)) : κ → ν :=
  changes.foldl (fun g change => Function.update g change.1 change.2) f

/-- The map holds what its history says, and keeps the rest. -/
theorem replay_eq (f : κ → ν) (changes : List (κ × ν)) (k : κ) :
    replay f changes k = (latest changes k).getD (f k) := by
  induction changes generalizing f with
  | nil => rfl
  | cons change changes induction =>
      obtain ⟨key, v⟩ := change
      rw [replay, List.foldl_cons, ← replay, induction, latest]
      cases latest changes k with
      | some w => rfl
      | none =>
          rw [Option.none_or, Option.getD_none]
          by_cases same : key = k
          · subst same
            rw [Function.update_self, if_pos rfl]
            rfl
          · rw [Function.update_of_ne (Ne.symm same), if_neg same]
            rfl

theorem replay_append (f : κ → ν) (first second : List (κ × ν)) :
    replay f (first ++ second) = replay (replay f first) second :=
  List.foldl_append

end History
