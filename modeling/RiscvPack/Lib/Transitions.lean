import Mathlib.Logic.Basic

/-!
# Counted runs of a machine

A machine answers in each state with a label and a next state, or not at all.
A path is a counted run of answers with one label.  The rules join and split
paths, carry an invariant along one, and find the step that last changed what
is observed.  Two answers can also be compared, up to a relation of the states.
-/

namespace Transitions

universe u v w

variable {S : Type u} {T : Type v} {L : Type w}

/-- `n` steps with the label `go`. -/
inductive Path (step : S → Option (L × S)) (go : L) : Nat → S → S → Prop where
  | refl (s : S) : Path step go 0 s s
  | next {n : Nat} {s s₁ s₂ : S} :
      step s = some (go, s₁) → Path step go n s₁ s₂ → Path step go (n + 1) s s₂

variable {step : S → Option (L × S)} {go : L}

theorem Path.trans {a b : Nat} {s s₁ s₂ : S} (first : Path step go a s s₁)
    (second : Path step go b s₁ s₂) : Path step go (a + b) s s₂ := by
  induction first with
  | refl =>
      rw [Nat.zero_add]
      exact second
  | next stepped _ induction =>
      rw [Nat.add_right_comm]
      exact .next stepped (induction second)

theorem Path.split {a b : Nat} {s s₂ : S} (path : Path step go (a + b) s s₂) :
    ∃ s₁, Path step go a s s₁ ∧ Path step go b s₁ s₂ := by
  induction a generalizing s with
  | zero =>
      rw [Nat.zero_add] at path
      exact ⟨s, .refl s, path⟩
  | succ a induction =>
      rw [Nat.add_right_comm] at path
      cases path with
      | next stepped rest =>
          obtain ⟨s₁, first, second⟩ := induction rest
          exact ⟨s₁, .next stepped first, second⟩

theorem Path.invariant {I : S → Prop} {n : Nat} {s t : S} (path : Path step go n s t)
    (kept : ∀ s t, I s → step s = some (go, t) → I t) (start : I s) : I t := by
  induction path with
  | refl => exact start
  | next stepped _ induction => exact induction (kept _ _ start stepped)

/-- What differs at the end was last changed by one of the steps, and is the
same ever since. -/
theorem Path.last_change {α : Type*} (observe : S → α) {n : Nat} {s t : S}
    (path : Path step go n s t) (differs : observe t ≠ observe s) :
    ∃ k before after, k < n ∧ Path step go k s before ∧ step before = some (go, after) ∧
      Path step go (n - (k + 1)) after t ∧ observe after ≠ observe before ∧
      observe after = observe t := by
  induction path with
  | refl => exact absurd rfl differs
  | @next n s s₁ t stepped rest induction =>
      by_cases settled : observe t = observe s₁
      · refine ⟨0, s, s₁, Nat.succ_pos n, .refl s, stepped, rest, ?_, settled.symm⟩
        rw [← settled]
        exact differs
      · obtain ⟨k, before, after, within, first, change, later, changes, final⟩ :=
          induction settled
        refine ⟨k + 1, before, after, Nat.succ_lt_succ within, .next stepped first, change, ?_,
          changes, final⟩
        rwa [Nat.add_sub_add_right]

/-- Two machines answer alike: with one label, and with states that are related
again. -/
inductive Alike (R : S → T → Prop) : Option (L × S) → Option (L × T) → Prop where
  | none : Alike R none none
  | some {s : S} {t : T} (label : L) : R s t → Alike R (some (label, s)) (some (label, t))

end Transitions
