import Mathlib.Data.List.Induction

/-!
# Runs over a list that may stop early

A pass over a list of items threads a state and may stop for a reason,
keeping the state it had reached.  `run` is the whole pass.  The rules at the
end carry an invariant of one pass, the condition under which a fact holds all
along it, or a relation between two passes over the same items, from single
steps to whole runs.
-/

namespace Runs

/-- How a pass or a step ends: with a state, or at a state for a reason. -/
inductive Outcome (ε σ : Type) where
  | done (s : σ)
  | stopped (reason : ε) (s : σ)
  deriving DecidableEq, Repr

variable {ε σ τ α : Type}

theorem bind_eq_ok {x : Except ε σ} {f : σ → Except ε τ} {t : τ} :
    x >>= f = .ok t ↔ ∃ s, x = .ok s ∧ f s = .ok t := by
  cases x <;> simp [bind, Except.bind]

theorem bind_succeeds_iff {x : Except ε σ} {f : σ → Except ε τ}
    (rest : ∀ s, x = .ok s → ∃ t, f s = .ok t) :
    (∃ t, x >>= f = .ok t) ↔ ∃ s, x = .ok s := by
  constructor
  · rintro ⟨t, both⟩
    obtain ⟨s, front, _⟩ := bind_eq_ok.mp both
    exact ⟨s, front⟩
  · rintro ⟨s, front⟩
    obtain ⟨t, back⟩ := rest s front
    exact ⟨t, bind_eq_ok.mpr ⟨s, front, back⟩⟩

/-- The state at the end, whatever the reason. -/
def Outcome.last : Outcome ε σ → σ
  | .done s => s
  | .stopped _ s => s

def Outcome.succeeds : Outcome ε σ → Bool
  | .done _ => true
  | .stopped _ _ => false

def Outcome.andThen (first : Outcome ε σ) (next : σ → Outcome ε σ) :
    Outcome ε σ :=
  match first with
  | .done s => next s
  | .stopped reason s => .stopped reason s

@[simp] theorem Outcome.done_andThen (s : σ) (next : σ → Outcome ε σ) :
    (Outcome.done s).andThen next = next s := rfl

theorem Outcome.andThen_eq_done {first : Outcome ε σ} {next : σ → Outcome ε σ}
    {s' : σ} :
    first.andThen next = .done s' ↔ ∃ s, first = .done s ∧ next s = .done s' := by
  cases first <;> simp [Outcome.andThen]

def run (step : σ → α → Outcome ε σ) (s : σ) : List α → Outcome ε σ
  | [] => .done s
  | a :: rest => (step s a).andThen fun s' => run step s' rest

variable {step : σ → α → Outcome ε σ}

@[simp] theorem run_nil (s : σ) : run step s [] = .done s := rfl

theorem run_cons (s : σ) (a : α) (rest : List α) :
    run step s (a :: rest) = (step s a).andThen fun s' => run step s' rest := rfl

theorem run_append (s : σ) (front back : List α) :
    run step s (front ++ back) = (run step s front).andThen fun m => run step m back := by
  induction front generalizing s with
  | nil => rfl
  | cons a front induction =>
      rw [List.cons_append, run_cons, run_cons]
      cases step s a with
      | done m => exact induction m
      | stopped reason m => rfl

theorem run_cons_eq_done {s s' : σ} {a : α} {rest : List α} :
    run step s (a :: rest) = .done s' ↔
      ∃ m, step s a = .done m ∧ run step m rest = .done s' :=
  Outcome.andThen_eq_done

theorem run_append_eq_done {s s' : σ} {front back : List α} :
    run step s (front ++ back) = .done s' ↔
      ∃ m, run step s front = .done m ∧ run step m back = .done s' := by
  rw [run_append]
  exact Outcome.andThen_eq_done

/-- An item can be exchanged for one that is passed alike where it stands. -/
theorem run_exchange_eq_done {s s' : σ} {front back : List α} {a b : α}
    (alike : ∀ m m', run step s front = .done m → (step m a = .done m' ↔ step m b = .done m')) :
    run step s (front ++ a :: back) = .done s' ↔ run step s (front ++ b :: back) = .done s' := by
  rw [run_append_eq_done, run_append_eq_done]
  apply exists_congr
  intro m
  apply and_congr_right
  intro reached
  rw [run_cons_eq_done, run_cons_eq_done]
  apply exists_congr
  intro m'
  rw [alike m m' reached]

/-- What every step preserves, a whole run preserves. -/
theorem run_invariant {I : σ → Prop} {items : List α} {s s' : σ}
    (preserved : ∀ s s', ∀ a ∈ items, I s → step s a = .done s' → I s')
    (start : I s) (finished : run step s items = .done s') : I s' := by
  induction items generalizing s with
  | nil =>
      cases finished
      exact start
  | cons a items induction =>
      obtain ⟨m, stepped, rest⟩ := run_cons_eq_done.mp finished
      refine induction ?_ (preserved s m a (by simp) start stepped) rest
      intro s s' b member
      exact preserved s s' b (by simp [member])

section Always

/-- What holds at the start holds at every point a run reaches, exactly when
every step is taken under the condition that keeps it. -/
theorem run_always_iff {I P : σ → Prop} {Q : σ → α → Prop} {items : List α} {start : σ}
    (kept : ∀ s s' a, I s → step s a = .done s' → I s')
    (exact : ∀ s s' a, I s → P s → step s a = .done s' → (P s' ↔ Q s a))
    (inside : I start) (holds : P start) :
    (∀ front rest s, items = front ++ rest → run step start front = .done s → P s) ↔
      ∀ front a rest s s', items = front ++ a :: rest → run step start front = .done s →
        step s a = .done s' → Q s a := by
  have reach {front : List α} {s : σ} (reached : run step start front = .done s) : I s :=
    run_invariant (fun s s' a _ => kept s s' a) inside reached
  constructor
  · intro always front a rest s s' split reached stepped
    have before := always front (a :: rest) s split reached
    have further : run step start (front ++ [a]) = .done s' :=
      run_append_eq_done.mpr ⟨s, reached, run_cons_eq_done.mpr ⟨s', stepped, rfl⟩⟩
    have after := always (front ++ [a]) rest s' (by rw [split]; simp) further
    exact (exact s s' a (reach reached) before stepped).mp after
  · intro condition front
    -- The prefix grows at its end, where the next step is taken.
    induction front using List.reverseRecOn with
    | nil =>
        intro rest s _ reached
        cases reached
        exact holds
    | append_singleton front a induction =>
        intro rest s' split reached
        obtain ⟨s, first, last⟩ := run_append_eq_done.mp reached
        obtain ⟨m, stepped, stays⟩ := run_cons_eq_done.mp last
        cases stays
        have whole : items = front ++ a :: rest := by
          rw [split]
          simp
        have before := induction (a :: rest) s whole first
        exact (exact s s' a (reach first) before stepped).mpr
          (condition front a rest s s' whole first stepped)

end Always

section Pairs

variable {R : σ → τ → Prop}

/-- Two computations with related results, or the same reason for none. -/
inductive Paired (R : σ → τ → Prop) : Except ε σ → Except ε τ → Prop where
  | ok {s : σ} {t : τ} : R s t → Paired R (.ok s) (.ok t)
  | error (reason : ε) : Paired R (.error reason) (.error reason)

theorem Paired.bind {σ' τ' : Type} {R' : σ' → τ' → Prop} {x : Except ε σ}
    {y : Except ε τ} {f : σ → Except ε σ'} {g : τ → Except ε τ'} (paired : Paired R x y)
    (next : ∀ s t, R s t → Paired R' (f s) (g t)) : Paired R' (x >>= f) (y >>= g) := by
  cases paired with
  | ok related => exact next _ _ related
  | error reason => exact .error reason

/-- Two passes that both end in related states, or both stop in related states
for the same reason. -/
inductive Outcome.Paired (R : σ → τ → Prop) : Outcome ε σ → Outcome ε τ → Prop where
  | done {s : σ} {t : τ} : R s t → Paired R (.done s) (.done t)
  | stopped {s : σ} {t : τ} (reason : ε) :
      R s t → Paired R (.stopped reason s) (.stopped reason t)

/-- Passes whose steps are paired are paired over the whole list. -/
theorem run_paired {other : τ → α → Outcome ε τ} {items : List α} {s : σ} {t : τ}
    (steps : ∀ s t, ∀ a ∈ items, R s t → Outcome.Paired R (step s a) (other t a))
    (start : R s t) : Outcome.Paired R (run step s items) (run other t items) := by
  induction items generalizing s t with
  | nil => exact .done start
  | cons a items induction =>
      have first := steps s t a List.mem_cons_self start
      rw [run_cons, run_cons]
      generalize step s a = x at first ⊢
      generalize other t a = y at first ⊢
      cases first with
      | done related =>
          exact induction
            (fun s t b member => steps s t b (List.mem_cons_of_mem _ member)) related
      | stopped reason related => exact .stopped reason related

end Pairs

end Runs
