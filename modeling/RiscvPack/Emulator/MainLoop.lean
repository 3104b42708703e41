import RiscvPack.Emulator.Stack
import RiscvPack.Emulator.StepErrors

/-!
# The run loop of `main`

What `main` prints about the end of a run and the value it returns.  A run
ends with an exit, a failing step, a step that brings the emulator down, or
the step limit; the loop tells these apart by its status and its counter, and
the test of the counter behind it also fires after an exit on the last step.
-/

namespace RiscvPack.Emulator

/-- The lines that `main` prints from its loop on. -/
inductive Report where
  | progress (step : Nat)
  | exited (status : Word)
  | stopped (step : Nat) (status : CpuStatus)
  | limit (steps : Nat)
  | registers (pc : Word) (x : Reg → Word)

/-- The reports that say how the run ended. -/
def Report.isOutcome : Report → Bool
  | .exited _ | .stopped _ _ | .limit _ => true
  | .progress _ | .registers _ _ => false

def maxSteps : Nat := 1000000

/-- What the loop leaves: the lines printed, `exit_code` and `step_count`. -/
structure LoopEnd (σ : Type) where
  reports : List Report
  exitCode : Word
  stepCount : Nat
  machine : Machine σ

namespace Machine

variable {σ : Type}

/-- `dump_registers` -/
def dumpRegisters (m : Machine σ) : Report := .registers m.cpu.pc m.cpu.regRead

/-- The line after every 10000th step. -/
def progress (stepCount : Nat) : List Report :=
  if stepCount % 10000 = 0 then [.progress stepCount] else []

/-- The loop with `room` steps left; `none` when a step brings the emulator
down. -/
def runLoop (h : Host σ) : (room stepCount : Nat) → Machine σ → Option (LoopEnd σ)
  | 0, stepCount, m => some ⟨[], 0, stepCount, m⟩
  | room + 1, stepCount, m =>
      if ¬ m.cpu.running then some ⟨[], 0, stepCount, m⟩
      else
        match step h m with
        | none => none
        | some (status, m') =>
            if status = .syscallExit then
              some ⟨[.exited (m'.cpu.regRead 10)], m'.cpu.regRead 10, stepCount + 1, m'⟩
            else if status ≠ .ok then
              some ⟨[.stopped (stepCount + 1) status, m'.dumpRegisters], 0, stepCount + 1, m'⟩
            else
              (runLoop h room (stepCount + 1) m').map fun rest =>
                { rest with reports := progress (stepCount + 1) ++ rest.reports }

/-- `main` from its loop on: the lines it prints and the value it returns. -/
def runProgram (h : Host σ) (limit : Nat) (m : Machine σ) : Option (List Report × Word) :=
  (runLoop h limit 0 m).map fun ended =>
    if limit ≤ ended.stepCount then
      (ended.reports ++ [.limit limit, ended.machine.dumpRegisters], ended.exitCode)
    else (ended.reports, ended.exitCode)

/-- After `n` steps that return `CPU_OK`, the next one returns `status`. -/
def EndsAt (h : Host σ) (m : Machine σ) (n : Nat) (status : CpuStatus)
    (m' : Machine σ) : Prop :=
  ∃ last, Steps h n m last ∧ step h last = some (status, m')

/-- The lines name exactly one outcome, the true one, and zero is returned only
for an exit with status zero. -/
structure OneOutcome (h : Host σ) (limit : Nat) (m : Machine σ)
    (result : List Report × Word) : Prop where
  one : (result.1.filter Report.isOutcome).length = 1
  exited : ∀ status, .exited status ∈ result.1 ↔
    ∃ n m', n < limit ∧ EndsAt h m n .syscallExit m' ∧ status = m'.cpu.regRead 10
  stopped : ∀ count status, .stopped count status ∈ result.1 ↔
    ∃ n m', n < limit ∧ status.Failed ∧ EndsAt h m n status m' ∧ count = n + 1
  limit : ∀ count, .limit count ∈ result.1 ↔ count = limit ∧ ∃ m', Steps h limit m m'
  zero : result.2 = 0 → .exited 0 ∈ result.1

/-- How a run of at most `limit` steps ends. -/
inductive Ending (h : Host σ) (m : Machine σ) (limit : Nat) : Type where
  | exit (n : Nat) (m' : Machine σ) : n < limit → EndsAt h m n .syscallExit m' → Ending h m limit
  | failure (n : Nat) (status : CpuStatus) (m' : Machine σ) : n < limit → status.Failed →
      EndsAt h m n status m' → Ending h m limit
  | trap (n : Nat) (last : Machine σ) : n < limit → Steps h n m last → step h last = none →
      Ending h m limit
  | exhausted (m' : Machine σ) : Steps h limit m m' → Ending h m limit

/-- The progress lines of `count` successful steps after `stepCount`. -/
def progressLines (stepCount : Nat) : (count : Nat) → List Report
  | 0 => []
  | count + 1 => progress (stepCount + 1) ++ progressLines (stepCount + 1) count

/-- What the loop leaves after each ending. -/
def Ending.loopEnd {h : Host σ} {m : Machine σ} {limit : Nat} (stepCount : Nat) :
    Ending h m limit → Option (LoopEnd σ)
  | .exit n m' _ _ =>
      some ⟨progressLines stepCount n ++ [.exited (m'.cpu.regRead 10)], m'.cpu.regRead 10,
        stepCount + n + 1, m'⟩
  | .failure n status m' _ _ _ =>
      some ⟨progressLines stepCount n ++
        [.stopped (stepCount + n + 1) status, m'.dumpRegisters], 0, stepCount + n + 1, m'⟩
  | .trap _ _ _ _ _ => none
  | .exhausted m' _ => some ⟨progressLines stepCount limit, 0, stepCount + limit, m'⟩

theorem EndsAt.next {h : Host σ} {m m₁ m' : Machine σ} {n : Nat} {status : CpuStatus}
    (stepped : step h m = some (.ok, m₁)) (ends : EndsAt h m₁ n status m') :
    EndsAt h m (n + 1) status m' := by
  obtain ⟨last, steps, final⟩ := ends
  exact ⟨last, .next stepped steps, final⟩

/-- One more successful step in front of an ending. -/
def Ending.next {h : Host σ} {m m₁ : Machine σ} {limit : Nat}
    (stepped : step h m = some (.ok, m₁)) : Ending h m₁ limit → Ending h m (limit + 1)
  | .exit n m' within ends => .exit (n + 1) m' (Nat.succ_lt_succ within) (ends.next stepped)
  | .failure n status m' within failed ends =>
      .failure (n + 1) status m' (Nat.succ_lt_succ within) failed (ends.next stepped)
  | .trap n last within steps trapped =>
      .trap (n + 1) last (Nat.succ_lt_succ within) (.next stepped steps) trapped
  | .exhausted m' steps => .exhausted m' (.next stepped steps)

theorem Ending.loopEnd_next {h : Host σ} {m m₁ : Machine σ} {limit : Nat}
    (stepped : step h m = some (.ok, m₁)) (ending : Ending h m₁ limit) (stepCount : Nat) :
    (ending.next stepped).loopEnd stepCount =
      (ending.loopEnd (stepCount + 1)).map fun rest =>
        { rest with reports := progress (stepCount + 1) ++ rest.reports } := by
  have shift : ∀ n, stepCount + (n + 1) = stepCount + 1 + n := by
    intro n
    omega
  cases ending with
  | exit n m' within ends =>
      simp only [next, loopEnd, progressLines, Option.map_some, shift n, List.append_assoc]
  | failure n status m' within failed ends =>
      simp only [next, loopEnd, progressLines, Option.map_some, shift n, List.append_assoc]
  | trap n last within steps trapped => rfl
  | exhausted m' steps =>
      simp only [next, loopEnd, progressLines, Option.map_some, shift limit]

theorem step_ok_running {h : Host σ} {m m' : Machine σ}
    (stepped : step h m = some (.ok, m')) : m'.cpu.running = m.cpu.running := by
  cases stepped_of_step stepped with
  | unfetched ofFetch _ => rcases ofFetch with other | other | other <;> cases other
  | executed _ ended =>
      cases ended with
      | ok running => exact running
      | failed ofExecution => rcases ofExecution with other | other <;> cases other

/-- The loop, on a running processor, is one of the four endings. -/
theorem runLoop_ending (h : Host σ) (limit stepCount : Nat) {m : Machine σ}
    (running : m.cpu.running = true) :
    ∃ ending : Ending h m limit, runLoop h limit stepCount m = ending.loopEnd stepCount := by
  induction limit generalizing stepCount m with
  | zero => exact ⟨.exhausted m (.refl m), rfl⟩
  | succ limit induction =>
      have first : 0 < limit + 1 := Nat.succ_pos limit
      unfold runLoop
      rw [if_neg (not_not.mpr running)]
      cases stepped : step h m with
      | none => exact ⟨.trap 0 m first (.refl m) stepped, rfl⟩
      | some result =>
          obtain ⟨status, m'⟩ := result
          dsimp only
          by_cases exits : status = .syscallExit
          · rw [if_pos exits]
            subst exits
            exact ⟨.exit 0 m' first ⟨m, .refl m, stepped⟩, rfl⟩
          · rw [if_neg exits]
            by_cases fails : status ≠ .ok
            · rw [if_pos fails]
              exact ⟨.failure 0 status m' first ⟨fails, exits⟩ ⟨m, .refl m, stepped⟩, rfl⟩
            · rw [if_neg fails]
              rw [not_not] at fails
              subst fails
              obtain ⟨ending, looped⟩ := induction (stepCount + 1)
                ((step_ok_running stepped).trans running)
              refine ⟨ending.next stepped, ?_⟩
              rw [looped, Ending.loopEnd_next]

section Uniqueness

variable {h : Host σ} {m : Machine σ}

/-- No step from here returns `CPU_OK`. -/
def Stuck (h : Host σ) (m : Machine σ) : Prop := ∀ m', step h m ≠ some (.ok, m')

theorem Steps.compare {a b : Nat} {m₁ m₂ : Machine σ} (first : Steps h a m m₁)
    (second : Steps h b m m₂) (shorter : a ≤ b) : Steps h (b - a) m₁ m₂ := by
  induction first generalizing b with
  | refl m => exact second
  | @next a m m' m₁ stepped rest induction =>
      cases second with
      | refl => cases shorter
      | @next b _ m'' _ stepped' rest' =>
          rw [stepped] at stepped'
          cases stepped'
          rw [Nat.add_sub_add_right]
          exact induction rest' (Nat.le_of_succ_le_succ shorter)

theorem Steps.le_of_stuck {a b : Nat} {m₁ m₂ : Machine σ} (first : Steps h a m m₁)
    (stuck : Stuck h m₁) (second : Steps h b m m₂) : b ≤ a := by
  by_contra longer
  have further := first.compare second (by omega)
  generalize remaining : b - a = n at further
  cases further with
  | refl => omega
  | next stepped _ => exact stuck _ stepped

theorem Steps.stop_unique {a b : Nat} {m₁ m₂ : Machine σ} (first : Steps h a m m₁)
    (stuck₁ : Stuck h m₁) (second : Steps h b m m₂) (stuck₂ : Stuck h m₂) :
    a = b ∧ m₁ = m₂ := by
  have below := first.le_of_stuck stuck₁ second
  have above := second.le_of_stuck stuck₂ first
  have same : a = b := Nat.le_antisymm above below
  subst same
  have further := first.compare second (Nat.le_refl a)
  rw [Nat.sub_self] at further
  cases further
  exact ⟨rfl, rfl⟩

private theorem stuck_of_status {status : CpuStatus} {m' : Machine σ}
    (stepped : step h m = some (status, m')) (final : status ≠ .ok) : Stuck h m := by
  intro next continues
  rw [stepped] at continues
  cases continues
  exact final rfl

theorem EndsAt.unique {a b : Nat} {status₁ status₂ : CpuStatus} {m₁ m₂ : Machine σ}
    (first : EndsAt h m a status₁ m₁) (second : EndsAt h m b status₂ m₂)
    (final₁ : status₁ ≠ .ok) (final₂ : status₂ ≠ .ok) :
    a = b ∧ status₁ = status₂ ∧ m₁ = m₂ := by
  obtain ⟨last₁, steps₁, stepped₁⟩ := first
  obtain ⟨last₂, steps₂, stepped₂⟩ := second
  obtain ⟨rfl, rfl⟩ := steps₁.stop_unique (stuck_of_status stepped₁ final₁) steps₂
    (stuck_of_status stepped₂ final₂)
  rw [stepped₁] at stepped₂
  cases stepped₂
  exact ⟨rfl, rfl, rfl⟩

theorem EndsAt.not_steps {n limit : Nat} {status : CpuStatus} {m' m'' : Machine σ}
    (ends : EndsAt h m n status m') (final : status ≠ .ok) (within : n < limit) :
    ¬ Steps h limit m m'' := by
  intro steps
  obtain ⟨last, before, stepped⟩ := ends
  have bound := before.le_of_stuck (stuck_of_status stepped final) steps
  omega

theorem EndsAt.not_trap {a b : Nat} {status : CpuStatus} {m' last : Machine σ}
    (ends : EndsAt h m a status m') (final : status ≠ .ok) (steps : Steps h b m last) :
    step h last ≠ none := by
  intro trapped
  obtain ⟨last', before, stepped⟩ := ends
  have stuck : Stuck h last := by
    intro next continues
    rw [trapped] at continues
    cases continues
  obtain ⟨_, rfl⟩ := before.stop_unique (stuck_of_status stepped final) steps stuck
  rw [trapped] at stepped
  cases stepped

end Uniqueness

section Reports

theorem isOutcome_of_mem_progressLines {r : Report} {stepCount count : Nat}
    (member : r ∈ progressLines stepCount count) : r.isOutcome = false := by
  induction count generalizing stepCount with
  | zero => cases member
  | succ count induction =>
      rcases List.mem_append.mp member with here | later
      · unfold progress at here
        split at here
        · rw [List.mem_singleton.mp here]
          rfl
        · cases here
      · exact induction later

theorem filter_progressLines (stepCount count : Nat) :
    (progressLines stepCount count).filter Report.isOutcome = [] := by
  rw [List.filter_eq_nil_iff]
  intro r member
  rw [isOutcome_of_mem_progressLines member]
  decide

theorem mem_progressLines_append {r : Report} (outcome : r.isOutcome = true)
    {stepCount count : Nat} {rest : List Report} :
    r ∈ progressLines stepCount count ++ rest ↔ r ∈ rest := by
  rw [List.mem_append]
  constructor
  · rintro (progress | other)
    · rw [isOutcome_of_mem_progressLines progress] at outcome
      cases outcome
    · exact other
  · exact Or.inr

variable {h : Host σ} {m : Machine σ} {limit : Nat}

theorem oneOutcome_of_exit {n : Nat} {m' : Machine σ} (within : n < limit)
    (ends : EndsAt h m n .syscallExit m') :
    OneOutcome h limit m
      (progressLines 0 n ++ [.exited (m'.cpu.regRead 10)], m'.cpu.regRead 10) where
  one := by
    rw [List.filter_append, filter_progressLines]
    rfl
  exited := by
    intro status
    rw [mem_progressLines_append rfl, List.mem_singleton, Report.exited.injEq]
    constructor
    · intro same
      exact ⟨n, m', within, ends, same⟩
    · rintro ⟨n', m'', _, ends', same⟩
      obtain ⟨_, _, rfl⟩ := ends.unique ends' (by decide) (by decide)
      exact same
  stopped := by
    intro count status
    rw [mem_progressLines_append rfl, List.mem_singleton]
    constructor
    · intro impossible
      cases impossible
    · rintro ⟨n', m'', _, failed, ends', _⟩
      obtain ⟨_, exit, _⟩ := ends.unique ends' (by decide) failed.1
      exact absurd exit.symm failed.2
  limit := by
    intro count
    rw [mem_progressLines_append rfl, List.mem_singleton]
    constructor
    · intro impossible
      cases impossible
    · rintro ⟨_, m'', steps⟩
      exact absurd steps (ends.not_steps (by decide) within)
  zero := by
    intro zero
    have code : m'.cpu.regRead 10 = 0 := zero
    rw [mem_progressLines_append rfl, code]
    exact List.mem_singleton_self _

private theorem zero_of_map {reports : List Report} {stepCount : Nat} {m' : Machine σ}
    {result : List Report × Word}
    (reported : (some (⟨reports, 0, stepCount, m'⟩ : LoopEnd σ)).map (fun ended =>
      if limit ≤ ended.stepCount then
        (ended.reports ++ [.limit limit, ended.machine.dumpRegisters], ended.exitCode)
      else (ended.reports, ended.exitCode)) = some result) : result.2 = 0 := by
  rw [Option.map_some, Option.some.injEq] at reported
  rw [← reported]
  split
  · rfl
  · rfl

private theorem exit_of_zero {result : List Report × Word} (zero : result.2 = 0)
    (outcome : OneOutcome h limit m result) :
    ∃ n m', n < limit ∧ EndsAt h m n .syscallExit m' := by
  obtain ⟨n, m', within, ends, _⟩ := (outcome.exited 0).mp (outcome.zero zero)
  exact ⟨n, m', within, ends⟩

end Reports

/-- `main` reports one true outcome, and returns zero only for it, exactly when
the guest exits before the last step it is allowed. -/
theorem oneOutcome_iff (h : Host σ) (limit : Nat) {m : Machine σ}
    (running : m.cpu.running = true) :
    (∃ result, runProgram h limit m = some result ∧ OneOutcome h limit m result) ↔
      ∃ n m', n + 1 < limit ∧ EndsAt h m n .syscallExit m' := by
  obtain ⟨ending, looped⟩ := runLoop_ending h limit 0 running
  unfold runProgram
  rw [looped]
  cases ending with
  | exit n m' within ends =>
      constructor
      · rintro ⟨result, reported, outcome⟩
        refine ⟨n, m', ?_, ends⟩
        by_contra last
        have reached : limit ≤ 0 + n + 1 := by omega
        simp only [Ending.loopEnd, Option.map_some, if_pos reached, Option.some.injEq]
          at reported
        have one := outcome.one
        rw [← reported, List.append_assoc, List.filter_append, filter_progressLines] at one
        cases one
      · rintro ⟨n', m'', early, ends'⟩
        obtain ⟨rfl, _, rfl⟩ := ends.unique ends' (by decide) (by decide)
        have notReached : ¬ limit ≤ 0 + n + 1 := by omega
        refine ⟨_, ?_, oneOutcome_of_exit within ends⟩
        simp only [Ending.loopEnd, Option.map_some, if_neg notReached]
  | failure n status m' within failed ends =>
      constructor
      · rintro ⟨result, reported, outcome⟩
        obtain ⟨n', m'', _, ends'⟩ := exit_of_zero (zero_of_map reported) outcome
        obtain ⟨_, same, _⟩ := ends.unique ends' failed.1 (by decide)
        exact absurd same failed.2
      · rintro ⟨n', m'', early, ends'⟩
        obtain ⟨_, same, _⟩ := ends.unique ends' failed.1 (by decide)
        exact absurd same failed.2
  | trap n last within steps trapped =>
      constructor
      · rintro ⟨result, reported, _⟩
        cases reported
      · rintro ⟨n', m'', _, ends'⟩
        exact absurd trapped (ends'.not_trap (by decide) steps)
  | exhausted m' steps =>
      constructor
      · rintro ⟨result, reported, outcome⟩
        obtain ⟨n', m'', within, ends'⟩ := exit_of_zero (zero_of_map reported) outcome
        exact absurd steps (ends'.not_steps (by decide) within)
      · rintro ⟨n', m'', early, ends'⟩
        exact absurd steps (ends'.not_steps (by decide) (by omega))

/-- The same for a program that `main` has loaded. -/
theorem main_oneOutcome_iff (h : Host σ) {host : σ} {program : List Byte}
    {loadAddress : Word} {m : Machine σ} (booted : boot host program loadAddress = some m) :
    (∃ result, runProgram h maxSteps m = some result ∧ OneOutcome h maxSteps m result) ↔
      ∃ n m', n + 1 < maxSteps ∧ EndsAt h m n .syscallExit m' :=
  oneOutcome_iff h maxSteps (running_of_boot booted)

theorem boot_zeros : ∃ m, boot () [0, 0, 0, 0] 0 = some m := by
  simp only [boot]
  rw [if_neg (by decide)]
  exact ⟨_, rfl⟩

/-- Four zero bytes, loaded at address zero. -/
theorem main_oneOutcome_iff_zeros :
    ∃ m, boot () [0, 0, 0, 0] 0 = some m ∧
      ((∃ result, runProgram Host.inert maxSteps m = some result ∧
          OneOutcome Host.inert maxSteps m result) ↔
        ∃ n m', n + 1 < maxSteps ∧ EndsAt Host.inert m n .syscallExit m') := by
  obtain ⟨m, booted⟩ := boot_zeros
  exact ⟨m, booted, main_oneOutcome_iff Host.inert booted⟩

theorem step_zeros {m : Machine Unit} (booted : boot () [0, 0, 0, 0] 0 = some m) :
    step Host.inert m = some (.decodeError, m.advance) := by
  obtain ⟨loaded, cpu, size, _⟩ := loaded_of_boot booted
  have ready : m.Fetchable := by
    refine ⟨by rw [cpu]; rfl, ?_, ?_⟩
    · rw [size]
      decide
    · rw [size, cpu]
      show Isa.Accessible memorySize.toNat 4 0
      decide
  have fetched : m.fetched = 0 := fetched_of_loaded loaded
  have unknown : Instruction.decode 0 = none := by decide
  rw [step_of_fetchable Host.inert ready, fetched, unknown]

/-- The first instruction does not decode; `main` returns zero all the same. -/
theorem not_oneOutcome_zeros :
    ∃ m, boot () [0, 0, 0, 0] 0 = some m ∧
      ¬ ∃ result, runProgram Host.inert maxSteps m = some result ∧
        OneOutcome Host.inert maxSteps m result := by
  obtain ⟨m, booted⟩ := boot_zeros
  refine ⟨m, booted, ?_⟩
  rw [oneOutcome_iff Host.inert maxSteps (running_of_boot booted)]
  rintro ⟨n, m', _, ends⟩
  have fails : EndsAt Host.inert m 0 .decodeError m.advance := ⟨m, .refl m, step_zeros booted⟩
  obtain ⟨_, same, _⟩ := fails.unique ends (by decide) (by decide)
  cases same

end Machine

end RiscvPack.Emulator
