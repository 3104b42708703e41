import RiscvPack.Emulator.MainLoop

/-!
# The step limit

The loop of `main` over a run in two parts, and from it everything `main`
prints about a run.  A larger limit only continues a run: what is printed under
a smaller one stays, up to the report of the limit itself.
-/

namespace RiscvPack.Emulator

namespace Machine

variable {σ : Type} {h : Host σ} {m m' last : Machine σ} {n limit : Nat}

/-- What the loop leaves, behind the lines of the steps in front. -/
def LoopEnd.after (lines : List Report) (ended : LoopEnd σ) : LoopEnd σ :=
  { ended with reports := lines ++ ended.reports }

theorem Steps.running (steps : Steps h n m m') (running : m.cpu.running = true) :
    m'.cpu.running = true := by
  induction steps with
  | refl => exact running
  | next stepped _ induction => exact induction ((step_ok_running stepped).trans running)

/-- Over steps that succeed the loop only counts, and prints its progress. -/
theorem runLoop_steps (steps : Steps h n m m') (running : m.cpu.running = true)
    (room stepCount : Nat) :
    runLoop h (n + room) stepCount m =
      (runLoop h room (stepCount + n) m').map (LoopEnd.after (progressLines stepCount n)) := by
  induction steps generalizing stepCount with
  | refl m =>
      rw [Nat.zero_add, Nat.add_zero]
      show _ = Option.map (fun ended : LoopEnd σ => ended) _
      rw [Option.map_id']
  | @next n m m₁ m₂ stepped _ induction =>
      have running₁ := (step_ok_running stepped).trans running
      rw [Nat.add_right_comm, runLoop, if_neg (not_not.mpr running), stepped]
      dsimp only
      rw [if_neg (by decide), if_neg (by decide), induction running₁, Option.map_map,
        Nat.add_right_comm stepCount 1 n, Nat.add_assoc stepCount n 1]
      congr 1
      funext ended
      simp only [Function.comp, LoopEnd.after, progressLines, List.append_assoc]

/-- The report of the limit, when the counter has reached it. -/
def limitReport (limit stepCount : Nat) (m : Machine σ) : List Report :=
  if limit ≤ stepCount then [.limit limit, m.dumpRegisters] else []

theorem runProgram_eq (h : Host σ) (limit : Nat) (m : Machine σ) :
    runProgram h limit m = (runLoop h limit 0 m).map fun ended =>
      (ended.reports ++ limitReport limit ended.stepCount ended.machine, ended.exitCode) := by
  unfold runProgram
  congr 1
  funext ended
  unfold limitReport
  split
  · rfl
  · rw [List.append_nil]

/-- A progress line for every ten thousand steps. -/
def progressReports (steps : Nat) : List Report :=
  (List.range (steps / 10000)).map fun i => .progress (10000 * (i + 1))

theorem progressLines_succ (stepCount count : Nat) :
    progressLines stepCount (count + 1) =
      progressLines stepCount count ++ progress (stepCount + count + 1) := by
  induction count generalizing stepCount with
  | zero => simp [progressLines]
  | succ count induction =>
      rw [progressLines, induction, progressLines, List.append_assoc]
      have place : stepCount + 1 + count + 1 = stepCount + (count + 1) + 1 := by omega
      rw [place]

theorem progressLines_eq (steps : Nat) : progressLines 0 steps = progressReports steps := by
  induction steps with
  | zero => rfl
  | succ steps induction =>
      rw [progressLines_succ, induction]
      unfold progress progressReports
      rw [Nat.zero_add]
      by_cases tenThousandth : (steps + 1) % 10000 = 0
      · have quotient : (steps + 1) / 10000 = steps / 10000 + 1 := by omega
        have value : steps + 1 = 10000 * (steps / 10000 + 1) := by omega
        rw [if_pos tenThousandth, quotient, List.range_succ, List.map_append, List.map_singleton,
          ← value]
      · have quotient : (steps + 1) / 10000 = steps / 10000 := by omega
        rw [if_neg tenThousandth, quotient, List.append_nil]

section Output

variable (running : m.cpu.running = true)

include running

theorem runProgram_of_exit (within : n < limit) (ends : EndsAt h m n .syscallExit m') :
    runProgram h limit m =
      some (progressReports n ++ .exited (m'.cpu.regRead 10) :: limitReport limit (n + 1) m',
        m'.cpu.regRead 10) := by
  obtain ⟨last, steps, stepped⟩ := ends
  obtain ⟨room, rfl⟩ := Nat.exists_eq_add_of_lt within
  have still := steps.running running
  rw [runProgram_eq, Nat.add_assoc, runLoop_steps steps running, runLoop,
    if_neg (not_not.mpr still), stepped, ← progressLines_eq]
  simp [LoopEnd.after]

theorem runProgram_of_failure {status : CpuStatus} (within : n < limit)
    (failed : status.Failed) (ends : EndsAt h m n status m') :
    runProgram h limit m =
      some (progressReports n ++ .stopped (n + 1) status :: m'.dumpRegisters ::
        limitReport limit (n + 1) m', 0) := by
  obtain ⟨last, steps, stepped⟩ := ends
  obtain ⟨room, rfl⟩ := Nat.exists_eq_add_of_lt within
  have still := steps.running running
  rw [runProgram_eq, Nat.add_assoc, runLoop_steps steps running, runLoop,
    if_neg (not_not.mpr still), stepped, ← progressLines_eq]
  dsimp only
  rw [if_neg failed.2, if_pos failed.1]
  simp [LoopEnd.after]

theorem runProgram_of_trap (within : n < limit) (steps : Steps h n m last)
    (trapped : step h last = none) : runProgram h limit m = none := by
  obtain ⟨room, rfl⟩ := Nat.exists_eq_add_of_lt within
  have still := steps.running running
  rw [runProgram_eq, Nat.add_assoc, runLoop_steps steps running, runLoop,
    if_neg (not_not.mpr still), trapped]
  rfl

theorem runProgram_of_steps (steps : Steps h limit m m') :
    runProgram h limit m =
      some (progressReports limit ++ [.limit limit, m'.dumpRegisters], 0) := by
  have looped := runLoop_steps steps running 0 0
  rw [Nat.add_zero, Nat.zero_add] at looped
  rw [runProgram_eq, looped, ← progressLines_eq]
  simp [runLoop, LoopEnd.after, limitReport]

/-- What is printed begins with the progress lines of the steps that succeed. -/
theorem reports_begin (steps : Steps h n m last) (within : n ≤ limit) {reports : List Report}
    {code : Word} (printed : runProgram h limit m = some (reports, code)) :
    progressReports n <+: reports := by
  obtain ⟨room, rfl⟩ := Nat.exists_eq_add_of_le within
  rw [runProgram_eq, runLoop_steps steps running, progressLines_eq, Option.map_map] at printed
  obtain ⟨ended, _, same⟩ := Option.map_eq_some_iff.mp printed
  cases same
  show progressReports n <+: (progressReports n ++ ended.reports) ++ _
  rw [List.append_assoc]
  exact List.prefix_append ..

end Output

/-- Everything `main` prints about a run that ends so, and what it returns. -/
def Ending.output : Ending h m limit → Option (List Report × Word)
  | .exit n m' _ _ =>
      some (progressReports n ++ .exited (m'.cpu.regRead 10) :: limitReport limit (n + 1) m',
        m'.cpu.regRead 10)
  | .failure n status m' _ _ _ =>
      some (progressReports n ++ .stopped (n + 1) status :: m'.dumpRegisters ::
        limitReport limit (n + 1) m', 0)
  | .trap _ _ _ _ _ => none
  | .exhausted m' _ => some (progressReports limit ++ [.limit limit, m'.dumpRegisters], 0)

theorem runProgram_of_ending (running : m.cpu.running = true) (ending : Ending h m limit) :
    runProgram h limit m = ending.output := by
  cases ending with
  | exit n m' within ends => exact runProgram_of_exit running within ends
  | failure n status m' within failed ends =>
      exact runProgram_of_failure running within failed ends
  | trap n last within steps trapped => exact runProgram_of_trap running within steps trapped
  | exhausted m' steps => exact runProgram_of_steps running steps

/-- A run ends in one of four ways under any limit, and the lines and the code
of `main` are those of every way in which it does. -/
theorem runProgram_output (h : Host σ) (limit : Nat) (running : m.cpu.running = true) :
    Nonempty (Ending h m limit) ∧
      ∀ ending : Ending h m limit, runProgram h limit m = ending.output := by
  refine ⟨?_, runProgram_of_ending running⟩
  obtain ⟨ending, _⟩ := runLoop_ending h limit 0 running
  exact ⟨ending⟩

theorem runProgram_output_zero :
    Nonempty (Ending Host.inert (ofWord 0) maxSteps) ∧
      ∀ ending : Ending Host.inert (ofWord 0) maxSteps,
        runProgram Host.inert maxSteps (ofWord 0) = ending.output :=
  runProgram_output Host.inert maxSteps rfl

section Larger

theorem limitReport_of_lt {steps : Nat} (early : steps < limit) (m : Machine σ) :
    limitReport limit steps m = [] :=
  if_neg (Nat.not_le_of_lt early)

theorem limitReport_self (limit : Nat) (m : Machine σ) :
    limitReport limit limit m = [.limit limit, m.dumpRegisters] :=
  if_pos (Nat.le_refl limit)

/-- What a larger limit leaves of the lines printed under a smaller one. -/
structure Extends (h : Host σ) (m : Machine σ) (a b : Nat) (lines : List Report) (code : Word) :
    Prop where
  same : (∀ count, .limit count ∉ lines) → runProgram h b m = some (lines, code)
  front : ∃ front, (lines = front ∨ ∃ pc x, lines = front ++ [.limit a, .registers pc x]) ∧
    ∀ lines' code', runProgram h b m = some (lines', code') → front <+: lines'

variable {a b : Nat}

private theorem extends_of_stop {front : List Report} {m' : Machine σ} {code : Word}
    (larger : a ≤ b) (within : n < a)
    (outputs : ∀ limit, n < limit →
      runProgram h limit m = some (front ++ limitReport limit (n + 1) m', code)) :
    Extends h m a b (front ++ limitReport a (n + 1) m') code := by
  have later := outputs b (by omega)
  have begins : ∀ lines' code', runProgram h b m = some (lines', code') → front <+: lines' := by
    intro lines' code' printed
    rw [later] at printed
    cases printed
    exact List.prefix_append ..
  by_cases early : n + 1 < a
  · rw [limitReport_of_lt early, List.append_nil]
    rw [limitReport_of_lt (by omega), List.append_nil] at later
    exact ⟨fun _ => later, front, .inl rfl, begins⟩
  · have final : n + 1 = a := by omega
    rw [final, limitReport_self]
    refine ⟨fun noLimit => ?_, front, .inr ⟨_, _, rfl⟩, begins⟩
    exact absurd (List.mem_append_right front List.mem_cons_self) (noLimit a)

/-- Under a larger limit a run that brings the emulator down still does, lines
without a report of the limit stay as they are, and of the others all but that
report are still the first ones. -/
theorem runProgram_larger_limit (running : m.cpu.running = true) (larger : a ≤ b) :
    (runProgram h a m = none → runProgram h b m = none) ∧
      ∀ lines code, runProgram h a m = some (lines, code) → Extends h m a b lines code := by
  obtain ⟨ending, _⟩ := runLoop_ending h a 0 running
  have output := runProgram_of_ending running ending
  cases ending with
  | exit n m' within ends =>
      refine ⟨fun down => ?_, fun lines code printed => ?_⟩
      · rw [output] at down
        cases down
      · rw [output] at printed
        cases printed
        rw [List.append_cons]
        apply extends_of_stop larger within
        intro limit inside
        rw [runProgram_of_exit running inside ends, List.append_cons]
  | failure n status m' within failed ends =>
      refine ⟨fun down => ?_, fun lines code printed => ?_⟩
      · rw [output] at down
        cases down
      · rw [output] at printed
        cases printed
        rw [List.append_cons, List.append_cons]
        apply extends_of_stop larger within
        intro limit inside
        rw [runProgram_of_failure running inside failed ends, List.append_cons, List.append_cons]
  | trap n last within steps trapped =>
      refine ⟨fun _ => runProgram_of_trap running (by omega) steps trapped, ?_⟩
      intro lines code printed
      rw [output] at printed
      cases printed
  | exhausted m' steps =>
      refine ⟨fun down => ?_, fun lines code printed => ?_⟩
      · rw [output] at down
        cases down
      rw [output] at printed
      cases printed
      refine ⟨fun noLimit => ?_, progressReports a, .inr ⟨_, _, rfl⟩, ?_⟩
      · exact absurd (List.mem_append_right _ List.mem_cons_self) (noLimit a)
      intro lines' code' printed
      exact reports_begin running steps larger printed

/-- The stop at the first word, under a limit of one step and under the real
one. -/
theorem runProgram_larger_limit_zero :
    (runProgram Host.inert 1 (ofWord 0) = none →
        runProgram Host.inert maxSteps (ofWord 0) = none) ∧
      ∀ lines code, runProgram Host.inert 1 (ofWord 0) = some (lines, code) →
        Extends Host.inert (ofWord 0) 1 maxSteps lines code :=
  runProgram_larger_limit rfl (by decide)

end Larger

end Machine

end RiscvPack.Emulator
