import Mathlib.Data.List.Chain
import RiscvPack.Emulator.Frames
import RiscvPack.Emulator.Trace
import RiscvPack.Emulator.Loader

/-!
# Debug mode

`CPU::step` and `main` with the lines that `--debug` adds.  The flag changes
nothing else, and its lines are a log of the run: one group for each step, the
next program counter of a step being the one that the next group begins with.
-/

namespace RiscvPack.Emulator

open CString CommandLine

/-- The lines of `step`; the last two begin with `[EXECUTE]`. -/
inductive TraceLine where
  | fetch (pc : Word)
  | fetchError (status : CpuStatus)
  | instruction (rawInstr : Word)
  | decodeError
  | decode (line : DecodeLine)
  | executed (nextPc : Word)
  | failed (status : CpuStatus)
  deriving DecidableEq, Repr

/-- A line of standard output from the loop of `main` on. -/
inductive Line where
  | trace (line : TraceLine)
  | report (report : Report)

def Line.trace? : Line → Option TraceLine
  | .trace line => some line
  | .report _ => none

def Line.report? : Line → Option Report
  | .trace _ => none
  | .report line => some line

def traceOf (lines : List Line) : List TraceLine := lines.filterMap Line.trace?

def reportsOf (lines : List Line) : List Report := lines.filterMap Line.report?

/-- What a turn of the loop prints. -/
def turnLines (trace : List TraceLine) (reports : List Report) : List Line :=
  trace.map .trace ++ reports.map .report

section Lines

variable {trace : List TraceLine} {reports : List Report} {front back : List Line}

theorem traceOf_append : traceOf (front ++ back) = traceOf front ++ traceOf back :=
  List.filterMap_append

theorem reportsOf_append : reportsOf (front ++ back) = reportsOf front ++ reportsOf back :=
  List.filterMap_append

theorem traceOf_turnLines : traceOf (turnLines trace reports) = trace := by
  unfold traceOf turnLines
  rw [List.filterMap_append, List.filterMap_map, List.filterMap_map]
  have kept : Line.trace? ∘ Line.trace = some := rfl
  have dropped : Line.trace? ∘ Line.report = fun _ => none := rfl
  rw [kept, dropped, List.filterMap_some, List.filterMap_none, List.append_nil]

theorem reportsOf_turnLines : reportsOf (turnLines trace reports) = reports := by
  unfold reportsOf turnLines
  rw [List.filterMap_append, List.filterMap_map, List.filterMap_map]
  have dropped : Line.report? ∘ Line.trace = fun _ => none := rfl
  have kept : Line.report? ∘ Line.report = some := rfl
  rw [kept, dropped, List.filterMap_some, List.filterMap_none, List.nil_append]

end Lines

/-- What the loop leaves in either mode. -/
structure DebugEnd (σ : Type) where
  lines : List Line
  exitCode : Word
  stepCount : Nat
  machine : Machine σ

namespace Machine

variable {σ : Type}

/-- `CPU::step` with the lines that it prints. -/
def stepDebug (h : Host σ) (debugMode : Bool) (m : Machine σ) :
    Option (List TraceLine × CpuStatus × Machine σ) :=
  let printed (lines : List TraceLine) := if debugMode then lines else []
  if ¬ m.cpu.running then some ([], .syscallExit, m)
  else
    match m.cpu.fetch m.mem with
    | .error status => some (printed [.fetch m.cpu.pc, .fetchError status], status, m)
    | .ok (cpu, rawInstr) =>
        match Instruction.decode rawInstr with
        | none =>
            some (printed [.fetch m.cpu.pc, .instruction rawInstr, .decodeError], .decodeError,
              { m with cpu })
        | some decoded =>
            (execute h { m with cpu } decoded).map fun (status, m') =>
              (printed [.fetch m.cpu.pc, .instruction rawInstr, .decode (decodeLine cpu decoded),
                if status = .ok then .executed m'.cpu.pc else .failed status], status, m')

/-- The loop of `main` with `room` steps left, in either mode. -/
def runLoopDebug (h : Host σ) (debugMode : Bool) :
    (room stepCount : Nat) → Machine σ → Option (DebugEnd σ)
  | 0, stepCount, m => some ⟨[], 0, stepCount, m⟩
  | room + 1, stepCount, m =>
      if ¬ m.cpu.running then some ⟨[], 0, stepCount, m⟩
      else
        match stepDebug h debugMode m with
        | none => none
        | some (trace, status, m') =>
            if status = .syscallExit then
              some ⟨turnLines trace [.exited (m'.cpu.regRead 10)], m'.cpu.regRead 10,
                stepCount + 1, m'⟩
            else if status ≠ .ok then
              some ⟨turnLines trace [.stopped (stepCount + 1) status, m'.dumpRegisters], 0,
                stepCount + 1, m'⟩
            else
              (runLoopDebug h debugMode room (stepCount + 1) m').map fun rest =>
                { rest with lines := turnLines trace (progress (stepCount + 1)) ++ rest.lines }

/-- `main` from its loop on, in either mode. -/
def runProgramDebug (h : Host σ) (debugMode : Bool) (limit : Nat) (m : Machine σ) :
    Option (List Line × Word) :=
  (runLoopDebug h debugMode limit 0 m).map fun ended =>
    if limit ≤ ended.stepCount then
      (ended.lines ++ turnLines [] [.limit limit, ended.machine.dumpRegisters], ended.exitCode)
    else (ended.lines, ended.exitCode)

/-- The lines of a step, told from its status: no word without a fetch, no
mnemonic without a meaning. -/
def stepLog (m : Machine σ) (status : CpuStatus) (m' : Machine σ) : List TraceLine :=
  let decoded := (Instruction.decode m.fetched).toList.map fun instr =>
    TraceLine.decode (decodeLine m.advance.cpu instr)
  .fetch m.cpu.pc ::
    match status with
    | .fetchError | .fetchMisaligned | .fetchOutOfBounds => [.fetchError status]
    | .decodeError => [.instruction m.fetched, .decodeError]
    | .ok => .instruction m.fetched :: decoded ++ [.executed m'.cpu.pc]
    | .executionError | .illegalInstruction | .syscallExit =>
        .instruction m.fetched :: decoded ++ [.failed status]

/-- The lines of `n` steps that return `CPU_OK`. -/
inductive Logged (h : Host σ) : Nat → Machine σ → List TraceLine → Machine σ → Prop where
  | refl (m : Machine σ) : Logged h 0 m [] m
  | next {n : Nat} {m m₁ m₂ : Machine σ} {trace : List TraceLine} :
      step h m = some (.ok, m₁) → Logged h n m₁ trace m₂ →
      Logged h (n + 1) m (m.stepLog .ok m₁ ++ trace) m₂

/-- The lines of a run of at most `limit` steps. -/
inductive RunLog (h : Host σ) (limit : Nat) (m : Machine σ) : List TraceLine → Prop where
  | stopped {n : Nat} {last m' : Machine σ} {status : CpuStatus} {trace : List TraceLine} :
      n < limit → Logged h n m trace last → step h last = some (status, m') → status ≠ .ok →
      RunLog h limit m (trace ++ last.stepLog status m')
  | exhausted {last : Machine σ} {trace : List TraceLine} :
      Logged h limit m trace last → RunLog h limit m trace

end Machine

/-- The line that may stand behind another: where the program counter is given,
the fetch at it. -/
def TraceLine.Continues : TraceLine → TraceLine → Prop
  | .executed nextPc, line => line = .fetch nextPc
  | _, _ => True

namespace Machine

variable {σ : Type} {h : Host σ} {m m' : Machine σ} {status : CpuStatus}

theorem stepLog_of_fetchError (ofFetch : status.OfFetch) :
    m.stepLog status m' = [.fetch m.cpu.pc, .fetchError status] := by
  rcases ofFetch with rfl | rfl | rfl <;> rfl

theorem stepLog_of_executed {instr : Instruction} (ended : m.advance.Executed status m')
    (decoded : Instruction.decode m.fetched = some instr) :
    m.stepLog status m' =
      [.fetch m.cpu.pc, .instruction m.fetched, .decode (decodeLine m.advance.cpu instr),
        if status = .ok then .executed m'.cpu.pc else .failed status] := by
  unfold stepLog
  rw [decoded]
  cases ended with
  | ok _ => rfl
  | exit => rfl
  | failed ofExecution => rcases ofExecution with rfl | rfl <;> rfl

/-- The flag adds the log of the step, and does nothing else. -/
theorem stepDebug_eq (h : Host σ) (debugMode : Bool) (running : m.cpu.running = true) :
    stepDebug h debugMode m = (step h m).map fun (status, m') =>
      (if debugMode then m.stepLog status m' else [], status, m') := by
  unfold stepDebug step
  simp only [running, not_true_eq_false, if_false]
  cases fetched : m.cpu.fetch m.mem with
  | error status =>
      dsimp only
      rw [Option.map_some, stepLog_of_fetchError (CPU.fetch_error fetched).1]
  | ok result =>
      obtain ⟨cpu, rawInstr⟩ := result
      obtain ⟨rfl, _⟩ := CPU.fetch_ok fetched
      cases fetch_word fetched
      have advanced : { m with cpu := { m.cpu with pc := m.cpu.pc + 4 } } = m.advance := rfl
      dsimp only
      rw [advanced]
      cases decoded : Instruction.decode m.fetched with
      | none => rfl
      | some instr =>
          dsimp only
          cases executed : execute h m.advance instr with
          | none => rfl
          | some result =>
              obtain ⟨status, m'⟩ := result
              rw [Option.map_some, Option.map_some,
                stepLog_of_executed (executed_of_execute executed) decoded]
              rfl

/-- Without its lines of debug mode the loop is the plain one. -/
theorem runLoopDebug_reports (h : Host σ) (debugMode : Bool) (room stepCount : Nat)
    (m : Machine σ) :
    (runLoopDebug h debugMode room stepCount m).map
        (fun ended => LoopEnd.mk (reportsOf ended.lines) ended.exitCode ended.stepCount
          ended.machine) =
      runLoop h room stepCount m := by
  induction room generalizing stepCount m with
  | zero => rfl
  | succ room induction =>
      unfold runLoopDebug runLoop
      split
      · rfl
      · rename_i running
        rw [not_not] at running
        rw [stepDebug_eq h debugMode running]
        cases stepped : step h m with
        | none => rfl
        | some result =>
            obtain ⟨status, m'⟩ := result
            simp only [Option.map_some]
            split
            · rw [Option.map_some, reportsOf_turnLines]
            split
            · rw [Option.map_some, reportsOf_turnLines]
            · rw [← induction, Option.map_map, Option.map_map]
              congr 1
              funext rest
              simp only [Function.comp, reportsOf_append, reportsOf_turnLines]

theorem runProgramDebug_reports (h : Host σ) (debugMode : Bool) (limit : Nat) (m : Machine σ) :
    (runProgramDebug h debugMode limit m).map (fun (lines, code) => (reportsOf lines, code)) =
      runProgram h limit m := by
  unfold runProgramDebug runProgram
  rw [← runLoopDebug_reports h debugMode, Option.map_map, Option.map_map]
  congr 1
  funext ended
  simp only [Function.comp]
  split
  · rw [reportsOf_append, reportsOf_turnLines]
  · rfl

theorem RunLog.next {limit : Nat} {m₁ : Machine σ} {trace : List TraceLine}
    (stepped : step h m = some (.ok, m₁)) (log : RunLog h limit m₁ trace) :
    RunLog h (limit + 1) m (m.stepLog .ok m₁ ++ trace) := by
  cases log with
  | stopped within logged final failed =>
      rw [← List.append_assoc]
      exact .stopped (Nat.succ_lt_succ within) (.next stepped logged) final failed
  | exhausted logged => exact .exhausted (.next stepped logged)

/-- In debug mode the loop prints the log of its run, otherwise none. -/
theorem runLoopDebug_trace {debugMode : Bool} {room stepCount : Nat} {ended : DebugEnd σ}
    (running : m.cpu.running = true)
    (ends : runLoopDebug h debugMode room stepCount m = some ended) :
    if debugMode then RunLog h room m (traceOf ended.lines) else traceOf ended.lines = [] := by
  induction room generalizing stepCount m ended with
  | zero =>
      cases ends
      cases debugMode with
      | false => rfl
      | true => exact .exhausted (.refl m)
  | succ room induction =>
      rw [runLoopDebug, if_neg (not_not.mpr running), stepDebug_eq h debugMode running] at ends
      cases stepped : step h m with
      | none =>
          rw [stepped] at ends
          cases ends
      | some result =>
          obtain ⟨status, m'⟩ := result
          rw [stepped] at ends
          simp only [Option.map_some] at ends
          have last (failed : status ≠ .ok) :
              if debugMode then
                RunLog h (room + 1) m (if debugMode then m.stepLog status m' else [])
              else (if debugMode then m.stepLog status m' else []) = [] := by
            cases debugMode with
            | false => rfl
            | true => exact .stopped (Nat.succ_pos room) (.refl m) stepped failed
          split at ends
          · rename_i exits
            cases ends
            rw [traceOf_turnLines]
            exact last (by rw [exits]; decide)
          split at ends
          · rename_i failed
            cases ends
            rw [traceOf_turnLines]
            exact last failed
          · rename_i succeeded
            rw [not_not] at succeeded
            subst succeeded
            obtain ⟨rest, inner, rfl⟩ := Option.map_eq_some_iff.mp ends
            have later := induction ((step_ok_running stepped).trans running) inner
            rw [traceOf_append, traceOf_turnLines]
            cases debugMode with
            | false => exact later
            | true => exact later.next stepped

theorem runProgramDebug_trace {debugMode : Bool} {limit : Nat} {lines : List Line} {code : Word}
    (running : m.cpu.running = true)
    (prints : runProgramDebug h debugMode limit m = some (lines, code)) :
    if debugMode then RunLog h limit m (traceOf lines) else traceOf lines = [] := by
  obtain ⟨ended, ends, shown⟩ := Option.map_eq_some_iff.mp prints
  have trace := runLoopDebug_trace running ends
  split at shown
  · cases shown
    rwa [traceOf_append, traceOf_turnLines, List.append_nil]
  · cases shown
    exact trace

theorem stepLog_chained (m : Machine σ) (status : CpuStatus) (m' : Machine σ) :
    (m.stepLog status m').IsChain TraceLine.Continues := by
  unfold stepLog
  cases Instruction.decode m.fetched <;> cases status <;> simp [TraceLine.Continues]

theorem stepLog_last (m m' : Machine σ) :
    (m.stepLog .ok m').getLast? = some (.executed m'.cpu.pc) := by
  unfold stepLog
  cases Instruction.decode m.fetched <;> rfl

theorem Logged.chained {n : Nat} {last : Machine σ} {front back : List TraceLine}
    (logged : Logged h n m front last) (chained : back.IsChain TraceLine.Continues)
    (begins : ∀ line ∈ back.head?, line = .fetch last.cpu.pc) :
    (front ++ back).IsChain TraceLine.Continues ∧
      ∀ line ∈ (front ++ back).head?, line = .fetch m.cpu.pc := by
  induction logged with
  | refl => exact ⟨chained, begins⟩
  | next _ _ induction =>
      obtain ⟨rest, first⟩ := induction begins
      rw [List.append_assoc]
      refine ⟨(stepLog_chained ..).append rest ?_, ?_⟩
      · intro final ends line follows
        rw [stepLog_last] at ends
        cases ends
        exact first line follows
      · rintro line ⟨⟩
        rfl

theorem RunLog.chained {limit : Nat} {trace : List TraceLine} (log : RunLog h limit m trace) :
    trace.IsChain TraceLine.Continues := by
  cases log with
  | @stopped n last m' status front within logged final failed =>
      refine (logged.chained (stepLog_chained ..) ?_).1
      rintro line ⟨⟩
      rfl
  | exhausted logged =>
      have whole := (logged.chained .nil (fun _ none => nomatch none)).1
      rwa [List.append_nil] at whole

end Machine

section Main

variable {σ : Type}

/-- `main` with every line that it prints. -/
def mainDebug (h : Host σ) (host : σ) (files : Text → Option Stream) (argv : List Text) :
    Option (List Message × List Line × Word) :=
  let args := parseArguments argv
  match args.programFile with
  | none => some ([.usage], [], 1)
  | some file =>
      let greeting := Message.initializing stackBase stackTop stackSize
      match (Memory.init memorySize).loadProgram (files file) args.loadAddress with
      | none => none
      | some (.loaded size, mem) =>
          let cpu := { CPU.init with pc := args.loadAddress }
          (Machine.runProgramDebug h args.debugMode maxSteps { cpu, mem, host }).map
            fun (lines, code) =>
              ([greeting, .loaded size args.loadAddress, .starting (cpu.regRead sp) cpu.pc],
                lines, code)
      | some (status, _) => some ([greeting, status.message file args.loadAddress], [], 1)

/-- What the flag does to a run of `main`: nothing but the lines of debug mode,
and these are the log of the run. -/
structure DebugOnly (h : Host σ) (host : σ) (files : Text → Option Stream) (argv : List Text) :
    Prop where
  plain : (mainDebug h host files argv).map
      (fun (messages, lines, code) => (messages, reportsOf lines, code)) =
    main h host files argv
  silent : debugFlag ∉ argv → ∀ messages lines code,
    mainDebug h host files argv = some (messages, lines, code) → traceOf lines = []
  log : debugFlag ∈ argv → ∀ file addresses size mem messages lines code,
    operands debugFlag argv = file :: addresses →
      (Memory.init memorySize).loadProgram (files file) (lastAddress 0 addresses) =
        some (.loaded size, mem) →
      mainDebug h host files argv = some (messages, lines, code) →
        Machine.RunLog h maxSteps ⟨{ CPU.init with pc := lastAddress 0 addresses }, mem, host⟩
            (traceOf lines) ∧
          (traceOf lines).IsChain TraceLine.Continues

theorem main_debug (h : Host σ) (host : σ) (files : Text → Option Stream) (argv : List Text) :
    DebugOnly h host files argv where
  plain := by
    unfold mainDebug main
    dsimp only
    cases (parseArguments argv).programFile with
    | none => rfl
    | some file =>
        dsimp only
        generalize (Memory.init memorySize).loadProgram (files file) _ = load
        match load with
        | none => rfl
        | some (.loaded size, mem) =>
            dsimp only
            rw [← Machine.runProgramDebug_reports h (parseArguments argv).debugMode,
              Option.map_map, Option.map_map]
            rfl
        | some (.cannotOpen, _) | some (.tooLarge, _) | some (.incomplete, _) => rfl
  silent := by
    intro absent messages lines code prints
    unfold mainDebug at prints
    simp only [parseArguments_eq] at prints
    split at prints
    · cases prints
      rfl
    split at prints
    · cases prints
    · obtain ⟨⟨_, _⟩, ran, shown⟩ := Option.map_eq_some_iff.mp prints
      cases shown
      have trace := Machine.runProgramDebug_trace rfl ran
      rwa [if_neg (by simpa using absent)] at trace
    · cases prints
      rfl
  log := by
    intro flag file addresses size mem messages lines code command loaded prints
    unfold mainDebug at prints
    simp only [parseArguments_eq, command, List.head?_cons, List.tail_cons, loaded] at prints
    obtain ⟨⟨_, _⟩, ran, shown⟩ := Option.map_eq_some_iff.mp prints
    cases shown
    have trace := Machine.runProgramDebug_trace rfl ran
    rw [if_pos (by simpa using flag)] at trace
    exact ⟨trace, trace.chained⟩

/-- The file of an `ecall`, in debug mode: the call of an unknown number goes
on, and the word behind it has no meaning. -/
example :
    (mainDebug Host.inert () (fun file => (oneFile file).map .regular)
        ["a.bin".toList, debugFlag]).map (fun (_, lines, code) => (traceOf lines, code)) =
      some ([.fetch 0, .instruction 0x73, .decode ⟨"ecall", 0x73, .iType 0 0 0⟩, .executed 4,
        .fetch 4, .instruction 0, .decodeError], 0) := by
  decide

end Main

end RiscvPack.Emulator
