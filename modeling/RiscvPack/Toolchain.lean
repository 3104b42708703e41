import RiscvPack.Assembler.CommandLine
import RiscvPack.Assembler.SourceRuns
import RiscvPack.Emulator.Loader

/-!
# The assembler and the emulator

Both programs from command line to command line: a source file of code and data
is assembled into a binary file, and the emulator loads that file and runs it,
at zero or at another address.  What comes out is what the source text says.
-/

namespace RiscvPack

open CString Files CommandLine Simulation
open Asm (SourceFile SourceState Setting definedNames textOf)
open Emulator (Host Machine)

namespace Asm.SourceFile

variable (f : SourceFile) (base : Word)

/-- The output file: the code, and the data behind it. -/
def image : List Byte := f.codeBytes ++ f.dataBytes

/-- Where the emulator runs it, with the image at `base`; everything up to the
end of the code counts as code. -/
def placed : Setting where
  address := fun k => base + f.address k
  size := Emulator.memorySize.toNat
  codeSize := base.toNat + f.codeLength

/-- The program in an emulator that has just been set up. -/
def start : SourceState where
  line := 0
  x := Emulator.CPU.init.regFile
  mem := Emulator.imageByte f.image base

/-- A program that the assembler can handle. -/
structure Sound : Prop where
  foreseen : f.code.Foreseen
  encodable : f.Encodable
  distinct : (definedNames f.lines).Nodup

/-- The program can be run at `base`, which is a multiple of four; away from
zero its jumps and branches are to labels. -/
structure RunsAt : Prop where
  moves : f.code.Moves base
  aligned : base.toNat % 4 = 0
  fits : base.toNat + (f.codeLength + f.dataBytes.length) ≤ Emulator.memorySize.toNat

end Asm.SourceFile

/-- The files as the emulator opens them. -/
def streams (fs : FileSystem Text Byte) (name : Text) : Option Emulator.Stream :=
  (fs.openRead name).map .regular

/-- A command line for the assembler that names the file of a sound program. -/
structure Build (fs : FileSystem Text Byte) (argv : List Text) (f : SourceFile) (output : Text) :
    Prop where
  sound : f.Sound
  command : ∃ input bytes, operands Asm.debugFlag argv = [input, output] ∧ input ≠ output ∧
    fs.openRead input = some bytes ∧ f.Spells (textOf bytes)
  writable : fs.writable output = true
  readable : fs.readable output = true

/-- A command line for the emulator that runs a file at an address. -/
def Launches (argv : List Text) (file : Text) (base : Word) : Prop :=
  ∃ addresses, operands Emulator.debugFlag argv = file :: addresses ∧
    Emulator.lastAddress 0 addresses = base

/-- The lines in front of a run. -/
def opening (f : SourceFile) (base : Word) : List Emulator.Message :=
  [.initializing Emulator.stackBase Emulator.stackTop Emulator.stackSize,
    .loaded f.image.length base, .starting Emulator.stackTop base]

section Building

variable {fs : FileSystem Text Byte} {argv : List Text} {f : SourceFile} {output : Text}
  {base : Word}

theorem Build.succeeds (build : Build fs argv f output) (fine : f.RunsAt base) :
    ∃ message, Asm.main fs argv = some ⟨0, message, fs.put output f.image⟩ ∧
      Asm.Image f (f.placed base) base := by
  obtain ⟨input, bytes, command, different, found, spells⟩ := build.command
  obtain ⟨foreseen, encodable, distinct⟩ := build.sound
  have fits := fine.fits
  have addressable := Emulator.memorySize.isLt
  obtain ⟨result, assembled, _, written, placed⟩ :=
    SourceFile.assembled spells foreseen encodable distinct (.inr (by omega))
  have source : Asm.sourceRead input output bytes = textOf bytes := by
    rw [Asm.sourceRead, if_neg different]
  refine ⟨_, (Asm.main_succeeds_iff fs argv _ _).mpr
    ⟨input, output, bytes, result, command, found, build.writable, source ▸ assembled, rfl,
      congrArg (fs.put output) written.symm⟩, ?_⟩
  exact
    { placed
      moves := fine.moves
      aligned := fine.aligned
      address := rfl
      codeSize := rfl
      fits := by
        show base.toNat + f.codeLength ≤ Emulator.memorySize.toNat
        omega
      addressable }

/-- The emulator sets its machine up with that image. -/
theorem Build.launched (build : Build fs argv f output) (fine : f.RunsAt base)
    (length : f.codeBytes.length = f.codeLength) {σ : Type} (h : Host σ) (host : σ)
    {runArgv : List Text} (launches : Launches runArgv output base) :
    ∃ m : Machine σ, m.cpu.running = true ∧
      Asm.AgreesAt base (f.placed base) f.codeBytes (f.start base) m ∧
      Emulator.main h host (streams (fs.put output f.image)) runArgv =
        (Machine.runProgram h Emulator.maxSteps m).map fun (reports, code) =>
          (opening f base, reports, code) := by
  obtain ⟨addresses, command, last⟩ := launches
  have room : base.toNat + f.image.length ≤ Emulator.memorySize.toNat := by
    have fits := fine.fits
    rw [SourceFile.image, List.length_append, length]
    exact fits
  obtain ⟨m, booted⟩ : ∃ m, Emulator.boot host f.image base = some m := by
    simp only [Emulator.boot]
    rw [if_neg]
    · exact ⟨_, rfl⟩
    · show ¬ Emulator.memorySize.toNat < base.toNat + f.image.length
      omega
  obtain ⟨loaded, cpu, size, _⟩ := Machine.loaded_of_boot booted
  have pc : m.cpu.pc = base := by rw [cpu]
  have running : m.cpu.running = true := Machine.running_of_boot booted
  have data : m.mem.data = Emulator.imageByte f.image base :=
    funext (Machine.data_of_boot booted)
  have code : Machine.Loaded m.mem.data base f.codeBytes := by
    rw [pc] at loaded
    exact loaded.left
  refine ⟨m, running, ⟨running, ?_, code⟩, ?_⟩
  · have file : m.cpu.regFile = Emulator.CPU.init.regFile := by
      rw [cpu]
      rfl
    have first : (f.placed base).address 0 = base := by
      show base + f.address 0 = base
      rw [f.address_code (Nat.zero_le _)]
      exact BitVec.add_zero base
    show (⟨m.cpu.pc, m.cpu.regFile, m.mem.data, m.mem.size.toNat⟩ : Isa.State) =
      ⟨(f.placed base).address 0, _, _, _⟩
    rw [first, pc, file, data, size]
    rfl
  · have short : ∀ file addresses' program,
        operands Emulator.debugFlag runArgv = file :: addresses' →
          (fs.put output f.image).openRead file = some program →
            (Emulator.lastAddress 0 addresses').toNat + program.length < 2 ^ 63 := by
      intro file addresses' program command' found
      cases command.symm.trans command'
      cases (FileSystem.openRead_put_self build.readable).symm.trans found
      have addressable := Emulator.memorySize.isLt
      rw [last]
      omega
    have run := Emulator.main_eq_launch h host runArgv short
    rw [command] at run
    unfold streams
    rw [run, Emulator.launch, last]
    simp only [FileSystem.openRead_put_self build.readable, booted]
    rfl

/-- Assembled and run, a program whose run gets to its exit in time prints the
status it exits with, and the emulator returns it. -/
theorem toolchain_exits (build : Build fs argv f output) (fine : f.RunsAt base) {σ : Type}
    (h : Host σ) (host : σ) {runArgv : List Text} (launches : Launches runArgv output base)
    {states : List SourceState} (ran : Run (f.step (f.placed base)) (f.start base) states)
    (exits : f.Exits (states.getLastD (f.start base)))
    (short : f.executedWords (f.start base) states + 1 < Emulator.maxSteps) :
    ∃ message files, Asm.main fs argv = some ⟨0, message, files⟩ ∧
      Emulator.main h host (streams files) runArgv =
        some (opening f base,
          Machine.progressReports (f.executedWords (f.start base) states) ++
            [.exited ((states.getLastD (f.start base)).x.get Isa.a0)],
          (states.getLastD (f.start base)).x.get Isa.a0) := by
  obtain ⟨message, assembles, image⟩ := build.succeeds fine
  obtain ⟨m, running, agrees, launched⟩ :=
    build.launched fine image.placed.length h host launches
  obtain ⟨last, steps, agrees'⟩ := image.steps h agrees ran
  obtain ⟨m', stepped, code⟩ := image.exits h agrees' exits
  refine ⟨message, _, assembles, ?_⟩
  rw [launched, Machine.runProgram_of_exit running (by omega) ⟨last, steps, stepped⟩,
    Machine.limitReport_of_lt (by omega), code]
  rfl

/-- How an emulator with host states `σ` ends on a program that is never refused. -/
inductive SafeOutput (σ : Type) (f : SourceFile) (base : Word) :
    Option (List Emulator.Message × List Emulator.Report × Word) → Prop where
  | exit {s : SourceState} {n : Nat} {m : Machine σ} : n < Emulator.maxSteps →
      f.Reached (f.placed base) (f.start base) n s → f.Exits s →
        SafeOutput σ f base (some (opening f base, Machine.progressReports n ++
          .exited (s.x.get Isa.a0) :: Machine.limitReport Emulator.maxSteps (n + 1) m,
          s.x.get Isa.a0))
  | limit {m : Machine σ} :
      SafeOutput σ f base (some (opening f base,
        Machine.progressReports Emulator.maxSteps ++ [.limit Emulator.maxSteps, m.dumpRegisters],
        0))

/-- Assembled and run, a program that is never refused ends with an exit that
it gets to, whatever the host answers, or at the step limit; no step fails. -/
theorem toolchain_safe (build : Build fs argv f output) (fine : f.RunsAt base) {σ : Type}
    {h : Host σ} (bounded : h.Bounded) (host : σ) {runArgv : List Text}
    (launches : Launches runArgv output base) (safe : f.Safe (f.placed base) (f.start base)) :
    ∃ message files, Asm.main fs argv = some ⟨0, message, files⟩ ∧
      SafeOutput σ f base (Emulator.main h host (streams files) runArgv) := by
  obtain ⟨message, assembles, image⟩ := build.succeeds fine
  obtain ⟨m, running, agrees, launched⟩ :=
    build.launched fine image.placed.length h host launches
  refine ⟨message, _, assembles, ?_⟩
  rw [launched]
  cases image.safeEnd bounded safe Emulator.maxSteps .start agrees with
  | exit within reached exits ends code =>
      rw [Machine.runProgram_of_exit running within ends, code]
      rw [Nat.zero_add] at reached
      exact .exit within reached exits
  | exhausted steps =>
      rw [Machine.runProgram_of_steps running steps]
      exact .limit

end Building

section Instances

open Asm

def storedStatusBytes : List Byte := storedStatusSource.map fun c => BitVec.ofNat 8 c.toNat

theorem runsAt_storedStatus : storedStatus.RunsAt 0x100 where
  moves := by
    intro line member c statement target here
    simp only [storedStatus, List.mem_cons, List.not_mem_nil, or_false] at member
    rcases member with rfl | rfl | rfl | rfl
    all_goals
      cases statement
      cases here
  aligned := by decide
  fits := by decide

/-- The directory with its source. -/
def directory : FileSystem Text Byte := oneFile "a.s".toList storedStatusBytes

theorem build_storedStatus :
    Build directory ["a.s".toList, "a.bin".toList] storedStatus "a.bin".toList where
  sound := ⟨foreseen_storedStatus, encodable_storedStatus, by decide⟩
  command := ⟨"a.s".toList, storedStatusBytes, rfl, by decide, rfl, by
    have text : textOf storedStatusBytes = storedStatusSource := by decide
    rw [text]
    exact spells_storedStatus⟩
  writable := rfl
  readable := rfl

theorem launches_storedStatus :
    Launches ["a.bin".toList, "0x100".toList] "a.bin".toList 0x100 :=
  ⟨["0x100".toList], rfl, by decide⟩

theorem stored_status :
    Isa.LoadOp.lw.value (storedStatus.start 0x100).mem 0x114 = 7 := by
  decide +kernel

theorem toolchain_exits_stored :
    ∃ message files,
      Asm.main directory ["a.s".toList, "a.bin".toList] = some ⟨0, message, files⟩ ∧
      Emulator.main Host.inert () (streams files) ["a.bin".toList, "0x100".toList] =
        some (opening storedStatus 0x100, Machine.progressReports 4 ++ [.exited 7], 7) := by
  have ran : Run (storedStatus.step (storedStatus.placed 0x100)) (storedStatus.start 0x100) _ :=
    .cons rfl (.cons rfl (.cons rfl (.nil _)))
  obtain ⟨message, files, assembles, runs⟩ :=
    toolchain_exits build_storedStatus runsAt_storedStatus Host.inert () launches_storedStatus ran
      ⟨⟨_, rfl, rfl⟩, rfl⟩ (by decide)
  refine ⟨message, files, assembles, runs.trans ?_⟩
  exact congrArg (fun status => some (opening storedStatus 0x100,
    Machine.progressReports 4 ++ [.exited status], status)) stored_status

/-- Where the program can be, with the data that it gets its status from. -/
theorem reached_storedStatus {n : Nat} {s : SourceState}
    (reached : storedStatus.Reached (storedStatus.placed 0x100) (storedStatus.start 0x100) n s) :
    s.line = 0 ∨ s.line = 1 ∧ s.x.get 5 = 0x114 ∨ s.line = 2 ∨
      s.line = 3 ∧ s.x.get Isa.a7 = Isa.callExit := by
  induction reached with
  | start => exact .inl rfl
  | @next n s s' _ transition induction =>
      obtain ⟨line, x, mem⟩ := s
      rcases induction with first | ⟨second, _⟩ | third | ⟨last, number⟩
      · have first : line = 0 := first
        subst first
        cases transition with
        | line stepped =>
            cases stepped
            exact .inr (.inl ⟨rfl, rfl⟩)
        | call call =>
            obtain ⟨_, found, statement⟩ := call
            cases found
            cases statement
      · have second : line = 1 := second
        subst second
        cases transition with
        | line stepped =>
            obtain ⟨_, found, loaded⟩ := (storedStatus.step_eq_some_iff _).mp stepped
            cases found
            obtain ⟨_, loaded⟩ := Option.ite_none_right_eq_some.mp loaded
            cases loaded
            exact .inr (.inr (.inl rfl))
        | call call =>
            obtain ⟨_, found, statement⟩ := call
            cases found
            cases statement
      · have third : line = 2 := third
        subst third
        cases transition with
        | line stepped =>
            cases stepped
            exact .inr (.inr (.inr ⟨rfl, rfl⟩))
        | call call =>
            obtain ⟨_, found, statement⟩ := call
            cases found
            cases statement
      · have last : line = 3 := last
        subst last
        cases transition with
        | line stepped => cases stepped
        | call _ stays => exact absurd number stays

theorem safe_storedStatus :
    storedStatus.Safe (storedStatus.placed 0x100) (storedStatus.start 0x100) := by
  intro n s reached
  obtain ⟨line, x, mem⟩ := s
  rcases reached_storedStatus reached with first | ⟨second, base⟩ | third | ⟨last, number⟩
  · have first : line = 0 := first
    subst first
    exact .inl ⟨_, rfl⟩
  · have second : line = 1 := second
    have base : x.get 5 = 0x114 := base
    subst second
    have accessible : Isa.Accessible Emulator.memorySize.toNat 4 (x.get 5 + BitVec.ofInt 32 0) := by
      rw [base]
      decide
    exact .inl ⟨_, (storedStatus.step_eq_some_iff _).mpr ⟨_, rfl, if_pos accessible⟩⟩
  · have third : line = 2 := third
    subst third
    exact .inl ⟨_, rfl⟩
  · have last : line = 3 := last
    subst last
    exact .inr ⟨⟨_, rfl, rfl⟩, fun stays => absurd number stays⟩

theorem toolchain_safe_stored :
    ∃ message files,
      Asm.main directory ["a.s".toList, "a.bin".toList] = some ⟨0, message, files⟩ ∧
      SafeOutput Unit storedStatus 0x100
        (Emulator.main Host.inert () (streams files) ["a.bin".toList, "0x100".toList]) :=
  toolchain_safe build_storedStatus runsAt_storedStatus Machine.bounded_inert ()
    launches_storedStatus safe_storedStatus

end Instances

end RiscvPack
