import RiscvPack.Emulator.IllegalWords
import RiscvPack.Emulator.MemoryBounds
import RiscvPack.Emulator.Run
import RiscvPack.Emulator.Syscalls

/-!
# Steps that fail

What a step with an error status leaves behind.  Every error exit comes before
any register or memory write; only the program counter may have moved, past
the failing instruction when its word had already been fetched.
-/

namespace RiscvPack.Emulator

/-- Neither `CPU_OK` nor `CPU_SYSCALL_EXIT`. -/
def CpuStatus.Failed (status : CpuStatus) : Prop :=
  status ≠ .ok ∧ status ≠ .syscallExit

/-- The three statuses of a failed fetch. -/
def CpuStatus.OfFetch (status : CpuStatus) : Prop :=
  status = .fetchError ∨ status = .fetchMisaligned ∨ status = .fetchOutOfBounds

/-- The two statuses of a failed execution. -/
def CpuStatus.OfExecution (status : CpuStatus) : Prop :=
  status = .executionError ∨ status = .illegalInstruction

namespace CPU

theorem fetch_error {cpu : CPU} {mem : Memory} {status : CpuStatus}
    (failed : cpu.fetch mem = .error status) :
    status.OfFetch ∧ ¬ mem.Passes .word cpu.pc := by
  have refused : ¬ mem.Passes .word cpu.pc := by
    intro passes
    obtain ⟨value, read⟩ := Memory.read_ok_iff.mpr passes
    have word : mem.read32 cpu.pc = .ok value := read
    rw [fetch, word] at failed
    cases failed
  refine ⟨?_, refused⟩
  unfold fetch at failed
  split at failed
  · cases failed
  · cases failed
    exact Or.inr (Or.inl rfl)
  · cases failed
    exact Or.inr (Or.inr rfl)
  · cases failed
    exact Or.inl rfl

theorem fetch_ok {cpu cpu' : CPU} {mem : Memory} {w : Word}
    (fetched : cpu.fetch mem = .ok (cpu', w)) :
    cpu' = { cpu with pc := cpu.pc + 4 } ∧ mem.Passes .word cpu.pc := by
  unfold fetch at fetched
  split at fetched
  · rename_i read
    cases fetched
    exact ⟨rfl, Memory.read_ok_iff.mp ⟨_, read⟩⟩
  · cases fetched
  · cases fetched
  · cases fetched

end CPU

namespace Machine

variable {σ : Type} {h : Host σ} {m m' : Machine σ} {status : CpuStatus}

theorem executeLoad_error {cpu : CPU} {mem : Memory} {instr : Instruction}
    (failed : cpu.executeLoad mem instr = .error status) : status.OfExecution := by
  unfold CPU.executeLoad at failed
  dsimp only at failed
  repeat' split at failed
  all_goals cases failed
  all_goals simp [CpuStatus.OfExecution]

theorem executeStore_error {cpu : CPU} {mem mem' : Memory} {instr : Instruction}
    (failed : cpu.executeStore mem instr = .stopped status mem') : status.OfExecution := by
  unfold CPU.executeStore at failed
  dsimp only at failed
  repeat' split at failed
  all_goals cases failed
  all_goals simp [CpuStatus.OfExecution]

theorem executeBranch_error {cpu : CPU} {instr : Instruction}
    (failed : cpu.executeBranch instr = .error status) : status.OfExecution := by
  unfold CPU.executeBranch at failed
  dsimp only at failed
  repeat' split at failed
  all_goals cases failed
  all_goals simp [CpuStatus.OfExecution]

theorem executeBranch_ok {cpu cpu' : CPU} {instr : Instruction}
    (branched : cpu.executeBranch instr = .ok cpu') : cpu'.running = cpu.running := by
  unfold CPU.executeBranch at branched
  dsimp only at branched
  repeat' split at branched
  all_goals cases branched
  all_goals rfl

theorem handleSyscall_running (h : Host σ) (m : Machine σ)
    (continues : (m.handleSyscall h).1 = .ok) :
    (m.handleSyscall h).2.cpu.running = m.cpu.running := by
  apply systemCalls_cases (m.cpu.x 17)
  · intro call
    rw [handleSyscall_exit h call] at continues
    cases continues
  · intro call
    rw [handleSyscall_write h call]
    split <;> rfl
  · intro call
    rw [handleSyscall_read h call]
    split <;> rfl
  · intro call
    rw [handleSyscall_openat h call]
    rfl
  · intro call
    rw [handleSyscall_close h call]
    rfl
  · intro call
    rw [handleSyscall_brk h call]
    rfl
  · intro call
    rw [handleSyscall_fstat h call]
    rfl
  · intro unknown
    rw [handleSyscall_other h unknown]
    rfl

/-- How an execution ends. -/
inductive Executed (m : Machine σ) : CpuStatus → Machine σ → Prop where
  | ok {m' : Machine σ} : m'.cpu.running = m.cpu.running → Executed m .ok m'
  | exit {m' : Machine σ} : Executed m .syscallExit m'
  | failed {status : CpuStatus} : status.OfExecution → Executed m status m

theorem executeSystem_executed (h : Host σ) (m : Machine σ) (instr : Instruction) :
    m.Executed (m.executeSystem h instr).1 (m.executeSystem h instr).2 := by
  unfold executeSystem
  split
  · have running := handleSyscall_running h m
    rcases handleSyscall_status h m with continues | exits
    · rw [continues]
      exact .ok (running continues)
    · rw [exits]
      exact .exit
  · split
    · exact .ok rfl
    · exact .failed (Or.inr rfl)

theorem executed_of_execute {instr : Instruction}
    (executed : execute h m instr = some (status, m')) : m.Executed status m' := by
  unfold execute at executed
  dsimp only at executed
  split at executed
  · split at executed
    · rw [Option.map_eq_some_iff] at executed
      obtain ⟨result, _, written⟩ := executed
      cases written
      exact .ok (CPU.regWrite_running ..)
    · cases executed
      exact .ok (CPU.regWrite_running ..)
  · split at executed
    · split at executed
      · rename_i failed
        cases executed
        exact .failed (executeLoad_error failed)
      · cases executed
        exact .ok (CPU.regWrite_running ..)
    · cases executed
      exact .ok (CPU.regWrite_running ..)
    · cases executed
      exact .ok (CPU.regWrite_running ..)
    · rw [Option.some.injEq] at executed
      have system := executeSystem_executed h m instr
      rwa [executed] at system
    · cases executed
      exact .failed (Or.inr rfl)
  · split at executed
    · rename_i failed
      cases executed
      rw [CPU.executeStore_refused failed]
      exact .failed (executeStore_error failed)
    · cases executed
      exact .ok rfl
  · split at executed
    · rename_i failed
      cases executed
      exact .failed (executeBranch_error failed)
    · rename_i branched
      cases executed
      exact .ok (executeBranch_ok branched)
  · split at executed
    · cases executed
      exact .ok (CPU.regWrite_running ..)
    · cases executed
      exact .ok (CPU.regWrite_running ..)
    · cases executed
      exact .failed (Or.inr rfl)
  · cases executed
    exact .ok (CPU.regWrite_running ..)

/-- How a step ends. -/
inductive Stepped (m : Machine σ) : CpuStatus → Machine σ → Prop where
  | halted : ¬ m.cpu.running → Stepped m .syscallExit m
  | unfetched {status : CpuStatus} :
      status.OfFetch → ¬ m.mem.Passes .word m.cpu.pc → Stepped m status m
  | undecoded : m.mem.Passes .word m.cpu.pc → Stepped m .decodeError m.advance
  | executed {status : CpuStatus} {m' : Machine σ} :
      m.mem.Passes .word m.cpu.pc → m.advance.Executed status m' → Stepped m status m'

theorem stepped_of_step (stepped : step h m = some (status, m')) : m.Stepped status m' := by
  unfold step at stepped
  split at stepped
  · rename_i halted
    cases stepped
    exact .halted halted
  · split at stepped
    · rename_i failed
      cases stepped
      obtain ⟨status, refused⟩ := CPU.fetch_error failed
      exact .unfetched status refused
    · rename_i fetched
      obtain ⟨rfl, passes⟩ := CPU.fetch_ok fetched
      split at stepped
      · cases stepped
        exact .undecoded passes
      · exact .executed passes (executed_of_execute stepped)

/-- What a failing step leaves behind. -/
structure LeftAlone (m : Machine σ) (status : CpuStatus) (m' : Machine σ) : Prop where
  registers : m'.cpu.x = m.cpu.x
  memory : m'.mem = m.mem
  running : m'.cpu.running = m.cpu.running
  fetch : status.OfFetch → m'.cpu.pc = m.cpu.pc
  later : status = .decodeError ∨ status.OfExecution → m'.cpu.pc = m.cpu.pc + 4

/-- A failing step changes no register and no memory byte, and moves the
program counter past the instruction once that has been fetched. -/
theorem step_leaves_alone (stepped : step h m = some (status, m')) (failed : status.Failed) :
    m.LeftAlone status m' := by
  cases stepped_of_step stepped with
  | halted _ => exact absurd rfl failed.2
  | unfetched ofFetch _ =>
      refine ⟨rfl, rfl, rfl, fun _ => rfl, ?_⟩
      rintro (rfl | rfl | rfl) <;> rcases ofFetch with other | other | other <;> cases other
  | undecoded _ =>
      refine ⟨rfl, rfl, rfl, ?_, fun _ => rfl⟩
      rintro (other | other | other) <;> cases other
  | executed _ ended =>
      cases ended with
      | ok _ => exact absurd rfl failed.1
      | exit => exact absurd rfl failed.2
      | failed ofExecution =>
          refine ⟨rfl, rfl, rfl, ?_, fun _ => rfl⟩
          rintro (rfl | rfl | rfl) <;> rcases ofExecution with other | other <;> cases other

/-- A word with an unknown opcode. -/
theorem step_leaves_alone_zero :
    (ofWord 0).LeftAlone .decodeError (ofWord 0).advance :=
  step_leaves_alone (h := Host.inert) rfl ⟨by decide, by decide⟩

/-- A run that ends with an error: `n` successful steps and a failing one,
which starts at `last`. -/
structure ErrorStop (h : Host σ) (m : Machine σ) (n : Nat) (last : Machine σ)
    (status : CpuStatus) (m' : Machine σ) : Prop where
  steps : Steps h n m last
  stepped : step h last = some (status, m')
  failed : status.Failed

/-- After an error the program counter denotes the failing instruction exactly
when that instruction could not be fetched. -/
theorem errorStop_pc_iff {n : Nat} {last : Machine σ}
    (stop : ErrorStop h m n last status m') :
    m'.cpu.pc = last.cpu.pc ↔ last.cpu.pc % 4 ≠ 0 ∨ last.mem.size - 4 < last.cpu.pc := by
  have moved : ¬ last.cpu.pc + 4 = last.cpu.pc := by
    intro same
    have none : (4 : Word) = 0 := BitVec.add_right_eq_self.mp same
    cases none
  have condition : (last.cpu.pc % 4 ≠ 0 ∨ last.mem.size - 4 < last.cpu.pc) ↔
      ¬ last.mem.Passes .word last.cpu.pc := by
    show _ ↔ ¬ (¬ _ ∧ ¬ _)
    rw [not_and_or, not_not, not_not]
  rw [condition]
  cases stepped_of_step stop.stepped with
  | halted _ => exact absurd rfl stop.failed.2
  | unfetched _ refused => exact iff_of_true rfl refused
  | undecoded passes => exact iff_of_false moved (not_not.mpr passes)
  | executed passes ended =>
      cases ended with
      | ok _ => exact absurd rfl stop.failed.1
      | exit => exact absurd rfl stop.failed.2
      | failed _ => exact iff_of_false moved (not_not.mpr passes)

theorem errorStop_zero :
    ErrorStop Host.inert (ofWord 0) 0 (ofWord 0) .decodeError (ofWord 0).advance where
  steps := .refl _
  stepped := rfl
  failed := ⟨by decide, by decide⟩

/-- After a single instruction the processor runs off the end of its memory. -/
theorem errorStop_pc_iff_end :
    ∃ last m', Steps Host.inert 1 (ofWord 0x00000013) last ∧ last.cpu.pc = 4 ∧
      step Host.inert last = some (.fetchOutOfBounds, m') ∧
      (m'.cpu.pc = last.cpu.pc ↔
        last.cpu.pc % 4 ≠ 0 ∨ last.mem.size - 4 < last.cpu.pc) := by
  have steps : Steps Host.inert 1 (ofWord 0x00000013) _ := .next rfl (.refl _)
  have stop := ErrorStop.mk steps rfl ⟨by decide, by decide⟩
  exact ⟨_, _, steps, by decide, rfl, errorStop_pc_iff stop⟩

/-- A word with an unknown opcode at address zero is reported at address
four. -/
theorem pc_after_unknown_opcode :
    ErrorStop Host.inert (ofWord 0) 0 (ofWord 0) .decodeError (ofWord 0).advance ∧
      (ofWord 0).advance.cpu.pc ≠ (ofWord 0).cpu.pc :=
  ⟨errorStop_zero, by decide⟩

end Machine

end RiscvPack.Emulator
