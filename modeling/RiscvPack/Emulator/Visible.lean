import RiscvPack.Lib.Runs
import RiscvPack.Emulator.Frames
import RiscvPack.Emulator.SyscallResults

/-!
# What a run can see

Two emulators with the same processor, whose memories agree below their size
and whose hosts answer alike, run in lock step and end with the same report.
So nothing behind the end of guest memory, and nothing of the host but its
answers, ever shows.
-/

namespace RiscvPack.Emulator

open Transitions
open Isa (Accessible)
open Runs (Outcome)

variable {σ τ : Type}

/-- Hosts that answer alike in related states, and stay related. -/
structure Host.Alike (R : σ → τ → Prop) (h : Host σ) (g : Host τ) : Prop where
  write : ∀ fd bytes s t, R s t →
    (h.write fd bytes s).1 = (g.write fd bytes t).1 ∧
      R (h.write fd bytes s).2 (g.write fd bytes t).2
  read : ∀ fd count s t, R s t →
    (h.read fd count s).1 = (g.read fd count t).1 ∧
      (h.read fd count s).2.1 = (g.read fd count t).2.1 ∧
      R (h.read fd count s).2.2 (g.read fd count t).2.2
  openFile : ∀ path flags mode s t, R s t →
    (h.openFile path flags mode s).1 = (g.openFile path flags mode t).1 ∧
      R (h.openFile path flags mode s).2 (g.openFile path flags mode t).2
  close : ∀ fd s t, R s t →
    (h.close fd s).1 = (g.close fd t).1 ∧ R (h.close fd s).2 (g.close fd t).2
  fstat : ∀ fd s t, R s t →
    (h.fstat fd s).1 = (g.fstat fd t).1 ∧ (h.fstat fd s).2.1 = (g.fstat fd t).2.1 ∧
      R (h.fstat fd s).2.2 (g.fstat fd t).2.2
  statSize : h.statSize = g.statSize

/-- Memories of one size with the same bytes below it. -/
structure Memory.Agree (mem mem' : Memory) : Prop where
  size : mem.size = mem'.size
  bytes : ∀ a, a.toNat < mem.size.toNat → mem.data a = mem'.data a

namespace Memory.Agree

variable {mem mem' : Memory}

theorem put (agree : mem.Agree mem') (a : Word) (value : Byte) :
    (mem.put a value).Agree (mem'.put a value) where
  size := agree.size
  bytes := by
    intro b inside
    rw [put_data, put_data]
    by_cases same : b = a
    · subst same
      rw [Function.update_self, Function.update_self]
    · rw [Function.update_of_ne same, Function.update_of_ne same]
      exact agree.bytes b inside

theorem blit (agree : mem.Agree mem') (a : Word) (bytes : List Byte) :
    (mem.blit a bytes).Agree (mem'.blit a bytes) where
  size := agree.size
  bytes := by
    intro b inside
    unfold Memory.blit
    dsimp only
    split
    · rfl
    · exact agree.bytes b inside

theorem slice (agree : mem.Agree mem') {a : Word} {count : Nat}
    (inside : a.toNat + count ≤ mem.size.toNat) : mem.slice a count = mem'.slice a count := by
  unfold Memory.slice
  apply List.map_congr_left
  intro i member
  have below := List.mem_range.mp member
  have bound := mem.size.isLt
  apply agree.bytes
  rw [Bits.toNat_offset _ (by omega)]
  omega

theorem read8 (agree : mem.Agree mem') (a : Word) : mem.read8 a = mem'.read8 a := by
  unfold Memory.read8
  rw [← agree.size]
  split
  · rfl
  · rename_i inside
    rw [agree.bytes a (by rwa [BitVec.not_le] at inside)]

/-- A wide access finds the same bytes, as it stays inside the memory. -/
theorem data_of_accessible (agree : mem.Agree mem') {n : Width} {a : Word}
    (accessible : Accessible mem.size.toNat n.bytes a) {i : Nat} (within : i < n.bytes) :
    mem.data (a + BitVec.ofNat 32 i) = mem'.data (a + BitVec.ofNat 32 i) :=
  agree.bytes _ (Memory.index_lt_of_accessible accessible within)

theorem read16 (agree : mem.Agree mem') (holds : 4 ≤ mem.size.toNat) (a : Word) :
    mem.read16 a = mem'.read16 a := by
  have half : 2 ≤ mem.size.toNat := by omega
  by_cases accessible : Accessible mem.size.toNat 2 a
  · have zeroth := agree.data_of_accessible (n := .half) accessible (i := 0) (by decide)
    have first : mem.data (a + 1) = mem'.data (a + 1) :=
      agree.data_of_accessible (n := .half) accessible (i := 1) (by decide)
    rw [BitVec.add_zero] at zeroth
    rw [Memory.read16_of_accessible half accessible,
      Memory.read16_of_accessible (agree.size ▸ half) (agree.size ▸ accessible), zeroth, first]
  · rw [Memory.read16_of_not_accessible half accessible,
      Memory.read16_of_not_accessible (agree.size ▸ half) (agree.size ▸ accessible)]

theorem read32 (agree : mem.Agree mem') (holds : 4 ≤ mem.size.toNat) (a : Word) :
    mem.read32 a = mem'.read32 a := by
  by_cases accessible : Accessible mem.size.toNat 4 a
  · have zeroth := agree.data_of_accessible (n := .word) accessible (i := 0) (by decide)
    have first : mem.data (a + 1) = mem'.data (a + 1) :=
      agree.data_of_accessible (n := .word) accessible (i := 1) (by decide)
    have second : mem.data (a + 2) = mem'.data (a + 2) :=
      agree.data_of_accessible (n := .word) accessible (i := 2) (by decide)
    have third : mem.data (a + 3) = mem'.data (a + 3) :=
      agree.data_of_accessible (n := .word) accessible (i := 3) (by decide)
    rw [BitVec.add_zero] at zeroth
    rw [Memory.read32_of_accessible holds accessible,
      Memory.read32_of_accessible (agree.size ▸ holds) (agree.size ▸ accessible), zeroth, first,
      second, third]
  · rw [Memory.read32_of_not_accessible holds accessible,
      Memory.read32_of_not_accessible (agree.size ▸ holds) (agree.size ▸ accessible)]

theorem write8 (agree : mem.Agree mem') (a : Word) (value : Byte) :
    Outcome.Paired Memory.Agree (mem.write8 a value) (mem'.write8 a value) := by
  unfold Memory.write8
  rw [← agree.size]
  split
  · exact .stopped _ agree
  · exact .done (agree.put a value)

theorem write16 (agree : mem.Agree mem') (a : Word) (value : BitVec 16) :
    Outcome.Paired Memory.Agree (mem.write16 a value) (mem'.write16 a value) := by
  unfold Memory.write16
  rw [← agree.size]
  split
  · exact .stopped _ agree
  split
  · exact .stopped _ agree
  · exact .done ((agree.put _ _).put _ _)

theorem write32 (agree : mem.Agree mem') (a value : Word) :
    Outcome.Paired Memory.Agree (mem.write32 a value) (mem'.write32 a value) := by
  unfold Memory.write32
  rw [← agree.size]
  split
  · exact .stopped _ agree
  split
  · exact .stopped _ agree
  · exact .done ((((agree.put _ _).put _ _).put _ _).put _ _)

theorem scanPath (agree : mem.Agree mem') (a : Word) (room i : Nat) :
    Machine.scanPath mem a room i = Machine.scanPath mem' a room i := by
  induction room generalizing i with
  | zero => rfl
  | succ room induction =>
      unfold Machine.scanPath
      dsimp only
      rw [← agree.size]
      split
      · rfl
      · rename_i inside
        rw [BitVec.not_le] at inside
        rw [agree.bytes _ inside, induction]

end Memory.Agree

namespace CPU

variable {mem mem' : Memory} (cpu : CPU) (instr : Instruction)

theorem fetch_agree (agree : mem.Agree mem') (holds : 4 ≤ mem.size.toNat) :
    cpu.fetch mem = cpu.fetch mem' := by
  unfold fetch
  rw [agree.read32 holds]

theorem executeLoad_agree (agree : mem.Agree mem') (holds : 4 ≤ mem.size.toNat) :
    cpu.executeLoad mem instr = cpu.executeLoad mem' instr := by
  unfold executeLoad
  simp only [agree.read8, agree.read16 holds, agree.read32 holds]

theorem executeStore_agree (agree : mem.Agree mem') :
    Outcome.Paired Memory.Agree (cpu.executeStore mem instr)
      (cpu.executeStore mem' instr) := by
  unfold executeStore
  dsimp only
  generalize cpu.regRead instr.rs1 + instr.imm = addr
  generalize cpu.regRead instr.rs2 = value
  split
  · exact (agree.write8 addr _).casesOn (fun agree => .done agree) fun _ agree => .stopped _ agree
  · exact (agree.write16 addr _).casesOn (fun agree => .done agree) fun _ agree => .stopped _ agree
  · exact (agree.write32 addr _).casesOn (fun agree => .done agree) fun _ agree => .stopped _ agree
  · exact .stopped _ agree

end CPU

namespace Machine

/-- Emulators that a run cannot tell apart. -/
structure Alike (R : σ → τ → Prop) (m : Machine σ) (m' : Machine τ) : Prop where
  cpu : m.cpu = m'.cpu
  mem : m.mem.Agree m'.mem
  host : R m.host m'.host

variable {R : σ → τ → Prop} {h : Host σ} {g : Host τ} {m : Machine σ} {m' : Machine τ}

theorem Alike.setCpu (alike : Alike R m m') (cpu : CPU) :
    Alike R { m with cpu } { m' with cpu } :=
  ⟨rfl, alike.mem, alike.host⟩

theorem alike_setA0 (cpu : CPU) {mem mem' : Memory} {s : σ} {t : τ} {value value' : Word}
    (agree : mem.Agree mem') (related : R s t) (same : value = value') :
    Alike R (setA0 ⟨cpu, mem, s⟩ value) (setA0 ⟨cpu, mem', t⟩ value') := by
  subst same
  exact ⟨rfl, agree, related⟩

theorem handleSyscall_alike (answers : Host.Alike R h g) (alike : Alike R m m') :
    (m.handleSyscall h).1 = (m'.handleSyscall g).1 ∧
      Alike R (m.handleSyscall h).2 (m'.handleSyscall g).2 := by
  obtain ⟨cpu, mem, host⟩ := m
  obtain ⟨cpu', mem', host'⟩ := m'
  obtain ⟨same, agree, related⟩ := alike
  dsimp only at same agree related
  subst same
  apply systemCalls_cases (cpu.x 17)
  · intro call
    rw [handleSyscall_exit h call, handleSyscall_exit g call]
    exact ⟨rfl, rfl, agree, related⟩
  · intro call
    rw [handleSyscall_write h call, handleSyscall_write g call]
    dsimp only
    rw [← agree.size]
    split
    · exact ⟨rfl, alike_setA0 cpu agree related rfl⟩
    · rename_i inside
      rw [← agree.slice (Nat.le_of_not_lt inside)]
      obtain ⟨result, next⟩ := answers.write (cpu.x 10)
        (mem.slice (cpu.x 11) (cpu.x 12).toNat) host host' related
      exact ⟨rfl, alike_setA0 cpu agree next result⟩
  · intro call
    rw [handleSyscall_read h call, handleSyscall_read g call]
    dsimp only
    rw [← agree.size]
    split
    · exact ⟨rfl, alike_setA0 cpu agree related rfl⟩
    · obtain ⟨result, bytes, next⟩ := answers.read (cpu.x 10) (cpu.x 12).toNat host host' related
      refine ⟨rfl, alike_setA0 cpu ?_ next result⟩
      rw [bytes]
      exact agree.blit _ _
  · intro call
    rw [handleSyscall_openat h call, handleSyscall_openat g call]
    dsimp only
    rw [← agree.scanPath]
    obtain ⟨result, next⟩ := answers.openFile
      (scanPath mem (cpu.x 11) (pathCapacity - 1) 0) (cpu.x 12) (cpu.x 12) host host' related
    exact ⟨rfl, alike_setA0 cpu agree next result⟩
  · intro call
    rw [handleSyscall_close h call, handleSyscall_close g call]
    obtain ⟨result, next⟩ := answers.close (cpu.x 10) host host' related
    exact ⟨rfl, alike_setA0 cpu agree next result⟩
  · intro call
    rw [handleSyscall_brk h call, handleSyscall_brk g call]
    exact ⟨rfl, alike_setA0 cpu agree related rfl⟩
  · intro call
    rw [handleSyscall_fstat h call, handleSyscall_fstat g call]
    obtain ⟨result, bytes, next⟩ := answers.fstat (cpu.x 10) host host' related
    refine ⟨rfl, alike_setA0 cpu ?_ next result⟩
    unfold statBytes
    dsimp only
    rw [← agree.size, ← answers.statSize, ← result, ← bytes]
    split
    · exact agree.blit _ _
    · exact agree
  · intro unknown
    rw [handleSyscall_other h unknown, handleSyscall_other g unknown]
    exact ⟨rfl, alike_setA0 cpu agree related rfl⟩

theorem executeSystem_alike (answers : Host.Alike R h g) (alike : Alike R m m')
    (instr : Instruction) :
    Transitions.Alike (Alike R) (some (m.executeSystem h instr))
      (some (m'.executeSystem g instr)) := by
  unfold executeSystem
  split
  · obtain ⟨status, next⟩ := handleSyscall_alike answers alike
    generalize m.handleSyscall h = x at status next ⊢
    generalize m'.handleSyscall g = y at status next ⊢
    obtain ⟨label, final⟩ := x
    obtain ⟨label', final'⟩ := y
    dsimp only at status
    subst status
    exact .some _ next
  · split
    · exact .some _ alike
    · exact .some _ alike

/-- One case for each format, as `CPU::execute` has them. -/
theorem execute_alike (answers : Host.Alike R h g) (holds : 4 ≤ m.mem.size.toNat)
    (alike : Alike R m m') (instr : Instruction) :
    Transitions.Alike (Alike R) (execute h m instr) (execute g m' instr) := by
  obtain ⟨cpu, mem, host⟩ := m
  obtain ⟨cpu', mem', host'⟩ := m'
  obtain ⟨same, agree, related⟩ := alike
  dsimp only at same agree related holds
  subst same
  have updated (next : CPU) (status : CpuStatus) :
      Transitions.Alike (Alike R) (some (status, ⟨next, mem, host⟩))
        (some (status, ⟨next, mem', host'⟩)) :=
    .some status ⟨rfl, agree, related⟩
  unfold execute
  dsimp only
  cases instr.format with
  | rType =>
      dsimp only
      split
      · cases CPU.executeMulDiv (cpu.regRead instr.rs1) (cpu.regRead instr.rs2) instr.funct3 with
        | none => exact .none
        | some result => exact updated _ _
      · exact updated _ _
  | iType =>
      dsimp only
      split
      · rw [← cpu.executeLoad_agree instr agree holds]
        cases cpu.executeLoad mem instr with
        | error status => exact updated _ _
        | ok result => exact updated _ _
      · exact updated _ _
      · exact updated _ _
      · exact executeSystem_alike answers ⟨rfl, agree, related⟩ instr
      · exact updated _ _
  | sType =>
      have stored := cpu.executeStore_agree instr agree
      dsimp only
      generalize cpu.executeStore mem instr = x at stored ⊢
      generalize cpu.executeStore mem' instr = y at stored ⊢
      cases stored with
      | done agree' => exact .some _ ⟨rfl, agree', related⟩
      | stopped status agree' => exact .some _ ⟨rfl, agree', related⟩
  | bType =>
      dsimp only
      cases cpu.executeBranch instr with
      | error status => exact updated _ _
      | ok next => exact updated _ _
  | uType =>
      dsimp only
      split
      · exact updated _ _
      · exact updated _ _
      · exact updated _ _
  | jType => exact updated _ _

theorem step_alike (answers : Host.Alike R h g) (holds : 4 ≤ m.mem.size.toNat)
    (alike : Alike R m m') : Transitions.Alike (Alike R) (step h m) (step g m') := by
  unfold step
  rw [← alike.cpu, ← m.cpu.fetch_agree alike.mem holds]
  split
  · exact .some _ alike
  · cases m.cpu.fetch m.mem with
    | error status => exact .some _ alike
    | ok fetched =>
        obtain ⟨cpu, word⟩ := fetched
        dsimp only
        cases Instruction.decode word with
        | none => exact .some _ (alike.setCpu cpu)
        | some instr =>
            exact execute_alike (m := { m with cpu }) answers holds (alike.setCpu cpu) instr

/-- What two loops leave behind, up to what cannot be seen. -/
structure SameEnd (R : σ → τ → Prop) (ended : LoopEnd σ) (ended' : LoopEnd τ) : Prop where
  reports : ended.reports = ended'.reports
  exitCode : ended.exitCode = ended'.exitCode
  stepCount : ended.stepCount = ended'.stepCount
  machine : Alike R ended.machine ended'.machine

theorem dumpRegisters_alike (alike : Alike R m m') : m.dumpRegisters = m'.dumpRegisters := by
  unfold dumpRegisters
  rw [alike.cpu]

/-- The loops take the same branch at every turn. -/
theorem runLoop_alike (answers : Host.Alike R h g) (room stepCount : Nat)
    (holds : 4 ≤ m.mem.size.toNat) (alike : Alike R m m') :
    Option.Rel (SameEnd R) (runLoop h room stepCount m) (runLoop g room stepCount m') := by
  induction room generalizing stepCount m m' with
  | zero => exact .some ⟨rfl, rfl, rfl, alike⟩
  | succ room induction =>
      unfold runLoop
      rw [← alike.cpu]
      split
      · exact .some ⟨rfl, rfl, rfl, alike⟩
      · have answer := step_alike answers holds alike
        cases stepped : step h m with
        | none =>
            rw [stepped] at answer
            generalize step g m' = y at answer ⊢
            cases answer with
            | none => exact .none
        | some result =>
            obtain ⟨status, next⟩ := result
            rw [stepped] at answer
            generalize step g m' = y at answer ⊢
            cases answer with
            | @some _ next' _ related =>
                dsimp only
                rw [← related.cpu, ← dumpRegisters_alike related]
                split
                · exact .some ⟨rfl, rfl, rfl, related⟩
                split
                · exact .some ⟨rfl, rfl, rfl, related⟩
                · rename_i continues
                  rw [not_not] at continues
                  subst continues
                  have size := step_size holds stepped
                  have rest := induction (stepCount + 1) (by rw [size]; exact holds) related
                  generalize runLoop h room (stepCount + 1) next = x at rest ⊢
                  generalize runLoop g room (stepCount + 1) next' = y at rest ⊢
                  cases rest with
                  | none => exact .none
                  | some same =>
                      exact .some ⟨congrArg (progress (stepCount + 1) ++ ·) same.reports,
                        same.exitCode, same.stepCount, same.machine⟩

/-- What `main` prints and returns depends on the guest memory below its size
and on what the host answers, and on nothing else. -/
theorem runProgram_visible (answers : Host.Alike R h g) (limit : Nat)
    (holds : 4 ≤ m.mem.size.toNat) (alike : Alike R m m') :
    runProgram h limit m = runProgram g limit m' := by
  have same := runLoop_alike answers limit 0 holds alike
  unfold runProgram
  generalize runLoop h limit 0 m = x at same ⊢
  generalize runLoop g limit 0 m' = y at same ⊢
  cases same with
  | none => rfl
  | some same =>
      simp only [Option.map_some, same.reports, same.exitCode, same.stepCount,
        dumpRegisters_alike same.machine]

theorem alike_logged (h : Host σ) : Host.Alike (fun s t => s = t.1) h h.logged where
  write := by
    rintro fd bytes s t rfl
    exact ⟨rfl, rfl⟩
  read := by
    rintro fd count s t rfl
    exact ⟨rfl, rfl, rfl⟩
  openFile := by
    rintro path flags mode s t rfl
    exact ⟨rfl, rfl⟩
  close := by
    rintro fd s t rfl
    exact ⟨rfl, rfl⟩
  fstat := by
    rintro fd s t rfl
    exact ⟨rfl, rfl, rfl⟩
  statSize := rfl

/-- An `ecall` in a memory of four bytes, on two hosts and with different bytes
behind the end. -/
theorem runProgram_visible_ecall :
    runProgram Host.inert maxSteps (ofWord 0x00000073) =
      runProgram Host.inert.logged maxSteps
        { cpu := CPU.init
          mem :=
            { size := 4
              data := fun a =>
                if a.toNat < 4 then (0x00000073 : Word).extractLsb' (8 * a.toNat) 8 else 0xFF }
          host := ((), []) } := by
  apply runProgram_visible (alike_logged Host.inert) maxSteps (by decide)
  refine ⟨rfl, ⟨rfl, fun a inside => ?_⟩, rfl⟩
  exact (if_pos inside).symm

end Machine

end RiscvPack.Emulator
