import RiscvPack.Isa.Environment
import RiscvPack.Emulator.Division
import RiscvPack.Emulator.Frames
import RiscvPack.Emulator.IllegalWords
import RiscvPack.Emulator.StepLimit

/-!
# Whole runs refine the reference machine

Step by step the processor does what the reference machine does, with a system
call as a call of its environment.  So what `main` reports is a run of the
reference machine, up to the first word that is no instruction; most such words
are reported as a failure too, and the others run as some operation.
-/

namespace RiscvPack.Emulator

open Isa (Accessible)

/-- The status of a step from where the reference machine goes no further. -/
def statusOf : Isa.Cause → CpuStatus
  | .exit _ => .syscallExit
  | .misalignedFetch => .fetchMisaligned
  | .fetchOutside => .fetchOutOfBounds
  | .dataAccess => .executionError

namespace Machine

variable {σ : Type} {h : Host σ} {m m' : Machine σ}

theorem regRead_of_ne_zero (cpu : CPU) {r : Reg} (nonzero : r ≠ 0) : cpu.regRead r = cpu.x r :=
  if_neg nonzero

/-- A system call that comes back is one the environment has answered. -/
theorem serviced_handleSyscall (bounded : h.Bounded) (m : Machine σ) :
    Isa.Serviced m.arch (m.advance.handleSyscall h).2.arch := by
  have contained := contained_handleSyscall bounded m.advance
  refine ⟨contained.pc, congrArg BitVec.toNat contained.size, fun r other => ?_,
    fun b changed => ?_⟩
  · show (m.advance.handleSyscall h).2.cpu.regRead r = m.cpu.regRead r
    unfold CPU.regRead
    rw [contained.registers r other]
    rfl
  · refine ⟨handleSyscall_changed (m := m.advance) bounded changed, ?_⟩
    by_contra outside
    exact changed (contained.bytes b outside)

/-- What a step is for the reference machine. -/
inductive StepFollows (h : Host σ) (m : Machine σ) : Prop where
  | transition {m' : Machine σ} :
      step h m = some (.ok, m') → Isa.Transition m.arch m'.arch → StepFollows h m
  | halted (cause : Isa.Cause) {m' : Machine σ} :
      step h m = some (statusOf cause, m') → Isa.Halted m.arch cause →
      m'.arch.x = m.arch.x → StepFollows h m
  | overflow {i : Isa.Instr} : step h m = none →
      Isa.decode m.fetched = some i → Isa.DivOverflow m.arch i → StepFollows h m
  | illegal : Accessible m.mem.size.toNat 4 m.cpu.pc → Isa.decode m.fetched = none →
      (¬ Unchecked m.fetched → Refuses h m) → StepFollows h m

theorem step_of_overflow (h : Host σ) (ready : m.Fetchable) {i : Isa.Instr}
    (legal : Isa.decode m.fetched = some i) (overflow : Isa.DivOverflow m.arch i) :
    step h m = none := by
  unfold Isa.DivOverflow at overflow
  split at overflow
  · exact step_undefined h ready legal (.inl rfl) (fun defined => defined overflow)
  · exact step_undefined h ready legal (.inr rfl) (fun defined => defined overflow)
  · exact overflow.elim

theorem step_follows_unfetched (h : Host σ) (running : m.cpu.running = true)
    (holds : 4 ≤ m.mem.size.toNat) (refused : ¬ Accessible m.mem.size.toNat 4 m.cpu.pc) :
    StepFollows h m := by
  have stepped (status : CpuStatus) (fetched : m.cpu.fetch m.mem = .error status) :
      step h m = some (status, m) := by
    rw [step, if_neg (not_not.mpr running), fetched]
  by_cases aligned : m.cpu.pc.toNat % 4 = 0
  · refine .halted .fetchOutside (stepped _ ?_)
      (.fetchOutside aligned fun inside => refused ⟨aligned, inside⟩) rfl
    rw [CPU.fetch, Memory.read32_of_not_accessible holds refused,
      if_neg (fun misaligned => misaligned aligned)]
    rfl
  · refine .halted .misalignedFetch (stepped _ ?_) (.misalignedFetch aligned) rfl
    rw [CPU.fetch, Memory.read32_of_not_accessible holds refused, if_pos aligned]
    rfl

theorem handleSyscall_continues (h : Host σ) (stays : m.cpu.x 17 ≠ sysExit) :
    (m.handleSyscall h).1 = .ok := by
  unfold handleSyscall
  dsimp only
  rw [if_neg stays]
  repeat' split
  all_goals rfl

theorem step_follows_ecall (bounded : h.Bounded) (ready : m.Fetchable)
    (legal : Isa.decode m.fetched = some .ecall) : StepFollows h m := by
  have stepped := step_ecall h ready legal
  have number : m.arch.x.get Isa.a7 = m.advance.cpu.x 17 :=
    regRead_of_ne_zero m.cpu (r := 17) (by decide)
  by_cases exits : m.advance.cpu.x 17 = sysExit
  · rw [handleSyscall_exit h exits] at stepped
    exact .halted (.exit _) stepped (.exit ready.accessible legal (number.trans exits)) rfl
  · have continued : step h m = some (.ok, (m.advance.handleSyscall h).2) := by
      rw [stepped, ← handleSyscall_continues h exits]
    refine .transition continued
      (.call ready.accessible legal ?_ (serviced_handleSyscall bounded m))
    rw [number]
    exact exits

/-- Every step is a transition of the reference machine, its end, a division
that overflows, or the fetch of an illegal word. -/
theorem step_follows (bounded : h.Bounded) (running : m.cpu.running = true)
    (holds : 4 ≤ m.mem.size.toNat) : StepFollows h m := by
  by_cases accessible : Accessible m.mem.size.toNat 4 m.cpu.pc
  · have ready : m.Fetchable := ⟨running, holds, accessible⟩
    cases legal : Isa.decode m.fetched with
    | none =>
        have illegal : ¬ Isa.Legal m.fetched := by
          unfold Isa.Legal
          rw [legal]
          exact Bool.false_ne_true
        exact .illegal accessible legal
          (refuses_iff_not_unchecked h m _ _ running ready.fetch illegal).mpr
    | some i =>
        by_cases call : i = .ecall
        · rw [call] at legal
          exact step_follows_ecall bounded ready legal
        by_cases overflow : Isa.DivOverflow m.arch i
        · exact .overflow (step_of_overflow h ready legal overflow) legal overflow
        cases effect : Isa.exec m.arch i with
        | none =>
            exact .halted .dataAccess (step_executionError h ready legal call effect)
              (.dataAccess accessible legal call effect) rfl
        | some s =>
            obtain ⟨m', stepped, reaches⟩ := step_ok h ready legal overflow effect
            refine .transition stepped (.exec accessible legal ?_)
            rw [reaches.arch]
            exact effect
  · exact step_follows_unfetched h running holds accessible

/-- What `main` reports when the reference machine has followed it for `n`
steps, to `last`. -/
inductive Agreed (h : Host σ) (m : Machine σ) (limit n : Nat) (last : Machine σ) : Prop where
  | limit : n = limit →
      runProgram h limit m =
        some (progressReports limit ++ [.limit limit, last.dumpRegisters], 0) →
      Agreed h m limit n last
  | exit {code : Word} {m' : Machine σ} : n < limit → Isa.Halted last.arch (.exit code) →
      runProgram h limit m =
        some (progressReports n ++ .exited code :: limitReport limit (n + 1) m', code) →
      Agreed h m limit n last
  | fault {cause : Isa.Cause} {m' : Machine σ} : n < limit → Isa.Halted last.arch cause →
      m'.arch.x = last.arch.x → (statusOf cause).Failed →
      runProgram h limit m =
        some (progressReports n ++ .stopped (n + 1) (statusOf cause) :: m'.dumpRegisters ::
          limitReport limit (n + 1) m', 0) →
      Agreed h m limit n last
  | overflow {i : Isa.Instr} : n < limit → Isa.decode last.arch.word = some i →
      Isa.DivOverflow last.arch i → runProgram h limit m = none → Agreed h m limit n last
  /-- A word that is no instruction, and whose opcode is one of the checked. -/
  | refused {status : CpuStatus} {m' : Machine σ} : n < limit →
      Accessible last.mem.size.toNat 4 last.cpu.pc → Isa.decode last.arch.word = none →
      ¬ Unchecked last.arch.word → status = .decodeError ∨ status = .illegalInstruction →
      m'.arch.x = last.arch.x →
      runProgram h limit m =
        some (progressReports n ++ .stopped (n + 1) status :: m'.dumpRegisters ::
          limitReport limit (n + 1) m', 0) →
      Agreed h m limit n last
  /-- The run goes on where the reference machine has no meaning for it. -/
  | unchecked : n < limit → Accessible last.mem.size.toNat 4 last.cpu.pc →
      Isa.decode last.arch.word = none → Unchecked last.arch.word →
      (∀ reports code, runProgram h limit m = some (reports, code) →
        progressReports n <+: reports) →
      Agreed h m limit n last

theorem code_of_exit {code : Word} (halted : Isa.Halted m.arch (.exit code))
    (same : m'.arch.x = m.arch.x) : m'.cpu.regRead 10 = code := by
  cases halted
  exact congrArg (fun x => x.get Isa.a0) same

theorem failed_of_fault {cause : Isa.Cause} (fault : ∀ code, cause ≠ .exit code) :
    (statusOf cause).Failed := by
  cases cause with
  | exit code => exact absurd rfl (fault code)
  | misalignedFetch | fetchOutside | dataAccess => exact ⟨by decide, by decide⟩

/-- From a state the run has reached, with some steps left. -/
theorem agreed_from (bounded : h.Bounded) (running : m.cpu.running = true)
    (holds : 4 ≤ m.mem.size.toNat) (room : Nat) {n : Nat} {last : Machine σ}
    (steps : Steps h n m last) (trace : Isa.Trace n m.arch last.arch) :
    ∃ k last', Steps h k m last' ∧ Isa.Trace k m.arch last'.arch ∧
      Agreed h m (n + room) k last' := by
  induction room generalizing n last with
  | zero =>
      exact ⟨n, last, steps, trace, .limit rfl (runProgram_of_steps running steps)⟩
  | succ room induction =>
      have within : n < n + (room + 1) := by omega
      have size := (steps.keeps bounded holds).size
      have follows := step_follows bounded (steps.running running) (by rw [size]; exact holds)
      cases follows with
      | @transition m' stepped transition =>
          have further := steps.trans (.next stepped (.refl m'))
          have rest := induction further (trace.snoc transition)
          rwa [Nat.add_assoc, Nat.add_comm 1 room] at rest
      | @halted cause m' stepped halted registers =>
          refine ⟨n, last, steps, trace, ?_⟩
          have ends : EndsAt h m n (statusOf cause) m' := ⟨last, steps, stepped⟩
          by_cases exits : ∃ code, cause = .exit code
          · obtain ⟨code, rfl⟩ := exits
            have printed := runProgram_of_exit running within ends
            rw [code_of_exit halted registers] at printed
            exact .exit within halted printed
          · have failed := failed_of_fault fun code same => exits ⟨code, same⟩
            exact .fault within halted registers failed
              (runProgram_of_failure running within failed ends)
      | overflow trapped legal overflow =>
          exact ⟨n, last, steps, trace, .overflow within legal overflow
            (runProgram_of_trap running within steps trapped)⟩
      | illegal accessible unknown refuses =>
          refine ⟨n, last, steps, trace, ?_⟩
          by_cases unchecked : Unchecked last.fetched
          · exact .unchecked within accessible unknown unchecked fun reports code printed =>
              reports_begin running steps (Nat.le_of_lt within) printed
          · obtain ⟨status, m', stepped, refusal, registers, _⟩ := refuses unchecked
            have failed : status.Failed := by
              rcases refusal with rfl | rfl
              · exact ⟨by decide, by decide⟩
              · exact ⟨by decide, by decide⟩
            have same : m'.arch.x = last.arch.x := by
              show m'.cpu.regFile = last.cpu.regFile
              unfold CPU.regFile CPU.regRead
              rw [registers]
            exact .refused within accessible unknown unchecked refusal same
              (runProgram_of_failure running within failed ⟨last, steps, stepped⟩)

/-- Whatever the program, the run of `main` is one of the reference machine, and
is reported as such: its exit code, its fault, or the step limit.  Only an
illegal word, or a division whose quotient overflows, takes it elsewhere. -/
theorem main_refines_reference (bounded : h.Bounded) (running : m.cpu.running = true)
    (holds : 4 ≤ m.mem.size.toNat) (limit : Nat) :
    ∃ n last, Steps h n m last ∧ Isa.Trace n m.arch last.arch ∧ Agreed h m limit n last := by
  have agreed := agreed_from bounded running holds limit (.refl m) (.refl m.arch)
  rwa [Nat.zero_add] at agreed

/-- A push and a pop, of which the push fails. -/
theorem main_refines_reference_pushPop :
    ∃ m, boot () (pushPop.flatMap Bits.leBytes) 0 = some m ∧
      ∃ n last, Steps Host.inert n m last ∧ Isa.Trace n m.arch last.arch ∧
        Agreed Host.inert m maxSteps n last := by
  obtain ⟨m, booted⟩ := boot_pushPop
  exact ⟨m, booted, main_refines_reference bounded_inert (running_of_boot booted)
    (holds_of_boot booted) maxSteps⟩

end Machine

end RiscvPack.Emulator
