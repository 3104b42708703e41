import RiscvPack.Lib.Transitions
import RiscvPack.Emulator.MainLoop

/-!
# What a run changes

Everything a step that returns `CPU_OK` can do to the machine, in one relation.
From it follow the facts every run keeps, and that a byte of guest memory holds
what the last store or system call that covers it has put there.
-/

namespace RiscvPack.Emulator

open Transitions
open Isa (Accessible)

namespace Machine

variable {σ : Type} {h : Host σ} {m m' : Machine σ}

/-- A SYSTEM word that `execute_system` takes for an `ecall`. -/
def IsCall (instr : Instruction) : Prop :=
  instr.format = .iType ∧ instr.opcode = Isa.opSystem ∧ instr.imm &&& 0xFFF = 0x000

instance (instr : Instruction) : Decidable (IsCall instr) :=
  inferInstanceAs (Decidable (_ ∧ _))

/-- What the execution of an instruction leaves when it returns `CPU_OK`. -/
inductive Continued (h : Host σ) (m : Machine σ) (instr : Instruction) : Machine σ → Prop where
  | write (value : Word) :
      Continued h m instr { m.advance with cpu := m.advance.cpu.regWrite instr.rd value }
  | jal : instr.format = .jType →
      Continued h m instr { m.advance with
        cpu := { m.advance.cpu.regWrite instr.rd m.advance.cpu.pc with
          pc := m.cpu.pc + instr.imm } }
  | jalr (target : Word) :
      Continued h m instr { m.advance with
        cpu := { m.advance.cpu.regWrite instr.rd m.advance.cpu.pc with
          pc := target &&& ~~~1#32 } }
  | branch : instr.format = .bType →
      Continued h m instr { m.advance with
        cpu := { m.advance.cpu with pc := m.cpu.pc + instr.imm } }
  | next : Continued h m instr m.advance
  | store {mem : Memory} : instr.format = .sType →
      m.advance.cpu.executeStore m.mem instr = .done mem →
      Continued h m instr { m.advance with mem }
  | call : IsCall instr → (m.advance.handleSyscall h).1 = .ok →
      Continued h m instr (m.advance.handleSyscall h).2

theorem fetch_word {cpu : CPU} {w : Word} (fetched : m.cpu.fetch m.mem = .ok (cpu, w)) :
    w = m.fetched := by
  unfold CPU.fetch at fetched
  split at fetched
  · rename_i read
    cases fetched
    exact Memory.read32_value read
  · cases fetched
  · cases fetched
  · cases fetched

theorem step_ecall (h : Host σ) (ready : m.Fetchable)
    (legal : Isa.decode m.fetched = some .ecall) :
    step h m = some (m.advance.handleSyscall h) := by
  rw [step_of_fetchable h ready]
  cases Isa.decode_eq_some_iff.mp legal with
  | ecall word =>
      rw [word]
      rfl

theorem executeBranch_continued {instr : Instruction} {cpu : CPU}
    (format : instr.format = .bType) (branched : m.advance.cpu.executeBranch instr = .ok cpu) :
    Continued h m instr { m.advance with cpu } := by
  have target : m.cpu.pc + 4 + (instr.imm - 4) = m.cpu.pc + instr.imm := by ring
  have finish (taken : Bool)
      (result : .ok (if taken then
        { m.advance.cpu with pc := m.advance.cpu.pc + (instr.imm - 4) } else m.advance.cpu) =
          (.ok cpu : Except CpuStatus CPU)) : Continued h m instr { m.advance with cpu } := by
    cases taken with
    | true =>
        cases result
        have jumped : m.advance.cpu.pc + (instr.imm - 4) = m.cpu.pc + instr.imm := target
        simp only [if_true, jumped]
        exact .branch format
    | false =>
        cases result
        exact .next
  unfold CPU.executeBranch at branched
  dsimp only at branched
  split at branched
  · exact finish _ branched
  · exact finish _ branched
  · exact finish _ branched
  · exact finish _ branched
  · exact finish _ branched
  · exact finish _ branched
  · cases branched

theorem executeSystem_continued {instr : Instruction} (format : instr.format = .iType)
    (major : instr.opcode = Isa.opSystem)
    (executed : m.advance.executeSystem h instr = (.ok, m')) : Continued h m instr m' := by
  unfold executeSystem at executed
  split at executed
  · rename_i number
    have status : (m.advance.handleSyscall h).1 = .ok := by rw [executed]
    have result : (m.advance.handleSyscall h).2 = m' := by rw [executed]
    rw [← result]
    exact .call ⟨format, major, number⟩ status
  · split at executed
    · cases executed
      exact .next
    · cases executed

/-- One case for each format, as `CPU::execute` has them. -/
theorem execute_continued {instr : Instruction}
    (executed : execute h m.advance instr = some (.ok, m')) : Continued h m instr m' := by
  unfold execute at executed
  dsimp only at executed
  split at executed
  · split at executed
    · rw [Option.map_eq_some_iff] at executed
      obtain ⟨result, _, written⟩ := executed
      cases written
      exact .write _
    · cases executed
      exact .write _
  · rename_i format
    split at executed
    · split at executed
      · rename_i failed
        cases executed
        rcases executeLoad_error failed with other | other <;> cases other
      · cases executed
        exact .write _
    · cases executed
      exact .write _
    · cases executed
      exact .jalr _
    · rename_i major
      exact executeSystem_continued format major (Option.some.inj executed)
    · cases executed
  · rename_i format
    split at executed
    · rename_i failed
      cases executed
      rcases executeStore_error failed with other | other <;> cases other
    · rename_i stored
      cases executed
      exact .store format stored
  · rename_i format
    split at executed
    · rename_i failed
      cases executed
      rcases executeBranch_error failed with other | other <;> cases other
    · rename_i branched
      cases executed
      exact executeBranch_continued format branched
  · split at executed
    · cases executed
      exact .write _
    · cases executed
      exact .write _
    · cases executed
  · rename_i format
    cases executed
    have target : (m.advance.cpu.regWrite instr.rd m.advance.cpu.pc).pc + (instr.imm - 4) =
        m.cpu.pc + instr.imm := by
      rw [CPU.regWrite_pc]
      show m.cpu.pc + 4 + (instr.imm - 4) = m.cpu.pc + instr.imm
      ring
    rw [target]
    exact .jal format

/-- Everything a step that returns `CPU_OK` can do. -/
theorem step_continued (stepped : step h m = some (.ok, m')) :
    m.cpu.running = true ∧ m.mem.Passes .word m.cpu.pc ∧
      ∃ instr, Instruction.decode m.fetched = some instr ∧ Continued h m instr m' := by
  unfold step at stepped
  split at stepped
  · cases stepped
  · rename_i running
    rw [not_not] at running
    split at stepped
    · rename_i failed
      cases stepped
      obtain ⟨ofFetch, _⟩ := CPU.fetch_error failed
      rcases ofFetch with other | other | other <;> cases other
    · rename_i fetched
      obtain ⟨rfl, passes⟩ := CPU.fetch_ok fetched
      rw [fetch_word fetched] at stepped
      split at stepped
      · cases stepped
      · rename_i decoded
        exact ⟨running, passes, _, decoded, execute_continued stepped⟩

section Bytes

/-- The bytes that the step from here may write: those of a store, or the
buffer of a system call. -/
def Writes (m : Machine σ) (a : Word) : Prop :=
  ∃ instr, Instruction.decode m.fetched = some instr ∧
    ((instr.format = .sType ∧ ∃ op : Isa.StoreOp, instr.funct3 = op.funct3 ∧
        ∃ k < op.width, a = m.cpu.regRead instr.rs1 + instr.imm + BitVec.ofNat 32 k) ∨
      (IsCall instr ∧ m.Alterable a))

theorem executeStore_changed {cpu : CPU} {mem mem' : Memory} {instr : Instruction}
    (holds : 4 ≤ mem.size.toNat) (stored : cpu.executeStore mem instr = .done mem') :
    mem'.size = mem.size ∧ ∀ a, mem'.data a ≠ mem.data a → a.toNat < mem.size.toNat ∧
      ∃ op : Isa.StoreOp, instr.funct3 = op.funct3 ∧
        ∃ k < op.width, a = cpu.regRead instr.rs1 + instr.imm + BitVec.ofNat 32 k := by
  cases code : Isa.StoreOp.ofFunct instr.funct3 with
  | none =>
      rw [CPU.executeStore_reserved code] at stored
      cases stored
  | some op =>
      have known := Isa.StoreOp.ofFunct_eq_some code
      rw [CPU.executeStore_eq cpu mem instr op known holds] at stored
      split at stored
      · rename_i accessible
        cases stored
        refine ⟨rfl, fun a changed => ?_⟩
        have own : ∃ k < op.width, a = cpu.regRead instr.rs1 + instr.imm + BitVec.ofNat 32 k := by
          by_contra others
          apply changed
          apply Isa.StoreOp.write_of_not_mem
          intro k below same
          exact others ⟨k, below, same⟩
        refine ⟨?_, op, known, own⟩
        obtain ⟨k, below, rfl⟩ := own
        have inside := accessible.2
        have bound := mem.size.isLt
        rw [Bits.toNat_offset _ (by omega)]
        omega
      · cases stored

theorem handleSyscall_changed (bounded : h.Bounded) {a : Word}
    (changed : (m.handleSyscall h).2.mem.data a ≠ m.mem.data a) :
    a.toNat < m.mem.size.toNat := by
  have blitted {bytes : List Byte} {start : Word}
      (inside : start.toNat + bytes.length ≤ m.mem.size.toNat)
      (differs : (m.mem.blit start bytes).data a ≠ m.mem.data a) :
      a.toNat < m.mem.size.toNat := by
    by_contra outside
    apply differs
    apply Memory.blit_of_outside
    omega
  apply systemCalls_cases (m.cpu.x 17)
  · intro call
    rw [handleSyscall_exit h call] at changed
    exact absurd rfl changed
  · intro call
    rw [handleSyscall_write h call] at changed
    split at changed
    · exact absurd rfl changed
    · exact absurd rfl changed
  · intro call
    rw [handleSyscall_read h call] at changed
    split at changed
    · exact absurd rfl changed
    · have filled := bounded (m.cpu.x 10) (m.cpu.x 12).toNat m.host
      exact blitted (by omega) changed
  · intro call
    rw [handleSyscall_openat h call] at changed
    exact absurd rfl changed
  · intro call
    rw [handleSyscall_close h call] at changed
    exact absurd rfl changed
  · intro call
    rw [handleSyscall_brk h call] at changed
    exact absurd rfl changed
  · intro call
    rw [handleSyscall_fstat h call] at changed
    have changed : (if (h.fstat (m.cpu.x 10) m.host).1 = 0 ∧
        (m.cpu.x 11).toNat + h.statSize ≤ m.mem.size.toNat then
          m.mem.blit (m.cpu.x 11) (statBytes h m) else m.mem).data a ≠ m.mem.data a := changed
    split at changed
    · rename_i copies
      have taken : (statBytes h m).length ≤ h.statSize := by
        rw [statBytes, List.length_take]
        split <;> omega
      exact blitted (by omega) changed
    · exact absurd rfl changed
  · intro unknown
    rw [handleSyscall_other h unknown] at changed
    exact absurd rfl changed

/-- A byte that a step changes lies in the memory and is one it may write. -/
theorem step_changed (bounded : h.Bounded) (holds : 4 ≤ m.mem.size.toNat)
    (stepped : step h m = some (.ok, m')) {a : Word}
    (changed : m'.mem.data a ≠ m.mem.data a) : a.toNat < m.mem.size.toNat ∧ m.Writes a := by
  obtain ⟨_, _, instr, decoded, continued⟩ := step_continued stepped
  cases continued with
  | write | jal | jalr | branch | next => exact absurd rfl changed
  | store format stored =>
      obtain ⟨inside, own⟩ := (executeStore_changed holds stored).2 a changed
      exact ⟨inside, instr, decoded, .inl ⟨format, own⟩⟩
  | call calls _ =>
      refine ⟨handleSyscall_changed (m := m.advance) bounded changed, instr, decoded,
        .inr ⟨calls, ?_⟩⟩
      by_contra fixed
      exact changed ((contained_handleSyscall bounded m.advance).bytes a fixed)

end Bytes

section Kept

theorem handleSyscall_size (h : Host σ) (m : Machine σ) :
    (m.handleSyscall h).2.mem.size = m.mem.size := by
  apply systemCalls_cases (m.cpu.x 17)
  · intro call
    rw [handleSyscall_exit h call]
  · intro call
    rw [handleSyscall_write h call]
    split <;> rfl
  · intro call
    rw [handleSyscall_read h call]
    split <;> rfl
  · intro call
    rw [handleSyscall_openat h call]
    rfl
  · intro call
    rw [handleSyscall_close h call]
    rfl
  · intro call
    rw [handleSyscall_brk h call]
    rfl
  · intro call
    rw [handleSyscall_fstat h call]
    show (if _ then _ else m.mem).size = m.mem.size
    split <;> rfl
  · intro unknown
    rw [handleSyscall_other h unknown]
    rfl

theorem step_size (holds : 4 ≤ m.mem.size.toNat) (stepped : step h m = some (.ok, m')) :
    m'.mem.size = m.mem.size := by
  obtain ⟨_, _, instr, _, continued⟩ := step_continued stepped
  cases continued with
  | write | jal | jalr | branch | next => rfl
  | store _ stored => exact (executeStore_changed holds stored).1
  | call => exact handleSyscall_size h m.advance

/-- What every step keeps, and what it keeps of the hard-wired register and of
the program counter. -/
structure Keeps (m m' : Machine σ) : Prop where
  running : m'.cpu.running = m.cpu.running
  size : m'.mem.size = m.mem.size
  zero : m'.cpu.x 0 = m.cpu.x 0
  even : m.cpu.pc.toNat % 2 = 0 → m'.cpu.pc.toNat % 2 = 0

theorem regWrite_zero (cpu : CPU) (r : Reg) (value : Word) :
    (cpu.regWrite r value).x 0 = cpu.x 0 := by
  unfold CPU.regWrite
  split
  · rename_i nonzero
    exact Function.update_of_ne (Ne.symm nonzero) ..
  · rfl

theorem even_add {a b : Word} (first : a.toNat % 2 = 0) (second : b.toNat % 2 = 0) :
    (a + b).toNat % 2 = 0 := by
  rw [BitVec.toNat_add]
  omega

theorem even_of_lowBit {a : Word} (clear : a.getLsbD 0 = false) : a.toNat % 2 = 0 := by
  rw [BitVec.getLsbD, Nat.testBit_zero, decide_eq_false_iff_not] at clear
  omega

theorem even_offset {w : Word} {instr : Instruction} (decoded : Instruction.decode w = some instr)
    (format : instr.format = .bType ∨ instr.format = .jType) : instr.imm.toNat % 2 = 0 := by
  obtain ⟨kind, _, rfl⟩ := Instruction.format_of_decode decoded
  apply even_of_lowBit
  rcases format with rfl | rfl
  · show (Isa.immB w).getLsbD 0 = false
    rw [Isa.immB, BitVec.getLsbD_signExtend]
    simp only [BitVec.getLsbD_append]
    simp
  · show (Isa.immJ w).getLsbD 0 = false
    rw [Isa.immJ, BitVec.getLsbD_signExtend]
    simp only [BitVec.getLsbD_append]
    simp

theorem step_keeps (bounded : h.Bounded) (holds : 4 ≤ m.mem.size.toNat)
    (stepped : step h m = some (.ok, m')) : m.Keeps m' := by
  have running := step_ok_running stepped
  have size := step_size holds stepped
  obtain ⟨_, _, instr, decoded, continued⟩ := step_continued stepped
  have next (even : m.cpu.pc.toNat % 2 = 0) : m.advance.cpu.pc.toNat % 2 = 0 :=
    even_add even (by decide)
  cases continued with
  | write value =>
      refine ⟨running, size, regWrite_zero _ _ _, ?_⟩
      rw [CPU.regWrite_pc]
      exact next
  | jal format =>
      exact ⟨running, size, regWrite_zero _ _ _,
        fun even => even_add even (even_offset decoded (.inr format))⟩
  | jalr target =>
      refine ⟨running, size, regWrite_zero _ _ _, fun _ => ?_⟩
      apply even_of_lowBit
      show (target &&& ~~~1#32).getLsbD 0 = false
      simp
  | branch format =>
      exact ⟨running, size, rfl,
        fun even => even_add even (even_offset decoded (.inl format))⟩
  | next => exact ⟨running, size, rfl, next⟩
  | store format stored => exact ⟨running, size, rfl, next⟩
  | call calls _ =>
      have contained := contained_handleSyscall bounded m.advance
      refine ⟨running, size, contained.registers 0 (by decide), fun even => ?_⟩
      rw [contained.pc]
      exact next even

end Kept

section Runs

theorem steps_iff_path {n : Nat} : Steps h n m m' ↔ Path (step h) .ok n m m' := by
  constructor
  · intro steps
    induction steps with
    | refl m => exact .refl m
    | next stepped _ induction => exact .next stepped induction
  · intro path
    induction path with
    | refl m => exact .refl m
    | next stepped _ induction => exact .next stepped induction

variable {n : Nat} (bounded : h.Bounded) (holds : 4 ≤ m.mem.size.toNat)

include bounded holds

theorem Steps.keeps (steps : Steps h n m m') : m.Keeps m' := by
  refine (steps_iff_path.mp steps).invariant ?_ ⟨rfl, rfl, rfl, id⟩
  intro s t kept stepped
  have next := step_keeps bounded (by rw [kept.size]; exact holds) stepped
  exact ⟨next.running.trans kept.running, next.size.trans kept.size,
    next.zero.trans kept.zero, fun even => next.even (kept.even even)⟩

/-- A byte that a run changes lies in the memory, and holds what the last step
that wrote it has put there. -/
theorem Steps.last_writer (steps : Steps h n m m') {a : Word}
    (changed : m'.mem.data a ≠ m.mem.data a) :
    a.toNat < m.mem.size.toNat ∧ ∃ k before after, k < n ∧ Steps h k m before ∧
      step h before = some (.ok, after) ∧ Steps h (n - (k + 1)) after m' ∧ before.Writes a ∧
      after.mem.data a = m'.mem.data a := by
  obtain ⟨k, before, after, within, first, stepped, later, changes, final⟩ :=
    (steps_iff_path.mp steps).last_change (·.mem.data a) changed
  have first := steps_iff_path.mpr first
  have size := (first.keeps bounded holds).size
  obtain ⟨inside, writes⟩ := step_changed bounded (by rw [size]; exact holds) stepped changes
  rw [size] at inside
  exact ⟨inside, k, before, after, within, first, stepped, steps_iff_path.mpr later, writes,
    final⟩

end Runs

end Machine

end RiscvPack.Emulator
