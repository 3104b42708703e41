import RiscvPack.Emulator.StepErrors

/-!
# The debug trace

The `[DECODE]` line that `step` prints in debug mode against what `execute`
then does.  A line is true when its mnemonic names an operation that has the
effect of `execute` on every machine, and when its target, if it has one and
the transfer is taken, is the program counter that `execute` installs.
-/

namespace RiscvPack.Emulator

/-- `get_instruction_name` -/
def getInstructionName (opcode : BitVec 7) (funct3 : BitVec 3)
    (funct7 : BitVec 7) : String :=
  match opcode with
  | 0x33#7 =>
      if funct7 = 0x00 then
        match funct3 with
        | 0x0#3 => "add"
        | 0x4#3 => "xor"
        | 0x6#3 => "or"
        | 0x7#3 => "and"
        | 0x1#3 => "sll"
        | 0x5#3 => "srl"
        | 0x2#3 => "slt"
        | 0x3#3 => "sltu"
        | _ => "alu-r"
      else if funct7 = 0x20 then
        if funct3 = 0x0 then "sub"
        else if funct3 = 0x5 then "sra"
        else "alu-r"
      else if funct7 = 0x01 then
        match funct3 with
        | 0x0#3 => "mul"
        | 0x1#3 => "mulh"
        | 0x2#3 => "mulhsu"
        | 0x3#3 => "mulhu"
        | 0x4#3 => "div"
        | 0x5#3 => "divu"
        | 0x6#3 => "rem"
        | 0x7#3 => "remu"
        | _ => "alu-r"
      else "alu-r"
  | 0x13#7 =>
      match funct3 with
      | 0x0#3 => "addi"
      | 0x4#3 => "xori"
      | 0x6#3 => "ori"
      | 0x7#3 => "andi"
      | 0x1#3 => "slli"
      | 0x5#3 => if funct7 = 0x00 then "srli" else "srai"
      | 0x2#3 => "slti"
      | 0x3#3 => "sltiu"
      | _ => "alu-i"
  | 0x03#7 =>
      match funct3 with
      | 0x0#3 => "lb"
      | 0x1#3 => "lh"
      | 0x2#3 => "lw"
      | 0x4#3 => "lbu"
      | 0x5#3 => "lhu"
      | _ => "load"
  | 0x23#7 =>
      match funct3 with
      | 0x0#3 => "sb"
      | 0x1#3 => "sh"
      | 0x2#3 => "sw"
      | _ => "store"
  | 0x63#7 =>
      match funct3 with
      | 0x0#3 => "beq"
      | 0x1#3 => "bne"
      | 0x4#3 => "blt"
      | 0x5#3 => "bge"
      | 0x6#3 => "bltu"
      | 0x7#3 => "bgeu"
      | _ => "branch"
  | 0x6F#7 => "jal"
  | 0x67#7 => "jalr"
  | 0x37#7 => "lui"
  | 0x17#7 => "auipc"
  | 0x73#7 => if funct3 = 0x0 then "ecall" else "system"
  | _ => "unknown"

/-- The fields of a `[DECODE]` line, in the order in which they are printed. -/
inductive DecodeFields where
  | rType (rd rs1 rs2 : Reg) (funct3 : BitVec 3) (funct7 : BitVec 7)
  | iType (rd rs1 : Reg) (imm : Word)
  | sType (rs1 rs2 : Reg) (imm : Word)
  | bType (rs1 rs2 : Reg) (imm target : Word)
  | uType (rd : Reg) (imm : Word)
  | jType (rd : Reg) (imm target : Word)
  deriving DecidableEq, Repr

structure DecodeLine where
  name : String
  opcode : BitVec 7
  fields : DecodeFields
  deriving DecidableEq, Repr

/-- The `[DECODE]` line of `step`; the program counter of `cpu` is the one the
fetch has left. -/
def decodeLine (cpu : CPU) (decoded : Instruction) : DecodeLine where
  name := getInstructionName decoded.opcode decoded.funct3 decoded.funct7
  opcode := decoded.opcode
  fields :=
    match decoded.format with
    | .rType =>
        .rType decoded.rd decoded.rs1 decoded.rs2 decoded.funct3 decoded.funct7
    | .iType => .iType decoded.rd decoded.rs1 decoded.imm
    | .sType => .sType decoded.rs1 decoded.rs2 decoded.imm
    | .bType =>
        .bType decoded.rs1 decoded.rs2 decoded.imm (cpu.pc + decoded.imm)
    | .uType => .uType decoded.rd decoded.imm
    | .jType => .jType decoded.rd decoded.imm (cpu.pc + decoded.imm)

/-- The target a line prints: that of a branch or of `jal`. -/
def DecodeLine.target (line : DecodeLine) : Option Word :=
  match line.fields with
  | .bType _ _ _ target => some target
  | .jType _ _ target => some target
  | _ => none

/-- The operations of the instruction set, without operands. -/
inductive Operation where
  | reg (op : Isa.RegOp)
  | imm (op : Isa.ImmOp)
  | shift (op : Isa.ShiftOp)
  | load (op : Isa.LoadOp)
  | store (op : Isa.StoreOp)
  | branch (op : Isa.BranchOp)
  | jal
  | jalr
  | lui
  | auipc
  | ecall
  | ebreak
  deriving DecidableEq, Repr

namespace Operation

def mnemonic : Operation → String
  | .reg .add => "add"
  | .reg .sub => "sub"
  | .reg .sll => "sll"
  | .reg .slt => "slt"
  | .reg .sltu => "sltu"
  | .reg .xor => "xor"
  | .reg .srl => "srl"
  | .reg .sra => "sra"
  | .reg .or => "or"
  | .reg .and => "and"
  | .reg .mul => "mul"
  | .reg .mulh => "mulh"
  | .reg .mulhsu => "mulhsu"
  | .reg .mulhu => "mulhu"
  | .reg .div => "div"
  | .reg .divu => "divu"
  | .reg .rem => "rem"
  | .reg .remu => "remu"
  | .imm .addi => "addi"
  | .imm .slti => "slti"
  | .imm .sltiu => "sltiu"
  | .imm .xori => "xori"
  | .imm .ori => "ori"
  | .imm .andi => "andi"
  | .shift .slli => "slli"
  | .shift .srli => "srli"
  | .shift .srai => "srai"
  | .load .lb => "lb"
  | .load .lh => "lh"
  | .load .lw => "lw"
  | .load .lbu => "lbu"
  | .load .lhu => "lhu"
  | .store .sb => "sb"
  | .store .sh => "sh"
  | .store .sw => "sw"
  | .branch .beq => "beq"
  | .branch .bne => "bne"
  | .branch .blt => "blt"
  | .branch .bge => "bge"
  | .branch .bltu => "bltu"
  | .branch .bgeu => "bgeu"
  | .jal => "jal"
  | .jalr => "jalr"
  | .lui => "lui"
  | .auipc => "auipc"
  | .ecall => "ecall"
  | .ebreak => "ebreak"

/-- What an operation, with the operands of `d`, makes of a machine whose
fetch has already moved the program counter past the word. -/
def effect {σ : Type} (h : Host σ) (m : Machine σ) (d : Instruction) :
    Operation → Machine σ
  | .reg op =>
      { m with
        cpu := m.cpu.regWrite d.rd
          (op.eval (m.cpu.regRead d.rs1) (m.cpu.regRead d.rs2)) }
  | .imm op =>
      { m with cpu := m.cpu.regWrite d.rd (op.eval (m.cpu.regRead d.rs1) d.imm) }
  | .shift op =>
      { m with
        cpu := m.cpu.regWrite d.rd
          (op.eval (m.cpu.regRead d.rs1) (d.imm.setWidth 5)) }
  | .load op =>
      { m with
        cpu := m.cpu.regWrite d.rd
          (op.value m.mem.data (m.cpu.regRead d.rs1 + d.imm)) }
  | .store op =>
      { m with
        mem := { m.mem with
          data := op.write m.mem.data (m.cpu.regRead d.rs1 + d.imm)
            (m.cpu.regRead d.rs2) } }
  | .branch op =>
      if op.taken (m.cpu.regRead d.rs1) (m.cpu.regRead d.rs2) then
        { m with cpu := { m.cpu with pc := m.cpu.pc - 4 + d.imm } }
      else m
  | .jal =>
      { m with
        cpu := { m.cpu.regWrite d.rd m.cpu.pc with pc := m.cpu.pc - 4 + d.imm } }
  | .jalr =>
      { m with
        cpu := { m.cpu.regWrite d.rd m.cpu.pc with
          pc := (m.cpu.regRead d.rs1 + d.imm) &&& ~~~1#32 } }
  | .lui => { m with cpu := m.cpu.regWrite d.rd d.imm }
  | .auipc => { m with cpu := m.cpu.regWrite d.rd (m.cpu.pc - 4 + d.imm) }
  | .ecall => (m.handleSyscall h).2
  | .ebreak => m

end Operation

/-- Whenever `execute` succeeds on `d` it has the effect of `op`. -/
def Performs (d : Instruction) (op : Operation) : Prop :=
  ∀ {σ : Type} (h : Host σ) (m m' : Machine σ),
    Machine.execute h m d = some (.ok, m') → m' = op.effect h m d

/-- `name` is the mnemonic of an operation that `execute` performs on `d`. -/
def Names (name : String) (d : Instruction) : Prop :=
  ∃ op : Operation, op.mnemonic = name ∧ Performs d op

/-- `jal`, or a branch whose condition holds. -/
def TransferTaken (cpu : CPU) (d : Instruction) : Prop :=
  d.format = .jType ∨
    (d.format = .bType ∧
      ∃ op : Isa.BranchOp, d.funct3 = op.funct3 ∧
        op.taken (cpu.regRead d.rs1) (cpu.regRead d.rs2) = true)

/-- What the `[DECODE]` line says of a step that ends in `m'`. -/
structure TraceTrue {σ : Type} (cpu : CPU) (d : Instruction) (m' : Machine σ) :
    Prop where
  name : Names (decodeLine cpu d).name d
  target : TransferTaken cpu d → (decodeLine cpu d).target = some m'.cpu.pc

/-- The words whose mnemonic is true.  The last three alternatives of a right
shift are those in which the logical and the arithmetic one agree. -/
def NamedTruly (d : Instruction) : Prop :=
  (d.opcode = Isa.opReg → (Isa.RegOp.ofFunct d.funct7 d.funct3).isSome) ∧
    (d.opcode = Isa.opImm → d.funct3 = 0x5 →
      d.funct7 = 0x00 ∨ d.funct7 &&& 0x20 ≠ 0 ∨
        d.rd = 0 ∨ d.rs1 = 0 ∨ d.imm.setWidth 5 = 0#5) ∧
    (d.opcode = Isa.opSystem → d.funct3 = 0x0 ∧ d.imm &&& 0xFFF = 0x000)

section Names

theorem getInstructionName_reg (op : Isa.RegOp) :
    getInstructionName 0x33 op.funct3 op.funct7 = (Operation.reg op).mnemonic := by
  cases op <;> rfl

theorem getInstructionName_reg_reserved {f3 : BitVec 3} {f7 : BitVec 7}
    (reserved : Isa.RegOp.ofFunct f7 f3 = none) :
    getInstructionName 0x33 f3 f7 = "alu-r" := by
  show (if f7 = 0x00 then _ else if f7 = 0x20 then _ else if f7 = 0x01 then _
    else "alu-r") = "alu-r"
  by_cases base : f7 = 0x00
  · subst base
    revert f3
    decide
  rw [if_neg base]
  by_cases alternate : f7 = 0x20
  · subst alternate
    revert f3
    decide
  rw [if_neg alternate]
  by_cases extension : f7 = 0x01
  · subst extension
    revert f3
    decide
  · rw [if_neg extension]

theorem getInstructionName_imm (op : Isa.ImmOp) (f7 : BitVec 7) :
    getInstructionName 0x13 op.funct3 f7 = (Operation.imm op).mnemonic := by
  cases op <;> rfl

theorem getInstructionName_load (op : Isa.LoadOp) (f7 : BitVec 7) :
    getInstructionName 0x03 op.funct3 f7 = (Operation.load op).mnemonic := by
  cases op <;> rfl

theorem getInstructionName_store (op : Isa.StoreOp) (f7 : BitVec 7) :
    getInstructionName 0x23 op.funct3 f7 = (Operation.store op).mnemonic := by
  cases op <;> rfl

theorem getInstructionName_branch (op : Isa.BranchOp) (f7 : BitVec 7) :
    getInstructionName 0x63 op.funct3 f7 = (Operation.branch op).mnemonic := by
  cases op <;> rfl

namespace Operation

theorem mnemonic_ne_label (op : Operation) :
    op.mnemonic ≠ "alu-r" ∧ op.mnemonic ≠ "system" := by
  cases op with
  | reg op | imm op | shift op | load op | store op | branch op =>
      cases op <;> decide
  | jal | jalr | lui | auipc | ecall | ebreak => decide

theorem eq_srai_of_mnemonic {op : Operation} (named : op.mnemonic = "srai") :
    op = .shift .srai := by
  cases op with
  | reg op | imm op | shift op | load op | store op | branch op =>
      cases op <;> revert named <;> decide
  | jal | jalr | lui | auipc | ecall | ebreak => revert named; decide

theorem eq_ecall_of_mnemonic {op : Operation} (named : op.mnemonic = "ecall") :
    op = .ecall := by
  cases op with
  | reg op | imm op | shift op | load op | store op | branch op =>
      cases op <;> revert named <;> decide
  | jal | jalr | lui | auipc | ecall | ebreak => revert named; decide

end Operation

end Names

namespace Machine

open Instruction (ofFields)

section Effects

variable {w : Word}

theorem performs_reg {op : Isa.RegOp} (f7 : Isa.funct7 w = op.funct7)
    (f3 : Isa.funct3 w = op.funct3) : Performs (ofFields w .rType 0) (.reg op) := by
  intro σ h m m' executed
  by_cases extension : op.funct7 = 0x01
  · simp only [execute, ofFields, f7, f3, if_pos extension] at executed
    obtain ⟨result, computed, done⟩ := Option.map_eq_some_iff.mp executed
    cases done
    rw [CPU.executeMulDiv_value extension computed]
    rfl
  · simp only [execute, ofFields, f7, f3, if_neg extension] at executed
    cases executed
    rw [CPU.executeAlu_reg _ _ op extension]
    rfl

theorem execute_opImm {σ : Type} (h : Host σ) (m : Machine σ)
    (major : Isa.opcode w = Isa.opImm) :
    execute h m (ofFields w .iType (Isa.immI w)) =
      some (.ok, { m with
        cpu := m.cpu.regWrite (Isa.rd w)
          (CPU.executeAlu (m.cpu.regRead (Isa.rs1 w)) (Isa.immI w) (Isa.funct3 w)
            (if Isa.funct3 w = 0x1 ∨ Isa.funct3 w = 0x5 then Isa.funct7 w else 0)
            true) }) := by
  rw [← (shift_fields w).1]
  simp only [execute, ofFields, major]
  rfl

theorem performs_imm {op : Isa.ImmOp} (major : Isa.opcode w = Isa.opImm)
    (f3 : Isa.funct3 w = op.funct3) :
    Performs (ofFields w .iType (Isa.immI w)) (.imm op) := by
  intro σ h m m' executed
  have noShift : ¬ (op.funct3 = 0x1 ∨ op.funct3 = 0x5) := by
    cases op <;> decide
  rw [execute_opImm h m major, f3, if_neg noShift, CPU.executeAlu_imm] at executed
  cases executed
  rfl

/-- A shift looks at one bit of `funct7`, and `slli` at none. -/
theorem performs_shift (op : Isa.ShiftOp) (major : Isa.opcode w = Isa.opImm)
    (f3 : Isa.funct3 w = op.funct3)
    (alternate : op.funct3 = 0x5 → Isa.funct7 w &&& 0x20 = op.funct7) :
    Performs (ofFields w .iType (Isa.immI w)) (.shift op) := by
  intro σ h m m' executed
  have isShift : op.funct3 = 0x1 ∨ op.funct3 = 0x5 := by
    cases op <;> decide
  rw [execute_opImm h m major, f3, if_pos isShift] at executed
  generalize read : m.cpu.regRead (Isa.rs1 w) = a at executed
  have masked : CPU.executeAlu a (Isa.immI w) op.funct3 (Isa.funct7 w) true =
      CPU.executeAlu a (Isa.immI w) op.funct3 op.funct7 true := by
    cases op with
    | slli => rfl
    | srli => exact if_neg (not_not_intro (alternate rfl))
    | srai =>
        refine if_pos ?_
        rw [alternate rfl]
        decide
  rw [masked, CPU.executeAlu_shift] at executed
  subst read
  cases executed
  rfl

section Results

variable {σ : Type} {h : Host σ} {m m' : Machine σ} {d : Instruction}

private theorem not_ofExecution {status : CpuStatus}
    (executed : some (status, m) = some (.ok, m')) : ¬ status.OfExecution := by
  cases executed
  rintro (impossible | impossible) <;> cases impossible

theorem execute_load_ok (format : d.format = .iType) (major : d.opcode = Isa.opLoad)
    (executed : execute h m d = some (.ok, m')) :
    ∃ value, m.cpu.executeLoad m.mem d = .ok value ∧
      m' = { m with cpu := m.cpu.regWrite d.rd value } := by
  rw [execute_load format major] at executed
  cases outcome : m.cpu.executeLoad m.mem d with
  | error status =>
      rw [outcome] at executed
      exact absurd (executeLoad_error outcome) (not_ofExecution executed)
  | ok value =>
      rw [outcome] at executed
      cases executed
      exact ⟨value, rfl, rfl⟩

theorem execute_store_ok (format : d.format = .sType)
    (executed : execute h m d = some (.ok, m')) :
    ∃ mem, m.cpu.executeStore m.mem d = .done mem ∧
      m' = { m with mem } := by
  rw [execute_store format] at executed
  cases outcome : m.cpu.executeStore m.mem d with
  | stopped status mem =>
      rw [outcome] at executed
      exact absurd (executeStore_error outcome) (not_ofExecution executed)
  | done mem =>
      rw [outcome] at executed
      cases executed
      exact ⟨mem, rfl, rfl⟩

theorem execute_branch_ok (format : d.format = .bType)
    (executed : execute h m d = some (.ok, m')) :
    ∃ cpu, m.cpu.executeBranch d = .ok cpu ∧
      m' = { m with cpu } := by
  rw [execute_branch d format] at executed
  cases outcome : m.cpu.executeBranch d with
  | error status =>
      rw [outcome] at executed
      exact absurd (executeBranch_error outcome) (not_ofExecution executed)
  | ok cpu =>
      rw [outcome] at executed
      cases executed
      exact ⟨cpu, rfl, rfl⟩

end Results

theorem performs_load {op : Isa.LoadOp} (major : Isa.opcode w = Isa.opLoad)
    (f3 : Isa.funct3 w = op.funct3) :
    Performs (ofFields w .iType (Isa.immI w)) (.load op) := by
  intro σ h m m' executed
  obtain ⟨value, loaded, rfl⟩ := execute_load_ok rfl major executed
  rw [CPU.executeLoad_value f3 loaded]
  rfl

theorem performs_store {op : Isa.StoreOp} (f3 : Isa.funct3 w = op.funct3) :
    Performs (ofFields w .sType (Isa.immS w)) (.store op) := by
  intro σ h m m' executed
  obtain ⟨mem, stored, rfl⟩ := execute_store_ok rfl executed
  rw [CPU.executeStore_value f3 stored]
  rfl

/-- The source takes the four that the fetch has added off the offset. -/
private theorem installed_target (pc offset : Word) :
    pc + (offset - 4) = pc - 4 + offset := by
  ring

theorem performs_branch {op : Isa.BranchOp} (f3 : Isa.funct3 w = op.funct3) :
    Performs (ofFields w .bType (Isa.immB w)) (.branch op) := by
  intro σ h m m' executed
  obtain ⟨cpu, branched, rfl⟩ := execute_branch_ok rfl executed
  rw [CPU.executeBranch_eq _ _ op f3, installed_target] at branched
  cases branched
  show _ = if op.taken _ _ = true then _ else _
  split <;> rfl

theorem performs_jal : Performs (ofFields w .jType (Isa.immJ w)) .jal := by
  intro σ h m m' executed
  cases executed
  rw [CPU.regWrite_pc, installed_target]
  rfl

theorem performs_jalr (major : Isa.opcode w = Isa.opJalr) :
    Performs (ofFields w .iType (Isa.immI w)) .jalr := by
  intro σ h m m' executed
  simp only [execute, ofFields, major] at executed
  cases executed
  rfl

theorem performs_lui (major : Isa.opcode w = Isa.opLui) :
    Performs (ofFields w .uType (Isa.immU w)) .lui := by
  intro σ h m m' executed
  simp only [execute, ofFields, major] at executed
  cases executed
  rfl

theorem performs_auipc (major : Isa.opcode w = Isa.opAuipc) :
    Performs (ofFields w .uType (Isa.immU w)) .auipc := by
  intro σ h m m' executed
  simp only [execute, ofFields, major] at executed
  cases executed
  rw [add_sub_right_comm]
  rfl

theorem performs_ecall (major : Isa.opcode w = Isa.opSystem)
    (zero : systemFunction w = 0) :
    Performs (ofFields w .iType (Isa.immI w)) .ecall := by
  intro σ h m m' executed
  have call : m.executeSystem h (ofFields w .iType (Isa.immI w)) = m.handleSyscall h :=
    if_pos ((systemFunction_eq_iff w 0).mpr zero)
  rw [execute_system rfl major, call, Option.some.injEq] at executed
  exact (congrArg Prod.snd executed).symm

end Effects

section Naming

variable {w : Word}

theorem names_reg_iff (major : Isa.opcode w = Isa.opReg) :
    Names (getInstructionName (Isa.opcode w) (Isa.funct3 w) (Isa.funct7 w))
        (ofFields w .rType 0) ↔
      (Isa.RegOp.ofFunct (Isa.funct7 w) (Isa.funct3 w)).isSome := by
  rw [major]
  constructor
  · rintro ⟨op, named, _⟩
    by_contra unknown
    have reserved := Option.not_isSome_iff_eq_none.mp unknown
    have label := named.trans (getInstructionName_reg_reserved reserved)
    exact op.mnemonic_ne_label.1 label
  · intro known
    obtain ⟨op, found⟩ := Option.isSome_iff_exists.mp known
    obtain ⟨f7, f3⟩ := Isa.RegOp.ofFunct_eq_some found
    refine ⟨.reg op, ?_, performs_reg f7 f3⟩
    rw [f7, f3]
    exact (getInstructionName_reg op).symm

/-- A machine whose registers all hold the least integer, on which the two
right shifts differ. -/
private def negative (w : Word) : Machine Unit :=
  { ofWord w with cpu := { CPU.init with x := fun _ => BitVec.intMin 32 } }

/-- `execute` tells the right shifts apart by one bit of `funct7`, and the
name by all seven. -/
theorem not_performs_srai (major : Isa.opcode w = Isa.opImm)
    (f3 : Isa.funct3 w = 0x5) (logical : Isa.funct7 w &&& 0x20 = 0)
    (writes : Isa.rd w ≠ 0) (reads : Isa.rs1 w ≠ 0)
    (moves : (Isa.immI w).setWidth 5 ≠ 0#5) :
    ¬ Performs (ofFields w .iType (Isa.immI w)) (.shift .srai) := by
  intro performed
  have differ : ∀ amount : BitVec 5, amount ≠ 0 →
      Isa.ShiftOp.srli.eval (BitVec.intMin 32) amount ≠
        Isa.ShiftOp.srai.eval (BitVec.intMin 32) amount := by
    decide
  have executed := execute_opImm Host.inert (negative w) major
  have arithmetic := performed _ _ _ executed
  have performs : Performs (ofFields w .iType (Isa.immI w)) (.shift .srli) :=
    performs_shift .srli major f3 fun _ => logical
  have same := congrArg (fun m => m.cpu.regRead (Isa.rd w))
    ((performs _ _ _ executed).symm.trans arithmetic)
  have operand : (negative w).cpu.regRead (Isa.rs1 w) = BitVec.intMin 32 := if_neg reads
  refine differ _ moves ?_
  have value (v : Word) : ((negative w).cpu.regWrite (Isa.rd w) v).regRead (Isa.rd w) = v := by
    rw [CPU.regWrite, if_pos writes, CPU.regRead, if_neg writes]
    exact Function.update_self ..
  rw [← operand, ← value (Isa.ShiftOp.srli.eval _ _), ← value (Isa.ShiftOp.srai.eval _ _)]
  exact same

/-- Where the right shifts agree: nothing is written, zero is shifted, or
nothing moves. -/
theorem effect_srli_eq_srai {σ : Type} (h : Host σ) (m : Machine σ) {d : Instruction}
    (still : d.rd = 0 ∨ d.rs1 = 0 ∨ d.imm.setWidth 5 = 0#5) :
    (Operation.shift .srli).effect h m d = (Operation.shift .srai).effect h m d := by
  simp only [Operation.effect]
  rcases still with unwritten | unread | unmoved
  · rw [CPU.regWrite, CPU.regWrite, if_neg (not_not_intro unwritten),
      if_neg (not_not_intro unwritten)]
  · have agree : ∀ amount : BitVec 5, Isa.ShiftOp.srli.eval 0 amount =
        Isa.ShiftOp.srai.eval 0 amount := by
      decide
    have zero : m.cpu.regRead d.rs1 = 0 := if_pos unread
    rw [zero, agree]
  · have agree (a : Word) : Isa.ShiftOp.srli.eval a 0#5 = Isa.ShiftOp.srai.eval a 0#5 := by
      show a >>> 0 = a.sshiftRight 0
      simp
    rw [unmoved, agree]

private theorem alternate_eq (f7 : BitVec 7) : f7 &&& 0x20 = 0 ∨ f7 &&& 0x20 = 0x20 := by
  revert f7
  decide

private theorem names_right_iff (major : Isa.opcode w = Isa.opImm)
    (right : Isa.funct3 w = 0x5) :
    Names (if Isa.funct7 w = 0x00 then "srli" else "srai")
        (ofFields w .iType (Isa.immI w)) ↔
      Isa.funct7 w = 0x00 ∨ Isa.funct7 w &&& 0x20 ≠ 0 ∨
        Isa.rd w = 0 ∨ Isa.rs1 w = 0 ∨ (Isa.immI w).setWidth 5 = 0#5 := by
  by_cases base : Isa.funct7 w = 0x00
  · rw [if_pos base]
    refine iff_of_true ⟨.shift .srli, rfl, performs_shift .srli major right ?_⟩
      (Or.inl base)
    intro _
    rw [base]
    decide
  rw [if_neg base]
  rcases alternate_eq (Isa.funct7 w) with logical | arithmetic
  · constructor
    · rintro ⟨op, named, performed⟩
      cases Operation.eq_srai_of_mnemonic named
      by_contra moving
      simp only [not_or] at moving
      obtain ⟨_, _, writes, reads, moves⟩ := moving
      exact not_performs_srai major right logical writes reads moves performed
    · intro still
      refine ⟨.shift .srai, rfl, ?_⟩
      intro σ h m m' executed
      rw [performs_shift .srli major right (fun _ => logical) h m m' executed]
      apply effect_srli_eq_srai
      rcases still with zero | bit | same
      · exact absurd zero base
      · exact absurd logical bit
      · exact same
  · have bit : Isa.funct7 w &&& 0x20 ≠ 0 := by
      rw [arithmetic]
      decide
    exact iff_of_true
      ⟨.shift .srai, rfl, performs_shift .srai major right fun _ => arithmetic⟩
      (Or.inr (Or.inl bit))

theorem names_imm_iff (major : Isa.opcode w = Isa.opImm) :
    Names (getInstructionName (Isa.opcode w) (Isa.funct3 w) (Isa.funct7 w))
        (ofFields w .iType (Isa.immI w)) ↔
      (Isa.funct3 w = 0x5 →
        Isa.funct7 w = 0x00 ∨ Isa.funct7 w &&& 0x20 ≠ 0 ∨
          Isa.rd w = 0 ∨ Isa.rs1 w = 0 ∨ (Isa.immI w).setWidth 5 = 0#5) := by
  rw [major]
  by_cases right : Isa.funct3 w = 0x5
  · rw [forall_prop_of_true right, ← names_right_iff major right, right]
    rfl
  refine iff_of_true ?_ (fun same => absurd same right)
  have codes : ∀ f3 : BitVec 3, f3 ≠ 5 →
      f3 = Isa.ShiftOp.slli.funct3 ∨ (Isa.ImmOp.ofFunct f3).isSome := by
    decide
  rcases codes _ right with left | known
  · refine ⟨.shift .slli, ?_, performs_shift .slli major left (fun same => ?_)⟩
    · rw [left]
      rfl
    · cases same
  · obtain ⟨op, found⟩ := Option.isSome_iff_exists.mp known
    have f3 := Isa.ImmOp.ofFunct_eq_some found
    refine ⟨.imm op, ?_, performs_imm major f3⟩
    rw [f3]
    exact (getInstructionName_imm op _).symm

theorem names_load {op : Isa.LoadOp} (major : Isa.opcode w = Isa.opLoad)
    (f3 : Isa.funct3 w = op.funct3) :
    Names (getInstructionName (Isa.opcode w) (Isa.funct3 w) (Isa.funct7 w))
      (ofFields w .iType (Isa.immI w)) := by
  refine ⟨.load op, ?_, performs_load major f3⟩
  rw [major, f3]
  exact (getInstructionName_load op _).symm

theorem names_store {op : Isa.StoreOp} (major : Isa.opcode w = Isa.opStore)
    (f3 : Isa.funct3 w = op.funct3) :
    Names (getInstructionName (Isa.opcode w) (Isa.funct3 w) (Isa.funct7 w))
      (ofFields w .sType (Isa.immS w)) := by
  refine ⟨.store op, ?_, performs_store f3⟩
  rw [major, f3]
  exact (getInstructionName_store op _).symm

theorem names_branch {op : Isa.BranchOp} (major : Isa.opcode w = Isa.opBranch)
    (f3 : Isa.funct3 w = op.funct3) :
    Names (getInstructionName (Isa.opcode w) (Isa.funct3 w) (Isa.funct7 w))
      (ofFields w .bType (Isa.immB w)) := by
  refine ⟨.branch op, ?_, performs_branch f3⟩
  rw [major, f3]
  exact (getInstructionName_branch op _).symm

/-- `ebreak` leaves the machine as it is, where an unknown system call writes
`a0`. -/
theorem not_performs_ecall (major : Isa.opcode w = Isa.opSystem)
    (one : systemFunction w = 1) :
    ¬ Performs (ofFields w .iType (Isa.immI w)) .ecall := by
  intro performed
  have executed : execute Host.inert (ofWord w) (ofFields w .iType (Isa.immI w)) =
      some (.ok, ofWord w) := by
    rw [execute_system rfl major, executeSystem_one one]
  have same := congrArg (fun m => m.cpu.x 10) (performed _ _ _ executed)
  revert same
  show (0 : Word) = -38 → False
  decide

theorem names_system_iff (major : Isa.opcode w = Isa.opSystem)
    (known : systemFunction w = 0 ∨ systemFunction w = 1) :
    Names (getInstructionName (Isa.opcode w) (Isa.funct3 w) (Isa.funct7 w))
        (ofFields w .iType (Isa.immI w)) ↔
      Isa.funct3 w = 0x0 ∧ Isa.immI w &&& 0xFFF = 0x000 := by
  rw [major]
  show Names (if Isa.funct3 w = 0x0 then "ecall" else "system") _ ↔ _
  by_cases base : Isa.funct3 w = 0x0
  · rw [if_pos base]
    rcases known with zero | one
    · exact iff_of_true ⟨.ecall, rfl, performs_ecall major zero⟩
        ⟨base, (systemFunction_eq_iff w 0).mpr zero⟩
    · refine iff_of_false ?_ ?_
      · rintro ⟨op, named, performed⟩
        cases Operation.eq_ecall_of_mnemonic named
        exact not_performs_ecall major one performed
      · rintro ⟨_, call⟩
        have zero := (systemFunction_eq_iff w 0).mp call
        rw [one] at zero
        cases zero
  · rw [if_neg base]
    refine iff_of_false ?_ (fun both => base both.1)
    rintro ⟨op, named, _⟩
    exact op.mnemonic_ne_label.2 named

end Naming

section Lines

variable {σ : Type} {h : Host σ} {m m' : Machine σ} {w : Word} {d : Instruction}

private theorem namedTruly_reg (major : d.opcode = Isa.opReg) :
    NamedTruly d ↔ (Isa.RegOp.ofFunct d.funct7 d.funct3).isSome := by
  simp [NamedTruly, major, Isa.opReg, Isa.opImm, Isa.opSystem]

private theorem namedTruly_imm (major : d.opcode = Isa.opImm) :
    NamedTruly d ↔ (d.funct3 = 0x5 →
      d.funct7 = 0x00 ∨ d.funct7 &&& 0x20 ≠ 0 ∨
        d.rd = 0 ∨ d.rs1 = 0 ∨ d.imm.setWidth 5 = 0#5) := by
  simp [NamedTruly, major, Isa.opReg, Isa.opImm, Isa.opSystem]

private theorem namedTruly_system (major : d.opcode = Isa.opSystem) :
    NamedTruly d ↔ d.funct3 = 0x0 ∧ d.imm &&& 0xFFF = 0x000 := by
  simp [NamedTruly, major, Isa.opReg, Isa.opImm, Isa.opSystem]

private theorem namedTruly_of_other {opcode : BitVec 7} (major : d.opcode = opcode)
    (other : opcode ≠ Isa.opReg ∧ opcode ≠ Isa.opImm ∧ opcode ≠ Isa.opSystem) :
    NamedTruly d := by
  subst major
  exact ⟨fun same => absurd same other.1, fun same => absurd same other.2.1,
    fun same => absurd same other.2.2⟩

theorem exists_load_of_ok (format : d.format = .iType) (major : d.opcode = Isa.opLoad)
    (executed : execute h m d = some (.ok, m')) :
    ∃ op : Isa.LoadOp, d.funct3 = op.funct3 := by
  obtain ⟨value, loaded, _⟩ := execute_load_ok format major executed
  cases found : Isa.LoadOp.ofFunct d.funct3 with
  | none =>
      rw [CPU.executeLoad_reserved found] at loaded
      cases loaded
  | some op => exact ⟨op, Isa.LoadOp.ofFunct_eq_some found⟩

theorem exists_store_of_ok (format : d.format = .sType)
    (executed : execute h m d = some (.ok, m')) :
    ∃ op : Isa.StoreOp, d.funct3 = op.funct3 := by
  obtain ⟨mem, stored, _⟩ := execute_store_ok format executed
  cases found : Isa.StoreOp.ofFunct d.funct3 with
  | none =>
      rw [CPU.executeStore_reserved found] at stored
      cases stored
  | some op => exact ⟨op, Isa.StoreOp.ofFunct_eq_some found⟩

theorem exists_branch_of_ok (format : d.format = .bType)
    (executed : execute h m d = some (.ok, m')) :
    ∃ op : Isa.BranchOp, d.funct3 = op.funct3 := by
  obtain ⟨cpu, branched, _⟩ := execute_branch_ok format executed
  cases found : Isa.BranchOp.ofFunct d.funct3 with
  | none =>
      rw [CPU.executeBranch_reserved found] at branched
      cases branched
  | some op => exact ⟨op, Isa.BranchOp.ofFunct_eq_some found⟩

theorem systemFunction_of_ok (major : Isa.opcode w = Isa.opSystem)
    (executed : execute h m (ofFields w .iType (Isa.immI w)) = some (.ok, m')) :
    systemFunction w = 0 ∨ systemFunction w = 1 := by
  by_contra unknown
  obtain ⟨nonzero, notOne⟩ := not_or.mp unknown
  rw [execute_system rfl major, executeSystem_other nonzero notOne] at executed
  cases executed

/-- The names, one case for each opcode. -/
theorem names_iff (decoded : Instruction.decode w = some d)
    (executed : execute h m d = some (.ok, m')) :
    Names (getInstructionName d.opcode d.funct3 d.funct7) d ↔ NamedTruly d := by
  rw [Instruction.decode_eq] at decoded
  split at decoded <;> cases decoded <;> rename_i major
  case h_1 =>
      exact (names_reg_iff major).trans (namedTruly_reg (d := ofFields w .rType 0) major).symm
  case h_2 =>
      obtain ⟨op, f3⟩ := exists_load_of_ok rfl major executed
      exact iff_of_true (names_load major f3) (namedTruly_of_other major (by decide))
  case h_3 =>
      exact (names_imm_iff major).trans
        (namedTruly_imm (d := ofFields w .iType (Isa.immI w)) major).symm
  case h_4 =>
      refine iff_of_true ⟨.jalr, ?_, performs_jalr major⟩
        (namedTruly_of_other major (by decide))
      exact (congrArg (getInstructionName · _ _) major).symm
  case h_5 =>
      exact (names_system_iff major (systemFunction_of_ok major executed)).trans
        (namedTruly_system (d := ofFields w .iType (Isa.immI w)) major).symm
  case h_6 =>
      obtain ⟨op, f3⟩ := exists_store_of_ok rfl executed
      exact iff_of_true (names_store major f3) (namedTruly_of_other major (by decide))
  case h_7 =>
      obtain ⟨op, f3⟩ := exists_branch_of_ok rfl executed
      exact iff_of_true (names_branch major f3) (namedTruly_of_other major (by decide))
  case h_8 =>
      refine iff_of_true ⟨.lui, ?_, performs_lui major⟩
        (namedTruly_of_other major (by decide))
      exact (congrArg (getInstructionName · _ _) major).symm
  case h_9 =>
      refine iff_of_true ⟨.auipc, ?_, performs_auipc major⟩
        (namedTruly_of_other major (by decide))
      exact (congrArg (getInstructionName · _ _) major).symm
  case h_10 =>
      refine iff_of_true ⟨.jal, ?_, performs_jal⟩
        (namedTruly_of_other major (by decide))
      exact (congrArg (getInstructionName · _ _) major).symm

/-- A legal word has a true name, unless it is `ebreak`. -/
theorem namedTruly_of_legal {i : Isa.Instr} (decoded : Instruction.decode w = some d)
    (legal : Isa.decode w = some i) (noBreak : i ≠ .ebreak) : NamedTruly d := by
  obtain ⟨format, _, rfl⟩ := Instruction.format_of_decode decoded
  cases Isa.decode_eq_some_iff.mp legal with
  | reg op major f7 f3 =>
      refine (namedTruly_reg major).mpr ?_
      show (Isa.RegOp.ofFunct (Isa.funct7 w) (Isa.funct3 w)).isSome = true
      rw [f7, f3, Isa.RegOp.ofFunct_funct]
      rfl
  | imm op major f3 =>
      refine (namedTruly_imm major).mpr fun right => ?_
      have shift := f3.symm.trans right
      cases op <;> cases shift
  | shift op major f7 f3 =>
      refine (namedTruly_imm major).mpr fun _ => ?_
      show Isa.funct7 w = 0x00 ∨ Isa.funct7 w &&& 0x20 ≠ 0 ∨ _
      rw [f7]
      cases op with
      | slli | srli => exact Or.inl rfl
      | srai => exact Or.inr (Or.inl (by decide))
  | load _ major | store _ major | branch _ major | jal major | jalr major | lui major
  | auipc major =>
      exact namedTruly_of_other major (by decide)
  | ecall isEcall =>
      subst isEcall
      cases decoded
      exact (namedTruly_system rfl).mpr (by decide)
  | ebreak => exact absurd rfl noBreak

/-- The printed target forgets that the fetch has moved the program counter. -/
theorem target_ne (decoded : Instruction.decode w = some d)
    (executed : execute h m d = some (.ok, m')) (taken : TransferTaken m.cpu d) :
    (decodeLine m.cpu d).target ≠ some m'.cpu.pc := by
  have moved : m.cpu.pc + d.imm ≠ m.cpu.pc - 4 + d.imm := by
    intro same
    have four : (4 : Word) = 0 := sub_eq_self.mp (add_right_cancel same).symm
    exact absurd four (by decide)
  obtain ⟨format, _, rfl⟩ := Instruction.format_of_decode decoded
  rcases taken with jump | ⟨branch, op, f3, holds⟩
  · cases jump
    rw [performs_jal h m m' executed]
    exact fun same => moved (Option.some.inj same)
  · cases branch
    have installed := (performs_branch f3 h m m' executed).trans (if_pos holds)
    rw [installed]
    exact fun same => moved (Option.some.inj same)

/-- After a step that succeeds, the line is true exactly when the word is one
that is named truly and no transfer was taken: the printed target is always
four too high. -/
theorem traceTrue_iff (h : Host σ) (m m' : Machine σ) (cpu : CPU) (w : Word)
    (d : Instruction) (fetched : m.cpu.fetch m.mem = .ok (cpu, w))
    (decoded : Instruction.decode w = some d)
    (stepped : step h m = some (.ok, m')) :
    TraceTrue cpu d m' ↔ NamedTruly d ∧ ¬ TransferTaken cpu d := by
  have running : m.cpu.running = true := by
    by_contra halted
    rw [step, if_pos halted] at stepped
    cases stepped
  have executed : execute h { m with cpu } d = some (.ok, m') :=
    (step_of_decoded running fetched decoded).symm.trans stepped
  have named := names_iff decoded executed
  have wrong := target_ne decoded executed
  constructor
  · rintro ⟨name, target⟩
    exact ⟨named.mp name, fun taken => wrong taken (target taken)⟩
  · rintro ⟨truly, untaken⟩
    exact ⟨named.mpr truly, fun taken => absurd taken untaken⟩

/-- The lines of `sw sp, 0(zero)` and of a branch that is taken. -/
theorem traceTrue_iff_store :
    (∃ cpu d m', (ofWord 0x00202023).cpu.fetch (ofWord 0x00202023).mem =
        .ok (cpu, 0x00202023) ∧
      Instruction.decode 0x00202023 = some d ∧
      step Host.inert (ofWord 0x00202023) = some (.ok, m') ∧
      (TraceTrue cpu d m' ↔ NamedTruly d ∧ ¬ TransferTaken cpu d)) ∧
    ∃ cpu d m', (ofWord 0x00000463).cpu.fetch (ofWord 0x00000463).mem =
        .ok (cpu, 0x00000463) ∧
      Instruction.decode 0x00000463 = some d ∧
      step Host.inert (ofWord 0x00000463) = some (.ok, m') ∧
      (TraceTrue cpu d m' ↔ NamedTruly d ∧ ¬ TransferTaken cpu d) :=
  ⟨⟨_, _, _, rfl, rfl, rfl,
    traceTrue_iff Host.inert (ofWord 0x00202023) _ _ 0x00202023 _ rfl rfl rfl⟩,
    ⟨_, _, _, rfl, rfl, rfl,
      traceTrue_iff Host.inert (ofWord 0x00000463) _ _ 0x00000463 _ rfl rfl rfl⟩⟩

/-- `jal x1, 8` at address zero prints the target 12 and installs 8, and
`ebreak` is printed as `ecall`. -/
theorem not_traceTrue_jal :
    (∃ cpu d m', (ofWord 0x008000EF).cpu.fetch (ofWord 0x008000EF).mem =
        .ok (cpu, 0x008000EF) ∧
      Instruction.decode 0x008000EF = some d ∧
      step Host.inert (ofWord 0x008000EF) = some (.ok, m') ∧
      (decodeLine cpu d).target = some 12 ∧ m'.cpu.pc = 8 ∧ ¬ TraceTrue cpu d m') ∧
    ∃ cpu d m', (ofWord 0x00100073).cpu.fetch (ofWord 0x00100073).mem =
        .ok (cpu, 0x00100073) ∧
      Instruction.decode 0x00100073 = some d ∧
      step Host.inert (ofWord 0x00100073) = some (.ok, m') ∧
      (decodeLine cpu d).name = "ecall" ∧ ¬ TraceTrue cpu d m' := by
  refine ⟨⟨_, _, _, rfl, rfl, rfl, rfl, rfl, ?_⟩, ⟨_, _, _, rfl, rfl, rfl, rfl, ?_⟩⟩
  · rintro ⟨_, target⟩
    have same := target (Or.inl rfl)
    revert same
    decide
  · rintro ⟨⟨op, named, performed⟩, _⟩
    cases Operation.eq_ecall_of_mnemonic named
    have breakpoint : Isa.opcode 0x00100073 = Isa.opSystem ∧
        systemFunction 0x00100073 = 1 := by
      decide
    exact not_performs_ecall breakpoint.1 breakpoint.2 performed

end Lines

end Machine

end RiscvPack.Emulator
