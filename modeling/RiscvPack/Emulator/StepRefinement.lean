import RiscvPack.Emulator.Operations

/-!
# One step of the processor refines the reference semantics

The abstraction `arch` forgets the host and reads the register file through
`reg_read`.  A legal word other than `ecall` takes the machine to the state
the reference semantics names, or, when that semantics refuses a data access,
to an execution error that changes nothing but the advanced program counter.
-/

namespace RiscvPack.Emulator

open Isa (Accessible)

namespace CPU

variable (cpu : CPU) (r : Reg) (value : Word)

@[simp] theorem regWrite_pc : (cpu.regWrite r value).pc = cpu.pc := by
  unfold regWrite
  split <;> rfl

@[simp] theorem regWrite_running :
    (cpu.regWrite r value).running = cpu.running := by
  unfold regWrite
  split <;> rfl

/-- The register file as programs see it. -/
def regFile : Isa.RegFile where
  get := cpu.regRead
  get_zero := rfl

theorem regFile_regWrite :
    (cpu.regWrite r value).regFile = cpu.regFile.set r value := by
  ext s : 2
  show (cpu.regWrite r value).regRead s =
    if r ≠ 0 ∧ s = r then value else cpu.regRead s
  by_cases nonzero : r ≠ 0
  · rw [regWrite, if_pos nonzero]
    by_cases same : s = r
    · subst same
      rw [if_pos ⟨nonzero, rfl⟩, regRead, if_neg nonzero]
      exact Function.update_self ..
    · rw [if_neg (fun both => same both.2)]
      unfold regRead
      congr 1
      exact Function.update_of_ne same ..
  · rw [regWrite, if_neg nonzero, if_neg (fun both => nonzero both.1)]

end CPU

namespace Instruction

/-- A decoded instruction in terms of the reference fields of its word. -/
def ofFields (w : Word) (format : InstrFormat) (imm : Word) : Instruction where
  format := format
  raw := w
  imm := imm
  opcode := Isa.opcode w
  rd := Isa.rd w
  rs1 := Isa.rs1 w
  rs2 := Isa.rs2 w
  funct3 := Isa.funct3 w
  funct7 := Isa.funct7 w

theorem decode_eq (w : Word) :
    decode w =
      match Isa.opcode w with
      | 0x33#7 => some (ofFields w .rType 0)
      | 0x03#7 | 0x13#7 | 0x67#7 | 0x73#7 =>
          some (ofFields w .iType (Isa.immI w))
      | 0x23#7 => some (ofFields w .sType (Isa.immS w))
      | 0x63#7 => some (ofFields w .bType (Isa.immB w))
      | 0x37#7 | 0x17#7 => some (ofFields w .uType (Isa.immU w))
      | 0x6F#7 => some (ofFields w .jType (Isa.immJ w))
      | _ => none := by
  unfold decode
  -- The mask of `funct7` is also that of `opcode`, so it is recognised first.
  simp only [funct7_field]
  simp only [opcode_field, rd_field, rs1_field, rs2_field, funct3_field,
    iImm_field, sImm_field, bImm_field, uImm_field, jImm_field]
  rfl

/-- The opcodes the decoder reads as each format. -/
def formatOpcodes : InstrFormat → List Word
  | .rType => [0x33]
  | .iType => [0x03, 0x13, 0x67, 0x73]
  | .sType => [0x23]
  | .bType => [0x63]
  | .uType => [0x37, 0x17]
  | .jType => [0x6F]

/-- The immediate the decoder reads in each format. -/
def formatImm (w : Word) : InstrFormat → Word
  | .rType => 0
  | .iType => Isa.immI w
  | .sType => Isa.immS w
  | .bType => Isa.immB w
  | .uType => Isa.immU w
  | .jType => Isa.immJ w

theorem decode_of_format {w : Word} {format : InstrFormat}
    (known : (Isa.opcode w).setWidth 32 ∈ formatOpcodes format) :
    decode w = some (ofFields w format (formatImm w format)) := by
  have narrow : Isa.opcode w = ((Isa.opcode w).setWidth 32).setWidth 7 := by
    simp
  generalize (Isa.opcode w).setWidth 32 = opcode at known narrow
  rw [decode_eq, narrow]
  cases format <;> simp only [formatOpcodes, List.mem_cons, List.not_mem_nil,
    or_false] at known
  case iType => rcases known with rfl | rfl | rfl | rfl <;> rfl
  case uType => rcases known with rfl | rfl <;> rfl
  all_goals subst known; rfl

theorem format_of_decode {w : Word} {d : Instruction} (decoded : decode w = some d) :
    ∃ format, (Isa.opcode w).setWidth 32 ∈ formatOpcodes format ∧
      d = ofFields w format (formatImm w format) := by
  rw [decode_eq] at decoded
  generalize known : Isa.opcode w = opcode at decoded
  split at decoded <;> cases decoded
  · exact ⟨.rType, by decide, rfl⟩
  · exact ⟨.iType, by decide, rfl⟩
  · exact ⟨.iType, by decide, rfl⟩
  · exact ⟨.iType, by decide, rfl⟩
  · exact ⟨.iType, by decide, rfl⟩
  · exact ⟨.sType, by decide, rfl⟩
  · exact ⟨.bType, by decide, rfl⟩
  · exact ⟨.uType, by decide, rfl⟩
  · exact ⟨.uType, by decide, rfl⟩
  · exact ⟨.jType, by decide, rfl⟩

end Instruction

namespace Machine

variable {σ : Type}

/-- The architectural state of a machine. -/
def arch (m : Machine σ) : Isa.State where
  pc := m.cpu.pc
  x := m.cpu.regFile
  mem := m.mem.data
  size := m.mem.size.toNat

/-- The machine after a successful fetch. -/
def advance (m : Machine σ) : Machine σ :=
  { m with cpu := { m.cpu with pc := m.cpu.pc + 4 } }

/-- The word at the program counter. -/
def fetched (m : Machine σ) : Word :=
  Bits.ofLeBytes (m.mem.data m.cpu.pc) (m.mem.data (m.cpu.pc + 1))
    (m.mem.data (m.cpu.pc + 2)) (m.mem.data (m.cpu.pc + 3))

/-- The program counter denotes a whole aligned word of memory. -/
structure Fetchable (m : Machine σ) : Prop where
  running : m.cpu.running = true
  holds : 4 ≤ m.mem.size.toNat
  accessible : Accessible m.mem.size.toNat 4 m.cpu.pc

theorem Fetchable.fetch {m : Machine σ} (ready : m.Fetchable) :
    m.cpu.fetch m.mem = .ok (m.advance.cpu, m.fetched) := by
  rw [CPU.fetch, Memory.read32_of_accessible ready.holds ready.accessible]
  rfl

theorem step_of_fetchable (h : Host σ) {m : Machine σ} (ready : m.Fetchable) :
    step h m =
      match Instruction.decode m.fetched with
      | none => some (.decodeError, m.advance)
      | some decoded => execute h m.advance decoded := by
  rw [step, if_neg (by simp [ready.running]), ready.fetch]
  rfl

/-- A processor about to execute `w`, alone in a four-byte memory. -/
def ofWord (w : Word) : Machine Unit where
  cpu := CPU.init
  mem := { size := 4, data := fun a => w.extractLsb' (8 * a.toNat) 8 }
  host := ()

/-- `m'` is `m` with the architectural state `s`. -/
structure Reaches (m : Machine σ) (s : Isa.State) (m' : Machine σ) : Prop where
  arch : m'.arch = s
  running : m'.cpu.running = m.cpu.running
  size : m'.mem.size = m.mem.size
  host : m'.host = m.host

private theorem reaches_writeNext (m : Machine σ) (r : Reg) (value : Word) :
    m.Reaches (m.arch.writeNext r value)
      { m.advance with cpu := m.advance.cpu.regWrite r value } where
  arch := by
    have file := m.advance.cpu.regFile_regWrite r value
    simp only [arch, CPU.regWrite_pc, file]
    rfl
  running := CPU.regWrite_running ..
  size := rfl
  host := rfl

private theorem reaches_link (m : Machine σ) (r : Reg) (target : Word) :
    m.Reaches { m.arch with x := m.arch.x.set r (m.cpu.pc + 4), pc := target }
      { m.advance with
        cpu := { m.advance.cpu.regWrite r m.advance.cpu.pc with pc := target } }
    where
  arch := by
    have file := m.advance.cpu.regFile_regWrite r m.advance.cpu.pc
    simp only [arch]
    congr 1
  running := CPU.regWrite_running ..
  size := rfl
  host := rfl

private theorem reaches_jump (m : Machine σ) (target : Word) :
    m.Reaches { m.arch with pc := target }
      { m.advance with cpu := { m.advance.cpu with pc := target } } where
  arch := rfl
  running := rfl
  size := rfl
  host := rfl

/-- What `execute` does, after a fetch from `m`, with the word of a reference
instruction. -/
def ExecutesAs (h : Host σ) (m : Machine σ) (decoded : Instruction)
    (i : Isa.Instr) : Prop :=
  match Isa.exec m.arch i with
  | some s => ∃ m', execute h m.advance decoded = some (.ok, m') ∧ m.Reaches s m'
  | none => execute h m.advance decoded = some (.executionError, m.advance)

section Execution

variable {h : Host σ} {m : Machine σ} {w : Word}

private theorem executesAs_reg (op : Isa.RegOp) (f7 : Isa.funct7 w = op.funct7)
    (f3 : Isa.funct3 w = op.funct3)
    (defined : op = .div ∨ op = .rem →
      CPU.SignedDivisionDefined (m.arch.x.get (Isa.rs1 w))
        (m.arch.x.get (Isa.rs2 w))) :
    ExecutesAs h m (Instruction.ofFields w .rType 0)
      (.reg op (Isa.rd w) (Isa.rs1 w) (Isa.rs2 w)) := by
  refine ⟨_, ?_, reaches_writeNext m (Isa.rd w) _⟩
  by_cases extension : op.funct7 = 0x01
  · have result := CPU.executeMulDiv_eq (m.arch.x.get (Isa.rs1 w))
      (m.arch.x.get (Isa.rs2 w)) op extension defined
    simp only [execute, Instruction.ofFields, f7, f3, if_pos extension]
    exact congrArg (Option.map _) result
  · have result := CPU.executeAlu_reg (m.arch.x.get (Isa.rs1 w))
      (m.arch.x.get (Isa.rs2 w)) op extension
    simp only [execute, Instruction.ofFields, f7, f3, if_neg extension]
    rw [← result]
    rfl

private theorem executesAs_imm (major : Isa.opcode w = Isa.opImm)
    (op : Isa.ImmOp) (f3 : Isa.funct3 w = op.funct3) :
    ExecutesAs h m (Instruction.ofFields w .iType (Isa.immI w))
      (.imm op (Isa.rd w) (Isa.rs1 w) (Isa.immI w)) := by
  refine ⟨_, ?_, reaches_writeNext m (Isa.rd w) _⟩
  have noShift : ¬ (op.funct3 = 0x1 ∨ op.funct3 = 0x5) := by
    cases op <;> decide
  simp only [execute, Instruction.ofFields, major, f3, if_neg noShift]
  rw [← CPU.executeAlu_imm]
  rfl

theorem shift_fields (w : Word) :
    (((Isa.immI w).sshiftRight 5) &&& 0x7F).setWidth 7 = Isa.funct7 w ∧
      (Isa.immI w).setWidth 5 = Isa.rs2 w := by
  constructor <;>
  · apply BitVec.eq_of_getLsbD_eq
    intro i inRange
    interval_cases i <;>
      simp [Isa.immI, Isa.funct7, Isa.rs2, BitVec.getElem_sshiftRight,
        BitVec.getElem_signExtend]

private theorem executesAs_shift (major : Isa.opcode w = Isa.opImm)
    (op : Isa.ShiftOp) (f7 : Isa.funct7 w = op.funct7)
    (f3 : Isa.funct3 w = op.funct3) :
    ExecutesAs h m (Instruction.ofFields w .iType (Isa.immI w))
      (.shift op (Isa.rd w) (Isa.rs1 w) (Isa.rs2 w)) := by
  refine ⟨_, ?_, reaches_writeNext m (Isa.rd w) _⟩
  have isShift : op.funct3 = 0x1 ∨ op.funct3 = 0x5 := by
    cases op <;> decide
  simp only [execute, Instruction.ofFields, major, f3, if_pos isShift]
  rw [(shift_fields w).1, f7, ← (shift_fields w).2, ← CPU.executeAlu_shift]
  rfl

theorem execute_load {instr : Instruction}
    (format : instr.format = .iType) (major : instr.opcode = Isa.opLoad) :
    execute h m instr =
      match m.cpu.executeLoad m.mem instr with
      | .error status => some (status, m)
      | .ok result =>
          some (.ok, { m with cpu := m.cpu.regWrite instr.rd result }) := by
  unfold execute
  rw [format, major]
  rfl

private theorem executesAs_load (holds : 4 ≤ m.mem.size.toNat)
    (major : Isa.opcode w = Isa.opLoad) (op : Isa.LoadOp)
    (f3 : Isa.funct3 w = op.funct3) :
    ExecutesAs h m (Instruction.ofFields w .iType (Isa.immI w))
      (.load op (Isa.rd w) (Isa.rs1 w) (Isa.immI w)) := by
  have loaded := CPU.executeLoad_eq m.advance.cpu m.mem
    (Instruction.ofFields w .iType (Isa.immI w)) op f3 holds
  simp only [ExecutesAs, Isa.exec]
  by_cases accessible : Accessible m.arch.size op.width
      (m.arch.x.get (Isa.rs1 w) + Isa.immI w)
  · rw [if_pos accessible]
    refine ⟨_, ?_, reaches_writeNext m (Isa.rd w) _⟩
    have result : m.advance.cpu.executeLoad m.advance.mem _ = .ok _ :=
      loaded.trans (if_pos accessible)
    rw [execute_load rfl major, result]
    rfl
  · rw [if_neg accessible]
    have refused : m.advance.cpu.executeLoad m.advance.mem _ = .error _ :=
      loaded.trans (if_neg accessible)
    show execute h m.advance _ = some (.executionError, m.advance)
    rw [execute_load rfl major, refused]

theorem execute_store {instr : Instruction}
    (format : instr.format = .sType) :
    execute h m instr =
      match m.cpu.executeStore m.mem instr with
      | .stopped status mem => some (status, { m with mem })
      | .done mem => some (.ok, { m with mem }) := by
  obtain ⟨kind, raw, imm, opcode, rd, rs1, rs2, funct3, funct7⟩ := instr
  cases format
  rfl

private theorem reaches_store (m : Machine σ) (data : Word → Byte) :
    m.Reaches { m.arch with mem := data, pc := m.cpu.pc + 4 }
      { m.advance with mem := { m.mem with data } } where
  arch := rfl
  running := rfl
  size := rfl
  host := rfl

private theorem executesAs_store (holds : 4 ≤ m.mem.size.toNat)
    (op : Isa.StoreOp) (f3 : Isa.funct3 w = op.funct3) :
    ExecutesAs h m (Instruction.ofFields w .sType (Isa.immS w))
      (.store op (Isa.rs2 w) (Isa.rs1 w) (Isa.immS w)) := by
  have stored := CPU.executeStore_eq m.advance.cpu m.mem
    (Instruction.ofFields w .sType (Isa.immS w)) op f3 holds
  simp only [ExecutesAs, Isa.exec]
  by_cases accessible : Accessible m.arch.size op.width
      (m.arch.x.get (Isa.rs1 w) + Isa.immS w)
  · rw [if_pos accessible]
    refine ⟨_, ?_, reaches_store m _⟩
    have result : m.advance.cpu.executeStore m.advance.mem _ = .done _ :=
      stored.trans (if_pos accessible)
    rw [execute_store rfl, result]
    rfl
  · rw [if_neg accessible]
    have refused : m.advance.cpu.executeStore m.advance.mem _ = .stopped _ _ :=
      stored.trans (if_neg accessible)
    show execute h m.advance _ = some (.executionError, m.advance)
    rw [execute_store rfl, refused]
    rfl

theorem execute_branch (instr : Instruction)
    (format : instr.format = .bType) :
    execute h m instr =
      match m.cpu.executeBranch instr with
      | .error status => some (status, m)
      | .ok cpu => some (.ok, { m with cpu }) := by
  obtain ⟨kind, raw, imm, opcode, rd, rs1, rs2, funct3, funct7⟩ := instr
  cases format
  rfl

/-- The fetch has already added four, which the source takes off again. -/
private theorem advanced_target (pc offset : Word) :
    pc + 4 + (offset - 4) = pc + offset := by
  ring

private theorem executesAs_branch (op : Isa.BranchOp)
    (f3 : Isa.funct3 w = op.funct3) :
    ExecutesAs h m (Instruction.ofFields w .bType (Isa.immB w))
      (.branch op (Isa.rs1 w) (Isa.rs2 w) (Isa.immB w)) := by
  have branched := CPU.executeBranch_eq m.advance.cpu
    (Instruction.ofFields w .bType (Isa.immB w)) op f3
  have executed := execute_branch (h := h) (m := m.advance)
    (.ofFields w .bType (Isa.immB w)) rfl
  rw [branched] at executed
  simp only [ExecutesAs, Isa.exec]
  by_cases taken : op.taken (m.arch.x.get (Isa.rs1 w))
      (m.arch.x.get (Isa.rs2 w)) = true
  · rw [if_pos taken]
    refine ⟨_, ?_, reaches_jump m _⟩
    rw [executed]
    simp only [Option.some.injEq, Prod.mk.injEq, true_and]
    congr 1
    refine (if_pos taken).trans ?_
    have target := advanced_target m.cpu.pc (Isa.immB w)
    exact congrArg (fun pc => { m.advance.cpu with pc }) target
  · rw [if_neg taken]
    refine ⟨_, ?_, reaches_jump m _⟩
    rw [executed]
    simp only [Option.some.injEq, Prod.mk.injEq, true_and]
    congr 1
    exact if_neg taken

private theorem executesAs_jal :
    ExecutesAs h m (Instruction.ofFields w .jType (Isa.immJ w))
      (.jal (Isa.rd w) (Isa.immJ w)) := by
  refine ⟨_, ?_, reaches_link m (Isa.rd w) _⟩
  have target : (m.advance.cpu.regWrite (Isa.rd w) m.advance.cpu.pc).pc +
      (Isa.immJ w - 4) = m.arch.pc + Isa.immJ w :=
    (congrArg (· + (Isa.immJ w - 4)) (CPU.regWrite_pc ..)).trans
      (advanced_target m.cpu.pc (Isa.immJ w))
  rw [← target]
  rfl

private theorem executesAs_jalr (major : Isa.opcode w = Isa.opJalr) :
    ExecutesAs h m (Instruction.ofFields w .iType (Isa.immI w))
      (.jalr (Isa.rd w) (Isa.rs1 w) (Isa.immI w)) := by
  refine ⟨_, ?_, reaches_link m (Isa.rd w) _⟩
  simp only [execute, Instruction.ofFields, major]
  rfl

private theorem executesAs_lui (major : Isa.opcode w = Isa.opLui) :
    ExecutesAs h m (Instruction.ofFields w .uType (Isa.immU w))
      (.lui (Isa.rd w) (Isa.immU w)) := by
  refine ⟨_, ?_, reaches_writeNext m (Isa.rd w) _⟩
  simp only [execute, Instruction.ofFields, major]
  rfl

private theorem executesAs_auipc (major : Isa.opcode w = Isa.opAuipc) :
    ExecutesAs h m (Instruction.ofFields w .uType (Isa.immU w))
      (.auipc (Isa.rd w) (Isa.immU w)) := by
  refine ⟨_, ?_, reaches_writeNext m (Isa.rd w) _⟩
  have base : m.arch.pc + Isa.immU w =
      m.advance.cpu.pc + Isa.immU w - 4 := by
    show m.cpu.pc + Isa.immU w = m.cpu.pc + 4 + Isa.immU w - 4
    ring
  rw [base]
  simp only [execute, Instruction.ofFields, major]
  rfl

private theorem executesAs_ebreak :
    ExecutesAs h m (Instruction.ofFields 0x00100073 .iType
      (Isa.immI 0x00100073)) .ebreak :=
  ⟨_, rfl, reaches_jump m _⟩

/-- Decoding and executing a legal word: one case for each format. -/
theorem executesAs_of_decodes (h : Host σ) {m : Machine σ} {w : Word}
    {i : Isa.Instr} (holds : 4 ≤ m.mem.size.toNat) (decodes : Isa.Decodes w i)
    (noCall : i ≠ .ecall) (defined : ¬ Isa.DivOverflow m.arch i) :
    ∃ decoded, Instruction.decode w = some decoded ∧
      ExecutesAs h m decoded i := by
  rw [Instruction.decode_eq]
  cases decodes with
  | reg op major f7 f3 =>
      rw [major]
      refine ⟨_, rfl, executesAs_reg op f7 f3 ?_⟩
      rintro (rfl | rfl)
      · exact defined
      · exact defined
  | imm op major f3 =>
      rw [major]
      exact ⟨_, rfl, executesAs_imm major op f3⟩
  | shift op major f7 f3 =>
      rw [major]
      exact ⟨_, rfl, executesAs_shift major op f7 f3⟩
  | load op major f3 =>
      rw [major]
      exact ⟨_, rfl, executesAs_load holds major op f3⟩
  | store op major f3 =>
      rw [major]
      exact ⟨_, rfl, executesAs_store holds op f3⟩
  | branch op major f3 =>
      rw [major]
      exact ⟨_, rfl, executesAs_branch op f3⟩
  | jal major =>
      rw [major]
      exact ⟨_, rfl, executesAs_jal⟩
  | jalr major f3 =>
      rw [major]
      exact ⟨_, rfl, executesAs_jalr major⟩
  | lui major =>
      rw [major]
      exact ⟨_, rfl, executesAs_lui major⟩
  | auipc major =>
      rw [major]
      exact ⟨_, rfl, executesAs_auipc major⟩
  | ecall => exact absurd rfl noCall
  | ebreak isEbreak =>
      subst isEbreak
      exact ⟨_, rfl, executesAs_ebreak⟩

/-- A step whose fetched word is legal does what the reference semantics
says, whenever that semantics has a result. -/
theorem step_ok (h : Host σ) {m : Machine σ} {i : Isa.Instr} {s : Isa.State}
    (ready : m.Fetchable) (legal : Isa.decode m.fetched = some i)
    (defined : ¬ Isa.DivOverflow m.arch i)
    (effect : Isa.exec m.arch i = some s) :
    ∃ m', step h m = some (.ok, m') ∧ m.Reaches s m' := by
  have noCall : i ≠ .ecall := by
    rintro rfl
    cases effect
  obtain ⟨decoded, decodedEq, executes⟩ := executesAs_of_decodes h ready.holds
    (Isa.decode_eq_some_iff.mp legal) noCall defined
  rw [step_of_fetchable h ready, decodedEq]
  simpa only [ExecutesAs, effect] using executes

/-- Where the reference semantics refuses a data access, the step reports an
execution error. -/
theorem step_executionError (h : Host σ) {m : Machine σ} {i : Isa.Instr}
    (ready : m.Fetchable) (legal : Isa.decode m.fetched = some i)
    (noCall : i ≠ .ecall) (refused : Isa.exec m.arch i = none) :
    step h m = some (.executionError, m.advance) := by
  have noDivision : ¬ Isa.DivOverflow m.arch i := by
    obtain ⟨_, _, access, _⟩ := (Isa.exec_eq_none_iff noCall).mp refused
    intro overflow
    cases i with
    | load | store => exact overflow
    | _ => cases access
  obtain ⟨decoded, decodedEq, executes⟩ := executesAs_of_decodes h ready.holds
    (Isa.decode_eq_some_iff.mp legal) noCall noDivision
  rw [step_of_fetchable h ready, decodedEq]
  simpa only [ExecutesAs, refused] using executes

end Execution

/-- For a running processor whose program counter denotes a whole aligned
word, every legal word except `ecall`, `div` and `rem` executes as the
reference semantics says.  The second part characterises the refused accesses,
the third says what the step does with them. -/
theorem step_refines_reference (h : Host σ) (m : Machine σ) (i : Isa.Instr)
    (running : m.cpu.running = true) (holds : 4 ≤ m.mem.size.toNat)
    (aligned : m.cpu.pc.toNat % 4 = 0)
    (inside : m.cpu.pc.toNat + 4 ≤ m.mem.size.toNat)
    (legal : Isa.decode m.fetched = some i) (noCall : i ≠ .ecall)
    (noDivision : ∀ rd rs1 rs2,
      i ≠ .reg .div rd rs1 rs2 ∧ i ≠ .reg .rem rd rs1 rs2) :
    (∀ s, Isa.exec m.arch i = some s →
      ∃ m', step h m = some (.ok, m') ∧ m.Reaches s m' ∧
        m'.cpu.regRead 0 = 0 ∧
        (∀ r, i.dest ≠ some r → m'.cpu.regRead r = m.cpu.regRead r) ∧
        (∀ a, ¬ i.Writes m.arch a → m'.mem.data a = m.mem.data a)) ∧
    (Isa.exec m.arch i = none ↔
      ∃ width a, i.access m.arch = some (width, a) ∧
        ¬ Accessible m.mem.size.toNat width a) ∧
    (Isa.exec m.arch i = none →
      ∃ m', step h m = some (.executionError, m') ∧
        m'.cpu.x = m.cpu.x ∧ m'.mem = m.mem) := by
  have ready : m.Fetchable := ⟨running, holds, aligned, inside⟩
  refine ⟨?_, Isa.exec_eq_none_iff noCall, ?_⟩
  · intro s effect
    have defined : ¬ Isa.DivOverflow m.arch i := by
      intro overflow
      unfold Isa.DivOverflow at overflow
      split at overflow
      · exact (noDivision _ _ _).1 rfl
      · exact (noDivision _ _ _).2 rfl
      · exact overflow
    obtain ⟨m', stepped, reaches⟩ := step_ok h ready legal defined effect
    refine ⟨m', stepped, reaches, rfl, ?_, ?_⟩
    · intro r other
      have kept := Isa.exec_get_of_ne_dest effect other
      rw [← reaches.arch] at kept
      exact kept
    · intro a outside
      have kept := Isa.exec_mem_of_not_writes effect outside
      rw [← reaches.arch] at kept
      exact kept
  · intro refused
    exact ⟨_, step_executionError h ready legal noCall refused, rfl, rfl⟩

/-- `sw sp, 0(zero)` overwrites itself in a memory of four bytes, and
`sw sp, 4(zero)` goes beyond that memory. -/
theorem step_refines_reference_store :
    (∃ m', step Host.inert (ofWord 0x00202023) = some (.ok, m') ∧ m'.arch.pc = 4 ∧
      Isa.LoadOp.lw.value m'.arch.mem 0 = stackTop) ∧
      ∃ m', step Host.inert (ofWord 0x00202223) = some (.executionError, m') ∧
        m'.mem = (ofWord 0x00202223).mem := by
  have stores := step_refines_reference Host.inert (ofWord 0x00202023) (.store .sw 2 0 0)
    rfl (by decide) (by decide) (by decide) (by decide) (by decide)
    (by intro rd rs1 rs2; constructor <;> intro same <;> cases same)
  have faults := step_refines_reference Host.inert (ofWord 0x00202223) (.store .sw 2 0 4)
    rfl (by decide) (by decide) (by decide) (by decide) (by decide)
    (by intro rd rs1 rs2; constructor <;> intro same <;> cases same)
  obtain ⟨m', stepped, reaches, _⟩ := stores.1 _ rfl
  obtain ⟨last, failed, _, memory⟩ := faults.2.2 rfl
  refine ⟨⟨m', stepped, ?_, ?_⟩, last, failed, memory⟩
  · rw [reaches.arch]
    decide
  · rw [reaches.arch]
    decide

end Machine

end RiscvPack.Emulator
