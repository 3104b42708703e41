import RiscvPack.Emulator.StepRefinement

/-!
# Words that encode no instruction

Which illegal words the processor refuses.  Legality is checked only where a
`switch` has a default: the opcode, the `funct3` of loads, stores and
branches, and the function number of a SYSTEM word.  Every other illegal word
runs as some operation.
-/

namespace RiscvPack.Emulator

namespace CPU

variable {cpu : CPU} {mem : Memory} {instr : Instruction}

theorem executeLoad_reserved
    (reserved : Isa.LoadOp.ofFunct instr.funct3 = none) :
    cpu.executeLoad mem instr = .error .illegalInstruction := by
  have codes : ∀ f3, Isa.LoadOp.ofFunct f3 = none → f3 = 3 ∨ f3 = 6 ∨ f3 = 7 := by
    decide
  unfold executeLoad
  rcases codes _ reserved with code | code | code <;> rw [code] <;> rfl

theorem executeStore_reserved
    (reserved : Isa.StoreOp.ofFunct instr.funct3 = none) :
    cpu.executeStore mem instr = .stopped .illegalInstruction mem := by
  have codes : ∀ f3, Isa.StoreOp.ofFunct f3 = none →
      f3 = 3 ∨ f3 = 4 ∨ f3 = 5 ∨ f3 = 6 ∨ f3 = 7 := by
    decide
  unfold executeStore
  rcases codes _ reserved with code | code | code | code | code <;>
    rw [code] <;> rfl

theorem executeBranch_reserved
    (reserved : Isa.BranchOp.ofFunct instr.funct3 = none) :
    cpu.executeBranch instr = .error .illegalInstruction := by
  have codes : ∀ f3, Isa.BranchOp.ofFunct f3 = none → f3 = 2 ∨ f3 = 3 := by
    decide
  unfold executeBranch
  rcases codes _ reserved with code | code <;> rw [code] <;> rfl

end CPU

namespace Machine

variable {σ : Type}

/-- The function number of a SYSTEM word. -/
def systemFunction (w : Word) : BitVec 12 := w.extractLsb' 20 12

/-- The opcodes under which no word is refused. -/
def Unchecked (w : Word) : Prop :=
  Isa.opcode w = Isa.opReg ∨ Isa.opcode w = Isa.opImm ∨
    Isa.opcode w = Isa.opJalr ∨
    (Isa.opcode w = Isa.opSystem ∧
      (systemFunction w = 0 ∨ systemFunction w = 1))

instance (w : Word) : Decidable (Unchecked w) :=
  inferInstanceAs (Decidable (_ ∨ _))

/-- A refusal that leaves registers and memory alone. -/
def Refuses (h : Host σ) (m : Machine σ) : Prop :=
  ∃ status m', step h m = some (status, m') ∧
    (status = .decodeError ∨ status = .illegalInstruction) ∧
    m'.cpu.x = m.cpu.x ∧ m'.mem = m.mem

theorem handleSyscall_status (h : Host σ) (m : Machine σ) :
    (m.handleSyscall h).1 = .ok ∨ (m.handleSyscall h).1 = .syscallExit := by
  unfold handleSyscall
  dsimp only
  repeat' split
  all_goals simp

theorem immI_low (w : Word) :
    Isa.immI w &&& 0xFFF = (systemFunction w).setWidth 32 := by
  apply BitVec.eq_of_getLsbD_eq
  intro i inRange
  interval_cases i <;>
    simp [Isa.immI, systemFunction, BitVec.getElem_signExtend]

theorem systemFunction_eq_iff (w : Word) (n : BitVec 12) :
    Isa.immI w &&& 0xFFF = n.setWidth 32 ↔ systemFunction w = n := by
  rw [immI_low]
  constructor
  · intro same
    have narrowed := congrArg (BitVec.setWidth 12) same
    simpa using narrowed
  · rintro rfl
    rfl

section

variable {h : Host σ} {m : Machine σ} {w : Word}

theorem execute_alu (instr : Instruction)
    (format : instr.format = .rType) (notExtension : instr.funct7 ≠ 0x01) :
    execute h m instr =
      some (.ok, { m with
        cpu := m.cpu.regWrite instr.rd
          (CPU.executeAlu (m.cpu.regRead instr.rs1) (m.cpu.regRead instr.rs2)
            instr.funct3 instr.funct7 false) }) := by
  unfold execute
  rw [format]
  exact if_neg notExtension

theorem execute_system {instr : Instruction}
    (format : instr.format = .iType) (major : instr.opcode = Isa.opSystem) :
    execute h m instr = some (m.executeSystem h instr) := by
  unfold execute
  rw [format, major]
  rfl

theorem executeSystem_one (one : systemFunction w = 1) :
    m.executeSystem h (.ofFields w .iType (Isa.immI w)) = (.ok, m) := by
  have nonzero : ¬ Isa.immI w &&& 0xFFF = 0x000 := by
    intro isZero
    have zero := (systemFunction_eq_iff w 0).mp isZero
    rw [one] at zero
    cases zero
  exact (if_neg nonzero).trans (if_pos ((systemFunction_eq_iff w 1).mpr one))

theorem executeSystem_other (nonzero : systemFunction w ≠ 0)
    (notOne : systemFunction w ≠ 1) :
    m.executeSystem h (.ofFields w .iType (Isa.immI w)) =
      (.illegalInstruction, m) :=
  (if_neg (fun same => nonzero ((systemFunction_eq_iff w 0).mp same))).trans
    (if_neg (fun same => notOne ((systemFunction_eq_iff w 1).mp same)))

/-- Executing an illegal word under an unchecked opcode reports no refusal. -/
private theorem execute_unchecked (illegal : Isa.decode w = none)
    (unchecked : Unchecked w) :
    ∃ decoded, Instruction.decode w = some decoded ∧
      ∀ status m', execute h m decoded = some (status, m') →
        status = .ok ∨ status = .syscallExit := by
  rw [Instruction.decode_eq]
  rcases unchecked with major | major | major | ⟨major, number⟩ <;> rw [major]
  · refine ⟨_, rfl, ?_⟩
    intro status m' executed
    -- All eight M operations are legal, so a reserved `funct7` is not theirs.
    have notExtension : Isa.funct7 w ≠ 0x01 := by
      intro extension
      have known : ∀ f3, Isa.RegOp.ofFunct 0x01 f3 ≠ none := by decide
      simp only [Isa.decode, major, if_pos, Option.map_eq_none_iff,
        extension] at illegal
      exact known _ illegal
    have alu := execute_alu (h := h) (m := m) (.ofFields w .rType 0)
      rfl notExtension
    rw [alu] at executed
    cases executed
    exact Or.inl rfl
  · refine ⟨_, rfl, ?_⟩
    intro status m' executed
    simp only [execute, Instruction.ofFields, major] at executed
    cases executed
    exact Or.inl rfl
  · refine ⟨_, rfl, ?_⟩
    intro status m' executed
    simp only [execute, Instruction.ofFields, major] at executed
    cases executed
    exact Or.inl rfl
  · refine ⟨_, rfl, ?_⟩
    intro status m' executed
    rw [execute_system rfl major, Option.some.injEq] at executed
    rcases number with zero | one
    · have call : m.executeSystem h (.ofFields w .iType (Isa.immI w)) =
          m.handleSyscall h :=
        if_pos ((systemFunction_eq_iff w 0).mpr zero)
      have outcome := handleSyscall_status h m
      rw [← call, executed] at outcome
      exact outcome
    · have breakpoint := executeSystem_one (h := h) (m := m) one
      rw [executed] at breakpoint
      cases breakpoint
      exact Or.inl rfl

private theorem not_decodes (illegal : Isa.decode w = none) (i : Isa.Instr) :
    ¬ Isa.Decodes w i := by
  intro decodes
  have legal := Isa.decode_eq_some_iff.mpr decodes
  rw [illegal] at legal
  cases legal

private theorem decode_unknown (notReg : Isa.opcode w ≠ Isa.opReg)
    (notImm : Isa.opcode w ≠ Isa.opImm) (notLoad : Isa.opcode w ≠ Isa.opLoad)
    (notStore : Isa.opcode w ≠ Isa.opStore)
    (notBranch : Isa.opcode w ≠ Isa.opBranch)
    (notJal : Isa.opcode w ≠ Isa.opJal) (notJalr : Isa.opcode w ≠ Isa.opJalr)
    (notLui : Isa.opcode w ≠ Isa.opLui)
    (notAuipc : Isa.opcode w ≠ Isa.opAuipc)
    (notSystem : Isa.opcode w ≠ Isa.opSystem) :
    Instruction.decode w = none := by
  rw [Instruction.decode_eq]
  split
  · exact absurd ‹_› notReg
  · exact absurd ‹_› notLoad
  · exact absurd ‹_› notImm
  · exact absurd ‹_› notJalr
  · exact absurd ‹_› notSystem
  · exact absurd ‹_› notStore
  · exact absurd ‹_› notBranch
  · exact absurd ‹_› notLui
  · exact absurd ‹_› notAuipc
  · exact absurd ‹_› notJal
  · rfl

/-- Every other illegal word is refused, by the decoder or by a default case
of its operation. -/
private theorem execute_checked (illegal : Isa.decode w = none)
    (checked : ¬ Unchecked w) :
    Instruction.decode w = none ∨
      ∃ decoded, Instruction.decode w = some decoded ∧
        execute h m decoded = some (.illegalInstruction, m) := by
  simp only [Unchecked, not_or, not_and] at checked
  obtain ⟨notReg, notImm, notJalr, system⟩ := checked
  by_cases isLoad : Isa.opcode w = Isa.opLoad
  · right
    rw [Instruction.decode_eq, isLoad]
    refine ⟨_, rfl, ?_⟩
    have reserved : Isa.LoadOp.ofFunct (Isa.funct3 w) = none := by
      rw [Option.eq_none_iff_forall_ne_some]
      intro op found
      exact not_decodes illegal _
        (.load op isLoad (Isa.LoadOp.ofFunct_eq_some found))
    rw [execute_load rfl isLoad, CPU.executeLoad_reserved reserved]
  by_cases isStore : Isa.opcode w = Isa.opStore
  · right
    rw [Instruction.decode_eq, isStore]
    refine ⟨_, rfl, ?_⟩
    have reserved : Isa.StoreOp.ofFunct (Isa.funct3 w) = none := by
      rw [Option.eq_none_iff_forall_ne_some]
      intro op found
      exact not_decodes illegal _
        (.store op isStore (Isa.StoreOp.ofFunct_eq_some found))
    rw [execute_store rfl, CPU.executeStore_reserved reserved]
  by_cases isBranch : Isa.opcode w = Isa.opBranch
  · right
    rw [Instruction.decode_eq, isBranch]
    refine ⟨_, rfl, ?_⟩
    have reserved : Isa.BranchOp.ofFunct (Isa.funct3 w) = none := by
      rw [Option.eq_none_iff_forall_ne_some]
      intro op found
      exact not_decodes illegal _
        (.branch op isBranch (Isa.BranchOp.ofFunct_eq_some found))
    rw [execute_branch _ rfl, CPU.executeBranch_reserved reserved]
  by_cases isJal : Isa.opcode w = Isa.opJal
  · exact absurd (.jal isJal) (not_decodes illegal _)
  by_cases isLui : Isa.opcode w = Isa.opLui
  · exact absurd (.lui isLui) (not_decodes illegal _)
  by_cases isAuipc : Isa.opcode w = Isa.opAuipc
  · exact absurd (.auipc isAuipc) (not_decodes illegal _)
  by_cases isSystem : Isa.opcode w = Isa.opSystem
  · right
    rw [Instruction.decode_eq, isSystem]
    refine ⟨_, rfl, ?_⟩
    have number := system isSystem
    rw [execute_system rfl isSystem, executeSystem_other number.1 number.2]
  · left
    exact decode_unknown notReg notImm isLoad isStore isBranch isJal notJalr
      isLui isAuipc isSystem

theorem step_of_decoded {cpu : CPU} {d : Instruction} (running : m.cpu.running = true)
    (fetched : m.cpu.fetch m.mem = .ok (cpu, w)) (decoded : Instruction.decode w = some d) :
    step h m = execute h { m with cpu } d := by
  rw [step, if_neg (by simp [running]), fetched]
  simp only [decoded]

/-- A running processor that has fetched an illegal word refuses it exactly
when its opcode is one whose words are checked. -/
theorem refuses_iff_not_unchecked (h : Host σ) (m : Machine σ) (cpu : CPU)
    (w : Word) (running : m.cpu.running = true)
    (fetched : m.cpu.fetch m.mem = .ok (cpu, w)) (illegal : ¬ Isa.Legal w) :
    Refuses h m ↔ ¬ Unchecked w := by
  have undecoded : Isa.decode w = none := by
    simpa [Isa.Legal] using illegal
  have file : cpu.x = m.cpu.x := by
    unfold CPU.fetch at fetched
    split at fetched <;> cases fetched
    rfl
  have stuck (unknown : Instruction.decode w = none) :
      step h m = some (.decodeError, { m with cpu }) := by
    rw [step, if_neg (by simp [running]), fetched]
    simp only [unknown]
  constructor
  · rintro ⟨status, m', result, refusal, _, _⟩ unchecked
    obtain ⟨decoded, decodedEq, outcome⟩ :=
      execute_unchecked (h := h) (m := { m with cpu }) undecoded unchecked
    rw [step_of_decoded running fetched decodedEq] at result
    rcases refusal with rfl | rfl <;>
      rcases outcome _ _ result with impossible | impossible <;>
      cases impossible
  · intro checked
    rcases execute_checked (h := h) (m := { m with cpu }) undecoded checked with
      unknown | ⟨decoded, decodedEq, executed⟩
    · exact ⟨_, _, stuck unknown, Or.inl rfl, file, rfl⟩
    · have stepped := (step_of_decoded running fetched decodedEq).trans executed
      exact ⟨_, _, stepped, Or.inr rfl, file, rfl⟩

/-- `jalr` with `funct3 = 1` is illegal, and is executed. -/
theorem not_refuses_jalr_funct3 :
    (ofWord 0x00001067).cpu.running = true ∧
      (∃ cpu, (ofWord 0x00001067).cpu.fetch (ofWord 0x00001067).mem =
        .ok (cpu, 0x00001067)) ∧
      ¬ Isa.Legal 0x00001067 ∧ ¬ Refuses Host.inert (ofWord 0x00001067) := by
  refine ⟨rfl, ⟨_, rfl⟩, by decide, ?_⟩
  rintro ⟨status, m', stepped, refusal, _, _⟩
  have executed : (step Host.inert (ofWord 0x00001067)).map (·.1) = some .ok := by
    decide
  rw [stepped] at executed
  rcases refusal with rfl | rfl <;> cases executed

/-- A word with an unknown opcode is refused. -/
theorem refuses_iff_not_unchecked_zero :
    Refuses Host.inert (ofWord 0x00000000) ↔ ¬ Unchecked 0x00000000 :=
  refuses_iff_not_unchecked Host.inert (ofWord 0x00000000) _ 0x00000000 rfl rfl
    (by decide)

end

end Machine

end RiscvPack.Emulator
