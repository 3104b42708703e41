import RiscvPack.Assembler.Canonical
import RiscvPack.Emulator.StepRefinement

/-!
# Assembling and decoding an instruction

The text of an instruction goes through the front end, the operand readers
and an encoder of the assembler, and comes back out of the emulator's decoder.
-/

namespace RiscvPack.Asm

open CString

section Tables

theorem encodings_reg (op : Isa.RegOp) :
    encodings.lookup (regText op) =
      some (.r (op.funct7.setWidth 32) (op.funct3.setWidth 32)) := by
  cases op <;> rfl

theorem encodings_imm (op : Isa.ImmOp) :
    encodings.lookup (immText op) = some (.i (op.funct3.setWidth 32)) := by
  cases op <;> rfl

theorem encodings_shift (op : Isa.ShiftOp) :
    encodings.lookup (shiftText op) =
      some (.shift (op.funct7.setWidth 32) (op.funct3.setWidth 32)) := by
  cases op <;> rfl

theorem encodings_load (op : Isa.LoadOp) :
    encodings.lookup (loadText op) = some (.load (op.funct3.setWidth 32)) := by
  cases op <;> rfl

theorem encodings_store (op : Isa.StoreOp) :
    encodings.lookup (storeOpText op) = some (.store (op.funct3.setWidth 32)) := by
  cases op <;> rfl

theorem encodings_branch (op : Isa.BranchOp) :
    encodings.lookup (branchText op) = some (.branch (op.funct3.setWidth 32)) := by
  cases op <;> rfl

/-- No instruction shares its mnemonic with a pseudoinstruction. -/
theorem SourceInstr.not_pseudo {fits : Text → Prop} (src : SourceInstr fits) :
    Pseudo.ofText src.mnemonic.text = none := by
  cases src with
  | reg op | imm op | shift op | load op | store op | branch op =>
      cases op <;> rfl
  | jal | jalr | lui | auipc | ecall | ebreak => rfl

end Tables

section Immediates

/-- A 12-bit immediate survives the field it is packed into. -/
theorem imm12_recovered {n : Int} (range : -2048 ≤ n ∧ n ≤ 2047) :
    ((BitVec.ofInt 32 n).setWidth 12).signExtend 32 = BitVec.ofInt 32 n := by
  have value : (BitVec.ofInt 32 n).toInt = n :=
    BitVec.toInt_ofInt_eq_self (by decide) (by omega) (by omega)
  apply Bits.signExtend_setWidth_of_fits _ (by decide) (by decide) <;>
    rw [value] <;> omega

theorem low_bit_of_even {x : Word} (even : x.toInt % 2 = 0) : x[0] = false := by
  have natural : x.toNat % 2 = 0 := by
    rw [BitVec.toInt_eq_toNat_cond] at even
    split at even <;> omega
  rw [← BitVec.getLsbD_eq_getElem, BitVec.getLsbD, Nat.testBit_zero]
  simp [natural]

theorem shifted_low (x : Word) : x <<< 12 &&& 0xFFF = 0 := by
  apply BitVec.eq_of_getLsbD_eq
  intro i inRange
  interval_cases i <;> simp

theorem shift_amount {n : Int} (range : 0 ≤ n ∧ n ≤ 31) :
    BitVec.ofInt 32 n &&& 0x1F = (BitVec.ofInt 5 n).setWidth 32 := by
  obtain ⟨lower, upper⟩ := range
  interval_cases n <;> rfl

end Immediates

section Words

variable (rd rs1 rs2 : Reg)

theorem decodes_reg (op : Isa.RegOp) :
    Isa.Decodes (encodeR (op.funct7.setWidth 32) (rs2.setWidth 32)
      (rs1.setWidth 32) (op.funct3.setWidth 32) (rd.setWidth 32) 0x33)
      (.reg op rd rs1 rs2) := by
  obtain ⟨major, rdEq, f3, rs1Eq, rs2Eq, f7⟩ :=
    encodeR_fields op.funct7 Isa.opReg op.funct3 rs2 rs1 rd rfl
  have decodes := Isa.Decodes.reg op major f7 f3
  rwa [rdEq, rs1Eq, rs2Eq] at decodes

theorem decodes_shift (op : Isa.ShiftOp) (amount : BitVec 5) :
    Isa.Decodes (encodeR (op.funct7.setWidth 32) (amount.setWidth 32)
      (rs1.setWidth 32) (op.funct3.setWidth 32) (rd.setWidth 32) 0x13)
      (.shift op rd rs1 amount) := by
  obtain ⟨major, rdEq, f3, rs1Eq, rs2Eq, f7⟩ :=
    encodeR_fields op.funct7 Isa.opImm op.funct3 amount rs1 rd rfl
  have decodes := Isa.Decodes.shift op major f7 f3
  rwa [rdEq, rs1Eq, rs2Eq] at decodes

section Imm12

variable {n : Int} (range : -2048 ≤ n ∧ n ≤ 2047)
include range

theorem decodes_imm (op : Isa.ImmOp) :
    Isa.Decodes (encodeI (BitVec.ofInt 32 n) (rs1.setWidth 32)
      (op.funct3.setWidth 32) (rd.setWidth 32) 0x13)
      (.imm op rd rs1 (BitVec.ofInt 32 n)) := by
  obtain ⟨major, rdEq, f3, rs1Eq, immEq⟩ :=
    encodeI_fields Isa.opImm op.funct3 rs1 rd (BitVec.ofInt 32 n) rfl
  have decodes := Isa.Decodes.imm op major f3
  rwa [rdEq, rs1Eq, immEq, imm12_recovered range] at decodes

theorem decodes_load (op : Isa.LoadOp) :
    Isa.Decodes (encodeI (BitVec.ofInt 32 n) (rs1.setWidth 32)
      (op.funct3.setWidth 32) (rd.setWidth 32) 0x03)
      (.load op rd rs1 (BitVec.ofInt 32 n)) := by
  obtain ⟨major, rdEq, f3, rs1Eq, immEq⟩ :=
    encodeI_fields Isa.opLoad op.funct3 rs1 rd (BitVec.ofInt 32 n) rfl
  have decodes := Isa.Decodes.load op major f3
  rwa [rdEq, rs1Eq, immEq, imm12_recovered range] at decodes

theorem decodes_jalr :
    Isa.Decodes (encodeI (BitVec.ofInt 32 n) (rs1.setWidth 32) 0x0
      (rd.setWidth 32) 0x67) (.jalr rd rs1 (BitVec.ofInt 32 n)) := by
  obtain ⟨major, rdEq, f3, rs1Eq, immEq⟩ :=
    encodeI_fields Isa.opJalr 0 rs1 rd (BitVec.ofInt 32 n) rfl
  have decodes := Isa.Decodes.jalr major f3
  rwa [rdEq, rs1Eq, immEq, imm12_recovered range] at decodes

theorem decodes_store (op : Isa.StoreOp) :
    Isa.Decodes (encodeS (BitVec.ofInt 32 n) (rs2.setWidth 32)
      (rs1.setWidth 32) (op.funct3.setWidth 32) 0x23)
      (.store op rs2 rs1 (BitVec.ofInt 32 n)) := by
  obtain ⟨major, rs2Eq, f3, rs1Eq, immEq⟩ :=
    encodeS_fields Isa.opStore op.funct3 rs2 rs1 (BitVec.ofInt 32 n) rfl
  have decodes := Isa.Decodes.store op major f3
  rwa [rs2Eq, rs1Eq, immEq, imm12_recovered range] at decodes

end Imm12

theorem decodes_branch (op : Isa.BranchOp) {offset : Word}
    (even : offset.toInt % 2 = 0) (lower : -4096 ≤ offset.toInt)
    (upper : offset.toInt ≤ 4094) :
    Isa.Decodes (encodeB offset (rs2.setWidth 32) (rs1.setWidth 32)
      (op.funct3.setWidth 32) 0x63) (.branch op rs1 rs2 offset) := by
  have recovered := Bits.signExtend_setWidth_of_fits offset
    (show 0 < 13 by decide) (by decide) (by omega) (by omega)
  obtain ⟨major, rs2Eq, f3, rs1Eq, immEq⟩ := encodeB_fields Isa.opBranch
    op.funct3 rs2 rs1 offset (low_bit_of_even even) rfl
  have decodes := Isa.Decodes.branch op major f3
  rwa [rs2Eq, rs1Eq, immEq, recovered] at decodes

theorem decodes_jal {offset : Word} (even : offset.toInt % 2 = 0)
    (lower : -1048576 ≤ offset.toInt) (upper : offset.toInt ≤ 1048574) :
    Isa.Decodes (encodeJ offset (rd.setWidth 32) 0x6F) (.jal rd offset) := by
  have recovered := Bits.signExtend_setWidth_of_fits offset
    (show 0 < 21 by decide) (by decide) (by omega) (by omega)
  obtain ⟨major, rdEq, immEq⟩ :=
    encodeJ_fields Isa.opJal rd offset (low_bit_of_even even) rfl
  have decodes := Isa.Decodes.jal major
  rwa [rdEq, immEq, recovered] at decodes

theorem decodes_lui (value : Word) :
    Isa.Decodes (encodeU (value <<< 12) (rd.setWidth 32) 0x37)
      (.lui rd (value <<< 12)) := by
  obtain ⟨major, rdEq, immEq⟩ :=
    encodeU_fields Isa.opLui rd (value <<< 12) (shifted_low value) rfl
  have decodes := Isa.Decodes.lui major
  rwa [rdEq, immEq] at decodes

theorem decodes_auipc (value : Word) :
    Isa.Decodes (encodeU (value <<< 12) (rd.setWidth 32) 0x17)
      (.auipc rd (value <<< 12)) := by
  obtain ⟨major, rdEq, immEq⟩ :=
    encodeU_fields Isa.opAuipc rd (value <<< 12) (shifted_low value) rfl
  have decodes := Isa.Decodes.auipc major
  rwa [rdEq, immEq] at decodes

end Words

section Instructions

variable {labels : List Label} {pc : Word} {fits : Text → Prop} [Roomy fits]
  {src : SourceInstr fits} {i : Isa.Instr}

/-- Encoding the operands of an instruction gives a word that reads back as
the instruction they denote. -/
theorem encodeInstruction_of_meaning
    (means : src.meaning labels pc = some i) :
    ∃ w, encodeInstruction labels pc (src.form.operands src.mnemonic.text) =
        .ok w ∧ Isa.Decodes w i := by
  cases src with
  | reg op rd rs1 rs2 =>
      cases means
      refine ⟨_, ?_, decodes_reg _ _ _ op⟩
      show encodeInstruction labels pc
        { op := regText op, a1 := rd.text, a2 := rs1.text, a3 := rs2.text } = _
      simp only [encodeInstruction, encodings_reg, regField_text]
  | imm op rd rs1 value =>
      obtain ⟨range, means⟩ := Option.ite_none_right_eq_some.mp means
      cases means
      refine ⟨_, ?_, decodes_imm _ _ range op⟩
      have parsed := parseImm_number labels value (by omega) (by omega)
      show encodeInstruction labels pc
        { op := immText op, a1 := rd.text, a2 := rs1.text, a3 := value.text } = _
      simp only [encodeInstruction, encodings_imm, regField_text, parsed]
      rfl
  | shift op rd rs1 amount =>
      obtain ⟨range, means⟩ := Option.ite_none_right_eq_some.mp means
      cases means
      refine ⟨_, ?_, decodes_shift _ _ op _⟩
      have parsed := parseImm_number labels amount (by omega) (by omega)
      show encodeInstruction labels pc
        { op := shiftText op, a1 := rd.text, a2 := rs1.text, a3 := amount.text } = _
      simp only [encodeInstruction, encodings_shift, regField_text, parsed,
        ← shift_amount range]
      rfl
  | load op rd offset rs1 =>
      obtain ⟨range, means⟩ := Option.ite_none_right_eq_some.mp means
      cases means
      refine ⟨_, ?_, decodes_load _ _ range op⟩
      have parsed := parseImm_number labels offset (by omega) (by omega)
      show encodeInstruction labels pc
        { op := loadText op, a1 := rd.text, a2 := offset.text, a3 := rs1.text } = _
      simp only [encodeInstruction, encodings_load, regField_text, parsed]
      rfl
  | store op rs2 offset rs1 =>
      obtain ⟨range, means⟩ := Option.ite_none_right_eq_some.mp means
      cases means
      refine ⟨_, ?_, decodes_store _ _ range op⟩
      have parsed := parseImm_number labels offset (by omega) (by omega)
      show encodeInstruction labels pc
        { op := storeOpText op, a1 := rs2.text, a2 := offset.text
          a3 := rs1.text } = _
      simp only [encodeInstruction, encodings_store, regField_text, parsed]
      rfl
  | branch op rs1 rs2 target =>
      obtain ⟨a, address, means⟩ := Option.bind_eq_some_iff.mp means
      obtain ⟨⟨even, lower, upper⟩, means⟩ :=
        Option.ite_none_right_eq_some.mp means
      cases means
      refine ⟨_, ?_, decodes_branch _ _ op even lower upper⟩
      have parsed := parseImm_target labels address
      show encodeInstruction labels pc
        { op := branchText op, a1 := rs1.text, a2 := rs2.text
          a3 := target.token.text } = _
      simp only [encodeInstruction, encodings_branch, regField_text,
        Target.token_text, parsed]
      rfl
  | jal rd target =>
      obtain ⟨a, address, means⟩ := Option.bind_eq_some_iff.mp means
      obtain ⟨⟨even, lower, upper⟩, means⟩ :=
        Option.ite_none_right_eq_some.mp means
      cases means
      refine ⟨_, ?_, decodes_jal _ even lower upper⟩
      have parsed := parseImm_target labels address
      have found : encodings.lookup "jal".toList = some .jal := rfl
      show encodeInstruction labels pc
        { op := "jal".toList, a1 := rd.text, a2 := target.token.text, a3 := [] } = _
      simp only [encodeInstruction, found, regField_text, Target.token_text,
        parsed]
      rfl
  | jalr rd rs1 offset =>
      obtain ⟨range, means⟩ := Option.ite_none_right_eq_some.mp means
      cases means
      refine ⟨_, ?_, decodes_jalr _ _ range⟩
      have parsed := parseImm_number labels offset (by omega) (by omega)
      have found : encodings.lookup "jalr".toList = some .jalr := rfl
      show encodeInstruction labels pc
        { op := "jalr".toList, a1 := rd.text, a2 := rs1.text
          a3 := offset.text } = _
      simp only [encodeInstruction, found, regField_text, parsed]
      rfl
  | lui rd value =>
      obtain ⟨range, means⟩ := Option.ite_none_right_eq_some.mp means
      cases means
      refine ⟨_, ?_, decodes_lui _ _⟩
      have parsed := parseImm_number labels value (by omega) (by omega)
      have found : encodings.lookup "lui".toList = some (.upper 0x37) := rfl
      show encodeInstruction labels pc
        { op := "lui".toList, a1 := rd.text, a2 := value.text, a3 := [] } = _
      simp only [encodeInstruction, found, regField_text, parsed]
      rfl
  | auipc rd value =>
      obtain ⟨range, means⟩ := Option.ite_none_right_eq_some.mp means
      cases means
      refine ⟨_, ?_, decodes_auipc _ _⟩
      have parsed := parseImm_number labels value (by omega) (by omega)
      have found : encodings.lookup "auipc".toList = some (.upper 0x17) := rfl
      show encodeInstruction labels pc
        { op := "auipc".toList, a1 := rd.text, a2 := value.text, a3 := [] } = _
      simp only [encodeInstruction, found, regField_text, parsed]
      rfl
  | ecall =>
      cases means
      exact ⟨_, rfl, .ecall (by decide)⟩
  | ebreak =>
      cases means
      exact ⟨_, rfl, .ebreak (by decide)⟩

/-- A canonical line whose operands fit writes one word, which decodes as the
instruction the line denotes. -/
theorem processInstruction_of_meaning {st : Pass2} (short : src.form.Fits)
    (means : src.meaning labels st.pc = some i) :
    ∃ w, processInstructionSecondPass labels st src.text =
        .done (st.emit (Bits.leBytes w)) ∧ Isa.Decodes w i := by
  obtain ⟨w, encoded, decodes⟩ := encodeInstruction_of_meaning means
  have noPseudo : Pseudo.ofText (src.form.operands src.mnemonic.text).op = none := by
    rw [← src.not_pseudo]
    cases src.form <;> rfl
  refine ⟨w, ?_, decodes⟩
  simp only [processInstructionSecondPass, SourceInstr.text, readOperands_form short,
    noPseudo, emitInstruction, encoded]

end Instructions

section Decoding

/-- The fields of a decoded instruction that execution reads are those of a
machine instruction. -/
def Carries (d : Emulator.Instruction) : Isa.Instr → Prop
  | .reg op rd rs1 rs2 =>
      d.opcode = 0x33 ∧ d.funct3 = op.funct3 ∧ d.funct7 = op.funct7 ∧
        d.rd = rd ∧ d.rs1 = rs1 ∧ d.rs2 = rs2
  | .imm op rd rs1 value =>
      d.opcode = 0x13 ∧ d.funct3 = op.funct3 ∧ d.rd = rd ∧ d.rs1 = rs1 ∧
        d.imm = value
  | .shift op rd rs1 amount =>
      d.opcode = 0x13 ∧ d.funct3 = op.funct3 ∧ d.funct7 = op.funct7 ∧
        d.rd = rd ∧ d.rs1 = rs1 ∧ d.imm.setWidth 5 = amount
  | .load op rd rs1 offset =>
      d.opcode = 0x03 ∧ d.funct3 = op.funct3 ∧ d.rd = rd ∧ d.rs1 = rs1 ∧
        d.imm = offset
  | .store op rs2 rs1 offset =>
      d.opcode = 0x23 ∧ d.funct3 = op.funct3 ∧ d.rs2 = rs2 ∧ d.rs1 = rs1 ∧
        d.imm = offset
  | .branch op rs1 rs2 offset =>
      d.opcode = 0x63 ∧ d.funct3 = op.funct3 ∧ d.rs1 = rs1 ∧ d.rs2 = rs2 ∧
        d.imm = offset
  | .jal rd offset => d.opcode = 0x6F ∧ d.rd = rd ∧ d.imm = offset
  | .jalr rd rs1 offset =>
      d.opcode = 0x67 ∧ d.funct3 = 0 ∧ d.rd = rd ∧ d.rs1 = rs1 ∧ d.imm = offset
  | .lui rd value => d.opcode = 0x37 ∧ d.rd = rd ∧ d.imm = value
  | .auipc rd value => d.opcode = 0x17 ∧ d.rd = rd ∧ d.imm = value
  | .ecall =>
      d.opcode = 0x73 ∧ d.funct3 = 0 ∧ d.rd = 0 ∧ d.rs1 = 0 ∧ d.imm = 0
  | .ebreak =>
      d.opcode = 0x73 ∧ d.funct3 = 0 ∧ d.rd = 0 ∧ d.rs1 = 0 ∧ d.imm = 1

/-- The emulator's decoder accepts every word the reference decoder accepts,
and extracts the same fields. -/
theorem carries_of_decodes {w : Word} {i : Isa.Instr} (decodes : Isa.Decodes w i) :
    ∃ d, Emulator.Instruction.decode w = some d ∧ Carries d i := by
  rw [Emulator.Instruction.decode_eq]
  cases decodes with
  | reg op major f7 f3 =>
      rw [major]
      exact ⟨_, rfl, major, f3, f7, rfl, rfl, rfl⟩
  | imm op major f3 =>
      rw [major]
      exact ⟨_, rfl, major, f3, rfl, rfl, rfl⟩
  | shift op major f7 f3 =>
      rw [major]
      exact ⟨_, rfl, major, f3, f7, rfl, rfl, (Emulator.Machine.shift_fields w).2⟩
  | load op major f3 =>
      rw [major]
      exact ⟨_, rfl, major, f3, rfl, rfl, rfl⟩
  | store op major f3 =>
      rw [major]
      exact ⟨_, rfl, major, f3, rfl, rfl, rfl⟩
  | branch op major f3 =>
      rw [major]
      exact ⟨_, rfl, major, f3, rfl, rfl, rfl⟩
  | jal major =>
      rw [major]
      exact ⟨_, rfl, major, rfl, rfl⟩
  | jalr major f3 =>
      rw [major]
      exact ⟨_, rfl, major, f3, rfl, rfl, rfl⟩
  | lui major =>
      rw [major]
      exact ⟨_, rfl, major, rfl, rfl⟩
  | auipc major =>
      rw [major]
      exact ⟨_, rfl, major, rfl, rfl⟩
  | ecall isEcall =>
      subst isEcall
      exact ⟨_, rfl, by unfold Carries; decide⟩
  | ebreak isEbreak =>
      subst isEbreak
      exact ⟨_, rfl, by unfold Carries; decide⟩

end Decoding

end RiscvPack.Asm
