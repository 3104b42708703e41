import RiscvPack.Isa.Instr

/-!
# Instruction encoding

The `Encoder` class of `encode.cpp`, and the fields of the words it builds.
The register and function-code arguments are 32-bit words in the source;
nothing masks them, so the field lemmas ask that they fit their fields.
-/

namespace RiscvPack.Asm

def encodeR (funct7 rs2 rs1 funct3 rd opcode : Word) : Word :=
  (funct7 <<< 25) ||| (rs2 <<< 20) ||| (rs1 <<< 15) ||| (funct3 <<< 12) |||
    (rd <<< 7) ||| opcode

def encodeI (imm rs1 funct3 rd opcode : Word) : Word :=
  ((imm &&& 0xFFF) <<< 20) ||| (rs1 <<< 15) ||| (funct3 <<< 12) |||
    (rd <<< 7) ||| opcode

def encodeS (imm rs2 rs1 funct3 opcode : Word) : Word :=
  ((imm &&& 0xFE0) <<< 20) ||| (rs2 <<< 20) ||| (rs1 <<< 15) |||
    (funct3 <<< 12) ||| ((imm &&& 0x1F) <<< 7) ||| opcode

def encodeB (imm rs2 rs1 funct3 opcode : Word) : Word :=
  let u := imm.sshiftRight 1
  (((u >>> 11) &&& 0x1) <<< 31) ||| (((u >>> 4) &&& 0x3F) <<< 25) |||
    (rs2 <<< 20) ||| (rs1 <<< 15) ||| (funct3 <<< 12) |||
    ((u &&& 0xF) <<< 8) ||| (((u >>> 10) &&& 0x1) <<< 7) ||| opcode

def encodeU (imm rd opcode : Word) : Word :=
  (imm &&& 0xFFFFF000) ||| (rd <<< 7) ||| opcode

def encodeJ (imm rd opcode : Word) : Word :=
  let u := imm.sshiftRight 1
  (((u >>> 19) &&& 0x1) <<< 31) ||| ((u &&& 0x3FF) <<< 21) |||
    (((u >>> 10) &&& 0x1) <<< 20) ||| (((u >>> 11) &&& 0xFF) <<< 12) |||
    (rd <<< 7) ||| opcode

section Fields

variable (f7 op : BitVec 7) (f3 : BitVec 3) (rs2 rs1 rd : Reg) (imm : Word)

theorem encodeR_fields {w : Word}
    (encoded : w = encodeR (f7.setWidth 32) (rs2.setWidth 32) (rs1.setWidth 32)
      (f3.setWidth 32) (rd.setWidth 32) (op.setWidth 32)) :
    Isa.opcode w = op ∧ Isa.rd w = rd ∧ Isa.funct3 w = f3 ∧ Isa.rs1 w = rs1 ∧
      Isa.rs2 w = rs2 ∧ Isa.funct7 w = f7 := by
  subst encoded
  refine ⟨?_, ?_, ?_, ?_, ?_, ?_⟩ <;>
  · apply BitVec.eq_of_getLsbD_eq
    intro i inRange
    interval_cases i <;>
      simp [encodeR, Isa.opcode, Isa.rd, Isa.funct3, Isa.rs1, Isa.rs2, Isa.funct7]

theorem encodeI_fields {w : Word}
    (encoded : w = encodeI imm (rs1.setWidth 32) (f3.setWidth 32)
      (rd.setWidth 32) (op.setWidth 32)) :
    Isa.opcode w = op ∧ Isa.rd w = rd ∧ Isa.funct3 w = f3 ∧ Isa.rs1 w = rs1 ∧
      Isa.immI w = (imm.setWidth 12).signExtend 32 := by
  subst encoded
  refine ⟨?_, ?_, ?_, ?_, congrArg (BitVec.signExtend 32) ?_⟩ <;>
  · apply BitVec.eq_of_getLsbD_eq
    intro i inRange
    interval_cases i <;>
      simp [encodeI, Isa.opcode, Isa.rd, Isa.funct3, Isa.rs1]

theorem encodeS_fields {w : Word}
    (encoded : w = encodeS imm (rs2.setWidth 32) (rs1.setWidth 32)
      (f3.setWidth 32) (op.setWidth 32)) :
    Isa.opcode w = op ∧ Isa.rs2 w = rs2 ∧ Isa.funct3 w = f3 ∧ Isa.rs1 w = rs1 ∧
      Isa.immS w = (imm.setWidth 12).signExtend 32 := by
  subst encoded
  refine ⟨?_, ?_, ?_, ?_, congrArg (BitVec.signExtend 32) ?_⟩ <;>
  · apply BitVec.eq_of_getLsbD_eq
    intro i inRange
    try simp only [BitVec.getLsbD_append]
    interval_cases i <;>
      simp [encodeS, Isa.opcode, Isa.rs2, Isa.funct3, Isa.rs1]

/-- Bit zero of a branch offset is not encoded. -/
theorem encodeB_fields {w : Word} (even : imm[0] = false)
    (encoded : w = encodeB imm (rs2.setWidth 32) (rs1.setWidth 32)
      (f3.setWidth 32) (op.setWidth 32)) :
    Isa.opcode w = op ∧ Isa.rs2 w = rs2 ∧ Isa.funct3 w = f3 ∧ Isa.rs1 w = rs1 ∧
      Isa.immB w = (imm.setWidth 13).signExtend 32 := by
  subst encoded
  refine ⟨?_, ?_, ?_, ?_, congrArg (BitVec.signExtend 32) ?_⟩ <;>
  · apply BitVec.eq_of_getLsbD_eq
    intro i inRange
    try simp only [BitVec.getLsbD_append]
    interval_cases i <;>
      simp [encodeB, Isa.opcode, Isa.rs2, Isa.funct3, Isa.rs1, even,
        BitVec.getElem_sshiftRight]

theorem encodeU_fields {w : Word} (low : imm &&& 0xFFF = 0)
    (encoded : w = encodeU imm (rd.setWidth 32) (op.setWidth 32)) :
    Isa.opcode w = op ∧ Isa.rd w = rd ∧ Isa.immU w = imm := by
  subst encoded
  refine ⟨?_, ?_, ?_⟩
  · apply BitVec.eq_of_getLsbD_eq
    intro i inRange
    interval_cases i <;> simp [encodeU, Isa.opcode]
  · apply BitVec.eq_of_getLsbD_eq
    intro i inRange
    interval_cases i <;> simp [encodeU, Isa.rd]
  · apply BitVec.eq_of_getLsbD_eq
    intro i inRange
    have bit := congrArg (BitVec.getLsbD · i) low
    simp only [Isa.immU, BitVec.getLsbD_setWidth, BitVec.getLsbD_append]
    interval_cases i <;> simp [encodeU] at bit ⊢ <;> exact bit

theorem encodeJ_fields {w : Word} (even : imm[0] = false)
    (encoded : w = encodeJ imm (rd.setWidth 32) (op.setWidth 32)) :
    Isa.opcode w = op ∧ Isa.rd w = rd ∧
      Isa.immJ w = (imm.setWidth 21).signExtend 32 := by
  subst encoded
  refine ⟨?_, ?_, congrArg (BitVec.signExtend 32) ?_⟩ <;>
  · apply BitVec.eq_of_getLsbD_eq
    intro i inRange
    try simp only [BitVec.getLsbD_append]
    interval_cases i <;>
      simp [encodeJ, Isa.opcode, Isa.rd, even, BitVec.getElem_sshiftRight]

end Fields

end RiscvPack.Asm
