import RiscvPack.Isa.Instr

/-!
# Instruction decoding

`Instruction::decode` of `instructions.cpp`.  The fields that the source
masks to five, three or seven bits have those widths here.  The second half
identifies each extracted field with the reference reading of the word.
-/

namespace RiscvPack.Emulator

inductive InstrFormat where
  | rType | iType | sType | bType | uType | jType
  deriving DecidableEq, Repr

structure Instruction where
  format : InstrFormat
  raw : Word
  imm : Word
  opcode : BitVec 7
  rd : Reg
  rs1 : Reg
  rs2 : Reg
  funct3 : BitVec 3
  funct7 : BitVec 7
  deriving DecidableEq, Repr

def signExtend (value : Word) (bits : Nat) : Word :=
  if bits = 0 ∨ 32 ≤ bits then value
  else
    let mask := 1#32 <<< (bits - 1)
    (value ^^^ mask) - mask

def extractBImm (instruction : Word) : Word :=
  let imm := (((instruction >>> 31) &&& 0x1) <<< 12) |||
    (((instruction >>> 7) &&& 0x1) <<< 11) |||
    (((instruction >>> 25) &&& 0x3F) <<< 5) |||
    (((instruction >>> 8) &&& 0xF) <<< 1)
  signExtend imm 13

def extractJImm (instruction : Word) : Word :=
  let imm := (((instruction >>> 31) &&& 0x1) <<< 20) |||
    (((instruction >>> 12) &&& 0xFF) <<< 12) |||
    (((instruction >>> 20) &&& 0x1) <<< 11) |||
    (((instruction >>> 21) &&& 0x3FF) <<< 1)
  signExtend imm 21

namespace Instruction

/-- `Instruction::decode`; `none` is the result `false`. -/
def decode (instruction : Word) : Option Instruction :=
  let opcode := (instruction &&& 0x7F).setWidth 7
  let rd := ((instruction >>> 7) &&& 0x1F).setWidth 5
  let funct3 := ((instruction >>> 12) &&& 0x7).setWidth 3
  let rs1 := ((instruction >>> 15) &&& 0x1F).setWidth 5
  let rs2 := ((instruction >>> 20) &&& 0x1F).setWidth 5
  let funct7 := ((instruction >>> 25) &&& 0x7F).setWidth 7
  let fields (format : InstrFormat) (imm : Word) : Instruction :=
    { format, raw := instruction, imm, opcode, rd, rs1, rs2, funct3, funct7 }
  match opcode with
  | 0x33#7 => some (fields .rType 0)
  | 0x03#7 | 0x13#7 | 0x67#7 | 0x73#7 =>
      some (fields .iType (signExtend ((instruction >>> 20) &&& 0xFFF) 12))
  | 0x23#7 =>
      some (fields .sType
        (signExtend
          ((((instruction >>> 25) &&& 0x7F) <<< 5) |||
            ((instruction >>> 7) &&& 0x1F)) 12))
  | 0x63#7 => some (fields .bType (extractBImm instruction))
  | 0x37#7 | 0x17#7 => some (fields .uType (instruction &&& 0xFFFFF000))
  | 0x6F#7 => some (fields .jType (extractJImm instruction))
  | _ => none

end Instruction

section Fields

variable (w : Word)

theorem opcode_field : (w &&& 0x7F).setWidth 7 = Isa.opcode w := by
  apply BitVec.eq_of_getLsbD_eq
  intro i inRange
  interval_cases i <;> simp [Isa.opcode]

theorem rd_field : ((w >>> 7) &&& 0x1F).setWidth 5 = Isa.rd w := by
  apply BitVec.eq_of_getLsbD_eq
  intro i inRange
  interval_cases i <;> simp [Isa.rd]

theorem funct3_field : ((w >>> 12) &&& 0x7).setWidth 3 = Isa.funct3 w := by
  apply BitVec.eq_of_getLsbD_eq
  intro i inRange
  interval_cases i <;> simp [Isa.funct3]

theorem rs1_field : ((w >>> 15) &&& 0x1F).setWidth 5 = Isa.rs1 w := by
  apply BitVec.eq_of_getLsbD_eq
  intro i inRange
  interval_cases i <;> simp [Isa.rs1]

theorem rs2_field : ((w >>> 20) &&& 0x1F).setWidth 5 = Isa.rs2 w := by
  apply BitVec.eq_of_getLsbD_eq
  intro i inRange
  interval_cases i <;> simp [Isa.rs2]

theorem funct7_field : ((w >>> 25) &&& 0x7F).setWidth 7 = Isa.funct7 w := by
  apply BitVec.eq_of_getLsbD_eq
  intro i inRange
  interval_cases i <;> simp [Isa.funct7]

theorem signExtend_setWidth {n : Nat} (v : BitVec n) (positive : 0 < n)
    (fits : n < 32) :
    signExtend (v.setWidth 32) n = v.signExtend 32 := by
  obtain ⟨m, rfl⟩ := Nat.exists_eq_succ_of_ne_zero positive.ne'
  rw [signExtend, if_neg (by omega), ← Bits.signExtend_eq_xor_sub v (by omega),
    BitVec.twoPow_eq]
  rfl

theorem iImm_field :
    signExtend ((w >>> 20) &&& 0xFFF) 12 = Isa.immI w := by
  rw [Isa.immI, ← signExtend_setWidth _ (by decide) (by decide)]
  congr 1
  apply BitVec.eq_of_getLsbD_eq
  intro i inRange
  interval_cases i <;> simp

theorem sImm_field :
    signExtend ((((w >>> 25) &&& 0x7F) <<< 5) ||| ((w >>> 7) &&& 0x1F)) 12 =
      Isa.immS w := by
  rw [Isa.immS, ← signExtend_setWidth _ (by decide) (by decide)]
  congr 1
  apply BitVec.eq_of_getLsbD_eq
  intro i inRange
  simp only [BitVec.getLsbD_setWidth, BitVec.getLsbD_append]
  interval_cases i <;> simp

theorem bImm_field : extractBImm w = Isa.immB w := by
  rw [Isa.immB, ← signExtend_setWidth _ (by decide) (by decide), extractBImm]
  congr 1
  apply BitVec.eq_of_getLsbD_eq
  intro i inRange
  simp only [BitVec.getLsbD_setWidth, BitVec.getLsbD_append]
  interval_cases i <;> simp

theorem uImm_field : w &&& 0xFFFFF000 = Isa.immU w := by
  apply BitVec.eq_of_getLsbD_eq
  intro i inRange
  simp only [Isa.immU, BitVec.getLsbD_setWidth, BitVec.getLsbD_append]
  interval_cases i <;> simp

theorem jImm_field : extractJImm w = Isa.immJ w := by
  rw [Isa.immJ, ← signExtend_setWidth _ (by decide) (by decide), extractJImm]
  congr 1
  apply BitVec.eq_of_getLsbD_eq
  intro i inRange
  simp only [BitVec.getLsbD_setWidth, BitVec.getLsbD_append]
  interval_cases i <;> simp

end Fields

end RiscvPack.Emulator
