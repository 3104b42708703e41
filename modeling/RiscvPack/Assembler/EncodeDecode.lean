import RiscvPack.Assembler.RoundTrip

/-!
# The encoders and the decoder are inverse

A call of one of the six encoders is data here.  Decoding the word of a call
whose arguments fit their fields gives the call back, and calling the encoder
of a decoded instruction's format on its fields gives the word back.
-/

namespace RiscvPack.Asm

open Emulator (InstrFormat Instruction)
open Emulator.Instruction (ofFields formatOpcodes formatImm)

/-- A call of an encoder, with its arguments in the order of the source. -/
inductive EncoderCall where
  | r (funct7 rs2 rs1 funct3 rd opcode : Word)
  | i (imm rs1 funct3 rd opcode : Word)
  | s (imm rs2 rs1 funct3 opcode : Word)
  | b (imm rs2 rs1 funct3 opcode : Word)
  | u (imm rd opcode : Word)
  | j (imm rd opcode : Word)
  deriving DecidableEq, Repr

namespace EncoderCall

/-- The word an encoder returns. -/
def word : EncoderCall → Word
  | .r funct7 rs2 rs1 funct3 rd opcode => encodeR funct7 rs2 rs1 funct3 rd opcode
  | .i imm rs1 funct3 rd opcode => encodeI imm rs1 funct3 rd opcode
  | .s imm rs2 rs1 funct3 opcode => encodeS imm rs2 rs1 funct3 opcode
  | .b imm rs2 rs1 funct3 opcode => encodeB imm rs2 rs1 funct3 opcode
  | .u imm rd opcode => encodeU imm rd opcode
  | .j imm rd opcode => encodeJ imm rd opcode

/-- Every argument fits its field, the immediate is one the format can hold,
and the opcode is one of the format's. -/
def Representable : EncoderCall → Prop
  | .r funct7 rs2 rs1 funct3 rd opcode =>
      funct7.toNat < 128 ∧ rs2.toNat < 32 ∧ rs1.toNat < 32 ∧ funct3.toNat < 8 ∧
        rd.toNat < 32 ∧ opcode ∈ formatOpcodes .rType
  | .i imm rs1 funct3 rd opcode =>
      (-2048 ≤ imm.toInt ∧ imm.toInt < 2048) ∧ rs1.toNat < 32 ∧
        funct3.toNat < 8 ∧ rd.toNat < 32 ∧ opcode ∈ formatOpcodes .iType
  | .s imm rs2 rs1 funct3 opcode =>
      (-2048 ≤ imm.toInt ∧ imm.toInt < 2048) ∧ rs2.toNat < 32 ∧ rs1.toNat < 32 ∧
        funct3.toNat < 8 ∧ opcode ∈ formatOpcodes .sType
  | .b imm rs2 rs1 funct3 opcode =>
      (-4096 ≤ imm.toInt ∧ imm.toInt < 4096 ∧ imm.toInt % 2 = 0) ∧
        rs2.toNat < 32 ∧ rs1.toNat < 32 ∧ funct3.toNat < 8 ∧
        opcode ∈ formatOpcodes .bType
  | .u imm rd opcode =>
      imm.toNat % 4096 = 0 ∧ rd.toNat < 32 ∧ opcode ∈ formatOpcodes .uType
  | .j imm rd opcode =>
      (-1048576 ≤ imm.toInt ∧ imm.toInt < 1048576 ∧ imm.toInt % 2 = 0) ∧
        rd.toNat < 32 ∧ opcode ∈ formatOpcodes .jType

instance : DecidablePred Representable
  | .r .. | .i .. | .s .. | .b .. | .u .. | .j .. =>
      inferInstanceAs (Decidable (_ ∧ _))

/-- The call of the encoder of a decoded instruction's format on its fields. -/
def ofInstruction (d : Instruction) : EncoderCall :=
  let opcode := d.opcode.setWidth 32
  let rd := d.rd.setWidth 32
  let rs1 := d.rs1.setWidth 32
  let rs2 := d.rs2.setWidth 32
  let funct3 := d.funct3.setWidth 32
  let funct7 := d.funct7.setWidth 32
  match d.format with
  | .rType => .r funct7 rs2 rs1 funct3 rd opcode
  | .iType => .i d.imm rs1 funct3 rd opcode
  | .sType => .s d.imm rs2 rs1 funct3 opcode
  | .bType => .b d.imm rs2 rs1 funct3 opcode
  | .uType => .u d.imm rd opcode
  | .jType => .j d.imm rd opcode

end EncoderCall

section Arguments

theorem exists_field (n : Nat) {v : Word} (fits : v.toNat < 2 ^ n) :
    ∃ field : BitVec n, field.setWidth 32 = v := by
  refine ⟨v.setWidth n, BitVec.eq_of_toNat_eq ?_⟩
  rw [BitVec.toNat_setWidth, BitVec.toNat_setWidth, Nat.mod_eq_of_lt fits,
    Nat.mod_eq_of_lt v.isLt]

theorem exists_opcode {opcode : Word} {format : InstrFormat}
    (known : opcode ∈ formatOpcodes format) :
    ∃ op : BitVec 7, op.setWidth 32 = opcode := by
  have narrow : ∀ format, ∀ opcode ∈ formatOpcodes format,
      opcode.toNat < 2 ^ 7 := by
    intro format
    cases format <;> simp [formatOpcodes]
  exact exists_field 7 (narrow format opcode known)

theorem low_bits_of_multiple {imm : Word} (multiple : imm.toNat % 4096 = 0) :
    imm &&& 0xFFF = 0 := by
  apply BitVec.eq_of_toNat_eq
  have mask : (0xFFF : Word).toNat = 2 ^ 12 - 1 := by decide
  rw [BitVec.toNat_and, mask, Nat.and_two_pow_sub_one_eq_mod]
  exact multiple

end Arguments

section Words

open EncoderCall (ofInstruction)

/-- The word of a representable call carries the opcode and, read in the
call's format, the other arguments. -/
theorem ofFields_word {call : EncoderCall} (representable : call.Representable) :
    ∃ format, (Isa.opcode call.word).setWidth 32 ∈ formatOpcodes format ∧
      ofInstruction (ofFields call.word format (formatImm call.word format)) =
        call := by
  cases call with
  | r funct7 rs2 rs1 funct3 rd opcode =>
      obtain ⟨fits7, fits2, fits1, fits3, fitsD, known⟩ := representable
      obtain ⟨op, rfl⟩ := exists_opcode known
      obtain ⟨f7, rfl⟩ := exists_field 7 fits7
      obtain ⟨r2, rfl⟩ := exists_field 5 fits2
      obtain ⟨r1, rfl⟩ := exists_field 5 fits1
      obtain ⟨f3, rfl⟩ := exists_field 3 fits3
      obtain ⟨d, rfl⟩ := exists_field 5 fitsD
      obtain ⟨opEq, dEq, f3Eq, r1Eq, r2Eq, f7Eq⟩ :=
        encodeR_fields f7 op f3 r2 r1 d rfl
      refine ⟨.rType, by rwa [EncoderCall.word, opEq], ?_⟩
      simp only [ofInstruction, ofFields, EncoderCall.word, opEq, dEq, f3Eq, r1Eq,
        r2Eq, f7Eq]
  | i imm rs1 funct3 rd opcode =>
      obtain ⟨⟨lower, upper⟩, fits1, fits3, fitsD, known⟩ := representable
      obtain ⟨op, rfl⟩ := exists_opcode known
      obtain ⟨r1, rfl⟩ := exists_field 5 fits1
      obtain ⟨f3, rfl⟩ := exists_field 3 fits3
      obtain ⟨d, rfl⟩ := exists_field 5 fitsD
      obtain ⟨opEq, dEq, f3Eq, r1Eq, immEq⟩ := encodeI_fields op f3 r1 d imm rfl
      rw [Bits.signExtend_setWidth_of_fits imm (by decide) (by decide) lower upper]
        at immEq
      refine ⟨.iType, by rwa [EncoderCall.word, opEq], ?_⟩
      simp only [ofInstruction, ofFields, formatImm, EncoderCall.word, opEq, dEq,
        f3Eq, r1Eq, immEq]
  | s imm rs2 rs1 funct3 opcode =>
      obtain ⟨⟨lower, upper⟩, fits2, fits1, fits3, known⟩ := representable
      obtain ⟨op, rfl⟩ := exists_opcode known
      obtain ⟨r2, rfl⟩ := exists_field 5 fits2
      obtain ⟨r1, rfl⟩ := exists_field 5 fits1
      obtain ⟨f3, rfl⟩ := exists_field 3 fits3
      obtain ⟨opEq, r2Eq, f3Eq, r1Eq, immEq⟩ := encodeS_fields op f3 r2 r1 imm rfl
      rw [Bits.signExtend_setWidth_of_fits imm (by decide) (by decide) lower upper]
        at immEq
      refine ⟨.sType, by rwa [EncoderCall.word, opEq], ?_⟩
      simp only [ofInstruction, ofFields, formatImm, EncoderCall.word, opEq, r2Eq,
        f3Eq, r1Eq, immEq]
  | b imm rs2 rs1 funct3 opcode =>
      obtain ⟨⟨lower, upper, even⟩, fits2, fits1, fits3, known⟩ := representable
      obtain ⟨op, rfl⟩ := exists_opcode known
      obtain ⟨r2, rfl⟩ := exists_field 5 fits2
      obtain ⟨r1, rfl⟩ := exists_field 5 fits1
      obtain ⟨f3, rfl⟩ := exists_field 3 fits3
      obtain ⟨opEq, r2Eq, f3Eq, r1Eq, immEq⟩ :=
        encodeB_fields op f3 r2 r1 imm (low_bit_of_even even) rfl
      rw [Bits.signExtend_setWidth_of_fits imm (by decide) (by decide) lower upper]
        at immEq
      refine ⟨.bType, by rwa [EncoderCall.word, opEq], ?_⟩
      simp only [ofInstruction, ofFields, formatImm, EncoderCall.word, opEq, r2Eq,
        f3Eq, r1Eq, immEq]
  | u imm rd opcode =>
      obtain ⟨multiple, fitsD, known⟩ := representable
      obtain ⟨op, rfl⟩ := exists_opcode known
      obtain ⟨d, rfl⟩ := exists_field 5 fitsD
      obtain ⟨opEq, dEq, immEq⟩ :=
        encodeU_fields op d imm (low_bits_of_multiple multiple) rfl
      refine ⟨.uType, by rwa [EncoderCall.word, opEq], ?_⟩
      simp only [ofInstruction, ofFields, formatImm, EncoderCall.word, opEq, dEq,
        immEq]
  | j imm rd opcode =>
      obtain ⟨⟨lower, upper, even⟩, fitsD, known⟩ := representable
      obtain ⟨op, rfl⟩ := exists_opcode known
      obtain ⟨d, rfl⟩ := exists_field 5 fitsD
      obtain ⟨opEq, dEq, immEq⟩ :=
        encodeJ_fields op d imm (low_bit_of_even even) rfl
      rw [Bits.signExtend_setWidth_of_fits imm (by decide) (by decide) lower upper]
        at immEq
      refine ⟨.jType, by rwa [EncoderCall.word, opEq], ?_⟩
      simp only [ofInstruction, ofFields, formatImm, EncoderCall.word, opEq, dEq,
        immEq]

variable (w : Word)

theorem encodeR_of_fields :
    encodeR ((Isa.funct7 w).setWidth 32) ((Isa.rs2 w).setWidth 32)
      ((Isa.rs1 w).setWidth 32) ((Isa.funct3 w).setWidth 32)
      ((Isa.rd w).setWidth 32) ((Isa.opcode w).setWidth 32) = w := by
  apply BitVec.eq_of_getLsbD_eq
  intro i inRange
  interval_cases i <;>
    simp [encodeR, Isa.opcode, Isa.rd, Isa.funct3, Isa.rs1, Isa.rs2, Isa.funct7]

theorem encodeI_of_fields :
    encodeI (Isa.immI w) ((Isa.rs1 w).setWidth 32) ((Isa.funct3 w).setWidth 32)
      ((Isa.rd w).setWidth 32) ((Isa.opcode w).setWidth 32) = w := by
  apply BitVec.eq_of_getLsbD_eq
  intro i inRange
  interval_cases i <;>
    simp [encodeI, Isa.opcode, Isa.rd, Isa.funct3, Isa.rs1, Isa.immI,
      BitVec.getElem_signExtend]

theorem encodeS_of_fields :
    encodeS (Isa.immS w) ((Isa.rs2 w).setWidth 32) ((Isa.rs1 w).setWidth 32)
      ((Isa.funct3 w).setWidth 32) ((Isa.opcode w).setWidth 32) = w := by
  apply BitVec.eq_of_getLsbD_eq
  intro i inRange
  simp only [encodeS, Isa.immS, BitVec.getLsbD_or, BitVec.getLsbD_shiftLeft,
    BitVec.getLsbD_and, BitVec.getLsbD_signExtend, BitVec.getLsbD_append]
  interval_cases i <;> simp [Isa.opcode, Isa.rs2, Isa.funct3, Isa.rs1]

theorem encodeB_of_fields :
    encodeB (Isa.immB w) ((Isa.rs2 w).setWidth 32) ((Isa.rs1 w).setWidth 32)
      ((Isa.funct3 w).setWidth 32) ((Isa.opcode w).setWidth 32) = w := by
  apply BitVec.eq_of_getLsbD_eq
  intro i inRange
  simp only [encodeB, Isa.immB, BitVec.getLsbD_or, BitVec.getLsbD_shiftLeft,
    BitVec.getLsbD_ushiftRight, BitVec.getLsbD_sshiftRight, BitVec.getLsbD_and,
    BitVec.getLsbD_signExtend, BitVec.getLsbD_append]
  interval_cases i <;> simp [Isa.opcode, Isa.rs2, Isa.funct3, Isa.rs1]

theorem encodeU_of_fields :
    encodeU (Isa.immU w) ((Isa.rd w).setWidth 32) ((Isa.opcode w).setWidth 32) =
      w := by
  apply BitVec.eq_of_getLsbD_eq
  intro i inRange
  simp only [encodeU, Isa.immU, BitVec.getLsbD_or, BitVec.getLsbD_shiftLeft,
    BitVec.getLsbD_and, BitVec.getLsbD_setWidth, BitVec.getLsbD_append]
  interval_cases i <;> simp [Isa.opcode, Isa.rd]

theorem encodeJ_of_fields :
    encodeJ (Isa.immJ w) ((Isa.rd w).setWidth 32) ((Isa.opcode w).setWidth 32) =
      w := by
  apply BitVec.eq_of_getLsbD_eq
  intro i inRange
  simp only [encodeJ, Isa.immJ, BitVec.getLsbD_or, BitVec.getLsbD_shiftLeft,
    BitVec.getLsbD_ushiftRight, BitVec.getLsbD_sshiftRight, BitVec.getLsbD_and,
    BitVec.getLsbD_signExtend, BitVec.getLsbD_append]
  interval_cases i <;> simp [Isa.opcode, Isa.rd]

/-- Read in any format, the fields of a word rebuild it. -/
theorem word_ofFields (format : InstrFormat) :
    (ofInstruction (ofFields w format (formatImm w format))).word = w := by
  cases format with
  | rType => exact encodeR_of_fields w
  | iType => exact encodeI_of_fields w
  | sType => exact encodeS_of_fields w
  | bType => exact encodeB_of_fields w
  | uType => exact encodeU_of_fields w
  | jType => exact encodeJ_of_fields w

end Words

/-- Encoders and decoder are mutually inverse: a representable call is decoded
to its own arguments, and an accepted word is encoded again as itself. -/
theorem encode_decode_inverse :
    (∀ call : EncoderCall, call.Representable →
      (Instruction.decode call.word).map EncoderCall.ofInstruction = some call) ∧
    (∀ w decoded, Instruction.decode w = some decoded →
      (EncoderCall.ofInstruction decoded).word = w) := by
  constructor
  · intro call representable
    obtain ⟨format, known, same⟩ := ofFields_word representable
    rw [Instruction.decode_of_format known, Option.map_some, same]
  · intro w decoded accepted
    obtain ⟨format, _, rfl⟩ := Instruction.format_of_decode accepted
    exact word_ofFields w format

/-- `bgeu x1, x31, -4096`, and `jal x0, 1048574` from its word. -/
theorem encode_decode_inverse_extremes :
    (EncoderCall.b (-4096) 31 1 7 0x63).Representable ∧
      (Instruction.decode (encodeB (-4096) 31 1 7 0x63)).map
        EncoderCall.ofInstruction = some (.b (-4096) 31 1 7 0x63) ∧
      (EncoderCall.ofInstruction
        (ofFields 0x7FFFF06F .jType 1048574)).word = 0x7FFFF06F :=
  ⟨by decide, encode_decode_inverse.1 (.b (-4096) 31 1 7 0x63) (by decide),
    encode_decode_inverse.2 0x7FFFF06F _ (by decide)⟩

end RiscvPack.Asm
