import RiscvPack.Lib.Bits

/-!
# The instruction set and its reference decoding

The instructions the emulator's manual lists (RV32I plus the M extension,
with `ecall` and `ebreak`), the operation codes that distinguish them, and
the reference reading of a 32-bit word.  A word is legal exactly when the
reference decoder accepts it.
-/

namespace RiscvPack

abbrev Word := BitVec 32
abbrev Byte := BitVec 8

/-- A register number. -/
abbrev Reg := BitVec 5

namespace Isa

/-- Operations on two registers. -/
inductive RegOp where
  | add | sub | sll | slt | sltu | xor | srl | sra | or | and
  | mul | mulh | mulhsu | mulhu | div | divu | rem | remu
  deriving DecidableEq, Repr

/-- Operations on a register and a 12-bit immediate. -/
inductive ImmOp where
  | addi | slti | sltiu | xori | ori | andi
  deriving DecidableEq, Repr

/-- Shifts by a constant amount. -/
inductive ShiftOp where
  | slli | srli | srai
  deriving DecidableEq, Repr

inductive LoadOp where
  | lb | lh | lw | lbu | lhu
  deriving DecidableEq, Repr

inductive StoreOp where
  | sb | sh | sw
  deriving DecidableEq, Repr

inductive BranchOp where
  | beq | bne | blt | bge | bltu | bgeu
  deriving DecidableEq, Repr

/-- A decoded instruction.  Immediates are the sign-extended 32-bit values
that execution uses; `lui` and `auipc` carry the immediate already shifted. -/
inductive Instr where
  | reg (op : RegOp) (rd rs1 rs2 : Reg)
  | imm (op : ImmOp) (rd rs1 : Reg) (value : Word)
  | shift (op : ShiftOp) (rd rs1 : Reg) (amount : BitVec 5)
  | load (op : LoadOp) (rd rs1 : Reg) (offset : Word)
  | store (op : StoreOp) (rs2 rs1 : Reg) (offset : Word)
  | branch (op : BranchOp) (rs1 rs2 : Reg) (offset : Word)
  | jal (rd : Reg) (offset : Word)
  | jalr (rd rs1 : Reg) (offset : Word)
  | lui (rd : Reg) (value : Word)
  | auipc (rd : Reg) (value : Word)
  | ecall
  | ebreak
  deriving DecidableEq, Repr

namespace RegOp

def funct3 : RegOp → BitVec 3
  | .add | .sub | .mul => 0
  | .sll | .mulh => 1
  | .slt | .mulhsu => 2
  | .sltu | .mulhu => 3
  | .xor | .div => 4
  | .srl | .sra | .divu => 5
  | .or | .rem => 6
  | .and | .remu => 7

def funct7 : RegOp → BitVec 7
  | .sub | .sra => 0x20
  | .mul | .mulh | .mulhsu | .mulhu | .div | .divu | .rem | .remu => 0x01
  | .add | .sll | .slt | .sltu | .xor | .srl | .or | .and => 0x00

def all : List RegOp :=
  [.add, .sub, .sll, .slt, .sltu, .xor, .srl, .sra, .or, .and,
    .mul, .mulh, .mulhsu, .mulhu, .div, .divu, .rem, .remu]

def ofFunct (f7 : BitVec 7) (f3 : BitVec 3) : Option RegOp :=
  all.find? fun op => op.funct7 = f7 ∧ op.funct3 = f3

theorem ofFunct_funct (op : RegOp) : ofFunct op.funct7 op.funct3 = some op := by
  cases op <;> decide

theorem ofFunct_eq_some {f7 : BitVec 7} {f3 : BitVec 3} {op : RegOp}
    (found : ofFunct f7 f3 = some op) : f7 = op.funct7 ∧ f3 = op.funct3 := by
  have matching := List.find?_some found
  simp only [decide_eq_true_eq] at matching
  exact ⟨matching.1.symm, matching.2.symm⟩

end RegOp

namespace ImmOp

def funct3 : ImmOp → BitVec 3
  | .addi => 0
  | .slti => 2
  | .sltiu => 3
  | .xori => 4
  | .ori => 6
  | .andi => 7

def ofFunct (f3 : BitVec 3) : Option ImmOp :=
  [ImmOp.addi, .slti, .sltiu, .xori, .ori, .andi].find? (·.funct3 = f3)

theorem ofFunct_funct (op : ImmOp) : ofFunct op.funct3 = some op := by
  cases op <;> decide

theorem ofFunct_eq_some {f3 : BitVec 3} {op : ImmOp}
    (found : ofFunct f3 = some op) : f3 = op.funct3 := by
  simpa [eq_comm] using List.find?_some found

end ImmOp

namespace ShiftOp

def funct3 : ShiftOp → BitVec 3
  | .slli => 1
  | .srli | .srai => 5

def funct7 : ShiftOp → BitVec 7
  | .slli | .srli => 0x00
  | .srai => 0x20

def ofFunct (f7 : BitVec 7) (f3 : BitVec 3) : Option ShiftOp :=
  [ShiftOp.slli, .srli, .srai].find? fun op => op.funct7 = f7 ∧ op.funct3 = f3

theorem ofFunct_funct (op : ShiftOp) :
    ofFunct op.funct7 op.funct3 = some op := by
  cases op <;> decide

theorem ofFunct_eq_some {f7 : BitVec 7} {f3 : BitVec 3} {op : ShiftOp}
    (found : ofFunct f7 f3 = some op) : f7 = op.funct7 ∧ f3 = op.funct3 := by
  have matching := List.find?_some found
  simp only [decide_eq_true_eq] at matching
  exact ⟨matching.1.symm, matching.2.symm⟩

/-- No shift shares its `funct3` with an immediate operation. -/
theorem immOp_ofFunct_funct3 (op : ShiftOp) : ImmOp.ofFunct op.funct3 = none := by
  cases op <;> decide

end ShiftOp

namespace LoadOp

def funct3 : LoadOp → BitVec 3
  | .lb => 0
  | .lh => 1
  | .lw => 2
  | .lbu => 4
  | .lhu => 5

def ofFunct (f3 : BitVec 3) : Option LoadOp :=
  [LoadOp.lb, .lh, .lw, .lbu, .lhu].find? (·.funct3 = f3)

theorem ofFunct_funct (op : LoadOp) : ofFunct op.funct3 = some op := by
  cases op <;> decide

theorem ofFunct_eq_some {f3 : BitVec 3} {op : LoadOp}
    (found : ofFunct f3 = some op) : f3 = op.funct3 := by
  simpa [eq_comm] using List.find?_some found

/-- Number of bytes the load reads. -/
def width : LoadOp → Nat
  | .lb | .lbu => 1
  | .lh | .lhu => 2
  | .lw => 4

end LoadOp

namespace StoreOp

def funct3 : StoreOp → BitVec 3
  | .sb => 0
  | .sh => 1
  | .sw => 2

def ofFunct (f3 : BitVec 3) : Option StoreOp :=
  [StoreOp.sb, .sh, .sw].find? (·.funct3 = f3)

theorem ofFunct_funct (op : StoreOp) : ofFunct op.funct3 = some op := by
  cases op <;> decide

theorem ofFunct_eq_some {f3 : BitVec 3} {op : StoreOp}
    (found : ofFunct f3 = some op) : f3 = op.funct3 := by
  simpa [eq_comm] using List.find?_some found

/-- Number of bytes the store writes. -/
def width : StoreOp → Nat
  | .sb => 1
  | .sh => 2
  | .sw => 4

end StoreOp

namespace BranchOp

def funct3 : BranchOp → BitVec 3
  | .beq => 0
  | .bne => 1
  | .blt => 4
  | .bge => 5
  | .bltu => 6
  | .bgeu => 7

def ofFunct (f3 : BitVec 3) : Option BranchOp :=
  [BranchOp.beq, .bne, .blt, .bge, .bltu, .bgeu].find? (·.funct3 = f3)

theorem ofFunct_funct (op : BranchOp) : ofFunct op.funct3 = some op := by
  cases op <;> decide

theorem ofFunct_eq_some {f3 : BitVec 3} {op : BranchOp}
    (found : ofFunct f3 = some op) : f3 = op.funct3 := by
  simpa [eq_comm] using List.find?_some found

end BranchOp

section Fields

variable (w : Word)

def opcode : BitVec 7 := w.extractLsb' 0 7
def rd : Reg := w.extractLsb' 7 5
def funct3 : BitVec 3 := w.extractLsb' 12 3
def rs1 : Reg := w.extractLsb' 15 5
def rs2 : Reg := w.extractLsb' 20 5
def funct7 : BitVec 7 := w.extractLsb' 25 7

/-- The immediate of each format, sign-extended to 32 bits. -/
def immI : Word := (w.extractLsb' 20 12).signExtend 32

def immS : Word := (w.extractLsb' 25 7 ++ w.extractLsb' 7 5).signExtend 32

def immB : Word :=
  (w.extractLsb' 31 1 ++ w.extractLsb' 7 1 ++ w.extractLsb' 25 6 ++
    w.extractLsb' 8 4 ++ 0#1).signExtend 32

def immU : Word := (w.extractLsb' 12 20 ++ 0#12).setWidth 32

def immJ : Word :=
  (w.extractLsb' 31 1 ++ w.extractLsb' 12 8 ++ w.extractLsb' 20 1 ++
    w.extractLsb' 21 10 ++ 0#1).signExtend 32

end Fields

/-- The major opcodes. -/
def opReg : BitVec 7 := 0x33
def opImm : BitVec 7 := 0x13
def opLoad : BitVec 7 := 0x03
def opStore : BitVec 7 := 0x23
def opBranch : BitVec 7 := 0x63
def opJal : BitVec 7 := 0x6F
def opJalr : BitVec 7 := 0x67
def opLui : BitVec 7 := 0x37
def opAuipc : BitVec 7 := 0x17
def opSystem : BitVec 7 := 0x73

/-- The reference reading of a word; `none` for a word that encodes no
supported instruction. -/
def decode (w : Word) : Option Instr :=
  if opcode w = opReg then
    (RegOp.ofFunct (funct7 w) (funct3 w)).map (.reg · (rd w) (rs1 w) (rs2 w))
  else if opcode w = opImm then
    match ImmOp.ofFunct (funct3 w) with
    | some op => some (.imm op (rd w) (rs1 w) (immI w))
    | none =>
        (ShiftOp.ofFunct (funct7 w) (funct3 w)).map
          (.shift · (rd w) (rs1 w) (rs2 w))
  else if opcode w = opLoad then
    (LoadOp.ofFunct (funct3 w)).map (.load · (rd w) (rs1 w) (immI w))
  else if opcode w = opStore then
    (StoreOp.ofFunct (funct3 w)).map (.store · (rs2 w) (rs1 w) (immS w))
  else if opcode w = opBranch then
    (BranchOp.ofFunct (funct3 w)).map (.branch · (rs1 w) (rs2 w) (immB w))
  else if opcode w = opJal then
    some (.jal (rd w) (immJ w))
  else if opcode w = opJalr then
    if funct3 w = 0 then some (.jalr (rd w) (rs1 w) (immI w)) else none
  else if opcode w = opLui then
    some (.lui (rd w) (immU w))
  else if opcode w = opAuipc then
    some (.auipc (rd w) (immU w))
  else if w = 0x00000073 then
    some .ecall
  else if w = 0x00100073 then
    some .ebreak
  else
    none

/-- The reading of a word as a relation: one rule for each format, with the
fields that identify the operation. -/
inductive Decodes (w : Word) : Instr → Prop where
  | reg (op : RegOp) :
      opcode w = opReg → funct7 w = op.funct7 → funct3 w = op.funct3 →
      Decodes w (.reg op (rd w) (rs1 w) (rs2 w))
  | imm (op : ImmOp) :
      opcode w = opImm → funct3 w = op.funct3 →
      Decodes w (.imm op (rd w) (rs1 w) (immI w))
  | shift (op : ShiftOp) :
      opcode w = opImm → funct7 w = op.funct7 → funct3 w = op.funct3 →
      Decodes w (.shift op (rd w) (rs1 w) (rs2 w))
  | load (op : LoadOp) :
      opcode w = opLoad → funct3 w = op.funct3 →
      Decodes w (.load op (rd w) (rs1 w) (immI w))
  | store (op : StoreOp) :
      opcode w = opStore → funct3 w = op.funct3 →
      Decodes w (.store op (rs2 w) (rs1 w) (immS w))
  | branch (op : BranchOp) :
      opcode w = opBranch → funct3 w = op.funct3 →
      Decodes w (.branch op (rs1 w) (rs2 w) (immB w))
  | jal : opcode w = opJal → Decodes w (.jal (rd w) (immJ w))
  | jalr :
      opcode w = opJalr → funct3 w = 0 →
      Decodes w (.jalr (rd w) (rs1 w) (immI w))
  | lui : opcode w = opLui → Decodes w (.lui (rd w) (immU w))
  | auipc : opcode w = opAuipc → Decodes w (.auipc (rd w) (immU w))
  | ecall : w = 0x00000073 → Decodes w .ecall
  | ebreak : w = 0x00100073 → Decodes w .ebreak

theorem decode_eq_some_iff {w : Word} {i : Instr} :
    decode w = some i ↔ Decodes w i := by
  constructor
  · intro decoded
    unfold decode at decoded
    by_cases isReg : opcode w = opReg
    · rw [if_pos isReg] at decoded
      obtain ⟨op, found, rfl⟩ := Option.map_eq_some_iff.mp decoded
      obtain ⟨f7, f3⟩ := RegOp.ofFunct_eq_some found
      exact .reg op isReg f7 f3
    rw [if_neg isReg] at decoded
    by_cases isImm : opcode w = opImm
    · rw [if_pos isImm] at decoded
      split at decoded
      · rename_i op found
        cases decoded
        exact .imm op isImm (ImmOp.ofFunct_eq_some found)
      · obtain ⟨op, found, rfl⟩ := Option.map_eq_some_iff.mp decoded
        obtain ⟨f7, f3⟩ := ShiftOp.ofFunct_eq_some found
        exact .shift op isImm f7 f3
    rw [if_neg isImm] at decoded
    by_cases isLoad : opcode w = opLoad
    · rw [if_pos isLoad] at decoded
      obtain ⟨op, found, rfl⟩ := Option.map_eq_some_iff.mp decoded
      exact .load op isLoad (LoadOp.ofFunct_eq_some found)
    rw [if_neg isLoad] at decoded
    by_cases isStore : opcode w = opStore
    · rw [if_pos isStore] at decoded
      obtain ⟨op, found, rfl⟩ := Option.map_eq_some_iff.mp decoded
      exact .store op isStore (StoreOp.ofFunct_eq_some found)
    rw [if_neg isStore] at decoded
    by_cases isBranch : opcode w = opBranch
    · rw [if_pos isBranch] at decoded
      obtain ⟨op, found, rfl⟩ := Option.map_eq_some_iff.mp decoded
      exact .branch op isBranch (BranchOp.ofFunct_eq_some found)
    rw [if_neg isBranch] at decoded
    by_cases isJal : opcode w = opJal
    · rw [if_pos isJal] at decoded
      cases decoded
      exact .jal isJal
    rw [if_neg isJal] at decoded
    by_cases isJalr : opcode w = opJalr
    · rw [if_pos isJalr] at decoded
      split at decoded
      · rename_i f3
        cases decoded
        exact .jalr isJalr f3
      · cases decoded
    rw [if_neg isJalr] at decoded
    split at decoded
    · rename_i isLui
      cases decoded
      exact .lui isLui
    split at decoded
    · rename_i isAuipc
      cases decoded
      exact .auipc isAuipc
    split at decoded
    · rename_i isEcall
      cases decoded
      exact .ecall isEcall
    split at decoded
    · rename_i isEbreak
      cases decoded
      exact .ebreak isEbreak
    · cases decoded
  · intro decodes
    cases decodes with
    | reg op major f7 f3 =>
        rw [decode, major, if_pos rfl, f7, f3, RegOp.ofFunct_funct]
        rfl
    | imm op major f3 =>
        rw [decode, major, if_neg (by decide), if_pos rfl, f3, ImmOp.ofFunct_funct]
    | shift op major f7 f3 =>
        rw [decode, major, if_neg (by decide), if_pos rfl, f7, f3,
          ShiftOp.immOp_ofFunct_funct3, ShiftOp.ofFunct_funct]
        rfl
    | load op major f3 =>
        rw [decode, major, if_neg (by decide), if_neg (by decide), if_pos rfl, f3,
          LoadOp.ofFunct_funct]
        rfl
    | store op major f3 =>
        rw [decode, major, if_neg (by decide), if_neg (by decide), if_neg (by decide),
          if_pos rfl, f3, StoreOp.ofFunct_funct]
        rfl
    | branch op major f3 =>
        rw [decode, major, if_neg (by decide), if_neg (by decide), if_neg (by decide),
          if_neg (by decide), if_pos rfl, f3, BranchOp.ofFunct_funct]
        rfl
    | jal major =>
        rw [decode, major, if_neg (by decide), if_neg (by decide), if_neg (by decide),
          if_neg (by decide), if_neg (by decide), if_pos rfl]
    | jalr major f3 =>
        rw [decode, major, if_neg (by decide), if_neg (by decide), if_neg (by decide),
          if_neg (by decide), if_neg (by decide), if_neg (by decide), if_pos rfl, if_pos f3]
    | lui major =>
        rw [decode, major, if_neg (by decide), if_neg (by decide), if_neg (by decide),
          if_neg (by decide), if_neg (by decide), if_neg (by decide), if_neg (by decide),
          if_pos rfl]
    | auipc major =>
        rw [decode, major, if_neg (by decide), if_neg (by decide), if_neg (by decide),
          if_neg (by decide), if_neg (by decide), if_neg (by decide), if_neg (by decide),
          if_neg (by decide), if_pos rfl]
    | ecall isEcall =>
        subst isEcall
        decide
    | ebreak isEbreak =>
        subst isEbreak
        decide

/-- A word is a legal encoding of a supported instruction. -/
def Legal (w : Word) : Prop := (decode w).isSome

instance (w : Word) : Decidable (Legal w) :=
  inferInstanceAs (Decidable ((decode w).isSome = true))

end Isa

end RiscvPack
