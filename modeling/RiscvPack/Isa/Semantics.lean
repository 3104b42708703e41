import RiscvPack.Isa.Instr
import Mathlib.Logic.Function.Basic

/-!
# Reference semantics

What the manual says each instruction does, over an architectural state of
its own: a register file whose register zero reads zero, a program counter
and a byte-addressed memory.  `exec` is partial: it has no result for an
access that is misaligned or leaves the memory, and none for `ecall`, whose
effect depends on the host.
-/

namespace RiscvPack.Isa

/-- A register file in which register zero is hard-wired. -/
@[ext]
structure RegFile where
  get : Reg → Word
  get_zero : get 0 = 0

namespace RegFile

def set (x : RegFile) (r : Reg) (value : Word) : RegFile where
  get := fun s => if r ≠ 0 ∧ s = r then value else x.get s
  get_zero := by
    rw [if_neg]
    · exact x.get_zero
    · rintro ⟨nonzero, same⟩
      exact nonzero same.symm

@[simp] theorem set_zero (x : RegFile) (value : Word) : x.set 0 value = x := by
  ext s
  simp [set]

theorem get_set_self (x : RegFile) {r : Reg} (nonzero : r ≠ 0) (value : Word) :
    (x.set r value).get r = value :=
  if_pos ⟨nonzero, rfl⟩

theorem get_set_ne (x : RegFile) {r s : Reg} (different : s ≠ r) (value : Word) :
    (x.set r value).get s = x.get s := by
  simp [set, different]

theorem set_set (x : RegFile) (r : Reg) (first second : Word) :
    (x.set r first).set r second = x.set r second := by
  ext s : 2
  simp only [set]
  by_cases written : r ≠ 0 ∧ s = r
  · rw [if_pos written, if_pos written]
  · rw [if_neg written, if_neg written, if_neg written]

end RegFile

/-- Architectural state.  `size` is the number of addressable bytes. -/
structure State where
  pc : Word
  x : RegFile
  mem : Word → Byte
  size : Nat

/-- Results of the register operations. -/
def RegOp.eval (a b : Word) : RegOp → Word
  | .add => a + b
  | .sub => a - b
  | .sll => a <<< (b.toNat % 32)
  | .slt => if a.toInt < b.toInt then 1 else 0
  | .sltu => if a.toNat < b.toNat then 1 else 0
  | .xor => a ^^^ b
  | .srl => a >>> (b.toNat % 32)
  | .sra => a.sshiftRight (b.toNat % 32)
  | .or => a ||| b
  | .and => a &&& b
  | .mul => a * b
  | .mulh => BitVec.ofInt 32 (a.toInt * b.toInt / 2 ^ 32)
  | .mulhsu => BitVec.ofInt 32 (a.toInt * b.toNat / 2 ^ 32)
  | .mulhu => BitVec.ofNat 32 (a.toNat * b.toNat / 2 ^ 32)
  | .div => if b = 0 then -1 else BitVec.ofInt 32 (a.toInt.tdiv b.toInt)
  | .divu => if b = 0 then -1 else BitVec.ofNat 32 (a.toNat / b.toNat)
  | .rem => if b = 0 then a else BitVec.ofInt 32 (a.toInt.tmod b.toInt)
  | .remu => if b = 0 then a else BitVec.ofNat 32 (a.toNat % b.toNat)

def ImmOp.eval (a value : Word) : ImmOp → Word
  | .addi => a + value
  | .slti => if a.toInt < value.toInt then 1 else 0
  | .sltiu => if a.toNat < value.toNat then 1 else 0
  | .xori => a ^^^ value
  | .ori => a ||| value
  | .andi => a &&& value

def ShiftOp.eval (a : Word) (amount : BitVec 5) : ShiftOp → Word
  | .slli => a <<< amount.toNat
  | .srli => a >>> amount.toNat
  | .srai => a.sshiftRight amount.toNat

def BranchOp.taken (a b : Word) : BranchOp → Bool
  | .beq => a = b
  | .bne => a ≠ b
  | .blt => a.toInt < b.toInt
  | .bge => b.toInt ≤ a.toInt
  | .bltu => a.toNat < b.toNat
  | .bgeu => b.toNat ≤ a.toNat

/-- An access of `width` bytes at `a` is aligned and inside the memory. -/
def Accessible (size width : Nat) (a : Word) : Prop :=
  a.toNat % width = 0 ∧ a.toNat + width ≤ size

instance (size width : Nat) (a : Word) : Decidable (Accessible size width a) :=
  inferInstanceAs (Decidable (_ ∧ _))

/-- The value a load finds at `a`, least significant byte first. -/
def LoadOp.value (mem : Word → Byte) (a : Word) : LoadOp → Word
  | .lb => (mem a).signExtend 32
  | .lbu => (mem a).setWidth 32
  | .lh => (mem (a + 1) ++ mem a).signExtend 32
  | .lhu => (mem (a + 1) ++ mem a).setWidth 32
  | .lw => Bits.ofLeBytes (mem a) (mem (a + 1)) (mem (a + 2)) (mem (a + 3))

/-- The memory after a store, which touches only its own bytes. -/
def StoreOp.write (mem : Word → Byte) (a value : Word) : StoreOp → Word → Byte
  | .sb => Function.update mem a (value.extractLsb' 0 8)
  | .sh =>
      Function.update (Function.update mem a (value.extractLsb' 0 8))
        (a + 1) (value.extractLsb' 8 8)
  | .sw =>
      Function.update
        (Function.update
          (Function.update
            (Function.update mem a (value.extractLsb' 0 8))
            (a + 1) (value.extractLsb' 8 8))
          (a + 2) (value.extractLsb' 16 8))
        (a + 3) (value.extractLsb' 24 8)

/-- The state after a register write that falls through to the next word. -/
def State.writeNext (s : State) (r : Reg) (value : Word) : State :=
  { s with x := s.x.set r value, pc := s.pc + 4 }

/-- The effect of one instruction at the current program counter. -/
def exec (s : State) : Instr → Option State
  | .reg op rd rs1 rs2 =>
      some (s.writeNext rd (op.eval (s.x.get rs1) (s.x.get rs2)))
  | .imm op rd rs1 value =>
      some (s.writeNext rd (op.eval (s.x.get rs1) value))
  | .shift op rd rs1 amount =>
      some (s.writeNext rd (op.eval (s.x.get rs1) amount))
  | .load op rd rs1 offset =>
      let a := s.x.get rs1 + offset
      if Accessible s.size op.width a then
        some (s.writeNext rd (op.value s.mem a))
      else none
  | .store op rs2 rs1 offset =>
      let a := s.x.get rs1 + offset
      if Accessible s.size op.width a then
        some { s with mem := op.write s.mem a (s.x.get rs2), pc := s.pc + 4 }
      else none
  | .branch op rs1 rs2 offset =>
      if op.taken (s.x.get rs1) (s.x.get rs2) then
        some { s with pc := s.pc + offset }
      else some { s with pc := s.pc + 4 }
  | .jal rd offset =>
      some { s with x := s.x.set rd (s.pc + 4), pc := s.pc + offset }
  | .jalr rd rs1 offset =>
      some { s with
        x := s.x.set rd (s.pc + 4)
        pc := (s.x.get rs1 + offset) &&& ~~~1#32 }
  | .lui rd value => some (s.writeNext rd value)
  | .auipc rd value => some (s.writeNext rd (s.pc + value))
  | .ecall => none
  | .ebreak => some { s with pc := s.pc + 4 }

section Frame

/-- The register an instruction writes. -/
def Instr.dest : Instr → Option Reg
  | .reg _ rd _ _ | .imm _ rd _ _ | .shift _ rd _ _ | .load _ rd _ _
  | .jal rd _ | .jalr rd _ _ | .lui rd _ | .auipc rd _ => some rd
  | .store .. | .branch .. | .ecall | .ebreak => none

/-- The width and address of the data access an instruction makes. -/
def Instr.access (s : State) : Instr → Option (Nat × Word)
  | .load op _ rs1 offset => some (op.width, s.x.get rs1 + offset)
  | .store op _ rs1 offset => some (op.width, s.x.get rs1 + offset)
  | _ => none

/-- The bytes an instruction writes: those of a store. -/
def Instr.Writes (s : State) (b : Word) : Instr → Prop
  | .store op _ rs1 offset =>
      ∃ k < op.width, b = s.x.get rs1 + offset + BitVec.ofNat 32 k
  | _ => False

theorem StoreOp.write_of_not_mem (op : StoreOp) {mem : Word → Byte}
    {a value b : Word} (outside : ∀ k < op.width, b ≠ a + BitVec.ofNat 32 k) :
    op.write mem a value b = mem b := by
  have first : b ≠ a := by
    have := outside 0 (by cases op <;> decide)
    simpa using this
  cases op with
  | sb => exact Function.update_of_ne first ..
  | sh =>
      have second : b ≠ a + 1 := outside 1 (by decide)
      simp only [StoreOp.write]
      rw [Function.update_of_ne second, Function.update_of_ne first]
  | sw =>
      have second : b ≠ a + 1 := outside 1 (by decide)
      have third : b ≠ a + 2 := outside 2 (by decide)
      have fourth : b ≠ a + 3 := outside 3 (by decide)
      simp only [StoreOp.write]
      rw [Function.update_of_ne fourth, Function.update_of_ne third,
        Function.update_of_ne second, Function.update_of_ne first]

variable {s s' : State} {i : Instr}

/-- Registers other than the destination keep their values. -/
theorem exec_get_of_ne_dest (effect : exec s i = some s') {r : Reg}
    (other : i.dest ≠ some r) : s'.x.get r = s.x.get r := by
  have writeNext (rd : Reg) (value : Word) (different : some rd ≠ some r) :
      (s.writeNext rd value).x.get r = s.x.get r :=
    RegFile.get_set_ne _ (fun same => different (congrArg some same.symm)) _
  cases i with
  | reg | imm | shift | lui | auipc =>
      cases effect
      exact writeNext _ _ other
  | load op rd rs1 offset =>
      simp only [exec] at effect
      split at effect
      · cases effect
        exact writeNext _ _ other
      · cases effect
  | store op rs2 rs1 offset =>
      simp only [exec] at effect
      split at effect
      · cases effect
        rfl
      · cases effect
  | branch op rs1 rs2 offset =>
      simp only [exec] at effect
      split at effect <;> cases effect <;> rfl
  | jal | jalr =>
      cases effect
      exact writeNext _ _ other
  | ecall => cases effect
  | ebreak =>
      cases effect
      rfl

/-- Bytes outside the footprint of a store keep their values. -/
theorem exec_mem_of_not_writes (effect : exec s i = some s') {b : Word}
    (outside : ¬ i.Writes s b) : s'.mem b = s.mem b := by
  cases i with
  | store op rs2 rs1 offset =>
      simp only [exec] at effect
      split at effect
      · cases effect
        apply StoreOp.write_of_not_mem
        intro k below same
        exact outside ⟨k, below, same⟩
      · cases effect
  | load op rd rs1 offset =>
      simp only [exec] at effect
      split at effect <;> cases effect
      rfl
  | branch op rs1 rs2 offset =>
      simp only [exec] at effect
      split at effect <;> cases effect <;> rfl
  | ecall => cases effect
  | reg | imm | shift | lui | auipc | jal | jalr | ebreak =>
      cases effect
      rfl

/-- The reference semantics refuses exactly the data accesses that are
misaligned or out of bounds. -/
theorem exec_eq_none_iff (noCall : i ≠ .ecall) :
    exec s i = none ↔
      ∃ width a, i.access s = some (width, a) ∧ ¬ Accessible s.size width a := by
  cases i with
  | load | store =>
      simp only [exec, Instr.access, Option.some.injEq, Prod.mk.injEq]
      constructor
      · intro refused
        refine ⟨_, _, ⟨rfl, rfl⟩, fun accessible => ?_⟩
        rw [if_pos accessible] at refused
        cases refused
      · rintro ⟨_, _, ⟨rfl, rfl⟩, refused⟩
        exact if_neg refused
  | branch op rs1 rs2 offset =>
      simp only [exec, Instr.access]
      split <;> simp
  | ecall => exact absurd rfl noCall
  | reg | imm | shift | lui | auipc | jal | jalr | ebreak =>
      simp [exec, Instr.access]

end Frame

/-- A signed division whose quotient does not fit 32 bits. -/
def DivOverflow (s : State) : Instr → Prop
  | .reg .div _ rs1 rs2 | .reg .rem _ rs1 rs2 =>
      s.x.get rs1 = BitVec.intMin 32 ∧ s.x.get rs2 = -1
  | _ => False

end RiscvPack.Isa
