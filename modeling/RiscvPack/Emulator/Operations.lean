import RiscvPack.Emulator.Cpu

/-!
# Operations of the processor against the reference semantics

One lemma for each of the emulator's operation functions: on the function
codes of a supported operation it computes the reference result.
-/

namespace RiscvPack.Emulator

open Isa Runs

namespace CPU

private theorem and_low_mask (b : Word) : (b &&& 0x1F).toNat = b.toNat % 32 := by
  rw [BitVec.toNat_and]
  exact Nat.and_two_pow_sub_one_eq_mod b.toNat 5

theorem executeAlu_reg (a b : Word) (op : RegOp) (base : op.funct7 ≠ 0x01) :
    executeAlu a b op.funct3 op.funct7 false = op.eval a b := by
  cases op with
  | add | sub | xor | or | and => rfl
  | sll =>
      show a <<< (b &&& 0x1F) = a <<< (b.toNat % 32)
      rw [BitVec.shiftLeft_eq', and_low_mask]
  | slt =>
      show (if a.slt b then 1 else 0) = if a.toInt < b.toInt then (1 : Word) else 0
      simp only [BitVec.slt_iff_toInt_lt]
  | sltu =>
      show (if a.ult b then 1 else 0) = if a.toNat < b.toNat then (1 : Word) else 0
      simp only [BitVec.ult_iff_lt, BitVec.lt_def]
  | srl =>
      show a >>> (b &&& 0x1F) = a >>> (b.toNat % 32)
      rw [BitVec.ushiftRight_eq', and_low_mask]
  | sra =>
      show a.sshiftRight (b &&& 0x1F).toNat = a.sshiftRight (b.toNat % 32)
      rw [and_low_mask]
  | mul | mulh | mulhsu | mulhu | div | divu | rem | remu =>
      exact absurd rfl base

theorem executeAlu_imm (a value : Word) (op : ImmOp) :
    executeAlu a value op.funct3 0 true = op.eval a value := by
  cases op with
  | addi | xori | ori | andi => rfl
  | slti =>
      show (if a.slt value then 1 else 0) =
        if a.toInt < value.toInt then (1 : Word) else 0
      simp only [BitVec.slt_iff_toInt_lt]
  | sltiu =>
      show (if a.ult value then 1 else 0) =
        if a.toNat < value.toNat then (1 : Word) else 0
      simp only [BitVec.ult_iff_lt, BitVec.lt_def]

/-- Only the low five bits of the immediate reach a shift. -/
theorem executeAlu_shift (a value : Word) (op : ShiftOp) :
    executeAlu a value op.funct3 op.funct7 true =
      op.eval a (value.setWidth 5) := by
  have amount : (value &&& 0x1F).toNat = (value.setWidth 5).toNat := by
    rw [and_low_mask, BitVec.toNat_setWidth]
  cases op with
  | slli =>
      show a <<< (value &&& 0x1F) = a <<< (value.setWidth 5).toNat
      rw [BitVec.shiftLeft_eq', amount]
  | srli =>
      show a >>> (value &&& 0x1F) = a >>> (value.setWidth 5).toNat
      rw [BitVec.ushiftRight_eq', amount]
  | srai =>
      show a.sshiftRight (value &&& 0x1F).toNat =
        a.sshiftRight (value.setWidth 5).toNat
      rw [amount]

section Multiplication

private theorem upper_half (z : Int) :
    ((BitVec.ofInt 64 z >>> 32).setWidth 32 : Word) =
      BitVec.ofInt 32 (z / 2 ^ 32) := by
  apply BitVec.eq_of_toNat_eq
  simp only [BitVec.toNat_setWidth, BitVec.toNat_ushiftRight,
    BitVec.toNat_ofInt, Nat.shiftRight_eq_div_pow]
  omega

private theorem signed_upper_half (z : Int) :
    (((BitVec.ofInt 64 z).sshiftRight 32).setWidth 32 : Word) =
      BitVec.ofInt 32 (z / 2 ^ 32) := by
  rw [← upper_half]
  apply BitVec.eq_of_getLsbD_eq
  intro i inRange
  have inside : 32 + i < 64 := by omega
  have notHigh : ¬ 64 ≤ i := by omega
  simp [BitVec.getLsbD_sshiftRight, inRange, inside, notHigh]

private theorem setWidth64_eq_ofInt (a : Word) :
    a.setWidth 64 = BitVec.ofInt 64 a.toNat := by
  rw [BitVec.ofInt_natCast, BitVec.ofNat_toNat]

private theorem ofInt_natCast_div (m : Nat) :
    BitVec.ofInt 32 ((m : Int) / 2 ^ 32) = BitVec.ofNat 32 (m / 2 ^ 32) := by
  rw [show ((m : Int) / 2 ^ 32) = ((m / 2 ^ 32 : Nat) : Int) by push_cast; rfl,
    BitVec.ofInt_natCast]

theorem mulh_eq (a b : Word) :
    ((a.signExtend 64 * b.signExtend 64).sshiftRight 32).setWidth 32 =
      RegOp.mulh.eval a b := by
  rw [BitVec.signExtend, BitVec.signExtend, ← BitVec.ofInt_mul,
    signed_upper_half]
  rfl

theorem mulhsu_eq (a b : Word) :
    ((a.signExtend 64 * b.setWidth 64) >>> 32).setWidth 32 =
      RegOp.mulhsu.eval a b := by
  rw [BitVec.signExtend, setWidth64_eq_ofInt, ← BitVec.ofInt_mul, upper_half]
  rfl

theorem mulhu_eq (a b : Word) :
    ((a.setWidth 64 * b.setWidth 64) >>> 32).setWidth 32 =
      RegOp.mulhu.eval a b := by
  rw [setWidth64_eq_ofInt, setWidth64_eq_ofInt, ← BitVec.ofInt_mul, upper_half,
    ← Int.natCast_mul, ofInt_natCast_div]
  rfl

end Multiplication

/-- The M extension.  The hypothesis excludes exactly the quotient that has
no 32-bit value. -/
theorem executeMulDiv_eq (a b : Word) (op : RegOp) (ext : op.funct7 = 0x01)
    (defined : op = .div ∨ op = .rem → SignedDivisionDefined a b) :
    executeMulDiv a b op.funct3 = some (op.eval a b) := by
  cases op with
  | mul => rfl
  | mulh => exact congrArg some (mulh_eq a b)
  | mulhsu => exact congrArg some (mulhsu_eq a b)
  | mulhu => exact congrArg some (mulhu_eq a b)
  | div =>
      show (if b = 0 then some (-1)
        else if SignedDivisionDefined a b then some (a.sdiv b) else none) =
        some (if b = 0 then -1 else BitVec.ofInt 32 (a.toInt.tdiv b.toInt))
      by_cases zero : b = 0
      · rw [if_pos zero, if_pos zero]
      · rw [if_neg zero, if_neg zero, if_pos (defined (Or.inl rfl))]
        congr 1
        apply BitVec.eq_of_toInt_eq
        rw [BitVec.toInt_sdiv, BitVec.toInt_ofInt]
  | divu =>
      show (if b = 0 then some (-1) else some (a / b)) =
        some (if b = 0 then -1 else BitVec.ofNat 32 (a.toNat / b.toNat))
      by_cases zero : b = 0
      · rw [if_pos zero, if_pos zero]
      · rw [if_neg zero, if_neg zero, BitVec.udiv_def]
  | rem =>
      show (if b = 0 then some a
        else if SignedDivisionDefined a b then some (a.srem b) else none) =
        some (if b = 0 then a else BitVec.ofInt 32 (a.toInt.tmod b.toInt))
      by_cases zero : b = 0
      · rw [if_pos zero, if_pos zero]
      · rw [if_neg zero, if_neg zero, if_pos (defined (Or.inr rfl)),
          ← BitVec.toInt_srem, BitVec.ofInt_toInt]
  | remu =>
      show (if b = 0 then some a else some (a % b)) =
        some (if b = 0 then a else BitVec.ofNat 32 (a.toNat % b.toNat))
      by_cases zero : b = 0
      · rw [if_pos zero, if_pos zero]
      · rw [if_neg zero, if_neg zero, BitVec.umod_def]
  | add | sub | sll | slt | sltu | xor | srl | sra | or | and =>
      exact absurd ext (by decide)

theorem executeMulDiv_undefined {a b : Word} {op : RegOp}
    (signed : op = .div ∨ op = .rem) (overflow : ¬ SignedDivisionDefined a b) :
    executeMulDiv a b op.funct3 = none := by
  have nonzero : b ≠ 0 := by
    intro zero
    apply overflow
    rintro ⟨_, minusOne⟩
    rw [zero] at minusOne
    cases minusOne
  rcases signed with rfl | rfl
  · exact (if_neg nonzero).trans (if_neg overflow)
  · exact (if_neg nonzero).trans (if_neg overflow)

theorem executeMulDiv_value {a b result : Word} {op : RegOp}
    (ext : op.funct7 = 0x01) (computed : executeMulDiv a b op.funct3 = some result) :
    result = op.eval a b := by
  have defined : op = .div ∨ op = .rem → SignedDivisionDefined a b := by
    intro signed
    by_contra overflow
    rw [executeMulDiv_undefined signed overflow] at computed
    cases computed
  rw [executeMulDiv_eq a b op ext defined] at computed
  exact (Option.some.inj computed).symm

section MemoryAccess

private theorem low_byte_mask (b : Byte) :
    (b.setWidth 32 &&& 0xFF : Word) = b.setWidth 32 := by
  apply BitVec.eq_of_getLsbD_eq
  intro i inRange
  interval_cases i <;> simp

private theorem halfword_of_bytes (low high : Byte) :
    (((low.setWidth 32 ||| (high.setWidth 32 <<< 8)).setWidth 16).setWidth 32 &&&
        0xFFFF : Word) = (high ++ low).setWidth 32 := by
  apply BitVec.eq_of_getLsbD_eq
  intro i inRange
  simp only [BitVec.getLsbD_setWidth, BitVec.getLsbD_append]
  interval_cases i <;> simp

/-- What is made of a memory access; a failed one is an execution error. -/
private def accessed {α β : Type} (use : α → β) :
    Except MemoryStatus α → Except CpuStatus β
  | .ok value => .ok (use value)
  | .error _ => .error .executionError

private theorem of_accessed {α β : Type} {use : α → β} {access : Except MemoryStatus α}
    {result : β} (used : accessed use access = .ok result) :
    ∃ value, access = .ok value ∧ use value = result := by
  cases access with
  | ok value => exact ⟨value, rfl, Except.ok.inj used⟩
  | error status => cases used

/-- The access a load makes, and what it makes of it. -/
private def loadAccess (mem : Memory) (addr : Word) : LoadOp → Except CpuStatus Word
  | .lb =>
      accessed (fun byte : Byte => signExtend (byte.setWidth 32 &&& 0xFF) 8)
        (mem.read8 addr)
  | .lbu => accessed (fun byte : Byte => byte.setWidth 32 &&& 0xFF) (mem.read8 addr)
  | .lh =>
      accessed (fun half : BitVec 16 => signExtend (half.setWidth 32 &&& 0xFFFF) 16)
        (mem.read16 addr)
  | .lhu =>
      accessed (fun half : BitVec 16 => half.setWidth 32 &&& 0xFFFF) (mem.read16 addr)
  | .lw => accessed id (mem.read32 addr)

private theorem executeLoad_access {cpu : CPU} {mem : Memory} {instr : Instruction}
    {op : LoadOp} (code : instr.funct3 = op.funct3) :
    cpu.executeLoad mem instr =
      loadAccess mem (cpu.regRead instr.rs1 + instr.imm) op := by
  unfold executeLoad
  dsimp only
  generalize cpu.regRead instr.rs1 + instr.imm = addr
  rw [code]
  cases op with
  | lb | lbu =>
      rw [loadAccess]
      generalize mem.read8 addr = access
      cases access <;> rfl
  | lh | lhu =>
      rw [loadAccess]
      generalize mem.read16 addr = access
      cases access <;> rfl
  | lw =>
      rw [loadAccess]
      generalize mem.read32 addr = access
      cases access <;> rfl

theorem executeLoad_value {cpu : CPU} {mem : Memory} {instr : Instruction}
    {op : LoadOp} {value : Word} (code : instr.funct3 = op.funct3)
    (loaded : cpu.executeLoad mem instr = .ok value) :
    value = op.value mem.data (cpu.regRead instr.rs1 + instr.imm) := by
  rw [executeLoad_access code] at loaded
  cases op with
  | lb =>
      obtain ⟨byte, read, rfl⟩ := of_accessed loaded
      rw [Memory.read8_value read, low_byte_mask,
        signExtend_setWidth _ (by decide) (by decide)]
      rfl
  | lbu =>
      obtain ⟨byte, read, rfl⟩ := of_accessed loaded
      rw [Memory.read8_value read, low_byte_mask]
      rfl
  | lh =>
      obtain ⟨half, read, rfl⟩ := of_accessed loaded
      rw [Memory.read16_value read, halfword_of_bytes,
        signExtend_setWidth _ (by decide) (by decide)]
      rfl
  | lhu =>
      obtain ⟨half, read, rfl⟩ := of_accessed loaded
      rw [Memory.read16_value read, halfword_of_bytes]
      rfl
  | lw =>
      obtain ⟨word, read, rfl⟩ := of_accessed loaded
      exact Memory.read32_value read

theorem executeLoad_eq (cpu : CPU) (mem : Memory) (instr : Instruction)
    (op : LoadOp) (code : instr.funct3 = op.funct3)
    (holds : 4 ≤ mem.size.toNat) :
    cpu.executeLoad mem instr =
      if Accessible mem.size.toNat op.width
          (cpu.regRead instr.rs1 + instr.imm) then
        .ok (op.value mem.data (cpu.regRead instr.rs1 + instr.imm))
      else .error .executionError := by
  have holdsHalf : 2 ≤ mem.size.toNat := Nat.le_trans (by decide) holds
  by_cases accessible : Accessible mem.size.toNat op.width
      (cpu.regRead instr.rs1 + instr.imm)
  · have succeeds : ∃ value, cpu.executeLoad mem instr = .ok value := by
      rw [executeLoad_access code]
      cases op with
      | lb | lbu =>
          rw [loadAccess, Memory.read8_of_accessible accessible]
          exact ⟨_, rfl⟩
      | lh | lhu =>
          rw [loadAccess, Memory.read16_of_accessible holdsHalf accessible]
          exact ⟨_, rfl⟩
      | lw =>
          rw [loadAccess, Memory.read32_of_accessible holds accessible]
          exact ⟨_, rfl⟩
    obtain ⟨value, loaded⟩ := succeeds
    rw [if_pos accessible, loaded, executeLoad_value code loaded]
  · rw [if_neg accessible, executeLoad_access code]
    cases op with
    | lb | lbu =>
        rw [loadAccess, Memory.read8_of_not_accessible accessible]
        rfl
    | lh | lhu =>
        rw [loadAccess, Memory.read16_of_not_accessible holdsHalf accessible]
        rfl
    | lw =>
        rw [loadAccess, Memory.read32_of_not_accessible holds accessible]
        rfl

theorem byte_field (value : Word) (start : Nat) :
    (((value >>> start) &&& 0xFF).setWidth 8 : Byte) =
      value.extractLsb' start 8 := by
  apply BitVec.eq_of_getLsbD_eq
  intro i inRange
  interval_cases i <;> simp

theorem low_byte_field (value : Word) :
    ((value &&& 0xFF).setWidth 8 : Byte) = value.extractLsb' 0 8 :=
  byte_field value 0

private theorem halfword_bytes (value : Word) :
    ((((value &&& 0xFFFF).setWidth 16 : BitVec 16) &&& 0xFF).setWidth 8 : Byte) =
        value.extractLsb' 0 8 ∧
      (((((value &&& 0xFFFF).setWidth 16 : BitVec 16) >>> 8) &&& 0xFF).setWidth 8 :
          Byte) = value.extractLsb' 8 8 := by
  constructor <;>
  · apply BitVec.eq_of_getLsbD_eq
    intro i inRange
    interval_cases i <;> simp

/-- The access a store makes. -/
private def storeAccess (mem : Memory) (addr value : Word) :
    StoreOp → Outcome MemoryStatus Memory
  | .sb => mem.write8 addr ((value &&& 0xFF).setWidth 8)
  | .sh => mem.write16 addr ((value &&& 0xFFFF).setWidth 16)
  | .sw => mem.write32 addr value

/-- What a store makes of its access. -/
private def finishStore : Outcome MemoryStatus Memory → Outcome CpuStatus Memory
  | .done mem => .done mem
  | .stopped _ mem => .stopped .executionError mem

private theorem executeStore_access {cpu : CPU} {mem : Memory} {instr : Instruction}
    {op : StoreOp} (code : instr.funct3 = op.funct3) :
    cpu.executeStore mem instr = finishStore
      (storeAccess mem (cpu.regRead instr.rs1 + instr.imm) (cpu.regRead instr.rs2) op) := by
  unfold executeStore
  dsimp only
  rw [code]
  cases op <;> rfl

private theorem of_finishStore {access : Outcome MemoryStatus Memory} {mem : Memory}
    (stored : finishStore access = .done mem) : access = .done mem := by
  cases access with
  | done written =>
      cases stored
      rfl
  | stopped status written => cases stored

theorem executeStore_value {cpu : CPU} {mem mem' : Memory} {instr : Instruction}
    {op : StoreOp} (code : instr.funct3 = op.funct3)
    (stored : cpu.executeStore mem instr = .done mem') :
    mem' = { mem with
      data := op.write mem.data (cpu.regRead instr.rs1 + instr.imm)
        (cpu.regRead instr.rs2) } := by
  rw [executeStore_access code] at stored
  have access := of_finishStore stored
  generalize cpu.regRead instr.rs2 = value at access ⊢
  cases op with
  | sb =>
      rw [Memory.write8_value access, low_byte_field]
      rfl
  | sh =>
      rw [Memory.write16_value access, (halfword_bytes value).1,
        (halfword_bytes value).2]
      rfl
  | sw =>
      rw [Memory.write32_value access, low_byte_field, byte_field, byte_field,
        byte_field]
      rfl

theorem executeStore_refused {cpu : CPU} {mem mem' : Memory} {instr : Instruction}
    {status : CpuStatus} (failed : cpu.executeStore mem instr = .stopped status mem') :
    mem' = mem := by
  have access {outcome : Outcome MemoryStatus Memory}
      (stopped : finishStore outcome = .stopped status mem') :
      ∃ reason, outcome = .stopped reason mem' := by
    cases outcome with
    | done written => cases stopped
    | stopped reason written =>
        cases stopped
        exact ⟨reason, rfl⟩
  unfold executeStore at failed
  dsimp only at failed
  split at failed
  · obtain ⟨reason, refused⟩ := access failed
    exact Memory.write8_refused refused
  · obtain ⟨reason, refused⟩ := access failed
    exact Memory.write16_refused refused
  · obtain ⟨reason, refused⟩ := access failed
    exact Memory.write32_refused refused
  · cases failed
    rfl

theorem executeStore_eq (cpu : CPU) (mem : Memory) (instr : Instruction)
    (op : StoreOp) (code : instr.funct3 = op.funct3)
    (holds : 4 ≤ mem.size.toNat) :
    cpu.executeStore mem instr =
      if Accessible mem.size.toNat op.width
          (cpu.regRead instr.rs1 + instr.imm) then
        .done { mem with
          data := op.write mem.data (cpu.regRead instr.rs1 + instr.imm)
            (cpu.regRead instr.rs2) }
      else .stopped .executionError mem := by
  have holdsHalf : 2 ≤ mem.size.toNat := Nat.le_trans (by decide) holds
  by_cases accessible : Accessible mem.size.toNat op.width
      (cpu.regRead instr.rs1 + instr.imm)
  · have succeeds : ∃ written, cpu.executeStore mem instr = .done written := by
      rw [executeStore_access code]
      cases op with
      | sb =>
          rw [storeAccess, Memory.write8_of_accessible accessible]
          exact ⟨_, rfl⟩
      | sh =>
          rw [storeAccess, Memory.write16_of_accessible holdsHalf accessible]
          exact ⟨_, rfl⟩
      | sw =>
          rw [storeAccess, Memory.write32_of_accessible holds accessible]
          exact ⟨_, rfl⟩
    obtain ⟨written, stored⟩ := succeeds
    rw [if_pos accessible, stored, executeStore_value code stored]
  · rw [if_neg accessible, executeStore_access code]
    cases op with
    | sb =>
        rw [storeAccess, Memory.write8_of_not_accessible accessible]
        rfl
    | sh =>
        rw [storeAccess, Memory.write16_of_not_accessible holdsHalf accessible]
        rfl
    | sw =>
        rw [storeAccess, Memory.write32_of_not_accessible holds accessible]
        rfl

end MemoryAccess

theorem executeBranch_eq (cpu : CPU) (instr : Instruction) (op : BranchOp)
    (code : instr.funct3 = op.funct3) :
    cpu.executeBranch instr =
      .ok (if op.taken (cpu.regRead instr.rs1) (cpu.regRead instr.rs2) then
        { cpu with pc := cpu.pc + (instr.imm - 4) } else cpu) := by
  unfold executeBranch
  generalize cpu.regRead instr.rs1 = a
  generalize cpu.regRead instr.rs2 = b
  rw [code]
  cases op with
  | beq =>
      show Except.ok (if a == b then _ else _) = _
      simp only [BranchOp.taken, beq_iff_eq, decide_eq_true_eq]
  | bne =>
      show Except.ok (if a != b then _ else _) = _
      simp only [BranchOp.taken, bne_iff_ne, decide_eq_true_eq]
  | blt =>
      show Except.ok (if a.slt b then _ else _) = _
      simp only [BranchOp.taken, BitVec.slt_iff_toInt_lt, decide_eq_true_eq]
  | bge =>
      show Except.ok (if b.sle a then _ else _) = _
      simp only [BranchOp.taken, BitVec.sle_iff_toInt_le, decide_eq_true_eq]
  | bltu =>
      show Except.ok (if a.ult b then _ else _) = _
      simp only [BranchOp.taken, BitVec.ult_iff_lt, BitVec.lt_def,
        decide_eq_true_eq]
  | bgeu =>
      show Except.ok (if b.ule a then _ else _) = _
      simp only [BranchOp.taken, BitVec.ule_iff_le, BitVec.le_def,
        decide_eq_true_eq]

end CPU

end RiscvPack.Emulator
