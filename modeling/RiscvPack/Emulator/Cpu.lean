import RiscvPack.Emulator.Memory
import RiscvPack.Emulator.Instructions

/-!
# The processor

`CPU` of `cpu.cpp`: the register file, the fetch-decode-execute step and the
system calls.  The calls the emulator makes to its own operating system are
the parameter `Host`.  A C++ operation without a defined result (a signed
division that overflows) ends the run of the emulator itself; a step then has
no result at all.
-/

namespace RiscvPack.Emulator

open Runs

inductive CpuStatus where
  | ok
  | fetchError
  | fetchMisaligned
  | fetchOutOfBounds
  | decodeError
  | executionError
  | illegalInstruction
  | syscallExit
  deriving DecidableEq, Repr

def sysExit : Word := 93
def sysRead : Word := 63
def sysWrite : Word := 64
def sysOpenat : Word := 56
def sysClose : Word := 57
def sysBrk : Word := 214
def sysFstat : Word := 80

def memorySize : Word := 16 * 1024 * 1024
def stackBase : Word := 0x80000000
def stackSize : Word := 1 * 1024 * 1024
def stackTop : Word := stackBase + stackSize

/-- The operating-system calls the emulator makes, over the host's own state.
Results are the values the C functions return, truncated to 32 bits as the
source does.  `read` and `fstat` also return the bytes they produced;
`statSize` is `sizeof(struct stat)`. -/
structure Host (σ : Type) where
  write : (fd : Word) → (bytes : List Byte) → σ → Word × σ
  read : (fd : Word) → (count : Nat) → σ → Word × List Byte × σ
  openFile : (path : List Byte) → (flags mode : Word) → σ → Word × σ
  close : (fd : Word) → σ → Word × σ
  fstat : (fd : Word) → σ → Word × List Byte × σ
  statSize : Nat

/-- A host on which every call fails with -1. -/
def Host.inert : Host Unit where
  write := fun _ _ s => (-1, s)
  read := fun _ _ s => (-1, [], s)
  openFile := fun _ _ _ s => (-1, s)
  close := fun _ s => (-1, s)
  fstat := fun _ s => (-1, [], s)
  statSize := 144

structure CPU where
  x : Reg → Word
  pc : Word
  running : Bool

/-- The processor together with its memory and the host's state. -/
structure Machine (σ : Type) where
  cpu : CPU
  mem : Memory
  host : σ

namespace CPU

/-- `CPU::CPU` -/
def init : CPU where
  x := fun r => if r = 2 then stackTop else 0
  pc := 0
  running := true

def regRead (cpu : CPU) (reg : Reg) : Word :=
  if reg = 0 then 0 else cpu.x reg

def regWrite (cpu : CPU) (reg : Reg) (value : Word) : CPU :=
  if reg ≠ 0 then { cpu with x := Function.update cpu.x reg value } else cpu

def fetch (cpu : CPU) (mem : Memory) : Except CpuStatus (CPU × Word) :=
  match mem.read32 cpu.pc with
  | .ok instruction => .ok ({ cpu with pc := cpu.pc + 4 }, instruction)
  | .error .misalignedError => .error .fetchMisaligned
  | .error .readError => .error .fetchOutOfBounds
  | .error .writeError => .error .fetchError

def executeLoad (cpu : CPU) (mem : Memory) (instr : Instruction) :
    Except CpuStatus Word :=
  let addr := cpu.regRead instr.rs1 + instr.imm
  -- A narrow read fills only the low bytes of `value`; the mask drops the rest.
  match instr.funct3 with
  | 0x0#3 =>
      match mem.read8 addr with
      | .ok value => .ok (signExtend (value.setWidth 32 &&& 0xFF) 8)
      | .error _ => .error .executionError
  | 0x1#3 =>
      match mem.read16 addr with
      | .ok value => .ok (signExtend (value.setWidth 32 &&& 0xFFFF) 16)
      | .error _ => .error .executionError
  | 0x2#3 =>
      match mem.read32 addr with
      | .ok value => .ok value
      | .error _ => .error .executionError
  | 0x4#3 =>
      match mem.read8 addr with
      | .ok value => .ok (value.setWidth 32 &&& 0xFF)
      | .error _ => .error .executionError
  | 0x5#3 =>
      match mem.read16 addr with
      | .ok value => .ok (value.setWidth 32 &&& 0xFFFF)
      | .error _ => .error .executionError
  | _ => .error .illegalInstruction

def executeStore (cpu : CPU) (mem : Memory) (instr : Instruction) :
    Outcome CpuStatus Memory :=
  let addr := cpu.regRead instr.rs1 + instr.imm
  let value := cpu.regRead instr.rs2
  let finish (status : Outcome MemoryStatus Memory) : Outcome CpuStatus Memory :=
    match status with
    | .done mem => .done mem
    | .stopped _ mem => .stopped .executionError mem
  match instr.funct3 with
  | 0x0#3 => finish (mem.write8 addr ((value &&& 0xFF).setWidth 8))
  | 0x1#3 => finish (mem.write16 addr ((value &&& 0xFFFF).setWidth 16))
  | 0x2#3 => finish (mem.write32 addr value)
  | _ => .stopped .illegalInstruction mem

/-- `(int32_t)a / (int32_t)b` has a defined value. -/
def SignedDivisionDefined (a b : Word) : Prop :=
  ¬ (a = BitVec.intMin 32 ∧ b = -1)

instance (a b : Word) : Decidable (SignedDivisionDefined a b) :=
  inferInstanceAs (Decidable (¬ _))

/-- `none` where the source evaluates an undefined quotient or remainder. -/
def executeMulDiv (rs1Val rs2Val : Word) (funct3 : BitVec 3) : Option Word :=
  match funct3 with
  | 0x0#3 => some (rs1Val * rs2Val)
  | 0x1#3 =>
      some (((rs1Val.signExtend 64 * rs2Val.signExtend 64).sshiftRight 32).setWidth 32)
  | 0x2#3 =>
      some (((rs1Val.signExtend 64 * rs2Val.setWidth 64) >>> 32).setWidth 32)
  | 0x3#3 =>
      some (((rs1Val.setWidth 64 * rs2Val.setWidth 64) >>> 32).setWidth 32)
  | 0x4#3 =>
      if rs2Val = 0 then some (-1)
      else if SignedDivisionDefined rs1Val rs2Val then some (rs1Val.sdiv rs2Val)
      else none
  | 0x5#3 => if rs2Val = 0 then some (-1) else some (rs1Val / rs2Val)
  | 0x6#3 =>
      if rs2Val = 0 then some rs1Val
      else if SignedDivisionDefined rs1Val rs2Val then some (rs1Val.srem rs2Val)
      else none
  | 0x7#3 => if rs2Val = 0 then some rs1Val else some (rs1Val % rs2Val)
  -- `default`, unreachable: the status code 6 as a register value
  | _ => some 6

def executeAlu (rs1Val rs2ValOrImm : Word) (funct3 : BitVec 3)
    (funct7 : BitVec 7) (isImm : Bool) : Word :=
  match funct3 with
  | 0x0#3 =>
      if ¬ isImm ∧ funct7 &&& 0x20 ≠ 0 then rs1Val - rs2ValOrImm
      else rs1Val + rs2ValOrImm
  | 0x1#3 => rs1Val <<< (rs2ValOrImm &&& 0x1F)
  | 0x2#3 => if rs1Val.slt rs2ValOrImm then 1 else 0
  | 0x3#3 => if rs1Val.ult rs2ValOrImm then 1 else 0
  | 0x4#3 => rs1Val ^^^ rs2ValOrImm
  | 0x5#3 =>
      if funct7 &&& 0x20 ≠ 0 then
        rs1Val.sshiftRight' (rs2ValOrImm &&& 0x1F)
      else rs1Val >>> (rs2ValOrImm &&& 0x1F)
  | 0x6#3 => rs1Val ||| rs2ValOrImm
  | 0x7#3 => rs1Val &&& rs2ValOrImm
  | _ => 6

def executeBranch (cpu : CPU) (instr : Instruction) : Except CpuStatus CPU :=
  let rs1Val := cpu.regRead instr.rs1
  let rs2Val := cpu.regRead instr.rs2
  let finish (takeBranch : Bool) : Except CpuStatus CPU :=
    .ok (if takeBranch then { cpu with pc := cpu.pc + (instr.imm - 4) } else cpu)
  match instr.funct3 with
  | 0x0#3 => finish (rs1Val == rs2Val)
  | 0x1#3 => finish (rs1Val != rs2Val)
  | 0x4#3 => finish (rs1Val.slt rs2Val)
  | 0x5#3 => finish (rs2Val.sle rs1Val)
  | 0x6#3 => finish (rs1Val.ult rs2Val)
  | 0x7#3 => finish (rs2Val.ule rs1Val)
  | _ => .error .illegalInstruction

end CPU

namespace Machine

variable {σ : Type}

/-- `x[10] = value` -/
def setA0 (m : Machine σ) (value : Word) : Machine σ :=
  { m with cpu := { m.cpu with x := Function.update m.cpu.x 10 value } }

/-- The copy loop of `openat`: `path[0 .. i)` when it stops, which is at the
end of the buffer, at the end of memory, or at a NUL byte. -/
def scanPath (mem : Memory) (pathAddr : Word) : (room i : Nat) → List Byte
  | 0, _ => []
  | room + 1, i =>
      let addr := pathAddr + BitVec.ofNat 32 i
      if mem.size ≤ addr then []
      else if mem.data addr = 0 then []
      else mem.data addr :: scanPath mem pathAddr room (i + 1)

/-- Size of the local path array. -/
def pathCapacity : Nat := 256

def handleSyscall (h : Host σ) (m : Machine σ) : CpuStatus × Machine σ :=
  let syscallNum := m.cpu.x 17
  let arg1 := m.cpu.x 10
  let arg2 := m.cpu.x 11
  let arg3 := m.cpu.x 12
  if syscallNum = sysExit then
    (.syscallExit, { m with cpu := { m.cpu with running := false } })
  else if syscallNum = sysWrite then
    -- `buf_addr + count` is a 64-bit sum, so it does not wrap
    if m.mem.size.toNat < arg2.toNat + arg3.toNat then (.ok, m.setA0 (-1))
    else
      let (result, host) := h.write arg1 (m.mem.slice arg2 arg3.toNat) m.host
      (.ok, { m with host }.setA0 result)
  else if syscallNum = sysRead then
    if m.mem.size.toNat < arg2.toNat + arg3.toNat then (.ok, m.setA0 (-1))
    else
      let (result, bytes, host) := h.read arg1 arg3.toNat m.host
      (.ok, { m with mem := m.mem.blit arg2 bytes, host }.setA0 result)
  else if syscallNum = sysOpenat then
    let path := scanPath m.mem arg2 (pathCapacity - 1) 0
    let (result, host) := h.openFile path arg3 arg3 m.host
    (.ok, { m with host }.setA0 result)
  else if syscallNum = sysClose then
    let (result, host) := h.close arg1 m.host
    (.ok, { m with host }.setA0 result)
  else if syscallNum = sysBrk then
    -- -ENOMEM
    (.ok, m.setA0 (-12))
  else if syscallNum = sysFstat then
    let (result, st, host) := h.fstat arg1 m.host
    let mem :=
      if result = 0 ∧ arg2.toNat + h.statSize ≤ m.mem.size.toNat then
        m.mem.blit arg2 (st.take (if h.statSize < 64 then h.statSize else 64))
      else m.mem
    (.ok, { m with mem, host }.setA0 result)
  else
    -- -ENOSYS
    (.ok, m.setA0 (-38))

def executeSystem (h : Host σ) (m : Machine σ) (instr : Instruction) :
    CpuStatus × Machine σ :=
  if instr.imm &&& 0xFFF = 0x000 then m.handleSyscall h
  else if instr.imm &&& 0xFFF = 0x001 then (.ok, m)
  else (.illegalInstruction, m)

/-- `CPU::execute`; `none` when the step has no defined result. -/
def execute (h : Host σ) (m : Machine σ) (instr : Instruction) :
    Option (CpuStatus × Machine σ) :=
  let rs1Val := m.cpu.regRead instr.rs1
  let rs2Val := m.cpu.regRead instr.rs2
  match instr.format with
  | .rType =>
      if instr.funct7 = 0x01 then
        (CPU.executeMulDiv rs1Val rs2Val instr.funct3).map fun result =>
          (.ok, { m with cpu := m.cpu.regWrite instr.rd result })
      else
        let result :=
          CPU.executeAlu rs1Val rs2Val instr.funct3 instr.funct7 false
        some (.ok, { m with cpu := m.cpu.regWrite instr.rd result })
  | .iType =>
      match instr.opcode with
      | 0x03#7 =>
          match m.cpu.executeLoad m.mem instr with
          | .error status => some (status, m)
          | .ok result =>
              some (.ok, { m with cpu := m.cpu.regWrite instr.rd result })
      | 0x13#7 =>
          let funct7 : BitVec 7 :=
            if instr.funct3 = 0x1 ∨ instr.funct3 = 0x5 then
              ((instr.imm.sshiftRight 5) &&& 0x7F).setWidth 7
            else 0
          let result :=
            CPU.executeAlu rs1Val instr.imm instr.funct3 funct7 true
          some (.ok, { m with cpu := m.cpu.regWrite instr.rd result })
      | 0x67#7 =>
          let linked := m.cpu.regWrite instr.rd m.cpu.pc
          some (.ok,
            { m with cpu := { linked with pc := (rs1Val + instr.imm) &&& ~~~1#32 } })
      | 0x73#7 => some (m.executeSystem h instr)
      | _ => some (.illegalInstruction, m)
  | .sType =>
      match m.cpu.executeStore m.mem instr with
      | .stopped status mem => some (status, { m with mem })
      | .done mem => some (.ok, { m with mem })
  | .bType =>
      match m.cpu.executeBranch instr with
      | .error status => some (status, m)
      | .ok cpu => some (.ok, { m with cpu })
  | .uType =>
      match instr.opcode with
      | 0x37#7 =>
          some (.ok, { m with cpu := m.cpu.regWrite instr.rd instr.imm })
      | 0x17#7 =>
          some (.ok,
            { m with cpu := m.cpu.regWrite instr.rd (m.cpu.pc + instr.imm - 4) })
      | _ => some (.illegalInstruction, m)
  | .jType =>
      let linked := m.cpu.regWrite instr.rd m.cpu.pc
      some (.ok,
        { m with cpu := { linked with pc := linked.pc + (instr.imm - 4) } })

/-- `CPU::step` -/
def step (h : Host σ) (m : Machine σ) : Option (CpuStatus × Machine σ) :=
  if ¬ m.cpu.running then some (.syscallExit, m)
  else
    match m.cpu.fetch m.mem with
    | .error status => some (status, m)
    | .ok (cpu, rawInstr) =>
        match Instruction.decode rawInstr with
        | none => some (.decodeError, { m with cpu })
        | some decoded => execute h { m with cpu } decoded

end Machine

end RiscvPack.Emulator
