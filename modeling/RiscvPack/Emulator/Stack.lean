import RiscvPack.Emulator.Run

/-!
# The stack

Programs that push and pop words, in an emulator set up as `main` does.  The
constants of `cpu.hpp` put the initial stack pointer at 0x80100000, but the
memory has 16 MiB, so no program of this kind gets past its first push.
-/

namespace RiscvPack.Emulator

open Isa (Accessible Instr)

/-- `Emulator(MEMORY_SIZE)`, `load_program` and `set_pc`; `none` when the
program is too large for the memory. -/
def boot {σ : Type} (host : σ) (program : List Byte) (loadAddress : Word) :
    Option (Machine σ) :=
  let mem := Memory.init memorySize
  if mem.size.toNat < loadAddress.toNat + program.length then none
  else
    some
      { cpu := { CPU.init with pc := loadAddress }
        mem := mem.blit loadAddress program
        host }

/-- The stack pointer, x2. -/
def sp : Reg := 2

inductive StackOp where
  | push (r : Reg)
  | pop (r : Reg)
  deriving DecidableEq, Repr

namespace StackOp

/-- `addi sp, sp, -4; sw r, 0(sp)` and `lw r, 0(sp); addi sp, sp, 4`. -/
def code : StackOp → List Instr
  | push r => [.imm .addi sp sp (-4), .store .sw r sp 0]
  | pop r => [.load .lw r sp 0, .imm .addi sp sp 4]

/-- From `depth` words on, no operation pops an empty stack or takes the stack
beyond `room` bytes. -/
def Fits (room : Nat) : Nat → List StackOp → Prop
  | _, [] => True
  | depth, push _ :: ops => 4 * (depth + 1) ≤ room ∧ Fits room (depth + 1) ops
  | depth, pop _ :: ops => 0 < depth ∧ Fits room (depth - 1) ops

/-- What `STACK_SIZE` allows. -/
def Valid : Nat → List StackOp → Prop := Fits stackSize.toNat

/-- The words that decode to the operations. -/
def Assembles (words : List Word) (ops : List StackOp) : Prop :=
  words.map Isa.decode = (ops.flatMap code).map some

instance (words : List Word) (ops : List StackOp) : Decidable (Assembles words ops) :=
  inferInstanceAs (Decidable (_ = _))

end StackOp

namespace Machine

variable {σ : Type}

/-- Every step returns `CPU_OK`, and every pop loads the word that the
matching push stored; `stack` holds the words pushed so far. -/
def Disciplined (h : Host σ) : Machine σ → List Word → List StackOp → Prop
  | _, _, [] => True
  | m, stack, .push r :: ops =>
      ∃ m₁ m₂, step h m = some (.ok, m₁) ∧ step h m₁ = some (.ok, m₂) ∧
        Disciplined h m₂ (m₁.cpu.regRead r :: stack) ops
  | m, value :: stack, .pop r :: ops =>
      ∃ m₁ m₂, step h m = some (.ok, m₁) ∧ (r ≠ 0 → m₁.cpu.regRead r = value) ∧
        step h m₁ = some (.ok, m₂) ∧ Disciplined h m₂ stack ops
  | _, [], .pop _ :: _ => False

theorem step_misaligned (h : Host σ) {m : Machine σ}
    (misaligned : m.cpu.pc.toNat % 4 ≠ 0) (holds : 4 ≤ m.mem.size.toNat) (m' : Machine σ) :
    step h m ≠ some (.ok, m') := by
  have refused : ¬ Accessible m.mem.size.toNat 4 m.cpu.pc :=
    fun accessible => misaligned accessible.1
  have fetched : m.cpu.fetch m.mem = .error .fetchMisaligned := by
    rw [CPU.fetch, Memory.read32_of_not_accessible holds refused, if_pos misaligned]
  unfold step
  split
  · intro same
    cases same
  · rw [fetched]
    intro same
    cases same

theorem loaded_of_boot {host : σ} {program : List Byte} {loadAddress : Word}
    {m : Machine σ} (booted : boot host program loadAddress = some m) :
    Loaded m.mem.data m.cpu.pc program ∧ m.cpu = { CPU.init with pc := loadAddress } ∧
      m.mem.size = memorySize ∧
      loadAddress.toNat + program.length ≤ memorySize.toNat := by
  simp only [boot] at booted
  split at booted
  · cases booted
  · rename_i fits
    have room : loadAddress.toNat + program.length ≤ memorySize.toNat := Nat.le_of_not_lt fits
    cases booted
    have small := memorySize.isLt
    exact ⟨loaded_blit _ (by omega), rfl, rfl, room⟩

theorem running_of_boot {host : σ} {program : List Byte} {loadAddress : Word} {m : Machine σ}
    (booted : boot host program loadAddress = some m) : m.cpu.running = true := by
  rw [(loaded_of_boot booted).2.1]
  rfl

theorem holds_of_boot {host : σ} {program : List Byte} {loadAddress : Word} {m : Machine σ}
    (booted : boot host program loadAddress = some m) : 4 ≤ m.mem.size.toNat := by
  rw [(loaded_of_boot booted).2.2.1]
  decide

/-- The store of the first push lies outside the memory. -/
theorem not_disciplined_push (h : Host σ) {host : σ} {program : List Byte}
    {loadAddress : Word} {m : Machine σ} (booted : boot host program loadAddress = some m)
    {words : List Word} {r : Reg} {ops : List StackOp} {data : List Byte}
    (assembled : StackOp.Assembles words (.push r :: ops))
    (image : program = words.flatMap Bits.leBytes ++ data) :
    ¬ Disciplined h m [] (.push r :: ops) := by
  obtain ⟨loaded, cpu, size, room⟩ := loaded_of_boot booted
  obtain ⟨first, second, rest, rfl, decodesFirst, decodesSecond⟩ :
      ∃ first second rest, words = first :: second :: rest ∧
        Isa.decode first = some (.imm .addi sp sp (-4)) ∧
        Isa.decode second = some (.store .sw r sp 0) := by
    unfold StackOp.Assembles at assembled
    rw [List.flatMap_cons, StackOp.code] at assembled
    match words with
    | [] => cases assembled
    | [first] => cases (List.cons.inj assembled).2
    | first :: second :: rest =>
        have tail := (List.cons.inj assembled).2
        exact ⟨first, second, rest, rfl, (List.cons.inj assembled).1,
          (List.cons.inj tail).1⟩
  rintro ⟨m₁, m₂, stepped, stored, _⟩
  have pc : m.cpu.pc = loadAddress := by rw [cpu]
  have holds : 4 ≤ m.mem.size.toNat := by
    rw [size]
    decide
  by_cases aligned : m.cpu.pc.toNat % 4 = 0
  · rw [image, List.flatMap_cons, List.flatMap_cons, List.append_assoc,
      List.append_assoc] at loaded
    have inside : m.cpu.pc.toNat + 8 ≤ m.mem.size.toNat := by
      rw [image] at room
      simp only [List.flatMap_cons, List.length_append, Bits.length_leBytes] at room
      rw [size, pc]
      omega
    have ready : m.Ready 1 := ⟨by rw [cpu]; rfl, aligned, by omega⟩
    have fetched : m.fetched = first := fetched_of_loaded loaded.left
    have defined : ¬ Isa.DivOverflow m.arch (.imm .addi sp sp (-4)) :=
      fun overflow => overflow
    obtain ⟨m', stepped', reaches⟩ := step_ok h ready.fetchable
      (by rw [fetched]; exact decodesFirst) defined rfl
    rw [stepped] at stepped'
    cases stepped'
    have pc₁ : m₁.cpu.pc = m.cpu.pc + 4 := congrArg Isa.State.pc reaches.arch
    have data₁ : m₁.mem.data = m.mem.data := congrArg Isa.State.mem reaches.arch
    have bound := memorySize.isLt
    have next : m₁.cpu.pc.toNat = m.cpu.pc.toNat + 4 := by
      rw [size] at inside
      rw [pc₁, BitVec.toNat_add]
      exact Nat.mod_eq_of_lt (by simp; omega)
    have ready₁ : m₁.Ready 1 :=
      ⟨reaches.running.trans ready.running, by omega, by rw [reaches.size]; omega⟩
    have fetched₁ : m₁.fetched = second := by
      apply fetched_of_loaded
      rw [data₁, pc₁]
      exact loaded.right.left
    -- STACK_TOP - 4 is 0x800FFFFC.
    have address : m₁.arch.x.get sp + 0 = 0x800FFFFC := by
      rw [reaches.arch]
      show (m.cpu.regFile.set sp (m.cpu.regRead sp + -4)).get sp + 0 = 0x800FFFFC
      rw [Isa.RegFile.get_set_self _ (by decide), cpu]
      show stackTop + -4 + 0 = 0x800FFFFC
      decide
    have refused : Isa.exec m₁.arch (.store .sw r sp 0) = none := by
      simp only [Isa.exec, address]
      apply if_neg
      rintro ⟨_, beyond⟩
      have size₁ : m₁.arch.size = memorySize.toNat := by
        show m₁.mem.size.toNat = _
        rw [reaches.size, size]
      rw [size₁] at beyond
      revert beyond
      decide
    have failed := step_executionError h ready₁.fetchable
      (by rw [fetched₁]; exact decodesSecond) (by simp) refused
    rw [stored] at failed
    cases failed
  · exact step_misaligned h aligned holds m₁ stepped

/-- A program that pushes and pops words runs with every step successful and
every pop matched only if it does neither. -/
theorem disciplined_iff (h : Host σ) {host : σ} {program : List Byte}
    {loadAddress : Word} {m : Machine σ} (booted : boot host program loadAddress = some m)
    {words : List Word} {ops : List StackOp} {data : List Byte}
    (valid : StackOp.Valid 0 ops) (assembled : StackOp.Assembles words ops)
    (image : program = words.flatMap Bits.leBytes ++ data) :
    Disciplined h m [] ops ↔ ops = [] := by
  constructor
  · intro disciplined
    cases ops with
    | nil => rfl
    | cons op ops =>
        cases op with
        | push r =>
            exact absurd disciplined (not_disciplined_push h booted assembled image)
        | pop r => exact absurd valid.1 (by decide)
  · rintro rfl
    trivial

/-- `addi sp, sp, -4; sw a0, 0(sp); lw a1, 0(sp); addi sp, sp, 4` -/
def pushPop : List Word := [0xFFC10113, 0x00A12023, 0x00012583, 0x00410113]

theorem boot_pushPop :
    ∃ m, boot () (pushPop.flatMap Bits.leBytes) 0 = some m := by
  simp only [boot]
  rw [if_neg (by decide)]
  exact ⟨_, rfl⟩

/-- One push and one pop, loaded at address zero. -/
theorem disciplined_iff_pushPop :
    ∃ m, boot () (pushPop.flatMap Bits.leBytes) 0 = some m ∧
      (Disciplined Host.inert m [] [.push 10, .pop 11] ↔
        [StackOp.push 10, .pop 11] = []) := by
  have valid : StackOp.Valid 0 [.push 10, .pop 11] := ⟨by decide, by decide, trivial⟩
  have assembled : StackOp.Assembles pushPop [.push 10, .pop 11] := by decide
  obtain ⟨m, booted⟩ := boot_pushPop
  exact ⟨m, booted, disciplined_iff Host.inert booted valid assembled
    (List.append_nil _).symm⟩

/-- The push fails: its store goes to 0x800FFFFC. -/
theorem not_disciplined_pushPop :
    StackOp.Valid 0 [.push 10, .pop 11] ∧
      StackOp.Assembles pushPop [.push 10, .pop 11] ∧
      ∃ m, boot () (pushPop.flatMap Bits.leBytes) 0 = some m ∧
        ¬ Disciplined Host.inert m [] [.push 10, .pop 11] := by
  have assembled : StackOp.Assembles pushPop [.push 10, .pop 11] := by decide
  obtain ⟨m, booted⟩ := boot_pushPop
  exact ⟨⟨by decide, by decide, trivial⟩, assembled, m, booted,
    not_disciplined_push Host.inert booted assembled (List.append_nil _).symm⟩

end Machine

end RiscvPack.Emulator
