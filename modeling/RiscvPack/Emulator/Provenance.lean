import Mathlib.Data.List.GetD
import RiscvPack.Emulator.Frames
import RiscvPack.Emulator.SyscallResults

/-!
# Where the bytes of a run come from

An emulator that `main` has set up holds the program and zeros.  Whatever it
holds later has been put there by a store or a system call, and since a zero
word does not decode, every instruction it executes has a byte that was loaded
or written.  In the same way a write call hands on what a read call has got.
-/

namespace RiscvPack.Emulator

open Isa (Accessible)

/-- What stands at an address of a memory that holds a program and zeros. -/
def imageByte (program : List Byte) (loadAddress a : Word) : Byte :=
  if loadAddress.toNat ≤ a.toNat then program.getD (a.toNat - loadAddress.toNat) 0 else 0

namespace Machine

variable {σ : Type} {h : Host σ} {host : σ} {program : List Byte} {loadAddress : Word}
  {m m' last : Machine σ} {n : Nat}

/-- Some step of the run up to its `n`th may have written the byte. -/
def Written (h : Host σ) (m : Machine σ) (n : Nat) (a : Word) : Prop :=
  ∃ k before after, k < n ∧ Steps h k m before ∧ step h before = some (.ok, after) ∧
    before.Writes a

theorem Steps.unwritten (bounded : h.Bounded) (holds : 4 ≤ m.mem.size.toNat)
    (steps : Steps h n m last) {a : Word} (untouched : ¬ Written h m n a) :
    last.mem.data a = m.mem.data a := by
  by_contra changed
  obtain ⟨_, k, before, after, within, first, change, _, writes, _⟩ :=
    steps.last_writer bounded holds changed
  exact untouched ⟨k, before, after, within, first, change, writes⟩

theorem data_of_boot (booted : boot host program loadAddress = some m) (a : Word) :
    m.mem.data a = imageByte program loadAddress a := by
  simp only [boot] at booted
  split at booted
  · cases booted
  · cases booted
    unfold imageByte Memory.blit
    dsimp only
    by_cases behind : loadAddress.toNat ≤ a.toNat
    · rw [if_pos behind]
      by_cases inside : a.toNat < loadAddress.toNat + program.length
      · rw [if_pos ⟨behind, inside⟩]
      · rw [if_neg (fun both => inside both.2), List.getD_eq_default _ _ (by omega)]
        rfl
    · rw [if_neg behind, if_neg (fun both => behind both.1)]
      rfl

theorem imageByte_of_outside {a : Word}
    (outside : ¬ (loadAddress.toNat ≤ a.toNat ∧
      a.toNat < loadAddress.toNat + program.length)) :
    imageByte program loadAddress a = 0 := by
  unfold imageByte
  split
  · exact List.getD_eq_default _ _ (by omega)
  · rfl

/-- A zero word stops the processor, whether or not it can be fetched. -/
theorem failed_of_zero {status : CpuStatus} (running : m.cpu.running = true)
    (zero : m.fetched = 0) (stepped : step h m = some (status, m')) : status.Failed := by
  rw [step, if_neg (not_not.mpr running)] at stepped
  split at stepped
  · rename_i refused
    cases stepped
    obtain ⟨ofFetch, _⟩ := CPU.fetch_error refused
    rcases ofFetch with rfl | rfl | rfl <;> exact ⟨by decide, by decide⟩
  · rename_i fetched
    have unknown : Instruction.decode 0 = none := by decide
    rw [fetch_word fetched, zero, unknown] at stepped
    cases stepped
    exact ⟨by decide, by decide⟩

/-- After any run of a loaded program a byte is the one that was loaded, or
zero where nothing was, unless it lies in the memory and holds what the last
step that wrote it has put there. -/
theorem byte_provenance (bounded : h.Bounded)
    (booted : boot host program loadAddress = some m) (steps : Steps h n m m') (a : Word) :
    m'.mem.data a = imageByte program loadAddress a ∨
      a.toNat < memorySize.toNat ∧ ∃ k before after, k < n ∧ Steps h k m before ∧
        step h before = some (.ok, after) ∧ Steps h (n - (k + 1)) after m' ∧
        before.Writes a ∧ after.mem.data a = m'.mem.data a := by
  by_cases changed : m'.mem.data a = m.mem.data a
  · left
    rw [changed, data_of_boot booted]
  · right
    have size : m.mem.size = memorySize := (loaded_of_boot booted).2.2.1
    rw [← size]
    exact steps.last_writer bounded (holds_of_boot booted) changed

/-- Every instruction a loaded program executes has a byte of the program in
it, or one that an earlier step wrote. -/
theorem executed_word_provenance (bounded : h.Bounded)
    (booted : boot host program loadAddress = some m) (steps : Steps h n m last)
    {status : CpuStatus} (stepped : step h last = some (status, m'))
    (executed : status = .ok ∨ status = .syscallExit) :
    ∃ i < 4,
      (loadAddress.toNat ≤ (last.cpu.pc + BitVec.ofNat 32 i).toNat ∧
        (last.cpu.pc + BitVec.ofNat 32 i).toNat < loadAddress.toNat + program.length) ∨
      Written h m n (last.cpu.pc + BitVec.ofNat 32 i) := by
  by_contra nowhere
  have holds := holds_of_boot booted
  -- A byte that was neither loaded nor written is still zero.
  have zero (i : Nat) (below : i < 4) :
      last.mem.data (last.cpu.pc + BitVec.ofNat 32 i) = 0 := by
    have missing : ¬ _ := fun here => nowhere ⟨i, below, here⟩
    rw [not_or] at missing
    obtain ⟨outside, unwritten⟩ := missing
    rw [← imageByte_of_outside outside, ← data_of_boot booted]
    exact steps.unwritten bounded holds unwritten
  have fetched : last.fetched = 0 := by
    have zeroth := zero 0 (by decide)
    rw [BitVec.add_zero] at zeroth
    have first : last.mem.data (last.cpu.pc + 1) = 0 := zero 1 (by decide)
    have second : last.mem.data (last.cpu.pc + 2) = 0 := zero 2 (by decide)
    have third : last.mem.data (last.cpu.pc + 3) = 0 := zero 3 (by decide)
    rw [Machine.fetched, zeroth, first, second, third]
    rfl
  have running : last.cpu.running = true :=
    (steps.keeps bounded holds).running.trans (running_of_boot booted)
  have failed := failed_of_zero running fetched stepped
  rcases executed with ok | exit
  · exact failed.1 ok
  · exact failed.2 exit

/-- `sw sp, 8(zero)` -/
def storeProgram : List Byte := Bits.leBytes 0x00202423

theorem steps_storeProgram :
    ∃ m m', boot () storeProgram 0 = some m ∧ Steps Host.inert 1 m m' ∧
      m'.mem.data 11 = 0x80 := by
  have stored : ((boot () storeProgram 0).bind (step Host.inert)).map
      (fun r => (r.1, r.2.mem.data 11)) = some (.ok, 0x80) := by decide
  obtain ⟨⟨status, m'⟩, found, values⟩ := Option.map_eq_some_iff.mp stored
  obtain ⟨m, booted, stepped⟩ := Option.bind_eq_some_iff.mp found
  obtain ⟨rfl, value⟩ := Prod.mk.inj values
  exact ⟨m, m', booted, .next stepped (.refl m'), value⟩

/-- The highest byte of the stack pointer, in a word behind the program. -/
theorem byte_provenance_store :
    ∃ m m', boot () storeProgram 0 = some m ∧ Steps Host.inert 1 m m' ∧
      m'.mem.data 11 = 0x80 ∧ (m'.mem.data 11 = imageByte storeProgram 0 11 ∨
        (11 : Word).toNat < memorySize.toNat ∧ ∃ k before after, k < 1 ∧
          Steps Host.inert k m before ∧ step Host.inert before = some (.ok, after) ∧
          Steps Host.inert (1 - (k + 1)) after m' ∧ before.Writes 11 ∧
          after.mem.data 11 = m'.mem.data 11) := by
  obtain ⟨m, m', booted, steps, value⟩ := steps_storeProgram
  exact ⟨m, m', booted, steps, value, byte_provenance bounded_inert booted steps 11⟩

/-- `addi t0, zero, 19; sw t0, 8(zero)` -/
def writingProgram : List Byte := [0x01300293, 0x00502423].flatMap Bits.leBytes

/-- The third instruction is the one that the program has written behind
itself. -/
theorem executed_word_provenance_written :
    ∃ m last m', boot () writingProgram 0 = some m ∧ Steps Host.inert 2 m last ∧
      step Host.inert last = some (.ok, m') ∧
      ∃ i < 4, Written Host.inert m 2 (8 + BitVec.ofNat 32 i) := by
  have ran : (((boot () writingProgram 0).bind (step Host.inert)).bind fun first =>
      (step Host.inert first.2).bind fun second => (step Host.inert second.2).map
        fun third => (first.1, second.1, second.2.cpu.pc, third.1)) =
      some (.ok, .ok, 8, .ok) := by
    decide +kernel
  obtain ⟨⟨status₁, m₁⟩, started, ran⟩ := Option.bind_eq_some_iff.mp ran
  obtain ⟨⟨status₂, last⟩, second, ran⟩ := Option.bind_eq_some_iff.mp ran
  obtain ⟨⟨status₃, m'⟩, third, values⟩ := Option.map_eq_some_iff.mp ran
  obtain ⟨ok₁, ok₂, pc, ok₃⟩ :
      status₁ = .ok ∧ status₂ = .ok ∧ last.cpu.pc = 8 ∧ status₃ = .ok := by
    simpa only [Prod.mk.injEq] using values
  subst ok₁ ok₂ ok₃
  obtain ⟨m, booted, first⟩ := Option.bind_eq_some_iff.mp started
  have steps : Steps Host.inert 2 m last := .next first (.next second (.refl last))
  obtain ⟨i, below, here⟩ :=
    executed_word_provenance bounded_inert booted steps third (.inl rfl)
  rw [pc] at here
  refine ⟨m, last, m', booted, steps, third, i, below, here.resolve_left ?_⟩
  rintro ⟨_, inside⟩
  have behind : ∀ k < 4, ¬ (8 + BitVec.ofNat 32 k : Word).toNat < 8 := by decide
  exact behind i below inside

theorem misaligned_of_step (stepped : step h m = some (.fetchMisaligned, m')) :
    m.cpu.pc.toNat % 4 ≠ 0 := by
  unfold step at stepped
  split at stepped
  · cases stepped
  · split at stepped
    · rename_i refused
      cases stepped
      unfold CPU.fetch at refused
      split at refused
      · cases refused
      · rename_i misaligned
        unfold Memory.read32 at misaligned
        split at misaligned
        · rename_i offset
          exact (Memory.misaligned_iff (n := 4) (by decide)).mp offset
        · split at misaligned <;> cases misaligned
      · cases refused
      · cases refused
    · split at stepped
      · cases stepped
      · cases executed_of_execute stepped with
        | failed ofExecution => rcases ofExecution with other | other <;> cases other

/-- In every state that a loaded program reaches the processor runs, the memory
has its size and register zero is stored as zero.  Behind the first step the
program counter is even, so that a fetch refused for its alignment is two bytes
off. -/
theorem invariant_of_boot (bounded : h.Bounded)
    (booted : boot host program loadAddress = some m) (steps : Steps h n m m') :
    m'.cpu.running = true ∧ m'.mem.size = memorySize ∧ m'.cpu.x 0 = 0 ∧
      (0 < n → m'.cpu.pc.toNat % 2 = 0 ∧
        ∀ m'', step h m' = some (.fetchMisaligned, m'') → m'.cpu.pc.toNat % 4 = 2) := by
  obtain ⟨_, cpu, size, _⟩ := loaded_of_boot booted
  have holds := holds_of_boot booted
  have keeps := steps.keeps bounded holds
  have zero : m.cpu.x 0 = 0 := by
    rw [cpu]
    rfl
  refine ⟨keeps.running.trans (running_of_boot booted), keeps.size.trans size,
    keeps.zero.trans zero, fun some => ?_⟩
  have even : m.cpu.pc.toNat % 2 = 0 := by
    cases steps with
    | refl => cases some
    | next stepped _ =>
        by_contra odd
        exact step_misaligned h (by omega) holds _ stepped
  have even' := keeps.even even
  refine ⟨even', fun m'' refused => ?_⟩
  have misaligned := misaligned_of_step refused
  omega

theorem invariant_of_boot_store :
    ∃ m m', boot () storeProgram 0 = some m ∧ Steps Host.inert 1 m m' ∧
      m'.cpu.running = true ∧ m'.mem.size = memorySize ∧ m'.cpu.x 0 = 0 ∧
      (0 < 1 → m'.cpu.pc.toNat % 2 = 0 ∧
        ∀ m'', step Host.inert m' = some (.fetchMisaligned, m'') →
          m'.cpu.pc.toNat % 4 = 2) := by
  obtain ⟨m, m', booted, steps, _⟩ := steps_storeProgram
  exact ⟨m, m', booted, steps, invariant_of_boot bounded_inert booted steps⟩

section Echo

theorem slice_of_loaded {mem : Memory} {a : Word} {bytes : List Byte}
    (loaded : Loaded mem.data a bytes) {count : Nat} (within : count ≤ bytes.length) :
    mem.slice a count = bytes.take count := by
  unfold Memory.slice
  apply List.ext_getElem
  · rw [List.length_map, List.length_range, List.length_take, Nat.min_eq_left within]
  · intro k inside _
    rw [List.length_map, List.length_range] at inside
    rw [List.getElem_map, List.getElem_range, List.getElem_take]
    exact loaded k (by omega)

/-- The bytes that a read call gets from the host. -/
def received (h : Host σ) (m : Machine σ) : List Byte :=
  (h.read (m.cpu.x 10) (m.cpu.x 12).toNat m.host).2.1

/-- What a read call has put into its buffer is what a later write call hands to
the host, as long as no step in between may have written there. -/
theorem read_then_write (bounded : h.Bounded) (ready : m.Fetchable)
    (reads : Isa.decode m.fetched = some .ecall) (number : m.cpu.x 17 = sysRead)
    (room : (m.cpu.x 11).toNat + (m.cpu.x 12).toNat ≤ m.mem.size.toNat) :
    ∃ m₁, step h m = some (.ok, m₁) ∧
      ∀ n last, Steps h n m₁ last → last.Fetchable →
        Isa.decode last.fetched = some .ecall → last.cpu.x 17 = sysWrite →
        last.cpu.x 11 = m.cpu.x 11 → (last.cpu.x 12).toNat ≤ (received h m).length →
        (∀ k < (received h m).length, ¬ Written h m₁ n (m.cpu.x 11 + BitVec.ofNat 32 k)) →
        ∃ m₂, step h last = some (.ok, m₂) ∧
          let passed := h.write (last.cpu.x 10)
            ((received h m).take (last.cpu.x 12).toNat) last.host
          m₂.cpu.x 10 = passed.1 ∧ m₂.host = passed.2 := by
  have filled : (received h m).length ≤ (m.cpu.x 12).toNat := bounded _ _ _
  have small := m.mem.size.isLt
  have fits : (m.cpu.x 11).toNat + (received h m).length ≤ 2 ^ 32 := by omega
  obtain ⟨m₁, called, size, stored⟩ : ∃ m₁, step h m = some (.ok, m₁) ∧
      m₁.mem.size = m.mem.size ∧ Loaded m₁.mem.data (m.cpu.x 11) (received h m) := by
    have inside : (m.advance.cpu.x 11).toNat + (m.advance.cpu.x 12).toNat ≤
        m.advance.mem.size.toNat := room
    have called := step_ecall h ready reads
    rw [handleSyscall_read h (m := m.advance) number, if_neg (Nat.not_lt_of_le inside)] at called
    exact ⟨_, called, rfl, loaded_blit m.advance.mem fits⟩
  refine ⟨m₁, called, ?_⟩
  intro n last steps ready' writes number' buffer count untouched
  have holds : 4 ≤ m₁.mem.size.toNat := by
    rw [size]
    exact ready.holds
  have loaded : Loaded last.mem.data (m.cpu.x 11) (received h m) := by
    intro k inside
    rw [steps.unwritten bounded holds (untouched k inside)]
    exact stored k inside
  have start : last.advance.cpu.x 11 = m.cpu.x 11 := buffer
  have inside : (last.advance.cpu.x 11).toNat + (last.advance.cpu.x 12).toNat ≤
      last.advance.mem.size.toNat := by
    have same : last.advance.mem.size = m.mem.size := (steps.keeps bounded holds).size.trans size
    have length : (last.advance.cpu.x 12).toNat ≤ (received h m).length := count
    rw [same, start]
    omega
  have passed := step_ecall h ready' writes
  rw [handleSyscall_write h (m := last.advance) number', if_neg (Nat.not_lt_of_le inside)]
    at passed
  refine ⟨_, passed, ?_⟩
  have handed : last.advance.mem.slice (last.advance.cpu.x 11) (last.advance.cpu.x 12).toNat =
      (received h m).take (last.cpu.x 12).toNat := by
    rw [start]
    exact slice_of_loaded loaded count
  rw [handed]
  exact ⟨setA0_a0 _ _, rfl⟩

/-- A host with two bytes to read, which records what is written. -/
def greetingHost : Host (List Byte) where
  write := fun _ bytes s => (BitVec.ofNat 32 bytes.length, s ++ bytes)
  read := fun _ count s => (2, [0x68, 0x69].take count, s)
  openFile := fun _ _ _ s => (-1, s)
  close := fun _ s => (-1, s)
  fstat := fun _ s => (-1, [], s)
  statSize := 144

theorem bounded_greetingHost : greetingHost.Bounded := fun _ _ _ => List.length_take_le ..

/-- `ecall`, `addi a7, a7, 1` and `ecall`, in front of a buffer of four bytes;
the first call reads. -/
def echo : Machine (List Byte) where
  cpu :=
    { x := fun r => if r = 17 then sysRead else if r = 11 then 12 else if r = 12 then 2 else 0
      pc := 0
      running := true }
  mem :=
    { size := 16
      data := fun a =>
        ([0x00000073, 0x00188893, 0x00000073].flatMap Bits.leBytes).getD a.toNat 0 }
  host := []

/-- Behind its read, and in front of its write. -/
def echoRead : Machine (List Byte) := (echo.advance.handleSyscall greetingHost).2

def echoWrite : Machine (List Byte) :=
  { echoRead.advance with cpu := echoRead.advance.cpu.regWrite 17 sysWrite }

theorem read_then_write_echo :
    step greetingHost echo = some (.ok, echoRead) ∧
      Steps greetingHost 1 echoRead echoWrite ∧
      ∃ m, step greetingHost echoWrite = some (.ok, m) ∧ m.host = [0x68, 0x69] := by
  have ready : echo.Fetchable := ⟨rfl, by decide, by decide⟩
  obtain ⟨_, called, passes⟩ :=
    read_then_write bounded_greetingHost ready (by decide) rfl (by decide)
  have first : step greetingHost echo = some (.ok, echoRead) := rfl
  have between : Steps greetingHost 1 echoRead echoWrite := .next rfl (.refl echoWrite)
  cases called.symm.trans first
  obtain ⟨m, passed, _, recorded⟩ := passes 1 echoWrite between
    ⟨rfl, by decide, by decide⟩ (by decide) rfl rfl (by decide) (by
      rintro k _ ⟨j, before, _, within, steps, _, _, decoded, writes⟩
      have none : j = 0 := by omega
      subst none
      cases steps
      have add : Instruction.decode echoRead.fetched = some _ := rfl
      cases decoded.symm.trans add
      rcases writes with ⟨store, _⟩ | ⟨call, _⟩
      · exact absurd store (by decide)
      · exact absurd call (by decide))
  exact ⟨first, between, m, passed, recorded⟩

end Echo

end Machine

end RiscvPack.Emulator
