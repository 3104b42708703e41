import RiscvPack.Assembler.ProgramImage
import RiscvPack.Lib.Simulation
import RiscvPack.Emulator.Stack

/-!
# Whole runs of a program

The assembler and the processor together: the processor, started on the image
of a program, follows every run of the source text line by line.  One step is
the code of one line; the library turns steps into runs.
-/

namespace RiscvPack.Asm

open CString Emulator Simulation

variable {σ : Type}

/-- The processor is where the source text is: at the address of its line, with
its registers and its memory, and with the image still in place. -/
structure Agrees (setting : Setting) (image : List Byte) (s : SourceState) (m : Machine σ) :
    Prop where
  running : m.cpu.running = true
  arch : m.arch = setting.arch s
  code : Machine.Loaded m.mem.data 0 image

/-- The processor is about to run an image that stands at address zero. -/
structure Started (image : List Byte) (m : Machine σ) : Prop where
  running : m.cpu.running = true
  pc : m.cpu.pc = 0
  fits : image.length ≤ m.mem.size.toNat
  code : Machine.Loaded m.mem.data 0 image

/-- Any number of steps that all return `CPU_OK`. -/
def StepsOk (h : Host σ) (m m' : Machine σ) : Prop := ∃ n, Machine.Steps h n m m'

/-- The program at its first line, with what the processor starts with. -/
def SourceState.initial (m : Machine σ) : SourceState where
  line := 0
  x := m.arch.x
  mem := m.mem.data

/-- Where the image of a program runs: at the addresses of the first pass. -/
def Program.setting (p : Program) (source : Text) (image : List Byte) (m : Machine σ) :
    Setting where
  address := p.firstPassAddress source
  size := m.mem.size.toNat
  codeSize := image.length

/-- On the image that a file assembles to, the processor follows every run of
the program. -/
def Simulated (source : Text) (p : Program) : Prop :=
  ∀ result, assemble source = some result →
    ∀ (σ : Type) (h : Host σ) (m : Machine σ), Started result.bytes m →
      ∀ states, Run (p.step (p.setting source result.bytes m)) (.initial m) states →
        Follows (StepsOk h) (Agrees (p.setting source result.bytes m) result.bytes) m states

section Steps

variable {p : Program} {setting : Setting} {image : List Byte} {s s' : SourceState}

theorem effect_of_stepStatement {c : Statement}
    (encodable : c.Encodable (p.symbols setting.address) (setting.address s.line))
    (follows : setting.address (s.line + 1) =
      setting.address s.line + BitVec.ofNat 32 (4 * c.size))
    (stepped : p.stepStatement setting s c = some s') :
    c.Effect (p.symbols setting.address) (setting.arch s) (setting.arch s') := by
  cases c with
  | instr src =>
      obtain ⟨i, means⟩ := Option.isSome_iff_exists.mp encodable
      exact ⟨i, means, exec_of_stepInstr follows means stepped⟩
  | pseudo src => exact effect_of_stepPseudo follows stepped

variable (addresses : setting.address = wordAddress p.lines)
  (installed : Installed (p.symbols setting.address) p.lines image)
  (encodable : p.Encodable setting.address) (codeSize : setting.codeSize = image.length)
  (fits : image.length ≤ setting.size) (addressable : setting.size < 2 ^ 32)

include addresses installed encodable codeSize fits addressable

theorem agrees_step (h : Host σ) {m : Machine σ} (agrees : Agrees setting image s m)
    (stepped : p.step setting s = some s') :
    ∃ m', StepsOk h m m' ∧ Agrees setting image s' m' := by
  obtain ⟨line, found, stepped⟩ := Option.bind_eq_some_iff.mp stepped
  obtain ⟨inside, here⟩ := List.getElem?_eq_some_iff.mp found
  have split : p.lines = p.lines.take s.line ++ line :: p.lines.drop (s.line + 1) := by
    rw [← here]
    simp
  obtain ⟨before, code, after, whole, lengthBefore, lengthCode, executes⟩ :=
    installed.code _ line _ split
  have address : setting.address s.line =
      BitVec.ofNat 32 (4 * wordCount (p.lines.take s.line)) := by
    rw [addresses]
    rfl
  have grows : wordCount (p.lines.take (s.line + 1)) =
      wordCount (p.lines.take s.line) + line.size := by
    rw [List.take_add_one, found, wordCount_append]
    exact congrArg (_ + ·) (wordCount_singleton line)
  have next : setting.address (s.line + 1) =
      setting.address s.line + BitVec.ofNat 32 (4 * line.size) := by
    rw [addresses, wordAddress, wordAddress, grows, Nat.mul_add, BitVec.ofNat_add]
  have zero (a : Word) : 0 + a = a := BitVec.zero_add a
  have arch := agrees.arch
  cases statement : line.statement with
  | none =>
      rw [statement] at stepped
      cases stepped
      have empty : line.size = 0 := by
        rw [ProgramLine.size, statement]
        rfl
      refine ⟨m, ⟨0, .refl m⟩, agrees.running, ?_, agrees.code⟩
      rw [arch]
      unfold Setting.arch SourceState.next
      rw [next, empty, BitVec.add_zero]
  | some c =>
      rw [statement] at stepped
      have size : line.size = c.size := by
        rw [ProgramLine.size, statement]
        rfl
      rw [size] at next lengthCode
      have pc : m.cpu.pc = BitVec.ofNat 32 (4 * wordCount (p.lines.take s.line)) := by
        rw [← address]
        exact congrArg Isa.State.pc arch
      have memory : m.mem.size.toNat = setting.size := congrArg Isa.State.size arch
      have length := congrArg List.length whole
      rw [List.length_append, List.length_append, lengthBefore, lengthCode] at length
      have position : m.cpu.pc.toNat = 4 * wordCount (p.lines.take s.line) := by
        rw [pc, BitVec.toNat_ofNat, Nat.mod_eq_of_lt (by omega)]
      have ready : m.Ready c.size :=
        ⟨agrees.running, by omega, by omega⟩
      have loaded : Machine.Loaded m.mem.data
          (BitVec.ofNat 32 (4 * wordCount (p.lines.take s.line))) code := by
        have image := agrees.code
        rw [whole] at image
        have behind := image.left.right
        rwa [lengthBefore, zero] at behind
      have effect := effect_of_stepStatement (encodable s.line line found c statement) next stepped
      obtain ⟨m', steps, reaches⟩ := executes c statement σ h m _ pc ready loaded (arch ▸ effect)
      refine ⟨m', ⟨_, steps⟩, reaches.running.trans agrees.running, reaches.arch, ?_⟩
      intro k below
      have data : m'.mem.data = s'.mem := congrArg Isa.State.mem reaches.arch
      have old : m.mem.data = s.mem := congrArg Isa.State.mem arch
      have inCode : (0 + BitVec.ofNat 32 k : Word).toNat < setting.codeSize := by
        rw [zero, BitVec.toNat_ofNat, Nat.mod_eq_of_lt (by omega), codeSize]
        exact below
      rw [data, mem_of_stepStatement (le_of_lt addressable) stepped inCode, ← old]
      exact agrees.code k below

end Steps

/-- When no `li` has a numeral that the first pass cuts to another size, the
processor follows every run of the program. -/
theorem simulated_of_foreseen {source : Text} {p : Program} (spells : Program.Spells source p)
    (encodable : p.Encodable (p.firstPassAddress source)) (foreseen : p.Foreseen) :
    Simulated source p := by
  intro result assembled σ h m started states ran
  obtain ⟨addresses, installed⟩ := installed_of_assembled spells foreseen encodable assembled
  rw [← addresses] at installed
  have setting : (p.setting source result.bytes m).address = wordAddress p.lines := addresses
  have addressable : (p.setting source result.bytes m).size < 2 ^ 32 := m.mem.size.isLt
  have forward : Forward (p.step (p.setting source result.bytes m)) (StepsOk h)
      (Agrees (p.setting source result.bytes m) result.bytes) := by
    intro s s' m' agrees stepped
    exact agrees_step setting installed encodable rfl started.fits addressable h agrees stepped
  refine forward.follows ?_ ran
  refine ⟨started.running, ?_, started.code⟩
  have first : p.firstPassAddress source 0 = m.cpu.pc := by
    rw [addresses, started.pc]
    rfl
  exact congrArg (fun pc => ({ m.arch with pc } : Isa.State)) first.symm

section Instances

def regA0 : RegName := ⟨_, 10, .abi 10⟩

def regA1 : RegName := ⟨_, 11, .abi 11⟩

/-- A loop with a constant of two words in it. -/
def countingLoop : Program where
  opens := true
  lines :=
    [⟨some ⟨'l', "oop".toList, by decide, by decide, by decide⟩,
        some (.instr (.imm .addi regA0 regA0 (.ofInt 1 (by decide) (by decide))))⟩,
      ⟨none, some (.pseudo (.li regA1 (.ofInt 100000 (by decide) (by decide))))⟩,
      ⟨none, some (.pseudo (.j (.label
        ⟨'l', "oop".toList, by decide, by decide, by decide⟩)))⟩]

def countingLoopSource : Text :=
  ".text\nloop: addi a0, a0, 1\nli a1, 100000\nj loop\n".toList

theorem encodable_countingLoop :
    countingLoop.Encodable (countingLoop.firstPassAddress countingLoopSource) := by
  intro k line found c member
  match k with
  | 0 =>
      cases found
      cases member
      rfl
  | 1 =>
      cases found
      cases member
      exact ⟨by decide, by decide⟩
  | 2 =>
      cases found
      cases member
      exact ⟨0, by decide, by decide⟩
  | k + 3 => cases found

theorem foreseen_countingLoop : countingLoop.Foreseen := by
  intro line member c statement
  simp only [countingLoop, List.mem_cons, List.not_mem_nil, or_false] at member
  rcases member with rfl | rfl | rfl
  · cases statement
    trivial
  · cases statement
    exact Statement.foreseen_of_short ⟨by decide, by decide⟩ (by decide)
  · cases statement
    trivial

/-- Once around the loop, in an emulator that has loaded the image. -/
theorem simulated_of_foreseen_loop :
    ∃ (result : Assembled) (m : Machine Unit) (states : List SourceState),
      assemble countingLoopSource = some result ∧ boot () result.bytes 0 = some m ∧
      Run (countingLoop.step (countingLoop.setting countingLoopSource result.bytes m))
        (.initial m) states ∧
      states.map (·.line) = [1, 2, 0] ∧
      Follows (StepsOk Host.inert)
        (Agrees (countingLoop.setting countingLoopSource result.bytes m) result.bytes)
        m states := by
  have written : (assemble countingLoopSource).map (·.bytes.length) = some 16 := by decide
  obtain ⟨result, assembled, length⟩ := Option.map_eq_some_iff.mp written
  obtain ⟨m, booted⟩ : ∃ m, boot () result.bytes 0 = some m := by
    simp only [boot]
    rw [if_neg (by rw [length]; decide)]
    exact ⟨_, rfl⟩
  obtain ⟨loaded, cpu, size, room⟩ := Machine.loaded_of_boot booted
  have pc : m.cpu.pc = 0 := by rw [cpu]
  have started : Started result.bytes m :=
    ⟨by rw [cpu]; rfl, pc, by rw [length, size]; decide, pc ▸ loaded⟩
  have ran : Run (countingLoop.step (countingLoop.setting countingLoopSource result.bytes m))
      (.initial m) _ := .cons rfl (.cons rfl (.cons rfl (.nil _)))
  refine ⟨result, m, _, assembled, booted, ran, rfl, ?_⟩
  exact simulated_of_foreseen (by decide) encodable_countingLoop foreseen_countingLoop result
    assembled Unit Host.inert m started _ ran

/-- 2048 in thirty-one digits. -/
def longNumber : Number where
  text := "0000000000000000000000000002048".toList
  value := _
  numeral := .decimal (by decide) (by decide)
  short := by decide

def cutLoad : Program where
  opens := false
  lines := [⟨none, some (.pseudo (.li regA0 longNumber))⟩]

def cutLoadSource : Text := "li a0, 0000000000000000000000000002048\n".toList

/-- `lui a0, 1` and `addi a0, a0, -2048`. -/
def cutLoadImage : List Byte := [0x37, 0x15, 0, 0, 0x13, 0x05, 0x05, 0x80]

/-- A processor with a memory that the image fills. -/
def cutLoadMachine : Machine Unit where
  cpu := CPU.init
  mem := (Memory.init 8).blit 0 cutLoadImage
  host := ()

/-- Behind one word the constant is not complete, and behind two the processor
is not where the first pass puts the next line. -/
theorem stepsOk_cutLoadMachine {m : Machine Unit}
    (reached : StepsOk Host.inert cutLoadMachine m) (there : m.cpu.pc = 4) :
    m.cpu.regRead 10 = 4096 := by
  have one : (Machine.step Host.inert cutLoadMachine).map
      (fun r => (r.1, r.2.cpu.regRead 10)) = some (.ok, 4096) := by decide
  have two : ((Machine.step Host.inert cutLoadMachine).bind fun r =>
      Machine.step Host.inert r.2).map (fun r => (r.1, r.2.cpu.pc)) = some (.ok, 8) := by decide
  have three : (((Machine.step Host.inert cutLoadMachine).bind fun r =>
      Machine.step Host.inert r.2).bind fun r => Machine.step Host.inert r.2).map (·.1) =
        some .fetchOutOfBounds := by decide
  obtain ⟨⟨_, m₁⟩, first, result⟩ := Option.map_eq_some_iff.mp one
  obtain ⟨rfl, value⟩ := Prod.mk.inj result
  rw [first] at two three
  obtain ⟨⟨_, m₂⟩, second, result⟩ := Option.map_eq_some_iff.mp two
  obtain ⟨rfl, pc⟩ := Prod.mk.inj result
  have second : Machine.step Host.inert m₁ = some (.ok, m₂) := second
  obtain ⟨n, steps⟩ := reached
  cases steps with
  | refl => exact absurd there (by decide)
  | next stepped steps =>
      cases Option.some.inj (first.symm.trans stepped)
      cases steps with
      | refl => exact value
      | next stepped steps =>
          cases Option.some.inj (second.symm.trans stepped)
          cases steps with
          | refl =>
              rw [pc] at there
              exact absurd there (by decide)
          | next stepped _ =>
              have stops : ((Machine.step Host.inert m₁).bind fun r =>
                Machine.step Host.inert r.2).map (·.1) = some .fetchOutOfBounds := three
              rw [second] at stops
              have stops : (Machine.step Host.inert m₂).map (·.1) = some .fetchOutOfBounds := stops
              rw [stepped] at stops
              cases stops

/-- The claim for every program fails: the first pass reads the thirty digits
0...0204, and reserves one word. -/
theorem not_simulated_cutLoad :
    Program.Spells cutLoadSource cutLoad ∧
      cutLoad.Encodable (cutLoad.firstPassAddress cutLoadSource) ∧
      (assemble cutLoadSource).isSome ∧ ¬ Simulated cutLoadSource cutLoad := by
  have written : (assemble cutLoadSource).map (·.bytes) = some cutLoadImage := by decide
  obtain ⟨result, assembled, image⟩ := Option.map_eq_some_iff.mp written
  refine ⟨by decide, ?_, by rw [assembled]; rfl, fun simulated => ?_⟩
  · intro k line found c member
    match k with
    | 0 =>
        cases found
        cases member
        exact ⟨by decide, by decide⟩
    | k + 1 => cases found
  · have started : Started result.bytes cutLoadMachine := by
      rw [image]
      refine ⟨rfl, rfl, by decide, ?_⟩
      unfold Machine.Loaded
      decide
    have ran : Run (cutLoad.step (cutLoad.setting cutLoadSource result.bytes cutLoadMachine))
      (.initial cutLoadMachine) _ := .cons rfl (.nil _)
    cases simulated result assembled Unit Host.inert cutLoadMachine started _ ran with
    | @cons _ m _ _ reached agrees _ =>
        have pc : m.cpu.pc = cutLoad.firstPassAddress cutLoadSource 1 :=
          congrArg Isa.State.pc agrees.arch
        have address : cutLoad.firstPassAddress cutLoadSource 1 = 4 := by decide
        have value : m.cpu.regRead 10 = BitVec.ofInt 32 longNumber.value :=
          congrArg (fun s => s.x.get 10) agrees.arch
        have loaded := stepsOk_cutLoadMachine reached (pc.trans address)
        exact absurd (loaded.symm.trans value) (by decide)

end Instances

end RiscvPack.Asm
