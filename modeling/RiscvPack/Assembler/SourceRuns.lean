import RiscvPack.Assembler.Relocation
import RiscvPack.Emulator.RunRefinement

/-!
# Runs of a program with data and system calls

The machine of the source text, with the data behind the code in its memory and
an environment that answers its calls.  On the image of a program that is never
refused, the loop of `main` meets no error: it gets to an exit that the program
reaches, or to the step limit.
-/

namespace RiscvPack.Asm

open CString Runs Emulator Transitions

namespace SourceFile

variable (f : SourceFile) (setting : Setting)

/-- One line of the code is executed. -/
def step (s : SourceState) : Option SourceState :=
  if s.line < f.code.lines.length then f.program.step setting s else none

/-- The words that the line at hand stands for. -/
def wordsAt (s : SourceState) : Nat := (f.code.lines[s.line]?.map ProgramLine.size).getD 0

theorem wordsAt_of_line {s : SourceState} {line : ProgramLine}
    (found : f.code.lines[s.line]? = some line) : f.wordsAt s = line.size := by
  rw [wordsAt, found]
  rfl

/-- The words of the lines that a run from `s` executes. -/
def executedWords (s : SourceState) : List SourceState → Nat
  | [] => 0
  | s' :: states => f.wordsAt s + executedWords s' states

/-- The program is at an `ecall`. -/
def AtCall (s : SourceState) : Prop :=
  ∃ line, f.code.lines[s.line]? = some line ∧ line.statement = some (.instr .ecall)

/-- The program is at the call that ends it. -/
def Exits (s : SourceState) : Prop := f.AtCall s ∧ s.x.get Isa.a7 = Isa.callExit

/-- The bytes that a call may fill are behind the code. -/
def BufferApart (s : SourceState) : Prop :=
  ∀ b : Word, (setting.arch s).InBuffer b → b.toNat < setting.size → setting.codeSize ≤ b.toNat

/-- One line, or a call that the environment answers. -/
inductive Transition (s : SourceState) : SourceState → Prop where
  | line {s' : SourceState} : f.step setting s = some s' → Transition s s'
  | call {s' : SourceState} : f.AtCall s → s.x.get Isa.a7 ≠ Isa.callExit →
      s'.line = s.line + 1 → Isa.Serviced (setting.arch s) (setting.arch s') → Transition s s'

/-- The states that the program gets to, and the words it has executed by then. -/
inductive Reached (s₀ : SourceState) : Nat → SourceState → Prop where
  | start : Reached s₀ 0 s₀
  | next {n : Nat} {s s' : SourceState} :
      Reached s₀ n s → f.Transition setting s s' → Reached s₀ (n + f.wordsAt s) s'

/-- Wherever the answers of the environment take the program, it gets on or
makes a call, which leaves the code alone. -/
def Safe (s₀ : SourceState) : Prop :=
  ∀ n s, f.Reached setting s₀ n s →
    (∃ s', f.step setting s = some s') ∨
      f.AtCall s ∧ (s.x.get Isa.a7 ≠ Isa.callExit → BufferApart setting s)

theorem step_eq_some_iff {s s' : SourceState} :
    f.step setting s = some s' ↔ ∃ line, f.code.lines[s.line]? = some line ∧
      (match line.statement with
        | some c => f.program.stepStatement setting s c
        | none => some s.next) = some s' := by
  have here (inside : s.line < f.code.lines.length) :
      f.program.lines[s.line]? = f.code.lines[s.line]? :=
    List.getElem?_append_left inside
  unfold step
  constructor
  · intro stepped
    obtain ⟨inside, stepped⟩ := Option.ite_none_right_eq_some.mp stepped
    obtain ⟨line, found, stepped⟩ := Option.bind_eq_some_iff.mp stepped
    exact ⟨line, (here inside).symm.trans found, stepped⟩
  · rintro ⟨line, found, stepped⟩
    have inside := (List.getElem?_eq_some_iff.mp found).1
    rw [if_pos inside]
    exact Option.bind_eq_some_iff.mpr ⟨line, (here inside).trans found, stepped⟩

end SourceFile

section Sizes

theorem Statement.size_pos (c : Statement) : 0 < c.size := by
  cases c with
  | instr src => exact Nat.one_pos
  | pseudo src =>
      cases src with
      | li rd value =>
          simp only [Statement.size, PseudoInstr.size]
          split
          · exact Nat.one_pos
          · exact Nat.two_pos
      | la => exact Nat.two_pos
      | nop | mv | call | j | ret => exact Nat.one_pos

theorem ProgramLine.statement_of_size {line : ProgramLine} (empty : line.size = 0) :
    line.statement = none := by
  unfold ProgramLine.size at empty
  cases statement : line.statement with
  | none => rfl
  | some c =>
      rw [statement] at empty
      exact absurd empty c.size_pos.ne'

end Sizes

section Following

variable {σ : Type} {h : Host σ} {f : SourceFile} {setting : Setting} {base : Word}
  {s s' s₀ : SourceState} {m m' : Machine σ}

/-- The processor is where the source text is, and the code stands at `base`. -/
structure AgreesAt (base : Word) (setting : Setting) (code : List Byte) (s : SourceState)
    (m : Machine σ) : Prop where
  running : m.cpu.running = true
  arch : m.arch = setting.arch s
  code : Machine.Loaded m.mem.data base code

/-- What the results below share: a program that assembles, and a place for its
code.  Everything up to the end of the code counts as code. -/
structure Image (f : SourceFile) (setting : Setting) (base : Word) : Prop where
  placed : CodeAt f.symbols f.code.lines f.codeBytes
  moves : f.code.Moves base
  aligned : base.toNat % 4 = 0
  address : setting.address = fun k => base + f.address k
  codeSize : setting.codeSize = base.toNat + f.codeLength
  fits : base.toNat + f.codeLength ≤ setting.size
  addressable : setting.size < 2 ^ 32

/-- A line of the program, and the processor in front of it. -/
structure InFront (setting : Setting) (s : SourceState) (line : ProgramLine) (m : Machine σ) :
    Prop where
  ready : m.Ready line.size
  next : setting.address (s.line + 1) = setting.address s.line + BitVec.ofNat 32 (4 * line.size)

theorem Image.position (image : Image f setting base) {k : Nat}
    (inside : k ≤ f.code.lines.length) :
    setting.address k = base + BitVec.ofNat 32 (4 * wordCount (f.code.lines.take k)) := by
  have same := f.address_code inside
  rw [image.address]
  show base + f.address k = _
  rw [same]
  rfl

theorem Image.labels (image : Image f setting base) (target : Target) :
    target.address (f.program.symbols setting.address) =
      target.address (f.symbols.map (Label.shift base)) := by
  rw [image.address, address_symbols_shift]

theorem Image.inFront (image : Image f setting base)
    (agrees : AgreesAt base setting f.codeBytes s m) {line : ProgramLine}
    (found : f.code.lines[s.line]? = some line) : InFront setting s line m := by
  have inside := (List.getElem?_eq_some_iff.mp found).1
  have grows : wordCount (f.code.lines.take (s.line + 1)) =
      wordCount (f.code.lines.take s.line) + line.size := by
    rw [List.take_add_one, found, wordCount_append]
    exact congrArg (_ + ·) (wordCount_singleton line)
  have total : wordCount (f.code.lines.take (s.line + 1)) +
      wordCount (f.code.lines.drop (s.line + 1)) = wordCount f.code.lines := by
    rw [← wordCount_append, List.take_append_drop]
  have length : f.codeLength = 4 * wordCount f.code.lines := rfl
  have fits := image.fits
  have addressable := image.addressable
  have aligned := image.aligned
  have pc : m.cpu.pc = base + BitVec.ofNat 32 (4 * wordCount (f.code.lines.take s.line)) :=
    (congrArg Isa.State.pc agrees.arch).trans (image.position (le_of_lt inside))
  have memory : m.mem.size.toNat = setting.size := congrArg Isa.State.size agrees.arch
  have place : m.cpu.pc.toNat = base.toNat + 4 * wordCount (f.code.lines.take s.line) := by
    rw [pc]
    exact Bits.toNat_offset _ (by omega)
  refine ⟨⟨agrees.running, by omega, by omega⟩, ?_⟩
  rw [image.position inside, image.position (le_of_lt inside), grows, Nat.mul_add,
    BitVec.ofNat_add, BitVec.add_assoc]

theorem Image.code_stays (image : Image f setting base)
    (agrees : AgreesAt base setting f.codeBytes s m)
    (same : ∀ b : Word, b.toNat < setting.codeSize → m'.mem.data b = m.mem.data b) :
    Machine.Loaded m'.mem.data base f.codeBytes := by
  intro k below
  have fits := image.fits
  have addressable := image.addressable
  have length : f.codeBytes.length = f.codeLength := image.placed.length
  have inCode : (base + BitVec.ofNat 32 k).toNat < setting.codeSize := by
    rw [Bits.toNat_offset _ (by omega), image.codeSize]
    omega
  rw [same _ inCode]
  exact agrees.code k below

/-- A step of the source text is the effect of its statement, where that has
been moved to. -/
theorem Image.effect (image : Image f setting base) {c : Statement} {pc : Word}
    (moves : c.Moves base) (encodable : c.Encodable f.symbols pc)
    (position : setting.address s.line = base + pc)
    (next : setting.address (s.line + 1) =
      setting.address s.line + BitVec.ofNat 32 (4 * c.size))
    (stepped : f.program.stepStatement setting s c = some s') :
    c.Effect (f.symbols.map (Label.shift base)) (setting.arch s) (setting.arch s') := by
  cases c with
  | instr src =>
      obtain ⟨i, means⟩ := Option.isSome_iff_exists.mp encodable
      have means : src.meaning (f.symbols.map (Label.shift base)) (setting.address s.line) =
          some i := by
        rw [position, meaning_shift moves]
        exact means
      have means' : src.meaning (f.program.symbols setting.address) (setting.address s.line) =
          some i :=
        (meaning_congr image.labels src _).trans means
      exact ⟨i, means, exec_of_stepInstr next means' stepped⟩
  | pseudo src =>
      exact (effect_congr image.labels src 0 _).symm.trans (effect_of_stepPseudo next stepped)

/-- One line of the source text takes the processor as many steps as it has
words. -/
theorem Image.step (image : Image f setting base) (h : Host σ)
    (agrees : AgreesAt base setting f.codeBytes s m) (stepped : f.step setting s = some s') :
    ∃ line m', f.code.lines[s.line]? = some line ∧ Machine.Steps h line.size m m' ∧
      AgreesAt base setting f.codeBytes s' m' := by
  obtain ⟨line, found, stepped⟩ := (f.step_eq_some_iff setting).mp stepped
  obtain ⟨ready, next⟩ := image.inFront agrees found
  cases statement : line.statement with
  | none =>
      rw [statement] at stepped
      cases stepped
      have empty : line.size = 0 := by
        rw [ProgramLine.size, statement]
        rfl
      refine ⟨line, m, found, by rw [empty]; exact .refl m, agrees.running, ?_, agrees.code⟩
      rw [agrees.arch]
      unfold Setting.arch SourceState.next
      rw [next, empty, BitVec.add_zero]
  | some c =>
      rw [statement] at stepped
      have stepped : f.program.stepStatement setting s c = some s' := stepped
      have size : line.size = c.size := by
        rw [ProgramLine.size, statement]
        rfl
      rw [size] at ready next
      obtain ⟨inside, here⟩ := List.getElem?_eq_some_iff.mp found
      have split : f.code.lines =
          f.code.lines.take s.line ++ line :: f.code.lines.drop (s.line + 1) := by
        rw [← here]
        simp
      obtain ⟨before, code, after, whole, length, processed⟩ :=
        image.placed.placed _ _ _ c split statement
      have encodable := image.placed.encodable _ _ _ c split statement
      have pc : (Pass2.init.emit before).pc =
          BitVec.ofNat 32 (4 * wordCount (f.code.lines.take s.line)) := by
        rw [← length]
        exact BitVec.zero_add _
      rw [← pc] at encodable
      have moves : c.Moves base := image.moves line (List.mem_of_getElem? found) c statement
      rw [Pass2.emit_append] at processed
      obtain ⟨_, runs⟩ := Statement.runs encodable moves processed
      have position := image.position (le_of_lt inside)
      rw [← pc] at position
      have address : m.cpu.pc = base + (Pass2.init.emit before).pc :=
        (congrArg Isa.State.pc agrees.arch).trans position
      have loaded : Machine.Loaded m.mem.data m.cpu.pc code := by
        have image := agrees.code
        rw [whole] at image
        have behind := image.left.right
        rw [address, pc, ← length]
        exact behind
      have effect := image.effect moves encodable position next stepped
      rw [← agrees.arch] at effect
      obtain ⟨m', steps, reaches⟩ := runs σ h m _ address ready loaded effect
      refine ⟨line, m', found, by rw [size]; exact steps,
        reaches.running.trans agrees.running, reaches.arch, image.code_stays agrees ?_⟩
      intro b inCode
      have data : m'.mem.data = s'.mem := congrArg Isa.State.mem reaches.arch
      have old : m.mem.data = s.mem := congrArg Isa.State.mem agrees.arch
      rw [data, old, mem_of_stepStatement (le_of_lt image.addressable) stepped inCode]

theorem Image.fetches_call (image : Image f setting base)
    (agrees : AgreesAt base setting f.codeBytes s m) (call : f.AtCall s) :
    m.Fetchable ∧ Isa.decode m.fetched = some .ecall ∧
      setting.address (s.line + 1) = setting.address s.line + 4 := by
  obtain ⟨line, found, statement⟩ := call
  obtain ⟨ready, next⟩ := image.inFront agrees found
  have size : line.size = 1 := by
    rw [ProgramLine.size, statement]
    rfl
  rw [size] at ready next
  obtain ⟨inside, here⟩ := List.getElem?_eq_some_iff.mp found
  have split : f.code.lines =
      f.code.lines.take s.line ++ line :: f.code.lines.drop (s.line + 1) := by
    rw [← here]
    simp
  obtain ⟨before, w, after, i, whole, length, means, decodes⟩ :=
    image.placed.word split statement
  cases means
  have loaded : Machine.Loaded m.mem.data m.cpu.pc (Bits.leBytes w) := by
    have code := agrees.code
    rw [whole] at code
    have behind := code.left.right
    have pc : m.cpu.pc = setting.address s.line := congrArg Isa.State.pc agrees.arch
    rw [pc, image.position (le_of_lt inside), ← length]
    exact behind
  exact ⟨ready.fetchable, by rw [Machine.fetched_of_loaded loaded]; exact decodes, next⟩

theorem Image.exits (image : Image f setting base) (h : Host σ)
    (agrees : AgreesAt base setting f.codeBytes s m) (exits : f.Exits s) :
    ∃ m', Machine.step h m = some (.syscallExit, m') ∧ m'.cpu.regRead 10 = s.x.get Isa.a0 := by
  obtain ⟨call, number⟩ := exits
  obtain ⟨ready, decodes, _⟩ := image.fetches_call agrees call
  have registers : m.arch.x = s.x := congrArg Isa.State.x agrees.arch
  have same : m.advance.cpu.x 17 = sysExit := by
    rw [← registers] at number
    exact (Machine.regRead_of_ne_zero m.cpu (r := 17) (by decide)).symm.trans number
  have stepped := Machine.step_ecall h ready decodes
  rw [Machine.handleSyscall_exit h same] at stepped
  refine ⟨_, stepped, ?_⟩
  show m.arch.x.get 10 = s.x.get 10
  rw [registers]

theorem Image.call (image : Image f setting base) (bounded : h.Bounded)
    (agrees : AgreesAt base setting f.codeBytes s m) (call : f.AtCall s)
    (stays : s.x.get Isa.a7 ≠ Isa.callExit) (apart : SourceFile.BufferApart setting s) :
    ∃ s' m', f.Transition setting s s' ∧ Machine.step h m = some (.ok, m') ∧
      AgreesAt base setting f.codeBytes s' m' := by
  obtain ⟨ready, decodes, next⟩ := image.fetches_call agrees call
  have registers : m.arch.x = s.x := congrArg Isa.State.x agrees.arch
  have number : m.advance.cpu.x 17 ≠ sysExit := by
    intro exits
    rw [← registers] at stays
    exact stays ((Machine.regRead_of_ne_zero m.cpu (r := 17) (by decide)).trans exits)
  have serviced := Machine.serviced_handleSyscall bounded m
  have stepped := Machine.step_ecall h ready decodes
  have status := Machine.handleSyscall_continues h number
  generalize answer : m.advance.handleSyscall h = response at stepped status serviced
  obtain ⟨code, m'⟩ := response
  have status : code = .ok := status
  subst status
  have serviced : Isa.Serviced m.arch m'.arch := serviced
  have address : m.cpu.pc = setting.address s.line := congrArg Isa.State.pc agrees.arch
  have size : m.mem.size.toNat = setting.size := congrArg Isa.State.size agrees.arch
  have arch : m'.arch = setting.arch ⟨s.line + 1, m'.arch.x, m'.mem.data⟩ := by
    have pc : m'.cpu.pc = setting.address (s.line + 1) := by
      rw [next, ← address]
      exact serviced.pc
    have same : m'.mem.size.toNat = setting.size := serviced.size.trans size
    show (⟨m'.cpu.pc, m'.arch.x, m'.mem.data, m'.mem.size.toNat⟩ : Isa.State) = _
    rw [pc, same]
    rfl
  refine ⟨⟨s.line + 1, m'.arch.x, m'.mem.data⟩, m', ?_, stepped, ?_, arch, ?_⟩
  · refine .call call stays rfl ?_
    rw [← arch, ← agrees.arch]
    exact serviced
  · exact (Machine.step_ok_running stepped).trans agrees.running
  · apply image.code_stays agrees
    intro b inCode
    by_contra changed
    obtain ⟨inside, filled⟩ := serviced.bytes b changed
    rw [agrees.arch] at inside filled
    exact absurd (apart b filled inside) (by omega)

/-- How the processor ends within `limit` steps when the program is safe and has
executed `count` words so far. -/
inductive SafeEnd (h : Host σ) (f : SourceFile) (setting : Setting) (s₀ : SourceState)
    (count : Nat) (m : Machine σ) (limit : Nat) : Prop where
  | exit {n : Nat} {s : SourceState} {m' : Machine σ} : n < limit →
      f.Reached setting s₀ (count + n) s → f.Exits s → Machine.EndsAt h m n .syscallExit m' →
      m'.cpu.regRead 10 = s.x.get Isa.a0 → SafeEnd h f setting s₀ count m limit
  | exhausted {m' : Machine σ} :
      Machine.Steps h limit m m' → SafeEnd h f setting s₀ count m limit

theorem SafeEnd.behind {limit count n : Nat} (steps : Machine.Steps h n m m')
    (ended : SafeEnd h f setting s₀ (count + n) m' limit) :
    SafeEnd h f setting s₀ count m (n + limit) := by
  cases ended with
  | exit within reached exits ends code =>
      obtain ⟨last, rest, final⟩ := ends
      rw [Nat.add_assoc] at reached
      exact .exit (Nat.add_lt_add_left within n) reached exits
        ⟨last, steps.trans rest, final⟩ code
  | exhausted rest => exact .exhausted (steps.trans rest)

theorem safeEnd_of_steps {limit count n : Nat} (steps : Machine.Steps h n m m')
    (short : limit ≤ n) : SafeEnd h f setting s₀ count m limit := by
  obtain ⟨more, rfl⟩ := Nat.exists_eq_add_of_le short
  obtain ⟨middle, path, _⟩ := (Machine.steps_iff_path.mp steps).split
  exact .exhausted (Machine.steps_iff_path.mpr path)

/-- The induction is on the steps that are left and, as a line without a
statement takes none, on the lines ahead. -/
theorem Image.safeEnd (image : Image f setting base) (bounded : h.Bounded)
    (safe : f.Safe setting s₀) (limit : Nat) {count : Nat}
    (reached : f.Reached setting s₀ count s) (agrees : AgreesAt base setting f.codeBytes s m) :
    SafeEnd h f setting s₀ count m limit := by
  induction limit using Nat.strong_induction_on generalizing count s m with
  | _ limit fewer =>
    generalize ahead : f.code.lines.length - s.line = lines
    induction lines using Nat.strong_induction_on generalizing s with
    | _ lines nearer =>
      by_cases spent : limit = 0
      · exact safeEnd_of_steps (.refl m) (by omega)
      rcases safe count s reached with ⟨s', stepped⟩ | ⟨call, apart⟩
      · have next := SourceFile.Reached.next reached (.line stepped)
        obtain ⟨line, m', found, steps, agrees'⟩ := image.step h agrees stepped
        rw [f.wordsAt_of_line found] at next
        by_cases empty : line.size = 0
        · have inside := (List.getElem?_eq_some_iff.mp found).1
          have same : s' = s.next := by
            obtain ⟨other, here, stepped⟩ := (f.step_eq_some_iff setting).mp stepped
            cases Option.some.inj (found.symm.trans here)
            rw [ProgramLine.statement_of_size empty] at stepped
            exact (Option.some.inj stepped).symm
          rw [empty] at steps next
          cases steps
          subst same
          have closer : f.code.lines.length - s.next.line < lines := by
            show f.code.lines.length - (s.line + 1) < lines
            omega
          exact nearer _ closer next agrees' rfl
        · by_cases short : limit ≤ line.size
          · exact safeEnd_of_steps steps short
          · obtain ⟨rest, rfl⟩ := Nat.exists_eq_add_of_le (Nat.le_of_not_le short)
            exact (fewer rest (by omega) next agrees').behind steps
      · by_cases exits : s.x.get Isa.a7 = Isa.callExit
        · obtain ⟨m', stepped, code⟩ := image.exits h agrees ⟨call, exits⟩
          exact .exit (Nat.pos_of_ne_zero spent) reached ⟨call, exits⟩ ⟨m, .refl m, stepped⟩ code
        · obtain ⟨s', m', step, stepped, agrees'⟩ :=
            image.call bounded agrees call exits (apart exits)
          obtain ⟨rest, rfl⟩ := Nat.exists_eq_add_of_le (Nat.pos_of_ne_zero spent)
          have next := SourceFile.Reached.next reached step
          obtain ⟨line, found, statement⟩ := call
          rw [f.wordsAt_of_line found, ProgramLine.size, statement] at next
          exact (fewer rest (by omega) next agrees').behind (.next stepped (.refl m'))

/-- A run of the program without calls takes the processor as many steps as the
executed lines have words. -/
theorem Image.steps (image : Image f setting base) (h : Host σ)
    {states : List SourceState} (agrees : AgreesAt base setting f.codeBytes s m)
    (ran : Simulation.Run (f.step setting) s states) :
    ∃ m', Machine.Steps h (f.executedWords s states) m m' ∧
      AgreesAt base setting f.codeBytes (states.getLastD s) m' := by
  induction ran generalizing m with
  | nil s => exact ⟨m, .refl m, agrees⟩
  | @cons s s' states stepped _ induction =>
      obtain ⟨line, m₁, found, first, agrees₁⟩ := image.step h agrees stepped
      obtain ⟨m', rest, agrees'⟩ := induction agrees₁
      have words := f.wordsAt_of_line found
      refine ⟨m', ?_, ?_⟩
      · show Machine.Steps h (f.wordsAt s + f.executedWords s' states) m m'
        rw [words]
        exact first.trans rest
      · rw [List.getLastD_cons]
        exact agrees'

end Following

end RiscvPack.Asm
