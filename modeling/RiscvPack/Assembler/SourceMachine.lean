import RiscvPack.Assembler.SourceProgram

/-!
# The machine of the source text

A program run line by line, with the effects of the manual: a
pseudoinstruction is one step, a label means the line that carries it, and an
address means the line that stands there.  A step is refused at an
environment call, an access outside the memory, a store into the code, a
signed division that overflows, and a jump to where no line stands.
-/

namespace RiscvPack.Asm

open Isa (Accessible)

/-- Where a program is, and what it works on. -/
structure SourceState where
  line : Nat
  x : Isa.RegFile
  mem : Word → Byte

namespace SourceState

/-- A register written and the next line entered. -/
def write (s : SourceState) (r : Reg) (value : Word) : SourceState :=
  { s with line := s.line + 1, x := s.x.set r value }

def next (s : SourceState) : SourceState := { s with line := s.line + 1 }

def jump (s : SourceState) (line : Nat) : SourceState := { s with line }

end SourceState

/-- What a program runs in: the addresses of its lines, the bytes of the memory
and the bytes of the code, which stand at address zero. -/
structure Setting where
  address : Nat → Word
  size : Nat
  codeSize : Nat

/-- -2^31 divided by -1. -/
def DivisionOverflows (op : Isa.RegOp) (a b : Word) : Prop :=
  (op = .div ∨ op = .rem) ∧ a = BitVec.intMin 32 ∧ b = -1

instance (op : Isa.RegOp) (a b : Word) : Decidable (DivisionOverflows op a b) :=
  inferInstanceAs (Decidable (_ ∧ _))

namespace Program

variable (p : Program) (setting : Setting)

/-- The line that carries a label. -/
def lineOf (name : Identifier) : Option Nat := p.lines.findIdx? (·.label = some name)

/-- The line at an address. -/
def lineAt (a : Word) : Option Nat :=
  (List.range p.lines.length).find? (setting.address · = a)

/-- The line a jump or a branch goes to. -/
def goto : Target → Option Nat
  | .label name => p.lineOf name
  | .number n =>
      if FitsWord n.value then p.lineAt setting (BitVec.ofInt 32 n.value) else none

def stepInstr (s : SourceState) : SourceInstr → Option SourceState
  | .reg op rd rs1 rs2 =>
      let a := s.x.get rs1.number
      let b := s.x.get rs2.number
      if DivisionOverflows op a b then none else some (s.write rd.number (op.eval a b))
  | .imm op rd rs1 value =>
      some (s.write rd.number (op.eval (s.x.get rs1.number) (BitVec.ofInt 32 value.value)))
  | .shift op rd rs1 amount =>
      some (s.write rd.number (op.eval (s.x.get rs1.number) (BitVec.ofInt 5 amount.value)))
  | .load op rd offset rs1 =>
      let a := s.x.get rs1.number + BitVec.ofInt 32 offset.value
      if Accessible setting.size op.width a then
        some (s.write rd.number (op.value s.mem a))
      else none
  | .store op rs2 offset rs1 =>
      let a := s.x.get rs1.number + BitVec.ofInt 32 offset.value
      if Accessible setting.size op.width a ∧ setting.codeSize ≤ a.toNat then
        some { s.next with mem := op.write s.mem a (s.x.get rs2.number) }
      else none
  | .branch op rs1 rs2 target =>
      if op.taken (s.x.get rs1.number) (s.x.get rs2.number) then
        (p.goto setting target).map s.jump
      else some s.next
  | .jal rd target =>
      (p.goto setting target).map
        ((s.write rd.number (setting.address (s.line + 1))).jump ·)
  | .jalr rd rs1 offset =>
      let a := (s.x.get rs1.number + BitVec.ofInt 32 offset.value) &&& ~~~1#32
      (p.lineAt setting a).map
        ((s.write rd.number (setting.address (s.line + 1))).jump ·)
  | .lui rd value => some (s.write rd.number (BitVec.ofInt 32 value.value <<< 12))
  | .auipc rd value =>
      some (s.write rd.number
        (setting.address s.line + BitVec.ofInt 32 value.value <<< 12))
  | .ecall => none
  | .ebreak => some s.next

def stepPseudo (s : SourceState) : PseudoInstr → Option SourceState
  | .nop => some s.next
  | .mv rd rs => some (s.write rd.number (s.x.get rs.number))
  | .li rd value => some (s.write rd.number (BitVec.ofInt 32 value.value))
  | .la rd name =>
      (p.lineOf name).map fun line => s.write rd.number (setting.address line)
  | .call target =>
      (p.goto setting target).map
        ((s.write 1 (setting.address (s.line + 1))).jump ·)
  | .j target => (p.goto setting target).map s.jump
  | .ret => (p.lineAt setting (s.x.get 1 &&& ~~~1#32)).map s.jump

def stepStatement (s : SourceState) : Statement → Option SourceState
  | .instr src => p.stepInstr setting s src
  | .pseudo src => p.stepPseudo setting s src

/-- One line is executed. -/
def step (s : SourceState) : Option SourceState := do
  let line ← p.lines[s.line]?
  match line.statement with
  | some c => p.stepStatement setting s c
  | none => some s.next

end Program

section Targets

variable {p : Program} {setting : Setting}

theorem Identifier.text_inj {name other : Identifier} :
    name.text = other.text ↔ name = other := by
  constructor
  · intro same
    obtain ⟨first, rest⟩ := List.cons.inj same
    cases name
    cases other
    cases first
    cases rest
    rfl
  · rintro rfl
    rfl

private theorem find?_symbolsFrom (address : Nat → Word) (name : Identifier)
    (lines : List ProgramLine) (n : Nat) :
    ((Program.symbolsFrom address n lines).find? (·.name = name.text)).map (·.addr) =
      (lines.findIdx? (·.label = some name)).map fun k => address (n + k) := by
  induction lines generalizing n with
  | nil => rfl
  | cons line lines induction =>
      have later : (lines.findIdx? (·.label = some name)).map (fun k => address (n + 1 + k)) =
          ((lines.findIdx? (·.label = some name)).map (· + 1)).map
            fun k => address (n + k) := by
        rw [Option.map_map]
        congr 1
        funext k
        exact congrArg address (Nat.add_right_comm n 1 k)
      rw [Program.symbolsFrom, List.findIdx?_cons, List.find?_append]
      unfold ProgramLine.symbol
      cases label : line.label with
      | none =>
          rw [if_neg (by simp), ← later, ← induction]
          rfl
      | some other =>
          simp only [List.find?_singleton, Identifier.text_inj, Option.some.injEq, decide_eq_true_eq]
          by_cases same : other = name
          · rw [if_pos same, if_pos same]
            rfl
          · rw [if_neg same, if_neg same, ← later, ← induction]
            rfl

theorem address_of_lineOf {name : Identifier} {line : Nat} (carries : p.lineOf name = some line) :
    (Target.label name).address (p.symbols setting.address) =
      some (setting.address line) := by
  have found := find?_symbolsFrom setting.address name p.lines 0
  have carries : p.lines.findIdx? (·.label = some name) = some line := carries
  rw [carries, Option.map_some, Nat.zero_add] at found
  exact found

theorem address_of_lineAt {a : Word} {line : Nat} (stands : p.lineAt setting a = some line) :
    setting.address line = a := by
  simpa using List.find?_some stands

theorem address_of_goto {target : Target} {line : Nat}
    (goes : p.goto setting target = some line) :
    target.address (p.symbols setting.address) = some (setting.address line) := by
  cases target with
  | label name => exact address_of_lineOf goes
  | number n =>
      obtain ⟨fits, stands⟩ := Option.ite_none_right_eq_some.mp goes
      rw [Target.address, if_pos fits, address_of_lineAt stands]

end Targets

section Effects

/-- The architectural state a source state stands for. -/
def Setting.arch (setting : Setting) (s : SourceState) : Isa.State where
  pc := setting.address s.line
  x := s.x
  mem := s.mem
  size := setting.size

variable {p : Program} {setting : Setting} {s s' : SourceState}

/-- An instruction does on the source state what the reference semantics does
on the architectural state. -/
theorem exec_of_stepInstr {src : SourceInstr} {i : Isa.Instr}
    (follows : setting.address (s.line + 1) = setting.address s.line + 4)
    (means : src.meaning (p.symbols setting.address) (setting.address s.line) =
      some i)
    (stepped : p.stepInstr setting s src = some s') :
    ¬ Isa.DivOverflow (setting.arch s) i ∧
      Isa.exec (setting.arch s) i = some (setting.arch s') := by
  have write (r : Reg) (value : Word) :
      (setting.arch s).writeNext r value = setting.arch (s.write r value) := by
    unfold Isa.State.writeNext Setting.arch SourceState.write
    rw [follows]
  have target (a : Word) : setting.address s.line + (a - setting.address s.line) = a := by
    ring
  cases src with
  | reg op rd rs1 rs2 =>
      cases means
      simp only [Program.stepInstr] at stepped
      split at stepped
      · cases stepped
      · rename_i defined
        cases stepped
        refine ⟨fun overflows => defined ?_, congrArg some (write _ _)⟩
        cases op <;> first
          | exact overflows.elim
          | exact ⟨by simp, overflows⟩
  | imm op rd rs1 value =>
      obtain ⟨_, means⟩ := Option.ite_none_right_eq_some.mp means
      cases means
      cases stepped
      exact ⟨id, congrArg some (write _ _)⟩
  | shift op rd rs1 amount =>
      obtain ⟨_, means⟩ := Option.ite_none_right_eq_some.mp means
      cases means
      cases stepped
      exact ⟨id, congrArg some (write _ _)⟩
  | load op rd offset rs1 =>
      obtain ⟨_, means⟩ := Option.ite_none_right_eq_some.mp means
      cases means
      obtain ⟨accessible, stepped⟩ := Option.ite_none_right_eq_some.mp stepped
      cases stepped
      exact ⟨id, (if_pos accessible).trans (congrArg some (write _ _))⟩
  | store op rs2 offset rs1 =>
      obtain ⟨_, means⟩ := Option.ite_none_right_eq_some.mp means
      cases means
      obtain ⟨⟨accessible, _⟩, stepped⟩ := Option.ite_none_right_eq_some.mp stepped
      cases stepped
      refine ⟨id, (if_pos accessible).trans (congrArg some ?_)⟩
      unfold Setting.arch SourceState.next
      rw [follows]
  | branch op rs1 rs2 label =>
      obtain ⟨a, address, means⟩ := Option.bind_eq_some_iff.mp means
      obtain ⟨_, means⟩ := Option.ite_none_right_eq_some.mp means
      cases means
      refine ⟨id, ?_⟩
      simp only [Program.stepInstr] at stepped
      simp only [Isa.exec]
      split at stepped
      · rename_i taken
        obtain ⟨line, goes, rfl⟩ := Option.map_eq_some_iff.mp stepped
        have there := address_of_goto goes
        rw [address] at there
        cases there
        refine (if_pos taken).trans (congrArg some ?_)
        unfold Setting.arch SourceState.jump
        rw [target]
      · rename_i refused
        cases stepped
        refine (if_neg refused).trans (congrArg some ?_)
        unfold Setting.arch SourceState.next
        rw [follows]
  | jal rd label =>
      obtain ⟨a, address, means⟩ := Option.bind_eq_some_iff.mp means
      obtain ⟨_, means⟩ := Option.ite_none_right_eq_some.mp means
      cases means
      obtain ⟨line, goes, rfl⟩ := Option.map_eq_some_iff.mp stepped
      have there := address_of_goto goes
      rw [address] at there
      cases there
      refine ⟨id, congrArg some ?_⟩
      unfold Setting.arch SourceState.jump SourceState.write
      rw [target, follows]
  | jalr rd rs1 offset =>
      obtain ⟨_, means⟩ := Option.ite_none_right_eq_some.mp means
      cases means
      obtain ⟨line, stands, rfl⟩ := Option.map_eq_some_iff.mp stepped
      refine ⟨id, congrArg some ?_⟩
      unfold Setting.arch SourceState.jump SourceState.write
      rw [address_of_lineAt stands, follows]
  | lui rd value =>
      obtain ⟨_, means⟩ := Option.ite_none_right_eq_some.mp means
      cases means
      cases stepped
      exact ⟨id, congrArg some (write _ _)⟩
  | auipc rd value =>
      obtain ⟨_, means⟩ := Option.ite_none_right_eq_some.mp means
      cases means
      cases stepped
      exact ⟨id, congrArg some (write _ _)⟩
  | ecall => cases stepped
  | ebreak =>
      cases means
      cases stepped
      refine ⟨id, congrArg some ?_⟩
      unfold Setting.arch SourceState.next
      rw [follows]

/-- So does a pseudoinstruction. -/
theorem effect_of_stepPseudo {src : PseudoInstr}
    (follows : setting.address (s.line + 1) =
      setting.address s.line + BitVec.ofNat 32 (4 * src.size))
    (stepped : p.stepPseudo setting s src = some s') :
    src.effect (p.symbols setting.address) 0 (setting.arch s) =
      some (setting.arch s') := by
  have absolute (a : Word) : 0 + a = a := BitVec.zero_add a
  cases src with
  | nop =>
      cases stepped
      refine congrArg some ?_
      unfold Setting.arch SourceState.next
      rw [follows]
  | mv rd rs =>
      cases stepped
      refine congrArg some ?_
      unfold Setting.arch SourceState.write
      rw [follows]
  | li rd value =>
      cases stepped
      refine congrArg some ?_
      unfold Setting.arch SourceState.write
      rw [follows]
  | la rd name =>
      obtain ⟨line, carries, rfl⟩ := Option.map_eq_some_iff.mp stepped
      simp only [PseudoInstr.effect, address_of_lineOf carries]
      refine congrArg some ?_
      unfold Setting.arch SourceState.write
      rw [follows, absolute]
  | call target =>
      obtain ⟨line, goes, rfl⟩ := Option.map_eq_some_iff.mp stepped
      simp only [PseudoInstr.effect, address_of_goto goes]
      refine congrArg some ?_
      unfold Setting.arch SourceState.write SourceState.jump
      rw [follows, absolute]
  | j target =>
      obtain ⟨line, goes, rfl⟩ := Option.map_eq_some_iff.mp stepped
      simp only [PseudoInstr.effect, address_of_goto goes]
      refine congrArg some ?_
      unfold Setting.arch SourceState.jump
      rw [absolute]
  | ret =>
      obtain ⟨line, stands, rfl⟩ := Option.map_eq_some_iff.mp stepped
      refine congrArg some ?_
      unfold Setting.arch SourceState.jump
      rw [address_of_lineAt stands]

theorem mem_of_stepInstr (addressable : setting.size ≤ 2 ^ 32) {src : SourceInstr}
    (stepped : p.stepInstr setting s src = some s') {b : Word}
    (inCode : b.toNat < setting.codeSize) : s'.mem b = s.mem b := by
  cases src with
  | store op rs2 offset rs1 =>
      obtain ⟨⟨accessible, behind⟩, stepped⟩ := Option.ite_none_right_eq_some.mp stepped
      cases stepped
      apply Isa.StoreOp.write_of_not_mem
      intro k below same
      have inside := accessible.2
      have position := congrArg BitVec.toNat same
      rw [BitVec.toNat_add, BitVec.toNat_ofNat, Nat.mod_eq_of_lt (by omega : k < 2 ^ 32),
        Nat.mod_eq_of_lt (by omega)] at position
      omega
  | reg op rd rs1 rs2 =>
      simp only [Program.stepInstr] at stepped
      split at stepped <;> cases stepped
      rfl
  | load op rd offset rs1 =>
      obtain ⟨_, stepped⟩ := Option.ite_none_right_eq_some.mp stepped
      cases stepped
      rfl
  | branch op rs1 rs2 target =>
      simp only [Program.stepInstr] at stepped
      split at stepped
      · obtain ⟨line, _, rfl⟩ := Option.map_eq_some_iff.mp stepped
        rfl
      · cases stepped
        rfl
  | jal | jalr =>
      obtain ⟨line, _, rfl⟩ := Option.map_eq_some_iff.mp stepped
      rfl
  | imm | shift | lui | auipc | ebreak =>
      cases stepped
      rfl
  | ecall => cases stepped

theorem mem_of_stepPseudo {src : PseudoInstr} (stepped : p.stepPseudo setting s src = some s') :
    s'.mem = s.mem := by
  cases src with
  | nop | mv | li =>
      cases stepped
      rfl
  | la | call | j | ret =>
      obtain ⟨line, _, rfl⟩ := Option.map_eq_some_iff.mp stepped
      rfl

theorem mem_of_stepStatement (addressable : setting.size ≤ 2 ^ 32) {c : Statement}
    (stepped : p.stepStatement setting s c = some s') {b : Word}
    (inCode : b.toNat < setting.codeSize) : s'.mem b = s.mem b := by
  cases c with
  | instr src => exact mem_of_stepInstr addressable stepped inCode
  | pseudo src => exact congrFun (mem_of_stepPseudo stepped) b

end Effects

end RiscvPack.Asm
