import RiscvPack.Assembler.SourceFile

/-!
# Loading at another address

The code of a statement, run at some distance from where it was assembled.
Branches, jumps and `la` only see the distance of a label, so they mean the
label at its new address; a target that is a number does not move.
-/

namespace RiscvPack.Asm

open CString Runs Emulator

/-- A label that has moved by `d`. -/
def Label.shift (d : Word) (label : Label) : Label := { label with addr := d + label.addr }

/-- A target that moves with the code, unless the code stays. -/
def Target.Moves (d : Word) (target : Target) : Prop := d = 0 ∨ ∃ name, target = .label name

def Statement.target : Statement → Option Target
  | .instr (.branch _ _ _ target) | .instr (.jal _ target) => some target
  | .pseudo (.call target) | .pseudo (.j target) => some target
  | _ => none

def Statement.Moves (d : Word) (c : Statement) : Prop := ∀ target ∈ c.target, target.Moves d

def Program.Moves (d : Word) (p : Program) : Prop :=
  ∀ line ∈ p.lines, ∀ c ∈ line.statement, c.Moves d

section Labels

variable {labels : List Label} {d : Word}

theorem address_label_shift (name : Identifier) :
    (Target.label name).address (labels.map (Label.shift d)) =
      ((Target.label name).address labels).map (d + ·) := by
  simp only [Target.address, List.find?_map, Option.map_map]
  rfl

theorem labels_shift_zero : labels.map (Label.shift 0) = labels := by
  have same (label : Label) : label.shift 0 = label := by
    unfold Label.shift
    rw [show 0 + label.addr = label.addr from BitVec.zero_add _]
  rw [List.map_congr_left fun label _ => same label, List.map_id']

theorem address_shift {target : Target} (moves : target.Moves d) :
    target.address (labels.map (Label.shift d)) = (target.address labels).map (d + ·) := by
  rcases moves with rfl | ⟨name, rfl⟩
  · have zero : ((0 : Word) + ·) = id := funext fun a => BitVec.zero_add a
    rw [labels_shift_zero, zero, Option.map_id]
    rfl
  · exact address_label_shift name

theorem symbols_shift (p : Program) (address : Nat → Word) :
    p.symbols (fun k => d + address k) = (p.symbols address).map (Label.shift d) := by
  have lines (k : Nat) (lines : List ProgramLine) :
      Program.symbolsFrom (fun k => d + address k) k lines =
        (Program.symbolsFrom address k lines).map (Label.shift d) := by
    induction lines generalizing k with
    | nil => rfl
    | cons line lines induction =>
        rw [Program.symbolsFrom, Program.symbolsFrom, induction, List.map_append]
        congr 1
        unfold ProgramLine.symbol
        cases line.label <;> rfl
  exact lines 0 p.lines

theorem address_symbols_shift (f : SourceFile) (d : Word) (target : Target) :
    target.address (f.program.symbols fun k => d + f.address k) =
      target.address (f.symbols.map (Label.shift d)) := by
  rw [symbols_shift]
  cases target with
  | number n => rfl
  | label name => rw [address_label_shift, address_label_shift, f.address_symbols]

theorem distance_shift (d a pc : Word) : d + a - (d + pc) = a - pc := by
  ring

theorem meaning_shift {src : SourceInstr} (moves : (Statement.instr src).Moves d) (pc : Word) :
    src.meaning (labels.map (Label.shift d)) (d + pc) = src.meaning labels pc := by
  cases src with
  | branch op rs1 rs2 target =>
      have address : target.address (labels.map (Label.shift d)) = _ :=
        address_shift (moves target rfl)
      simp only [SourceInstr.meaning, address]
      cases target.address labels with
      | none => rw [Option.map_none, Option.bind_eq_bind, Option.bind_none, Option.bind_none]
      | some a =>
          rw [Option.map_some, Option.bind_eq_bind, Option.bind_some, Option.bind_some,
            distance_shift]
  | jal rd target =>
      have address : target.address (labels.map (Label.shift d)) = _ :=
        address_shift (moves target rfl)
      simp only [SourceInstr.meaning, address]
      cases target.address labels with
      | none => rw [Option.map_none, Option.bind_eq_bind, Option.bind_none, Option.bind_none]
      | some a =>
          rw [Option.map_some, Option.bind_eq_bind, Option.bind_some, Option.bind_some,
            distance_shift]
  | reg | imm | shift | load | store | jalr | lui | auipc | ecall | ebreak =>
      simp only [SourceInstr.meaning]

theorem effect_shift {src : PseudoInstr} (moves : (Statement.pseudo src).Moves d)
    (s : Isa.State) :
    src.effect (labels.map (Label.shift d)) 0 s = src.effect labels d s := by
  have absolute (a : Word) : 0 + a = a := BitVec.zero_add a
  cases src with
  | la rd name =>
      simp only [PseudoInstr.effect, address_label_shift]
      cases (Target.label name).address labels with
      | none => rfl
      | some a => simp only [Option.map_some, bind, Option.bind, absolute]
  | call target | j target =>
      have address : target.address (labels.map (Label.shift d)) = _ :=
        address_shift (moves target rfl)
      simp only [PseudoInstr.effect, address]
      cases target.address labels with
      | none => rfl
      | some a => simp only [Option.map_some, bind, Option.bind, absolute]
  | nop | mv | li | ret => rfl

section Congruence

variable {labels' : List Label} (same : ∀ target : Target,
  target.address labels = target.address labels')

include same

/-- Instructions see labels only through their addresses. -/
theorem meaning_congr (src : SourceInstr) (pc : Word) :
    src.meaning labels pc = src.meaning labels' pc := by
  cases src with
  | branch | jal => simp only [SourceInstr.meaning, same]
  | reg | imm | shift | load | store | jalr | lui | auipc | ecall | ebreak => rfl

theorem effect_congr (src : PseudoInstr) (base : Word) (s : Isa.State) :
    src.effect labels base s = src.effect labels' base s := by
  cases src with
  | la | call | j => simp only [PseudoInstr.effect, same]
  | nop | mv | li | ret => rfl

end Congruence

end Labels

section Code

/-- The code that the second pass emits for a statement executes it wherever it
is loaded. -/
theorem Statement.runs {c : Statement} {labels : List Label} {st : Pass2} {code : List Byte}
    {d : Word} (encodable : c.Encodable labels st.pc) (moves : c.Moves d)
    (processed : processInstructionSecondPass labels st c.text = .done (st.emit code)) :
    code.length = 4 * c.size ∧
      ∀ (σ : Type) (h : Host σ) (m : Machine σ) (s : Isa.State), m.cpu.pc = d + st.pc →
        m.Ready c.size → Machine.Loaded m.mem.data m.cpu.pc code →
        c.Effect (labels.map (Label.shift d)) m.arch s →
        ∃ m', Machine.Steps h c.size m m' ∧ m.Reaches s m' := by
  cases c with
  | instr src =>
      obtain ⟨i, means⟩ := Option.isSome_iff_exists.mp encodable
      obtain ⟨w, emits, decodes⟩ := processInstruction_of_meaning src.form.fits_of_short means
      have code : code = Bits.leBytes w :=
        Pass2.emit_inj.mp (Outcome.done.inj (processed.symm.trans emits))
      subst code
      refine ⟨Bits.length_leBytes w, ?_⟩
      rintro σ h m s pc ready loaded ⟨i', means', defined, effect⟩
      have here : m.arch.pc = d + st.pc := pc
      rw [here, meaning_shift moves] at means'
      cases Option.some.inj (means'.symm.trans means)
      exact Machine.steps_one h ready loaded decodes defined effect
  | pseudo src =>
      have valid : src.Valid labels st.pc := encodable
      obtain ⟨words, count, emits, runs⟩ := PseudoInstr.words_of_valid src.form.fits_of_short valid
      have code : code = words.flatMap Bits.leBytes :=
        Pass2.emit_inj.mp (Outcome.done.inj (processed.symm.trans emits))
      subst code
      refine ⟨?_, ?_⟩
      · rw [List.length_flatMap]
        simp [count, Statement.size, Nat.mul_comm]
      · rintro σ h m s pc ready loaded effect
        have effect : src.effect (labels.map (Label.shift d)) 0 m.arch = some s := effect
        rw [effect_shift moves] at effect
        obtain ⟨s', m', does, steps, reaches⟩ := runs σ h m d pc ready loaded
        cases Option.some.inj (does.symm.trans effect)
        exact ⟨m', steps, reaches⟩

end Code

end RiscvPack.Asm
