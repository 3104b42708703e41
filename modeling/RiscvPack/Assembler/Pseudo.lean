import RiscvPack.Assembler.RoundTrip
import RiscvPack.Emulator.Run

/-!
# The meaning of pseudoinstructions

An expansion is a list of canonical instructions, so the words it writes are
covered by the round trip of the instructions.  What remains is arithmetic:
the upper and lower parts of a constant add up to it, and an offset computed
from the assembled address is right wherever the image is loaded.
-/

namespace RiscvPack.Asm

open CString Runs Emulator

section Parts

theorem hi20_range (value : Word) :
    -524288 ≤ (hi20 value).toInt ∧ (hi20 value).toInt ≤ 1048575 := by
  obtain ⟨lower, upper⟩ :=
    Bits.toInt_sshiftRight_bounds (value + 0x800) 12 (by decide)
  unfold hi20
  constructor <;> omega

theorem lo12_range (value : Word) :
    -2048 ≤ (lo12 value).toInt ∧ (lo12 value).toInt ≤ 2047 := by
  obtain ⟨lower, upper⟩ := Bits.toInt_sub_rounded value 11 (by decide)
  unfold lo12 hi20
  constructor
  · exact lower
  · exact Int.lt_add_one_iff.mp upper

theorem hi20_add_lo12 (value : Word) :
    hi20 value <<< 12 + lo12 value = value := by
  unfold lo12
  ring

end Parts

/-- The register names the expansions use. -/
def xName (n : Reg) : RegName := ⟨_, n, .numbered n⟩

namespace PseudoInstr

variable {fits : Text → Prop}

/-- The instructions a pseudoinstruction stands for at address `pc`. -/
def expansion [Roomy fits] (labels : List Label) (pc : Word) :
    PseudoInstr fits → Option (List (SourceInstr fits))
  | .nop => some [.imm .addi (xName 0) (xName 0) (.ofWord 0)]
  | .mv rd rs => some [.imm .addi rd rs (.ofWord 0)]
  | .li rd value =>
      if FitsWord value.value then
        let imm := BitVec.ofInt 32 value.value
        if fitsImm12 imm then some [.imm .addi rd (xName 0) (.ofWord imm)]
        else
          some [.lui rd (.ofWord (hi20 imm)), .imm .addi rd rd (.ofWord (lo12 imm))]
      else none
  | .la rd name => do
      let offset := (← (Target.label name).address labels) - pc
      some [.auipc rd (.ofWord (hi20 offset)),
        .imm .addi rd rd (.ofWord (lo12 offset))]
  | .call target => some [.jal (xName 1) target]
  | .j target => some [.jal (xName 0) target]
  | .ret => some [.jalr (xName 0) (xName 1) (.ofWord 0)]

section Texts

variable [Roomy fits] (rd rs : RegName) (value : Word)

private theorem snprintf_text {src : SourceInstr fits} (short : src.form.Fits) :
    snprintf src.text = src.text := by
  have whole := src.form.length_text_lt src.mnemonic short
  exact List.take_of_length_le (by rw [maxLine]; unfold SourceInstr.text; omega)

private theorem fits_addi :
    (.imm .addi rd rs (.ofWord value) : SourceInstr fits).form.Fits :=
  Form.fits_three.mpr ⟨rd.short, rs.short, (Number.ofWord value : Number).short⟩

private theorem fits_lui : (.lui rd (.ofWord value) : SourceInstr fits).form.Fits :=
  Form.fits_two.mpr ⟨rd.short, (Number.ofWord value : Number).short⟩

private theorem fits_auipc :
    (.auipc rd (.ofWord value) : SourceInstr fits).form.Fits :=
  Form.fits_two.mpr ⟨rd.short, (Number.ofWord value : Number).short⟩

private theorem fits_jal {target : Target fits} (short : Short target.text) :
    (SourceInstr.jal rd target).form.Fits :=
  Form.fits_two.mpr ⟨rd.short, by rwa [Target.token_text]⟩

private theorem print_addi :
    snprintf ("addi ".toList ++ rd.text ++ ", ".toList ++ rs.text ++
        ", ".toList ++ printInt value.toInt) =
      (.imm .addi rd rs (.ofWord value) : SourceInstr fits).text := by
  rw [← snprintf_text (fits_addi rd rs value)]
  refine congrArg snprintf ?_
  have mnemonic : immText .addi = "addi".toList := rfl
  simp [SourceInstr.text, SourceInstr.form, SourceInstr.mnemonic, Form.text,
    Mnemonic.ofText, mnemonic, RegName.token, Number.token, Number.ofWord,
    Number.ofInt]

private theorem print_lui :
    snprintf ("lui ".toList ++ rd.text ++ ", ".toList ++ printInt value.toInt) =
      (.lui rd (.ofWord value) : SourceInstr fits).text := by
  rw [← snprintf_text (fits_lui rd value)]
  refine congrArg snprintf ?_
  simp [SourceInstr.text, SourceInstr.form, SourceInstr.mnemonic, Form.text,
    Mnemonic.ofText, RegName.token, Number.token, Number.ofWord, Number.ofInt]

private theorem print_auipc :
    snprintf ("auipc ".toList ++ rd.text ++ ", ".toList ++ printInt value.toInt) =
      (.auipc rd (.ofWord value) : SourceInstr fits).text := by
  rw [← snprintf_text (fits_auipc rd value)]
  refine congrArg snprintf ?_
  simp [SourceInstr.text, SourceInstr.form, SourceInstr.mnemonic, Form.text,
    Mnemonic.ofText, RegName.token, Number.token, Number.ofWord, Number.ofInt]

private theorem print_jal {target : Target fits} (short : Short target.text) :
    snprintf ("jal ".toList ++ rd.text ++ ", ".toList ++ target.text) =
      (SourceInstr.jal rd target).text := by
  rw [← snprintf_text (fits_jal rd short)]
  refine congrArg snprintf ?_
  simp [SourceInstr.text, SourceInstr.form, SourceInstr.mnemonic, Form.text,
    Mnemonic.ofText, RegName.token, Target.token_text]

end Texts

variable {labels : List Label} {pc : Word}

private theorem expand_li {a1 a2 : Text} {imm : Word}
    (parsed : parseImm labels a2 = .ok imm) :
    expandPseudoinstruction labels .li a1 a2 pc =
      if fitsImm12 imm then
        .ok [snprintf ("addi ".toList ++ a1 ++ ", x0, ".toList ++
          printInt imm.toInt)]
      else
        .ok [snprintf ("lui ".toList ++ a1 ++ ", ".toList ++
            printInt (hi20 imm).toInt),
          snprintf ("addi ".toList ++ a1 ++ ", ".toList ++ a1 ++ ", ".toList ++
            printInt (lo12 imm).toInt)] := by
  rw [expandPseudoinstruction, parsed]
  rfl

private theorem expand_la {a1 a2 : Text} {a : Word}
    (found : findLabel labels a2 = .ok a) :
    expandPseudoinstruction labels .la a1 a2 pc =
      .ok [snprintf ("auipc ".toList ++ a1 ++ ", ".toList ++
          printInt (hi20 (a - pc)).toInt),
        snprintf ("addi ".toList ++ a1 ++ ", ".toList ++ a1 ++ ", ".toList ++
          printInt (lo12 (a - pc)).toInt)] := by
  rw [expandPseudoinstruction, found]
  rfl

/-- The texts that `expand_pseudoinstruction` prints are the canonical texts
of the expansion. -/
theorem expandPseudoinstruction_eq [Roomy fits] {src : PseudoInstr fits}
    {expanded : List (SourceInstr fits)} (short : src.form.Fits)
    (expands : src.expansion labels pc = some expanded) :
    expandPseudoinstruction labels src.op
        (src.form.operands src.mnemonic.text).a1
        (src.form.operands src.mnemonic.text).a2 pc =
      .ok (expanded.map SourceInstr.text) := by
  cases src with
  | nop =>
      cases expands
      rfl
  | ret =>
      cases expands
      rfl
  | mv rd rs =>
      cases expands
      rw [List.map_singleton, ← print_addi]
      show Except.ok [snprintf (_ ++ ", 0".toList)] = _
      rw [List.append_assoc (_ ++ rs.text)]
      rfl
  | li rd value =>
      obtain ⟨word, expands⟩ := Option.ite_none_right_eq_some.mp expands
      have parsed := parseImm_number labels value
        (by have := word.1; omega) (by have := word.2; omega)
      refine (expand_li parsed).trans ?_
      split at expands
      · rename_i small
        cases expands
        rw [if_pos small, List.map_singleton, ← print_addi]
        congr 3
        simp [xName, form, Form.operands, RegName.token]
      · rename_i large
        cases expands
        rw [if_neg large, List.map_cons, List.map_singleton, ← print_lui,
          ← print_addi]
        rfl
  | la rd name =>
      obtain ⟨a, address, expands⟩ := Option.bind_eq_some_iff.mp expands
      cases expands
      refine (expand_la (findLabel_of_address labels address)).trans ?_
      rw [List.map_cons, List.map_singleton, ← print_auipc, ← print_addi]
      rfl
  | call target =>
      cases expands
      have short : Short target.text := by
        rw [← target.token_text]
        exact Form.fits_one.mp short
      rw [List.map_singleton, ← print_jal _ short]
      simp only [expandPseudoinstruction, op, form, Form.operands,
        Target.token_text]
      rfl
  | j target =>
      cases expands
      have short : Short target.text := by
        rw [← target.token_text]
        exact Form.fits_one.mp short
      rw [List.map_singleton, ← print_jal _ short]
      simp only [expandPseudoinstruction, op, form, Form.operands,
        Target.token_text]
      rfl

section Emission

variable {st : Pass2} [Roomy fits]

private theorem emitExpanded_of_meaning {instr : SourceInstr fits} {i : Isa.Instr}
    (short : instr.form.Fits)
    (plain : instr.form.processed instr.mnemonic.text = instr.text)
    (means : instr.meaning labels st.pc = some i) :
    ∃ w, emitExpanded labels st instr.text =
        .done (st.emit (Bits.leBytes w)) ∧ Isa.Decodes w i := by
  obtain ⟨w, encoded, decodes⟩ := encodeInstruction_of_meaning means
  have read := readExpanded_form short plain
  refine ⟨w, ?_, decodes⟩
  unfold emitExpanded
  rw [SourceInstr.text, read]
  simp only [emitInstruction, encoded]

theorem fits_expansion {src : PseudoInstr fits} {expanded : List (SourceInstr fits)}
    (short : src.form.Fits) (expands : src.expansion labels pc = some expanded) :
    ∀ instr ∈ expanded, instr.form.Fits := by
  cases src with
  | nop | mv =>
      cases expands
      exact List.forall_mem_singleton.mpr (fits_addi _ _ _)
  | ret =>
      cases expands
      exact List.forall_mem_singleton.mpr (Form.fits_three.mpr
        ⟨(xName 0).short, (xName 1).short, (Number.ofWord 0 : Number).short⟩)
  | li rd value =>
      obtain ⟨_, expands⟩ := Option.ite_none_right_eq_some.mp expands
      split at expands
      · cases expands
        exact List.forall_mem_singleton.mpr (fits_addi _ _ _)
      · cases expands
        exact List.forall_mem_cons.mpr
          ⟨fits_lui _ _, List.forall_mem_singleton.mpr (fits_addi _ _ _)⟩
  | la rd name =>
      obtain ⟨a, _, expands⟩ := Option.bind_eq_some_iff.mp expands
      cases expands
      exact List.forall_mem_cons.mpr
        ⟨fits_auipc _ _, List.forall_mem_singleton.mpr (fits_addi _ _ _)⟩
  | call target | j target =>
      cases expands
      have short := Form.fits_one.mp short
      rw [target.token_text] at short
      exact List.forall_mem_singleton.mpr (fits_jal _ short)

theorem processInstruction_of_expansion {src : PseudoInstr fits}
    {expanded : List (SourceInstr fits)} (short : src.form.Fits)
    (expands : src.expansion labels st.pc = some expanded) :
    processInstructionSecondPass labels st src.text =
      run (emitExpanded labels) st (expanded.map SourceInstr.text) := by
  have isPseudo : Pseudo.ofText (src.form.operands src.mnemonic.text).op =
      some src.op := by
    rw [← src.ofText_mnemonic]
    cases src.form <;> rfl
  unfold processInstructionSecondPass PseudoInstr.text
  rw [readOperands_form short]
  simp only [isPseudo, expandPseudoinstruction_eq short expands]

private theorem emits_one {src : PseudoInstr fits} {instr : SourceInstr fits}
    {i : Isa.Instr} (short : src.form.Fits)
    (expands : src.expansion labels st.pc = some [instr])
    (plain : instr.form.processed instr.mnemonic.text = instr.text)
    (means : instr.meaning labels st.pc = some i) :
    ∃ w, processInstructionSecondPass labels st src.text =
        .done (st.emit (Bits.leBytes w)) ∧ Isa.Decodes w i := by
  have fitting := List.forall_mem_singleton.mp (fits_expansion short expands)
  obtain ⟨w, emitted, decodes⟩ := emitExpanded_of_meaning fitting plain means
  refine ⟨w, ?_, decodes⟩
  rw [processInstruction_of_expansion short expands, List.map_singleton, run_cons,
    emitted]
  rfl

private theorem emits_two {src : PseudoInstr fits} {instr₁ instr₂ : SourceInstr fits}
    {i₁ i₂ : Isa.Instr} (short : src.form.Fits)
    (expands : src.expansion labels st.pc = some [instr₁, instr₂])
    (plain₁ : instr₁.form.processed instr₁.mnemonic.text = instr₁.text)
    (plain₂ : instr₂.form.processed instr₂.mnemonic.text = instr₂.text)
    (means₁ : instr₁.meaning labels st.pc = some i₁)
    (means₂ : ∀ pc, instr₂.meaning labels pc = some i₂) :
    ∃ w₁ w₂, processInstructionSecondPass labels st src.text =
        .done (st.emit (Bits.leBytes w₁ ++ Bits.leBytes w₂)) ∧
      Isa.Decodes w₁ i₁ ∧ Isa.Decodes w₂ i₂ := by
  obtain ⟨fitting₁, fitting₂⟩ := List.forall_mem_cons.mp (fits_expansion short expands)
  obtain ⟨w₁, first, decodes₁⟩ := emitExpanded_of_meaning fitting₁ plain₁ means₁
  obtain ⟨w₂, second, decodes₂⟩ := emitExpanded_of_meaning
    (fitting₂ _ (List.mem_singleton_self _)) plain₂ (means₂ (st.emit (Bits.leBytes w₁)).pc)
  refine ⟨w₁, w₂, ?_, decodes₁, decodes₂⟩
  rw [processInstruction_of_expansion short expands, List.map_cons,
    List.map_singleton, run_cons, first, Outcome.done_andThen, run_cons, second,
    Outcome.done_andThen, run_nil, ← Pass2.emit_append]

end Emission

section Effects

/-- A jump from `pc` to `target` that `jal` can encode. -/
def JalRange (target pc : Word) : Prop :=
  (target - pc).toInt % 2 = 0 ∧ -1048576 ≤ (target - pc).toInt ∧
    (target - pc).toInt ≤ 1048574

instance (target pc : Word) : Decidable (JalRange target pc) :=
  inferInstanceAs (Decidable (_ ∧ _))

/-- The operands are valid at address `pc`: constants fit a word, labels are
defined and jump targets are in range. -/
def Valid (labels : List Label) (pc : Word) : PseudoInstr fits → Prop
  | .nop | .mv _ _ | .ret => True
  | .li _ value => FitsWord value.value
  | .la _ name => ∃ a, (Target.label name).address labels = some a
  | .call target | .j target =>
      ∃ a, target.address labels = some a ∧ JalRange a pc

/-- The number of words a pseudoinstruction occupies. -/
def size : PseudoInstr fits → Nat
  | .li _ value => if fitsImm12 (BitVec.ofInt 32 value.value) then 1 else 2
  | .la _ _ => 2
  | .nop | .mv _ _ | .call _ | .j _ | .ret => 1

/-- The documented effect, for an image loaded at `base`. -/
def effect (labels : List Label) (base : Word) (src : PseudoInstr fits)
    (s : Isa.State) : Option Isa.State :=
  let next := s.pc + BitVec.ofNat 32 (4 * src.size)
  match src with
  | .nop => some { s with pc := next }
  | .mv rd rs => some { s with x := s.x.set rd.number (s.x.get rs.number), pc := next }
  | .li rd value =>
      some { s with
        x := s.x.set rd.number (BitVec.ofInt 32 value.value), pc := next }
  | .la rd name => do
      let a ← (Target.label name).address labels
      some { s with x := s.x.set rd.number (base + a), pc := next }
  | .call target => do
      let a ← target.address labels
      some { s with x := s.x.set 1 next, pc := base + a }
  | .j target => do
      let a ← target.address labels
      some { s with pc := base + a }
  | .ret => some { s with pc := s.x.get 1 &&& ~~~1#32 }

end Effects

section Meanings

variable (rd rs : RegName) {value : Word}

private theorem meaning_addi [Roomy fits]
    (range : -2048 ≤ value.toInt ∧ value.toInt ≤ 2047) (pc : Word) :
    (.imm .addi rd rs (.ofWord value) : SourceInstr fits).meaning labels pc =
      some (.imm .addi rd.number rs.number value) := by
  refine (if_pos range).trans ?_
  rw [Number.ofWord, Number.ofInt, BitVec.ofInt_toInt]

private theorem meaning_lui [Roomy fits]
    (range : -524288 ≤ value.toInt ∧ value.toInt ≤ 1048575) :
    (.lui rd (.ofWord value) : SourceInstr fits).meaning labels pc =
      some (.lui rd.number (value <<< 12)) := by
  refine (if_pos range).trans ?_
  rw [Number.ofWord, Number.ofInt, BitVec.ofInt_toInt]

private theorem meaning_auipc [Roomy fits]
    (range : -524288 ≤ value.toInt ∧ value.toInt ≤ 1048575) :
    (.auipc rd (.ofWord value) : SourceInstr fits).meaning labels pc =
      some (.auipc rd.number (value <<< 12)) := by
  refine (if_pos range).trans ?_
  rw [Number.ofWord, Number.ofInt, BitVec.ofInt_toInt]

private theorem meaning_jal {target : Target fits} {a : Word}
    (address : target.address labels = some a) (range : JalRange a pc) :
    (SourceInstr.jal rd target).meaning labels pc =
      some (.jal rd.number (a - pc)) := by
  simp only [SourceInstr.meaning, address]
  exact if_pos range

end Meanings

private theorem set_parts (x : Isa.RegFile) (r : Reg) (base value : Word) :
    ((x.set r (base + hi20 value <<< 12)).set r
      ((x.set r (base + hi20 value <<< 12)).get r + lo12 value)) =
      x.set r (base + value) := by
  rw [Isa.RegFile.set_set]
  by_cases zero : r = 0
  · rw [zero, Isa.RegFile.set_zero, Isa.RegFile.set_zero]
  · rw [Isa.RegFile.get_set_self _ zero, BitVec.add_assoc, hi20_add_lo12]

private theorem advance_twice (pc : Word) :
    pc + 4 + 4 = pc + BitVec.ofNat 32 (4 * 2) := by
  rw [BitVec.add_assoc]
  rfl

/-- An offset from the assembled address, added to the address at run time. -/
private theorem relocate (base pc a : Word) : base + pc + (a - pc) = base + a := by
  ring

/-- A pseudoinstruction of one word, by what the word does to a state. -/
private theorem words_of_one [Roomy fits] {src : PseudoInstr fits} {st : Pass2}
    {instr : SourceInstr fits} {i : Isa.Instr} (short : src.form.Fits) (size : src.size = 1)
    (expands : src.expansion labels st.pc = some [instr])
    (plain : instr.form.processed instr.mnemonic.text = instr.text)
    (means : instr.meaning labels st.pc = some i) (defined : ∀ s, ¬ Isa.DivOverflow s i)
    (effect : ∀ (base : Word) (s : Isa.State), s.pc = base + st.pc →
      ∃ s', src.effect labels base s = some s' ∧ Isa.exec s i = some s') :
    ∃ words : List Word, words.length = src.size ∧
      processInstructionSecondPass labels st src.text =
        .done (st.emit (words.flatMap Bits.leBytes)) ∧
      ∀ (σ : Type) (h : Host σ) (m : Machine σ) (base : Word),
        m.cpu.pc = base + st.pc → m.Ready src.size →
        Machine.Loaded m.mem.data m.cpu.pc (words.flatMap Bits.leBytes) →
        ∃ s m', src.effect labels base m.arch = some s ∧
          Machine.Steps h src.size m m' ∧ m.Reaches s m' := by
  obtain ⟨w, processed, decodes⟩ := emits_one short expands plain means
  rw [size]
  refine ⟨[w], rfl, by simpa using processed, ?_⟩
  intro σ h m base at_ ready loaded
  obtain ⟨s, effected, executed⟩ := effect base m.arch at_
  obtain ⟨m', steps, reaches⟩ := Machine.steps_one h ready (by simpa using loaded) decodes
    (defined m.arch) executed
  exact ⟨s, m', effected, steps, reaches⟩

/-- One of two words, the first of which only writes a register. -/
private theorem words_of_two [Roomy fits] {src : PseudoInstr fits} {st : Pass2}
    {instr₁ instr₂ : SourceInstr fits} {i₁ i₂ : Isa.Instr} {r : Reg}
    {value : Isa.State → Word} (short : src.form.Fits) (size : src.size = 2)
    (expands : src.expansion labels st.pc = some [instr₁, instr₂])
    (plain₁ : instr₁.form.processed instr₁.mnemonic.text = instr₁.text)
    (plain₂ : instr₂.form.processed instr₂.mnemonic.text = instr₂.text)
    (means₁ : instr₁.meaning labels st.pc = some i₁)
    (means₂ : ∀ pc, instr₂.meaning labels pc = some i₂)
    (defined₁ : ∀ s, ¬ Isa.DivOverflow s i₁) (defined₂ : ∀ s, ¬ Isa.DivOverflow s i₂)
    (first : ∀ s, Isa.exec s i₁ = some (s.writeNext r (value s)))
    (effect : ∀ (base : Word) (s : Isa.State), s.pc = base + st.pc →
      ∃ s', src.effect labels base s = some s' ∧
        Isa.exec (s.writeNext r (value s)) i₂ = some s') :
    ∃ words : List Word, words.length = src.size ∧
      processInstructionSecondPass labels st src.text =
        .done (st.emit (words.flatMap Bits.leBytes)) ∧
      ∀ (σ : Type) (h : Host σ) (m : Machine σ) (base : Word),
        m.cpu.pc = base + st.pc → m.Ready src.size →
        Machine.Loaded m.mem.data m.cpu.pc (words.flatMap Bits.leBytes) →
        ∃ s m', src.effect labels base m.arch = some s ∧
          Machine.Steps h src.size m m' ∧ m.Reaches s m' := by
  obtain ⟨w₁, w₂, processed, decodes₁, decodes₂⟩ :=
    emits_two short expands plain₁ plain₂ means₁ means₂
  rw [size]
  refine ⟨[w₁, w₂], rfl, by simpa using processed, ?_⟩
  intro σ h m base at_ ready loaded
  obtain ⟨s, effected, executed⟩ := effect base m.arch at_
  obtain ⟨m', steps, reaches⟩ := Machine.steps_two h ready (by simpa using loaded) decodes₁
    decodes₂ (defined₁ m.arch) (defined₂ _) (first m.arch) executed
  exact ⟨s, m', effected, steps, reaches⟩

/-- The words of a pseudoinstruction and what they do, wherever the image is
loaded. -/
theorem words_of_valid [Roomy fits] {src : PseudoInstr fits} {st : Pass2}
    (short : src.form.Fits) (valid : src.Valid labels st.pc) :
    ∃ words : List Word, words.length = src.size ∧
      processInstructionSecondPass labels st src.text =
        .done (st.emit (words.flatMap Bits.leBytes)) ∧
      ∀ (σ : Type) (h : Host σ) (m : Machine σ) (base : Word),
        m.cpu.pc = base + st.pc → m.Ready src.size →
        Machine.Loaded m.mem.data m.cpu.pc (words.flatMap Bits.leBytes) →
        ∃ s m', src.effect labels base m.arch = some s ∧
          Machine.Steps h src.size m m' ∧ m.Reaches s m' := by
  cases src with
  | nop =>
      apply words_of_one short rfl rfl rfl (meaning_addi _ _ (by decide) _) (fun _ => id)
      intro base s _
      have same (value : Word) : s.x.set (xName 0).number value = s.x := s.x.set_zero value
      refine ⟨_, rfl, congrArg some ?_⟩
      rw [Isa.State.writeNext, same]
      rfl
  | ret =>
      have means : (.jalr (xName 0) (xName 1) (.ofWord 0) : SourceInstr fits).meaning
          labels st.pc = some (.jalr 0 1 0) := rfl
      apply words_of_one short rfl rfl rfl means (fun _ => id)
      intro base s _
      have plain : s.x.get 1 + 0 = s.x.get 1 := BitVec.add_zero _
      refine ⟨_, rfl, congrArg some ?_⟩
      rw [Isa.RegFile.set_zero, plain]
  | mv rd rs =>
      apply words_of_one short rfl rfl rfl (meaning_addi _ _ (by decide) _) (fun _ => id)
      intro base s _
      have copied : Isa.ImmOp.eval (s.x.get rs.number) 0 .addi = s.x.get rs.number :=
        BitVec.add_zero _
      refine ⟨_, rfl, congrArg some ?_⟩
      rw [copied]
      rfl
  | li rd value =>
      have word : FitsWord value.value := valid
      by_cases small : fitsImm12 (BitVec.ofInt 32 value.value)
      · have one : (PseudoInstr.li rd value).size = 1 := if_pos small
        have range := small
        simp only [fitsImm12, Bool.and_eq_true, decide_eq_true_eq] at range
        have expands : (PseudoInstr.li rd value).expansion labels st.pc =
            some [.imm .addi rd (xName 0)
              (.ofWord (BitVec.ofInt 32 value.value))] := by
          simp only [expansion, if_pos word, if_pos small]
        apply words_of_one short one expands rfl (meaning_addi _ _ range _) (fun _ => id)
        intro base s _
        have sum : Isa.ImmOp.eval (s.x.get (xName 0).number)
            (BitVec.ofInt 32 value.value) .addi = BitVec.ofInt 32 value.value := by
          show s.x.get 0 + _ = _
          rw [s.x.get_zero]
          exact BitVec.zero_add _
        refine ⟨_, rfl, congrArg some ?_⟩
        rw [sum, one]
        rfl
      · have two : (PseudoInstr.li rd value).size = 2 := if_neg small
        have expands : (PseudoInstr.li rd value).expansion labels st.pc =
            some [.lui rd (.ofWord (hi20 (BitVec.ofInt 32 value.value))),
              .imm .addi rd rd
                (.ofWord (lo12 (BitVec.ofInt 32 value.value)))] := by
          simp only [expansion, if_pos word, if_neg small]
        apply words_of_two short two expands rfl rfl (meaning_lui _ (hi20_range _))
          (meaning_addi _ _ (lo12_range _)) (fun _ => id) (fun _ => id) (fun _ => rfl)
        intro base s _
        have sum := set_parts s.x rd.number 0 (BitVec.ofInt 32 value.value)
        have zero (v : Word) : 0 + v = v := BitVec.zero_add v
        rw [zero, zero] at sum
        have file : _ = s.x.set rd.number (BitVec.ofInt 32 value.value) := sum
        refine ⟨_, rfl, congrArg some ?_⟩
        rw [two, ← file, ← advance_twice]
        rfl
  | la rd name =>
      obtain ⟨a, address⟩ := valid
      have expands : (PseudoInstr.la rd name).expansion labels st.pc =
          some [.auipc rd (.ofWord (hi20 (a - st.pc))),
            .imm .addi rd rd (.ofWord (lo12 (a - st.pc)))] := by
        simp only [expansion, address]
        rfl
      apply words_of_two short rfl expands rfl rfl (meaning_auipc _ (hi20_range _))
        (meaning_addi _ _ (lo12_range _)) (fun _ => id) (fun _ => id) (fun _ => rfl)
      intro base s at_
      have file := set_parts s.x rd.number s.pc (a - st.pc)
      rw [show s.pc + (a - st.pc) = base + a from
        (congrArg (· + (a - st.pc)) at_).trans (relocate ..)] at file
      refine ⟨_, by simp only [effect, address]; rfl, congrArg some ?_⟩
      show _ = { s with
        x := s.x.set rd.number (base + a)
        pc := s.pc + BitVec.ofNat 32 (4 * 2) }
      rw [← advance_twice, ← file]
      rfl
  | call target =>
      obtain ⟨a, address, range⟩ := valid
      apply words_of_one short rfl rfl rfl (meaning_jal _ address range) (fun _ => id)
      intro base s at_
      have target : s.pc + (a - st.pc) = base + a :=
        (congrArg (· + (a - st.pc)) at_).trans (relocate ..)
      refine ⟨_, by simp only [effect, address]; rfl, congrArg some ?_⟩
      rw [target]
      rfl
  | j target =>
      obtain ⟨a, address, range⟩ := valid
      apply words_of_one short rfl rfl rfl (meaning_jal _ address range) (fun _ => id)
      intro base s at_
      have target : s.pc + (a - st.pc) = base + a :=
        (congrArg (· + (a - st.pc)) at_).trans (relocate ..)
      have unlinked (value : Word) : s.x.set (xName 0).number value = s.x :=
        s.x.set_zero value
      refine ⟨_, by simp only [effect, address]; rfl, congrArg some ?_⟩
      rw [target, unlinked]

end PseudoInstr

end RiscvPack.Asm
