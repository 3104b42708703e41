import RiscvPack.Assembler.WholeRun

/-!
# Programs that assemble

The other direction of the image of a program: when every statement can be
encoded, both passes get to the end of the file.  Only a label that is defined
twice stops them, in the first pass.
-/

namespace RiscvPack.Asm

open CString Runs Emulator

/-- The labels that some lines define. -/
def definedNames (lines : List ProgramLine) : List Identifier := lines.filterMap (·.label)

theorem definedNames_append (front back : List ProgramLine) :
    definedNames (front ++ back) = definedNames front ++ definedNames back :=
  List.filterMap_append

theorem definedNames_singleton (line : ProgramLine) :
    definedNames [line] = line.label.toList := by
  unfold definedNames
  rw [List.filterMap_cons]
  cases line.label <;> rfl

theorem names_symbolsFrom (address : Nat → Word) (k : Nat) (lines : List ProgramLine) :
    (Program.symbolsFrom address k lines).map (·.name) =
      (definedNames lines).map Identifier.text := by
  induction lines generalizing k with
  | nil => rfl
  | cons line lines induction =>
      have here : (line.symbol (address k)).map (·.name) =
          line.label.toList.map Identifier.text := by
        unfold ProgramLine.symbol
        cases line.label <;> rfl
      have split : definedNames (line :: lines) = line.label.toList ++ definedNames lines := by
        rw [← definedNames_singleton, ← definedNames_append]
        rfl
      rw [Program.symbolsFrom, List.map_append, here, induction, split, List.map_append]

section FirstPass

variable {asm asm' : Assembler} {line : ProgramLine}

theorem Statement.sized {c : Statement} (foreseen : c.Foreseen) (labels : List Label) :
    ∃ size, pseudoinstructionSize labels (parseSimpleArgs c.text).op
      (parseSimpleArgs c.text).a2 = .ok size := by
  rw [c.parseSimpleArgs_op]
  unfold pseudoinstructionSize
  cases c with
  | instr src =>
      have none : Pseudo.ofText (Statement.instr src).mnemonic.text = none := src.not_pseudo
      rw [none]
      exact ⟨_, rfl⟩
  | pseudo src =>
      have some : Pseudo.ofText (Statement.pseudo src).mnemonic.text = some src.op :=
        src.ofText_mnemonic
      rw [some]
      cases src with
      | nop | mv | la | call | j | ret => exact ⟨_, rfl⟩
      | li rd value =>
          obtain ⟨imm, parsed, _⟩ := foreseen
          have operand : (parseSimpleArgs (Statement.pseudo (.li rd value)).text).a2 =
              value.text.take 30 := parseSimpleArgs_two _ _ _
          rw [operand]
          simp only [PseudoInstr.op, if_pos (head_take value.numeral),
            parseImm_take value.numeral, parsed]
          cases small : fitsImm12 imm with
          | true => exact ⟨1, by simp [bind, Except.bind, small]⟩
          | false => exact ⟨2, by simp [bind, Except.bind, small]⟩

theorem processInstructionFirstPass_done {c : Statement} (foreseen : c.Foreseen)
    (asm : Assembler) : ∃ asm', processInstructionFirstPass asm c.text = .ok asm' := by
  obtain ⟨size, sized⟩ := c.sized foreseen asm.labels
  unfold processInstructionFirstPass
  simp only [sized]
  exact ⟨_, rfl⟩

theorem processLabel_identifier (asm : Assembler) (name : Identifier) :
    processLabel asm name.text =
      if asm.labels.any (·.name = name.text) then
        .error (.exit ("Duplicate label: ".toList ++ name.text))
      else .ok (addLabel asm name.text) := by
  obtain ⟨named, text⟩ := name.trim_take
  unfold processLabel
  simp only
  rw [if_neg named, text]

/-- The label of a line is not among the labels so far. -/
def FreshAt (asm : Assembler) (line : ProgramLine) : Prop :=
  ∀ name ∈ line.label, name.text ∉ asm.labels.map (·.name)

theorem processLabel_done_iff (name : Identifier) :
    (∃ labelled, processLabel asm name.text = .ok labelled) ↔
      name.text ∉ asm.labels.map (·.name) := by
  have known : asm.labels.any (·.name = name.text) = true ↔
      name.text ∈ asm.labels.map (·.name) := by
    simp only [List.any_eq_true, decide_eq_true_eq, List.mem_map]
  rw [processLabel_identifier, ← known]
  split
  · rename_i duplicate
    exact iff_of_false (by rintro ⟨_, result⟩; cases result) (not_not.mpr duplicate)
  · rename_i fresh
    exact iff_of_true ⟨_, rfl⟩ fresh

theorem getCurrentSection_of_processLabel {labelled : Assembler} {before : Text}
    (processed : processLabel asm before = .ok labelled) :
    labelled.getCurrentSection = asm.getCurrentSection := by
  rw [processLabel_eq processed]
  exact withLabel_getCurrentSection _ _

/-- In `.text` a line is passed unless its label is there already. -/
theorem firstPassContent_done_iff (text : asm.getCurrentSection.type = .text)
    (foreseen : ∀ c ∈ line.statement, c.Foreseen) (nonempty : line.text ≠ []) :
    (∃ asm', firstPassContent asm line.text = .ok asm') ↔ FreshAt asm line := by
  obtain ⟨label, statement⟩ := line
  cases label with
  | none =>
      refine iff_of_true ?_ (fun name member => by cases member)
      cases statement with
      | none => exact absurd rfl nonempty
      | some c =>
          obtain ⟨asm', processed⟩ := processInstructionFirstPass_done (foreseen c rfl) asm
          refine ⟨asm', ?_⟩
          show firstPassContent asm c.text = _
          unfold firstPassContent
          rw [c.strchr_colon]
          simp only
          rw [if_neg (c.head_text (by decide)), if_pos text, processed]
  | some name =>
      have fresh : FreshAt asm ⟨some name, statement⟩ ↔
          name.text ∉ asm.labels.map (·.name) := by
        constructor
        · intro all
          exact all name rfl
        · intro absent other member
          cases member
          exact absent
      rw [fresh, ← processLabel_done_iff]
      cases statement with
      | none =>
          have content : firstPassContent asm (name.text ++ [':']) =
              processLabel asm name.text >>= fun labelled => .ok labelled := by
            unfold firstPassContent
            rw [name.strchr_colon]
            rfl
          show (∃ asm', firstPassContent asm (name.text ++ [':']) = .ok asm') ↔ _
          rw [content]
          exact bind_succeeds_iff fun labelled _ => ⟨labelled, rfl⟩
      | some c =>
          have stripped := c.stripped_text
          have behind : skipSpaces (' ' :: c.text) = c.text :=
            skipSpaces_of_head stripped.trimmed.head
          have item : c.text ≠ [] ∧ c.text.head? ≠ some '#' :=
            ⟨c.text_ne_nil, c.head_text (by decide)⟩
          have content : firstPassContent asm (name.text ++ ':' :: ' ' :: c.text) =
              processLabel asm name.text >>= fun labelled =>
                if labelled.getCurrentSection.type = .text then
                  processInstructionFirstPass labelled c.text
                else if c.text.head? = some '.' then processDirective labelled c.text
                else .ok labelled := by
            unfold firstPassContent
            rw [name.strchr_colon]
            simp only [behind, if_pos item]
          show (∃ asm', firstPassContent asm (name.text ++ ':' :: ' ' :: c.text) = .ok asm') ↔ _
          rw [content]
          refine bind_succeeds_iff fun labelled defined => ?_
          have still : labelled.getCurrentSection.type = .text := by
            rw [getCurrentSection_of_processLabel defined]
            exact text
          obtain ⟨asm', processed⟩ := processInstructionFirstPass_done (foreseen c rfl) labelled
          refine ⟨asm', ?_⟩
          rw [if_pos still]
          exact processed

theorem firstPassLine_done_iff (text : asm.getCurrentSection.type = .text)
    (foreseen : ∀ c ∈ line.statement, c.Foreseen) :
    (∃ asm', firstPassLine asm line.text = .done asm') ↔ FreshAt asm line := by
  have content := line.read_text
  rw [firstPassLine_eq]
  by_cases blank : line.text = []
  · rw [if_pos blank] at content
    rw [content]
    refine iff_of_true ⟨asm, rfl⟩ fun name member => ?_
    rw [(line.text_eq_nil_iff.mp blank).1] at member
    cases member
  · rw [if_neg blank] at content
    rw [content, ← firstPassContent_done_iff text foreseen blank]
    simp only [firstPassRead]
    cases firstPassContent asm line.text with
    | ok asm' => exact iff_of_true ⟨asm', rfl⟩ ⟨asm', rfl⟩
    | error reason =>
        refine iff_of_false ?_ ?_
        · rintro ⟨_, result⟩
          cases result
        · rintro ⟨_, result⟩
          cases result

variable {lines front more back : List ProgramLine}

/-- Behind some lines of a program the fresh labels are those that the lines do
not define. -/
theorem Counted.freshAt_iff (counted : Counted lines front asm) :
    FreshAt asm line ↔ ∀ name ∈ line.label, name ∉ definedNames front := by
  unfold FreshAt
  rw [counted.labels, names_symbolsFrom]
  apply forall_congr'
  intro name
  apply imp_congr_right
  intro _
  rw [not_iff_not, List.mem_map]
  constructor
  · rintro ⟨other, member, same⟩
    rwa [← Identifier.text_inj.mp same]
  · intro member
    exact ⟨name, member, rfl⟩

theorem nodup_definedNames_snoc (distinct : (definedNames front).Nodup) :
    (definedNames (front ++ [line])).Nodup ↔
      ∀ name ∈ line.label, name ∉ definedNames front := by
  rw [definedNames_append, definedNames_singleton, List.nodup_append']
  cases line.label with
  | none => simp [distinct]
  | some name => simp [distinct]

/-- The first pass ends when the labels are distinct.  The induction is on the
lines ahead, with those behind counted. -/
theorem run_firstPass_done_iff (counted : Counted lines front asm)
    (split : lines = front ++ more ++ back) (distinct : (definedNames front).Nodup)
    (foreseen : ∀ line ∈ more, ∀ c ∈ line.statement, c.Foreseen) :
    (∃ asm', run firstPassLine asm (more.map ProgramLine.text) = .done asm') ↔
      (definedNames (front ++ more)).Nodup := by
  induction more generalizing front asm with
  | nil =>
      rw [List.append_nil]
      exact iff_of_true ⟨asm, rfl⟩ distinct
  | cons line more induction =>
      have here : lines = front ++ line :: (more ++ back) := by
        rw [split]
        simp
      have there : lines = front ++ [line] ++ more ++ back := by
        rw [split]
        simp
      have text : asm.getCurrentSection.type = .text := by
        rw [counted.formed.currentType, counted.current]
        rfl
      have first := foreseen line List.mem_cons_self
      have others : ∀ l ∈ more, ∀ c ∈ l.statement, c.Foreseen :=
        fun l member => foreseen l (List.mem_cons_of_mem _ member)
      have done := firstPassLine_done_iff text first
      rw [counted.freshAt_iff, ← nodup_definedNames_snoc distinct] at done
      rw [List.append_cons]
      constructor
      · rintro ⟨asm', ran⟩
        obtain ⟨middle, stepped, rest⟩ := run_cons_eq_done.mp ran
        have next := counted.step here first stepped
        exact (induction next there (done.mp ⟨middle, stepped⟩) others).mp ⟨asm', rest⟩
      · intro all
        have fresh : (definedNames (front ++ [line])).Nodup := by
          rw [definedNames_append] at all
          exact all.of_append_left
        obtain ⟨middle, stepped⟩ := done.mpr fresh
        have next := counted.step here first stepped
        obtain ⟨asm', rest⟩ := (induction next there fresh others).mpr all
        exact ⟨asm', run_cons_eq_done.mpr ⟨middle, stepped, rest⟩⟩

end FirstPass

section SecondPass

variable {lines front more back : List ProgramLine} {asm : Assembler} {st : Pass2}
  {code : List Byte}

theorem run_secondPass_done (text : (asm.sections.find? textName).map (·.type) = some .text)
    (encodable : ∀ (k : Nat) (line : ProgramLine), lines[k]? = some line →
      ∀ c ∈ line.statement, c.Encodable asm.labels (wordAddress lines k))
    (split : lines = front ++ more ++ back) (written : Written front st code) :
    ∃ st', run (secondPassLine asm) st (more.map ProgramLine.text) = .done st' := by
  induction more generalizing front st code with
  | nil => exact ⟨st, rfl⟩
  | cons line more induction =>
      have here : lines = front ++ line :: (more ++ back) := by
        rw [split]
        simp
      have there : lines = front ++ [line] ++ more ++ back := by
        rw [split]
        simp
      have encodableHere := encodable front.length line (getElem?_split here)
      rw [here, wordAddress_append] at encodableHere
      have current : st.currentSectionName = textName := by
        rw [written.state]
        rfl
      obtain ⟨middle, stepped⟩ : ∃ middle, secondPassLine asm st line.text = .done middle := by
        rw [secondPassLine_text text current]
        cases statement : line.statement with
        | none => exact ⟨st, rfl⟩
        | some c =>
            have valid := encodableHere c statement
            rw [← written.pc] at valid
            obtain ⟨added, _, processed, _⟩ := Statement.executes_of_encodable valid
            exact ⟨_, processed⟩
      obtain ⟨added, next, _, _⟩ := written.step text encodableHere stepped
      obtain ⟨st', rest⟩ := induction there next
      exact ⟨st', run_cons_eq_done.mpr ⟨middle, stepped, rest⟩⟩

/-- The code of some lines: behind that of the lines before it stands what the
second pass emits there for a statement. -/
structure CodeAt (labels : List Label) (lines : List ProgramLine) (code : List Byte) : Prop where
  length : code.length = 4 * wordCount lines
  encodable : ∀ front line back c, lines = front ++ line :: back → line.statement = some c →
    c.Encodable labels (BitVec.ofNat 32 (4 * wordCount front))
  placed : ∀ front line back c, lines = front ++ line :: back → line.statement = some c →
    ∃ before here after, code = before ++ here ++ after ∧ before.length = 4 * wordCount front ∧
      processInstructionSecondPass labels (Pass2.init.emit before) c.text =
        .done (Pass2.init.emit (before ++ here))

theorem codeAt_of_run (text : (asm.sections.find? textName).map (·.type) = some .text)
    (encodable : ∀ (k : Nat) (line : ProgramLine), lines[k]? = some line →
      ∀ c ∈ line.statement, c.Encodable asm.labels (wordAddress lines k))
    (ran : run (secondPassLine asm) Pass2.init (lines.map ProgramLine.text) = .done st) :
    ∃ code, st = Pass2.init.emit code ∧ CodeAt asm.labels lines code := by
  have start : Written [] Pass2.init [] := ⟨Pass2.init.emit_nil.symm, rfl⟩
  obtain ⟨code, written⟩ := Written.run text encodable
    (by simp : lines = [] ++ lines ++ []) start ran
  refine ⟨code, written.state, written.length, ?_, ?_⟩
  · intro front line back c split statement
    have here := encodable front.length line (getElem?_split split) c statement
    rwa [split, wordAddress_append] at here
  · intro front line back c split statement
    rw [split, List.map_append, List.map_cons] at ran
    obtain ⟨behind, ranFront, ranRest⟩ := run_append_eq_done.mp ran
    obtain ⟨next, stepped, ranBack⟩ := run_cons_eq_done.mp ranRest
    obtain ⟨before, earlier⟩ := Written.run text encodable
      (split : lines = [] ++ front ++ line :: back) start ranFront
    have encodableHere := encodable front.length line (getElem?_split split)
    rw [split, wordAddress_append] at encodableHere
    obtain ⟨here, later, _, _⟩ := earlier.step text encodableHere stepped
    have rest : lines = [] ++ front ++ [line] ++ back ++ [] := by
      rw [split]
      simp
    obtain ⟨after, final⟩ := Written.run text encodable rest later ranBack
    have whole : Pass2.init.emit code = Pass2.init.emit (before ++ here ++ after) :=
      written.state.symm.trans final.state
    refine ⟨before, here, after, Pass2.emit_inj.mp whole, earlier.length, ?_⟩
    have current : behind.currentSectionName = textName := by
      rw [earlier.state]
      rfl
    rw [secondPassLine_text text current, statement, earlier.state, later.state]
      at stepped
    exact stepped

theorem CodeAt.word {labels : List Label} (placed : CodeAt labels lines code)
    {line : ProgramLine} (split : lines = front ++ line :: back) {src : SourceInstr}
    (statement : line.statement = some (.instr src)) :
    ∃ before w after i, code = before ++ Bits.leBytes w ++ after ∧
      before.length = 4 * wordCount front ∧
      src.meaning labels (BitVec.ofNat 32 (4 * wordCount front)) = some i ∧
      Isa.decode w = some i := by
  obtain ⟨before, here, after, image, length, processed⟩ :=
    placed.placed front line back _ split statement
  have pc : (Pass2.init.emit before).pc = BitVec.ofNat 32 (4 * wordCount front) := by
    rw [← length]
    exact BitVec.zero_add _
  obtain ⟨i, means⟩ :=
    Option.isSome_iff_exists.mp (placed.encodable front line back _ split statement)
  obtain ⟨w, emits, decodes⟩ := processInstruction_of_meaning src.form.fits_of_short (pc ▸ means)
  have emits : processInstructionSecondPass labels (Pass2.init.emit before)
      (Statement.instr src).text =
        .done (Pass2.init.emit (before ++ Bits.leBytes w)) := by
    rw [Pass2.emit_append]
    exact emits
  -- What is emitted tells the bytes apart.
  have same : here = Bits.leBytes w :=
    List.append_cancel_left
      (Pass2.emit_inj.mp (Outcome.done.inj (processed.symm.trans emits)))
  rw [same] at image
  exact ⟨before, w, after, i, image, length, means, Isa.decode_eq_some_iff.mpr decodes⟩

end SecondPass

section Programs

variable {p : Program} {source : Text}

theorem firstPass_done_iff (spells : Program.Spells source p) (foreseen : p.Foreseen) :
    (∃ asm, firstPass Assembler.init source = .done asm) ↔ (definedNames p.lines).Nodup := by
  have whole : p.lines = [] ++ p.lines ++ [] := by simp
  have counted := run_firstPass_done_iff (counted_init p.lines) whole List.nodup_nil foreseen
  rw [List.nil_append] at counted
  rw [← counted]
  have texts : run firstPassLine Assembler.init (sourceLines source) =
      run firstPassLine Assembler.init (p.lines.map ProgramLine.text) := by
    rw [← run_firstPassLine_trim, (spells : _ = p.texts), Program.texts, run_append, run_header]
    rfl
  constructor
  · rintro ⟨asm, produced⟩
    obtain ⟨finished, ran, _⟩ := Outcome.andThen_eq_done.mp produced
    have ran : run firstPassLine Assembler.init (sourceLines source) = .done finished := ran
    exact ⟨finished, texts ▸ ran⟩
  · rintro ⟨finished, ran⟩
    exact ⟨_, Outcome.andThen_eq_done.mpr ⟨finished, texts.trans ran, rfl⟩⟩

theorem produced_of_assembled {result : Assembled} (assembled : assemble source = some result) :
    ∃ asm, firstPass Assembler.init source = .done asm ∧
      result.labels = (placedTables asm).labels := by
  obtain ⟨asm, produced, st, _, rfl⟩ := assembleLines_eq_some.mp assembled
  exact ⟨asm, produced, rfl⟩

end Programs

end RiscvPack.Asm
