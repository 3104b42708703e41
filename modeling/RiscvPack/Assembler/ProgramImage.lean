import RiscvPack.Assembler.Main
import RiscvPack.Assembler.SourceMachine

/-!
# The image of a program

What the two passes make of a program of one text section.  The first pass
cuts every operand to thirty characters before it sizes a `li`; when that does
not change the size of any `li`, it puts every line where the second pass
writes it.
-/

namespace RiscvPack.Asm

open CString Runs Files Emulator
open SourceLine (read)

/-- The bytes that the first pass has counted for `.text` behind some lines. -/
def reserved (lines : List Text) : Word :=
  sectionOffset (run firstPassLine Assembler.init lines).last textName

namespace Program

/-- The address that the first pass gives to a line of the program. -/
def firstPassAddress (p : Program) (source : Text) (k : Nat) : Word :=
  reserved ((sourceLines source).take (p.header.length + k))

end Program

/-- The first thirty characters of the numeral of a `li` ask for as many words
as the whole of it. -/
def Statement.Foreseen : Statement → Prop
  | .pseudo (.li _ value) =>
      ∃ imm, parseImm [] (value.text.take 30) = .ok imm ∧
        fitsImm12 imm = fitsImm12 (BitVec.ofInt 32 value.value)
  | _ => True

def Program.Foreseen (p : Program) : Prop :=
  ∀ line ∈ p.lines, ∀ c ∈ line.statement, c.Foreseen

theorem Statement.foreseen_of_short {rd : RegName} {value : Number} (fits : FitsWord value.value)
    (short : value.text.length ≤ 30) : (Statement.pseudo (.li rd value)).Foreseen := by
  obtain ⟨lower, upper⟩ := fits
  refine ⟨_, ?_, rfl⟩
  rw [List.take_of_length_le short]
  exact parseImm_number [] value (by omega) (by omega)

section Sizing

theorem firstWord_form (m : Mnemonic) (form : Form) :
    (form.text m.text).takeWhile (!isspace ·) = m.text := by
  have solid : ∀ c ∈ m.text, isspace c = false :=
    fun c member => isspace_of_tokenChar (m.plain c member)
  cases form with
  | zero =>
      apply List.takeWhile_eq_self_iff.mpr
      intro c member
      rw [solid c member]
      rfl
  | one | two | three | memory => exact takeWhile_solid solid rfl

theorem Statement.parseSimpleArgs_op (c : Statement) :
    (parseSimpleArgs c.text).op = c.mnemonic.text := by
  have word : c.text.takeWhile (!isspace ·) = c.mnemonic.text :=
    firstWord_form c.mnemonic c.form
  have short := c.mnemonic.fits
  rw [op_of_parseSimpleArgs c.stripped_text (by rw [word]; exact short), word]

theorem parseSimpleArgs_two (m : Mnemonic) (a b : Token) :
    (parseSimpleArgs ((Form.two a b).text m.text)).a2 = b.text.take 30 := by
  have short := (Form.two a b).length_text_lt m (Form.fits_of_short _)
  have trimmed := (Form.two a b).trimmed_text m
  have temp : skipSpaces (((Form.two a b).text m.text).take (maxLine - 1)) =
      (Form.two a b).text m.text := by
    rw [List.take_of_length_le (by rw [maxLine]; omega), skipSpaces_of_head trimmed.head]
  have word := firstWord_form m (.two a b)
  have rest : ((Form.two a b).text m.text).dropWhile (!isspace ·) =
      ' ' :: (a.text ++ ',' :: ' ' :: b.text) := by
    have whole : m.text ++ ((Form.two a b).text m.text).dropWhile (!isspace ·) =
        m.text ++ ' ' :: (a.text ++ ',' :: ' ' :: b.text) := by
      nth_rewrite 1 [← word]
      exact List.takeWhile_append_dropWhile
    exact List.append_cancel_left whole
  have first : skipSpaces (' ' :: (a.text ++ ',' :: ' ' :: b.text)) =
      a.text ++ ',' :: ' ' :: b.text := by
    show skipSpaces (a.text ++ ',' :: ' ' :: b.text) = _
    rw [skipSpaces_append_cons rfl, a.skipSpaces_text]
  have solid : ∀ c ∈ b.text.take 30, isspace c = false := fun c member =>
    isspace_of_tokenChar (b.plain c (List.mem_of_mem_take member))
  have cut : Trimmed (b.text.take 30) :=
    ⟨fun c first => solid c (List.mem_of_mem_head? first),
      fun c last => solid c (List.mem_of_mem_getLast? last)⟩
  unfold parseSimpleArgs
  rw [temp]
  simp only
  rw [rest, first, strchr_append (a.not_mem (by decide))]
  simp only
  rw [Token.skipSpaces_space, b.skipSpaces_text, trimInPlace_of_trimmed cut]

theorem startsHex_take (t : Text) (k : Nat) : startsHex (t.take (k + 3)) = startsHex t := by
  match t with
  | [] | [_] | [_, _] => rfl
  | a :: b :: c :: rest =>
      simp only [List.take_succ_cons]
      unfold startsHex
      split
      · simp_all
      · simp_all
      · split <;> simp_all

theorem startsDecimal_take (t : Text) (k : Nat) :
    startsDecimal (t.take (k + 3)) = startsDecimal t := by
  match t with
  | [] | [_] | [_, _] => rfl
  | a :: b :: c :: rest =>
      have plain (s : Text) (other : a ≠ '-') : startsDecimal (a :: s) = a.isDigit := by
        unfold startsDecimal
        split <;> simp_all
      simp only [List.take_succ_cons]
      by_cases minus : a = '-'
      · subst minus
        rfl
      · rw [plain _ minus, plain _ minus]

theorem parseImm_take {t : Text} {n : Int} (numeral : Numeral t n) (labels : List Label) :
    parseImm labels (t.take 30) = parseImm [] (t.take 30) := by
  have hex := startsHex_take t 27
  have decimal := startsDecimal_take t 27
  have starts := starts_of_numeral numeral
  rw [← hex, ← decimal] at starts
  unfold parseImm
  rcases starts with hex | decimal
  · rw [if_pos hex, if_pos hex]
  · rw [if_pos decimal, if_pos decimal]

theorem head_take {t : Text} {n : Int} (numeral : Numeral t n) :
    t.take 30 ≠ [] ∧ ∃ c ∈ (t.take 30).head?, c.isDigit ∨ c = '-' := by
  obtain ⟨c, first, spelled⟩ := head_of_numeral numeral
  have kept : (t.take 30).head? = some c := by
    rw [List.head?_take, if_neg (by decide)]
    exact first
  refine ⟨?_, c, kept, spelled⟩
  intro empty
  rw [empty] at kept
  cases kept

/-- The first pass counts the words of a statement that is foreseen. -/
theorem Statement.reserved_eq {c : Statement} (foreseen : c.Foreseen) {labels : List Label}
    {size : Nat}
    (sized : pseudoinstructionSize labels (parseSimpleArgs c.text).op
      (parseSimpleArgs c.text).a2 = .ok size) :
    (if 0 < size then size * 4 else 4) = 4 * c.size := by
  rw [c.parseSimpleArgs_op] at sized
  unfold pseudoinstructionSize at sized
  cases c with
  | instr src =>
      have none : Pseudo.ofText (Statement.instr src).mnemonic.text = none := src.not_pseudo
      rw [none] at sized
      cases sized
      rfl
  | pseudo src =>
      have some : Pseudo.ofText (Statement.pseudo src).mnemonic.text = some src.op :=
        src.ofText_mnemonic
      rw [some] at sized
      cases src with
      | nop | mv | la | call | j | ret =>
          cases sized
          rfl
      | li rd value =>
          obtain ⟨imm, parsed, agrees⟩ := foreseen
          have operand : (parseSimpleArgs (Statement.pseudo (.li rd value)).text).a2 =
              value.text.take 30 := parseSimpleArgs_two _ _ _
          rw [operand] at sized
          simp only [PseudoInstr.op, if_pos (head_take value.numeral),
            parseImm_take value.numeral, parsed] at sized
          have result : (if fitsImm12 imm = true then Except.ok 1 else Except.ok 2) =
              (Except.ok size : Except Stop Nat) := sized
          rw [agrees] at result
          simp only [Statement.size, PseudoInstr.size]
          split at result
          · rename_i small
            cases result
            rw [if_pos small]
            rfl
          · rename_i large
            cases result
            rw [if_neg large]
            rfl

end Sizing

section FirstPass

theorem firstPassLine_trim (asm : Assembler) (line : Text) :
    firstPassLine asm (trim line) = firstPassLine asm line := by
  unfold firstPassLine
  rw [trim_of_trimmed (trimmed_trim line)]

theorem run_firstPassLine_trim (asm : Assembler) (lines : List Text) :
    run firstPassLine asm (lines.map trim) = run firstPassLine asm lines := by
  induction lines generalizing asm with
  | nil => rfl
  | cons line lines induction =>
      rw [List.map_cons, run_cons, run_cons, firstPassLine_trim]
      simp only [induction]

/-- The number of words of some lines. -/
def wordCount (lines : List ProgramLine) : Nat := (lines.map ProgramLine.size).sum

theorem wordCount_append (front back : List ProgramLine) :
    wordCount (front ++ back) = wordCount front + wordCount back := by
  rw [wordCount, List.map_append, List.sum_append]
  rfl

theorem wordCount_singleton (line : ProgramLine) : wordCount [line] = line.size :=
  Nat.add_zero _

/-- The address of a line when every line takes the words of its statement. -/
def wordAddress (lines : List ProgramLine) (k : Nat) : Word :=
  BitVec.ofNat 32 (4 * wordCount (lines.take k))

variable {lines front back : List ProgramLine} {line : ProgramLine} {asm asm' : Assembler}

theorem wordAddress_append (front back : List ProgramLine) :
    wordAddress (front ++ back) front.length = BitVec.ofNat 32 (4 * wordCount front) := by
  rw [wordAddress, List.take_left]

theorem grown_programLine (formed : WellFormed asm) (current : asm.currentSectionName = textName)
    (foreseen : ∀ c ∈ line.statement, c.Foreseen)
    (stepped : firstPassLine asm line.text = .done asm') :
    Grown (withLabel asm (line.label.map Identifier.text)) (4 * line.size) asm' := by
  have type : asm.getCurrentSection.type = .text := by
    rw [formed.currentType, current]
    rfl
  have content := line.read_text
  by_cases blank : line.text = []
  · rw [if_pos blank] at content
    rw [firstPassLine_eq, content] at stepped
    cases stepped
    obtain ⟨noLabel, noStatement⟩ := line.text_eq_nil_iff.mp blank
    rw [ProgramLine.size, noLabel, noStatement]
    exact .refl asm
  · rw [if_neg blank] at content
    have item := line.contentItem_text blank
    have processed := processed_of_content content stepped
    have counted := firstPassContent_cases line.trimmed_text (fun _ i member => by
      rw [item] at member
      obtain ⟨c, _, rfl⟩ := Option.map_eq_some_iff.mp member
      exact c.head_text (by decide)) processed
    rw [item, line.contentLabel_text] at counted
    cases statement : line.statement with
    | none =>
        rw [statement] at counted
        rw [ProgramLine.size, statement]
        have same : asm' = withLabel asm (line.label.map Identifier.text) := counted
        rw [same]
        exact .refl _
    | some c =>
        rw [statement] at counted
        have reserved : firstPassItem (withLabel asm (line.label.map Identifier.text)) c.text =
            .ok asm' := counted
        rw [firstPassItem, withLabel_getCurrentSection, if_pos type] at reserved
        obtain ⟨size, sized, result⟩ := bind_eq_ok.mp reserved
        cases result
        rw [Statement.reserved_eq (foreseen c statement) sized, ProgramLine.size, statement]
        exact grown_growText _ _

/-- The first pass behind some lines of a program. -/
structure Counted (lines front : List ProgramLine) (asm : Assembler) : Prop where
  formed : WellFormed asm
  current : asm.currentSectionName = textName
  offset : sectionOffset asm textName = BitVec.ofNat 32 (4 * wordCount front)
  labels : asm.labels = Program.symbolsFrom (wordAddress lines) 0 front

theorem counted_init (lines : List ProgramLine) : Counted lines [] Assembler.init where
  formed := wellFormed_init
  current := rfl
  offset := sectionOffset_init textName
  labels := rfl

theorem Counted.step (counted : Counted lines front asm) (split : lines = front ++ line :: back)
    (foreseen : ∀ c ∈ line.statement, c.Foreseen)
    (stepped : firstPassLine asm line.text = .done asm') :
    Counted lines (front ++ [line]) asm' := by
  have grown := grown_programLine counted.formed counted.current foreseen stepped
  have current := (withLabel_currentSectionName asm (line.label.map Identifier.text)).trans
    counted.current
  have here := grown.here
  rw [current, sectionOffset_withLabel, counted.offset, ← BitVec.ofNat_add, ← Nat.mul_add] at here
  refine ⟨(firstPassLine_changes stepped).wellFormed counted.formed, grown.current.trans current,
    ?_, ?_⟩
  · rw [here, wordCount_append, wordCount_singleton]
  · have address : wordAddress lines (0 + front.length) = asm.getCurrentSection.offset := by
      rw [getCurrentSection_offset, counted.current, counted.offset, Nat.zero_add, split,
        wordAddress_append]
    rw [grown.labels, Program.symbolsFrom_append, ← counted.labels, Program.symbolsFrom, address]
    unfold ProgramLine.symbol
    cases line.label with
    | none => simp [withLabel, Program.symbolsFrom]
    | some name =>
        simp only [Option.map_some, withLabel, addLabel, Program.symbolsFrom, List.append_nil,
          counted.current]

theorem Counted.run {more : List ProgramLine} (counted : Counted lines front asm)
    (split : lines = front ++ more ++ back)
    (foreseen : ∀ line ∈ more, ∀ c ∈ line.statement, c.Foreseen)
    (ran : run firstPassLine asm (more.map ProgramLine.text) = .done asm') :
    Counted lines (front ++ more) asm' := by
  induction more generalizing front asm with
  | nil =>
      cases ran
      rwa [List.append_nil]
  | cons line more induction =>
      obtain ⟨middle, stepped, rest⟩ := run_cons_eq_done.mp ran
      have here : lines = front ++ line :: (more ++ back) := by
        rw [split]
        simp
      have next := counted.step here (foreseen line List.mem_cons_self) stepped
      have all := induction next (by rw [split]; simp)
        (fun l member => foreseen l (List.mem_cons_of_mem _ member)) rest
      rwa [List.append_assoc] at all

end FirstPass

section Code

/-- What a statement does to the architectural state. -/
def Statement.Effect (labels : List Label) (s : Isa.State) : Statement → Isa.State → Prop
  | .instr src, s' => ∃ i, src.meaning labels s.pc = some i ∧ ¬ Isa.DivOverflow s i ∧
      Isa.exec s i = some s'
  | .pseudo src, s' => src.effect labels 0 s = some s'

/-- Loaded at its address, the code of a statement has the effect of the statement. -/
def Statement.Executes (labels : List Label) (pc : Word) (c : Statement) (code : List Byte) :
    Prop :=
  ∀ (σ : Type) (h : Host σ) (m : Machine σ) (s : Isa.State), m.cpu.pc = pc → m.Ready c.size →
    Machine.Loaded m.mem.data pc code → c.Effect labels m.arch s →
    ∃ m', Machine.Steps h c.size m m' ∧ m.Reaches s m'

/-- The second pass writes code that executes the statement. -/
theorem Statement.executes_of_encodable {c : Statement} {labels : List Label} {st : Pass2}
    (encodable : c.Encodable labels st.pc) :
    ∃ code, code.length = 4 * c.size ∧
      processInstructionSecondPass labels st c.text = .done (st.emit code) ∧
      c.Executes labels st.pc code := by
  cases c with
  | instr src =>
      obtain ⟨i, means⟩ := Option.isSome_iff_exists.mp encodable
      obtain ⟨w, processed, decodes⟩ := processInstruction_of_meaning src.form.fits_of_short means
      refine ⟨Bits.leBytes w, Bits.length_leBytes w, processed, ?_⟩
      rintro σ h m s pc ready loaded ⟨i', means', defined, effect⟩
      rw [← pc] at means loaded
      have same : i' = i := Option.some.inj (means'.symm.trans means)
      subst same
      exact Machine.steps_one h ready loaded decodes defined effect
  | pseudo src =>
      have valid : src.Valid labels st.pc := encodable
      obtain ⟨words, count, processed, runs⟩ :=
        PseudoInstr.words_of_valid src.form.fits_of_short valid
      refine ⟨words.flatMap Bits.leBytes, ?_, processed, ?_⟩
      · rw [Bits.length_flatMap_leBytes, count]
        rfl
      · rintro σ h m s pc ready loaded effect
        have here : m.cpu.pc = 0 + st.pc := pc.trans (BitVec.zero_add _).symm
        obtain ⟨s', m', does, steps, reaches⟩ := runs σ h m 0 here ready (pc ▸ loaded)
        have effect : src.effect labels 0 m.arch = some s := effect
        have same : s' = s := Option.some.inj (does.symm.trans effect)
        subst same
        exact ⟨m', steps, reaches⟩

end Code

section SecondPass

theorem secondPassLine_trim (asm : Assembler) (st : Pass2) (line : Text) :
    secondPassLine asm st (trim line) = secondPassLine asm st line := by
  unfold secondPassLine
  rw [trim_of_trimmed (trimmed_trim line)]

theorem run_secondPassLine_trim (asm : Assembler) (st : Pass2) (lines : List Text) :
    run (secondPassLine asm) st (lines.map trim) = run (secondPassLine asm) st lines := by
  induction lines generalizing st with
  | nil => rfl
  | cons line lines induction =>
      rw [List.map_cons, run_cons, run_cons, secondPassLine_trim]
      simp only [induction]

variable {lines front back : List ProgramLine} {line : ProgramLine} {asm : Assembler}
variable {st st' : Pass2}

theorem secondPassLine_text (text : (asm.sections.find? textName).map (·.type) = some .text)
    (current : st.currentSectionName = textName) :
    secondPassLine asm st line.text =
      match line.statement with
      | some c => processInstructionSecondPass asm.labels st c.text
      | none => .done st := by
  have content := line.read_text
  rw [secondPassLine_eq]
  by_cases blank : line.text = []
  · rw [if_pos blank] at content
    rw [content, (line.text_eq_nil_iff.mp blank).2]
    rfl
  · rw [if_neg blank] at content
    rw [content]
    show secondPassContent asm st line.text = _
    rw [secondPassContent_eq, line.contentItem_text blank]
    cases line.statement with
    | none => rfl
    | some c =>
        show secondPassItem asm st c.text = processInstructionSecondPass asm.labels st c.text
        unfold secondPassItem
        rw [current, text, if_neg (c.head_text (by decide))]
        exact if_pos rfl

/-- The second pass behind some lines of a program has written their code. -/
structure Written (front : List ProgramLine) (st : Pass2) (code : List Byte) : Prop where
  state : st = Pass2.init.emit code
  length : code.length = 4 * wordCount front

variable {code : List Byte}

theorem Written.pc (written : Written front st code) :
    st.pc = BitVec.ofNat 32 (4 * wordCount front) := by
  rw [written.state, ← written.length]
  exact BitVec.zero_add _

theorem Written.step (text : (asm.sections.find? textName).map (·.type) = some .text)
    (written : Written front st code)
    (encodable : ∀ c ∈ line.statement,
      c.Encodable asm.labels (BitVec.ofNat 32 (4 * wordCount front)))
    (stepped : secondPassLine asm st line.text = .done st') :
    ∃ added, Written (front ++ [line]) st' (code ++ added) ∧ added.length = 4 * line.size ∧
      ∀ c ∈ line.statement,
        c.Executes asm.labels (BitVec.ofNat 32 (4 * wordCount front)) added := by
  have current : st.currentSectionName = textName := by
    rw [written.state]
    rfl
  have behind {added : List Byte} (emits : st' = st.emit added)
      (size : added.length = 4 * line.size) :
      Written (front ++ [line]) st' (code ++ added) := by
    constructor
    · rw [emits, written.state, Pass2.emit_append]
    · rw [List.length_append, written.length, size, wordCount_append, wordCount_singleton,
        Nat.mul_add]
  rw [secondPassLine_text text current] at stepped
  have pc := written.pc
  cases statement : line.statement with
  | none =>
      rw [statement] at stepped
      cases stepped
      have size : ([] : List Byte).length = 4 * line.size := by
        rw [ProgramLine.size, statement]
        rfl
      exact ⟨[], behind st.emit_nil.symm size, size, fun c member => by cases member⟩
  | some c =>
      rw [statement] at stepped encodable
      have encodable : c.Encodable asm.labels st.pc := pc ▸ encodable c rfl
      obtain ⟨added, size, processed, executes⟩ := Statement.executes_of_encodable encodable
      have size : added.length = 4 * line.size := by
        rw [size, ProgramLine.size, statement]
        rfl
      have emits : st' = st.emit added := by
        have processed' : processInstructionSecondPass asm.labels st c.text = .done st' := stepped
        rw [processed] at processed'
        cases processed'
        rfl
      refine ⟨added, behind emits size, size, fun c' member => ?_⟩
      cases member
      exact pc ▸ executes

theorem getElem?_split (split : lines = front ++ line :: back) :
    lines[front.length]? = some line := by
  rw [split, List.getElem?_append_right (le_refl _), Nat.sub_self]
  rfl

theorem Written.run {more : List ProgramLine}
    (text : (asm.sections.find? textName).map (·.type) = some .text)
    (encodable : ∀ (k : Nat) (line : ProgramLine), lines[k]? = some line →
      ∀ c ∈ line.statement, c.Encodable asm.labels (wordAddress lines k))
    (split : lines = front ++ more ++ back) (written : Written front st code)
    (ran : run (secondPassLine asm) st (more.map ProgramLine.text) = .done st') :
    ∃ added, Written (front ++ more) st' (code ++ added) := by
  induction more generalizing front st code with
  | nil =>
      cases ran
      exact ⟨[], by rwa [List.append_nil, List.append_nil]⟩
  | cons line more induction =>
      obtain ⟨middle, stepped, rest⟩ := run_cons_eq_done.mp ran
      have here : lines = front ++ line :: (more ++ back) := by
        rw [split]
        simp
      have encodableHere := encodable front.length line (getElem?_split here)
      rw [here, wordAddress_append] at encodableHere
      obtain ⟨first, next, _, _⟩ := written.step text encodableHere stepped
      obtain ⟨others, all⟩ := induction (by rw [split]; simp) next rest
      refine ⟨first ++ others, ?_⟩
      rwa [List.append_assoc, List.append_assoc] at all

/-- The code of every line stands where the words of the lines before it end. -/
structure Installed (labels : List Label) (lines : List ProgramLine) (image : List Byte) :
    Prop where
  length : image.length = 4 * wordCount lines
  code : ∀ front line back, lines = front ++ line :: back →
    ∃ before code after, image = before ++ code ++ after ∧
      before.length = 4 * wordCount front ∧ code.length = 4 * line.size ∧
      ∀ c ∈ line.statement, c.Executes labels (BitVec.ofNat 32 (4 * wordCount front)) code

theorem installed_of_run (text : (asm.sections.find? textName).map (·.type) = some .text)
    (encodable : ∀ (k : Nat) (line : ProgramLine), lines[k]? = some line →
      ∀ c ∈ line.statement, c.Encodable asm.labels (wordAddress lines k))
    (ran : run (secondPassLine asm) Pass2.init (lines.map ProgramLine.text) = .done st) :
    Installed asm.labels lines st.out.image := by
  have start : Written [] Pass2.init [] := ⟨Pass2.init.emit_nil.symm, rfl⟩
  have image {code : List Byte} (written : Written lines st code) : st.out.image = code := by
    rw [written.state]
    exact OutFile.image_fwrite_empty code
  constructor
  · have all : lines = [] ++ lines ++ [] := by simp
    obtain ⟨code, written⟩ := Written.run text encodable all start ran
    rw [image written]
    exact written.length
  · intro front line back split
    rw [split, List.map_append, List.map_cons] at ran
    obtain ⟨before, ranFront, ranRest⟩ := run_append_eq_done.mp ran
    obtain ⟨behind, stepped, ranBack⟩ := run_cons_eq_done.mp ranRest
    obtain ⟨first, written⟩ := Written.run text encodable
      (split : lines = [] ++ front ++ line :: back) start ranFront
    have encodableHere := encodable front.length line (getElem?_split split)
    rw [split, wordAddress_append] at encodableHere
    obtain ⟨added, next, size, executes⟩ := written.step text encodableHere stepped
    have all : lines = [] ++ front ++ [line] ++ back ++ [] := by
      rw [split]
      simp
    obtain ⟨after, final⟩ := Written.run text encodable all next ranBack
    have whole : Written lines st (first ++ added ++ after) := by
      rw [split, List.append_cons]
      exact final
    exact ⟨first, added, after, image whole, written.length, size, executes⟩

end SecondPass

section Program

variable {p : Program} {source : Text}

theorem run_header (p : Program) : run firstPassLine Assembler.init p.header = .done Assembler.init := by
  unfold Program.header
  cases p.opens <;> rfl

theorem run_header_secondPass (asm : Assembler) (p : Program) :
    run (secondPassLine asm) Pass2.init p.header = .done Pass2.init := by
  unfold Program.header
  cases p.opens <;> rfl

theorem take_sourceLines (spells : Program.Spells source p) (k : Nat) :
    ((sourceLines source).take (p.header.length + k)).map trim =
      p.header ++ (p.lines.take k).map ProgramLine.text := by
  rw [List.map_take, spells, Program.texts, List.take_length_add_append, List.map_take]

theorem run_sourceLines (spells : Program.Spells source p) (k : Nat) :
    run firstPassLine Assembler.init ((sourceLines source).take (p.header.length + k)) =
      run firstPassLine Assembler.init ((p.lines.take k).map ProgramLine.text) := by
  rw [← run_firstPassLine_trim, take_sourceLines spells, run_append, run_header]
  rfl

variable (spells : Program.Spells source p) (foreseen : p.Foreseen) {asm : Assembler}

include spells foreseen

/-- At every line the first pass has counted the words of the lines before it. -/
theorem counted_of_produced (produced : firstPass Assembler.init source = .done asm) (k : Nat) :
    ∃ middle, run firstPassLine Assembler.init
        ((sourceLines source).take (p.header.length + k)) = .done middle ∧
      Counted p.lines (p.lines.take k) middle := by
  obtain ⟨finished, ran, _⟩ := Outcome.andThen_eq_done.mp produced
  rw [← List.take_append_drop (p.header.length + k) (sourceLines source)] at ran
  obtain ⟨middle, front, _⟩ := run_append_eq_done.mp ran
  have front : run firstPassLine Assembler.init
      ((sourceLines source).take (p.header.length + k)) = .done middle := front
  refine ⟨middle, front, ?_⟩
  rw [run_sourceLines spells] at front
  have split : p.lines = [] ++ p.lines.take k ++ p.lines.drop k := by simp
  exact (counted_init p.lines).run split
    (fun line member => foreseen line (List.mem_of_mem_take member)) front

/-- The first pass puts every line where the words of the lines before it end. -/
theorem firstPassAddress_eq (produced : firstPass Assembler.init source = .done asm) :
    p.firstPassAddress source = wordAddress p.lines := by
  funext k
  obtain ⟨middle, ran, counted⟩ := counted_of_produced spells foreseen produced k
  rw [Program.firstPassAddress, reserved, ran]
  exact counted.offset

theorem labels_of_produced (produced : firstPass Assembler.init source = .done asm) :
    asm.labels = p.symbols (wordAddress p.lines) := by
  obtain ⟨middle, ran, counted⟩ := counted_of_produced spells foreseen produced p.lines.length
  have whole : (sourceLines source).length = p.header.length + p.lines.length := by
    have length := congrArg List.length (spells : _ = p.texts)
    simpa [Program.texts] using length
  rw [List.take_of_length_le (le_of_eq whole)] at ran
  obtain ⟨finished, ran', result⟩ := Outcome.andThen_eq_done.mp produced
  have same : finished = middle := by
    have ran' : run firstPassLine Assembler.init (sourceLines source) = .done finished := ran'
    rw [ran] at ran'
    cases ran'
    rfl
  cases result
  subst same
  have labels := counted.labels
  rw [List.take_length] at labels
  exact labels

omit spells foreseen in
theorem sectionName_of_mem {address : Nat → Word} {k : Nat} {lines : List ProgramLine}
    {label : Label} (member : label ∈ Program.symbolsFrom address k lines) :
    label.sectionName = textName := by
  induction lines generalizing k with
  | nil => cases member
  | cons line lines induction =>
      rcases List.mem_append.mp member with here | later
      · unfold ProgramLine.symbol at here
        split at here
        · rw [List.mem_singleton.mp here]
        · cases here
      · exact induction later

/-- `.text` is placed at address zero, so the labels stay where they are. -/
theorem labels_placedTables (produced : firstPass Assembler.init source = .done asm) :
    (placedTables asm).labels = p.symbols (wordAddress p.lines) := by
  obtain ⟨t, _, found, base, _⟩ := find?_legacy produced
  have labels := labels_of_produced spells foreseen produced
  rw [← labels]
  refine (List.map_congr_left fun label member => ?_).trans asm.labels.map_id
  have inText : label.sectionName = textName := by
    rw [labels] at member
    exact sectionName_of_mem member
  have placed : (placeSections asm.sections).find? label.sectionName = some t := by
    rw [inText]
    exact found
  have stays : label.addr + t.baseAddr = label.addr := by
    rw [base]
    exact BitVec.add_zero _
  unfold adjustLabel
  rw [placed]
  simp only [stays]
  rfl

/-- What `main` writes for a program. -/
theorem installed_of_assembled {result : Assembled}
    (encodable : p.Encodable (p.firstPassAddress source))
    (assembled : assemble source = some result) :
    p.firstPassAddress source = wordAddress p.lines ∧
      Installed (p.symbols (wordAddress p.lines)) p.lines result.bytes := by
  unfold assemble assembleWith at assembled
  cases produced : firstPass Assembler.init source with
  | stopped reason asm =>
      rw [produced] at assembled
      cases assembled
  | done asm =>
      rw [produced] at assembled
      have addresses := firstPassAddress_eq spells foreseen produced
      refine ⟨addresses, ?_⟩
      have labels := labels_placedTables spells foreseen produced
      have known := (known_of_produced produced asm.pcText).1
      cases ran : run (secondPassLine (placedTables asm)) Pass2.init (sourceLines source) with
      | stopped reason st =>
          have ran : run (secondPassLine (adjustLabels asm asm.textSize)) Pass2.init
              (sourceLines source) = .stopped reason st := ran
          simp only [ran] at assembled
          cases assembled
      | done st =>
          have ran' : run (secondPassLine (adjustLabels asm asm.textSize)) Pass2.init
              (sourceLines source) = .done st := ran
          simp only [ran'] at assembled
          cases assembled
          rw [← run_secondPassLine_trim, (spells : _ = p.texts), Program.texts, run_append,
            run_header_secondPass] at ran
          obtain ⟨sec, found, type⟩ := known
          rw [← labels]
          have text : ((placedTables asm).sections.find? textName).map (·.type) = some .text := by
            rw [found]
            exact congrArg some type
          refine installed_of_run text ?_ ran
          rw [labels, ← addresses]
          exact encodable

end Program

end RiscvPack.Asm
