import RiscvPack.Assembler.Agreement
import RiscvPack.Assembler.Completeness
import RiscvPack.Assembler.DataLines

/-!
# Programs with data

A program of one text section and maybe one of data behind it.  The first pass
counts the words of the code and the bytes of the data, so that the data and
its labels are placed right behind the code.
-/

namespace RiscvPack.Asm

open CString Runs Files
open SourceLine (read)

/-- A line of data: its label and the bytes it stands for. -/
structure Datum where
  label : Option Identifier
  bytes : List Byte

/-- What a line of a file says about a line of data. -/
structure Datum.Spelled (d : Datum) (line : Text) : Prop where
  stays : (read line).entered = none
  label : lineLabel line = d.label.map Identifier.text
  directive : ∀ i ∈ lineItem line, DirectiveBytes i d.bytes ∧ DataItem i
  blank : lineItem line = none → d.bytes = []

/-- The label of a line of data that stands at an address. -/
def Datum.symbol (d : Datum) (a : Nat) : List Label :=
  match d.label with
  | some name => [{ name := name.text, addr := BitVec.ofNat 32 a, sectionName := dataName }]
  | none => []

/-- The labels of data that begins at an address. -/
def dataSymbols : Nat → List Datum → List Label
  | _, [] => []
  | a, d :: rest => d.symbol a ++ dataSymbols (a + d.bytes.length) rest

/-- The second pass on a line of code. -/
def emitLine (labels : List Label) (st : Pass2) (line : ProgramLine) : Outcome Stop Pass2 :=
  match line.statement with
  | some c => processInstructionSecondPass labels st c.text
  | none => .done st

/-- Code, and maybe a data section behind it. -/
structure SourceFile where
  code : Program
  data : Option (List Datum)

namespace SourceFile

variable (f : SourceFile)

def datums : List Datum := f.data.getD []

def dataBytes : List Byte := f.datums.flatMap (·.bytes)

/-- Where the code ends. -/
def codeLength : Nat := 4 * wordCount f.code.lines

/-- The lines of the file, those of data without a statement. -/
def lines : List ProgramLine := f.code.lines ++ f.datums.map fun d => ⟨d.label, none⟩

def program : Program := { f.code with lines := f.lines }

/-- Where a line stands. -/
def address (k : Nat) : Word :=
  BitVec.ofNat 32 (4 * wordCount (f.code.lines.take k) +
    ((f.datums.take (k - f.code.lines.length)).flatMap (·.bytes)).length)

/-- The label table. -/
def symbols : List Label :=
  f.code.symbols (wordAddress f.code.lines) ++ dataSymbols f.codeLength f.datums

/-- The bytes of the code. -/
def codeBytes : List Byte :=
  (run (emitLine f.symbols) Pass2.init f.code.lines).last.out.image

/-- Every statement can be encoded where it stands. -/
def Encodable : Prop :=
  ∀ (k : Nat) (line : ProgramLine), f.code.lines[k]? = some line → ∀ c ∈ line.statement,
    c.Encodable f.symbols (wordAddress f.code.lines k)

/-- The source file has the lines of the code and then those of the data. -/
def Spells (source : Text) : Prop :=
  match f.data with
  | none => Program.Spells source f.code
  | some data => ∃ front entry back, sourceLines source = front ++ entry :: back ∧
      front.map trim = f.code.texts ∧ (read entry).entered = some dataName ∧
      List.Forall₂ Datum.Spelled data back

end SourceFile

theorem dataBytes_of_spelled {data : List Datum} {lines : List Text}
    (spelled : List.Forall₂ Datum.Spelled data lines) :
    DataBytes lines (data.flatMap (·.bytes)) := by
  induction spelled with
  | nil => exact .nil
  | @cons d line data lines first _ induction =>
      rw [List.flatMap_cons]
      cases item : lineItem line with
      | none =>
          rw [first.blank item]
          exact .blank first.stays item induction
      | some i => exact .directive item (first.directive i item).1 induction

section FirstPass

variable {asm asm' : Assembler} {line : Text} {d : Datum}

theorem processDirective_done {i : Text} {bytes : List Byte} (holds : DirectiveBytes i bytes)
    (trimmed : Trimmed i) (asm : Assembler) : ∃ asm', processDirective asm i = .ok asm' := by
  have again : trim i = i := trim_of_trimmed trimmed
  cases holds with
  | numerals d =>
      unfold processDirective
      rw [again]
      cases d <;> exact ⟨_, rfl⟩
  | string d b =>
      exact ⟨_, StringDirective.processDirective_string again (StringDirective.parse_quoted b)⟩
  | @space number size found =>
      have behind : (".space".toList ++ number).drop 6 = number := rfl
      unfold processDirective
      simp only [again, behind, found]
      exact ⟨_, rfl⟩

theorem length_directive {i : Text} {bytes : List Byte} (holds : DirectiveBytes i bytes)
    (trimmed : Trimmed i) (item : DataItem i) :
    directiveCount i = BitVec.ofNat 32 bytes.length := by
  have emitted :=
    emitted_dataDirective (processDataDirective_directive trimmed holds [] Pass2.init)
  rw [directiveCount_eq trimmed item, emitted.size_unique (.bytes bytes)]

theorem grown_datum (formed : WellFormed asm) (current : asm.currentSectionName = dataName)
    (spelled : d.Spelled line) (short : line.length < maxLine)
    (stepped : firstPassLine asm line = .done asm') :
    Grown (withLabel asm (d.label.map Identifier.text)) d.bytes.length asm' := by
  have type : asm.getCurrentSection.type = .data := by
    rw [formed.currentType, current]
    rfl
  rw [← spelled.label]
  cases content : read line with
  | skipped =>
      rw [firstPassLine_eq, content] at stepped
      cases stepped
      have noLabel : lineLabel line = none := by rw [lineLabel, content]
      have noItem : lineItem line = none := by rw [lineItem, content]
      rw [noLabel, spelled.blank noItem]
      exact .refl asm
  | content s =>
      have stripped := stripped_content short content
      have processed := processed_of_content content stepped
      have noText : asm.getCurrentSection.type ≠ .text := by
        rw [type]
        decide
      have counted := firstPassContent_cases stripped.trimmed (fun text => absurd text noText)
        processed
      have label : lineLabel line = contentLabel s := by rw [lineLabel, content]
      have item : lineItem line = contentItem s := by rw [lineItem, content]
      rw [label]
      cases found : contentItem s with
      | none =>
          rw [found] at counted
          rw [spelled.blank (item.trans found), counted]
          exact .refl _
      | some i =>
          rw [found] at counted
          obtain ⟨holds, regular⟩ := spelled.directive i (item.trans found)
          have trimmed := (stripped_item stripped found).trimmed
          have count := length_directive holds trimmed regular
          have directive : firstPassItem (withLabel asm (contentLabel s)) i = .ok asm' := counted
          rw [firstPassItem, withLabel_getCurrentSection, if_neg noText, if_pos holds.head]
            at directive
          rcases processDirective_cases directive with rfl | ⟨rfl, none⟩
          · rw [count]
            exact grown_growData _ ((withLabel_currentSectionName _ _).trans current)
          · exact .still _ (count ▸ none)
  | legacyText | legacyData | named =>
      have stays := spelled.stays
      rw [content] at stays
      cases stays

theorem processLabel_datum {s before after : Text} (spelled : d.Spelled line)
    (content : read line = .content s) (colon : strchr ':' s = some (before, after))
    (fresh : ∀ name ∈ d.label, name.text ∉ asm.labels.map (·.name)) :
    ∃ labelled, processLabel asm before = .ok labelled := by
  unfold processLabel
  simp only
  split
  · exact ⟨asm, rfl⟩
  · rename_i named
    have defines : lineLabel line = some (trim ((skipSpaces before).take 63)) := by
      rw [lineLabel, content]
      simp only [contentLabel, colon, if_neg named]
    rw [spelled.label] at defines
    obtain ⟨name, here, text⟩ := Option.map_eq_some_iff.mp defines
    rw [← text, if_neg]
    · exact ⟨_, rfl⟩
    · simpa [List.any_eq_true] using fresh name here

theorem firstPassLine_datum (formed : WellFormed asm) (current : asm.currentSectionName = dataName)
    (spelled : d.Spelled line) (short : line.length < maxLine)
    (fresh : ∀ name ∈ d.label, name.text ∉ asm.labels.map (·.name)) :
    ∃ asm', firstPassLine asm line = .done asm' := by
  have noText (labelled : Assembler) (same : labelled.getCurrentSection = asm.getCurrentSection) :
      labelled.getCurrentSection.type ≠ .text := by
    rw [same, formed.currentType, current]
    decide
  cases content : read line with
  | skipped =>
      rw [firstPassLine_eq, content]
      exact ⟨asm, rfl⟩
  | content s =>
      have stripped := stripped_content short content
      have item (i : Text) (found : contentItem s = some i) : i.head? = some '.' ∧
          ∀ asm, ∃ asm', processDirective asm i = .ok asm' := by
        have here : lineItem line = some i := by
          rw [lineItem, content]
          exact found
        obtain ⟨holds, _⟩ := spelled.directive i here
        exact ⟨holds.head, processDirective_done holds (stripped_item stripped found).trimmed⟩
      have passed : ∃ asm', firstPassContent asm s = .ok asm' := by
        unfold firstPassContent
        unfold contentItem at item
        cases colon : strchr ':' s with
        | none =>
            simp only [colon] at item ⊢
            obtain ⟨head, processed⟩ := item s rfl
            rw [if_pos head]
            exact processed asm
        | some split =>
            obtain ⟨before, after⟩ := split
            simp only [colon] at item ⊢
            obtain ⟨labelled, defined⟩ := processLabel_datum spelled content colon fresh
            have same := getCurrentSection_of_processLabel defined
            have behind := trim_behind_colon stripped.trimmed (eq_append_of_strchr colon).1
            rw [defined]
            simp only [bind, Except.bind]
            split
            · rename_i some
              rw [if_pos some, behind] at item
              obtain ⟨head, processed⟩ := item _ rfl
              rw [if_neg (noText labelled same), if_pos head]
              exact processed labelled
            · exact ⟨labelled, rfl⟩
      obtain ⟨asm', passed⟩ := passed
      refine ⟨asm', ?_⟩
      rw [firstPassLine_eq, content]
      simp only [firstPassRead, passed]
  | legacyText | legacyData | named =>
      have stays := spelled.stays
      rw [content] at stays
      cases stays

/-- What the first pass has counted and recorded, in the section it is in. -/
structure Tally (code bytes : Nat) (name : Text) (labels : List Label) (asm : Assembler) :
    Prop where
  formed : WellFormed asm
  current : asm.currentSectionName = name
  text : sectionOffset asm textName = BitVec.ofNat 32 code
  rodata : sectionOffset asm rodataName = 0
  data : sectionOffset asm dataName = BitVec.ofNat 32 bytes
  pcText : asm.pcText = BitVec.ofNat 32 code
  labels : asm.labels = labels

variable {code bytes : Nat} {labels : List Label}

theorem tally_init : Tally 0 0 textName [] Assembler.init where
  formed := wellFormed_init
  current := rfl
  text := sectionOffset_init textName
  rodata := sectionOffset_init rodataName
  data := sectionOffset_init dataName
  pcText := rfl
  labels := rfl

theorem Tally.step_line {line : ProgramLine} (tally : Tally code bytes textName labels asm)
    (foreseen : ∀ c ∈ line.statement, c.Foreseen)
    (stepped : firstPassLine asm line.text = .done asm') :
    Tally (code + 4 * line.size) bytes textName (labels ++ line.symbol (BitVec.ofNat 32 code))
      asm' := by
  have grown := grown_programLine tally.formed tally.current foreseen stepped
  have current := (withLabel_currentSectionName asm (line.label.map Identifier.text)).trans
    tally.current
  have here := grown.here
  have other := grown.other
  have pcText := grown.pcText
  rw [current, sectionOffset_withLabel, tally.text, ← BitVec.ofNat_add] at here
  rw [current, if_pos rfl, withLabel_pcText, tally.pcText, ← BitVec.ofNat_add] at pcText
  simp only [current, sectionOffset_withLabel] at other
  refine ⟨(firstPassLine_changes stepped).wellFormed tally.formed, grown.current.trans current,
    here, (other _ (by decide)).trans tally.rodata, (other _ (by decide)).trans tally.data, pcText,
    ?_⟩
  rw [grown.labels]
  unfold ProgramLine.symbol
  cases line.label with
  | none =>
      rw [List.append_nil]
      exact tally.labels
  | some name =>
      have address : asm.getCurrentSection.offset = BitVec.ofNat 32 code := by
        rw [getCurrentSection_offset, tally.current, tally.text]
      simp only [Option.map_some, withLabel, addLabel, address, tally.labels, tally.current]

theorem Tally.step_datum (tally : Tally code bytes dataName labels asm) (spelled : d.Spelled line)
    (short : line.length < maxLine) (stepped : firstPassLine asm line = .done asm') :
    Tally code (bytes + d.bytes.length) dataName (labels ++ d.symbol bytes) asm' := by
  have grown := grown_datum tally.formed tally.current spelled short stepped
  have current := (withLabel_currentSectionName asm (d.label.map Identifier.text)).trans
    tally.current
  have here := grown.here
  have other := grown.other
  have pcText := grown.pcText
  have noText : dataName ≠ textName := by decide
  rw [current, sectionOffset_withLabel, tally.data, ← BitVec.ofNat_add] at here
  rw [current, if_neg noText, withLabel_pcText, tally.pcText] at pcText
  simp only [current, sectionOffset_withLabel] at other
  refine ⟨(firstPassLine_changes stepped).wellFormed tally.formed, grown.current.trans current,
    (other _ (by decide)).trans tally.text, (other _ (by decide)).trans tally.rodata, here,
    pcText.trans (BitVec.add_zero _), ?_⟩
  rw [grown.labels]
  unfold Datum.symbol
  cases d.label with
  | none =>
      rw [List.append_nil]
      exact tally.labels
  | some name =>
      have address : asm.getCurrentSection.offset = BitVec.ofNat 32 bytes := by
        rw [getCurrentSection_offset, tally.current, tally.data]
      simp only [Option.map_some, withLabel, addLabel, address, tally.labels, tally.current]

theorem Tally.enter {entry : Text} (tally : Tally code bytes textName labels asm)
    (enters : (read entry).entered = some dataName) :
    firstPassLine asm entry = .done (asm.switchSection dataName) ∧
      Tally code bytes dataName labels (asm.switchSection dataName) := by
  have stepped : firstPassLine asm entry = .done (asm.switchSection dataName) := by
    rw [firstPassLine_eq, firstPassRead_entered enters]
  have offset := sectionOffset_switchSection asm dataName
  exact ⟨stepped, (firstPassLine_changes stepped).wellFormed tally.formed, rfl,
    (offset _).trans tally.text, (offset _).trans tally.rodata, (offset _).trans tally.data,
    tally.pcText, tally.labels⟩

/-- The induction is on the lines ahead; `k` lines are behind. -/
theorem Tally.run_lines {lines front more back : List ProgramLine}
    (split : lines = front ++ more ++ back)
    (tally : Tally (4 * wordCount front) bytes textName labels asm)
    (foreseen : ∀ line ∈ more, ∀ c ∈ line.statement, c.Foreseen)
    (ran : run firstPassLine asm (more.map ProgramLine.text) = .done asm') :
    Tally (4 * wordCount (front ++ more)) bytes textName
      (labels ++ Program.symbolsFrom (wordAddress lines) front.length more) asm' := by
  induction more generalizing front labels asm with
  | nil =>
      cases ran
      rw [List.append_nil, Program.symbolsFrom, List.append_nil]
      exact tally
  | cons line more induction =>
      obtain ⟨middle, stepped, rest⟩ := run_cons_eq_done.mp ran
      have next := tally.step_line (foreseen line List.mem_cons_self) stepped
      have count : 4 * wordCount front + 4 * line.size = 4 * wordCount (front ++ [line]) := by
        rw [wordCount_append, wordCount_singleton, Nat.mul_add]
      rw [count] at next
      have all := induction (by rw [split]; simp) next
        (fun l member => foreseen l (List.mem_cons_of_mem _ member)) rest
      have address : wordAddress lines front.length = BitVec.ofNat 32 (4 * wordCount front) := by
        rw [split, List.append_assoc, wordAddress_append]
      rw [List.append_assoc, List.append_assoc, List.length_append] at all
      rw [Program.symbolsFrom, address]
      exact all

theorem Tally.run_data {data : List Datum} {lines : List Text}
    (spelled : List.Forall₂ Datum.Spelled data lines)
    (short : ∀ line ∈ lines, line.length < maxLine)
    (tally : Tally code bytes dataName labels asm)
    (ran : run firstPassLine asm lines = .done asm') :
    Tally code (bytes + (data.flatMap (·.bytes)).length) dataName
      (labels ++ dataSymbols bytes data) asm' := by
  induction spelled generalizing bytes labels asm with
  | nil =>
      cases ran
      rw [dataSymbols, List.append_nil]
      exact tally
  | @cons d line rest lines first _ induction =>
      rw [List.forall_mem_cons] at short
      obtain ⟨middle, stepped, ran⟩ := run_cons_eq_done.mp ran
      have all := induction short.2 (tally.step_datum first short.1 stepped) ran
      rw [List.flatMap_cons, List.length_append, ← Nat.add_assoc, dataSymbols,
        ← List.append_assoc]
      exact all

theorem names_dataSymbols (a : Nat) (data : List Datum) :
    (dataSymbols a data).map (·.name) = (data.filterMap (·.label)).map Identifier.text := by
  induction data generalizing a with
  | nil => rfl
  | cons d rest induction =>
      rw [dataSymbols, List.map_append, induction, Datum.symbol, List.filterMap_cons]
      cases d.label <;> rfl

theorem Tally.data_done {data : List Datum} {lines : List Text}
    (spelled : List.Forall₂ Datum.Spelled data lines)
    (short : ∀ line ∈ lines, line.length < maxLine) (tally : Tally code bytes dataName labels asm)
    (distinct : (labels.map (·.name) ++ (data.filterMap (·.label)).map Identifier.text).Nodup) :
    ∃ asm', run firstPassLine asm lines = .done asm' := by
  induction spelled generalizing bytes labels asm with
  | nil => exact ⟨asm, rfl⟩
  | @cons d line rest lines first _ induction =>
      rw [List.forall_mem_cons] at short
      have names : labels.map (·.name) ++ ((d :: rest).filterMap (·.label)).map Identifier.text =
          (labels ++ d.symbol bytes).map (·.name) ++
            (rest.filterMap (·.label)).map Identifier.text := by
        rw [List.map_append, List.append_assoc, Datum.symbol, List.filterMap_cons]
        cases d.label <;> rfl
      have fresh : ∀ name ∈ d.label, name.text ∉ asm.labels.map (·.name) := by
        intro name here
        rw [tally.labels]
        intro known
        rw [List.nodup_append'] at distinct
        apply distinct.2.2 known
        rw [List.filterMap_cons, here]
        exact List.mem_cons_self
      obtain ⟨middle, stepped⟩ :=
        firstPassLine_datum tally.formed tally.current first short.1 fresh
      obtain ⟨asm', ran⟩ :=
        induction short.2 (tally.step_datum first short.1 stepped) (names ▸ distinct)
      exact ⟨asm', run_cons_eq_done.mpr ⟨middle, stepped, ran⟩⟩

end FirstPass

section Passes

variable {f : SourceFile} {source : Text} {data : List Datum} {front back : List Text}
  {entry : Text}

theorem names_lines (f : SourceFile) :
    definedNames f.code.lines ++ f.datums.filterMap (·.label) = definedNames f.lines := by
  rw [SourceFile.lines, definedNames_append]
  congr 1
  unfold definedNames
  rw [List.filterMap_map]
  rfl

theorem distinct_names (distinct : (definedNames f.lines).Nodup) :
    (definedNames f.code.lines).Nodup ∧
      ((f.code.symbols (wordAddress f.code.lines)).map (·.name) ++
        (f.datums.filterMap (·.label)).map Identifier.text).Nodup := by
  rw [← names_lines] at distinct
  refine ⟨distinct.of_append_left, ?_⟩
  rw [Program.symbols, names_symbolsFrom, ← List.map_append]
  exact distinct.map fun name other same => Identifier.text_inj.mp same

theorem firstPass_data (foreseen : f.code.Foreseen) (distinct : (definedNames f.lines).Nodup)
    (lines : sourceLines source = front ++ entry :: back)
    (texts : front.map trim = f.code.texts) (enters : (read entry).entered = some dataName)
    (spelled : List.Forall₂ Datum.Spelled f.datums back) :
    ∃ asm, firstPass Assembler.init source = .done asm ∧
      Tally f.codeLength f.dataBytes.length dataName
        (f.code.symbols (wordAddress f.code.lines) ++ dataSymbols 0 f.datums) asm := by
  obtain ⟨inCode, inFile⟩ := distinct_names distinct
  have whole : f.code.lines = [] ++ f.code.lines ++ [] := by simp
  obtain ⟨middle, ranCode⟩ := (run_firstPass_done_iff (counted_init f.code.lines) whole
    List.nodup_nil foreseen).mpr inCode
  have ranFront : run firstPassLine Assembler.init front = .done middle := by
    rw [← run_firstPassLine_trim, texts, Program.texts, run_append, run_header]
    exact ranCode
  have short : ∀ line ∈ back, line.length < maxLine := by
    intro line member
    have here : line ∈ sourceLines source := by
      rw [lines]
      exact List.mem_append_right _ (List.mem_cons_of_mem _ member)
    exact length_sourceLines here
  have tally := Tally.run_lines whole tally_init foreseen ranCode
  obtain ⟨stepped, entered⟩ := tally.enter enters
  obtain ⟨asm, ranBack⟩ := entered.data_done spelled short inFile
  have final := entered.run_data spelled short ranBack
  rw [Nat.zero_add] at final
  have ran : run firstPassLine Assembler.init (sourceLines source) = .done asm := by
    rw [lines]
    exact run_append_eq_done.mpr
      ⟨middle, ranFront, run_cons_eq_done.mpr ⟨_, stepped, ranBack⟩⟩
  refine ⟨_, Outcome.andThen_eq_done.mpr ⟨asm, ran, rfl⟩, ?_⟩
  exact
    { final with
      formed := ⟨final.formed.typed, final.formed.standard, final.formed.current,
        final.formed.labels⟩ }

theorem run_emitLine {asm : Assembler} {st : Pass2}
    (text : (asm.sections.find? textName).map (·.type) = some .text)
    (current : st.currentSectionName = textName) (lines : List ProgramLine) :
    run (secondPassLine asm) st (lines.map ProgramLine.text) =
      run (emitLine asm.labels) st lines := by
  induction lines generalizing st with
  | nil => rfl
  | cons line lines induction =>
      have step : secondPassLine asm st line.text = emitLine asm.labels st line := by
        refine (secondPassLine_text text current).trans ?_
        unfold emitLine
        cases line.statement <;> rfl
      rw [List.map_cons, run, run, step]
      cases stepped : emitLine asm.labels st line with
      | stopped reason st' => rfl
      | done st' =>
          apply induction
          unfold emitLine at stepped
          split at stepped
          · obtain ⟨bytes, _, rfl⟩ := emitted_instruction stepped
            exact current
          · cases stepped
            exact current

theorem secondPass_code {asm : Assembler} (labels : asm.labels = f.symbols)
    (text : (asm.sections.find? textName).map (·.type) = some .text)
    (encodable : f.Encodable) (texts : front.map trim = f.code.texts) :
    run (secondPassLine asm) Pass2.init front = .done (Pass2.init.emit f.codeBytes) ∧
      CodeAt f.symbols f.code.lines f.codeBytes := by
  have start : Written [] Pass2.init [] := ⟨Pass2.init.emit_nil.symm, rfl⟩
  have whole : f.code.lines = [] ++ f.code.lines ++ [] := by simp
  have encodable : ∀ (k : Nat) (line : ProgramLine), f.code.lines[k]? = some line →
      ∀ c ∈ line.statement, c.Encodable asm.labels (wordAddress f.code.lines k) := by
    rw [labels]
    exact encodable
  obtain ⟨st, ran⟩ := run_secondPass_done text encodable whole start
  obtain ⟨code, rfl, placed⟩ := codeAt_of_run text encodable ran
  have same : f.codeBytes = code := by
    rw [run_emitLine text rfl, labels] at ran
    rw [SourceFile.codeBytes, ran]
    exact OutFile.image_fwrite_empty code
  rw [same]
  refine ⟨?_, labels ▸ placed⟩
  rw [← run_secondPassLine_trim, texts, Program.texts, run_append, run_header_secondPass]
  exact ran

theorem dataSymbols_place (a b : Nat) (data : List Datum) :
    (dataSymbols a data).map (fun label =>
        { label with addr := label.addr + BitVec.ofNat 32 b }) =
      dataSymbols (b + a) data := by
  induction data generalizing a with
  | nil => rfl
  | cons d rest induction =>
      rw [dataSymbols, dataSymbols, List.map_append, induction, Nat.add_assoc]
      congr 1
      unfold Datum.symbol
      cases d.label with
      | none => rfl
      | some name =>
          rw [Nat.add_comm b a, BitVec.ofNat_add]
          rfl

theorem sectionName_of_mem_dataSymbols {a : Nat} {label : Label}
    (member : label ∈ dataSymbols a data) : label.sectionName = dataName := by
  induction data generalizing a with
  | nil => cases member
  | cons d rest induction =>
      rcases List.mem_append.mp member with here | later
      · unfold Datum.symbol at here
        split at here
        · rw [List.mem_singleton.mp here]
        · cases here
      · exact induction later

/-- Data is placed behind the code, and its labels move there. -/
theorem placed_of_tally {asm : Assembler} {bytes : Nat}
    (produced : firstPass Assembler.init source = .done asm) (member : entry ∈ sourceLines source)
    (enters : (read entry).entered = some dataName)
    (tally : Tally f.codeLength bytes dataName
      (f.code.symbols (wordAddress f.code.lines) ++ dataSymbols 0 f.datums) asm) :
    (placedTables asm).labels = f.symbols ∧
      ∃ sec, (placedTables asm).sections.find? dataName = some sec ∧ sec.type = .data ∧
        sec.baseAddr = BitVec.ofNat 32 f.codeLength := by
  obtain ⟨t, d, foundText, baseText, foundData, baseData⟩ := find?_legacy produced
  have base : d.baseAddr = BitVec.ofNat 32 f.codeLength := by
    rw [baseData, tally.text, tally.rodata]
    exact BitVec.add_zero _
  have type : d.type = .data := by
    obtain ⟨sec, found, typed⟩ :=
      (known_of_produced produced asm.pcText).2 entry member dataName enters
    cases Option.some.inj (foundData.symm.trans found)
    exact typed
  refine ⟨?_, d, foundData, type, base⟩
  show asm.labels.map (adjustLabel (placedTables asm).sections) = _
  rw [tally.labels, List.map_append, SourceFile.symbols]
  congr 1
  · refine (List.map_congr_left fun label member => ?_).trans (List.map_id _)
    have stays : label.addr + t.baseAddr = label.addr := by
      rw [baseText]
      exact BitVec.add_zero _
    have placed : (placedTables asm).sections.find? label.sectionName = some t := by
      rw [sectionName_of_mem member]
      exact foundText
    rw [adjustLabel, placed]
    simp only [stays]
    rfl
  · have place := dataSymbols_place 0 f.codeLength f.datums
    rw [Nat.add_zero] at place
    rw [← place]
    refine List.map_congr_left fun label member => ?_
    have placed : (placedTables asm).sections.find? label.sectionName = some d := by
      rw [sectionName_of_mem_dataSymbols member]
      exact foundData
    rw [adjustLabel, placed]
    simp only [base]

/-- A file with data assembles to its code and its data. -/
theorem assembled_data (foreseen : f.code.Foreseen) (encodable : f.Encodable)
    (distinct : (definedNames f.lines).Nodup) (small : f.codeLength < 2 ^ 32)
    (lines : sourceLines source = front ++ entry :: back)
    (texts : front.map trim = f.code.texts) (enters : (read entry).entered = some dataName)
    (spelled : List.Forall₂ Datum.Spelled f.datums back) :
    ∃ result, assemble source = some result ∧ result.labels = f.symbols ∧
      result.bytes = f.codeBytes ++ f.dataBytes ∧
      CodeAt f.symbols f.code.lines f.codeBytes := by
  obtain ⟨asm, produced, tally⟩ := firstPass_data foreseen distinct lines texts enters spelled
  have member : entry ∈ sourceLines source := by
    rw [lines]
    exact List.mem_append_right _ List.mem_cons_self
  obtain ⟨labels, d, foundData, typeData, base⟩ :=
    placed_of_tally produced member enters tally
  obtain ⟨sec, found, type⟩ := (known_of_produced produced asm.pcText).1
  have text : ((placedTables asm).sections.find? textName).map (·.type) = some .text := by
    rw [found]
    exact congrArg some type
  obtain ⟨ranFront, placed⟩ := secondPass_code labels text encodable texts
  have position : (BitVec.ofNat 32 f.codeLength).toNat = f.codeLength := by
    rw [BitVec.toNat_ofNat, Nat.mod_eq_of_lt small]
  let entered : Pass2 :=
    { currentSectionName := dataName
      pc := BitVec.ofNat 32 f.codeLength
      out := (Pass2.init.emit f.codeBytes).out.seek f.codeLength }
  have stepped : secondPassLine (placedTables asm) (Pass2.init.emit f.codeBytes) entry =
      .done entered := by
    rw [secondPassLine_eq]
    cases opened : read entry with
    | legacyData =>
        have here : (placedTables asm).pcText = BitVec.ofNat 32 f.codeLength := tally.pcText
        rw [secondPassRead, here, position]
    | named name =>
        rw [opened] at enters
        cases enters
        rw [secondPassRead, enterSection, foundData]
        simp only [base, position]
        rfl
    | skipped | content | legacyText =>
        rw [opened] at enters
        cases enters
  have typed : ((placedTables asm).sections.find? entered.currentSectionName).map (·.type) =
      some .data := by
    show ((placedTables asm).sections.find? dataName).map (·.type) = _
    rw [foundData, Option.map_some, typeData]
  have short : ∀ line ∈ back, line.length < maxLine := by
    intro line member
    have here : line ∈ sourceLines source := by
      rw [lines]
      exact List.mem_append_right _ (List.mem_cons_of_mem _ member)
    exact length_sourceLines here
  have ranBack := run_secondPass_data typed short (dataBytes_of_spelled spelled)
  have ran : run (secondPassLine (placedTables asm)) Pass2.init (sourceLines source) =
      .done (entered.emit f.dataBytes) := by
    rw [lines]
    exact run_append_eq_done.mpr ⟨_, ranFront, run_cons_eq_done.mpr ⟨entered, stepped, ranBack⟩⟩
  have image : (entered.emit f.dataBytes).out.image = f.codeBytes ++ f.dataBytes := by
    have still : entered.out = OutFile.empty.fwrite f.codeBytes := by
      show (OutFile.empty.fwrite f.codeBytes).seek f.codeLength = _
      rw [SourceFile.codeLength, ← placed.length, ← Nat.zero_add f.codeBytes.length]
      rfl
    show (entered.out.fwrite f.dataBytes).image = _
    rw [still, ← OutFile.fwrite_append, OutFile.image_fwrite_empty]
  exact ⟨_, assembleLines_eq_some.mpr ⟨asm, produced, _, ran, rfl⟩, labels, image, placed⟩

theorem assembled_code (spells : Program.Spells source f.code) (noData : f.data = none)
    (foreseen : f.code.Foreseen) (encodable : f.Encodable)
    (distinct : (definedNames f.lines).Nodup) :
    ∃ result, assemble source = some result ∧ result.labels = f.symbols ∧
      result.bytes = f.codeBytes ++ f.dataBytes ∧
      CodeAt f.symbols f.code.lines f.codeBytes := by
  have none : f.datums = [] := by
    rw [SourceFile.datums, noData]
    rfl
  have noBytes : f.dataBytes = [] := by
    rw [SourceFile.dataBytes, none]
    rfl
  have table : f.symbols = f.code.symbols (wordAddress f.code.lines) := by
    rw [SourceFile.symbols, none]
    exact List.append_nil _
  obtain ⟨asm, produced⟩ := (firstPass_done_iff spells foreseen).mpr (distinct_names distinct).1
  have labels : (placedTables asm).labels = f.symbols :=
    (labels_placedTables spells foreseen produced).trans table.symm
  obtain ⟨sec, found, type⟩ := (known_of_produced produced asm.pcText).1
  have text : ((placedTables asm).sections.find? textName).map (·.type) = some .text := by
    rw [found]
    exact congrArg some type
  obtain ⟨ran, placed⟩ := secondPass_code labels text encodable spells
  refine ⟨_, assembleLines_eq_some.mpr ⟨asm, produced, _, ran, rfl⟩, labels, ?_, placed⟩
  rw [noBytes, List.append_nil]
  exact OutFile.image_fwrite_empty f.codeBytes

theorem SourceFile.assembled (spells : f.Spells source) (foreseen : f.code.Foreseen)
    (encodable : f.Encodable) (distinct : (definedNames f.lines).Nodup)
    (small : f.data = none ∨ f.codeLength < 2 ^ 32) :
    ∃ result, assemble source = some result ∧ result.labels = f.symbols ∧
      result.bytes = f.codeBytes ++ f.dataBytes ∧
      CodeAt f.symbols f.code.lines f.codeBytes := by
  unfold SourceFile.Spells at spells
  cases data : f.data with
  | none =>
      rw [data] at spells
      exact assembled_code spells data foreseen encodable distinct
  | some datums =>
      rw [data] at spells small
      obtain ⟨front, entry, back, lines, texts, enters, spelled⟩ := spells
      have same : f.datums = datums := by
        rw [SourceFile.datums, data]
        rfl
      have small : f.codeLength < 2 ^ 32 := by
        rcases small with none | small
        · cases none
        · exact small
      rw [← same] at spelled
      exact assembled_data foreseen encodable distinct small lines texts enters spelled

/-- The first pass refuses a label that is there already. -/
theorem distinct_of_data {asm : Assembler} (foreseen : f.code.Foreseen)
    (lines : sourceLines source = front ++ entry :: back)
    (texts : front.map trim = f.code.texts) (enters : (read entry).entered = some dataName)
    (spelled : List.Forall₂ Datum.Spelled f.datums back)
    (produced : firstPass Assembler.init source = .done asm) : (definedNames f.lines).Nodup := by
  have named := names_distinct produced
  obtain ⟨finished, ran, result⟩ := Outcome.andThen_eq_done.mp produced
  have ran : run firstPassLine Assembler.init (sourceLines source) = .done finished := ran
  rw [lines] at ran
  obtain ⟨middle, ranFront, ran⟩ := run_append_eq_done.mp ran
  rw [← run_firstPassLine_trim, texts, Program.texts, run_append, run_header] at ranFront
  obtain ⟨next, stepped, ranBack⟩ := run_cons_eq_done.mp ran
  have whole : f.code.lines = [] ++ f.code.lines ++ [] := by simp
  have tally := Tally.run_lines whole tally_init foreseen ranFront
  obtain ⟨enter, entered⟩ := tally.enter enters
  cases Outcome.done.inj (enter.symm.trans stepped)
  have short : ∀ line ∈ back, line.length < maxLine := by
    intro line member
    have here : line ∈ sourceLines source := by
      rw [lines]
      exact List.mem_append_right _ (List.mem_cons_of_mem _ member)
    exact length_sourceLines here
  have labels := (entered.run_data spelled short ranBack).labels
  have same : asm.labels = finished.labels := by
    cases result
    rfl
  have names : asm.labels.map (·.name) = (definedNames f.lines).map Identifier.text := by
    rw [same, labels, List.map_append, List.nil_append, names_symbolsFrom, names_dataSymbols,
      ← List.map_append, names_lines]
  rw [names] at named
  exact named.of_map _

/-- A file whose statements can be encoded assembles when its labels are
distinct, and only then.  The label table and the output file list what the
source has: the code, and behind it the data. -/
theorem SourceFile.assembles_iff_distinct (spells : f.Spells source) (foreseen : f.code.Foreseen)
    (encodable : f.Encodable) (small : f.data = none ∨ f.codeLength < 2 ^ 32) :
    ((∃ result, assemble source = some result) ↔ (definedNames f.lines).Nodup) ∧
      ∀ result, assemble source = some result → result.labels = f.symbols ∧
        result.bytes = f.codeBytes ++ f.dataBytes ∧ f.codeBytes.length = f.codeLength := by
  have distinct (result : Assembled) (assembled : assemble source = some result) :
      (definedNames f.lines).Nodup := by
    obtain ⟨asm, produced, _⟩ := produced_of_assembled assembled
    unfold SourceFile.Spells at spells
    cases data : f.data with
    | none =>
        rw [data] at spells
        have inCode := (firstPass_done_iff spells foreseen).mp ⟨asm, produced⟩
        have none : f.lines = f.code.lines := by
          rw [SourceFile.lines, SourceFile.datums, data]
          exact List.append_nil _
        rwa [none]
    | some datums =>
        rw [data] at spells
        obtain ⟨front, entry, back, lines, texts, enters, spelled⟩ := spells
        have same : f.datums = datums := by
          rw [SourceFile.datums, data]
          rfl
        rw [← same] at spelled
        exact distinct_of_data foreseen lines texts enters spelled produced
  refine ⟨⟨fun ⟨result, assembled⟩ => distinct result assembled, fun all => ?_⟩, ?_⟩
  · obtain ⟨result, assembled, _⟩ := SourceFile.assembled spells foreseen encodable all small
    exact ⟨result, assembled⟩
  · intro result assembled
    obtain ⟨result', assembled', labels, bytes, placed⟩ :=
      SourceFile.assembled spells foreseen encodable (distinct result assembled) small
    cases Option.some.inj (assembled.symm.trans assembled')
    exact ⟨labels, bytes, placed.length⟩

end Passes

section Symbols

/-- What a label says to an operand. -/
def Label.entry (label : Label) : Text × Word := (label.name, label.addr)

theorem address_of_entries {labels labels' : List Label}
    (same : labels.map Label.entry = labels'.map Label.entry) (name : Identifier) :
    (Target.label name).address labels = (Target.label name).address labels' := by
  have entries (labels : List Label) : (Target.label name).address labels =
      ((labels.map Label.entry).find? (·.1 = name.text)).map Prod.snd := by
    rw [List.find?_map, Option.map_map]
    rfl
  rw [entries, entries, same]

theorem entries_dataSymbols {address : Nat → Word} {k a : Nat} {data : List Datum}
    (stands : ∀ j, address (k + j) =
      BitVec.ofNat 32 (a + ((data.take j).flatMap (·.bytes)).length)) :
    (Program.symbolsFrom address k (data.map fun d => ⟨d.label, none⟩)).map Label.entry =
      (dataSymbols a data).map Label.entry := by
  induction data generalizing k a with
  | nil => rfl
  | cons d rest induction =>
      have here : address k = BitVec.ofNat 32 a := stands 0
      have later (j : Nat) : address (k + 1 + j) =
          BitVec.ofNat 32 (a + d.bytes.length + ((rest.take j).flatMap (·.bytes)).length) := by
        rw [Nat.add_assoc, Nat.add_comm 1 j, stands, List.take_succ_cons, List.flatMap_cons,
          List.length_append, Nat.add_assoc]
      rw [List.map_cons, Program.symbolsFrom, dataSymbols, List.map_append, List.map_append,
        induction later]
      congr 1
      unfold ProgramLine.symbol Datum.symbol
      cases d.label with
      | none => rfl
      | some name =>
          rw [← here]
          rfl

theorem symbolsFrom_congr {address address' : Nat → Word} {k : Nat} {lines : List ProgramLine}
    (same : ∀ j < lines.length, address (k + j) = address' (k + j)) :
    Program.symbolsFrom address k lines = Program.symbolsFrom address' k lines := by
  induction lines generalizing k with
  | nil => rfl
  | cons line rest induction =>
      have here : address k = address' k := same 0 (Nat.succ_pos _)
      have later : ∀ j < rest.length, address (k + 1 + j) = address' (k + 1 + j) := by
        intro j below
        rw [Nat.add_assoc, Nat.add_comm 1 j]
        exact same (j + 1) (Nat.succ_lt_succ below)
      rw [Program.symbolsFrom, Program.symbolsFrom, here, induction later]

namespace SourceFile

variable (f : SourceFile)

/-- Up to the end of the code the words are counted. -/
theorem address_code {k : Nat} (inside : k ≤ f.code.lines.length) :
    f.address k = wordAddress f.code.lines k := by
  rw [address, Nat.sub_eq_zero_of_le inside]
  rfl

theorem address_data (j : Nat) : f.address (f.code.lines.length + j) =
    BitVec.ofNat 32 (f.codeLength + ((f.datums.take j).flatMap (·.bytes)).length) := by
  rw [address, List.take_of_length_le (Nat.le_add_right _ _), Nat.add_sub_cancel_left]
  rfl

/-- The lines of the file carry the labels of its table. -/
theorem address_symbols (name : Identifier) :
    (Target.label name).address (f.program.symbols f.address) =
      (Target.label name).address f.symbols := by
  apply address_of_entries
  have code : Program.symbolsFrom f.address 0 f.code.lines =
      Program.symbolsFrom (wordAddress f.code.lines) 0 f.code.lines := by
    apply symbolsFrom_congr
    intro j below
    rw [Nat.zero_add]
    exact f.address_code (le_of_lt below)
  show (Program.symbolsFrom f.address 0 f.lines).map Label.entry = _
  rw [lines, Program.symbolsFrom_append, code, Nat.zero_add, symbols, List.map_append,
    List.map_append, entries_dataSymbols f.address_data]
  rfl

end SourceFile

end Symbols

section Instance

def regT0 : RegName := ⟨_, 5, .abi 5⟩

def regA7 : RegName := ⟨_, 17, .abi 17⟩

def nameX : Identifier := ⟨'x', [], by decide, by decide, by decide⟩

/-- Exits with the status that its data holds. -/
def storedStatus : SourceFile where
  code :=
    { opens := true
      lines :=
        [⟨none, some (.pseudo (.la regT0 nameX))⟩,
          ⟨none, some (.instr (.load .lw regA0 (.ofInt 0 (by decide) (by decide)) regT0))⟩,
          ⟨none, some (.pseudo (.li regA7 (.ofInt 93 (by decide) (by decide))))⟩,
          ⟨none, some (.instr .ecall)⟩] }
  data := some [⟨some nameX, [7, 0, 0, 0]⟩]

def storedStatusSource : Text :=
  ".text\nla t0, x\nlw a0, 0(t0)\nli a7, 93\necall\n.data\nx: .word 7\n".toList

theorem spelled_storedStatus :
    (⟨some nameX, [7, 0, 0, 0]⟩ : Datum).Spelled "x: .word 7\n".toList where
  stays := by decide +kernel
  label := by decide +kernel
  directive := by
    let seven := ListDirective.entryOfDigits ['7'] (by decide) (by decide)
    have item : lineItem "x: .word 7\n".toList = some ".word 7".toList := by decide +kernel
    have text : ".word 7".toList = ListDirective.word.name ++ entriesText [seven] := by
      decide +kernel
    have bytes : ([7, 0, 0, 0] : List Byte) =
        [seven].flatMap fun v => ListDirective.word.bytesOf v.value := by
      decide +kernel
    intro i here
    rw [item] at here
    cases here
    constructor
    · show DirectiveBytes _ [7, 0, 0, 0]
      rw [text, bytes]
      exact .numerals .word (by decide +kernel) (fun byte => by cases byte)
    · have numeral : Numeral ['7'] 7 := .decimal (by decide) (by decide)
      exact
        { list := fun _ _ _ => ⟨[.ofNumeral numeral (by simp [Canonical])], rfl⟩
          space := fun starts => absurd starts (by decide) }
  blank := by
    intro none
    have item : lineItem "x: .word 7\n".toList = some ".word 7".toList := by decide +kernel
    rw [item] at none
    cases none

theorem spells_storedStatus : storedStatus.Spells storedStatusSource :=
  ⟨[".text\n".toList, "la t0, x\n".toList, "lw a0, 0(t0)\n".toList, "li a7, 93\n".toList,
    "ecall\n".toList], ".data\n".toList, ["x: .word 7\n".toList], by decide +kernel,
    by decide +kernel, by decide +kernel, .cons spelled_storedStatus .nil⟩

theorem encodable_storedStatus : storedStatus.Encodable := by
  intro k line found c member
  match k with
  | 0 =>
      cases found
      cases member
      exact ⟨20, by decide⟩
  | 1 =>
      cases found
      cases member
      rfl
  | 2 =>
      cases found
      cases member
      exact ⟨by decide, by decide⟩
  | 3 =>
      cases found
      cases member
      rfl
  | k + 4 => cases found

theorem foreseen_storedStatus : storedStatus.code.Foreseen := by
  intro line member c statement
  simp only [storedStatus, List.mem_cons, List.not_mem_nil, or_false] at member
  rcases member with rfl | rfl | rfl | rfl
  · cases statement
    trivial
  · cases statement
    trivial
  · cases statement
    exact Statement.foreseen_of_short ⟨by decide, by decide⟩ (by decide)
  · cases statement
    trivial

theorem SourceFile.assembles_iff_distinct_stored :
    ((∃ result, assemble storedStatusSource = some result) ↔
        (definedNames storedStatus.lines).Nodup) ∧
      ∀ result, assemble storedStatusSource = some result →
        result.labels = storedStatus.symbols ∧
          result.bytes = storedStatus.codeBytes ++ storedStatus.dataBytes ∧
          storedStatus.codeBytes.length = storedStatus.codeLength :=
  SourceFile.assembles_iff_distinct spells_storedStatus foreseen_storedStatus
    encodable_storedStatus (.inr (by decide))

end Instance

end RiscvPack.Asm
