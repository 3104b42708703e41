import RiscvPack.Assembler.LockStep

/-!
# The legacy counters

`pc_text` and `pc_data` repeat the offsets of `.text` and `.data`, and the
second pass starts plain `.data` at `pc_text`.  Instructions grow the counter
with the section; a data directive in `.text` grows the section only.
-/

namespace RiscvPack.Asm

open CString Runs
open SourceLine (read)

/-- The counters show the sizes of their sections. -/
structure Mirrors (asm : Assembler) : Prop where
  text : asm.pcText = sectionOffset asm textName
  data : asm.pcData = sectionOffset asm dataName

/-- The line is a directive that no label precedes; `directive` is its text. -/
structure PlainDirective (line directive : Text) : Prop where
  content : read line = .content directive
  unlabelled : strchr ':' directive = none
  dotted : directive.head? = some '.'

/-- The line adds nothing to `.text` as a data directive. -/
def NoTextData (asm : Assembler) (line : Text) : Prop :=
  ∀ directive, PlainDirective line directive → asm.currentSectionName = textName →
    directiveCount directive = 0

section Growth

variable {asm : Assembler} {size : Word}

@[simp] theorem growText_pcData (asm : Assembler) (size : Word) :
    (growText asm size).pcData = asm.pcData := by
  unfold growText
  split <;> rfl

@[simp] theorem growData_pcText (asm : Assembler) (size : Word) :
    (growData asm size).pcText = asm.pcText := by
  unfold growData
  split <;> rfl

theorem mirrors_growText (mirrors : Mirrors asm)
    (noData : asm.currentSectionName ≠ dataName) : Mirrors (growText asm size) where
  text := by
    rw [sectionOffset, growText_sections, sectionOffset_addOffset, growText,
      ← mirrors.text]
    by_cases here : asm.currentSectionName = textName
    · rw [if_pos here, if_pos here.symm]
      rfl
    · rw [if_neg here, if_neg (Ne.symm here)]
      exact (BitVec.add_zero _).symm
  data := by
    rw [sectionOffset, growText_sections, sectionOffset_addOffset,
      if_neg (Ne.symm noData), ← mirrors.data, growText_pcData]
    exact (BitVec.add_zero _).symm

/-- Data is counted except in `.text`. -/
theorem mirrors_growData_iff (mirrors : Mirrors asm) :
    Mirrors (growData asm size) ↔ (asm.currentSectionName = textName → size = 0) := by
  have grown : sectionOffset (growData asm size) textName =
      asm.pcText + if textName = asm.currentSectionName then size else 0 := by
    rw [sectionOffset, growData_sections, sectionOffset_addOffset, mirrors.text]
  have data : (growData asm size).pcData = sectionOffset (growData asm size) dataName := by
    rw [sectionOffset, growData_sections, sectionOffset_addOffset, growData,
      ← mirrors.data]
    by_cases here : asm.currentSectionName = dataName
    · rw [if_pos here, if_pos here.symm]
      rfl
    · rw [if_neg here, if_neg (Ne.symm here)]
      exact (BitVec.add_zero _).symm
  constructor
  · intro after here
    have shown := after.text
    rw [growData_pcText, grown, if_pos here.symm] at shown
    simpa using shown.symm
  · intro none
    refine ⟨?_, data⟩
    rw [growData_pcText, grown]
    by_cases here : asm.currentSectionName = textName
    · rw [if_pos here.symm, none here]
      exact (BitVec.add_zero _).symm
    · rw [if_neg (Ne.symm here)]
      exact (BitVec.add_zero _).symm

end Growth

section Lines

variable {asm asm' : Assembler} {s line : Text}

theorem mirrors_label (formed : WellFormed asm) (mirrors : Mirrors asm)
    (processed : processLabel asm s = .ok asm') : WellFormed asm' ∧ Mirrors asm' := by
  refine ⟨(processLabel_changes processed).wellFormed formed, ?_⟩
  rw [processLabel_eq processed]
  split
  · exact mirrors
  · exact ⟨mirrors.text, mirrors.data⟩

theorem mirrors_instruction (formed : WellFormed asm) (mirrors : Mirrors asm)
    (text : asm.getCurrentSection.type = .text)
    (processed : processInstructionFirstPass asm s = .ok asm') : Mirrors asm' := by
  obtain ⟨pseudoSize, _, result⟩ := bind_eq_ok.mp processed
  cases result
  apply mirrors_growText mirrors
  intro here
  rw [formed.currentType, here] at text
  exact absurd text (by decide)

theorem mirrors_directive_iff (mirrors : Mirrors asm)
    (processed : processDirective asm s = .ok asm') :
    Mirrors asm' ↔ (asm.currentSectionName = textName → directiveCount s = 0) := by
  rcases processDirective_cases processed with rfl | ⟨rfl, none⟩
  · exact mirrors_growData_iff mirrors
  · exact iff_of_true mirrors fun _ => none

theorem mirrors_content_iff (formed : WellFormed asm) (mirrors : Mirrors asm)
    (content : read line = .content s) (processed : firstPassContent asm s = .ok asm') :
    Mirrors asm' ↔ NoTextData asm line := by
  have only {directive : Text} (plain : PlainDirective line directive) :
      directive = s := by
    have same := plain.content
    rw [content] at same
    cases same
    rfl
  cases found : strchr ':' s with
  | some parts =>
      obtain ⟨before, afterColon⟩ := parts
      -- A directive behind a label in `.text` is taken for an instruction.
      have labelled : NoTextData asm line := by
        intro directive plain
        have missing := plain.unlabelled
        rw [only plain, found] at missing
        cases missing
      refine iff_of_true ?_ labelled
      simp only [firstPassContent, found] at processed
      obtain ⟨middle, label, rest⟩ := bind_eq_ok.mp processed
      obtain ⟨formed', mirrors'⟩ := mirrors_label formed mirrors label
      split at rest
      · split at rest
        · rename_i text
          exact mirrors_instruction formed' mirrors' text rest
        rename_i data
        split at rest
        · apply (mirrors_directive_iff mirrors' rest).mpr
          intro here
          rw [formed'.currentType, here] at data
          exact absurd rfl data
        · cases rest
          exact mirrors'
      · cases rest
        exact mirrors'
  | none =>
      simp only [firstPassContent, found] at processed
      by_cases dotted : s.head? = some '.'
      · rw [if_pos dotted] at processed
        rw [mirrors_directive_iff mirrors processed]
        constructor
        · intro none directive plain here
          rw [only plain]
          exact none here
        · intro noData here
          exact noData s ⟨content, found, dotted⟩ here
      · have instruction : NoTextData asm line := by
          intro directive plain
          have dot := plain.dotted
          rw [only plain] at dot
          exact absurd dot dotted
        refine iff_of_true ?_ instruction
        rw [if_neg dotted] at processed
        split at processed
        · rename_i text
          exact mirrors_instruction formed mirrors text processed
        · cases processed
          exact mirrors

theorem mirrors_switch (mirrors : Mirrors asm) (name : Text) :
    Mirrors (asm.switchSection name) where
  text := by
    rw [sectionOffset_switchSection]
    exact mirrors.text
  data := by
    rw [sectionOffset_switchSection]
    exact mirrors.data

/-- One line keeps the counters in step exactly when it puts no data in
`.text`. -/
theorem mirrors_line_iff (formed : WellFormed asm) (mirrors : Mirrors asm)
    (stepped : firstPassLine asm line = .done asm') :
    Mirrors asm' ↔ NoTextData asm line := by
  cases kind : read line with
  | content s =>
      exact mirrors_content_iff formed mirrors kind (processed_of_content kind stepped)
  | skipped | legacyText | legacyData | named =>
      have quiet : NoTextData asm line := by
        intro directive plain
        have content := plain.content
        rw [kind] at content
        cases content
      rw [firstPassLine_eq, kind] at stepped
      cases stepped
      refine iff_of_true ?_ quiet
      first
        | exact mirrors
        | exact mirrors_switch mirrors _

end Lines

section Runs

variable (source : Text)

/-- Where `adjust_labels` goes on behind `.text`. -/
def textEnd (asm : Assembler) : Word := (placeStandard textName (asm.sections, 0)).2

theorem textEnd_eq (asm : Assembler) : textEnd asm = sectionOffset asm textName := by
  simp only [textEnd, placeStandard, sectionOffset]
  cases asm.sections.find? textName with
  | none => rfl
  | some sec => exact BitVec.zero_add _

/-- The counters are in step after every line of the first pass, and the
second pass starts plain `.data` at the end of `.text`. -/
def CountersMirror : Prop :=
  (∀ front rest asm, sourceLines source = front ++ rest →
    run firstPassLine Assembler.init front = .done asm → Mirrors asm) ∧
  ∀ asm, firstPass Assembler.init source = .done asm →
    openingAddr (placedTables asm) .legacyData = textEnd asm

/-- No line that the first pass gets past puts data in `.text`. -/
def NoDataInText : Prop :=
  ∀ front line rest asm asm', sourceLines source = front ++ line :: rest →
    run firstPassLine Assembler.init front = .done asm →
    firstPassLine asm line = .done asm' → NoTextData asm line

theorem mirrors_init : Mirrors Assembler.init := ⟨by decide, by decide⟩

/-- The counters are in step all along the pass exactly when `.text` gets no
data. -/
theorem mirrors_always_iff :
    (∀ front rest asm, sourceLines source = front ++ rest →
      run firstPassLine Assembler.init front = .done asm → Mirrors asm) ↔
      NoDataInText source :=
  run_always_iff
    (fun _ _ _ formed stepped => (firstPassLine_changes stepped).wellFormed formed)
    (fun _ _ _ formed mirrors stepped => mirrors_line_iff formed mirrors stepped)
    wellFormed_init mirrors_init

theorem noDataInText_of_states {source : Text}
    (checked : ∀ k ≤ (sourceLines source).length,
      let asm := (run firstPassLine Assembler.init ((sourceLines source).take k)).last
      asm.pcText = sectionOffset asm textName ∧ asm.pcData = sectionOffset asm dataName) :
    NoDataInText source := by
  apply (mirrors_always_iff source).mp
  intro front rest asm split reached
  have taken : (sourceLines source).take front.length = front := by
    rw [split, List.take_left]
  have short : front.length ≤ (sourceLines source).length := by
    rw [split, List.length_append]
    omega
  have state := checked front.length short
  rw [taken, reached] at state
  exact ⟨state.1, state.2⟩

/-- The legacy counters mirror the section table exactly when no unlabelled
directive puts bytes in `.text`. -/
theorem countersMirror_iff : CountersMirror source ↔ NoDataInText source := by
  have always := mirrors_always_iff source
  constructor
  · intro mirror
    exact always.mp mirror.1
  · intro noData
    refine ⟨always.mpr noData, ?_⟩
    intro asm produced
    obtain ⟨finished, ran, result⟩ := Outcome.andThen_eq_done.mp produced
    have mirrors := always.mpr noData (sourceLines source) [] finished (by simp) ran
    cases result
    exact mirrors.text.trans (textEnd_eq finished).symm

/-- A word in `.text` is counted in its section, and not in `pc_text`; nothing
is written for it. -/
theorem not_countersMirror_word :
    let source := ".word 1\n.data\n.word 2\n".toList
    let asm := growData ((growData Assembler.init 4).switchSection dataName) 4
    run firstPassLine Assembler.init (sourceLines source) = .done asm ∧
      asm.pcText = 0 ∧ sectionOffset asm textName = 4 ∧ ¬ CountersMirror source := by
  intro source asm
  have ran : run firstPassLine Assembler.init (sourceLines source) = .done asm ∧
      asm.pcText = 0 ∧ sectionOffset asm textName = 4 := by
    decide +kernel
  refine ⟨ran.1, ran.2.1, ran.2.2, fun mirror => ?_⟩
  have mirrors := mirror.1 (sourceLines source) [] asm (by simp) ran.1
  have same := mirrors.text
  rw [ran.2.1, ran.2.2] at same
  exact absurd same (by decide)

end Runs

end RiscvPack.Asm
