import RiscvPack.Assembler.AdjustLabels
import Mathlib.Logic.Relation

/-!
# What the first pass does to its tables

A line of the source switches sections, adds a label, grows a section or does
nothing.  `firstPassLine_changes` says so once; every invariant of the tables
is then a statement about these four changes.
-/

namespace RiscvPack.Asm

open CString Runs

/-- The elementary changes of the first pass. -/
inductive Change : Assembler → Assembler → Prop where
  | switch (asm : Assembler) (name : Text) : Change asm (asm.switchSection name)
  | label (asm : Assembler) (name : Text) :
      (∀ label ∈ asm.labels, label.name ≠ name) → Change asm (addLabel asm name)
  | text (asm : Assembler) (size : Word) : Change asm (growText asm size)
  | data (asm : Assembler) (size : Word) : Change asm (growData asm size)

/-- Any number of elementary changes. -/
abbrev Changes : Assembler → Assembler → Prop := Relation.ReflTransGen Change

section Sections

variable (asm : Assembler) (name key : Text) (size : Word)

theorem find?_switchSection :
    (asm.switchSection name).sections.find? key =
      if key = name then
        some ((asm.sections.find? name).getD (.init name (getSectionType name)))
      else asm.sections.find? key := by
  cases found : asm.sections.find? name with
  | none =>
      have table : (asm.switchSection name).sections =
          asm.sections.insert name (.init name (getSectionType name)) := by
        simp only [Assembler.switchSection, found]
      rw [table]
      by_cases same : key = name
      · rw [if_pos same, same]
        exact SortedMap.find?_insert_self ..
      · rw [if_neg same]
        exact SortedMap.find?_insert_ne _ same _
  | some sec =>
      have table : (asm.switchSection name).sections = asm.sections := by
        simp only [Assembler.switchSection, found]
      rw [table]
      by_cases same : key = name
      · rw [if_pos same, same]
        exact found
      · rw [if_neg same]

theorem find?_addOffset :
    (asm.addOffset size).sections.find? key =
      if key = asm.currentSectionName then
        some { asm.getCurrentSection with
          offset := asm.getCurrentSection.offset + size }
      else asm.sections.find? key := by
  by_cases same : key = asm.currentSectionName
  · rw [if_pos same, same]
    exact SortedMap.find?_insert_self ..
  · rw [if_neg same]
    exact SortedMap.find?_insert_ne _ same _

@[simp] theorem growText_sections :
    (growText asm size).sections = (asm.addOffset size).sections := by
  unfold growText
  split <;> rfl

@[simp] theorem growText_current :
    (growText asm size).currentSectionName = asm.currentSectionName := by
  unfold growText
  split <;> rfl

@[simp] theorem growText_labels : (growText asm size).labels = asm.labels := by
  unfold growText
  split <;> rfl

@[simp] theorem growData_sections :
    (growData asm size).sections = (asm.addOffset size).sections := by
  unfold growData
  split <;> rfl

@[simp] theorem growData_current :
    (growData asm size).currentSectionName = asm.currentSectionName := by
  unfold growData
  split <;> rfl

@[simp] theorem growData_labels : (growData asm size).labels = asm.labels := by
  unfold growData
  split <;> rfl

theorem getCurrentSection_grown {asm' : Assembler}
    (sections : asm'.sections = (asm.addOffset size).sections)
    (current : asm'.currentSectionName = asm.currentSectionName) :
    asm'.getCurrentSection.offset = asm.getCurrentSection.offset + size := by
  rw [Assembler.getCurrentSection, current, sections, find?_addOffset, if_pos rfl]
  rfl

theorem getCurrentSection_growText :
    (growText asm size).getCurrentSection.offset = asm.getCurrentSection.offset + size :=
  getCurrentSection_grown asm size (growText_sections ..) (growText_current ..)

theorem getCurrentSection_growData :
    (growData asm size).getCurrentSection.offset = asm.getCurrentSection.offset + size :=
  getCurrentSection_grown asm size (growData_sections ..) (growData_current ..)

end Sections

section Lines

variable {asm asm' : Assembler} {s line : Text}

theorem processLabel_changes (processed : processLabel asm s = .ok asm') :
    Changes asm asm' := by
  simp only [processLabel] at processed
  split at processed
  · cases processed
    exact .refl
  · split at processed
    · cases processed
    · rename_i fresh
      cases processed
      apply Relation.ReflTransGen.single
      apply Change.label
      intro label member same
      exact fresh (List.any_eq_true.mpr ⟨label, member, by simpa using same⟩)

theorem processInstructionFirstPass_changes
    (processed : processInstructionFirstPass asm s = .ok asm') :
    Changes asm asm' := by
  obtain ⟨pseudoSize, _, result⟩ := bind_eq_ok.mp processed
  cases result
  exact .single (.text _ _)

theorem processDirective_changes (processed : processDirective asm s = .ok asm') :
    Changes asm asm' := by
  have string {size : List Byte → Word} {text : Text}
      (processed : (do
        let bytes ← parseEscapedString text
        Except.ok (growData asm (size bytes))) = .ok asm') : Changes asm asm' := by
    obtain ⟨bytes, _, result⟩ := bind_eq_ok.mp processed
    cases result
    exact .single (.data _ _)
  simp only [processDirective] at processed
  split at processed
  · split at processed
    · cases processed
    · exact string processed
  split at processed
  · split at processed
    · cases processed
    · exact string processed
  split at processed
  · cases processed
    exact .single (.data _ _)
  split at processed
  · cases processed
    exact .single (.data _ _)
  split at processed
  · cases processed
    exact .single (.data _ _)
  split at processed
  · split at processed
    · cases processed
      exact .single (.data _ _)
    · cases processed
      exact .refl
  · cases processed
    exact .refl

theorem firstPassContent_labelled {before afterColon : Text}
    (found : strchr ':' s = some (before, afterColon))
    (processed : firstPassContent asm s = .ok asm') :
    ∃ labelled, processLabel asm before = .ok labelled ∧ Changes labelled asm' := by
  simp only [firstPassContent, found] at processed
  obtain ⟨labelled, label, rest⟩ := bind_eq_ok.mp processed
  refine ⟨labelled, label, ?_⟩
  split at rest
  · split at rest
    · exact processInstructionFirstPass_changes rest
    split at rest
    · exact processDirective_changes rest
    · cases rest
      exact .refl
  · cases rest
    exact .refl

theorem firstPassContent_changes (processed : firstPassContent asm s = .ok asm') :
    Changes asm asm' := by
  cases found : strchr ':' s with
  | some parts =>
      obtain ⟨labelled, label, changes⟩ := firstPassContent_labelled found processed
      exact (processLabel_changes label).trans changes
  | none =>
      simp only [firstPassContent, found] at processed
      split at processed
      · exact processDirective_changes processed
      split at processed
      · exact processInstructionFirstPass_changes processed
      · cases processed
        exact .refl

/-- Everything a line can do to the tables. -/
theorem firstPassLine_changes (stepped : firstPassLine asm line = .done asm') :
    Changes asm asm' := by
  simp only [firstPassLine] at stepped
  split at stepped
  · cases stepped
    exact .refl
  split at stepped
  · split at stepped
    · cases stepped
      exact .single (.switch _ _)
    · cases stepped
      exact .refl
  split at stepped
  · cases stepped
    exact .single (.switch _ _)
  split at stepped
  · cases stepped
    exact .single (.switch _ _)
  split at stepped
  · cases stepped
    exact .single (.switch _ _)
  split at stepped
  · cases stepped
    exact .single (.switch _ _)
  split at stepped
  · cases stepped
    exact .refl
  split at stepped
  · rename_i content
    cases stepped
    exact firstPassContent_changes content
  · cases stepped

end Lines

/-- What every elementary change preserves, a run of the first pass
preserves. -/
theorem run_firstPass_invariant {I : Assembler → Prop} {asm asm' : Assembler}
    {lines : List Text} (preserved : ∀ a a', I a → Change a a' → I a')
    (start : I asm) (finished : run firstPassLine asm lines = .done asm') :
    I asm' := by
  refine run_invariant ?_ start finished
  intro a a' line _ holds stepped
  have changes := firstPassLine_changes stepped
  clear stepped
  induction changes with
  | refl => exact holds
  | tail _ change induction => exact preserved _ _ induction change

section Invariants

/-- The state of the tables between two lines: sections have the type of
their name and no base address yet, the standard sections and the current one
exist, and every label belongs to a section. -/
structure WellFormed (asm : Assembler) : Prop where
  typed : ∀ name sec, asm.sections.find? name = some sec →
    sec.type = getSectionType name ∧ sec.baseAddr = 0
  standard : ∀ name ∈ [textName, rodataName, dataName, bssName],
    (asm.sections.find? name).isSome
  current : (asm.sections.find? asm.currentSectionName).isSome
  labels : ∀ label ∈ asm.labels, (asm.sections.find? label.sectionName).isSome

theorem wellFormed_init : WellFormed Assembler.init where
  typed := by
    intro name sec found
    simp only [Assembler.init, SortedMap.find?_insert] at found
    split at found
    · rename_i same
      cases found
      subst same
      decide
    split at found
    · rename_i same
      cases found
      subst same
      decide
    split at found
    · rename_i same
      cases found
      subst same
      decide
    split at found
    · rename_i same
      cases found
      subst same
      decide
    · cases found
  standard := by decide
  current := by decide
  labels := by
    intro label member
    cases member

section Changes

variable {asm asm' : Assembler}

theorem Change.present {key : Text} (change : Change asm asm')
    (present : (asm.sections.find? key).isSome) :
    (asm'.sections.find? key).isSome := by
  cases change with
  | switch name =>
      rw [find?_switchSection]
      split
      · rfl
      · exact present
  | label name _ => exact present
  | text size =>
      rw [growText_sections, find?_addOffset]
      split
      · rfl
      · exact present
  | data size =>
      rw [growData_sections, find?_addOffset]
      split
      · rfl
      · exact present

theorem Change.current (change : Change asm asm')
    (present : (asm.sections.find? asm.currentSectionName).isSome) :
    (asm'.sections.find? asm'.currentSectionName).isSome := by
  have kept := change.present present
  cases change with
  | switch name =>
      have entered : (asm.switchSection name).currentSectionName = name := rfl
      rw [entered, find?_switchSection, if_pos rfl]
      rfl
  | label name _ => exact kept
  | text size => rwa [← growText_current asm size] at kept
  | data size => rwa [← growData_current asm size] at kept

/-- What holds of a new section and is kept when a section grows holds of all
sections after a change. -/
theorem Change.sections {P : Text → SectionInfo → Prop}
    (fresh : ∀ name, P name (.init name (getSectionType name)))
    (grown : ∀ name sec size, P name sec → P name { sec with offset := sec.offset + size })
    (change : Change asm asm')
    (current : (asm.sections.find? asm.currentSectionName).isSome)
    (holds : ∀ name sec, asm.sections.find? name = some sec → P name sec) :
    ∀ name sec, asm'.sections.find? name = some sec → P name sec := by
  obtain ⟨here, present⟩ := Option.isSome_iff_exists.mp current
  have known : asm.getCurrentSection = here := by
    rw [Assembler.getCurrentSection, present]
    rfl
  have grow (size : Word) : ∀ name sec,
      (asm.addOffset size).sections.find? name = some sec → P name sec := by
    intro name sec found
    rw [find?_addOffset, known] at found
    split at found
    · rename_i same
      cases found
      rw [same]
      exact grown _ _ size (holds _ _ present)
    · exact holds name sec found
  intro name sec found
  cases change with
  | switch entered =>
      rw [find?_switchSection] at found
      split at found
      · rename_i same
        cases found
        rw [same]
        cases existing : asm.sections.find? entered with
        | none => exact fresh entered
        | some old => exact holds entered old existing
      · exact holds name sec found
  | label _ _ => exact holds name sec found
  | text size =>
      rw [growText_sections] at found
      exact grow size name sec found
  | data size =>
      rw [growData_sections] at found
      exact grow size name sec found

/-- A label that a change adds belongs to the current section. -/
theorem Change.labels (change : Change asm asm') {label : Label} (member : label ∈ asm'.labels) :
    label ∈ asm.labels ∨ label.sectionName = asm.currentSectionName := by
  cases change with
  | switch name => exact .inl member
  | label name _ =>
      rcases List.mem_append.mp member with old | new
      · exact .inl old
      · cases List.mem_singleton.mp new
        exact .inr rfl
  | text size =>
      rw [growText_labels] at member
      exact .inl member
  | data size =>
      rw [growData_labels] at member
      exact .inl member

end Changes

theorem WellFormed.change {asm asm' : Assembler} (formed : WellFormed asm)
    (change : Change asm asm') : WellFormed asm' where
  typed := change.sections (P := fun name sec =>
      sec.type = getSectionType name ∧ sec.baseAddr = 0)
    (fun _ => ⟨rfl, rfl⟩) (fun _ _ _ typed => typed) formed.current formed.typed
  standard := fun name standard => change.present (formed.standard name standard)
  current := change.current formed.current
  labels := by
    intro label member
    apply change.present
    rcases change.labels member with old | here
    · exact formed.labels label old
    · rw [here]
      exact formed.current

theorem sizeOf_eq (sections : SectionTable) (types : List SectionType) :
    sizeOf sections types =
      (sections.values.map fun info =>
        if info.type ∈ types then info.offset else 0).sum := by
  unfold sizeOf
  induction sections.values with
  | nil => rfl
  | cons info rest induction =>
      rw [List.map_cons, List.sum_cons, ← induction, List.filter_cons]
      by_cases counts : info.type ∈ types
      · simp [counts]
      · simp [counts]

/-- The tables are well formed after the first pass. -/
theorem wellFormed_firstPass {source : Text} {asm : Assembler}
    (produced : firstPass Assembler.init source = .done asm) :
    WellFormed asm := by
  obtain ⟨finished, ran, result⟩ := Outcome.andThen_eq_done.mp produced
  cases result
  have formed : WellFormed finished :=
    run_firstPass_invariant (fun _ _ formed change => formed.change change)
      ⟨wellFormed_init.typed, wellFormed_init.standard, wellFormed_init.current,
        wellFormed_init.labels⟩ ran
  exact ⟨formed.typed, formed.standard, formed.current, formed.labels⟩

end Invariants

end RiscvPack.Asm
