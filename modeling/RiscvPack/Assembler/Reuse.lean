import RiscvPack.Assembler.Dispatch

/-!
# Reusing an assembler

`first_pass` forgets the labels of an earlier file, not the offsets of its
sections and not the section it ended in.  What the first pass does depends on
nothing else that an assembler keeps, so an assembler is as good as a new one
exactly when every offset is zero and the current section is `.text`.
-/

namespace RiscvPack.Asm

open CString Runs
open SourceLine (read)

section Typed

/-- Sections have the type of their name, and the current one exists. -/
structure Typed (asm : Assembler) : Prop where
  typed : ∀ name sec, asm.sections.find? name = some sec → sec.type = getSectionType name
  current : (asm.sections.find? asm.currentSectionName).isSome

variable {asm asm' : Assembler}

theorem Typed.getType (typed : Typed asm) :
    asm.getCurrentSection.type = getSectionType asm.currentSectionName := by
  obtain ⟨sec, found⟩ := Option.isSome_iff_exists.mp typed.current
  rw [Assembler.getCurrentSection, found]
  exact typed.typed _ _ found

theorem typed_init : Typed Assembler.init where
  typed := fun name sec found => (wellFormed_init.typed name sec found).1
  current := wellFormed_init.current

theorem Typed.change (typed : Typed asm) (change : Change asm asm') : Typed asm' where
  typed := change.sections (P := fun name sec => sec.type = getSectionType name)
    (fun _ => rfl) (fun _ _ _ typed => typed) typed.current typed.typed
  current := change.current typed.current

theorem placeSections_kept (sections : SectionTable) (key : Text) :
    ((placeSections sections).find? key).map (fun sec => (sec.type, sec.offset)) =
      (sections.find? key).map (fun sec => (sec.type, sec.offset)) := by
  have standard (name : Text) (placed : SectionTable × Word) :
      ((placeStandard name placed).1.find? key).map (fun sec => (sec.type, sec.offset)) =
        (placed.1.find? key).map (fun sec => (sec.type, sec.offset)) := by
    obtain ⟨sections, currentBase⟩ := placed
    simp only [placeStandard]
    cases found : sections.find? name with
    | none => rfl
    | some sec =>
        simp only [SortedMap.find?_insert]
        split
        · rename_i same
          rw [same, found]
          rfl
        · rfl
  have custom (base : Word) (sec : SectionInfo) :
      ((placeCustom base sec).2.type, (placeCustom base sec).2.offset) =
        (sec.type, sec.offset) := by
    obtain ⟨placed, same⟩ := placeCustom_fields base sec
    rw [same]
  unfold placeSections
  simp only
  rw [SortedMap.find?_mapAccum custom, standard, standard, standard, standard]

theorem sectionOffset_adjustLabels (asm : Assembler) (base : Word) (name : Text) :
    sectionOffset (adjustLabels asm base) name = sectionOffset asm name := by
  have kept := congrArg (Option.map Prod.snd) (placeSections_kept asm.sections name)
  rw [Option.map_map, Option.map_map] at kept
  exact congrArg (Option.getD · 0) kept

theorem Typed.adjusted (typed : Typed asm) (base : Word) : Typed (adjustLabels asm base) := by
  constructor
  · intro name sec found
    have kept := placeSections_kept asm.sections name
    rw [show (placeSections asm.sections).find? name = some sec from found] at kept
    obtain ⟨old, present, same⟩ := Option.map_eq_some_iff.mp kept.symm
    have sameType : old.type = sec.type := congrArg Prod.fst same
    rw [← sameType]
    exact typed.typed name old present
  · have kept := congrArg Option.isSome (placeSections_kept asm.sections asm.currentSectionName)
    rw [Option.isSome_map, Option.isSome_map] at kept
    exact kept.trans typed.current

end Typed

section Twins

/-- Two assemblers that the first pass does not tell apart. -/
structure Twin (asm other : Assembler) : Prop where
  left : Typed asm
  right : Typed other
  labels : asm.labels = other.labels
  current : asm.currentSectionName = other.currentSectionName
  offsets : ∀ name, sectionOffset asm name = sectionOffset other name

variable {asm other : Assembler} {s line : Text}

namespace Twin

theorem type (twin : Twin asm other) :
    asm.getCurrentSection.type = other.getCurrentSection.type := by
  rw [twin.left.getType, twin.right.getType, twin.current]

theorem offset (twin : Twin asm other) :
    asm.getCurrentSection.offset = other.getCurrentSection.offset := by
  rw [getCurrentSection_offset, getCurrentSection_offset, twin.current, twin.offsets]

theorem switch (twin : Twin asm other) (name : Text) :
    Twin (asm.switchSection name) (other.switchSection name) where
  left := twin.left.change (.switch _ name)
  right := twin.right.change (.switch _ name)
  labels := twin.labels
  current := rfl
  offsets := fun key => by
    rw [sectionOffset_switchSection, sectionOffset_switchSection, twin.offsets]

theorem addLabel (twin : Twin asm other) (name : Text) :
    Twin (addLabel asm name) (addLabel other name) where
  left := ⟨twin.left.typed, twin.left.current⟩
  right := ⟨twin.right.typed, twin.right.current⟩
  labels := by
    simp only [Asm.addLabel, twin.labels, twin.offset, twin.current]
  current := twin.current
  offsets := twin.offsets

theorem growText (twin : Twin asm other) (size : Word) :
    Twin (growText asm size) (growText other size) where
  left := twin.left.change (.text _ size)
  right := twin.right.change (.text _ size)
  labels := by
    rw [growText_labels, growText_labels, twin.labels]
  current := by
    rw [growText_current, growText_current, twin.current]
  offsets := fun name => by
    rw [sectionOffset, sectionOffset, growText_sections, growText_sections,
      sectionOffset_addOffset, sectionOffset_addOffset, twin.offsets, twin.current]

theorem growData (twin : Twin asm other) (size : Word) :
    Twin (growData asm size) (growData other size) where
  left := twin.left.change (.data _ size)
  right := twin.right.change (.data _ size)
  labels := by
    rw [growData_labels, growData_labels, twin.labels]
  current := by
    rw [growData_current, growData_current, twin.current]
  offsets := fun name => by
    rw [sectionOffset, sectionOffset, growData_sections, growData_sections,
      sectionOffset_addOffset, sectionOffset_addOffset, twin.offsets, twin.current]

end Twin

theorem processLabel_paired (twin : Twin asm other) (s : Text) :
    Paired Twin (processLabel asm s) (processLabel other s) := by
  unfold processLabel
  simp only [twin.labels]
  split
  · exact .ok twin
  · split
    · exact .error _
    · exact .ok (twin.addLabel _)

theorem processInstructionFirstPass_paired (twin : Twin asm other) (s : Text) :
    Paired Twin (processInstructionFirstPass asm s) (processInstructionFirstPass other s) := by
  unfold processInstructionFirstPass
  simp only [twin.labels]
  cases pseudoinstructionSize other.labels (parseSimpleArgs s).op (parseSimpleArgs s).a2 with
  | error reason => exact .error reason
  | ok size => exact .ok (twin.growText _)

theorem processDirective_paired (twin : Twin asm other) (s : Text) :
    Paired Twin (processDirective asm s) (processDirective other s) := by
  have quoted (size : List Byte → Word) (string : Text) :
      Paired Twin
        (do let bytes ← parseEscapedString string
            Except.ok (growData asm (size bytes)))
        (do let bytes ← parseEscapedString string
            Except.ok (growData other (size bytes))) := by
    cases parseEscapedString string with
    | error reason => exact .error reason
    | ok bytes => exact .ok (twin.growData _)
  unfold processDirective
  simp only
  split
  · cases strchr '"' (trim s) with
    | none => exact .error _
    | some found => exact quoted _ found.2
  split
  · cases strchr '"' (trim s) with
    | none => exact .error _
    | some found => exact quoted _ found.2
  split
  · exact .ok (twin.growData _)
  split
  · exact .ok (twin.growData _)
  split
  · exact .ok (twin.growData _)
  split
  · cases scanInt ((trim s).drop 6) with
    | none => exact .ok twin
    | some size => exact .ok (twin.growData size)
  · exact .ok twin

theorem firstPassContent_paired (twin : Twin asm other) (s : Text) :
    Paired Twin (firstPassContent asm s) (firstPassContent other s) := by
  unfold firstPassContent
  cases strchr ':' s with
  | none =>
      simp only [twin.type]
      split
      · exact processDirective_paired twin s
      split
      · exact processInstructionFirstPass_paired twin s
      · exact .ok twin
  | some found =>
      apply (processLabel_paired twin found.1).bind
      intro labelled labelled' twin
      simp only [twin.type]
      split
      · split
        · exact processInstructionFirstPass_paired twin _
        split
        · exact processDirective_paired twin _
        · exact .ok twin
      · exact .ok twin

/-- One line keeps two assemblers alike. -/
theorem firstPassLine_paired (twin : Twin asm other) (line : Text) :
    Outcome.Paired Twin (firstPassLine asm line) (firstPassLine other line) := by
  rw [firstPassLine_eq, firstPassLine_eq]
  cases read line with
  | skipped => exact .done twin
  | legacyText => exact .done (twin.switch _)
  | legacyData => exact .done (twin.switch _)
  | named name => exact .done (twin.switch name)
  | content s =>
      have paired := firstPassContent_paired twin s
      simp only [firstPassRead]
      generalize firstPassContent asm s = x at paired ⊢
      generalize firstPassContent other s = y at paired ⊢
      cases paired with
      | ok same => exact .done same
      | error reason => exact .stopped reason twin

theorem Twin.sizeOf_eq (twin : Twin asm other) (types : List SectionType) :
    sizeOf asm.sections types = sizeOf other.sections types := by
  rw [Asm.sizeOf_eq, Asm.sizeOf_eq]
  apply SortedMap.sum_values_eq
  have value {asm : Assembler} (typed : Typed asm) (key : Text) :
      ((asm.sections.find? key).map fun info =>
        if info.type ∈ types then info.offset else 0).getD 0 =
        if getSectionType key ∈ types then sectionOffset asm key else 0 := by
    unfold sectionOffset
    cases found : asm.sections.find? key with
    | none => simp
    | some sec => simp [typed.typed key sec found]
  intro key
  rw [value twin.left, value twin.right, twin.offsets]

end Twins

section Reuse

/-- An assembler on which any passes have been run. -/
inductive Used : Assembler → Prop where
  | new : Used Assembler.init
  | ran {asm asm' : Assembler} {source : Text} :
      Used asm → firstPass asm source = .done asm' → Used asm'
  | adjusted {asm : Assembler} (dataBase : Word) :
      Used asm → Used (adjustLabels asm dataBase)

/-- The same label table and the same sizes. -/
structure SameTables (asm other : Assembler) : Prop where
  labels : asm.labels = other.labels
  offsets : ∀ name, sectionOffset asm name = sectionOffset other name
  textSize : asm.textSize = other.textSize
  dataSize : asm.dataSize = other.dataSize

/-- On every file the first pass does what it does with a new assembler. -/
def Reusable (asm : Assembler) : Prop :=
  ∀ source, match firstPass Assembler.init source with
    | .done fresh => ∃ again, firstPass asm source = .done again ∧ SameTables again fresh
    | .stopped reason _ => ∃ last, firstPass asm source = .stopped reason last

/-- Nothing is left of earlier files. -/
structure Clean (asm : Assembler) : Prop where
  offsets : ∀ name, sectionOffset asm name = 0
  current : asm.currentSectionName = textName

variable {asm : Assembler}

theorem Used.typed (used : Used asm) : Typed asm := by
  induction used with
  | new => exact typed_init
  | @ran asm asm' source _ produced induction =>
      obtain ⟨finished, ran, result⟩ := Outcome.andThen_eq_done.mp produced
      cases result
      have start : Typed { asm with labels := [], pcText := 0, pcData := 0 } :=
        ⟨induction.typed, induction.current⟩
      have typed : Typed finished :=
        run_firstPass_invariant (fun _ _ typed change => typed.change change) start ran
      exact ⟨typed.typed, typed.current⟩
  | adjusted dataBase _ induction => exact induction.adjusted dataBase

theorem sectionOffset_init (name : Text) : sectionOffset Assembler.init name = 0 := by
  unfold sectionOffset
  simp only [Assembler.init, SortedMap.find?_insert]
  split
  · rfl
  split
  · rfl
  split
  · rfl
  split
  · rfl
  · rfl

theorem reusable_of_clean (typed : Typed asm) (clean : Clean asm) : Reusable asm := by
  intro source
  have start : Twin { asm with labels := [], pcText := 0, pcData := 0 }
      { Assembler.init with labels := [], pcText := 0, pcData := 0 } := by
    refine ⟨⟨typed.typed, typed.current⟩, ⟨typed_init.typed, typed_init.current⟩, rfl,
      clean.current, ?_⟩
    intro name
    exact (clean.offsets name).trans (sectionOffset_init name).symm
  have steps (asm other : Assembler) (line : Text) (_ : line ∈ sourceLines source)
      (twin : Twin asm other) :
      Outcome.Paired Twin (firstPassLine asm line) (firstPassLine other line) :=
    firstPassLine_paired twin line
  have paired := run_paired steps start
  unfold firstPass
  simp only
  generalize run firstPassLine _ (sourceLines source) = x at paired ⊢
  generalize run firstPassLine _ (sourceLines source) = y at paired ⊢
  cases paired with
  | done twin =>
      refine ⟨_, rfl, twin.labels, twin.offsets, ?_, ?_⟩
      · exact twin.sizeOf_eq [.text]
      · exact twin.sizeOf_eq [.data, .rodata, .bss]
  | stopped reason twin => exact ⟨_, rfl⟩

theorem firstPass_label (asm : Assembler) :
    ∃ again, firstPass asm "x:\n".toList = .done again ∧ again.labels =
      [{ name := ['x']
         addr := asm.getCurrentSection.offset
         sectionName := asm.currentSectionName }] := by
  have lines : sourceLines "x:\n".toList = ["x:\n".toList] := by
    decide +kernel
  have content : read "x:\n".toList = .content "x:".toList := by
    decide +kernel
  simp only [firstPass, lines, run_cons, firstPassLine_eq, content]
  exact ⟨_, rfl, rfl⟩

theorem clean_of_reusable (reusable : Reusable asm) : Clean asm := by
  constructor
  · intro name
    obtain ⟨again, empty, same⟩ := reusable []
    cases empty
    exact (same.offsets name).trans (sectionOffset_init name)
  · obtain ⟨again, result, labels⟩ := firstPass_label asm
    obtain ⟨fresh, result', labels'⟩ := firstPass_label Assembler.init
    have same := reusable "x:\n".toList
    rw [result'] at same
    obtain ⟨again', result'', tables⟩ := same
    rw [result] at result''
    cases result''
    have equal := tables.labels
    rw [labels, labels'] at equal
    exact congrArg Label.sectionName (List.cons.inj equal).1

/-- An assembler that has been used can be used as a new one exactly when the
files before have left every offset at zero and `.text` as the current section. -/
theorem reusable_iff_clean (used : Used asm) : Reusable asm ↔ Clean asm :=
  ⟨clean_of_reusable, reusable_of_clean used.typed⟩

/-- A file of one label, placed. -/
theorem reusable_iff_clean_label :
    let asm := (firstPass Assembler.init "x:\n".toList).last
    Reusable (adjustLabels asm asm.pcText) ↔ Clean (adjustLabels asm asm.pcText) := by
  intro asm
  have produced : firstPass Assembler.init "x:\n".toList = .done asm := by
    decide +kernel
  exact reusable_iff_clean (.adjusted _ (.ran .new produced))

/-- A second first pass over a file of one instruction counts it twice. -/
theorem not_reusable_nop :
    let source : Text := "nop\n".toList
    let asm := (firstPass Assembler.init source).last
    let again := (firstPass asm source).last
    firstPass Assembler.init source = .done asm ∧ asm.textSize = 4 ∧
      firstPass asm source = .done again ∧ again.textSize = 8 ∧ ¬ Reusable asm := by
  intro source asm again
  have once : firstPass Assembler.init source = .done asm ∧ asm.textSize = 4 := by
    decide +kernel
  have twice : firstPass asm source = .done again ∧ again.textSize = 8 := by
    decide +kernel
  refine ⟨once.1, once.2, twice.1, twice.2, ?_⟩
  intro reusable
  have same := reusable source
  rw [once.1] at same
  obtain ⟨again', result, tables⟩ := same
  rw [twice.1] at result
  cases result
  have sizes := tables.textSize
  rw [once.2, twice.2] at sizes
  exact absurd sizes (by decide)

end Reuse

end RiscvPack.Asm
