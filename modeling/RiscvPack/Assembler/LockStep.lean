import RiscvPack.Assembler.LineSizes
import RiscvPack.Assembler.Sections

/-!
# The two passes in lock-step

The first pass counts what a line will occupy, the second one writes it.  On
lines of the shapes below the two agree, so at every line the offset of a
section is the number of bytes the second pass has put into it, and a label
records the offset of its line.
-/

namespace RiscvPack.Asm

open CString Runs Files
open SourceLine (read)

section Content

theorem length_fgetsFrom {room : Nat} {current source : Text}
    (fits : current.length + room < maxLine) (positive : 0 < room) :
    ∀ line ∈ fgetsFrom room current source, line.length < maxLine := by
  induction source generalizing room current with
  | nil =>
      intro line member
      unfold fgetsFrom at member
      split at member
      · cases member
      · cases List.mem_singleton.mp member
        omega
  | cons c rest induction =>
      intro line member
      unfold fgetsFrom at member
      split at member
      · rcases List.mem_cons.mp member with rfl | later
        · rw [List.length_append]
          exact lt_of_le_of_lt (Nat.add_le_add_left positive _) fits
        · exact induction (by decide) (by decide) line later
      · rename_i continues
        refine induction ?_ (by omega) line member
        rw [List.length_append, List.length_singleton]
        omega

theorem length_sourceLines {source line : Text}
    (member : line ∈ sourceLines source) : line.length < maxLine := by
  obtain ⟨whole, wholeMember, rfl⟩ := List.mem_map.mp member
  exact (List.takeWhile_prefix _).length_le.trans_lt
    (length_fgetsFrom (by decide) (by decide) whole wholeMember)

theorem content_eq {line s : Text} (content : read line = .content s) :
    s = stripComment (trim line) := by
  unfold SourceLine.read at content
  simp only at content
  split at content
  · cases content
  split at content
  · split at content <;> cases content
  split at content
  · cases content
  split at content
  · cases content
  split at content
  · cases content
  split at content
  · cases content
  split at content
  · cases content
  · cases content
    rfl

theorem stripped_content {line s : Text} (short : line.length < maxLine)
    (content : read line = .content s) : Stripped s := by
  rw [content_eq content]
  unfold stripComment
  split
  · rename_i before after found
    obtain ⟨split, absent⟩ := eq_append_of_strchr found
    refine ⟨trimmed_trim _, fun member => absent (mem_of_mem_trim member), ?_⟩
    have inside : before.length ≤ (trim line).length := by
      rw [split, List.length_append]
      omega
    exact ((length_trim_le _).trans (inside.trans (length_trim_le _))).trans_lt short
  · rename_i missing
    exact ⟨trimmed_trim _, not_mem_of_strchr_eq_none missing,
      (length_trim_le _).trans_lt short⟩

theorem stripped_item {s i : Text} (stripped : Stripped s)
    (item : contentItem s = some i) : Stripped i := by
  unfold contentItem at item
  split at item
  · rename_i before afterColon found
    simp only at item
    split at item
    · cases item
      have split := (eq_append_of_strchr found).1
      have inside {c : Char} (member : c ∈ trim (skipSpaces afterColon)) : c ∈ s := by
        rw [split]
        exact List.mem_append_right _
          (List.mem_cons_of_mem _ (mem_of_mem_skipSpaces (mem_of_mem_trim member)))
      refine ⟨trimmed_trim _, fun member => stripped.noHash (inside member), ?_⟩
      have shorter : (trim (skipSpaces afterColon)).length ≤ afterColon.length :=
        (length_trim_le _).trans (List.length_dropWhile_le _ _)
      have whole := stripped.short
      rw [split, List.length_append, List.length_cons] at whole
      omega
    · cases item
  · cases item
    exact stripped

end Content

section Growth

/-- What the first pass does with one item: the current section grows. -/
structure Grown (asm : Assembler) (size : Nat) (asm' : Assembler) : Prop where
  current : asm'.currentSectionName = asm.currentSectionName
  labels : asm'.labels = asm.labels
  here : sectionOffset asm' asm.currentSectionName =
    sectionOffset asm asm.currentSectionName + BitVec.ofNat 32 size
  other : ∀ name, name ≠ asm.currentSectionName →
    sectionOffset asm' name = sectionOffset asm name
  pcText : asm'.pcText = asm.pcText +
    if asm.currentSectionName = textName then BitVec.ofNat 32 size else 0

theorem Grown.still (asm : Assembler) {size : Nat} (none : BitVec.ofNat 32 size = 0) :
    Grown asm size asm where
  current := rfl
  labels := rfl
  here := by
    rw [none]
    exact (BitVec.add_zero _).symm
  other := fun _ _ => rfl
  pcText := by
    rw [none, ite_self]
    exact (BitVec.add_zero _).symm

theorem Grown.refl (asm : Assembler) : Grown asm 0 asm := .still asm rfl

theorem sectionOffset_addOffset (asm : Assembler) (size : Word) (name : Text) :
    ((((asm.addOffset size).sections.find? name).map (·.offset)).getD 0) =
      sectionOffset asm name +
        if name = asm.currentSectionName then size else 0 := by
  rw [find?_addOffset]
  by_cases here : name = asm.currentSectionName
  · rw [if_pos here, if_pos here, here, Assembler.getCurrentSection, sectionOffset]
    cases asm.sections.find? asm.currentSectionName <;> rfl
  · rw [if_neg here, if_neg here]
    exact (BitVec.add_zero _).symm

theorem grown_growText (asm : Assembler) (size : Nat) :
    Grown asm size (growText asm (BitVec.ofNat 32 size)) where
  current := growText_current ..
  labels := growText_labels ..
  here := by
    rw [sectionOffset, growText_sections, sectionOffset_addOffset, if_pos rfl]
  other := by
    intro name other
    rw [sectionOffset, growText_sections, sectionOffset_addOffset, if_neg other]
    exact BitVec.add_zero _
  pcText := by
    unfold growText
    split
    · rfl
    · exact (BitVec.add_zero _).symm

theorem grown_growData {asm : Assembler} (size : Nat)
    (data : asm.currentSectionName = dataName) :
    Grown asm size (growData asm (BitVec.ofNat 32 size)) where
  current := growData_current ..
  labels := growData_labels ..
  here := by
    rw [sectionOffset, growData_sections, sectionOffset_addOffset, if_pos rfl]
  other := by
    intro name other
    rw [sectionOffset, growData_sections, sectionOffset_addOffset, if_neg other]
    exact BitVec.add_zero _
  pcText := by
    have other : dataName ≠ textName := by decide
    rw [data, if_neg other]
    unfold growData
    split
    · exact (BitVec.add_zero _).symm
    · exact (BitVec.add_zero _).symm

end Growth

section Lines

/-- The label that the content of a line defines. -/
def contentLabel (s : Text) : Option Text :=
  match strchr ':' s with
  | some (before, _) =>
      if skipSpaces before = [] then none
      else some (trim ((skipSpaces before).take 63))
  | none => none

def lineLabel (line : Text) : Option Text :=
  match read line with
  | .content s => contentLabel s
  | _ => none

def withLabel (asm : Assembler) : Option Text → Assembler
  | some name => addLabel asm name
  | none => asm

theorem getCurrentSection_offset (asm : Assembler) :
    asm.getCurrentSection.offset = sectionOffset asm asm.currentSectionName := by
  unfold Assembler.getCurrentSection sectionOffset
  cases asm.sections.find? asm.currentSectionName <;> rfl

section WithLabel

variable (asm : Assembler) (label : Option Text)

@[simp] theorem withLabel_currentSectionName :
    (withLabel asm label).currentSectionName = asm.currentSectionName := by
  cases label <;> rfl

@[simp] theorem withLabel_getCurrentSection :
    (withLabel asm label).getCurrentSection = asm.getCurrentSection := by
  cases label <;> rfl

@[simp] theorem sectionOffset_withLabel (name : Text) :
    sectionOffset (withLabel asm label) name = sectionOffset asm name := by
  cases label <;> rfl

@[simp] theorem withLabel_pcText : (withLabel asm label).pcText = asm.pcText := by
  cases label <;> rfl

end WithLabel

/-- The first pass on the item of a line. -/
def firstPassItem (asm : Assembler) (i : Text) : Except Stop Assembler :=
  if asm.getCurrentSection.type = .text then processInstructionFirstPass asm i
  else if i.head? = some '.' then processDirective asm i
  else .ok asm

theorem processLabel_eq {asm labelled : Assembler} {before : Text}
    (processed : processLabel asm before = .ok labelled) :
    labelled = withLabel asm
      (if skipSpaces before = [] then none
        else some (trim ((skipSpaces before).take 63))) := by
  unfold processLabel at processed
  simp only at processed
  split at processed
  · rename_i empty
    cases processed
    rw [if_pos empty]
    rfl
  · rename_i named
    split at processed
    · cases processed
    · cases processed
      rw [if_neg named]
      rfl

theorem trim_behind_colon {s before after : Text} (trimmed : Trimmed s)
    (split : s = before ++ ':' :: after) :
    trim (skipSpaces after) = skipSpaces after := by
  have head := head_skipSpaces after
  rw [trim, skipSpaces_of_head head, rdropWhile_of_last]
  intro c last
  apply trimmed.last
  obtain ⟨front, whole⟩ : skipSpaces after <:+ s :=
    (List.dropWhile_suffix _).trans
      ⟨before ++ [':'], by rw [split]; simp⟩
  rw [← whole, List.getLast?_append, Option.mem_def.mp last]
  rfl

/-- The first pass on the content of a line: its label, then its item. -/
theorem firstPassContent_cases {asm asm' : Assembler} {s : Text}
    (trimmed : Trimmed s)
    (regular : asm.getCurrentSection.type = .text →
      ∀ i ∈ contentItem s, i.head? ≠ some '.')
    (processed : firstPassContent asm s = .ok asm') :
    match contentItem s with
    | none => asm' = withLabel asm (contentLabel s)
    | some i => firstPassItem (withLabel asm (contentLabel s)) i = .ok asm' := by
  unfold firstPassContent at processed
  unfold contentItem at regular ⊢
  unfold contentLabel
  split at processed
  · rename_i before afterColon found
    simp only [found] at regular ⊢
    obtain ⟨labelled, label, rest⟩ := bind_eq_ok.mp processed
    rw [← processLabel_eq label]
    rw [trim_behind_colon trimmed (eq_append_of_strchr found).1]
    simp only at rest
    split at rest
    · rename_i item
      rw [if_pos item]
      exact rest
    · rename_i empty
      rw [if_neg empty]
      cases rest
      rfl
  · rename_i missing
    simp only [missing] at regular ⊢
    unfold firstPassItem
    show (if asm.getCurrentSection.type = .text then _ else _) = _
    split at processed
    · rename_i directive
      have data : asm.getCurrentSection.type ≠ .text := fun text =>
        regular text s rfl directive
      rw [if_neg data, if_pos directive]
      exact processed
    · rename_i plain
      split at processed
      · rename_i text
        rw [if_pos text]
        exact processed
      · rename_i data
        rw [if_neg data, if_neg plain]
        exact processed

end Lines

section LockStep

/-- Every instruction of a line in `.text` is one on which the passes agree. -/
def TextLine (line : Text) : Prop :=
  ∀ s i, read line = .content s → contentItem s = some i → TextItem i

/-- So is every item of a line in `.data`. -/
def DataLine (line : Text) : Prop :=
  ∀ s i, read line = .content s → contentItem s = some i → DataItem i

theorem textLine_of_item {line s i : Text} (content : read line = .content s)
    (item : contentItem s = some i) (good : TextItem i) : TextLine line := by
  intro s' i' content' item'
  rw [content] at content'
  cases content'
  rw [item] at item'
  cases item'
  exact good

theorem dataLine_of_item {line s i : Text} (content : read line = .content s)
    (item : contentItem s = some i) (good : DataItem i) : DataLine line := by
  intro s' i' content' item'
  rw [content] at content'
  cases content'
  rw [item] at item'
  cases item'
  exact good

/-- A line that fits the section it stands in. -/
def Suits (name line : Text) : Prop :=
  name = textName ∧ TextLine line ∨ name = dataName ∧ DataLine line

variable {asm asm' asm₂ : Assembler} {p : Place} {st st' : Pass2} {line : Text}

theorem WellFormed.currentType (formed : WellFormed asm) :
    asm.getCurrentSection.type = getSectionType asm.currentSectionName := by
  obtain ⟨sec, found⟩ := Option.isSome_iff_exists.mp formed.current
  rw [Assembler.getCurrentSection, found]
  exact (formed.typed _ _ found).1

/-- One item in both passes. -/
private theorem grown_item {i : Text} (here : At asm₂ p st) (stripped : Stripped i)
    (current : asm.currentSectionName = p.name)
    (type : asm.getCurrentSection.type = getSectionType p.name)
    (suits : p.name = textName ∧ TextItem i ∨ p.name = dataName ∧ DataItem i)
    (counted : firstPassItem asm i = .ok asm')
    (written : secondPassItem asm₂ st i = .done st') :
    Grown asm (itemSize asm₂.labels (getSectionType p.name) i) asm' := by
  obtain ⟨sec, found, typed⟩ := here.known
  unfold firstPassItem at counted
  unfold secondPassItem at written
  unfold itemSize
  rw [here.name, found, Option.map_some, typed] at written
  simp only [Option.getD_some] at written
  rw [type] at counted
  rcases suits with ⟨text, textItem⟩ | ⟨data, dataItem⟩
  · have isText : getSectionType p.name = .text := by
      rw [text]
      rfl
    rw [if_pos isText] at counted
    rw [if_neg textItem.plain, if_pos isText] at written
    rw [if_neg textItem.plain, if_pos isText]
    obtain ⟨k, predicted, exact_⟩ := instruction_size stripped textItem written asm.labels
    obtain ⟨pseudoSize, predicted', result⟩ := bind_eq_ok.mp counted
    rw [predicted] at predicted'
    cases predicted'
    cases result
    rw [exact_]
    exact grown_growText asm _
  · have notText : getSectionType p.name ≠ .text := by
      rw [data]
      decide
    rw [if_neg notText] at counted
    split at counted
    · rename_i directive
      rw [if_pos directive, if_pos notText]
      have agrees := directiveCount_eq stripped.trimmed dataItem
      rcases processDirective_cases counted with rfl | ⟨rfl, none⟩
      · rw [agrees]
        exact grown_growData _ (current.trans data)
      · exact .still _ (agrees.symm.trans none)
    · rename_i plain
      cases counted
      rw [if_neg plain, if_neg notText]
      exact .refl _

/-- One line in both passes: the first counts what the second writes. -/
theorem grown_line (formed : WellFormed asm)
    (current : asm.currentSectionName = p.name) (here : At asm₂ p st)
    (suits : Suits p.name line) (short : line.length < maxLine)
    (stays : (read line).entered = none)
    (first : firstPassLine asm line = .done asm')
    (second : secondPassLine asm₂ st line = .done st') :
    Grown (withLabel asm (lineLabel line)) (lineSize asm₂.labels p.name line) asm' := by
  rw [secondPassLine_eq] at second
  unfold lineLabel lineSize
  cases content : read line with
  | skipped =>
      rw [firstPassLine_eq, content] at first
      cases first
      exact .refl asm
  | legacyText | legacyData | named =>
      rw [content] at stays
      cases stays
  | content s =>
      rw [content] at second
      have stripped := stripped_content short content
      have type := formed.currentType
      rw [current] at type
      have processed := processed_of_content content first
      have written : secondPassContent asm₂ st s = .done st' := second
      have regular : asm.getCurrentSection.type = .text →
          ∀ i ∈ contentItem s, i.head? ≠ some '.' := by
        intro text i item
        rcases suits with ⟨_, line⟩ | ⟨data, _⟩
        · exact (line s i content item).plain
        · rw [type, data] at text
          cases text
      have counted := firstPassContent_cases stripped.trimmed regular processed
      rw [secondPassContent_eq] at written
      simp only
      cases item : contentItem s with
      | none =>
          rw [item] at counted
          rw [counted]
          exact .refl _
      | some i =>
          rw [item] at counted written
          refine grown_item here (stripped_item stripped item) ?_ ?_ ?_ counted written
          · rw [withLabel_currentSectionName, current]
          · rw [withLabel_getCurrentSection, type]
          · rcases suits with ⟨text, line⟩ | ⟨data, line⟩
            · exact Or.inl ⟨text, line s i content item⟩
            · exact Or.inr ⟨data, line s i content item⟩

/-- The label that a line records behind some lines. -/
def labelAt (labels : List Label) (front : List Text) (line : Text) : List Label :=
  match lineLabel line with
  | some name =>
      [{ name
         addr := BitVec.ofNat 32 (Place.bytesInto labels
           (Place.sectionAfter front) Place.start front)
         sectionName := Place.sectionAfter front }]
  | none => []

/-- The labels of some lines, in order. -/
def recorded (labels : List Label) : List Text → List Text → List Label
  | _, [] => []
  | front, line :: rest =>
      labelAt labels front line ++ recorded labels (front ++ [line]) rest

theorem recorded_append (labels : List Label) (front lines more : List Text) :
    recorded labels front (lines ++ more) =
      recorded labels front lines ++ recorded labels (front ++ lines) more := by
  induction lines generalizing front with
  | nil => simp [recorded]
  | cons line lines induction =>
      rw [List.cons_append, recorded, recorded, induction, List.append_assoc,
        List.append_assoc]
      rfl

theorem names_recorded (labels : List Label) (front lines : List Text) :
    (recorded labels front lines).map (·.name) = lines.filterMap lineLabel := by
  induction lines generalizing front with
  | nil => rfl
  | cons line lines induction =>
      rw [recorded, List.map_append, induction]
      unfold labelAt
      cases label : lineLabel line with
      | none => simp [label]
      | some name => simp [label]

/-- The first pass has counted in every section what the second pass has
written there. -/
structure Lock (labels : List Label) (front : List Text) (asm : Assembler) : Prop where
  formed : WellFormed asm
  current : asm.currentSectionName = Place.sectionAfter front
  offsets : ∀ name, sectionOffset asm name =
    BitVec.ofNat 32 (Place.bytesInto labels name Place.start front)
  pcText : asm.pcText = sectionOffset asm textName
  recorded : asm.labels = recorded labels [] front

theorem Changes.wellFormed (changes : Changes asm asm') (formed : WellFormed asm) :
    WellFormed asm' := by
  induction changes with
  | refl => exact formed
  | tail _ change induction => exact induction.change change

theorem sectionOffset_switchSection (asm : Assembler) (name key : Text) :
    sectionOffset (asm.switchSection name) key = sectionOffset asm key := by
  unfold sectionOffset
  rw [find?_switchSection]
  split
  · rename_i same
    rw [same]
    cases asm.sections.find? name <;> rfl
  · rfl

private theorem Lock.step_entered {front : List Text} {name : Text}
    (lock : Lock asm₂.labels front asm) (enters : (read line).entered = some name)
    (first : firstPassLine asm line = .done asm') :
    Lock asm₂.labels (front ++ [line]) asm' := by
  have formed := (firstPassLine_changes first).wellFormed lock.formed
  rw [firstPassLine_eq, firstPassRead_entered enters] at first
  have switched : asm.switchSection name = asm' := by
    cases first
    rfl
  have noLabel : labelAt asm₂.labels front line = [] := by
    unfold labelAt lineLabel
    cases opened : read line with
    | content s =>
        rw [opened] at enters
        cases enters
    | skipped | legacyText | legacyData | named => rfl
  refine ⟨formed, ?_, ?_, ?_, ?_⟩
  · rw [Place.sectionAfter_entered enters, ← switched]
    rfl
  · intro key
    rw [← switched, sectionOffset_switchSection, Place.bytesInto_entered enters, lock.offsets]
  · rw [← switched, sectionOffset_switchSection]
    exact lock.pcText
  · rw [recorded_append, ← lock.recorded, ← switched]
    show asm.labels = asm.labels ++ (labelAt asm₂.labels front line ++ [])
    rw [noLabel]
    simp

/-- The label of a line gets the address that the second pass is at. -/
private theorem Lock.labels_withLabel {front : List Text} (lock : Lock asm₂.labels front asm) :
    (withLabel asm (lineLabel line)).labels =
      asm.labels ++ labelAt asm₂.labels front line := by
  unfold labelAt
  cases lineLabel line with
  | none => exact (List.append_nil _).symm
  | some defined =>
      show asm.labels ++ [_] = _
      rw [getCurrentSection_offset, lock.current, lock.offsets]

theorem Lock.step {front : List Text} (lock : Lock asm₂.labels front asm)
    (here : At asm₂ (Place.start.after asm₂.labels front) st)
    (suits : (read line).entered = none → Suits (Place.sectionAfter front) line)
    (short : line.length < maxLine) (first : firstPassLine asm line = .done asm')
    (second : secondPassLine asm₂ st line = .done st') :
    Lock asm₂.labels (front ++ [line]) asm' := by
  cases enters : (read line).entered with
  | some name => exact lock.step_entered enters first
  | none =>
      have formed := (firstPassLine_changes first).wellFormed lock.formed
      have name := Place.name_after asm₂.labels front
      have grown := grown_line lock.formed (lock.current.trans name.symm) here
        (name.symm ▸ suits enters) short enters first second
      have offsets : ∀ key, sectionOffset asm' key = BitVec.ofNat 32
          (Place.bytesInto asm₂.labels key Place.start (front ++ [line])) := by
        intro key
        rw [Place.bytesInto_snoc]
        by_cases current : key = Place.sectionAfter front
        · have size := grown.here
          rw [withLabel_currentSectionName, sectionOffset_withLabel, lock.current,
            lock.offsets, name] at size
          rw [current, if_pos rfl, size, BitVec.ofNat_add]
        · have size := grown.other key (by rwa [withLabel_currentSectionName, lock.current])
          rw [if_neg (Ne.symm current), size, sectionOffset_withLabel, lock.offsets,
            Nat.add_zero]
      refine ⟨formed, ?_, offsets, ?_, ?_⟩
      · rw [grown.current, withLabel_currentSectionName, lock.current,
          Place.sectionAfter_stays enters]
      · rw [grown.pcText, withLabel_pcText, withLabel_currentSectionName, lock.current,
          lock.pcText, lock.offsets, offsets, Place.bytesInto_snoc, name, BitVec.ofNat_add]
        by_cases text : Place.sectionAfter front = textName
        · rw [if_pos text, if_pos text, text]
        · rw [if_neg text, if_neg text]
          rfl
      · rw [grown.labels, lock.labels_withLabel, recorded_append, ← lock.recorded]
        show _ = asm.labels ++ (labelAt asm₂.labels front line ++ [])
        rw [List.append_nil]

theorem Lock.run {front lines : List Text} (lock : Lock asm₂.labels front asm)
    (here : At asm₂ (Place.start.after asm₂.labels front) st)
    (known : ∀ line ∈ lines, ∀ name, (read line).entered = some name →
      Known asm₂ name)
    (suits : ∀ before line rest, lines = before ++ line :: rest →
      (read line).entered = none → Suits (Place.sectionAfter (front ++ before)) line)
    (short : ∀ line ∈ lines, line.length < maxLine)
    (first : run firstPassLine asm lines = .done asm')
    (second : run (secondPassLine asm₂) st lines = .done st') :
    Lock asm₂.labels (front ++ lines) asm' := by
  induction lines generalizing front asm st with
  | nil =>
      cases first
      rwa [List.append_nil]
  | cons line lines induction =>
      obtain ⟨middle, firstStep, firstRest⟩ := run_cons_eq_done.mp first
      obtain ⟨middle₂, secondStep, secondRest⟩ := run_cons_eq_done.mp second
      have suitsLine := suits [] line lines rfl
      rw [List.append_nil] at suitsLine
      have next := lock.step here suitsLine (short line List.mem_cons_self)
        firstStep secondStep
      have there := (here.next (known line List.mem_cons_self) secondStep).1
      have place : (Place.start.after asm₂.labels front).next asm₂.labels line =
          Place.start.after asm₂.labels (front ++ [line]) := by
        rw [Place.after_append]
        rfl
      rw [place] at there
      have rest := induction next there
        (fun l member => known l (List.mem_cons_of_mem _ member))
        (fun before l after split stays => by
          have suit := suits (line :: before) l after (by rw [split]; rfl) stays
          rwa [List.append_assoc])
        (fun l member => short l (List.mem_cons_of_mem _ member)) firstRest secondRest
      rwa [List.append_assoc] at rest

end LockStep

end RiscvPack.Asm
