import RiscvPack.Assembler.Counters
import RiscvPack.Emulator.Memory

/-!
# Word alignment of the sections

`adjust_labels` puts each section where the one before it ends and never pads.
Instructions fill `.text` with words, so the sections behind it start at word
addresses as long as all but the last of them that hold bytes hold words.
-/

namespace RiscvPack.Asm

open CString Runs Layout
open SourceLine (read)

/-- The multiples of four. -/
def wordAddresses : AddSubgroup Word where
  carrier := {w | w.toNat % 4 = 0}
  zero_mem' := rfl
  add_mem' := by
    intro a b wordA wordB
    rw [Set.mem_ofPred_eq] at wordA wordB ⊢
    rw [BitVec.toNat_add]
    omega
  neg_mem' := by
    intro a wordA
    rw [Set.mem_ofPred_eq] at wordA ⊢
    rw [BitVec.toNat_neg]
    omega

theorem mem_wordAddresses {w : Word} : w ∈ wordAddresses ↔ w.toNat % 4 = 0 := Iff.rfl

section Code

variable {asm asm' : Assembler} {s line : Text} {source : Text}

theorem pcText_instruction (word : asm.pcText ∈ wordAddresses)
    (processed : processInstructionFirstPass asm s = .ok asm') :
    asm'.pcText ∈ wordAddresses := by
  obtain ⟨pseudoSize, _, result⟩ := bind_eq_ok.mp processed
  cases result
  have size : BitVec.ofNat 32 (if 0 < pseudoSize then pseudoSize * 4 else 4) ∈
      wordAddresses := by
    rw [mem_wordAddresses, BitVec.toNat_ofNat]
    split <;> omega
  rw [(grown_growText asm _).pcText]
  split
  · exact wordAddresses.add_mem word size
  · exact wordAddresses.add_mem word wordAddresses.zero_mem

theorem pcText_directive (processed : processDirective asm s = .ok asm') :
    asm'.pcText = asm.pcText := by
  rcases processDirective_cases processed with rfl | ⟨rfl, _⟩
  · exact growData_pcText ..
  · rfl

theorem pcText_content (word : asm.pcText ∈ wordAddresses)
    (processed : firstPassContent asm s = .ok asm') : asm'.pcText ∈ wordAddresses := by
  unfold firstPassContent at processed
  split at processed
  · obtain ⟨labelled, label, rest⟩ := bind_eq_ok.mp processed
    have same : labelled.pcText = asm.pcText := by
      rw [processLabel_eq label]
      split <;> rfl
    rw [← same] at word
    simp only at rest
    split at rest
    · split at rest
      · exact pcText_instruction word rest
      split at rest
      · rw [pcText_directive rest]
        exact word
      · cases rest
        exact word
    · cases rest
      exact word
  · split at processed
    · rw [pcText_directive processed]
      exact word
    split at processed
    · exact pcText_instruction word processed
    · cases processed
      exact word

theorem pcText_line (word : asm.pcText ∈ wordAddresses)
    (stepped : firstPassLine asm line = .done asm') : asm'.pcText ∈ wordAddresses := by
  cases kind : read line with
  | content s => exact pcText_content word (processed_of_content kind stepped)
  | skipped | legacyText | legacyData | named =>
      rw [firstPassLine_eq, kind] at stepped
      cases stepped
      exact word

theorem text_words (instructions : NoDataInText source)
    (produced : firstPass Assembler.init source = .done asm) :
    sectionOffset asm textName ∈ wordAddresses := by
  obtain ⟨finished, ran, result⟩ := Outcome.andThen_eq_done.mp produced
  have words : finished.pcText ∈ wordAddresses :=
    run_invariant (I := fun asm => asm.pcText ∈ wordAddresses)
      (fun _ _ _ _ word stepped => pcText_line word stepped)
      wordAddresses.zero_mem ran
  have mirrors := (mirrors_always_iff source).mpr instructions
    (sourceLines source) [] finished (by simp) ran
  rw [mirrors.text] at words
  cases result
  exact words

end Code

section Sections

variable {asm : Assembler} {source : Text}

/-- Sections that hold bytes start at word addresses, where reading a word is
never refused as misaligned. -/
def SectionsAligned (asm : Assembler) : Prop :=
  ∀ name sec, asm.sections.find? name = some sec → sec.offset ≠ 0 →
    sec.baseAddr.toNat % 4 = 0 ∧
      ∀ mem : Emulator.Memory, mem.read32 sec.baseAddr ≠ .error .misalignedError

/-- Every section but `.text` that is placed in front of one with bytes holds
whole words. -/
def WordSized (asm : Assembler) : Prop :=
  ∀ front name back, placementNames asm.sections = front ++ name :: back →
    name ≠ textName → (∃ later ∈ back, sectionOffset asm later ≠ 0) →
      (sectionOffset asm name).toNat % 4 = 0

/-- The base address of a section. -/
def sectionBase (asm : Assembler) (name : Text) : Word :=
  ((asm.sections.find? name).map (·.baseAddr)).getD 0

theorem consecutive_names (formed : WellFormed asm) :
    Consecutive (sectionBase (placedTables asm)) (sectionOffset asm) 0
      (placementNames asm.sections) := by
  obtain ⟨order, layout, names⟩ := placed_placeSections formed
  rw [← names]
  apply layout.consecutive.map
  · rintro ⟨name, sec⟩ member
    have found := SortedMap.mem_entries_iff.mp ((layout.mem _).mp member).1
    show (((placeSections asm.sections).find? name).map (·.baseAddr)).getD 0 = _
    rw [found]
    rfl
  · rintro ⟨name, sec⟩ member
    obtain ⟨old, oldMember, size⟩ := layout.old ((layout.mem _).mp member).1
    rw [sectionOffset, SortedMap.mem_entries_iff.mp oldMember]
    exact size

theorem read32_of_word {mem : Emulator.Memory} {addr : Word}
    (word : addr.toNat % 4 = 0) : mem.read32 addr ≠ .error .misalignedError := by
  have aligned : addr % 4 = 0 := by
    apply BitVec.eq_of_toNat_eq
    rw [BitVec.toNat_umod]
    exact word
  unfold Emulator.Memory.read32
  rw [if_neg (not_not_intro aligned)]
  split
  · intro same
    cases same
  · intro same
    cases same

/-- Only the sections that are placed one after another matter. -/
theorem sectionsAligned_iff_names (formed : WellFormed asm) :
    SectionsAligned (placedTables asm) ↔
      ∀ name ∈ placementNames asm.sections, sectionOffset asm name ≠ 0 →
        sectionBase (placedTables asm) name ∈ wordAddresses := by
  obtain ⟨order, layout, names⟩ := placed_placeSections formed
  have entry {name : Text} {sec : SectionInfo}
      (found : (placedTables asm).sections.find? name = some sec) :
      sec.offset = sectionOffset asm name ∧
        sec.baseAddr = sectionBase (placedTables asm) name := by
    obtain ⟨old, foundOld, fields⟩ := layout.origin name sec found
    rw [sectionOffset, sectionBase, foundOld, found, fields]
    exact ⟨rfl, rfl⟩
  constructor
  · intro aligned name member nonempty
    rw [← names] at member
    obtain ⟨⟨_, sec⟩, inOrder, rfl⟩ := List.mem_map.mp member
    have found := SortedMap.mem_entries_iff.mp ((layout.mem _).mp inOrder).1
    obtain ⟨size, base⟩ := entry found
    rw [← size] at nonempty
    rw [← base]
    exact (aligned _ sec found nonempty).1
  · intro starts name sec found nonempty
    obtain ⟨size, base⟩ := entry found
    have word : sec.baseAddr.toNat % 4 = 0 := by
      by_cases unplaced : Prefixed name
      · rw [layout.unplaced name sec found unplaced]
        rfl
      · have inOrder := (layout.mem (name, sec)).mpr
          ⟨SortedMap.mem_entries_iff.mpr found, unplaced⟩
        rw [size] at nonempty
        rw [base]
        refine starts name ?_ nonempty
        rw [← names]
        exact List.mem_map_of_mem inOrder
    exact ⟨word, fun _ => read32_of_word word⟩

/-- When `.text` contains only instructions, all sections with bytes start at
word addresses exactly when the other sections, but for the last of those with
bytes, hold whole words. -/
theorem sectionsAligned_iff (instructions : NoDataInText source)
    (produced : firstPass Assembler.init source = .done asm) :
    SectionsAligned (placedTables asm) ↔ WordSized asm := by
  have formed := wellFormed_firstPass produced
  have text := text_words instructions produced
  rw [sectionsAligned_iff_names formed,
    (consecutive_names formed).mem_iff wordAddresses.zero_mem]
  constructor
  · intro words front name back split _ later
    exact words front name back split later
  · intro words front name back split later
    by_cases isText : name = textName
    · rw [isText]
      exact text
    · exact words front name back split isText later

/-- A byte in `.data`, the last section with bytes. -/
theorem sectionsAligned_iff_byte :
    let source := ".text\nnop\n.data\n.byte 1\n".toList
    let asm := { growData ((growText Assembler.init 4).switchSection dataName) 1 with
      textSize := 4, dataSize := 1 }
    NoDataInText source ∧ firstPass Assembler.init source = .done asm ∧
      (SectionsAligned (placedTables asm) ↔ WordSized asm) := by
  intro source asm
  have instructions : NoDataInText source := noDataInText_of_states (by decide +kernel)
  have produced : firstPass Assembler.init source = .done asm := by decide +kernel
  exact ⟨instructions, produced, sectionsAligned_iff instructions produced⟩

/-- One byte in `.rodata` puts the words of `.data` at address five, where they
cannot be loaded. -/
theorem not_sectionsAligned_rodata :
    let source := ".text\nnop\n.rodata\n.byte 1\n.data\n.word 5\n".toList
    let asm := { growData ((growData ((growText Assembler.init 4).switchSection
        rodataName) 1).switchSection dataName) 4 with textSize := 4, dataSize := 5 }
    NoDataInText source ∧ firstPass Assembler.init source = .done asm ∧
      sectionBase (placedTables asm) dataName = 5 ∧
      (∀ mem : Emulator.Memory, mem.read32 5 = .error .misalignedError) ∧
      ¬ SectionsAligned (placedTables asm) := by
  intro source asm
  have produced : firstPass Assembler.init source = .done asm := by decide +kernel
  refine ⟨noDataInText_of_states (by decide +kernel), produced, by decide +kernel,
    fun _ => rfl, fun aligned => ?_⟩
  have data : (placedTables asm).sections.find? dataName =
      some { name := dataName, type := .data, offset := 4, baseAddr := 5 } := by
    decide +kernel
  have word := (aligned dataName _ data (by decide)).1
  exact absurd word (by decide)

end Sections

end RiscvPack.Asm
