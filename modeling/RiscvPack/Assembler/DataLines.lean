import RiscvPack.Assembler.NumericData
import RiscvPack.Assembler.StringData

/-!
# Lines of data

What the second pass writes for lines of labels and data directives, read off
their text: the numbers, the strings and the gaps that stand there.
-/

namespace RiscvPack.Asm

open CString Runs Files
open SourceLine (read)
open ListDirective (ReadAlike)

/-- What a line holds besides its label. -/
def lineItem (line : Text) : Option Text :=
  match read line with
  | .content s => contentItem s
  | _ => none

/-- A data directive and the bytes that it stands for. -/
inductive DirectiveBytes : Text → List Byte → Prop where
  | numerals (d : ListDirective) {vs : List ListEntry} :
      (∀ v ∈ vs, FitsWord v.value) → (d = .byte → ∀ v ∈ vs, ReadAlike v.text) →
        DirectiveBytes (d.name ++ entriesText vs) (vs.flatMap fun v => d.bytesOf v.value)
  | string (d : StringDirective) (b : Text) : DirectiveBytes (d.text b) (d.bytes b)
  | space {number : Text} {size : Word} : scanInt number = some size →
      DirectiveBytes (".space".toList ++ number) (List.replicate size.toInt.toNat 0)

/-- Lines of data, labels and blank lines, and the bytes that they stand for. -/
inductive DataBytes : List Text → List Byte → Prop where
  | nil : DataBytes [] []
  | blank {line : Text} {lines : List Text} {bytes : List Byte} :
      (read line).entered = none → lineItem line = none → DataBytes lines bytes →
        DataBytes (line :: lines) bytes
  | directive {line i : Text} {lines : List Text} {here bytes : List Byte} :
      lineItem line = some i → DirectiveBytes i here → DataBytes lines bytes →
        DataBytes (line :: lines) (here ++ bytes)

section Lines

variable {asm : Assembler} {st : Pass2}

theorem trimmed_lineItem {line i : Text} (short : line.length < maxLine)
    (item : lineItem line = some i) : Trimmed i := by
  unfold lineItem at item
  split at item
  · rename_i content
    exact (stripped_item (stripped_content short content) item).trimmed
  · cases item

theorem secondPassLine_item {line i : Text} (item : lineItem line = some i) :
    secondPassLine asm st line = secondPassItem asm st i := by
  unfold lineItem at item
  split at item
  · rename_i s content
    rw [secondPassLine_eq, content, secondPassRead, secondPassContent_eq, item]
  · cases item

theorem secondPassLine_blank {line : Text} (stays : (read line).entered = none)
    (item : lineItem line = none) : secondPassLine asm st line = .done st := by
  rw [secondPassLine_eq]
  cases content : read line with
  | skipped => rfl
  | content s =>
      have none : contentItem s = none := by
        rw [← item, lineItem, content]
      rw [secondPassRead, secondPassContent_eq, none]
  | legacyText | legacyData | named =>
      rw [content] at stays
      cases stays

theorem processDataDirective_directive {i : Text} {bytes : List Byte} (trimmed : Trimmed i)
    (holds : DirectiveBytes i bytes) (labels : List Label) (st : Pass2) :
    processDataDirective labels st i = .done (st.emit bytes) := by
  have again : trim i = i := trim_of_trimmed trimmed
  cases holds with
  | numerals d range alike =>
      rw [ListDirective.processDataDirective_entries range again]
      congr 2
      apply List.flatMap_congr
      intro v member
      cases d with
      | byte => exact (ListDirective.bytesRead_eq_iff (range v member)).mpr (alike rfl v member)
      | half | word => rfl
  | string d b =>
      exact StringDirective.processDataDirective_string again (StringDirective.parse_quoted b)
  | @space number size found =>
      have behind : (".space".toList ++ number).drop 6 = number := rfl
      simp only [processDataDirective, again, behind, found]
      rfl

theorem DirectiveBytes.head {i : Text} {bytes : List Byte} (holds : DirectiveBytes i bytes) :
    i.head? = some '.' := by
  cases holds with
  | numerals d => cases d <;> rfl
  | string d => cases d <;> rfl
  | space => rfl

theorem secondPassItem_directive {i : Text} {bytes : List Byte}
    (data : (asm.sections.find? st.currentSectionName).map (·.type) = some .data)
    (trimmed : Trimmed i) (holds : DirectiveBytes i bytes) :
    secondPassItem asm st i = .done (st.emit bytes) := by
  have noText : SectionType.data ≠ .text := by
    decide
  simp only [secondPassItem, data, Option.getD_some]
  rw [if_pos holds.head, if_pos noText]
  exact processDataDirective_directive trimmed holds _ _

/-- Lines of data write their bytes one behind the other. -/
theorem run_secondPass_data {lines : List Text} {bytes : List Byte}
    (data : (asm.sections.find? st.currentSectionName).map (·.type) = some .data)
    (short : ∀ line ∈ lines, line.length < maxLine) (holds : DataBytes lines bytes) :
    run (secondPassLine asm) st lines = .done (st.emit bytes) := by
  induction holds generalizing st with
  | nil => exact congrArg _ st.emit_nil.symm
  | blank stays item _ induction =>
      rw [List.forall_mem_cons] at short
      exact run_cons_eq_done.mpr
        ⟨st, secondPassLine_blank stays item, induction data short.2⟩
  | @directive line i lines here bytes item holds _ induction =>
      rw [List.forall_mem_cons] at short
      have trimmed := trimmed_lineItem short.1 item
      have stepped : secondPassLine asm st line = .done (st.emit here) := by
        rw [secondPassLine_item item, secondPassItem_directive data trimmed holds]
      rw [st.emit_append]
      exact run_cons_eq_done.mpr ⟨_, stepped, induction data short.2⟩

end Lines

end RiscvPack.Asm
