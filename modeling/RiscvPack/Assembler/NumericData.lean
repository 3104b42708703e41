import RiscvPack.Assembler.DataLists
import RiscvPack.Assembler.ListTexts
import Mathlib.Data.Nat.ModEq

/-!
# What the data directives write for numerals

`.half` and `.word` read a numeral as `parse_imm` does and write its integer.
`.byte` reads it with base zero, where a leading zero means octal: the numeral
may have another value, and one with an `8` or a `9` in it is read as two.
-/

namespace RiscvPack.Asm

open CString Runs Files Loops

namespace ListDirective

/-- The item of an integer, its lowest byte first. -/
def bytesOf (n : Int) : ListDirective → List Byte
  | byte => [BitVec.ofInt 8 n]
  | half => [(BitVec.ofInt 16 n).extractLsb' 0 8, (BitVec.ofInt 16 n).extractLsb' 8 8]
  | word => Bits.leBytes (BitVec.ofInt 32 n)

/-- What the loop of `.byte` writes for a numeral. -/
def bytesRead (text : Text) : List Byte :=
  let (n, rest) := strtol 0 text
  BitVec.ofInt 8 n :: if rest = [] then [] else [BitVec.ofInt 8 (strtol 0 rest).1]

/-- What the loop writes for a value of a list. -/
def written (d : ListDirective) (v : ListEntry) : List Byte :=
  match d with
  | byte => bytesRead v.text
  | half | word => d.bytesOf v.value

variable {d : ListDirective} {labels : List Label} {st : Pass2}

section Loop

theorem iteration_of_item {c : Char} {t after : Text} {bytes : List Byte}
    (value : c ≠ ' ' ∧ c ≠ '\t' ∧ c ≠ ',')
    (read : d.item labels (c :: t) = .ok (bytes, after)) :
    d.iteration labels st (c :: t) = .ok (st.emit bytes, skipSeparators after) := by
  simp only [iteration, if_pos value, read]

theorem ends_of_skipped {t : Text} {outcome : Outcome Stop Pass2}
    (front : ∀ c ∈ t.head?, (c ≠ ' ' ∧ c ≠ '\t' ∧ c ≠ ',') → skipSeparators t = t)
    (ends : Ends (d.iteration labels) st (skipSeparators t) outcome) :
    Ends (d.iteration labels) st t outcome := by
  cases t with
  | nil => exact ends
  | cons c t =>
      by_cases value : c ≠ ' ' ∧ c ≠ '\t' ∧ c ≠ ','
      · rwa [front c rfl value] at ends
      · refine .next (List.cons_ne_nil _ _) ?_ ends
        simp only [iteration, if_neg value]

/-- The loop on a list of which it reads every value. -/
theorem ends_entries {out : ListEntry → List Byte} {vs : List ListEntry}
    (reads : ∀ v ∈ vs, ∀ rest st outcome,
      Ends (d.iteration labels) (st.emit (out v)) (skipSeparators (v.tail rest)) outcome →
        Ends (d.iteration labels) st (v.text ++ v.tail rest) outcome)
    (st : Pass2) :
    Ends (d.iteration labels) st (entriesText vs) (.done (st.emit (vs.flatMap out))) := by
  have skipped : Ends (d.iteration labels) st (skipSeparators (entriesText vs))
      (.done (st.emit (vs.flatMap out))) := by
    induction vs generalizing st with
    | nil =>
        rw [List.flatMap_nil, Pass2.emit_nil]
        exact .done st
    | cons v rest induction =>
        rw [ListEntry.entriesText_cons, skipSeparators_blank v.blankBefore,
          skipSeparators_value]
        apply reads v List.mem_cons_self
        rw [skipSeparators_tail, List.flatMap_cons, Pass2.emit_append]
        exact induction (fun w member => reads w (List.mem_cons_of_mem _ member)) _
  apply ends_of_skipped ?_ skipped
  intro c first value
  cases vs with
  | nil => rfl
  | cons v rest =>
      rw [ListEntry.entriesText_cons] at first ⊢
      cases blanks : v.before with
      | nil => exact skipSeparators_value v _
      | cons b others =>
          rw [blanks] at first
          cases first
          rcases v.blankBefore c (by simp [blanks]) with rfl | rfl
          · exact absurd rfl value.1
          · exact absurd rfl value.2.1

end Loop

section Readers

theorem ends_of_item {v : ListEntry} {t after : Text} {bytes : List Byte}
    {outcome : Outcome Stop Pass2}
    (read : d.item labels (v.text ++ t) = .ok (bytes, after))
    (ends : Ends (d.iteration labels) (st.emit bytes) (skipSeparators after) outcome) :
    Ends (d.iteration labels) st (v.text ++ t) outcome := by
  obtain ⟨c, others, text, value, _⟩ := v.exists_text
  rw [text, List.cons_append] at read ⊢
  exact .next (List.cons_ne_nil _ _) (iteration_of_item value read) ends

theorem range_long {v : ListEntry} (range : FitsWord v.value) :
    -2 ^ 63 ≤ v.value ∧ v.value < 2 ^ 63 := by
  obtain ⟨lower, upper⟩ := range
  omega

theorem ofInt_setWidth_half (n : Int) :
    (BitVec.ofInt 32 n).setWidth 16 = BitVec.ofInt 16 n := by
  apply BitVec.eq_of_toNat_eq
  simp only [BitVec.toNat_setWidth, BitVec.toNat_ofInt]
  omega

theorem item_entry (numeric : d ≠ byte) {v : ListEntry} (range : FitsWord v.value)
    (rest : List ListEntry) :
    d.item labels (v.text ++ v.tail rest) = .ok (d.bytesOf v.value, v.tail rest) := by
  obtain ⟨lower, upper⟩ := range_long range
  have parsed := parseImm_numeral labels v.numeral (v.stops_tail rest) lower upper
  cases d with
  | byte => exact absurd rfl numeric
  | half =>
      refine bind_eq_ok.mpr ⟨_, parsed, ?_⟩
      have same (start : Nat) (small : start + 8 ≤ 16) :
          (BitVec.ofInt 32 v.value).extractLsb' start 8 =
            (BitVec.ofInt 16 v.value).extractLsb' start 8 := by
        rw [← ofInt_setWidth_half]
        exact (BitVec.extractLsb'_setWidth_of_le small).symm
      rw [dropWhile_entry, same 0 (by decide), same 8 (by decide)]
      rfl
  | word =>
      refine bind_eq_ok.mpr ⟨_, parsed, ?_⟩
      rw [dropWhile_entry]
      rfl

variable {v : ListEntry}

theorem bytesRead_canonical (range : FitsWord v.value) (canonical : Canonical v.text) :
    bytesRead v.text = byte.bytesOf v.value := by
  obtain ⟨lower, upper⟩ := range_long range
  have read := strtol_auto v.numeral canonical stops_nil
  rw [List.append_nil, clampLong_of_small lower upper] at read
  simp [bytesRead, read, bytesOf]

/-- What stands behind the octal digits of a decimal is a numeral of its own. -/
theorem canonical_behind_octal {digits : Text}
    (valid : ∀ c ∈ digits, digitValue c < 10)
    (more : digits.dropWhile (digitValue · < 8) ≠ []) :
    ∃ n, Numeral (digits.dropWhile (digitValue · < 8)) n ∧
      Canonical (digits.dropWhile (digitValue · < 8)) := by
  have suffix : digits.dropWhile (digitValue · < 8) <:+ digits := List.dropWhile_suffix _
  have head := List.head_dropWhile_not (digitValue · < 8) more
  refine ⟨_, .decimal more fun c member => valid c (suffix.subset member), ?_⟩
  rintro d rest (zero | minus)
  · simp only [zero, List.head_cons] at head
    exact absurd head (by decide)
  · have digit := valid '-' (suffix.subset (by simp [minus]))
    exact absurd digit (by decide)

theorem ends_byte {rest : List ListEntry} {outcome : Outcome Stop Pass2}
    (ends : Ends (byte.iteration labels) (st.emit (bytesRead v.text))
      (skipSeparators (v.tail rest)) outcome) :
    Ends (byte.iteration labels) st (v.text ++ v.tail rest) outcome := by
  by_cases canonical : Canonical v.text
  · have read := strtol_auto v.numeral canonical (v.stops_tail rest)
    have alone := strtol_auto v.numeral canonical stops_nil
    rw [List.append_nil] at alone
    simp only [bytesRead, alone, if_pos] at ends
    apply ends_of_item ?_ ends
    simp only [item, byteItem, read]
  · obtain ⟨negative, digits, leading⟩ := v.numeral.leadingZero canonical
    obtain ⟨n, read, alone⟩ : ∃ n,
        strtol 0 (v.text ++ v.tail rest) =
            (n, digits.dropWhile (digitValue · < 8) ++ v.tail rest) ∧
          strtol 0 v.text = (n, digits.dropWhile (digitValue · < 8)) := by
      refine ⟨_, strtol_octal leading (v.stops_tail rest), ?_⟩
      have alone := strtol_octal leading stops_nil
      rwa [List.append_nil, List.append_nil] at alone
    simp only [bytesRead, alone] at ends
    by_cases more : digits.dropWhile (digitValue · < 8) = []
    · rw [if_pos more] at ends
      rw [more, List.nil_append] at read
      apply ends_of_item ?_ ends
      simp only [item, byteItem, read]
    · rw [if_neg more] at ends
      obtain ⟨m, numeral, octal⟩ := canonical_behind_octal leading.valid more
      -- The loop takes what is not octal for a value of its own.
      let second : ListEntry := { v with text := _, value := m, numeral := numeral }
      have readSecond := strtol_auto numeral octal (v.stops_tail rest)
      have aloneSecond := strtol_auto numeral octal stops_nil
      rw [List.append_nil] at aloneSecond
      rw [aloneSecond, ← List.singleton_append, Pass2.emit_append] at ends
      have first : byte.item labels (v.text ++ v.tail rest) =
          .ok ([BitVec.ofInt 8 n], second.text ++ v.tail rest) := by
        simp only [item, byteItem, read]
        rfl
      have next : byte.item labels (second.text ++ v.tail rest) =
          .ok ([BitVec.ofInt 8 (clampLong m)], v.tail rest) := by
        simp only [item, byteItem, second, readSecond]
      apply ends_of_item first
      rw [skipSeparators_value second]
      exact ends_of_item next ends

theorem processDataDirective_entries {s : Text} {vs : List ListEntry}
    (range : ∀ v ∈ vs, FitsWord v.value) (text : trim s = d.name ++ entriesText vs)
    (st : Pass2) :
    processDataDirective labels st s = .done (st.emit (vs.flatMap d.written)) := by
  have starts : d.name.isPrefixOf (trim s) := by
    rw [text]
    exact List.isPrefixOf_iff_prefix.mpr (List.prefix_append _ _)
  have operand : operands s = entriesText vs := by
    rw [operands, text]
    cases d <;> rfl
  rw [processDataDirective_eq starts, operand]
  refine emitItems_of_ends (ends_entries ?_ st) le_rfl
  intro v member rest st outcome ends
  cases d with
  | byte => exact ends_byte ends
  | half => exact ends_of_item (item_entry (by decide) (range v member) rest) ends
  | word => exact ends_of_item (item_entry (by decide) (range v member) rest) ends

end Readers

section Values

/-- Base zero reads the numeral as base ten does, up to the size of a byte. -/
def ReadAlike (text : Text) : Prop :=
  Canonical text ∨ (∀ c ∈ (sign text).2, digitValue c < 8) ∧
    ofDigits 8 (sign text).2 ≡ ofDigits 10 (sign text).2 [MOD 256]

theorem ofInt_eq_ofInt_iff (m n : Int) :
    BitVec.ofInt 8 m = BitVec.ofInt 8 n ↔ m % 256 = n % 256 := by
  rw [← BitVec.toNat_inj, BitVec.toNat_ofInt, BitVec.toNat_ofInt]
  omega

theorem bytesRead_eq_iff {v : ListEntry} (range : FitsWord v.value) :
    bytesRead v.text = byte.bytesOf v.value ↔ ReadAlike v.text := by
  by_cases canonical : Canonical v.text
  · exact iff_of_true (bytesRead_canonical range canonical) (.inl canonical)
  · obtain ⟨negative, digits, leading⟩ := v.numeral.leadingZero canonical
    have read := strtol_octal leading stops_nil
    rw [List.append_nil, List.append_nil] at read
    unfold ReadAlike
    rw [leading.sign_eq, or_iff_right canonical]
    simp only [bytesRead, read]
    by_cases more : digits.dropWhile (digitValue · < 8) = []
    · have octal : ∀ c ∈ digits, digitValue c < 8 := by
        rw [List.dropWhile_eq_nil_iff] at more
        simpa using more
      have whole : digits.takeWhile (digitValue · < 8) = digits := by
        have split := List.takeWhile_append_dropWhile (p := (digitValue · < 8)) (l := digits)
        rwa [more, List.append_nil] at split
      have smaller : ofDigits 8 digits ≤ ofDigits 10 digits :=
        ofDigits_le_of_prefix (by decide) (by decide) (List.prefix_refl _)
      have value := leading.value
      obtain ⟨lower, upper⟩ := range
      rw [value] at lower upper ⊢
      rw [whole, if_pos more, bytesOf, List.singleton_inj, and_iff_right octal,
        ofInt_eq_ofInt_iff, Nat.ModEq]
      cases negative with
      | true =>
          simp only [if_true] at lower upper ⊢
          rw [clampLong_of_small (by omega) (by omega)]
          omega
      | false =>
          simp only [Bool.false_eq_true, if_false] at lower upper ⊢
          rw [clampLong_of_small (by omega) (by omega)]
          omega
    · rw [if_neg more]
      refine iff_of_false ?_ ?_
      · intro same
        simp [bytesOf] at same
      · rintro ⟨octal, _⟩
        apply more
        rw [List.dropWhile_eq_nil_iff]
        simpa using octal

end Values

section Lines

theorem length_flatMap_le {α β : Type} {f g : α → List β} {l : List α}
    (shorter : ∀ a ∈ l, (g a).length ≤ (f a).length) :
    (l.flatMap g).length ≤ (l.flatMap f).length := by
  induction l with
  | nil => exact le_rfl
  | cons a l induction =>
      rw [List.flatMap_cons, List.flatMap_cons, List.length_append, List.length_append]
      rw [List.forall_mem_cons] at shorter
      exact Nat.add_le_add shorter.1 (induction shorter.2)

/-- Where no part is shorter, the whole is the same only part by part. -/
theorem flatMap_eq_flatMap_iff {α β : Type} {f g : α → List β} {l : List α}
    (shorter : ∀ a ∈ l, (g a).length ≤ (f a).length) :
    l.flatMap f = l.flatMap g ↔ ∀ a ∈ l, f a = g a := by
  constructor
  · intro same
    induction l with
    | nil =>
        intro a member
        cases member
    | cons a l induction =>
        rw [List.forall_mem_cons] at shorter ⊢
        rw [List.flatMap_cons, List.flatMap_cons] at same
        have lengths := congrArg List.length same
        rw [List.length_append, List.length_append] at lengths
        have rest := length_flatMap_le shorter.2
        have here : (f a).length = (g a).length := by
          apply le_antisymm ?_ shorter.1
          omega
        obtain ⟨first, others⟩ := List.append_inj same here
        exact ⟨first, induction shorter.2 others⟩
  · intro same
    exact List.flatMap_congr same

variable {vs : List ListEntry}

theorem plain_entriesText {c : Char} (special : tokenChar c = false)
    (other : c ≠ ' ' ∧ c ≠ '\t' ∧ c ≠ ',') : c ∉ entriesText vs := by
  induction vs with
  | nil => exact List.not_mem_nil
  | cons v rest induction =>
      have outside {t : Text} (blank : Blank t) : c ∉ t := by
        intro member
        rcases blank c member with space | tab
        · exact other.1 space
        · exact other.2.1 tab
      rw [ListEntry.entriesText_cons, ListEntry.tail]
      intro member
      rcases List.mem_append.mp member with before | member
      · exact outside v.blankBefore before
      rcases List.mem_append.mp member with text | member
      · have plain := v.plain_text c text
        rw [special] at plain
        cases plain
      rcases List.mem_append.mp member with after | member
      · exact outside v.blankAfter after
      split at member
      · cases member
      · rcases List.mem_cons.mp member with comma | later
        · exact other.2.2 comma
        · exact induction later

theorem read_entries {line : Text} (text : trim line = d.name ++ entriesText vs) :
    SourceLine.read line = .content (trim line) ∧ contentItem (trim line) = some (trim line) := by
  have absent {c : Char} (special : tokenChar c = false)
      (other : c ≠ ' ' ∧ c ≠ '\t' ∧ c ≠ ',') (noName : c ∉ d.name) : c ∉ trim line := by
    rw [text, List.mem_append]
    exact not_or.mpr ⟨noName, plain_entriesText special other⟩
  have noHash : '#' ∉ trim line := absent rfl (by decide) (by cases d <;> decide)
  have noColon : ':' ∉ trim line := absent rfl (by decide) (by cases d <;> decide)
  have known : d.name ∈ directiveNames := by
    cases d <;> decide
  have noGlobl : ¬ ".globl".toList <:+: entriesText vs := by
    intro inside
    have dot : '.' ∈ entriesText vs := inside.subset (by decide)
    exact plain_entriesText rfl (by decide) dot
  constructor
  · rw [read_directive known text, if_neg noGlobl, stripComment, strchr_eq_none noHash]
  · rw [contentItem, strchr_eq_none noColon]

/-- In a data section a list of numerals in the range of 32 bits is written as
one item for each, with its integer, exactly when `.byte` reads each with base
zero as it is written. -/
theorem numeric_data_iff (d : ListDirective) (asm : Assembler) (st : Pass2)
    {line : Text} {vs : List ListEntry}
    (dataSection : (asm.sections.find? st.currentSectionName).map (·.type) ≠ some .text)
    (range : ∀ v ∈ vs, FitsWord v.value) (text : trim line = d.name ++ entriesText vs) :
    secondPassLine asm st line = .done (st.emit (vs.flatMap fun v => d.bytesOf v.value)) ↔
      (d = byte → ∀ v ∈ vs, ReadAlike v.text) := by
  obtain ⟨content, item⟩ := read_entries text
  have directive : (trim line).head? = some '.' := by
    rw [text]
    cases d <;> rfl
  have data : ((asm.sections.find? st.currentSectionName).map (·.type)).getD .data ≠
      .text := by
    cases found : (asm.sections.find? st.currentSectionName).map (·.type) with
    | none => decide
    | some type =>
        rw [found] at dataSection
        exact fun same => dataSection (congrArg some same)
  have again : trim (trim line) = d.name ++ entriesText vs := by
    rw [trim_of_trimmed (trimmed_trim line), text]
  rw [secondPassLine_eq, content, secondPassRead, secondPassContent_eq, item]
  simp only [secondPassItem]
  rw [if_pos directive, if_pos data, processDataDirective_entries range again,
    Outcome.done.injEq, Pass2.emit_inj]
  cases d with
  | byte =>
      have shorter : ∀ v ∈ vs, (byte.bytesOf v.value).length ≤ (byte.written v).length :=
        fun v _ => Nat.succ_le_succ (Nat.zero_le _)
      rw [forall_prop_of_true rfl, flatMap_eq_flatMap_iff shorter]
      exact forall₂_congr fun v member => bytesRead_eq_iff (range v member)
  | half => exact iff_of_true rfl (fun same => by cases same)
  | word => exact iff_of_true rfl (fun same => by cases same)

/-- A decimal value behind a blank. -/
def entryOfDigits (digits : Text) (nonempty : digits ≠ [])
    (valid : ∀ c ∈ digits, digitValue c < 10) : ListEntry where
  before := [' ']
  text := digits
  value := ofDigits 10 digits
  after := []
  numeral := .decimal nonempty valid
  blankBefore := fun _ member => .inl (List.mem_singleton.mp member)
  blankAfter := fun _ member => absurd member List.not_mem_nil

/-- Two bytes in `.data`. -/
theorem numeric_data_iff_bytes :
    let st : Pass2 := { Pass2.init with currentSectionName := dataName }
    let vs := [entryOfDigits "17".toList (by decide) (by decide),
      entryOfDigits "200".toList (by decide) (by decide)]
    secondPassLine Assembler.init st ".byte 17, 200\n".toList =
        .done (st.emit (vs.flatMap fun v => byte.bytesOf v.value)) ↔
      (byte = byte → ∀ v ∈ vs, ReadAlike v.text) := by
  intro st vs
  exact numeric_data_iff byte Assembler.init st (by decide) (by decide +kernel)
    (by decide +kernel)

/-- `.byte` reads ten with a leading zero as eight. -/
theorem not_numeric_data_octal :
    let st : Pass2 := { Pass2.init with currentSectionName := dataName }
    let v := entryOfDigits "010".toList (by decide) (by decide)
    let line : Text := ".byte 010\n".toList
    trim line = byte.name ++ entriesText [v] ∧ v.value = 10 ∧
      secondPassLine Assembler.init st line = .done (st.emit [8]) ∧
      secondPassLine Assembler.init st line ≠
        .done (st.emit ([v].flatMap fun v => byte.bytesOf v.value)) := by
  intro st v line
  have written : secondPassLine Assembler.init st line = .done (st.emit [8]) := by
    decide +kernel
  refine ⟨by decide, by decide, written, ?_⟩
  rw [written, ne_eq, Outcome.done.injEq, Pass2.emit_inj]
  decide

end Lines

end ListDirective

end RiscvPack.Asm
