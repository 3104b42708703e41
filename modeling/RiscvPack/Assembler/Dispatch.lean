import RiscvPack.Assembler.DirectiveSizes
import RiscvPack.Assembler.LockStep

/-!
# Which lines are counted and which are written

The two passes ask in another order whether a line has a label, begins with a
dot and stands in a text section.  In a text section the first pass takes a
directive behind a label for an instruction and counts any other, while the
second one writes neither.  Elsewhere the passes differ on lists without values
and on negative space.
-/

namespace RiscvPack.Asm

open CString Runs Files
open SourceLine (read)
open ListDirective (operands)

section Nothing

/-- A directive for which the first pass adds nothing. -/
structure Idle (i : Text) : Prop where
  asciiz : ¬ ".asciiz".toList.isPrefixOf (trim i)
  ascii : ".ascii".toList.isPrefixOf (trim i) → ∀ before text,
    strchr '"' (trim i) = some (before, text) → text = [] ∨ text.head? = some '"'
  list : ∀ d : ListDirective, d.name.isPrefixOf (trim i) →
    ∀ c ∈ operands i, c = ' ' ∨ c = '\t' ∨ c = ','
  space : ".space".toList.isPrefixOf (trim i) → ∀ n ∈ scanInt ((trim i).drop 6), n = 0

/-- A list of separators, one of which the first pass takes for a value. -/
structure Hollow (t : Text) : Prop where
  first : ∃ c ∈ t.head?, c = ' ' ∨ c = '\t' ∨ c = ','
  separators : ∀ c ∈ t, c = ',' ∨ isspace c
  other : ∃ c ∈ t, c ≠ ' ' ∧ c ≠ '\t' ∧ c ≠ ','

theorem countItems_eq_zero_iff (t : Text) :
    countItems false t = 0 ↔ ∀ c ∈ t, c = ' ' ∨ c = '\t' ∨ c = ',' := by
  induction t with
  | nil => simp [countItems]
  | cons c t induction =>
      rw [countItems, List.forall_mem_cons]
      split
      · rename_i value
        refine iff_of_false (by omega) ?_
        rintro ⟨blank, _⟩
        tauto
      · rename_i blank
        rw [induction, iff_and_self]
        intro _
        tauto

theorem fields_eq_zero_iff (t : Text) :
    (fields t).length = 0 ↔ ∀ c ∈ t, c = ' ' ∨ c = '\t' ∨ c = ',' := by
  rw [← countItems_eq, countItems_eq_zero_iff]

theorem skipSeparators_eq_nil_iff (t : Text) :
    skipSeparators t = [] ↔ ∀ c ∈ t, c = ',' ∨ isspace c := by
  rw [skipSeparators, List.dropWhile_eq_nil_iff]
  simp

theorem head_skipSeparators (t : Text) :
    ∀ c ∈ (skipSeparators t).head?, c ≠ ',' ∧ isspace c = false := by
  intro c first
  have stops := List.head?_dropWhile_not (fun c => c = ',' || isspace c) t
  rw [← skipSeparators, Option.mem_def.mp first] at stops
  simpa using stops

theorem values_eq_zero_iff (d : ListDirective) (t : Text) :
    d.values t = 0 ↔ t = [] ∨ (∃ c ∈ t.head?, c = ' ' ∨ c = '\t' ∨ c = ',') ∧
      ∀ c ∈ t, c = ',' ∨ isspace c := by
  cases t with
  | nil => simp [ListDirective.values, valueCount]
  | cons c rest =>
      simp only [ListDirective.values, List.length_cons, valueCount, List.head?_cons,
        Option.mem_some_iff, exists_eq_left', List.cons_ne_nil, false_or]
      split
      · rename_i value
        refine iff_of_false (by omega) ?_
        rintro ⟨blank, _⟩
        tauto
      · rename_i blank
        have first : c = ' ' ∨ c = '\t' ∨ c = ',' := by
          tauto
        rw [and_iff_right first, ← skipSeparators_eq_nil_iff]
        cases skipped : skipSeparators (c :: rest) with
        | nil => simp [valueCount]
        | cons x more =>
            have solid : x ≠ ' ' ∧ x ≠ '\t' ∧ x ≠ ',' := by
              have head := head_skipSeparators (c :: rest) x (by rw [skipped]; rfl)
              refine ⟨?_, ?_, head.1⟩ <;>
              · rintro rfl
                exact absurd head.2 (by decide)
            have room : rest.length ≠ 0 := by
              intro empty
              rw [List.eq_nil_of_length_eq_zero empty] at skipped
              have suffix : x :: more <:+ [c] := by
                rw [← skipped]
                exact List.dropWhile_suffix _
              have whole := suffix.eq_of_length_le (by simp)
              rw [(List.cons.inj whole).1] at solid
              tauto
            obtain ⟨fuel, length⟩ := Nat.exists_eq_succ_of_ne_zero room
            rw [length, valueCount, if_pos solid]
            simp

end Nothing

section Directives

variable {asm asm' : Assembler} {i : Text}

theorem string_of_processed (processed : processDirective asm i = .ok asm')
    (string : ".ascii".toList.isPrefixOf (trim i)) :
    ∃ before text bytes, strchr '"' (trim i) = some (before, text) ∧
      parseEscapedString text = .ok bytes ∧ stringSize (trim i) = bytes.length := by
  unfold processDirective at processed
  simp only at processed
  cases found : strchr '"' (trim i) with
  | none =>
      rw [found] at processed
      split at processed
      · cases processed
      · cases processed
  | some quoted =>
      obtain ⟨before, text⟩ := quoted
      simp only [found] at processed
      have read : ∃ bytes, parseEscapedString text = .ok bytes := by
        split at processed
        · obtain ⟨bytes, parsed, _⟩ := bind_eq_ok.mp processed
          exact ⟨bytes, parsed⟩
        · obtain ⟨bytes, parsed, _⟩ := bind_eq_ok.mp processed
          exact ⟨bytes, parsed⟩
      obtain ⟨bytes, parsed⟩ := read
      exact ⟨before, text, bytes, rfl, parsed, stringSize_eq found parsed⟩

theorem not_directive {s name other : Text} (known : name ∈ directiveNames)
    (starts : name.isPrefixOf s) (different : name.take 3 ≠ other.take 3)
    (long : 3 ≤ other.length) : ¬ other.isPrefixOf s := by
  intro starts'
  have names : ∀ name ∈ directiveNames, 3 ≤ name.length := by
    decide
  obtain ⟨rest, rfl⟩ := List.isPrefixOf_iff_prefix.mp starts
  obtain ⟨rest', whole⟩ := List.isPrefixOf_iff_prefix.mp starts'
  have front := congrArg (List.take 3) whole
  rw [List.take_append_of_le_length long,
    List.take_append_of_le_length (names name known)] at front
  exact different front.symm

theorem list_facts {d : ListDirective} (starts : d.name.isPrefixOf (trim i))
    (short : i.length < 512) : 0 < d.width ∧
      (fields (operands i)).length * d.width < 2 ^ 32 ∧ ¬ ".space".toList.isPrefixOf (trim i) := by
  have width : 0 < d.width ∧ d.width ≤ 4 := by
    cases d <;> decide
  have few := (fields_le (operands i)).trans (length_operands i)
  have small := Nat.mul_le_mul few width.2
  have notSpace : ¬ ".space".toList.isPrefixOf (trim i) :=
    not_directive (by cases d <;> decide) starts (by cases d <;> decide) (by decide)
  exact ⟨width.1, by omega, notSpace⟩

theorem not_asciiz (noString : ¬ ".ascii".toList.isPrefixOf (trim i)) :
    ¬ ".asciiz".toList.isPrefixOf (trim i) := by
  intro starts
  obtain ⟨rest, whole⟩ := List.isPrefixOf_iff_prefix.mp starts
  rw [← whole] at noString
  exact noString rfl

private theorem stringCount_eq_zero_iff (processed : processDirective asm i = .ok asm')
    (bound : i.length < 512) (string : ".ascii".toList.isPrefixOf (trim i)) :
    directiveCount i = 0 ↔ Idle i := by
  obtain ⟨before, text, bytes, found, parsed, size⟩ := string_of_processed processed string
  have small : bytes.length < 512 := by
    have inside := congrArg List.length (eq_append_of_strchr found).1
    rw [List.length_append, List.length_cons] at inside
    have counted := length_parseEscapedString_le parsed
    have trimmed := length_trim_le i
    omega
  have known : ".ascii".toList ∈ directiveNames := by
    decide
  have notList (d : ListDirective) : ¬ d.name.isPrefixOf (trim i) :=
    not_directive known string (by cases d <;> decide) (by cases d <;> decide)
  have notSpace : ¬ ".space".toList.isPrefixOf (trim i) :=
    not_directive known string (by decide) (by decide)
  unfold directiveCount
  simp only [size]
  by_cases zeroByte : ".asciiz".toList.isPrefixOf (trim i)
  · rw [if_pos zeroByte, ofNat_eq_zero_of_lt (by omega)]
    refine iff_of_false (by omega) ?_
    intro idle
    exact idle.asciiz zeroByte
  · rw [if_neg zeroByte, if_pos string, ofNat_eq_zero_of_lt (by omega),
      List.length_eq_zero_iff, parseEscapedString_eq_nil_iff parsed]
    constructor
    · intro empty
      refine ⟨zeroByte, ?_, fun d list => absurd list (notList d),
        fun space => absurd space notSpace⟩
      intro _ before' text' found'
      rw [found] at found'
      cases found'
      exact empty
    · intro idle
      exact idle.ascii string before text found

private theorem listCount_eq_zero_iff {d : ListDirective} (bound : i.length < 512)
    (noString : ¬ ".ascii".toList.isPrefixOf (trim i)) (starts : d.name.isPrefixOf (trim i)) :
    directiveCount i = 0 ↔ Idle i := by
  obtain ⟨width, small, notSpace⟩ := list_facts starts bound
  rw [(list_counts starts).1, ofNat_eq_zero_of_lt small, Nat.mul_eq_zero,
    or_iff_left (Nat.ne_of_gt width), fields_eq_zero_iff]
  constructor
  · intro blank
    exact ⟨not_asciiz noString, fun string => absurd string noString, fun _ _ => blank,
      fun space => absurd space notSpace⟩
  · intro idle
    exact idle.list d starts

private theorem spaceCount_eq_zero_iff (noString : ¬ ".ascii".toList.isPrefixOf (trim i))
    (noList : ∀ d : ListDirective, ¬ d.name.isPrefixOf (trim i))
    (space : ".space".toList.isPrefixOf (trim i)) : directiveCount i = 0 ↔ Idle i := by
  rw [(space_counts space).1]
  constructor
  · intro none
    refine ⟨not_asciiz noString, fun string => absurd string noString,
      fun d starts => absurd starts (noList d), ?_⟩
    intro _ n scanned
    rwa [Option.mem_def.mp scanned] at none
  · intro idle
    cases scanned : scanInt ((trim i).drop 6) with
    | none => rfl
    | some n => exact idle.space space n scanned

/-- What the first pass adds is nothing on idle directives only. -/
theorem directiveCount_eq_zero_iff (processed : processDirective asm i = .ok asm')
    (short : i.length < maxLine) : directiveCount i = 0 ↔ Idle i := by
  by_cases string : ".ascii".toList.isPrefixOf (trim i)
  · exact stringCount_eq_zero_iff processed short string
  by_cases list : ∃ d : ListDirective, d.name.isPrefixOf (trim i)
  · obtain ⟨d, starts⟩ := list
    exact listCount_eq_zero_iff short string starts
  have noList (d : ListDirective) : ¬ d.name.isPrefixOf (trim i) :=
    fun starts => list ⟨d, starts⟩
  by_cases space : ".space".toList.isPrefixOf (trim i)
  · exact spaceCount_eq_zero_iff string noList space
  · refine iff_of_true ?_ ⟨not_asciiz string, fun starts => absurd starts string,
      fun d starts => absurd starts (noList d), fun starts => absurd starts space⟩
    have noByte : ¬ ".byte".toList.isPrefixOf (trim i) := noList .byte
    have noHalf : ¬ ".half".toList.isPrefixOf (trim i) := noList .half
    have noWord : ¬ ".word".toList.isPrefixOf (trim i) := noList .word
    unfold directiveCount
    simp only
    rw [if_neg (not_asciiz string), if_neg string, if_neg noByte, if_neg noHalf,
      if_neg noWord, if_neg space]

/-- Both passes count something for the directive, or neither does. -/
structure Alike (i : Text) : Prop where
  list : ∀ d : ListDirective, d.name.isPrefixOf (trim i) → ¬ Hollow (operands i)
  space : ".space".toList.isPrefixOf (trim i) →
    ∀ n ∈ scanInt ((trim i).drop 6), 0 ≤ n.toInt

theorem stringSize_le (s : Text) : stringSize s ≤ s.length := by
  unfold stringSize
  split
  · exact Nat.zero_le _
  · rename_i before text found
    have inside := congrArg List.length (eq_append_of_strchr found).1
    rw [List.length_append, List.length_cons] at inside
    split
    · rename_i bytes parsed
      have counted := length_parseEscapedString_le parsed
      omega
    · exact Nat.zero_le _

theorem not_hollow_iff (d : ListDirective) (t : Text) :
    ((fields t).length = 0 ↔ d.values t = 0) ↔ ¬ Hollow t := by
  rw [fields_eq_zero_iff, values_eq_zero_iff]
  constructor
  · intro same hollow
    obtain ⟨c, member, noSpace, noTab, noComma⟩ := hollow.other
    have blank := same.mpr (.inr ⟨hollow.first, hollow.separators⟩) c member
    tauto
  · intro solid
    constructor
    · intro blank
      cases t with
      | nil => exact .inl rfl
      | cons c t =>
          refine .inr ⟨⟨c, rfl, blank c List.mem_cons_self⟩, ?_⟩
          intro d member
          rcases blank d member with rfl | rfl | rfl
          · exact .inr rfl
          · exact .inr rfl
          · exact .inl rfl
    · rintro (rfl | ⟨first, separators⟩) c member
      · cases member
      · by_contra other
        simp only [not_or] at other
        exact solid ⟨first, separators, c, member, other⟩

theorem directive_alike_iff (short : i.length < maxLine) :
    (directiveCount i = 0 ↔ directiveSize i = 0) ↔ Alike i := by
  have bound : i.length < 512 := short
  by_cases list : ∃ d : ListDirective, d.name.isPrefixOf (trim i)
  · obtain ⟨d, starts⟩ := list
    obtain ⟨counted, written⟩ := list_counts starts
    obtain ⟨width, small, notSpace⟩ := list_facts starts bound
    rw [counted, written, ofNat_eq_zero_of_lt small, Nat.mul_eq_zero, Nat.mul_eq_zero,
      or_iff_left (Nat.ne_of_gt width), or_iff_left (Nat.ne_of_gt width),
      not_hollow_iff]
    constructor
    · intro solid
      exact ⟨fun _ _ => solid, fun space => absurd space notSpace⟩
    · intro alike
      exact alike.list d starts
  · have noList (d : ListDirective) : ¬ d.name.isPrefixOf (trim i) :=
      fun starts => list ⟨d, starts⟩
    by_cases space : ".space".toList.isPrefixOf (trim i)
    · obtain ⟨counted, written⟩ := space_counts space
      have alike : Alike i ↔ ∀ n ∈ scanInt ((trim i).drop 6), 0 ≤ n.toInt :=
        ⟨fun count => count.space space,
          fun positive => ⟨fun d starts => absurd starts (noList d), fun _ => positive⟩⟩
      rw [counted, written, alike]
      cases scanned : scanInt ((trim i).drop 6) with
      | none => simp
      | some n =>
          simp only [Option.getD_some, Option.map_some, Option.mem_some_iff, forall_eq']
          have none : (0 : Word).toInt = 0 := rfl
          rw [Int.toNat_eq_zero, ← BitVec.toInt_inj, none]
          omega
    · refine iff_of_true ?_ ⟨fun d starts => absurd starts (noList d),
        fun starts => absurd starts space⟩
      rw [other_counts noList space, ofNat_eq_zero_of_lt]
      unfold directiveSize
      have string := stringSize_le (trim i)
      have trimmed := length_trim_le i
      have noByte : ¬ ".byte".toList.isPrefixOf (trim i) := noList .byte
      have noHalf : ¬ ".half".toList.isPrefixOf (trim i) := noList .half
      have noWord : ¬ ".word".toList.isPrefixOf (trim i) := noList .word
      simp only
      rw [if_neg noByte, if_neg noHalf, if_neg noWord, if_neg space]
      split
      · omega
      split
      · omega
      · decide

end Directives

section Lines

variable {asm asm' asm₂ : Assembler} {st st' : Pass2} {s i line : Text}

theorem offset_moves_iff {size : Word}
    (offset : asm'.getCurrentSection.offset = asm.getCurrentSection.offset + size) :
    asm'.getCurrentSection.offset ≠ asm.getCurrentSection.offset ↔ size ≠ 0 := by
  rw [offset, not_iff_not]
  constructor
  · intro same
    exact (BitVec.add_right_inj _).mp (same.trans (BitVec.add_zero _).symm)
  · rintro rfl
    exact BitVec.add_zero _

theorem pseudoinstructionSize_le {labels : List Label} {op a2 : Text} {size : Nat}
    (sized : pseudoinstructionSize labels op a2 = .ok size) : size ≤ 2 := by
  unfold pseudoinstructionSize at sized
  split at sized
  · cases sized
    decide
  · cases sized
    decide
  · split at sized
    · obtain ⟨imm, _, result⟩ := bind_eq_ok.mp sized
      split at result
      · cases result
        decide
      · cases result
        decide
    · cases sized
      decide
  · cases sized
    decide
  · cases sized
    decide
  · cases sized
    decide
  · cases sized
    decide
  · cases sized
    decide

theorem processInstructionFirstPass_moves
    (processed : processInstructionFirstPass asm i = .ok asm') :
    asm'.getCurrentSection.offset ≠ asm.getCurrentSection.offset := by
  obtain ⟨size, sized, result⟩ := bind_eq_ok.mp processed
  cases result
  have small := pseudoinstructionSize_le sized
  rw [offset_moves_iff (getCurrentSection_growText ..)]
  intro none
  have zero := congrArg BitVec.toNat none
  rw [BitVec.toNat_ofNat] at zero
  split at zero
  · simp at zero
    omega
  · simp at zero

theorem processDirective_moves (processed : processDirective asm i = .ok asm') :
    asm'.getCurrentSection.offset ≠ asm.getCurrentSection.offset ↔
      directiveCount i ≠ 0 :=
  offset_moves_iff (processDirective_offset processed)

theorem firstPassContent_label {content before after : Text}
    (found : strchr ':' content = some (before, after))
    (processed : firstPassContent asm content = .ok asm') :
    ∃ labelled, processLabel asm before = .ok labelled ∧ asm'.labels = labelled.labels ∧
      asm'.currentSectionName = labelled.currentSectionName := by
  unfold firstPassContent at processed
  simp only [found] at processed
  obtain ⟨labelled, label, rest⟩ := bind_eq_ok.mp processed
  refine ⟨labelled, label, ?_⟩
  split at rest
  · split at rest
    · obtain ⟨size, _, result⟩ := bind_eq_ok.mp rest
      cases result
      exact ⟨growText_labels .., growText_current ..⟩
    split at rest
    · rcases processDirective_cases rest with rfl | ⟨rfl, _⟩
      · exact ⟨growData_labels .., growData_current ..⟩
      · exact ⟨rfl, rfl⟩
    · cases rest
      exact ⟨rfl, rfl⟩
  · cases rest
    exact ⟨rfl, rfl⟩

/-- The content of a line leaves the section, and defines its label. -/
theorem firstPassContent_kept {s : Text} (processed : firstPassContent asm s = .ok asm') :
    asm'.labels = (withLabel asm (contentLabel s)).labels ∧
      asm'.currentSectionName = asm.currentSectionName := by
  unfold contentLabel
  cases found : strchr ':' s with
  | some split =>
      obtain ⟨labelled, label, labels, current⟩ := firstPassContent_label found processed
      rw [processLabel_eq label] at labels current
      refine ⟨labels, current.trans ?_⟩
      split <;> rfl
  | none =>
      unfold firstPassContent at processed
      simp only [found] at processed
      split at processed
      · rcases processDirective_cases processed with rfl | ⟨rfl, _⟩
        · exact ⟨growData_labels .., growData_current ..⟩
        · exact ⟨rfl, rfl⟩
      split at processed
      · obtain ⟨size, _, result⟩ := bind_eq_ok.mp processed
        cases result
        exact ⟨growText_labels .., growText_current ..⟩
      · cases processed
        exact ⟨rfl, rfl⟩

theorem firstPassContent_moves (trimmed : Trimmed s)
    (processed : firstPassContent asm s = .ok asm') :
    match contentItem s with
    | none => asm'.getCurrentSection.offset = asm.getCurrentSection.offset
    | some i =>
        if asm.getCurrentSection.type = .text ∧ (':' ∈ s ∨ i.head? ≠ some '.') then
          asm'.getCurrentSection.offset ≠ asm.getCurrentSection.offset
        else if i.head? = some '.' then
          ∃ mid, mid.getCurrentSection = asm.getCurrentSection ∧
            processDirective mid i = .ok asm'
        else asm'.getCurrentSection.offset = asm.getCurrentSection.offset := by
  unfold firstPassContent at processed
  unfold contentItem
  cases found : strchr ':' s with
  | none =>
      have noColon := not_mem_of_strchr_eq_none found
      simp only [found] at processed ⊢
      split at processed
      · rename_i directive
        rw [if_neg, if_pos directive]
        · exact ⟨asm, rfl, processed⟩
        · rintro ⟨_, colon | other⟩
          · exact noColon colon
          · exact other directive
      · rename_i plain
        split at processed
        · rename_i text
          rw [if_pos ⟨text, .inr plain⟩]
          exact processInstructionFirstPass_moves processed
        · rename_i data
          rw [if_neg fun all => data all.1, if_neg plain]
          cases processed
          rfl
  | some split =>
      obtain ⟨before, after⟩ := split
      have whole := (eq_append_of_strchr found).1
      have colon : ':' ∈ s := by
        rw [whole]
        simp
      simp only [found] at processed ⊢
      obtain ⟨labelled, label, rest⟩ := bind_eq_ok.mp processed
      have same : labelled.getCurrentSection = asm.getCurrentSection := by
        rw [processLabel_eq label]
        split <;> rfl
      rw [trim_behind_colon trimmed whole]
      split at rest
      · rename_i item
        rw [if_pos item, ← same]
        simp only
        split at rest
        · rename_i text
          rw [if_pos ⟨text, .inl colon⟩]
          exact processInstructionFirstPass_moves rest
        · rename_i data
          rw [if_neg fun all => data all.1]
          split at rest
          · rename_i directive
            rw [if_pos directive]
            exact ⟨labelled, rfl, rest⟩
          · rename_i plain
            rw [if_neg plain]
            cases rest
            rfl
      · rename_i noItem
        rw [if_neg noItem]
        cases rest
        rw [same]

/-- The second pass writes an instruction always, a directive outside text
sections only. -/
theorem item_writes_iff {type : SectionType}
    (found : (asm₂.sections.find? st.currentSectionName).map (·.type) = some type)
    (written : secondPassItem asm₂ st i = .done st') :
    st'.out.writes ≠ st.out.writes ↔
      if i.head? = some '.' then type ≠ .text ∧ directiveSize i ≠ 0 else type = .text := by
  obtain ⟨sec, sectionFound, rfl⟩ := Option.map_eq_some_iff.mp found
  rw [ne_eq, (emitted_item sectionFound written).writes_eq_iff]
  unfold secondPassItem at written
  simp only [found, Option.getD_some] at written
  unfold itemSize
  split
  · split
    · rename_i data
      rw [and_iff_right data]
    · rename_i text
      exact iff_of_false (fun none => none rfl) (fun all => text all.1)
  · rename_i plain
    rw [if_neg plain] at written
    split
    · rename_i text
      rw [if_pos text] at written
      have positive := instructionWords_pos written
      exact iff_of_true (by omega) text
    · rename_i data
      exact iff_of_false (fun none => none rfl) data

/-- No directive of the line is counted and not written, or written and not
counted. -/
def DispatchedAlike (type : SectionType) (line : Text) : Prop :=
  ∀ s i, read line = .content s → contentItem s = some i → i.head? = some '.' →
    if type = .text then ':' ∉ s ∧ Idle i else Alike i

private theorem dispatch_item_iff {type : SectionType} (stripped : Stripped i)
    (typed : asm.getCurrentSection.type = type)
    (moves : if asm.getCurrentSection.type = .text ∧ (':' ∈ s ∨ i.head? ≠ some '.') then
        asm'.getCurrentSection.offset ≠ asm.getCurrentSection.offset
      else if i.head? = some '.' then
        ∃ mid, mid.getCurrentSection = asm.getCurrentSection ∧
          processDirective mid i = .ok asm'
      else asm'.getCurrentSection.offset = asm.getCurrentSection.offset)
    (writes : st'.out.writes ≠ st.out.writes ↔
      if i.head? = some '.' then type ≠ .text ∧ directiveSize i ≠ 0 else type = .text) :
    (asm'.getCurrentSection.offset ≠ asm.getCurrentSection.offset ↔
        st'.out.writes ≠ st.out.writes) ↔
      (i.head? = some '.' → if type = .text then ':' ∉ s ∧ Idle i else Alike i) := by
  rw [typed] at moves
  rw [writes]
  by_cases directive : i.head? = some '.'
  · rw [if_pos directive, forall_prop_of_true directive]
    have short := stripped.short
    have processedItem (other : ¬ (type = .text ∧ (':' ∈ s ∨ i.head? ≠ some '.'))) :
        ∃ mid, processDirective mid i = .ok asm' ∧
          (asm'.getCurrentSection.offset ≠ asm.getCurrentSection.offset ↔
            directiveCount i ≠ 0) := by
      simp only [if_neg other, if_pos directive] at moves
      obtain ⟨mid, same, processed⟩ := moves
      rw [← same]
      exact ⟨mid, processed, processDirective_moves processed⟩
    by_cases text : type = .text
    · rw [if_pos text]
      have silent : ¬ (type ≠ .text ∧ directiveSize i ≠ 0) := fun all => all.1 text
      rw [iff_false_right silent]
      by_cases colon : ':' ∈ s
      · simp only [if_pos (And.intro text (Or.inl colon))] at moves
        exact iff_of_false (fun stays => stays moves) (fun all => all.1 colon)
      · have other : ¬ (type = .text ∧ (':' ∈ s ∨ i.head? ≠ some '.')) := by
          rintro ⟨_, labelled | plain⟩
          · exact colon labelled
          · exact plain directive
        obtain ⟨mid, processedMid, moved⟩ := processedItem other
        rw [moved, not_not, and_iff_right colon]
        exact directiveCount_eq_zero_iff processedMid short
    · obtain ⟨_, _, moved⟩ := processedItem fun all => text all.1
      rw [if_neg text, moved, and_iff_right text, not_iff_not]
      exact directive_alike_iff short
  · rw [if_neg directive]
    refine iff_of_true ?_ (fun starts => absurd starts directive)
    by_cases text : type = .text
    · simp only [if_pos (And.intro text (Or.inr directive))] at moves
      exact iff_of_true moves text
    · simp only [if_neg (fun all => text (And.left all)), if_neg directive] at moves
      exact iff_of_false (fun other => other moves) text

/-- On a line that both passes finish and that enters no section, the first
pass moves the offset of the current section exactly when the second pass
writes something, unless the line has a directive of the shapes named. -/
theorem dispatch_iff {type : SectionType} (short : line.length < maxLine)
    (stays : (read line).entered = none) (typed : asm.getCurrentSection.type = type)
    (found : (asm₂.sections.find? st.currentSectionName).map (·.type) = some type)
    (counted : firstPassLine asm line = .done asm')
    (written : secondPassLine asm₂ st line = .done st') :
    (asm'.getCurrentSection.offset ≠ asm.getCurrentSection.offset ↔
        st'.out.writes ≠ st.out.writes) ↔ DispatchedAlike type line := by
  rw [secondPassLine_eq] at written
  unfold DispatchedAlike
  cases content : read line with
  | legacyText | legacyData | named =>
      rw [content] at stays
      cases stays
  | skipped =>
      rw [firstPassLine_eq, content] at counted
      rw [content] at written
      cases counted
      cases written
      refine iff_of_true (iff_of_false (fun other => other rfl) (fun other => other rfl)) ?_
      intro s i content
      cases content
  | content s =>
      rw [content] at written
      have stripped := stripped_content short content
      have processed := processed_of_content content counted
      have emitted : secondPassContent asm₂ st s = .done st' := written
      have moves := firstPassContent_moves stripped.trimmed processed
      rw [secondPassContent_eq] at emitted
      cases item : contentItem s with
      | none =>
          rw [item] at moves emitted
          cases emitted
          refine iff_of_true (iff_of_false (fun other => other moves) (fun other => other rfl)) ?_
          intro s' i same item'
          cases same
          rw [item] at item'
          cases item'
      | some i =>
          rw [item] at moves emitted
          have same := dispatch_item_iff (stripped_item stripped item) typed moves
            (item_writes_iff found emitted)
          refine same.trans ⟨?_, ?_⟩
          · intro one s' i' same item'
            cases same
            rw [item] at item'
            cases item'
            exact one
          · intro all
            exact all s i rfl item

/-- A labelled byte in `.data`. -/
theorem dispatch_iff_byte :
    let asm := Assembler.init.switchSection dataName
    let st : Pass2 := { Pass2.init with currentSectionName := dataName }
    let asm' := growData (addLabel asm ['x']) 1
    (asm'.getCurrentSection.offset ≠ asm.getCurrentSection.offset ↔
        (st.emit [7]).out.writes ≠ st.out.writes) ↔
      DispatchedAlike .data "x: .byte 7\n".toList := by
  intro asm st asm'
  have counted : firstPassLine asm "x: .byte 7\n".toList = .done asm' := by
    decide +kernel
  have written : secondPassLine asm' st "x: .byte 7\n".toList = .done (st.emit [7]) := by
    decide +kernel
  exact dispatch_iff (by decide) (by decide) (by decide) (by decide) counted written

/-- A byte in `.text` is counted and not written. -/
theorem not_dispatch_text :
    let asm' := growData Assembler.init 1
    firstPassLine Assembler.init ".byte 1\n".toList = .done asm' ∧
      secondPassLine asm' Pass2.init ".byte 1\n".toList = .done Pass2.init ∧
      ¬ (asm'.getCurrentSection.offset ≠ Assembler.init.getCurrentSection.offset ↔
        Pass2.init.out.writes ≠ Pass2.init.out.writes) := by
  intro asm'
  refine ⟨by decide +kernel, by decide +kernel, ?_⟩
  intro same
  have moved : asm'.getCurrentSection.offset ≠ Assembler.init.getCurrentSection.offset := by
    decide
  exact same.mp moved rfl

end Lines

end RiscvPack.Asm
