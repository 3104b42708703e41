import RiscvPack.Assembler.Agreement
import RiscvPack.Assembler.Pseudo
import RiscvPack.Assembler.Rejection

/-!
# References to labels

A name reaches the table of labels through `process_label`, which clips it,
and `find_label` through the operand buffers of the second pass, which do not.
A reference is resolved exactly when a space follows its mnemonic and every
operand, with the white space in front of its comma, fits its buffer.
-/

namespace RiscvPack.Asm

open CString Runs
open SourceLine (read)

section References

/-- The name of a label, however long. -/
abbrev LabelName := Identifier AnyLength

/-- A line of the source that defines a label. -/
def Defines (line : Text) (name : LabelName) : Prop :=
  ∃ s before after, read line = .content s ∧ strchr ':' s = some (before, after) ∧
    trim before = name.text

/-- A register operand and the white space around the comma behind it. -/
structure RegisterOperand where
  text : Text
  before : Text
  after : Text
  nonempty : text ≠ []
  plain : ∀ c ∈ text, tokenChar c
  blankBefore : ∀ c ∈ before, isspace c
  blankAfter : ∀ c ∈ after, isspace c

/-- What is copied into the buffer of the operand. -/
def RegisterOperand.field (o : RegisterOperand) : Text := o.text ++ o.before

/-- The instructions that refer to a label. -/
inductive Referrer where
  | branch (op : Isa.BranchOp) (rs1 rs2 : RegisterOperand)
  | jal (rd : RegisterOperand)
  | la (rd : RegisterOperand)
  | call
  | j

namespace Referrer

def mnemonic : Referrer → Text
  | branch op _ _ => branchText op
  | jal _ => "jal".toList
  | la _ => "la".toList
  | call => "call".toList
  | j => "j".toList

def registers : Referrer → List RegisterOperand
  | branch _ rs1 rs2 => [rs1, rs2]
  | jal rd | la rd => [rd]
  | call | j => []

/-- The words at `pc` when the label is at `target`. -/
def words (target pc : Word) : Referrer → List Word
  | branch op rs1 rs2 =>
      [encodeB (target - pc) (regField rs2.text) (regField rs1.text)
        (op.funct3.setWidth 32) 0x63]
  | jal rd => [encodeJ (target - pc) (regField rd.text) 0x6F]
  | la rd =>
      [encodeU (hi20 (target - pc) <<< 12) (regField rd.text) 0x17,
        encodeI (lo12 (target - pc)) (regField rd.text) 0 (regField rd.text) 0x13]
  | call => [encodeJ (target - pc) 1 0x6F]
  | j => [encodeJ (target - pc) 0 0x6F]

end Referrer

/-- An instruction that refers to a label, and the white space behind its
mnemonic. -/
structure Reference where
  referrer : Referrer
  gap : Text
  nonempty : gap ≠ []
  blank : ∀ c ∈ gap, isspace c

namespace Reference

/-- The operands in front of a label. -/
def front (operands : List RegisterOperand) : Text :=
  operands.flatMap fun o => o.field ++ ',' :: o.after

def text (r : Reference) (name : LabelName) : Text :=
  r.referrer.mnemonic ++ (r.gap ++ (front r.referrer.registers ++ name.text))

/-- A space follows the mnemonic, and every operand fits its buffer. -/
structure Fits (r : Reference) (name : LabelName) : Prop where
  spaced : r.gap.head? = some ' '
  short : name.text.length < 32
  fields : ∀ o ∈ r.referrer.registers, o.field.length < 32

end Reference

end References

section Names

variable (name : LabelName)

theorem LabelName.isspace_of_mem : ∀ c ∈ name.text, isspace c = false :=
  fun c member => isspace_of_tokenChar (name.tokenChar_of_mem c member)

theorem trimmed_of_solid {t : Text} (solid : ∀ c ∈ t, isspace c = false) : Trimmed t where
  head := fun c first => solid c (List.mem_of_mem_head? first)
  last := fun c final => solid c (List.mem_of_mem_getLast? final)

/-- A name that fits the buffer of an operand. -/
def LabelName.identifier (short : name.text.length < 32) : Identifier where
  first := name.first
  rest := name.rest
  letter := name.letter
  chars := name.chars
  short := short

/-- The table holds at most 63 characters of a name. -/
theorem recordedName_eq {before : Text} (trimmed : trim before = name.text) :
    skipSpaces before ≠ [] ∧
      trim ((skipSpaces before).take 63) = name.text.take 63 := by
  have whole : name.text ++ (skipSpaces before).rtakeWhile isspace = skipSpaces before := by
    rw [← trimmed, trim, List.rdropWhile_append_rtakeWhile]
  have solid : ∀ c ∈ name.text.take 63, isspace c = false :=
    fun c member => name.isspace_of_mem c (List.mem_of_mem_take member)
  have blank : ∀ c ∈ ((skipSpaces before).rtakeWhile isspace).take
      (63 - name.text.length), isspace c :=
    fun c member => List.mem_rtakeWhile_imp (List.mem_of_mem_take member)
  constructor
  · rw [← whole]
    exact List.append_ne_nil_of_left_ne_nil (List.cons_ne_nil _ _) _
  · rw [← whole, List.take_append, trim_append_right, trim_of_trimmed]
    · exact trimmed_of_solid solid
    · exact blank

theorem Defines.lineLabel {line : Text} (defines : Defines line name) :
    lineLabel line = some (name.text.take 63) := by
  obtain ⟨s, before, after, content, found, trimmed⟩ := defines
  obtain ⟨named, recorded⟩ := recordedName_eq name trimmed
  simp only [Asm.lineLabel, content, contentLabel, found]
  rw [if_neg named, recorded]

/-- Names that fit are recorded in full, so no other name is recorded as one. -/
theorem eq_of_recorded {other : LabelName} (short : name.text.length < 32)
    (same : other.text.take 63 = name.text) : other.text = name.text := by
  have length := congrArg List.length same
  rw [List.length_take] at length
  rw [← same, List.take_of_length_le]
  omega

end Names

section Recording

variable {asm asm' : Assembler} {source : Text} {name : LabelName}

/-- Where a source defines a label, and the first pass there. -/
structure Definition (source : Text) (name : LabelName) where
  front : List Text
  line : Text
  back : List Text
  middle : Assembler
  split : sourceLines source = front ++ line :: back
  defines : Defines line name
  reached : run firstPassLine Assembler.init front = .done middle

/-- The label under its full name. -/
def Definition.label (d : Definition source name) : Label where
  name := name.text
  addr := d.middle.getCurrentSection.offset
  sectionName := d.middle.currentSectionName

/-- The final address of the label, which `adjust_labels` computes. -/
def Definition.address (d : Definition source name) (asm : Assembler) : Word :=
  (adjustLabel (placedTables asm).sections d.label).addr

theorem Change.keeps_label (change : Change asm asm') {label : Label}
    (member : label ∈ asm.labels) : label ∈ asm'.labels := by
  cases change with
  | switch name => exact member
  | label name _ => exact List.mem_append_left _ member
  | text size =>
      rw [growText_labels]
      exact member
  | data size =>
      rw [growData_labels]
      exact member

theorem Changes.keeps_label (changes : Changes asm asm') {label : Label}
    (member : label ∈ asm.labels) : label ∈ asm'.labels := by
  induction changes with
  | refl => exact member
  | tail _ change induction => exact change.keeps_label induction

theorem Defines.recorded {line : Text} (defines : Defines line name)
    (stepped : firstPassLine asm line = .done asm') :
    { name := name.text.take 63
      addr := asm.getCurrentSection.offset
      sectionName := asm.currentSectionName } ∈ asm'.labels := by
  obtain ⟨s, before, after, content, found, trimmed⟩ := defines
  obtain ⟨labelled, processed, changes⟩ :=
    firstPassContent_labelled found (processed_of_content content stepped)
  obtain ⟨named, clipped⟩ := recordedName_eq name trimmed
  have added := processLabel_eq processed
  rw [if_neg named, clipped] at added
  apply Changes.keeps_label changes
  rw [added]
  exact List.mem_append_right _ (List.mem_singleton_self _)

theorem Definition.recorded (d : Definition source name) (short : name.text.length < 32)
    (produced : firstPass Assembler.init source = .done asm) : d.label ∈ asm.labels := by
  obtain ⟨finished, ran, result⟩ := Outcome.andThen_eq_done.mp produced
  rw [d.split] at ran
  obtain ⟨middle, reached, ran⟩ := run_append_eq_done.mp ran
  cases (Outcome.done.inj (reached.symm.trans d.reached))
  obtain ⟨next, stepped, ran⟩ := run_cons_eq_done.mp ran
  have recorded := d.defines.recorded stepped
  rw [List.take_of_length_le (by omega)] at recorded
  have kept : d.label ∈ finished.labels := by
    apply run_firstPass_invariant ?_ recorded ran
    intro a a' member change
    exact change.keeps_label member
  cases result
  exact kept

theorem findLabel_of_distinct {labels : List Label} {label : Label}
    (distinct : (labels.map (·.name)).Nodup) (member : label ∈ labels) :
    findLabel labels label.name = .ok label.addr := by
  induction labels with
  | nil => cases member
  | cons other labels induction =>
      rw [List.map_cons, List.nodup_cons] at distinct
      unfold findLabel
      rcases List.mem_cons.mp member with rfl | behind
      · simp
      · have differs : other.name ≠ label.name := by
          intro same
          apply distinct.1
          rw [same]
          exact List.mem_map_of_mem behind
        have found := induction distinct.2 behind
        rw [List.find?_cons_of_neg (by simpa using differs)]
        exact found

/-- The second pass finds the final address under the full name. -/
theorem Definition.found (d : Definition source name) (short : name.text.length < 32)
    (produced : firstPass Assembler.init source = .done asm) :
    findLabel (placedTables asm).labels name.text = .ok (d.address asm) := by
  have distinct := names_distinct produced
  rw [← names_placed] at distinct
  have member : adjustLabel (placedTables asm).sections d.label ∈
      (placedTables asm).labels :=
    List.mem_map_of_mem (d.recorded short produced)
  have named : (adjustLabel (placedTables asm).sections d.label).name = name.text := by
    unfold adjustLabel
    split <;> rfl
  rw [← named]
  exact findLabel_of_distinct distinct member

end Recording

section Reading

variable {op blanks : Text} {name : LabelName}

theorem readOperands_plain {i : Text} (stripped : Stripped i) (noParen : '(' ∉ i) :
    readOperands i = (do
      let args ← parseInstructionArgs i Operands.blank
      .ok { op := args.op
            a1 := dropTrailingComma (trimInPlace args.a1)
            a2 := dropTrailingComma (trimInPlace args.a2)
            a3 := trimInPlace args.a3 }) := by
  rw [readOperands, stripped.line_eq, rewriteParens, strchr_eq_none noParen]
  rfl

namespace LabelName

variable (name)

theorem not_mem {c : Char} (special : tokenChar c = false) : c ∉ name.text := by
  intro member
  rw [name.tokenChar_of_mem c member] at special
  cases special

theorem trimmed : Trimmed name.text := trimmed_of_solid name.isspace_of_mem

theorem trim_behind (blank : ∀ c ∈ blanks, isspace c) : trim (blanks ++ name.text) = name.text :=
  (trim_append blank name.text).trans (trim_of_trimmed name.trimmed)

end LabelName

theorem dropTrailingComma_of_absent {t : Text} (noComma : ',' ∉ t) :
    dropTrailingComma t = t :=
  if_neg fun last => noComma (List.mem_of_mem_getLast? last)

namespace RegisterOperand

variable (o : RegisterOperand)

theorem solid : ∀ c ∈ o.text, isspace c = false :=
  fun c member => isspace_of_tokenChar (o.plain c member)

theorem skipSpaces_behind (blank : ∀ c ∈ blanks, isspace c) :
    skipSpaces (blanks ++ o.field) = o.field := by
  rw [skipSpaces_append blank]
  apply skipSpaces_of_head
  intro c first
  obtain ⟨d, rest, text⟩ := List.exists_cons_of_ne_nil o.nonempty
  rw [field, text, List.cons_append] at first
  cases first
  exact o.solid _ (by rw [text]; exact List.mem_cons_self)

theorem not_mem_field {c : Char} (solid : isspace c = false)
    (special : tokenChar c = false) : c ∉ o.field := by
  intro member
  rcases List.mem_append.mp member with inside | blank
  · rw [o.plain c inside] at special
    cases special
  · exact not_mem_blank solid o.blankBefore blank

theorem trimInPlace_field : trimInPlace o.field = o.text := by
  have noSpaces : o.field.takeWhile isspace = [] := by
    obtain ⟨d, rest, text⟩ := List.exists_cons_of_ne_nil o.nonempty
    have solid := o.solid d (by rw [text]; exact List.mem_cons_self)
    simp [field, text, solid]
  rw [trimInPlace, noSpaces, field, trim_append_right o.blankBefore]
  exact trim_of_trimmed (trimmed_of_solid o.solid)

theorem operand_field : dropTrailingComma (trimInPlace o.field) = o.text := by
  rw [o.trimInPlace_field]
  apply dropTrailingComma_of_absent
  intro member
  exact absurd (o.plain ',' member) (by decide)

end RegisterOperand

/-- What the second pass reads in a reference. -/
def Referrer.operands (name : LabelName) (referrer : Referrer) : Operands :=
  match referrer.registers with
  | [] => ⟨referrer.mnemonic, name.text, [], []⟩
  | [o] => ⟨referrer.mnemonic, o.text, name.text, []⟩
  | o :: p :: _ => ⟨referrer.mnemonic, o.text, p.text, name.text⟩

theorem LabelName.operand_text (name : LabelName) :
    dropTrailingComma (trimInPlace name.text) = name.text := by
  rw [trimInPlace_of_trimmed name.trimmed]
  exact dropTrailingComma_of_absent (name.not_mem (by decide))

section Arities

variable (blank : ∀ c ∈ blanks, isspace c) (noSpace : ' ' ∉ op) (shortOp : op.length < 16)
  {args : Operands}

include blank noSpace shortOp

private theorem reads_one (stripped : Stripped (op ++ ' ' :: (blanks ++ name.text)))
    (noParen : '(' ∉ op ++ ' ' :: (blanks ++ name.text)) :
    readOperands (op ++ ' ' :: (blanks ++ name.text)) = .ok args ↔
      name.text.length < 32 ∧ args = ⟨op, name.text, [], []⟩ := by
  have noComma : ',' ∉ name.text := name.not_mem (by decide)
  have trimmed := name.trim_behind blank
  rw [readOperands_plain stripped noParen, parseInstructionArgs_one _ noSpace
    (by rwa [trimmed]) stripped.short, trimmed, storeText_of_lt shortOp]
  simp only [bind_assoc]
  show (storeText 32 name.text >>= _) = _ ↔ _
  rw [storeText_bind_eq_ok]
  show _ ∧ Except.ok (Operands.mk op (dropTrailingComma (trimInPlace name.text)) [] []) = _ ↔ _
  rw [name.operand_text, Except.ok.injEq, eq_comm (a := args)]

private theorem reads_two (o : RegisterOperand)
    (stripped : Stripped (op ++ ' ' :: (blanks ++ o.field ++ ',' :: (o.after ++ name.text))))
    (noParen : '(' ∉ op ++ ' ' :: (blanks ++ o.field ++ ',' :: (o.after ++ name.text))) :
    readOperands (op ++ ' ' :: (blanks ++ o.field ++ ',' :: (o.after ++ name.text))) =
        .ok args ↔
      o.field.length < 32 ∧ name.text.length < 32 ∧
        args = ⟨op, o.text, name.text, []⟩ := by
  have noComma : ',' ∉ blanks ++ o.field := by
    simp [not_mem_blank (c := ',') rfl blank, o.not_mem_field (c := ',') rfl rfl]
  have noOther : ',' ∉ o.after ++ name.text := by
    simp [not_mem_blank (c := ',') rfl o.blankAfter, name.not_mem (c := ',') rfl]
  rw [readOperands_plain stripped noParen, parseInstructionArgs_two _ noSpace noComma
    noOther stripped.short, name.trim_behind o.blankAfter, o.skipSpaces_behind blank,
    storeText_of_lt shortOp]
  simp only [bind_assoc]
  show (storeText 32 o.field >>= _) = _ ↔ _
  rw [storeText_bind_eq_ok, storeText_bind_eq_ok]
  show _ ∧ _ ∧ Except.ok (Operands.mk op (dropTrailingComma (trimInPlace o.field))
    (dropTrailingComma (trimInPlace name.text)) []) = _ ↔ _
  rw [o.operand_field, name.operand_text, Except.ok.injEq, eq_comm (a := args)]

private theorem reads_three (o p : RegisterOperand)
    (stripped : Stripped (op ++ ' ' :: (blanks ++ o.field ++ ',' ::
      (o.after ++ p.field ++ ',' :: (p.after ++ name.text)))))
    (noParen : '(' ∉ op ++ ' ' :: (blanks ++ o.field ++ ',' ::
      (o.after ++ p.field ++ ',' :: (p.after ++ name.text)))) :
    readOperands (op ++ ' ' :: (blanks ++ o.field ++ ',' ::
        (o.after ++ p.field ++ ',' :: (p.after ++ name.text)))) = .ok args ↔
      o.field.length < 32 ∧ p.field.length < 32 ∧ name.text.length < 32 ∧
        args = ⟨op, o.text, p.text, name.text⟩ := by
  have noComma : ',' ∉ blanks ++ o.field := by
    simp [not_mem_blank (c := ',') rfl blank, o.not_mem_field (c := ',') rfl rfl]
  have noOther : ',' ∉ o.after ++ p.field := by
    simp [not_mem_blank (c := ',') rfl o.blankAfter, p.not_mem_field (c := ',') rfl rfl]
  rw [readOperands_plain stripped noParen, parseInstructionArgs_three _ noSpace noComma
    noOther stripped.short, name.trim_behind p.blankAfter, o.skipSpaces_behind blank,
    p.skipSpaces_behind o.blankAfter, storeText_of_lt shortOp]
  simp only [bind_assoc]
  show (storeText 32 o.field >>= _) = _ ↔ _
  rw [storeText_bind_eq_ok, storeText_bind_eq_ok, storeText_bind_eq_ok]
  show _ ∧ _ ∧ _ ∧ Except.ok (Operands.mk op (dropTrailingComma (trimInPlace o.field))
    (dropTrailingComma (trimInPlace p.field)) (trimInPlace name.text)) = _ ↔ _
  rw [o.operand_field, p.operand_field, trimInPlace_of_trimmed name.trimmed,
    Except.ok.injEq, eq_comm (a := args)]

end Arities

variable (r : Reference) {args : Operands}

theorem Referrer.mnemonic_plain (referrer : Referrer) :
    ' ' ∉ referrer.mnemonic ∧ '(' ∉ referrer.mnemonic ∧ referrer.mnemonic.length < 16 := by
  have branches (op : Isa.BranchOp) :
      ' ' ∉ branchText op ∧ '(' ∉ branchText op ∧ (branchText op).length < 16 := by
    cases op <;> decide
  have words : ∀ m ∈ ["jal".toList, "la".toList, "call".toList, "j".toList],
      ' ' ∉ m ∧ '(' ∉ m ∧ m.length < 16 := by
    decide
  cases referrer with
  | branch op => exact branches op
  | jal => exact words "jal".toList (by decide)
  | la => exact words "la".toList (by decide)
  | call => exact words "call".toList (by decide)
  | j => exact words "j".toList (by decide)

theorem Referrer.length_registers_le (referrer : Referrer) :
    referrer.registers.length ≤ 2 := by
  cases referrer with
  | branch => exact le_refl 2
  | jal | la => exact Nat.le_succ 1
  | call | j => exact Nat.zero_le 2

theorem Reference.not_paren_mem_text : '(' ∉ r.text name := by
  have noMnemonic := r.referrer.mnemonic_plain.2.1
  have noGap : '(' ∉ r.gap := not_mem_blank rfl r.blank
  have noName : '(' ∉ name.text := name.not_mem rfl
  have noFront : '(' ∉ Reference.front r.referrer.registers := by
    intro member
    obtain ⟨o, _, inside⟩ := List.mem_flatMap.mp member
    have noField : '(' ∉ o.field := o.not_mem_field rfl rfl
    have noAfter : '(' ∉ o.after := not_mem_blank rfl o.blankAfter
    simp [noField, noAfter] at inside
  simp [Reference.text, noMnemonic, noGap, noName, noFront]

/-- A reference with a space behind its mnemonic is read exactly when all
operands fit their buffers. -/
theorem Reference.reads_iff (spaced : r.gap.head? = some ' ')
    (stripped : Stripped (r.text name)) :
    readOperands (r.text name) = .ok args ↔
      r.Fits name ∧ args = r.referrer.operands name := by
  have noParen : '(' ∉ r.text name := r.not_paren_mem_text
  obtain ⟨noSpace, _, shortOp⟩ := r.referrer.mnemonic_plain
  obtain ⟨blanks, gap⟩ := List.head?_eq_some_iff.mp spaced
  have blank := r.blank
  rw [gap, List.forall_mem_cons] at blank
  have blank := blank.2
  have fits_iff : r.Fits name ↔
      name.text.length < 32 ∧ ∀ o ∈ r.referrer.registers, o.field.length < 32 :=
    ⟨fun fits => ⟨fits.short, fits.fields⟩, fun ⟨short, fields⟩ => ⟨spaced, short, fields⟩⟩
  have few := r.referrer.length_registers_le
  have layout : r.text name = r.referrer.mnemonic ++
      (' ' :: blanks ++ (front r.referrer.registers ++ name.text)) := by
    rw [Reference.text, gap]
  rw [fits_iff]
  cases registers : r.referrer.registers with
  | nil =>
      have shape : r.text name = r.referrer.mnemonic ++ ' ' :: (blanks ++ name.text) := by
        simp [layout, front, registers]
      rw [shape] at stripped noParen ⊢
      rw [reads_one blank noSpace shortOp stripped noParen]
      simp [Referrer.operands, registers]
  | cons o rest =>
      cases rest with
      | nil =>
          have shape : r.text name = r.referrer.mnemonic ++ ' ' ::
              (blanks ++ o.field ++ ',' :: (o.after ++ name.text)) := by
            simp [layout, front, registers]
          rw [shape] at stripped noParen ⊢
          rw [reads_two blank noSpace shortOp o stripped noParen]
          simp [Referrer.operands, registers]
          tauto
      | cons p rest =>
          rw [registers, List.length_cons, List.length_cons] at few
          have alone : rest = [] := List.length_eq_zero_iff.mp (by omega)
          rw [alone] at registers ⊢
          have shape : r.text name = r.referrer.mnemonic ++ ' ' ::
              (blanks ++ o.field ++ ',' ::
                (o.after ++ p.field ++ ',' :: (p.after ++ name.text))) := by
            simp [layout, front, registers]
          rw [shape] at stripped noParen ⊢
          rw [reads_three blank noSpace shortOp o p stripped noParen]
          simp [Referrer.operands, registers]
          tauto

end Reading

section Resolution

variable {labels : List Label} {st st' : Pass2} {name : LabelName} {r : Reference}
  {target : Word}

theorem RegisterOperand.piece (o : RegisterOperand) (short : o.field.length < 32) :
    Piece o.text where
  noComma := fun member => absurd (o.plain ',' member) (by decide)
  noHash := fun member => absurd (o.plain '#' member) (by decide)
  trimmed := trimmed_of_solid o.solid
  short := by
    rw [RegisterOperand.field, List.length_append] at short
    omega

/-- A reference that fits is written with the address of its label. -/
theorem Reference.emits (fits : r.Fits name) (stripped : Stripped (r.text name))
    (found : findLabel labels name.text = .ok target) (st : Pass2) :
    processInstructionSecondPass labels st (r.text name) =
      .done (st.emit ((r.referrer.words target st.pc).flatMap Bits.leBytes)) := by
  have read := (r.reads_iff fits.spaced stripped).mpr ⟨fits, rfl⟩
  have parsed : parseImm labels name.text = .ok target :=
    (parseImm_identifier labels (name.identifier fits.short)).trans found
  have second : Piece name.text := (name.identifier fits.short).token.piece
  have fields := fits.fields
  unfold processInstructionSecondPass
  rw [read]
  cases referrer : r.referrer with
  | branch op rs1 rs2 =>
      have plain : Pseudo.ofText (branchText op) = none := by
        cases op <;> rfl
      have encoded : encodeInstruction labels st.pc
          ⟨branchText op, rs1.text, rs2.text, name.text⟩ =
          .ok (encodeB (target - st.pc) (regField rs2.text) (regField rs1.text)
            (op.funct3.setWidth 32) 0x63) := by
        simp only [encodeInstruction, encodings_branch, parsed]
        rfl
      simp only [Referrer.operands, Referrer.registers, Referrer.mnemonic, plain,
        emitInstruction, encoded]
      rfl
  | jal rd =>
      have known : encodings.lookup "jal".toList = some .jal := rfl
      have encoded : encodeInstruction labels st.pc ⟨"jal".toList, rd.text, name.text, []⟩ =
          .ok (encodeJ (target - st.pc) (regField rd.text) 0x6F) := by
        simp only [encodeInstruction, known, parsed]
        rfl
      have plain : Pseudo.ofText "jal".toList = none := rfl
      simp only [Referrer.operands, Referrer.registers, Referrer.mnemonic, plain,
        emitInstruction, encoded]
      rfl
  | la rd =>
      have first : Piece rd.text := rd.piece (fields rd (by simp [referrer, Referrer.registers]))
      have printed : Printed "auipc".toList := ⟨by decide, by decide, by decide⟩
      have upper := emitExpanded_upper labels st printed rfl first (hi20 (target - st.pc))
      have lower := emitExpanded_addi labels
        (st.emit (Bits.leBytes (encodeU (hi20 (target - st.pc) <<< 12) (regField rd.text) 0x17)))
        first first (lo12 (target - st.pc))
      have plain : Pseudo.ofText "la".toList = some .la := rfl
      simp only [Referrer.operands, Referrer.registers, Referrer.mnemonic, plain,
        expandPseudoinstruction, found]
      show run (emitExpanded labels) st [snprintf ("auipc".toList ++ " ".toList ++ rd.text ++
        ", ".toList ++ printInt (hi20 (target - st.pc)).toInt), _] = _
      rw [run_cons, upper, Outcome.done_andThen, run_cons, lower, Outcome.done_andThen, run_nil,
        ← Pass2.emit_append]
      rfl
  | call =>
      have x1 : Piece "x1".toList := piece_register 1
      have emitted := emitExpanded_jal x1 second parsed st
      have plain : Pseudo.ofText "call".toList = some .call := rfl
      simp only [Referrer.operands, Referrer.registers, Referrer.mnemonic, plain,
        expandPseudoinstruction]
      show run (emitExpanded labels) st
        [snprintf ("jal ".toList ++ "x1".toList ++ ", ".toList ++ name.text)] = _
      rw [run_cons, emitted, Outcome.done_andThen, run_nil]
      rfl
  | j =>
      have x0 : Piece "x0".toList := piece_register 0
      have emitted := emitExpanded_jal x0 second parsed st
      have plain : Pseudo.ofText "j".toList = some .j := rfl
      simp only [Referrer.operands, Referrer.registers, Referrer.mnemonic, plain,
        expandPseudoinstruction]
      show run (emitExpanded labels) st
        [snprintf ("jal ".toList ++ "x0".toList ++ ", ".toList ++ name.text)] = _
      rw [run_cons, emitted, Outcome.done_andThen, run_nil]
      rfl

theorem Reference.fits_of_done (stripped : Stripped (r.text name))
    (finished : processInstructionSecondPass labels st (r.text name) = .done st') :
    r.Fits name := by
  obtain ⟨noSpace, _, _⟩ := r.referrer.mnemonic_plain
  obtain ⟨g, blanks, gap⟩ := List.exists_cons_of_ne_nil r.nonempty
  have white : isspace g := r.blank g (by rw [gap]; exact List.mem_cons_self)
  have spaced : r.gap.head? = some ' ' := by
    have layout : r.text name = r.referrer.mnemonic ++
        g :: (blanks ++ (front r.referrer.registers ++ name.text)) := by
      rw [Reference.text, gap, List.cons_append]
    rw [layout] at stripped finished
    rw [gap, space_of_done stripped noSpace white finished]
    rfl
  obtain ⟨args, read, _⟩ := known_of_done finished
  exact ((r.reads_iff spaced stripped).mp read).1

variable {asm : Assembler} {source line : Text}

/-- A reference is resolved: the table holds the full name, no other name is
recorded as this one, and the words of the line hold the final address. -/
structure Resolved (asm : Assembler) (st : Pass2) (line : Text) (r : Reference)
    (d : Definition source name) : Prop where
  recorded : d.label ∈ asm.labels
  distinct : ∀ other : LabelName, ∀ line ∈ sourceLines source, Defines line other →
    lineLabel line = some name.text → other.text = name.text
  resolves : secondPassLine (placedTables asm) st line =
    .done (st.emit ((r.referrer.words (d.address asm) st.pc).flatMap Bits.leBytes))

/-- In a program that the first pass accepts, a reference to a defined label
is resolved exactly when it fits. -/
theorem resolved_iff_fits (produced : firstPass Assembler.init source = .done asm)
    (d : Definition source name) (member : line ∈ sourceLines source)
    (refers : InstructionLine (placedTables asm) st line (r.text name)) :
    Resolved asm st line r d ↔ r.Fits name := by
  have stripped : Stripped (r.text name) := by
    obtain ⟨s, content, item⟩ := refers.content
    exact stripped_item (stripped_content (length_sourceLines member) content) item
  constructor
  · intro resolved
    have finished := resolved.resolves
    rw [secondPassLine_instruction refers] at finished
    exact r.fits_of_done stripped finished
  · intro fits
    constructor
    · exact d.recorded fits.short produced
    · intro other line _ defines label
      rw [defines.lineLabel, Option.some.injEq] at label
      exact eq_of_recorded name fits.short label
    · rw [secondPassLine_instruction refers]
      exact r.emits fits stripped (d.found fits.short produced) st

/-- A branch to the line in front of it. -/
theorem resolved_iff_fits_loop :
    let name : LabelName := ⟨'l', "oop".toList, by decide, by decide, trivial⟩
    let source : Text := "loop:\nbeq a0, x0, loop\n".toList
    let asm := (firstPass Assembler.init source).last
    ∃ r : Reference, r.text name = "beq a0, x0, loop".toList ∧ ∃ d : Definition source name,
      Resolved asm Pass2.init "beq a0, x0, loop\n".toList r d := by
  intro name source asm
  let a0 : RegisterOperand :=
    ⟨"a0".toList, [], [' '], by decide, by decide, by decide, by decide⟩
  let x0 : RegisterOperand :=
    ⟨"x0".toList, [], [' '], by decide, by decide, by decide, by decide⟩
  let r : Reference := ⟨.branch .beq a0 x0, [' '], by decide, by decide⟩
  have produced : firstPass Assembler.init source = .done asm := by decide +kernel
  have defines : Defines "loop:\n".toList name :=
    ⟨"loop:".toList, "loop".toList, [], by decide +kernel, rfl, rfl⟩
  let d : Definition source name :=
    { front := []
      line := "loop:\n".toList
      back := ["beq a0, x0, loop\n".toList]
      middle := Assembler.init
      split := by decide +kernel
      defines
      reached := rfl }
  have refers : InstructionLine (placedTables asm) Pass2.init "beq a0, x0, loop\n".toList
      (r.text name) :=
    ⟨⟨"beq a0, x0, loop".toList, by decide +kernel, by decide +kernel⟩, by decide +kernel,
      by decide +kernel⟩
  have fits : r.Fits name := ⟨rfl, by decide, by decide⟩
  exact ⟨r, rfl, d, (resolved_iff_fits produced d (by decide +kernel) refers).mpr fits⟩

/-- A name of 32 characters is recorded in full, and a jump to it overflows
the buffer of its operand. -/
theorem not_resolved_long_name :
    let name : LabelName :=
      ⟨'l', "oop_over_all_the_remaining_item".toList, by decide, by decide, trivial⟩
    let source : Text := (name.text ++ ":\nj ".toList) ++ (name.text ++ ['\n'])
    let line : Text := "j ".toList ++ (name.text ++ ['\n'])
    let asm := (firstPass Assembler.init source).last
    firstPass Assembler.init source = .done asm ∧ line ∈ sourceLines source ∧
      ∃ r : Reference, InstructionLine (placedTables asm) Pass2.init line (r.text name) ∧
        ∃ d : Definition source name, d.label ∈ asm.labels ∧
          secondPass (placedTables asm) source = .stopped .overflow Pass2.init ∧
          ¬ Resolved asm Pass2.init line r d := by
  intro name source line asm
  let r : Reference := ⟨.j, [' '], by decide, by decide⟩
  let d : Definition source name :=
    { front := []
      line := name.text ++ ":\n".toList
      back := [line]
      middle := Assembler.init
      split := by decide +kernel
      defines := ⟨name.text ++ [':'], name.text, [], by decide +kernel, rfl, rfl⟩
      reached := rfl }
  have outcomes : firstPass Assembler.init source = .done asm ∧ line ∈ sourceLines source ∧
      d.label ∈ asm.labels ∧
        secondPass (placedTables asm) source = .stopped .overflow Pass2.init ∧
          secondPassLine (placedTables asm) Pass2.init line = .stopped .overflow Pass2.init := by
    decide +kernel
  obtain ⟨produced, member, recorded, stopped, overflows⟩ := outcomes
  refine ⟨produced, member, r, ⟨⟨"j ".toList ++ name.text, by decide +kernel, by decide +kernel⟩,
    by decide +kernel, by decide +kernel⟩, d, recorded, stopped, ?_⟩
  intro resolved
  have resolves := resolved.resolves
  rw [overflows] at resolves
  cases resolves

end Resolution

end RiscvPack.Asm
