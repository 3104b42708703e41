import RiscvPack.Assembler.SecondPass
import RiscvPack.Assembler.Tables

/-!
# What a line of the source is

Both passes sort lines the same way: a line is skipped, enters a section, or
has content.  `firstPassLine_eq` and `secondPassLine_eq` say so.  The bytes
that the second pass writes for the content are counted from its text by
`itemSize`.
-/

namespace RiscvPack.Asm

open CString Runs Files

/-- The two passes' view of a line. -/
inductive SourceLine where
  | skipped
  /-- Plain `.text`. -/
  | legacyText
  /-- Plain `.data`. -/
  | legacyData
  /-- A section entered through its table entry. -/
  | named (name : Text)
  | content (s : Text)
  deriving DecidableEq, Repr

namespace SourceLine

def read (line : Text) : SourceLine :=
  let s := trim line
  if s = [] ∨ s.head? = some '#' then .skipped
  else if ".section".toList.isPrefixOf s then
    if sectionArgument s ≠ [] then .named (sectionArgument s) else .skipped
  else if s = textName then .legacyText
  else if s = dataName then .legacyData
  else if s = rodataName then .named rodataName
  else if s = bssName then .named bssName
  else if ".globl".toList <:+: s then .skipped
  else .content (stripComment s)

/-- The section a line enters. -/
def entered : SourceLine → Option Text
  | .skipped | .content _ => none
  | .legacyText => some textName
  | .legacyData => some dataName
  | .named name => some name

end SourceLine

open SourceLine (read entered)

/-- The first pass on a line that has been sorted. -/
def firstPassRead (asm : Assembler) : SourceLine → Outcome Stop Assembler
  | .skipped => .done asm
  | .legacyText => .done (asm.switchSection textName)
  | .legacyData => .done (asm.switchSection dataName)
  | .named name => .done (asm.switchSection name)
  | .content s =>
      match firstPassContent asm s with
      | .ok asm' => .done asm'
      | .error reason => .stopped reason asm

theorem firstPassLine_eq (asm : Assembler) (line : Text) :
    firstPassLine asm line = firstPassRead asm (read line) := by
  unfold SourceLine.read
  simp only [apply_ite (firstPassRead asm)]
  rfl

theorem processed_of_content {asm asm' : Assembler} {line s : Text}
    (content : read line = .content s) (done : firstPassLine asm line = .done asm') :
    firstPassContent asm s = .ok asm' := by
  rw [firstPassLine_eq, content] at done
  simp only [firstPassRead] at done
  split at done
  · cases done
    assumption
  · cases done

/-- The directives that both passes compare a line with. -/
def directiveNames : List Text :=
  [".asciiz", ".ascii", ".byte", ".half", ".word", ".space"].map String.toList

theorem infix_behind {x : Char} {others front rest : Text} (absent : x ∉ front)
    (inside : x :: others <:+: front ++ rest) : x :: others <:+: rest := by
  induction front with
  | nil => exact inside
  | cons c front induction =>
      rw [List.mem_cons, not_or] at absent
      rw [List.cons_append, List.infix_cons_iff] at inside
      rcases inside with start | behind
      · exact absurd (List.cons_prefix_cons.mp start).1 absent.1
      · exact induction absent.2 behind

theorem globl_behind {name : Text} (known : name ∈ directiveNames) (operand : Text) :
    ".globl".toList <:+: name ++ operand ↔ ".globl".toList <:+: operand := by
  constructor
  · intro inside
    obtain ⟨second, others, rfl, noDot, other⟩ : ∃ second others,
        name = '.' :: second :: others ∧ '.' ∉ second :: others ∧ 'g' ≠ second := by
      simp only [directiveNames, List.map_cons, List.map_nil, List.mem_cons,
        List.not_mem_nil, or_false] at known
      rcases known with rfl | rfl | rfl | rfl | rfl | rfl <;>
      · exact ⟨_, _, rfl, by decide, by decide⟩
    rw [List.cons_append, List.infix_cons_iff] at inside
    rcases inside with start | behind
    · have next := (List.cons_prefix_cons.mp start).2
      exact absurd (List.cons_prefix_cons.mp next).1 other
    · exact infix_behind noDot behind
  · intro inside
    exact inside.trans (List.suffix_append name operand).isInfix

/-- A data directive enters no section; with `.globl` in it, it is skipped. -/
theorem read_directive {line name operand : Text} (known : name ∈ directiveNames)
    (text : trim line = name ++ operand) :
    read line = if ".globl".toList <:+: operand then .skipped
      else .content (stripComment (trim line)) := by
  have starts : ∀ name ∈ directiveNames, 3 ≤ name.length ∧
      name.take 3 ∉ [[], ".se".toList, ".te".toList, ".da".toList, ".ro".toList,
        ".bs".toList] ∧ name.head? ≠ some '#' := by
    decide
  obtain ⟨long, other, hash⟩ := starts name known
  have front : (trim line).take 3 = name.take 3 := by
    rw [text, List.take_append_of_le_length long]
  have differs {s : Text} (begins : s.take 3 ∈ [[], ".se".toList, ".te".toList,
      ".da".toList, ".ro".toList, ".bs".toList]) : trim line ≠ s := by
    rintro rfl
    rw [front] at begins
    exact other begins
  have nonempty : trim line ≠ [] := differs (by decide)
  have noHash : (trim line).head? ≠ some '#' := by
    rw [text, List.head?_append_of_ne_nil]
    · exact hash
    · rintro rfl
      exact absurd long (by decide)
  have noSection : ¬ ".section".toList.isPrefixOf (trim line) := by
    intro begins
    obtain ⟨rest, whole⟩ := List.isPrefixOf_iff_prefix.mp begins
    have start : (".section".toList ++ rest).take 3 = ".se".toList := rfl
    exact differs (by rw [start]; decide) whole.symm
  have noText : trim line ≠ textName := differs (by decide)
  have noData : trim line ≠ dataName := differs (by decide)
  have noRodata : trim line ≠ rodataName := differs (by decide)
  have noBss : trim line ≠ bssName := differs (by decide)
  simp only [SourceLine.read]
  rw [if_neg (not_or.mpr ⟨nonempty, noHash⟩), if_neg noSection, if_neg noText,
    if_neg noData, if_neg noRodata, if_neg noBss]
  simp only [text, globl_behind known]

theorem firstPassRead_entered {l : SourceLine} {name : Text}
    (enters : l.entered = some name) (asm : Assembler) :
    firstPassRead asm l = .done (asm.switchSection name) := by
  cases l <;> cases enters <;> rfl

/-- The second pass on a line that has been sorted. -/
def secondPassRead (asm : Assembler) (st : Pass2) :
    SourceLine → Outcome Stop Pass2
  | .skipped => .done st
  | .legacyText =>
      .done { currentSectionName := textName, pc := 0, out := st.out.seek 0 }
  | .legacyData =>
      .done { currentSectionName := dataName
              pc := asm.pcText
              out := st.out.seek asm.pcText.toNat }
  | .named name => .done (enterSection asm.sections st name)
  | .content s => secondPassContent asm st s

theorem secondPassLine_eq (asm : Assembler) (st : Pass2) (line : Text) :
    secondPassLine asm st line = secondPassRead asm st (read line) := by
  unfold SourceLine.read
  simp only [apply_ite (secondPassRead asm st)]
  rfl

section Sizes

/-- The values the second pass reads in a list, when `next` is the text behind
a value. -/
def valueCount (next : Text → Text) : Nat → Text → Nat
  | _, [] => 0
  | 0, _ :: _ => 0
  | fuel + 1, c :: rest =>
      if c ≠ ' ' ∧ c ≠ '\t' ∧ c ≠ ',' then
        valueCount next fuel (skipSeparators (next (c :: rest))) + 1
      else valueCount next fuel (skipSeparators (c :: rest))

def stringSize (s : Text) : Nat :=
  match strchr '"' s with
  | none => 0
  | some (_, string) =>
      match parseEscapedString string with
      | .ok bytes => bytes.length
      | .error _ => 0

/-- The bytes of a data directive. -/
def directiveSize (s : Text) : Nat :=
  let s := trim s
  let values (next : Text → Text) : Nat :=
    valueCount next (s.drop 5).length (s.drop 5)
  if ".asciiz".toList.isPrefixOf s then stringSize s + 1
  else if ".ascii".toList.isPrefixOf s then stringSize s
  else if ".byte".toList.isPrefixOf s then values fun t => (strtol 0 t).2
  else if ".half".toList.isPrefixOf s then
    values (·.dropWhile isNumeralChar) * 2
  else if ".word".toList.isPrefixOf s then
    values (·.dropWhile isNumeralChar) * 4
  else if ".space".toList.isPrefixOf s then
    ((scanInt (s.drop 6)).map (·.toInt.toNat)).getD 0
  else 0

/-- The words a pseudoinstruction expands to. -/
def Pseudo.words (labels : List Label) (a2 : Text) : Pseudo → Nat
  | .li =>
      match parseImm labels a2 with
      | .ok imm => if fitsImm12 imm then 1 else 2
      | .error _ => 0
  | .la => 2
  | .nop | .mv | .call | .ret | .j => 1

/-- The words of an instruction line. -/
def instructionWords (labels : List Label) (s : Text) : Nat :=
  match readOperands s with
  | .error _ => 0
  | .ok args =>
      match Pseudo.ofText args.op with
      | some op => op.words labels args.a2
      | none => 1

/-- What the second pass processes in the content of a line. -/
def contentItem (s : Text) : Option Text :=
  match strchr ':' s with
  | some (_, afterColon) =>
      let after := skipSpaces afterColon
      if after ≠ [] ∧ after.head? ≠ some '#' then some (trim after) else none
  | none => some s

theorem secondPassContent_eq (asm : Assembler) (st : Pass2) (s : Text) :
    secondPassContent asm st s =
      match contentItem s with
      | some item => secondPassItem asm st item
      | none => .done st := by
  unfold secondPassContent contentItem
  cases strchr ':' s with
  | none => rfl
  | some found =>
      by_cases item : skipSpaces found.2 ≠ [] ∧ (skipSpaces found.2).head? ≠ some '#'
      · simp only [if_pos item]
      · simp only [if_neg item]

def itemSize (labels : List Label) (type : SectionType) (item : Text) : Nat :=
  if item.head? = some '.' then
    if type ≠ .text then directiveSize item else 0
  else if type = .text then instructionWords labels item * 4
  else 0

/-- The bytes of a line that stands in a section. -/
def lineSize (labels : List Label) (name line : Text) : Nat :=
  match read line with
  | .content s =>
      match contentItem s with
      | some item => itemSize labels (getSectionType name) item
      | none => 0
  | _ => 0

end Sizes

section Emission

/-- `st'` is `st` after `size` bytes were written. -/
def Emitted (st : Pass2) (size : Nat) (st' : Pass2) : Prop :=
  ∃ bytes : List Byte, bytes.length = size ∧ st' = st.emit bytes

variable {labels : List Label} {st st' st'' : Pass2}

/-- What is written can be read back. -/
theorem Pass2.emit_inj {bytes bytes' : List Byte} :
    st.emit bytes = st.emit bytes' ↔ bytes = bytes' := by
  constructor
  · intro same
    have writes := congrArg (·.out.writes) same
    simp only [Pass2.emit, OutFile.fwrite, List.append_cancel_left_eq] at writes
    have values := congrArg (List.map Prod.fst) writes
    rwa [List.zipIdx_map_fst, List.zipIdx_map_fst] at values
  · rintro rfl
    rfl

theorem Emitted.refl : Emitted st 0 st :=
  ⟨[], rfl, st.emit_nil.symm⟩

theorem Emitted.trans {m n : Nat} (first : Emitted st m st')
    (second : Emitted st' n st'') : Emitted st (m + n) st'' := by
  obtain ⟨front, length, rfl⟩ := first
  obtain ⟨back, length', rfl⟩ := second
  refine ⟨front ++ back, by simp [length, length'], ?_⟩
  exact (st.emit_append front back).symm

theorem Emitted.bytes (bytes : List Byte) :
    Emitted st bytes.length (st.emit bytes) :=
  ⟨bytes, rfl, rfl⟩

theorem Emitted.writes_eq_iff {n : Nat} (emitted : Emitted st n st') :
    st'.out.writes = st.out.writes ↔ n = 0 := by
  obtain ⟨bytes, rfl, rfl⟩ := emitted
  simp [Pass2.emit, OutFile.fwrite, List.zipIdx_eq_nil_iff, List.length_eq_zero_iff]

theorem Emitted.length {n : Nat} (emitted : Emitted st n st') :
    st'.out.writes.length = st.out.writes.length + n := by
  obtain ⟨bytes, rfl, rfl⟩ := emitted
  simp [Pass2.emit, OutFile.fwrite]

theorem Emitted.size_unique {m n : Nat} (first : Emitted st m st')
    (second : Emitted st n st') : m = n := by
  have length := first.length
  rw [second.length] at length
  omega

theorem emitted_items {item : Text → Except Stop (List Byte × Text)}
    (next : Text → Text) (width : Nat)
    (reads : ∀ s bytes rest, item s = .ok (bytes, rest) →
      bytes.length = width ∧ rest = next s)
    {fuel : Nat} {s : Text}
    (finished : emitItems item fuel st s = .done st') :
    Emitted st (valueCount next fuel s * width) st' := by
  induction fuel generalizing st s with
  | zero =>
      cases s with
      | nil =>
          cases finished
          simpa [valueCount] using Emitted.refl
      | cons c rest => cases finished
  | succ fuel induction =>
      cases s with
      | nil =>
          cases finished
          simpa [valueCount] using Emitted.refl
      | cons c rest =>
          unfold emitItems at finished
          unfold valueCount
          split at finished
          · rename_i value
            rw [if_pos value]
            split at finished
            · rename_i bytes after read
              obtain ⟨length, behind⟩ := reads _ _ _ read
              rw [behind] at finished
              have first : Emitted st bytes.length _ := .bytes bytes
              have both := first.trans (induction finished)
              rw [length, Nat.add_comm] at both
              rwa [Nat.succ_mul]
            · cases finished
          · rename_i separator
            rw [if_neg separator]
            exact induction finished

theorem byteItem_reads (s : Text) (bytes : List Byte) (rest : Text)
    (read : byteItem s = .ok (bytes, rest)) :
    bytes.length = 1 ∧ rest = (strtol 0 s).2 := by
  cases read
  exact ⟨rfl, rfl⟩

theorem halfItem_reads (s : Text) (bytes : List Byte) (rest : Text)
    (read : halfItem labels s = .ok (bytes, rest)) :
    bytes.length = 2 ∧ rest = s.dropWhile isNumeralChar := by
  obtain ⟨val, _, result⟩ := bind_eq_ok.mp read
  cases result
  exact ⟨rfl, rfl⟩

theorem wordItem_reads (s : Text) (bytes : List Byte) (rest : Text)
    (read : wordItem labels s = .ok (bytes, rest)) :
    bytes.length = 4 ∧ rest = s.dropWhile isNumeralChar := by
  obtain ⟨val, _, result⟩ := bind_eq_ok.mp read
  cases result
  exact ⟨Bits.length_leBytes val, rfl⟩

theorem stringSize_eq {s before text : Text} {bytes : List Byte}
    (quoted : strchr '"' s = some (before, text))
    (parsed : parseEscapedString text = .ok bytes) : stringSize s = bytes.length := by
  simp only [stringSize, quoted, parsed]

theorem emitted_dataDirective {s : Text}
    (finished : processDataDirective labels st s = .done st') :
    Emitted st (directiveSize s) st' := by
  unfold processDataDirective at finished
  unfold directiveSize
  simp only at finished ⊢
  split at finished
  · rename_i asciiz
    rw [if_pos asciiz]
    split at finished
    · cases finished
    · rename_i string quoted
      split at finished
      · rename_i bytes parsed
        cases finished
        have first : Emitted st bytes.length _ := .bytes bytes
        rw [stringSize_eq quoted parsed]
        exact first.trans (.bytes [0])
      · cases finished
  rename_i notAsciiz
  rw [if_neg notAsciiz]
  split at finished
  · rename_i ascii
    rw [if_pos ascii]
    split at finished
    · cases finished
    · rename_i string quoted
      split at finished
      · rename_i bytes parsed
        cases finished
        rw [stringSize_eq quoted parsed]
        exact .bytes bytes
      · cases finished
  rename_i notAscii
  rw [if_neg notAscii]
  split at finished
  · rename_i byte
    rw [if_pos byte]
    simpa using emitted_items _ 1 byteItem_reads finished
  rename_i notByte
  rw [if_neg notByte]
  split at finished
  · rename_i half
    rw [if_pos half]
    exact emitted_items _ 2 halfItem_reads finished
  rename_i notHalf
  rw [if_neg notHalf]
  split at finished
  · rename_i word
    rw [if_pos word]
    exact emitted_items _ 4 wordItem_reads finished
  rename_i notWord
  rw [if_neg notWord]
  split at finished
  · rename_i space
    rw [if_pos space]
    split at finished
    · rename_i size scanned
      cases finished
      rw [scanned]
      have zeros : Emitted st (List.replicate size.toInt.toNat (0 : Byte)).length _ :=
        .bytes _
      rwa [List.length_replicate] at zeros
    · rename_i scanned
      cases finished
      rw [scanned]
      exact .refl
  · rename_i notSpace
    rw [if_neg notSpace]
    cases finished
    exact .refl

theorem emitted_emitInstruction {args : Operands}
    (finished : emitInstruction labels st args = .done st') :
    Emitted st 4 st' := by
  unfold emitInstruction at finished
  split at finished
  · rename_i word _
    cases finished
    have emitted : Emitted st (Bits.leBytes word).length _ := .bytes _
    rwa [Bits.length_leBytes] at emitted
  · cases finished

theorem emitted_expanded {expanded : List Text}
    (finished : run (emitExpanded labels) st expanded = .done st') :
    Emitted st (expanded.length * 4) st' := by
  induction expanded generalizing st with
  | nil =>
      cases finished
      simpa using Emitted.refl
  | cons line rest induction =>
      obtain ⟨middle, first, others⟩ := run_cons_eq_done.mp finished
      have firstWord : Emitted st 4 middle := by
        unfold emitExpanded at first
        split at first
        · exact emitted_emitInstruction first
        · cases first
      rw [List.length_cons, Nat.succ_mul, Nat.add_comm]
      exact firstWord.trans (induction others)

theorem length_expansion {op : Pseudo} {a1 a2 : Text} {pc : Word}
    {expanded : List Text}
    (expands : expandPseudoinstruction labels op a1 a2 pc = .ok expanded) :
    expanded.length = op.words labels a2 := by
  cases op with
  | nop | mv | call | ret | j =>
      cases expands
      rfl
  | li =>
      obtain ⟨imm, parsed, result⟩ := bind_eq_ok.mp expands
      unfold Pseudo.words
      rw [parsed]
      simp only
      split at result
      · rename_i small
        cases result
        rw [if_pos small]
        rfl
      · rename_i large
        cases result
        rw [if_neg large]
        rfl
  | la =>
      obtain ⟨targetAddr, _, result⟩ := bind_eq_ok.mp expands
      cases result
      rfl

theorem emitted_instruction {s : Text}
    (finished : processInstructionSecondPass labels st s = .done st') :
    Emitted st (instructionWords labels s * 4) st' := by
  unfold processInstructionSecondPass at finished
  unfold instructionWords
  cases read : readOperands s with
  | error reason =>
      rw [read] at finished
      cases finished
  | ok args =>
      simp only [read] at finished ⊢
      cases pseudo : Pseudo.ofText args.op with
      | some op =>
          simp only [pseudo] at finished ⊢
          cases expands : expandPseudoinstruction labels op args.a1 args.a2 st.pc with
          | ok expanded =>
              rw [expands] at finished
              rw [← length_expansion expands]
              exact emitted_expanded finished
          | error reason =>
              rw [expands] at finished
              cases finished
      | none =>
          simp only [pseudo, Nat.one_mul] at finished ⊢
          exact emitted_emitInstruction finished

theorem instructionWords_pos {s : Text}
    (finished : processInstructionSecondPass labels st s = .done st') :
    0 < instructionWords labels s := by
  unfold processInstructionSecondPass at finished
  unfold instructionWords
  cases read : readOperands s with
  | error reason =>
      rw [read] at finished
      cases finished
  | ok args =>
      simp only [read] at finished ⊢
      cases pseudo : Pseudo.ofText args.op with
      | some op =>
          simp only [pseudo] at finished ⊢
          cases expands : expandPseudoinstruction labels op args.a1 args.a2 st.pc with
          | error reason =>
              rw [expands] at finished
              cases finished
          | ok expanded =>
              cases op with
              | nop | mv | call | ret | j | la => exact Nat.succ_pos _
              | li =>
                  obtain ⟨imm, parsed, _⟩ := bind_eq_ok.mp expands
                  simp only [Pseudo.words, parsed]
                  split <;> decide
      | none => exact Nat.one_pos

variable {asm : Assembler} {sec : SectionInfo}

theorem emitted_item {item : Text}
    (found : asm.sections.find? st.currentSectionName = some sec)
    (finished : secondPassItem asm st item = .done st') :
    Emitted st (itemSize asm.labels sec.type item) st' := by
  unfold secondPassItem at finished
  unfold itemSize
  simp only [found, Option.map_some, Option.getD_some] at finished
  split at finished
  · rename_i directive
    rw [if_pos directive]
    split at finished
    · rename_i data
      rw [if_pos data]
      exact emitted_dataDirective finished
    · rename_i text
      rw [if_neg text]
      cases finished
      exact .refl
  · rename_i instruction
    rw [if_neg instruction]
    split at finished
    · rename_i text
      rw [if_pos text]
      exact emitted_instruction finished
    · rename_i data
      rw [if_neg data]
      cases finished
      exact .refl

/-- A line that enters no section writes the bytes it stands for at the
current position. -/
theorem emitted_line {line : Text}
    (found : asm.sections.find? st.currentSectionName = some sec)
    (typed : sec.type = getSectionType st.currentSectionName)
    (stays : (read line).entered = none)
    (finished : secondPassLine asm st line = .done st') :
    Emitted st (lineSize asm.labels st.currentSectionName line) st' := by
  rw [secondPassLine_eq] at finished
  unfold lineSize
  cases content : read line with
  | skipped =>
      rw [content] at finished
      cases finished
      exact .refl
  | content s =>
      rw [content] at finished
      have processed : secondPassContent asm st s = .done st' := finished
      rw [secondPassContent_eq] at processed
      simp only
      cases item : contentItem s with
      | none =>
          rw [item] at processed
          cases processed
          exact .refl
      | some i =>
          rw [item] at processed
          rw [← typed]
          exact emitted_item found processed
  | legacyText | legacyData | named =>
      rw [content] at stays
      cases stays

end Emission

end RiscvPack.Asm
