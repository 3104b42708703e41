import RiscvPack.Assembler.Pseudo
import RiscvPack.Emulator.Stack

/-!
# Operands of any length

The operand buffers of the second pass hold 31 characters, and nothing checks
that an operand fits.  A canonical line whose operands fit is written as the
words that decode to its instruction, or that have the effect of its
pseudoinstruction; any other line overflows a buffer.
-/

namespace RiscvPack.Asm

open CString Runs Emulator

section Overflow

variable {op run back : Text} {leads : List Token}

/-- The operands in front of one of a line. -/
def leadText (leads : List Token) : Text := leads.flatMap fun t => t.text ++ [',', ' ']

theorem length_leadText_le (few : leads.length ≤ 2) : (leadText leads).length ≤ 66 := by
  match leads with
  | [] => exact Nat.zero_le _
  | [a] =>
      have first : a.text.length < 32 := a.short
      simp [leadText]
      omega
  | [a, b] =>
      have first : a.text.length < 32 := a.short
      have second : b.text.length < 32 := b.short
      simp [leadText]
      omega

theorem length_le_trim (nonempty : run ≠ []) (solid : ∀ c ∈ run, isspace c = false)
    (back : Text) : run.length ≤ (trim (run ++ back)).length := by
  have whole := List.dropLast_append_getLast nonempty
  have last : isspace (run.getLast nonempty) = false := solid _ (List.getLast_mem nonempty)
  have head : skipSpaces run.dropLast = run.dropLast :=
    skipSpaces_of_head fun c first =>
      solid c (List.mem_of_mem_dropLast (List.mem_of_mem_head? first))
  have shape : run ++ back = run.dropLast ++ run.getLast nonempty :: back := by
    nth_rewrite 1 [← whole]
    rw [List.append_assoc, List.singleton_append]
  rw [shape, trim_append_cons last, head]
  simp only [List.length_append, List.length_cons, List.length_dropLast]
  omega

variable (plain : ∀ c ∈ run, tokenChar c) (long : 32 ≤ run.length)

include plain long

theorem length_le_trim_run (back : Text) : 32 ≤ (trim (run ++ back)).length :=
  long.trans (length_le_trim (List.ne_nil_of_length_pos (by omega))
    (fun c member => isspace_of_tokenChar (plain c member)) back)

/-- `parse_instruction_args` has no room for a long operand. -/
theorem parseInstructionArgs_long (noSpace : ' ' ∉ op) (few : leads.length ≤ 2)
    (noComma : ',' ∉ back)
    (whole : (op ++ ' ' :: (leadText leads ++ (run ++ back))).length < maxLine)
    (old args : Operands) :
    parseInstructionArgs (op ++ ' ' :: (leadText leads ++ (run ++ back))) old ≠ .ok args := by
  have overflows := length_le_trim_run plain long back
  have absent : ',' ∉ run ++ back := by
    rw [List.mem_append]
    rintro (inside | behind)
    · exact absurd (plain ',' inside) (by decide)
    · exact noComma behind
  intro parsed
  match leads with
  | [] =>
      have line : leadText [] ++ (run ++ back) = run ++ back := rfl
      rw [line] at parsed whole
      rw [parseInstructionArgs_one _ noSpace (fun member => absent (mem_of_mem_trim member))
        whole] at parsed
      obtain ⟨_, parsed⟩ := storeText_bind_eq_ok.mp parsed
      obtain ⟨short, _⟩ := storeText_bind_eq_ok.mp parsed
      omega
  | [a] =>
      have line : leadText [a] ++ (run ++ back) = a.text ++ ',' :: (' ' :: (run ++ back)) := by
        simp [leadText]
      rw [line] at parsed whole
      rw [parseInstructionArgs_two _ noSpace (a.not_mem (by decide)) (by simpa using absent)
        whole] at parsed
      obtain ⟨_, parsed⟩ := storeText_bind_eq_ok.mp parsed
      obtain ⟨_, parsed⟩ := storeText_bind_eq_ok.mp parsed
      obtain ⟨short, _⟩ := storeText_bind_eq_ok.mp parsed
      rw [Token.trim_space] at short
      omega
  | [a, b] =>
      have line : leadText [a, b] ++ (run ++ back) =
          a.text ++ ',' :: (' ' :: b.text ++ ',' :: (' ' :: (run ++ back))) := by
        simp [leadText]
      rw [line] at parsed whole
      have noOther : ',' ∉ ' ' :: b.text := by
        simp [b.not_mem (c := ',') (by decide)]
      rw [parseInstructionArgs_three _ noSpace (a.not_mem (by decide)) noOther whole] at parsed
      obtain ⟨_, parsed⟩ := storeText_bind_eq_ok.mp parsed
      obtain ⟨_, parsed⟩ := storeText_bind_eq_ok.mp parsed
      obtain ⟨_, parsed⟩ := storeText_bind_eq_ok.mp parsed
      obtain ⟨short, _⟩ := storeText_bind_eq_ok.mp parsed
      rw [Token.trim_space] at short
      omega

/-- Nor has the rewriting of the parentheses behind it. -/
theorem le_length_offsetText (front : Text) : 32 ≤ (offsetText (front ++ run)).length := by
  have accepted : ∀ c ∈ run.reverse, !isspace c && decide (c ≠ ',') := by
    intro c member
    have token := plain c (List.mem_reverse.mp member)
    have other : c ≠ ',' := by
      rintro rfl
      exact absurd token (by decide)
    simp [isspace_of_tokenChar token, other]
  unfold offsetText List.rtakeWhile
  rw [List.reverse_append, List.takeWhile_append_of_pos accepted]
  simp only [List.length_reverse, List.length_append]
  omega

/-- What may follow the operand on a canonical line: nothing, or parentheses
around a register. -/
structure Closing (back : Text) : Prop where
  chars : ∀ c ∈ back, lineChar c ∧ isspace c = false ∧ c ≠ ','
  opens : back = [] ∨ ∃ inside, back = '(' :: inside

omit plain long in
theorem Closing.take {back : Text} (closing : Closing back) (k : Nat) : Closing (back.take k) where
  chars := fun c member => closing.chars c (List.mem_of_mem_take member)
  opens := by
    rcases closing.opens with rfl | ⟨inside, rfl⟩
    · exact .inl List.take_nil
    · cases k with
      | zero => exact .inl rfl
      | succ k => exact .inr ⟨inside.take k, List.take_succ_cons⟩

omit plain long in
theorem lineChar_leadText : ∀ c ∈ leadText leads, lineChar c ∧ c ≠ '(' := by
  intro c member
  obtain ⟨t, _, inside⟩ := List.mem_flatMap.mp member
  rcases List.mem_append.mp inside with token | separator
  · have token := t.plain c token
    refine ⟨by simp [lineChar, token], ?_⟩
    rintro rfl
    exact absurd token (by decide)
  · have marks : ∀ c ∈ [',', ' '], lineChar c ∧ c ≠ '(' := by decide
    exact marks c separator

omit long in
theorem noHash_line (m : Mnemonic) (closing : Closing back) :
    '#' ∉ m.text ++ ' ' :: (leadText leads ++ (run ++ back)) := by
  have noMnemonic : '#' ∉ m.text := m.not_mem (by decide)
  have noLead : '#' ∉ leadText leads := fun member =>
    absurd (lineChar_leadText _ member).1 (by decide)
  have noRun : '#' ∉ run := fun member => absurd (plain _ member) (by decide)
  have noBack : '#' ∉ back := fun member => absurd (closing.chars _ member).1 (by decide)
  simp [noMnemonic, noLead, noRun, noBack]

theorem trimmed_line (m : Mnemonic) (closing : Closing back) :
    Trimmed (m.text ++ ' ' :: (leadText leads ++ (run ++ back))) := by
  constructor
  · intro c first
    obtain ⟨d, rest, text⟩ := List.exists_cons_of_ne_nil m.nonempty
    exact m.trimmed.head c (by simpa [text] using first)
  · intro c last
    have nonempty : run ++ back ≠ [] :=
      List.append_ne_nil_of_left_ne_nil (List.ne_nil_of_length_pos (by omega)) _
    have shape : m.text ++ ' ' :: (leadText leads ++ (run ++ back)) =
        (m.text ++ ' ' :: leadText leads) ++ (run ++ back) := by
      simp
    rw [shape, List.getLast?_append_of_ne_nil _ nonempty] at last
    rcases List.mem_append.mp (List.mem_of_mem_getLast? last) with inside | behind
    · exact isspace_of_tokenChar (plain c inside)
    · exact (closing.chars c behind).2.1

omit long in
/-- The first parenthesis of the line stands right behind the operand. -/
theorem eq_front_of_paren (m : Mnemonic) (closing : Closing back) {before inside : Text}
    (line : m.text ++ ' ' :: (leadText leads ++ (run ++ back)) = before ++ '(' :: inside)
    (noOpen : '(' ∉ before) : before = (m.text ++ ' ' :: leadText leads) ++ run := by
  have absent : '(' ∉ m.text ++ ' ' :: (leadText leads ++ run) := by
    have noMnemonic : '(' ∉ m.text := m.not_mem (by decide)
    have noLead : '(' ∉ leadText leads := fun member => (lineChar_leadText _ member).2 rfl
    have noRun : '(' ∉ run := fun member => absurd (plain _ member) (by decide)
    simp [noMnemonic, noLead, noRun]
  have found := strchr_append noOpen inside
  rw [← line] at found
  rcases closing.opens with rfl | ⟨inside, rfl⟩
  · rw [List.append_nil, strchr_eq_none absent] at found
    cases found
  · have shape : m.text ++ ' ' :: (leadText leads ++ (run ++ '(' :: inside)) =
        (m.text ++ ' ' :: (leadText leads ++ run)) ++ '(' :: inside := by
      simp
    rw [shape, strchr_append absent] at found
    obtain ⟨rfl, _⟩ := Prod.mk.inj (Option.some.inj found)
    simp

theorem readOperands_long_whole (m : Mnemonic) (few : leads.length ≤ 2) (closing : Closing back)
    (whole : (m.text ++ ' ' :: (leadText leads ++ (run ++ back))).length < maxLine)
    (args : Operands) :
    readOperands (m.text ++ ' ' :: (leadText leads ++ (run ++ back))) ≠ .ok args := by
  have noSpace : ' ' ∉ m.text := m.not_mem (by decide)
  have noComma : ',' ∉ back := fun member => (closing.chars _ member).2.2 rfl
  have parsed := parseInstructionArgs_long plain long noSpace few noComma whole Operands.blank
  intro read
  rw [readOperands, List.take_of_length_le (by omega),
    takeWhile_ne_self (noHash_line plain m closing),
    trim_of_trimmed (trimmed_line plain long m closing)] at read
  obtain ⟨processed, rewritten, read⟩ := bind_eq_ok.mp read
  obtain ⟨args, split, _⟩ := bind_eq_ok.mp read
  rcases noParens_or_exists (m.text ++ ' ' :: (leadText leads ++ (run ++ back))) with
    noParens | ⟨before, reg, suffix, line, noOpen, noClose⟩
  · rw [rewriteParens_none noParens, Except.ok.injEq] at rewritten
    rw [← rewritten] at split
    exact parsed args split
  · have front := eq_front_of_paren plain m closing line noOpen
    rw [line, rewriteParens_parens noOpen noClose] at rewritten
    obtain ⟨short, _⟩ := storeText_bind_eq_ok.mp rewritten
    have room := le_length_offsetText plain long (m.text ++ ' ' :: leadText leads)
    rw [front] at short
    omega

/-- No line with a long operand is read, wherever `strncpy` cuts it off. -/
theorem readOperands_long (m : Mnemonic) (leads : List Token) (few : leads.length ≤ 2)
    (closing : Closing back) (args : Operands) :
    readOperands (m.text ++ ' ' :: (leadText leads ++ (run ++ back))) ≠ .ok args := by
  have op := m.fits
  have lead := length_leadText_le few
  let room := maxLine - 1 - (m.text.length + 1 + (leadText leads).length)
  have wide : 32 ≤ room := by
    show 32 ≤ maxLine - 1 - _
    unfold maxLine
    omega
  have cut : (m.text ++ ' ' :: (leadText leads ++ (run ++ back))).take (maxLine - 1) =
      m.text ++ ' ' :: (leadText leads ++ (run.take room ++ back.take (room - run.length))) := by
    have shape (t : Text) : m.text ++ ' ' :: (leadText leads ++ t) =
        (m.text ++ ' ' :: leadText leads) ++ t := by
      simp
    have front : (m.text ++ ' ' :: leadText leads).length =
        m.text.length + 1 + (leadText leads).length := by
      simp
      omega
    have kept : (m.text ++ ' ' :: leadText leads).take (maxLine - 1) =
        m.text ++ ' ' :: leadText leads :=
      List.take_of_length_le (by rw [front, maxLine]; omega)
    rw [shape, shape, List.take_append, kept, front, List.take_append]
  have again : readOperands (m.text ++ ' ' :: (leadText leads ++ (run ++ back))) =
      readOperands ((m.text ++ ' ' :: (leadText leads ++ (run ++ back))).take (maxLine - 1)) := by
    unfold readOperands
    rw [List.take_take, min_self]
  have short : ((m.text ++ ' ' :: (leadText leads ++ (run ++ back))).take
      (maxLine - 1)).length < maxLine := by
    rw [List.length_take, maxLine]
    omega
  rw [cut] at short
  rw [again, cut]
  apply readOperands_long_whole _ _ m few (closing.take _) short
  · exact fun c member => plain c (List.mem_of_mem_take member)
  · rw [List.length_take]
    omega

end Overflow

section Forms

variable {fits : Text → Prop} {m : Mnemonic} {args : Operands} {a b c : Token fits}

/-- An operand that fits its buffer. -/
def Token.narrow (t : Token fits) (short : Short t.text) : Token where
  text := t.text
  nonempty := t.nonempty
  plain := t.plain
  short := short

theorem Closing.nil : Closing [] := ⟨fun _ => List.not_mem_nil.elim, .inl rfl⟩

theorem Closing.base : Closing ('(' :: (b.text ++ [')'])) where
  chars := by
    intro x member
    rcases List.mem_cons.mp member with rfl | member
    · decide
    rcases List.mem_append.mp member with inside | behind
    · have token := b.plain x inside
      refine ⟨by simp [lineChar, token], isspace_of_tokenChar token, ?_⟩
      rintro rfl
      exact b.not_mem (by decide) inside
    · obtain rfl := List.mem_singleton.mp behind
      decide
  opens := .inr ⟨_, rfl⟩

namespace Form

theorem short_of_read_one (read : readOperands ((one a).text m.text) = .ok args) :
    Short a.text := by
  by_contra long
  have shape : (one a).text m.text = m.text ++ ' ' :: (leadText [] ++ (a.text ++ [])) := by
    simp [Form.text, leadText]
  rw [shape] at read
  exact readOperands_long a.plain (not_lt.mp long) m [] (Nat.zero_le 2) .nil args read

theorem short_of_read_two (first : Short a.text)
    (read : readOperands ((two a b).text m.text) = .ok args) : Short b.text := by
  by_contra long
  have shape : (two a b).text m.text =
      m.text ++ ' ' :: (leadText [a.narrow first] ++ (b.text ++ [])) := by
    simp [Form.text, leadText, Token.narrow]
  rw [shape] at read
  exact readOperands_long b.plain (not_lt.mp long) m [_] (Nat.le_succ 1) .nil args read

theorem short_of_read_three (first : Short a.text) (second : Short b.text)
    (read : readOperands ((three a b c).text m.text) = .ok args) : Short c.text := by
  by_contra long
  have shape : (three a b c).text m.text = m.text ++
      ' ' :: (leadText [a.narrow first, b.narrow second] ++ (c.text ++ [])) := by
    simp [Form.text, leadText, Token.narrow]
  rw [shape] at read
  exact readOperands_long c.plain (not_lt.mp long) m [_, _] (le_refl 2) .nil args read

theorem short_of_read_memory (first : Short a.text)
    (read : readOperands ((memory a b c).text m.text) = .ok args) : Short b.text := by
  by_contra long
  have shape : (memory a b c).text m.text = m.text ++
      ' ' :: (leadText [a.narrow first] ++ (b.text ++ '(' :: (c.text ++ [')']))) := by
    simp [Form.text, leadText, Token.narrow]
  rw [shape] at read
  exact readOperands_long b.plain (not_lt.mp long) m [_] (Nat.le_succ 1) .base args read

end Form

variable [Roomy fits]

theorem SourceInstr.fits_of_read {src : SourceInstr fits}
    (read : readOperands src.text = .ok args) : src.form.Fits := by
  cases src with
  | reg op rd rs1 rs2 => exact Form.fits_three.mpr ⟨rd.short, rs1.short, rs2.short⟩
  | imm op rd rs1 value | shift op rd rs1 value | jalr rd rs1 value =>
      exact Form.fits_three.mpr
        ⟨rd.short, rs1.short, Form.short_of_read_three rd.short rs1.short read⟩
  | load op rd offset rs1 | store op rd offset rs1 =>
      exact Form.fits_memory.mpr
        ⟨rd.short, Form.short_of_read_memory rd.short read, rs1.short⟩
  | branch op rs1 rs2 target =>
      exact Form.fits_three.mpr
        ⟨rs1.short, rs2.short, Form.short_of_read_three rs1.short rs2.short read⟩
  | jal rd target => exact Form.fits_two.mpr ⟨rd.short, Form.short_of_read_two rd.short read⟩
  | lui rd value | auipc rd value =>
      exact Form.fits_two.mpr ⟨rd.short, Form.short_of_read_two rd.short read⟩
  | ecall | ebreak => exact List.forall_mem_nil _

theorem PseudoInstr.fits_of_read {src : PseudoInstr fits}
    (read : readOperands src.text = .ok args) : src.form.Fits := by
  cases src with
  | nop | ret => exact List.forall_mem_nil _
  | mv rd rs => exact Form.fits_two.mpr ⟨rd.short, rs.short⟩
  | li rd value => exact Form.fits_two.mpr ⟨rd.short, Form.short_of_read_two rd.short read⟩
  | la rd name => exact Form.fits_two.mpr ⟨rd.short, Form.short_of_read_two rd.short read⟩
  | call target | j target => exact Form.fits_one.mpr (Form.short_of_read_one read)

end Forms

section Lines

variable {labels : List Label} {st st' : Pass2} {s : Text}

theorem read_of_done (finished : processInstructionSecondPass labels st s = .done st') :
    ∃ args, readOperands s = .ok args := by
  unfold processInstructionSecondPass at finished
  split at finished
  · cases finished
  · exact ⟨_, ‹_›⟩

/-- The line of an instruction is written as one word, in the order of the
machine, and the emulator decodes the word as the instruction. -/
def SourceInstr.Assembles (labels : List Label) (st : Pass2) (src : SourceInstr AnyLength)
    (i : Isa.Instr) : Prop :=
  ∃ (w : Word) (st' : Pass2) (d : Instruction),
    processInstructionSecondPass labels st src.text = .done st' ∧
      st.Wrote (Bits.leBytes w) st' ∧ Instruction.decode w = some d ∧ Carries d i

/-- The canonical text of an instruction is assembled and decoded back exactly
when its operands fit. -/
theorem decode_assembled_iff_fits (labels : List Label) (st : Pass2)
    (src : SourceInstr AnyLength) (i : Isa.Instr) (means : src.meaning labels st.pc = some i) :
    src.Assembles labels st i ↔ src.form.Fits := by
  constructor
  · rintro ⟨w, st', d, processed, _⟩
    obtain ⟨args, read⟩ := read_of_done processed
    exact src.fits_of_read read
  · intro short
    obtain ⟨w, processed, decodes⟩ := processInstruction_of_meaning short means
    obtain ⟨d, decoded, carries⟩ := carries_of_decodes decodes
    exact ⟨w, _, d, processed, st.wrote_emit _, decoded, carries⟩

/-- `lw a0, 8(sp)` behind four bytes of other code. -/
theorem decode_assembled_iff_fits_load :
    let src : SourceInstr AnyLength :=
      .load .lw ⟨_, 10, .abi 10⟩ (.ofInt 8 (by decide) (by decide)) ⟨_, 2, .abi 2⟩
    src.text = "lw a0, 8(sp)".toList ∧
      src.Assembles [] (Pass2.init.emit [0x73, 0, 0, 0]) (.load .lw 10 2 8) := by
  intro src
  have fits : src.form.Fits := by decide
  exact ⟨by decide, (decode_assembled_iff_fits [] _ src _ (by decide)).mpr fits⟩

/-- A jump to a name of 32 characters, eight bytes ahead. -/
def longJump : SourceInstr AnyLength :=
  .jal ⟨_, 1, .abi 1⟩
    (.label ⟨'s', "kip_over_all_the_remaining_item".toList, by decide, by decide, trivial⟩)

def longLabel : Label where
  name := "skip_over_all_the_remaining_item".toList
  addr := 8
  sectionName := textName

theorem not_assembles_longJump :
    longJump.text = "jal ra, skip_over_all_the_remaining_item".toList ∧
      longJump.meaning [longLabel] Pass2.init.pc = some (.jal 1 8) ∧
      processInstructionSecondPass [longLabel] Pass2.init longJump.text =
        .stopped .overflow Pass2.init ∧
      ¬ longJump.Assembles [longLabel] Pass2.init (.jal 1 8) := by
  have outcome : processInstructionSecondPass [longLabel] Pass2.init longJump.text =
      .stopped .overflow Pass2.init := by
    decide +kernel
  refine ⟨by decide, by decide, outcome, ?_⟩
  rintro ⟨w, st', d, processed, _⟩
  rw [outcome] at processed
  cases processed

namespace PseudoInstr

variable {σ : Type}

/-- The line of a pseudoinstruction is written as its words, and these have the
documented effect, and no other, when the image is loaded at `base`. -/
def Performs (h : Host σ) (labels : List Label) (st : Pass2) (base : Word)
    (src : PseudoInstr AnyLength) : Prop :=
  ∃ (words : List Word) (st' : Pass2),
    words.length = src.size ∧ (src.size = 1 ∨ src.size = 2) ∧
      processInstructionSecondPass labels st src.text = .done st' ∧
      st.Wrote (words.flatMap Bits.leBytes) st' ∧
      ∀ m : Machine σ, m.cpu.running = true → m.cpu.pc = base + st.pc →
        m.cpu.pc.toNat + 4 * src.size ≤ m.mem.size.toNat →
        Machine.Loaded m.mem.data m.cpu.pc (words.flatMap Bits.leBytes) →
        ∃ s m', src.effect labels base m.arch = some s ∧
          Machine.Steps h src.size m m' ∧ m.Reaches s m'

theorem size_eq_one_or_two (src : PseudoInstr AnyLength) : src.size = 1 ∨ src.size = 2 := by
  cases src with
  | li rd value =>
      simp only [size]
      split
      · exact Or.inl rfl
      · exact Or.inr rfl
  | la => exact Or.inr rfl
  | nop | mv | call | j | ret => exact Or.inl rfl

/-- A pseudoinstruction with valid operands has its documented effect exactly
when its operands fit. -/
theorem performs_iff_fits (h : Host σ) (labels : List Label) (st : Pass2) (base : Word)
    (src : PseudoInstr AnyLength) (valid : src.Valid labels st.pc)
    (baseAligned : base.toNat % 4 = 0) (pcAligned : st.pc.toNat % 4 = 0) :
    src.Performs h labels st base ↔ src.form.Fits := by
  constructor
  · rintro ⟨words, st', _, _, processed, _⟩
    obtain ⟨args, read⟩ := read_of_done processed
    exact src.fits_of_read read
  · intro short
    obtain ⟨words, count, processed, runs⟩ := words_of_valid short valid
    refine ⟨words, _, count, src.size_eq_one_or_two, processed, st.wrote_emit _, ?_⟩
    intro m running at_ inside loaded
    have aligned : m.cpu.pc.toNat % 4 = 0 := by
      rw [at_, BitVec.toNat_add]
      omega
    exact runs σ h m base at_ ⟨running, aligned, inside⟩ loaded

/-- `li a0, 123456`, which needs both parts, loaded at address 16 and run. -/
theorem performs_iff_fits_li :
    let src : PseudoInstr AnyLength :=
      .li ⟨_, 10, .abi 10⟩ (.ofInt 123456 (by decide) (by decide))
    src.text = "li a0, 123456".toList ∧ src.Performs Host.inert [] Pass2.init 16 ∧
      ∃ (words : List Word) (st' : Pass2) (m m' : Machine Unit),
        processInstructionSecondPass [] Pass2.init src.text = .done st' ∧
          st'.out.writes = (words.flatMap Bits.leBytes).zipIdx ∧
          boot () (words.flatMap Bits.leBytes) 16 = some m ∧
          Machine.Steps Host.inert 2 m m' ∧ m'.cpu.regRead 10 = 123456 := by
  intro src
  have fits : src.form.Fits := by decide
  have performs := (performs_iff_fits Host.inert [] Pass2.init 16 src ⟨by decide, by decide⟩
    (by decide) (by decide)).mpr fits
  refine ⟨by decide, performs, ?_⟩
  obtain ⟨words, st', count, _, processed, wrote, runs⟩ := performs
  have two : words.length = 2 := count
  have length : (words.flatMap Bits.leBytes).length = 8 := by
    rw [Bits.length_flatMap_leBytes, two]
  obtain ⟨m, booted⟩ : ∃ m, boot () (words.flatMap Bits.leBytes) 16 = some m := by
    simp only [boot]
    rw [if_neg (by rw [length]; decide)]
    exact ⟨_, rfl⟩
  obtain ⟨loaded, cpu, size, _⟩ := Machine.loaded_of_boot booted
  obtain ⟨s, m', effected, steps, reaches⟩ := runs m (by rw [cpu]; rfl) (by rw [cpu]; rfl)
    (by rw [cpu, size]; decide) loaded
  refine ⟨words, st', m, m', processed, wrote.writes, booted, steps, ?_⟩
  cases effected
  exact congrArg (fun s => s.x.get 10) reaches.arch

/-- A jump to a name of 32 characters. -/
def longTarget : PseudoInstr AnyLength :=
  .j (.label ⟨'s', "kip_over_all_the_remaining_item".toList, by decide, by decide, trivial⟩)

theorem not_performs_longTarget :
    longTarget.text = "j skip_over_all_the_remaining_item".toList ∧
      longTarget.Valid [longLabel] Pass2.init.pc ∧
      processInstructionSecondPass [longLabel] Pass2.init longTarget.text =
        .stopped .overflow Pass2.init ∧
      ¬ longTarget.Performs Host.inert [longLabel] Pass2.init 0 := by
  have outcome : processInstructionSecondPass [longLabel] Pass2.init longTarget.text =
      .stopped .overflow Pass2.init := by
    decide +kernel
  refine ⟨by decide, ⟨8, by decide, by decide⟩, outcome, ?_⟩
  rintro ⟨words, st', _, _, processed, _⟩
  rw [outcome] at processed
  cases processed

end PseudoInstr

end Lines

end RiscvPack.Asm
