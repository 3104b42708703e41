import RiscvPack.Assembler.LineSizes
import RiscvPack.Assembler.Dispatch

/-!
# Pseudoinstructions in the two passes

The first pass chooses the size of `li` from the spelling of its operand, the
second one from its value.  Every other pseudoinstruction has one size.  A
label at a small address and a missing operand are counted as two words and
expanded to one.
-/

namespace RiscvPack.Asm

open CString Runs Files

/-- The operand denotes a value of twelve bits. -/
def SmallOperand (labels : List Label) (operand : Text) : Prop :=
  ∃ imm, parseImm labels operand = .ok imm ∧ fitsImm12 imm

/-- Spelled like a numeral, the operand of `li` is small in both passes or in
neither; spelled otherwise, it is not small in the end. -/
def LoadAgrees (early final : List Label) (i : Text) : Prop :=
  ∀ args, readOperands i = .ok args →
    if ∃ c ∈ (parseSimpleArgs i).a2.head?, c.isDigit ∨ c = '-' then
      SmallOperand early (parseSimpleArgs i).a2 ↔ SmallOperand final args.a2
    else ¬ SmallOperand final args.a2

variable {asm asm' : Assembler} {early labels : List Label} {st st' : Pass2} {i : Text}

theorem smallOperand_iff {operand : Text} {imm : Word}
    (parsed : parseImm labels operand = .ok imm) :
    SmallOperand labels operand ↔ fitsImm12 imm := by
  constructor
  · rintro ⟨imm', parsed', small⟩
    rw [parsed] at parsed'
    cases parsed'
    exact small
  · intro small
    exact ⟨imm, parsed, small⟩

theorem words_eq_iff {op : Pseudo} {operand : Text} {args : Operands} {size : Nat}
    (sized : pseudoinstructionSize early args.op operand = .ok size)
    (pseudo : Pseudo.ofText args.op = some op)
    (value : op = .li → ∃ imm, parseImm labels args.a2 = .ok imm) :
    size = op.words labels args.a2 ↔ (op = .li →
      if ∃ c ∈ operand.head?, c.isDigit ∨ c = '-' then
        SmallOperand early operand ↔ SmallOperand labels args.a2
      else ¬ SmallOperand labels args.a2) := by
  unfold pseudoinstructionSize at sized
  rw [pseudo] at sized
  cases op with
  | nop | mv | la | call | ret | j =>
      cases sized
      exact iff_of_true rfl (fun other => by cases other)
  | li =>
      obtain ⟨imm, parsed⟩ := value rfl
      rw [forall_prop_of_true rfl, Pseudo.words, parsed, smallOperand_iff parsed]
      simp only at sized ⊢
      by_cases spelled : ∃ c ∈ operand.head?, c.isDigit ∨ c = '-'
      · have nonempty : operand ≠ [] := by
          rintro rfl
          obtain ⟨c, first, _⟩ := spelled
          cases first
        rw [if_pos ⟨nonempty, spelled⟩] at sized
        obtain ⟨imm', parsed', result⟩ := bind_eq_ok.mp sized
        rw [if_pos spelled, smallOperand_iff parsed']
        by_cases small' : fitsImm12 imm'
        · rw [if_pos small'] at result
          cases result
          simp [small']
        · rw [if_neg small'] at result
          cases result
          simp [small']
      · rw [if_neg fun all => spelled all.2] at sized
        cases sized
        rw [if_neg spelled]
        simp

theorem pseudoinstructionSize_pos {op : Pseudo} {text operand : Text} {size : Nat}
    (pseudo : Pseudo.ofText text = some op)
    (sized : pseudoinstructionSize early text operand = .ok size) : 0 < size := by
  unfold pseudoinstructionSize at sized
  rw [pseudo] at sized
  cases op with
  | nop | mv | la | call | ret | j =>
      cases sized
      decide
  | li =>
      simp only at sized
      split at sized
      · obtain ⟨imm, _, result⟩ := bind_eq_ok.mp sized
        split at result
        · cases result
          decide
        · cases result
          decide
      · cases sized
        decide

theorem words_le (labels : List Label) (operand : Text) (op : Pseudo) :
    op.words labels operand ≤ 2 := by
  cases op with
  | nop | mv | la | call | ret | j => simp [Pseudo.words]
  | li =>
      simp only [Pseudo.words]
      split
      · split
        · exact Nat.le_succ 1
        · exact le_rfl
      · exact Nat.zero_le 2

/-- What the first pass reserves for the line of a pseudoinstruction is what the
second pass emits for it, exactly when it is no `li` or its operand agrees. -/
theorem pseudo_sizes_agree_iff {op : Pseudo} (stripped : Stripped i)
    (mnemonic : Pseudo.ofText (i.takeWhile (!isspace ·)) = some op)
    (reserved : processInstructionFirstPass asm i = .ok asm')
    (emitted : processInstructionSecondPass labels st i = .done st') :
    (∃ words, Emitted st (words * 4) st' ∧ asm'.getCurrentSection.offset =
        asm.getCurrentSection.offset + BitVec.ofNat 32 (words * 4)) ↔
      (op = .li → LoadAgrees asm.labels labels i) := by
  obtain ⟨args, read, known⟩ := known_of_done emitted
  obtain ⟨word, short⟩ := op_of_readOperands stripped read (plain_of_known known)
  have sameOp : (parseSimpleArgs i).op = args.op := by
    rw [op_of_parseSimpleArgs stripped (word ▸ short), word]
  have pseudo : Pseudo.ofText args.op = some op := by
    rw [word, mnemonic]
  obtain ⟨size, sized, result⟩ := bind_eq_ok.mp reserved
  rw [sameOp] at sized
  cases result
  have value : op = .li → ∃ imm, parseImm labels args.a2 = .ok imm := by
    rintro rfl
    unfold processInstructionSecondPass at emitted
    simp only [read, pseudo] at emitted
    split at emitted
    · rename_i expanded expands
      obtain ⟨imm, parsed, _⟩ := bind_eq_ok.mp expands
      exact ⟨imm, parsed⟩
    · cases emitted
  have agrees : (op = .li → LoadAgrees asm.labels labels i) ↔
      size = op.words labels args.a2 := by
    rw [words_eq_iff sized pseudo value]
    apply forall_congr'
    intro _
    constructor
    · intro all
      exact all args read
    · intro one args' read'
      rw [read] at read'
      cases read'
      exact one
  have written := emitted_instruction emitted
  have counted : instructionWords labels i = op.words labels args.a2 := by
    simp only [instructionWords, read, pseudo]
  rw [counted] at written
  rw [agrees, getCurrentSection_growText,
    if_pos (pseudoinstructionSize_pos pseudo sized)]
  have smallSize := pseudoinstructionSize_le sized
  have smallWords := words_le labels args.a2 op
  constructor
  · rintro ⟨words, emitted', same⟩
    have unique := Emitted.size_unique written emitted'
    rw [← unique, BitVec.add_right_inj, ofNat_inj_of_lt (by omega) (by omega)] at same
    omega
  · intro same
    exact ⟨op.words labels args.a2, written, by rw [same]⟩

/-- A label whose address takes more than twelve bits. -/
theorem pseudo_sizes_agree_iff_label :
    let labels : List Label := [{ name := ['x'], addr := 0x1234, sectionName := textName }]
    let i : Text := "li a0, x".toList
    let asm' := growText Assembler.init 8
    let st' := Pass2.init.emit [0x37, 0x15, 0, 0, 0x13, 0x05, 0x45, 0x23]
    (∃ words, Emitted Pass2.init (words * 4) st' ∧ asm'.getCurrentSection.offset =
        Assembler.init.getCurrentSection.offset + BitVec.ofNat 32 (words * 4)) ↔
      (Pseudo.li = .li → LoadAgrees Assembler.init.labels labels i) := by
  intro labels i asm' st'
  have reserved : processInstructionFirstPass Assembler.init i = .ok asm' := by
    decide +kernel
  have emitted : processInstructionSecondPass labels Pass2.init i = .done st' := by
    decide +kernel
  exact pseudo_sizes_agree_iff ⟨⟨by decide, by decide⟩, by decide, by decide⟩
    (by decide) reserved emitted

/-- A label at address zero: two words are reserved, one is emitted. -/
theorem not_pseudo_sizes_agree_zero :
    let source : Text := "x: li a0, x\n".toList
    let asm := (firstPass Assembler.init source).last
    let labels := (adjustLabels asm asm.pcText).labels
    let i : Text := "li a0, x".toList
    let asm' := growText Assembler.init 8
    let st' := Pass2.init.emit [0x13, 0x05, 0, 0]
    firstPass Assembler.init source = .done asm ∧
      processInstructionFirstPass Assembler.init i = .ok asm' ∧
      processInstructionSecondPass labels Pass2.init i = .done st' ∧
      ¬ ∃ words, Emitted Pass2.init (words * 4) st' ∧ asm'.getCurrentSection.offset =
        Assembler.init.getCurrentSection.offset + BitVec.ofNat 32 (words * 4) := by
  intro source asm labels i asm' st'
  refine ⟨by decide +kernel, by decide +kernel, by decide +kernel, ?_⟩
  rintro ⟨words, emitted, same⟩
  have one : 4 = words * 4 := Emitted.size_unique (Emitted.bytes [0x13, 0x05, 0, 0]) emitted
  rw [← one] at same
  revert same
  decide

end RiscvPack.Asm
