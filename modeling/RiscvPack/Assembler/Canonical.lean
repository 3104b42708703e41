import RiscvPack.Assembler.Operands

/-!
# Canonical source syntax

The operands and instructions of well-formed source lines, as data: register
names, numerals, identifiers, and one constructor for each operand shape.
`text` writes an instruction the way the manual does, and `meaning` says which
machine instruction it denotes at an address, when its immediate fits.
-/

namespace RiscvPack.Asm

open CString

section OperandSyntax

/-- The ABI name of each register, in the order of their numbers. -/
def abiRegisterNames : List Text :=
  ["zero", "ra", "sp", "gp", "tp", "t0", "t1", "t2", "s0", "s1", "a0", "a1", "a2",
    "a3", "a4", "a5", "a6", "a7", "s2", "s3", "s4", "s5", "s6", "s7", "s8", "s9",
    "s10", "s11", "t3", "t4", "t5", "t6"].map String.toList

/-- The texts that name a register: `xN`, its ABI name, and `fp`. -/
inductive NamesRegister : Text → Reg → Prop where
  | numbered (n : Reg) : NamesRegister ('x' :: Nat.toDigits 10 n.toNat) n
  | abi (n : Reg) : NamesRegister (abiRegisterNames.getD n.toNat []) n
  | framePointer : NamesRegister "fp".toList 8

/-- A register operand. -/
structure RegName where
  text : Text
  number : Reg
  names : NamesRegister text number

section Bound

variable {fits : Text → Prop}

/-- A numeral operand; unless said otherwise, one that the second pass can
hold. -/
structure Number (fits : Text → Prop := Short) where
  text : Text
  value : Int
  numeral : Numeral text value
  short : fits text

/-- The numeral that `%d` prints. -/
def Number.ofInt [Roomy fits] (n : Int) (lower : -2 ^ 31 ≤ n) (upper : n < 2 ^ 32) :
    Number fits where
  text := printInt n
  value := n
  numeral := numeral_printInt n
  short := Roomy.of_short ((length_printInt lower upper).trans_lt (by decide))

/-- The numeral for a word read as a signed integer. -/
def Number.ofWord [Roomy fits] (value : Word) : Number fits :=
  .ofInt value.toInt (BitVec.le_toInt value)
    (lt_trans (BitVec.toInt_lt (x := value)) (by decide))

def identStart (c : Char) : Bool :=
  (10 ≤ digitValue c && digitValue c < 36) || c == '_'

def identChar (c : Char) : Bool := digitValue c < 36 || c == '_'

/-- The name of a label. -/
structure Identifier (fits : Text → Prop := Short) where
  first : Char
  rest : Text
  letter : identStart first
  chars : ∀ c ∈ rest, identChar c
  short : fits (first :: rest)
  deriving DecidableEq

def Identifier.text (name : Identifier fits) : Text := name.first :: name.rest

/-- The target of a jump or branch. -/
inductive Target (fits : Text → Prop := Short) where
  | label (name : Identifier fits)
  | number (n : Number fits)

def Target.text : Target fits → Text
  | .label name => name.text
  | .number n => n.text

/-- The integers a word can hold, read as signed or as unsigned. -/
def FitsWord (n : Int) : Prop := -2 ^ 31 ≤ n ∧ n < 2 ^ 32

instance (n : Int) : Decidable (FitsWord n) := inferInstanceAs (Decidable (_ ∧ _))

/-- The address a target denotes. -/
def Target.address (labels : List Label) : Target fits → Option Word
  | .label name => (labels.find? (·.name = name.text)).map (·.addr)
  | .number n =>
      if FitsWord n.value then some (BitVec.ofInt 32 n.value) else none

end Bound

end OperandSyntax

section OperandTokens

variable {fits : Text → Prop}

theorem regNum_of_names {text : Text} {n : Reg} (names : NamesRegister text n) :
    regNum text = n.toNat := by
  cases names with
  | numbered =>
      revert n
      decide
  | abi =>
      revert n
      decide
  | framePointer => decide

theorem token_of_names {text : Text} {n : Reg} (names : NamesRegister text n) :
    text ≠ [] ∧ text.all tokenChar ∧ text.length < 32 := by
  cases names with
  | numbered =>
      revert n
      decide
  | abi =>
      revert n
      decide
  | framePointer => decide

theorem RegName.short (r : RegName) : Short r.text := (token_of_names r.names).2.2

def RegName.token [Roomy fits] (r : RegName) : Token fits where
  text := r.text
  nonempty := (token_of_names r.names).1
  plain := List.all_eq_true.mp (token_of_names r.names).2.1
  short := Roomy.of_short r.short

theorem regField_text (r : RegName) : regField r.text = r.number.setWidth 32 := by
  rw [regField, regNum_of_names r.names, BitVec.ofInt_natCast]
  exact BitVec.ofNat_toNat ..

theorem token_of_numeral {text : Text} {n : Int} (numeral : Numeral text n) :
    text ≠ [] ∧ ∀ c ∈ text, tokenChar c := by
  have minus : tokenChar '-' := rfl
  have zero : tokenChar '0' := rfl
  have mark {x : Char} (isMark : x = 'x' ∨ x = 'X') : tokenChar x := by
    rcases isMark with rfl | rfl <;> rfl
  have digits {base : Nat} (small : base ≤ 36) {digits : Text}
      (valid : ∀ c ∈ digits, digitValue c < base) :
      ∀ c ∈ digits, tokenChar c := by
    intro c member
    have below : digitValue c < 36 := (valid c member).trans_le small
    simp [tokenChar, below]
  cases numeral with
  | decimal nonempty valid => exact ⟨nonempty, digits (by decide) valid⟩
  | negative nonempty valid =>
      refine ⟨List.cons_ne_nil _ _, ?_⟩
      rw [List.forall_mem_cons]
      exact ⟨minus, digits (by decide) valid⟩
  | hex isMark nonempty valid =>
      refine ⟨List.cons_ne_nil _ _, ?_⟩
      rw [List.forall_mem_cons, List.forall_mem_cons]
      exact ⟨zero, mark isMark, digits (by decide) valid⟩
  | negativeHex isMark nonempty valid =>
      refine ⟨List.cons_ne_nil _ _, ?_⟩
      rw [List.forall_mem_cons, List.forall_mem_cons, List.forall_mem_cons]
      exact ⟨minus, zero, mark isMark, digits (by decide) valid⟩

def Number.token (n : Number fits) : Token fits where
  text := n.text
  nonempty := (token_of_numeral n.numeral).1
  plain := (token_of_numeral n.numeral).2
  short := n.short

theorem identChar_of_identStart {c : Char} (letter : identStart c) :
    identChar c := by
  simp only [identStart, identChar, Bool.or_eq_true, Bool.and_eq_true,
    decide_eq_true_eq] at letter ⊢
  exact letter.imp_left And.right

theorem Identifier.identChar_of_mem (name : Identifier fits) :
    ∀ c ∈ name.text, identChar c := by
  rw [Identifier.text, List.forall_mem_cons]
  exact ⟨identChar_of_identStart name.letter, name.chars⟩

theorem tokenChar_of_identChar {c : Char} (valid : identChar c) : tokenChar c := by
  simp only [identChar, tokenChar, Bool.or_eq_true, decide_eq_true_eq] at valid ⊢
  tauto

theorem Identifier.tokenChar_of_mem (name : Identifier fits) : ∀ c ∈ name.text, tokenChar c :=
  fun c member => tokenChar_of_identChar (name.identChar_of_mem c member)

theorem Identifier.length_text_lt (name : Identifier) : name.text.length < 32 := name.short

def Identifier.token (name : Identifier fits) : Token fits where
  text := name.text
  nonempty := List.cons_ne_nil _ _
  plain := name.tokenChar_of_mem
  short := name.short

def Target.token : Target fits → Token fits
  | .label name => name.token
  | .number n => n.token

theorem Target.token_text (t : Target fits) : t.token.text = t.text := by
  cases t <;> rfl

end OperandTokens

section Immediates

variable {fits : Text → Prop} (labels : List Label)

/-- The characters around a decimal numeral do not look like `0x`. -/
private theorem second_of_digits {digits rest : Text}
    (valid : ∀ c ∈ digits, digitValue c < 10) (stops : Stops rest)
    (nonempty : digits ≠ []) :
    ∀ x ∈ (digits ++ rest).tail.head?, ¬ (x = 'x' ∨ x = 'X') := by
  obtain ⟨c, others, rfl⟩ := List.exists_cons_of_ne_nil nonempty
  intro x second mark
  have value : digitValue x = 33 := by
    rcases mark with rfl | rfl <;> rfl
  cases others with
  | nil =>
      have ends := stops x second
      omega
  | cons d others =>
      cases second
      have digit := valid x (by simp)
      omega

theorem startsHex_of_second {s : Text}
    (second : ∀ x ∈ s.tail.head?, ¬ (x = 'x' ∨ x = 'X'))
    (noMinus : s.head? ≠ some '-') :
    startsHex s = false ∧ startsHex ('-' :: s) = false := by
  match s with
  | [] => exact ⟨rfl, rfl⟩
  | [c] =>
      constructor
      · unfold startsHex
        split <;> simp_all
      · unfold startsHex
        split <;> simp_all
  | c :: d :: s =>
      have notMark := second d rfl
      constructor
      · unfold startsHex
        split <;> simp_all
      · unfold startsHex
        split <;> simp_all

theorem startsDecimal_of_digits {digits : Text} (nonempty : digits ≠ [])
    (valid : ∀ c ∈ digits, digitValue c < 10) (rest : Text) :
    startsDecimal (digits ++ rest) ∧ startsDecimal ('-' :: (digits ++ rest)) ∧
      (digits ++ rest).head? ≠ some '-' := by
  obtain ⟨c, others, rfl⟩ := List.exists_cons_of_ne_nil nonempty
  have digit := digitValue_lt_ten.mp (valid c (by simp))
  have noMinus : c ≠ '-' := by
    rintro rfl
    revert digit
    decide
  refine ⟨?_, digit, by simpa using noMinus⟩
  unfold startsDecimal
  split <;> simp_all

/-- `parse_imm` reads a numeral as its value modulo the word size. -/
theorem parseImm_numeral {text rest : Text} {n : Int} (numeral : Numeral text n)
    (stops : Stops rest) (lower : -2 ^ 63 ≤ n) (upper : n < 2 ^ 63) :
    parseImm labels (text ++ rest) = .ok (BitVec.ofInt 32 n) := by
  cases numeral with
  | decimal nonempty valid =>
      obtain ⟨decimal, _, noMinus⟩ := startsDecimal_of_digits nonempty valid rest
      have notHex := startsHex_of_second (second_of_digits valid stops nonempty)
        noMinus
      rw [parseImm, if_neg (by simp [nonempty]), if_neg (by simp [notHex.1]),
        if_pos decimal, strtol_decimal nonempty valid stops,
        clampLong_of_small lower upper]
  | negative nonempty valid =>
      obtain ⟨_, decimal, noMinus⟩ := startsDecimal_of_digits nonempty valid rest
      have notHex := startsHex_of_second (second_of_digits valid stops nonempty)
        noMinus
      rw [List.cons_append, parseImm, if_neg (by simp), if_neg (by simp [notHex.2]),
        if_pos decimal, strtol_negative nonempty valid stops,
        clampLong_of_small lower upper]
  | hex isMark nonempty valid =>
      rw [List.cons_append, List.cons_append, parseImm, if_neg (by simp),
        if_pos (by simpa [startsHex] using isMark),
        strtol_hex isMark nonempty valid stops, clampLong_of_small lower upper]
  | negativeHex isMark nonempty valid =>
      rw [List.cons_append, List.cons_append, List.cons_append, parseImm,
        if_neg (by simp), if_pos (by simpa [startsHex] using isMark),
        strtol_negativeHex isMark nonempty valid stops,
        clampLong_of_small lower upper]
theorem parseImm_identifier (name : Identifier fits) :
    parseImm labels name.text = findLabel labels name.text := by
  have letter := name.letter
  have notZero : name.first ≠ '0' := by
    intro same
    rw [same] at letter
    revert letter
    decide
  have notMinus : name.first ≠ '-' := by
    intro same
    rw [same] at letter
    revert letter
    decide
  have notDigit : ¬ name.first.isDigit := by
    intro digit
    have small := digitValue_lt_ten.mpr digit
    have notUnderscore : name.first ≠ '_' := by
      intro same
      rw [same] at digit
      revert digit
      decide
    simp only [identStart, Bool.or_eq_true, Bool.and_eq_true, decide_eq_true_eq,
      beq_iff_eq, notUnderscore, or_false] at letter
    omega
  have notHex : startsHex name.text = false := by
    unfold startsHex Identifier.text
    split <;> simp_all
  have notDecimal : startsDecimal name.text = false := by
    unfold startsDecimal Identifier.text
    split <;> simp_all
  have nonempty : name.text ≠ [] := List.cons_ne_nil _ _
  rw [parseImm, if_neg nonempty, if_neg (by simp [notHex]),
    if_neg (by simp [notDecimal])]

theorem parseImm_number (n : Number fits) (lower : -2 ^ 63 ≤ n.value)
    (upper : n.value < 2 ^ 63) :
    parseImm labels n.text = .ok (BitVec.ofInt 32 n.value) := by
  have read := parseImm_numeral labels n.numeral stops_nil lower upper
  rwa [List.append_nil] at read

theorem findLabel_of_address {name : Identifier fits} {a : Word}
    (address : (Target.label name).address labels = some a) :
    findLabel labels name.text = .ok a := by
  obtain ⟨label, found, rfl⟩ := Option.map_eq_some_iff.mp address
  rw [findLabel, found]

theorem parseImm_target {t : Target fits} {a : Word}
    (address : t.address labels = some a) : parseImm labels t.text = .ok a := by
  cases t with
  | label name =>
      rw [Target.text, parseImm_identifier]
      exact findLabel_of_address labels address
  | number n =>
      simp only [Target.address] at address
      split at address
      · rename_i word
        cases address
        obtain ⟨lower, upper⟩ := word
        exact parseImm_number labels n (by omega) (by omega)
      · cases address

end Immediates

section Instructions

/-- A mnemonic from its text. -/
def Mnemonic.ofText (text : Text)
    (valid : text ≠ [] ∧ text.all tokenChar ∧ text.length < 16) : Mnemonic where
  text := text
  nonempty := valid.1
  plain := List.all_eq_true.mp valid.2.1
  short := lt_trans valid.2.2 (by decide)
  fits := valid.2.2

def regText : Isa.RegOp → Text
  | .add => "add".toList
  | .sub => "sub".toList
  | .sll => "sll".toList
  | .slt => "slt".toList
  | .sltu => "sltu".toList
  | .xor => "xor".toList
  | .srl => "srl".toList
  | .sra => "sra".toList
  | .or => "or".toList
  | .and => "and".toList
  | .mul => "mul".toList
  | .mulh => "mulh".toList
  | .mulhsu => "mulhsu".toList
  | .mulhu => "mulhu".toList
  | .div => "div".toList
  | .divu => "divu".toList
  | .rem => "rem".toList
  | .remu => "remu".toList

def immText : Isa.ImmOp → Text
  | .addi => "addi".toList
  | .slti => "slti".toList
  | .sltiu => "sltiu".toList
  | .xori => "xori".toList
  | .ori => "ori".toList
  | .andi => "andi".toList

def shiftText : Isa.ShiftOp → Text
  | .slli => "slli".toList
  | .srli => "srli".toList
  | .srai => "srai".toList

def loadText : Isa.LoadOp → Text
  | .lb => "lb".toList
  | .lh => "lh".toList
  | .lw => "lw".toList
  | .lbu => "lbu".toList
  | .lhu => "lhu".toList

def storeOpText : Isa.StoreOp → Text
  | .sb => "sb".toList
  | .sh => "sh".toList
  | .sw => "sw".toList

def branchText : Isa.BranchOp → Text
  | .beq => "beq".toList
  | .bne => "bne".toList
  | .blt => "blt".toList
  | .bge => "bge".toList
  | .bltu => "bltu".toList
  | .bgeu => "bgeu".toList

/-- An instruction of the base set or the M extension as it is written. -/
inductive SourceInstr (fits : Text → Prop := Short) where
  | reg (op : Isa.RegOp) (rd rs1 rs2 : RegName)
  | imm (op : Isa.ImmOp) (rd rs1 : RegName) (value : Number fits)
  | shift (op : Isa.ShiftOp) (rd rs1 : RegName) (amount : Number fits)
  | load (op : Isa.LoadOp) (rd : RegName) (offset : Number fits) (rs1 : RegName)
  | store (op : Isa.StoreOp) (rs2 : RegName) (offset : Number fits) (rs1 : RegName)
  | branch (op : Isa.BranchOp) (rs1 rs2 : RegName) (target : Target fits)
  | jal (rd : RegName) (target : Target fits)
  | jalr (rd rs1 : RegName) (offset : Number fits)
  | lui (rd : RegName) (value : Number fits)
  | auipc (rd : RegName) (value : Number fits)
  | ecall
  | ebreak

variable {fits : Text → Prop}

namespace SourceInstr

def mnemonic : SourceInstr fits → Mnemonic
  | .reg op _ _ _ => .ofText (regText op) (by cases op <;> decide)
  | .imm op _ _ _ => .ofText (immText op) (by cases op <;> decide)
  | .shift op _ _ _ => .ofText (shiftText op) (by cases op <;> decide)
  | .load op _ _ _ => .ofText (loadText op) (by cases op <;> decide)
  | .store op _ _ _ => .ofText (storeOpText op) (by cases op <;> decide)
  | .branch op _ _ _ => .ofText (branchText op) (by cases op <;> decide)
  | .jal _ _ => .ofText "jal".toList (by decide)
  | .jalr _ _ _ => .ofText "jalr".toList (by decide)
  | .lui _ _ => .ofText "lui".toList (by decide)
  | .auipc _ _ => .ofText "auipc".toList (by decide)
  | .ecall => .ofText "ecall".toList (by decide)
  | .ebreak => .ofText "ebreak".toList (by decide)

def form [Roomy fits] : SourceInstr fits → Form fits
  | .reg _ rd rs1 rs2 => .three rd.token rs1.token rs2.token
  | .imm _ rd rs1 value => .three rd.token rs1.token value.token
  | .shift _ rd rs1 amount => .three rd.token rs1.token amount.token
  | .load _ rd offset rs1 => .memory rd.token offset.token rs1.token
  | .store _ rs2 offset rs1 => .memory rs2.token offset.token rs1.token
  | .branch _ rs1 rs2 target => .three rs1.token rs2.token target.token
  | .jal rd target => .two rd.token target.token
  | .jalr rd rs1 offset => .three rd.token rs1.token offset.token
  | .lui rd value | .auipc rd value => .two rd.token value.token
  | .ecall | .ebreak => .zero

/-- The canonical text of an instruction. -/
def text [Roomy fits] (src : SourceInstr fits) : Text := src.form.text src.mnemonic.text

/-- The machine instruction a source instruction denotes at address `pc`;
none when an immediate or an offset cannot be encoded or a label is missing. -/
def meaning (labels : List Label) (pc : Word) : SourceInstr fits → Option Isa.Instr
  | .reg op rd rs1 rs2 => some (.reg op rd.number rs1.number rs2.number)
  | .imm op rd rs1 value =>
      if -2048 ≤ value.value ∧ value.value ≤ 2047 then
        some (.imm op rd.number rs1.number (BitVec.ofInt 32 value.value))
      else none
  | .shift op rd rs1 amount =>
      if 0 ≤ amount.value ∧ amount.value ≤ 31 then
        some (.shift op rd.number rs1.number (BitVec.ofInt 5 amount.value))
      else none
  | .load op rd offset rs1 =>
      if -2048 ≤ offset.value ∧ offset.value ≤ 2047 then
        some (.load op rd.number rs1.number (BitVec.ofInt 32 offset.value))
      else none
  | .store op rs2 offset rs1 =>
      if -2048 ≤ offset.value ∧ offset.value ≤ 2047 then
        some (.store op rs2.number rs1.number (BitVec.ofInt 32 offset.value))
      else none
  | .branch op rs1 rs2 target => do
      let offset := (← target.address labels) - pc
      if offset.toInt % 2 = 0 ∧ -4096 ≤ offset.toInt ∧ offset.toInt ≤ 4094 then
        some (.branch op rs1.number rs2.number offset)
      else none
  | .jal rd target => do
      let offset := (← target.address labels) - pc
      if offset.toInt % 2 = 0 ∧ -1048576 ≤ offset.toInt ∧
          offset.toInt ≤ 1048574 then
        some (.jal rd.number offset)
      else none
  | .jalr rd rs1 offset =>
      if -2048 ≤ offset.value ∧ offset.value ≤ 2047 then
        some (.jalr rd.number rs1.number (BitVec.ofInt 32 offset.value))
      else none
  | .lui rd value =>
      if -524288 ≤ value.value ∧ value.value ≤ 1048575 then
        some (.lui rd.number (BitVec.ofInt 32 value.value <<< 12))
      else none
  | .auipc rd value =>
      if -524288 ≤ value.value ∧ value.value ≤ 1048575 then
        some (.auipc rd.number (BitVec.ofInt 32 value.value <<< 12))
      else none
  | .ecall => some .ecall
  | .ebreak => some .ebreak

end SourceInstr

/-- A pseudoinstruction as it is written. -/
inductive PseudoInstr (fits : Text → Prop := Short) where
  | nop
  | mv (rd rs : RegName)
  | li (rd : RegName) (value : Number fits)
  | la (rd : RegName) (name : Identifier fits)
  | call (target : Target fits)
  | j (target : Target fits)
  | ret

namespace PseudoInstr

def op : PseudoInstr fits → Pseudo
  | .nop => .nop
  | .mv _ _ => .mv
  | .li _ _ => .li
  | .la _ _ => .la
  | .call _ => .call
  | .j _ => .j
  | .ret => .ret

def mnemonic : PseudoInstr fits → Mnemonic
  | .nop => .ofText "nop".toList (by decide)
  | .mv _ _ => .ofText "mv".toList (by decide)
  | .li _ _ => .ofText "li".toList (by decide)
  | .la _ _ => .ofText "la".toList (by decide)
  | .call _ => .ofText "call".toList (by decide)
  | .j _ => .ofText "j".toList (by decide)
  | .ret => .ofText "ret".toList (by decide)

def form [Roomy fits] : PseudoInstr fits → Form fits
  | .nop | .ret => .zero
  | .mv rd rs => .two rd.token rs.token
  | .li rd value => .two rd.token value.token
  | .la rd name => .two rd.token name.token
  | .call target | .j target => .one target.token

def text [Roomy fits] (src : PseudoInstr fits) : Text := src.form.text src.mnemonic.text

theorem ofText_mnemonic (src : PseudoInstr fits) :
    Pseudo.ofText src.mnemonic.text = some src.op := by
  cases src <;> rfl

end PseudoInstr

end Instructions

end RiscvPack.Asm
