import RiscvPack.Assembler.Encoder
import RiscvPack.Assembler.AdjustLabels
import RiscvPack.Lib.OutFile

/-!
# The second pass

`second_pass.cpp` and `expand_pseudoinstruction.cpp`: instruction lines become
words, data directives become bytes, and both go to the output file at its
current position.  A stop keeps what was written before it.
-/

namespace RiscvPack.Asm

open CString Runs Files

/-- The local state of `second_pass`. -/
structure Pass2 where
  currentSectionName : Text
  pc : Word
  out : OutFile Byte
  deriving DecidableEq

/-- `fwrite` together with the advance of `pc` that goes with it. -/
def Pass2.emit (st : Pass2) (bytes : List Byte) : Pass2 :=
  { st with
    pc := st.pc + BitVec.ofNat 32 bytes.length
    out := st.out.fwrite bytes }

@[simp] theorem Pass2.emit_nil (st : Pass2) : st.emit [] = st := by
  simp [Pass2.emit]

theorem Pass2.emit_append (st : Pass2) (front back : List Byte) :
    st.emit (front ++ back) = (st.emit front).emit back := by
  simp only [Pass2.emit, OutFile.fwrite_append, List.length_append,
    BitVec.ofNat_add, BitVec.add_assoc]

/-- Bytes written at the position of the file, and nothing else changed. -/
structure Pass2.Wrote (st : Pass2) (bytes : List Byte) (st' : Pass2) : Prop where
  currentSectionName : st'.currentSectionName = st.currentSectionName
  pc : st'.pc = st.pc + BitVec.ofNat 32 bytes.length
  pos : st'.out.pos = st.out.pos + bytes.length
  writes : st'.out.writes = st.out.writes ++ bytes.zipIdx st.out.pos

theorem Pass2.wrote_emit (st : Pass2) (bytes : List Byte) : st.Wrote bytes (st.emit bytes) :=
  ⟨rfl, rfl, rfl, rfl⟩

section Encoding

/-- How `encode_instruction` reads the operands of a mnemonic. -/
inductive Encoding where
  /-- `op rd, rs1, rs2` -/
  | r (funct7 funct3 : Word)
  /-- `op rd, rs1, imm` -/
  | i (funct3 : Word)
  /-- `op rd, rs1, shamt` -/
  | shift (funct7 funct3 : Word)
  /-- `op rd, offset, rs1` -/
  | load (funct3 : Word)
  /-- `op rs2, offset, rs1` -/
  | store (funct3 : Word)
  /-- `op rs1, rs2, target` -/
  | branch (funct3 : Word)
  | jal
  | jalr
  | upper (opcode : Word)
  | system (imm : Word)
  deriving DecidableEq, Repr

/-- The mnemonics of `encode_instruction`, in the order of its tests. -/
def encodings : List (Text × Encoding) :=
  [("add".toList, .r 0x00 0x0), ("sub".toList, .r 0x20 0x0),
    ("sll".toList, .r 0x00 0x1), ("slt".toList, .r 0x00 0x2),
    ("sltu".toList, .r 0x00 0x3), ("xor".toList, .r 0x00 0x4),
    ("srl".toList, .r 0x00 0x5), ("sra".toList, .r 0x20 0x5),
    ("or".toList, .r 0x00 0x6), ("and".toList, .r 0x00 0x7),
    ("mul".toList, .r 0x01 0x0), ("mulh".toList, .r 0x01 0x1),
    ("mulhsu".toList, .r 0x01 0x2), ("mulhu".toList, .r 0x01 0x3),
    ("div".toList, .r 0x01 0x4), ("divu".toList, .r 0x01 0x5),
    ("rem".toList, .r 0x01 0x6), ("remu".toList, .r 0x01 0x7),
    ("addi".toList, .i 0x0), ("slti".toList, .i 0x2), ("sltiu".toList, .i 0x3),
    ("xori".toList, .i 0x4), ("ori".toList, .i 0x6), ("andi".toList, .i 0x7),
    ("slli".toList, .shift 0x00 0x1), ("srli".toList, .shift 0x00 0x5),
    ("srai".toList, .shift 0x20 0x5),
    ("lb".toList, .load 0x0), ("lh".toList, .load 0x1), ("lw".toList, .load 0x2),
    ("lbu".toList, .load 0x4), ("lhu".toList, .load 0x5),
    ("sb".toList, .store 0x0), ("sh".toList, .store 0x1),
    ("sw".toList, .store 0x2),
    ("beq".toList, .branch 0x0), ("bne".toList, .branch 0x1),
    ("blt".toList, .branch 0x4), ("bge".toList, .branch 0x5),
    ("bltu".toList, .branch 0x6), ("bgeu".toList, .branch 0x7),
    ("jal".toList, .jal), ("jalr".toList, .jalr),
    ("lui".toList, .upper 0x37), ("auipc".toList, .upper 0x17),
    ("ecall".toList, .system 0x000), ("ebreak".toList, .system 0x001)]

/-- The buffers an instruction line is split into. -/
structure Operands where
  op : Text
  a1 : Text
  a2 : Text
  a3 : Text
  deriving DecidableEq, Repr

/-- `reg_num` converted to the unsigned argument of the encoders. -/
def regField (r : Text) : Word := BitVec.ofInt 32 (regNum r)

def encodeInstruction (labels : List Label) (currentPc : Word)
    (args : Operands) : Except Stop Word :=
  match encodings.lookup args.op with
  | some (.r funct7 funct3) =>
      .ok (encodeR funct7 (regField args.a3) (regField args.a2) funct3
        (regField args.a1) 0x33)
  | some (.i funct3) => do
      let imm ← parseImm labels args.a3
      .ok (encodeI imm (regField args.a2) funct3 (regField args.a1) 0x13)
  | some (.shift funct7 funct3) => do
      let imm ← parseImm labels args.a3
      .ok (encodeR funct7 (imm &&& 0x1F) (regField args.a2) funct3
        (regField args.a1) 0x13)
  | some (.load funct3) => do
      let imm ← parseImm labels args.a2
      .ok (encodeI imm (regField args.a3) funct3 (regField args.a1) 0x03)
  | some (.store funct3) => do
      let imm ← parseImm labels args.a2
      .ok (encodeS imm (regField args.a1) (regField args.a3) funct3 0x23)
  | some (.branch funct3) => do
      let target ← parseImm labels args.a3
      .ok (encodeB (target - currentPc) (regField args.a2) (regField args.a1)
        funct3 0x63)
  | some .jal => do
      let target ← parseImm labels args.a2
      .ok (encodeJ (target - currentPc) (regField args.a1) 0x6F)
  | some .jalr => do
      let imm ← parseImm labels args.a3
      .ok (encodeI imm (regField args.a2) 0x0 (regField args.a1) 0x67)
  | some (.upper opcode) => do
      let imm ← parseImm labels args.a2
      .ok (encodeU (imm <<< 12) (regField args.a1) opcode)
  | some (.system imm) => .ok (encodeI imm 0x00 0x0 0x00 0x73)
  | none => .error (.exit ("Unknown instruction: ".toList ++ args.op))

end Encoding

section Parsing

/-- A text copied into a buffer of `size` bytes. -/
def storeText (size : Nat) (t : Text) : Except Stop Text :=
  if t.length < size then .ok t else .error .overflow

/-- `parse_instruction_args`; buffers that the line does not reach keep their
contents. -/
def parseInstructionArgs (s : Text) (old : Operands) : Except Stop Operands :=
  let temp := s.take (maxLine - 1)
  match strchr ' ' temp with
  | none => do
      let op ← storeText 16 temp
      .ok { old with op }
  | some (opText, rest) => do
      let op ← storeText 16 opText
      let args := trim rest
      match strchr ',' args with
      | none => do
          let a1 ← storeText 32 args
          .ok { old with op, a1 }
      | some (first, afterFirst) => do
          let a1 ← storeText 32 first
          match strchr ',' afterFirst with
          | none => do
              let a2 ← storeText 32 (trim afterFirst)
              .ok { old with op, a1, a2 }
          | some (second, afterSecond) => do
              let a2 ← storeText 32 (skipSpaces second)
              let a3 ← storeText 32 (trim afterSecond)
              .ok { op, a1, a2, a3 }

/-- The buffers before anything is written to them.  Those of an expanded
instruction are not initialised in the source.  The lines `lui`, `auipc` and
`jal` of an expansion leave `exp_a3` as it is, so `trim` walks over whatever it
holds; `encode_instruction` does not look at it for these three. -/
def Operands.blank : Operands := { op := [], a1 := [], a2 := [], a3 := [] }

/-- `offset(reg)` written as `offset,reg`. -/
def rewriteParens (line : Text) : Except Stop Text :=
  match strchr '(' line with
  | none => .ok line
  | some (before, inside) =>
      match strchr ')' inside with
      | none => .ok line
      | some (regText, suffix) => do
          let inOffset (c : Char) : Bool := !isspace c && c ≠ ','
          let offset ← storeText 32 (before.rtakeWhile inOffset)
          let reg ← storeText 32 regText
          .ok ((before.rdropWhile inOffset ++ offset ++ ',' :: reg ++ suffix).take
            (maxLine - 1))

/-- A trailing comma and the white space before it removed. -/
def dropTrailingComma (t : Text) : Text :=
  if t.getLast? = some ',' then trimInPlace t.dropLast else t

/-- The operands of an instruction line. -/
def readOperands (s : Text) : Except Stop Operands := do
  let line := trim ((s.take (maxLine - 1)).takeWhile (· ≠ '#'))
  let processed ← rewriteParens line
  let args ← parseInstructionArgs processed Operands.blank
  .ok { op := args.op
        a1 := dropTrailingComma (trimInPlace args.a1)
        a2 := dropTrailingComma (trimInPlace args.a2)
        a3 := trimInPlace args.a3 }

/-- The operands of a line that an expansion produced. -/
def readExpanded (line : Text) : Except Stop Operands := do
  let args ← parseInstructionArgs (line.takeWhile (· ≠ '#')) Operands.blank
  .ok { op := args.op
        a1 := trimInPlace args.a1
        a2 := trimInPlace args.a2
        a3 := trimInPlace args.a3 }

end Parsing

section Expansion

/-- `snprintf` into a line buffer. -/
def snprintf (t : Text) : Text := t.take (maxLine - 1)

/-- The upper and lower parts of a constant, as `lui` and `addi` add them. -/
def hi20 (value : Word) : Word := (value + 0x800).sshiftRight 12

def lo12 (value : Word) : Word := value - (hi20 value <<< 12)

def expandPseudoinstruction (labels : List Label) (op : Pseudo) (a1 a2 : Text)
    (currentPc : Word) : Except Stop (List Text) :=
  match op with
  | .nop => .ok [snprintf "addi x0, x0, 0".toList]
  | .mv =>
      .ok [snprintf ("addi ".toList ++ a1 ++ ", ".toList ++ a2 ++ ", 0".toList)]
  | .li => do
      let imm ← parseImm labels a2
      if fitsImm12 imm then
        .ok [snprintf ("addi ".toList ++ a1 ++ ", x0, ".toList ++
          printInt imm.toInt)]
      else
        .ok [snprintf ("lui ".toList ++ a1 ++ ", ".toList ++
            printInt (hi20 imm).toInt),
          snprintf ("addi ".toList ++ a1 ++ ", ".toList ++ a1 ++ ", ".toList ++
            printInt (lo12 imm).toInt)]
  | .la => do
      let targetAddr ← findLabel labels a2
      let offset := targetAddr - currentPc
      .ok [snprintf ("auipc ".toList ++ a1 ++ ", ".toList ++
          printInt (hi20 offset).toInt),
        snprintf ("addi ".toList ++ a1 ++ ", ".toList ++ a1 ++ ", ".toList ++
          printInt (lo12 offset).toInt)]
  | .call => .ok [snprintf ("jal x1, ".toList ++ a1)]
  | .ret => .ok [snprintf "jalr x0, x1, 0".toList]
  | .j => .ok [snprintf ("jal x0, ".toList ++ a1)]

end Expansion

section Instructions

/-- One word written for the operands of one instruction. -/
def emitInstruction (labels : List Label) (st : Pass2) (args : Operands) :
    Outcome Stop Pass2 :=
  match encodeInstruction labels st.pc args with
  | .ok word => .done (st.emit (Bits.leBytes word))
  | .error reason => .stopped reason st

def emitExpanded (labels : List Label) (st : Pass2) (line : Text) :
    Outcome Stop Pass2 :=
  match readExpanded line with
  | .ok args => emitInstruction labels st args
  | .error reason => .stopped reason st

def processInstructionSecondPass (labels : List Label) (st : Pass2) (s : Text) :
    Outcome Stop Pass2 :=
  match readOperands s with
  | .error reason => .stopped reason st
  | .ok args =>
      match Pseudo.ofText args.op with
      | some op =>
          match expandPseudoinstruction labels op args.a1 args.a2 st.pc with
          | .ok expanded => run (emitExpanded labels) st expanded
          | .error reason => .stopped reason st
      | none => emitInstruction labels st args

end Instructions

section Data

/-- The skip between two values of a list. -/
def skipSeparators (s : Text) : Text :=
  s.dropWhile fun c => c = ',' || isspace c

/-- The loop over the values of `.byte`, `.half` and `.word`.  An iteration
that consumes nothing repeats for ever, so a loop that uses up as many
iterations as there are characters never ends. -/
def emitItems (item : Text → Except Stop (List Byte × Text)) :
    Nat → Pass2 → Text → Outcome Stop Pass2
  | _, st, [] => .done st
  | 0, st, _ :: _ => .stopped .diverges st
  | fuel + 1, st, c :: rest =>
      if c ≠ ' ' ∧ c ≠ '\t' ∧ c ≠ ',' then
        match item (c :: rest) with
        | .ok (bytes, after) =>
            emitItems item fuel (st.emit bytes) (skipSeparators after)
        | .error reason => .stopped reason st
      else emitItems item fuel st (skipSeparators (c :: rest))

/-- The characters `strspn` skips after a `.half` or `.word` value. -/
def isNumeralChar (c : Char) : Bool := c ∈ "0123456789abcdefABCDEFxX-+".toList

def byteItem (s : Text) : Except Stop (List Byte × Text) :=
  let (val, rest) := strtol 0 s
  .ok ([BitVec.ofInt 8 val], rest)

def halfItem (labels : List Label) (s : Text) :
    Except Stop (List Byte × Text) := do
  let val ← parseImm labels s
  .ok ([val.extractLsb' 0 8, val.extractLsb' 8 8], s.dropWhile isNumeralChar)

def wordItem (labels : List Label) (s : Text) :
    Except Stop (List Byte × Text) := do
  let val ← parseImm labels s
  .ok (Bits.leBytes val, s.dropWhile isNumeralChar)

def processDataDirective (labels : List Label) (st : Pass2) (s : Text) :
    Outcome Stop Pass2 :=
  let s := trim s
  if ".asciiz".toList.isPrefixOf s then
    match strchr '"' s with
    | none => .stopped (.exit "Malformed .asciiz".toList) st
    | some (_, string) =>
        match parseEscapedString string with
        | .ok bytes => .done ((st.emit bytes).emit [0])
        | .error reason => .stopped reason st
  else if ".ascii".toList.isPrefixOf s then
    match strchr '"' s with
    | none => .stopped (.exit "Malformed .ascii".toList) st
    | some (_, string) =>
        match parseEscapedString string with
        | .ok bytes => .done (st.emit bytes)
        | .error reason => .stopped reason st
  else if ".byte".toList.isPrefixOf s then
    emitItems byteItem (s.drop 5).length st (s.drop 5)
  else if ".half".toList.isPrefixOf s then
    emitItems (halfItem labels) (s.drop 5).length st (s.drop 5)
  else if ".word".toList.isPrefixOf s then
    emitItems (wordItem labels) (s.drop 5).length st (s.drop 5)
  else if ".space".toList.isPrefixOf s then
    match scanInt (s.drop 6) with
    | some size => .done (st.emit (List.replicate size.toInt.toNat 0))
    | none => .done st
  else .done st

end Data

/-- A section entered through its table entry. -/
def enterSection (sections : SectionTable) (st : Pass2) (name : Text) : Pass2 :=
  match sections.find? name with
  | some sec =>
      { currentSectionName := name
        pc := sec.baseAddr
        out := st.out.seek sec.baseAddr.toNat }
  | none => { st with currentSectionName := name }

/-- A directive or an instruction, its label and comment gone. -/
def secondPassItem (asm : Assembler) (st : Pass2) (s : Text) :
    Outcome Stop Pass2 :=
  let found := (asm.sections.find? st.currentSectionName).map (·.type)
  if s.head? = some '.' then
    if found.getD .data ≠ .text then processDataDirective asm.labels st s
    else .done st
  else if found.getD .text = .text then
    processInstructionSecondPass asm.labels st s
  else .done st

/-- A line that neither switches sections nor is skipped. -/
def secondPassContent (asm : Assembler) (st : Pass2) (s : Text) :
    Outcome Stop Pass2 :=
  match strchr ':' s with
  | some (_, afterColon) =>
      let after := skipSpaces afterColon
      if after ≠ [] ∧ after.head? ≠ some '#' then
        secondPassItem asm st (trim after)
      else .done st
  | none => secondPassItem asm st s

/-- One turn of the loop of `second_pass`.  Plain `.text` and `.data` do not
look at the section table. -/
def secondPassLine (asm : Assembler) (st : Pass2) (line : Text) :
    Outcome Stop Pass2 :=
  let s := trim line
  if s = [] ∨ s.head? = some '#' then .done st
  else if ".section".toList.isPrefixOf s then
    let sectionName := sectionArgument s
    if sectionName ≠ [] then .done (enterSection asm.sections st sectionName)
    else .done st
  else if s = textName then
    .done { currentSectionName := textName, pc := 0, out := st.out.seek 0 }
  else if s = dataName then
    .done { currentSectionName := dataName
            pc := asm.pcText
            out := st.out.seek asm.pcText.toNat }
  else if s = rodataName then .done (enterSection asm.sections st rodataName)
  else if s = bssName then .done (enterSection asm.sections st bssName)
  else if ".globl".toList <:+: s then .done st
  else secondPassContent asm st (stripComment s)

/-- The state in which `second_pass` starts. -/
def Pass2.init : Pass2 where
  currentSectionName := textName
  pc := 0
  out := OutFile.empty

def secondPass (asm : Assembler) (source : Text) : Outcome Stop Pass2 :=
  run (secondPassLine asm) Pass2.init (sourceLines source)

end RiscvPack.Asm
