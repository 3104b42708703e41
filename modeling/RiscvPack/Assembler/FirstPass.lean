import RiscvPack.Assembler.Utils
import RiscvPack.Lib.Runs

/-!
# The first pass

`first_pass.cpp`: every line of the source adds to the offset of the current
section what it will occupy, and every label records the offset at which it
stands.  A pass is a run of `firstPassLine` over the lines `fgets` reads.
-/

namespace RiscvPack.Asm

open CString Runs

section Lines

/-- `fgets` with room for `room` more characters after `current`: a line ends
with its newline or when the buffer is full. -/
def fgetsFrom : Nat → Text → Text → List Text
  | _, current, [] => if current = [] then [] else [current]
  | room, current, c :: rest =>
      if c = '\n' ∨ room ≤ 1 then
        (current ++ [c]) :: fgetsFrom (maxLine - 1) [] rest
      else fgetsFrom (room - 1) (current ++ [c]) rest

/-- The lines of a source file as C strings, which end at a zero byte. -/
def sourceLines (source : Text) : List Text :=
  (fgetsFrom (maxLine - 1) [] source).map (·.takeWhile (· ≠ Char.ofNat 0))

/-- The name after `.section`, up to white space or a comma. -/
def sectionArgument (s : Text) : Text :=
  ((skipSpaces (s.drop 8)).takeWhile fun c => !isspace c && c ≠ ',').take 63

/-- The line without the comment after `#`. -/
def stripComment (s : Text) : Text :=
  match strchr '#' s with
  | some (before, _) => trim before
  | none => s

end Lines

section Instructions

/-- The pseudoinstructions both passes compare the mnemonic with. -/
inductive Pseudo where
  | nop | mv | li | la | call | ret | j
  deriving DecidableEq, Repr

def Pseudo.ofText (op : Text) : Option Pseudo :=
  [("nop".toList, Pseudo.nop), ("mv".toList, .mv), ("li".toList, .li),
    ("la".toList, .la), ("call".toList, .call), ("ret".toList, .ret),
    ("j".toList, .j)].lookup op

/-- `imm >= -2048 && imm <= 2047` -/
def fitsImm12 (imm : Word) : Bool := -2048 ≤ imm.toInt && imm.toInt ≤ 2047

/-- The number of instructions a pseudoinstruction stands for; zero for any
other mnemonic. -/
def pseudoinstructionSize (labels : List Label) (op a2 : Text) :
    Except Stop Nat :=
  match Pseudo.ofText op with
  | some .nop | some .mv => .ok 1
  | some .li =>
      if a2 ≠ [] ∧ (∃ c ∈ a2.head?, c.isDigit ∨ c = '-') then do
        let imm ← parseImm labels a2
        if fitsImm12 imm then .ok 1 else .ok 2
      else .ok 2
  | some .la => .ok 2
  | some .call | some .ret | some .j => .ok 1
  | none => .ok 0

structure SimpleArgs where
  op : Text
  a1 : Text
  a2 : Text
  deriving DecidableEq, Repr

def parseSimpleArgs (s : Text) : SimpleArgs :=
  let temp := skipSpaces (s.take (maxLine - 1))
  -- Copies stop at the size of the destination.
  let op := (temp.takeWhile (!isspace ·)).take 15
  let ptr := skipSpaces (temp.dropWhile (!isspace ·))
  match strchr ',' ptr with
  | none => { op, a1 := trimInPlace (ptr.take 30), a2 := [] }
  | some (first, rest) =>
      { op
        a1 := trimInPlace (first.take 30)
        a2 := trimInPlace ((skipSpaces rest).take 30) }

/-- Adds to the current section and, in `.text`, to `pc_text`. -/
def growText (asm : Assembler) (size : Word) : Assembler :=
  let grown := asm.addOffset size
  if asm.currentSectionName = textName then
    { grown with pcText := grown.pcText + size } else grown

def processInstructionFirstPass (asm : Assembler) (s : Text) :
    Except Stop Assembler := do
  let args := parseSimpleArgs s
  let pseudoSize ← pseudoinstructionSize asm.labels args.op args.a2
  .ok (growText asm
    (BitVec.ofNat 32 (if 0 < pseudoSize then pseudoSize * 4 else 4)))

end Instructions

/-- A label at the current offset of the current section. -/
def addLabel (asm : Assembler) (name : Text) : Assembler :=
  { asm with
    labels := asm.labels ++
      [{ name
         addr := asm.getCurrentSection.offset
         sectionName := asm.currentSectionName }] }

/-- Records the label that ends at the first colon of a line. -/
def processLabel (asm : Assembler) (beforeColon : Text) :
    Except Stop Assembler :=
  let start := skipSpaces beforeColon
  if start = [] then .ok asm
  else
    let name := trim (start.take 63)
    if asm.labels.any (·.name = name) then
      .error (.exit ("Duplicate label: ".toList ++ name))
    else .ok (addLabel asm name)

section Directives

/-- The values of a `.byte`, `.half` or `.word` list.  The flag says whether
the scan is inside a value, which only a comma ends. -/
def countItems : Bool → Text → Nat
  | _, [] => 0
  | true, c :: rest => countItems (c ≠ ',') rest
  | false, c :: rest =>
      if c ≠ ' ' ∧ c ≠ '\t' ∧ c ≠ ',' then 1 + countItems true rest
      else countItems false rest

/-- `sscanf` of one `%d`. -/
def scanInt (s : Text) : Option Word :=
  let (n, rest) := strtol 10 s
  if rest.length < s.length then some (BitVec.ofInt 32 n) else none

/-- Adds to the current section and, in `.data`, to `pc_data`. -/
def growData (asm : Assembler) (size : Word) : Assembler :=
  let grown := asm.addOffset size
  if asm.currentSectionName = dataName then
    { grown with pcData := grown.pcData + size } else grown

def processDirective (asm : Assembler) (s : Text) : Except Stop Assembler :=
  let s := trim s
  if ".asciiz".toList.isPrefixOf s then
    match strchr '"' s with
    | none => .error (.exit "Malformed .asciiz".toList)
    | some (_, string) => do
        let bytes ← parseEscapedString string
        .ok (growData asm (BitVec.ofNat 32 (bytes.length + 1)))
  else if ".ascii".toList.isPrefixOf s then
    match strchr '"' s with
    | none => .error (.exit "Malformed .ascii".toList)
    | some (_, string) => do
        let bytes ← parseEscapedString string
        .ok (growData asm (BitVec.ofNat 32 bytes.length))
  else if ".byte".toList.isPrefixOf s then
    .ok (growData asm (BitVec.ofNat 32 (countItems false (s.drop 5))))
  else if ".half".toList.isPrefixOf s then
    .ok (growData asm (BitVec.ofNat 32 (countItems false (s.drop 5) * 2)))
  else if ".word".toList.isPrefixOf s then
    .ok (growData asm (BitVec.ofNat 32 (countItems false (s.drop 5) * 4)))
  else if ".space".toList.isPrefixOf s then
    match scanInt (s.drop 6) with
    | some size => .ok (growData asm size)
    | none => .ok asm
  else .ok asm

end Directives

/-- A line that neither switches sections nor is skipped. -/
def firstPassContent (asm : Assembler) (s : Text) : Except Stop Assembler :=
  match strchr ':' s with
  | some (beforeColon, afterColon) => do
      let labelled ← processLabel asm beforeColon
      let after := skipSpaces afterColon
      if after ≠ [] ∧ after.head? ≠ some '#' then
        if labelled.getCurrentSection.type = .text then
          processInstructionFirstPass labelled after
        else if after.head? = some '.' then processDirective labelled after
        else .ok labelled
      else .ok labelled
  | none =>
      if s.head? = some '.' then processDirective asm s
      else if asm.getCurrentSection.type = .text then
        processInstructionFirstPass asm s
      else .ok asm

/-- One turn of the loop of `first_pass`. -/
def firstPassLine (asm : Assembler) (line : Text) : Outcome Stop Assembler :=
  let s := trim line
  if s = [] ∨ s.head? = some '#' then .done asm
  else if ".section".toList.isPrefixOf s then
    let sectionName := sectionArgument s
    if sectionName ≠ [] then .done (asm.switchSection sectionName)
    else .done asm
  else if s = textName then .done (asm.switchSection textName)
  else if s = dataName then .done (asm.switchSection dataName)
  else if s = rodataName then .done (asm.switchSection rodataName)
  else if s = bssName then .done (asm.switchSection bssName)
  else if ".globl".toList <:+: s then .done asm
  else
    match firstPassContent asm (stripComment s) with
    | .ok asm' => .done asm'
    | .error reason => .stopped reason asm

/-- The sum of the offsets of the sections of the given types. -/
def sizeOf (sections : SectionTable) (types : List SectionType) : Word :=
  ((sections.values.filter (·.type ∈ types)).map (·.offset)).sum

def firstPass (asm : Assembler) (source : Text) : Outcome Stop Assembler :=
  let start := { asm with labels := [], pcText := 0, pcData := 0 }
  (run firstPassLine start (sourceLines source)).andThen fun asm =>
    .done { asm with
      textSize := sizeOf asm.sections [.text]
      dataSize := sizeOf asm.sections [.data, .rodata, .bss] }

end RiscvPack.Asm
