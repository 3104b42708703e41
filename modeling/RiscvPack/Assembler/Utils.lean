import RiscvPack.Isa.Instr
import RiscvPack.Lib.CString
import RiscvPack.Lib.SortedMap
import Mathlib.Data.List.Lex
import Mathlib.Data.Char

/-!
# The assembler's tables and small parsers

The data of `assembler.hpp` and the functions of `utils.cpp`: sections and
labels, register names, immediates, escaped strings.  Texts are lists of
characters, one for each byte.  A function that can end the process returns
the reason instead of a value.
-/

namespace RiscvPack.Asm

open CString

/-- Why a pass ends before the end of its input. -/
inductive Stop where
  /-- `exit(1)` after a message on the error stream. -/
  | exit (message : Text)
  /-- A text was copied into a buffer too small for it. -/
  | overflow
  /-- A loop makes no further progress. -/
  | diverges
  deriving DecidableEq, Repr

/-- `MAX_LINE` -/
def maxLine : Nat := 512

inductive SectionType where
  | text | data | rodata | bss | custom
  deriving DecidableEq, Repr

structure SectionInfo where
  name : Text
  type : SectionType
  offset : Word
  baseAddr : Word
  deriving DecidableEq, Repr

/-- `SectionInfo::SectionInfo` with a name and a type. -/
def SectionInfo.init (name : Text) (type : SectionType) : SectionInfo where
  name := name
  type := type
  offset := 0
  baseAddr := 0

structure Label where
  name : Text
  addr : Word
  sectionName : Text
  deriving DecidableEq, Repr

abbrev SectionTable := SortedMap Text SectionInfo

structure Assembler where
  labels : List Label
  sections : SectionTable
  currentSectionName : Text
  pcText : Word
  pcData : Word
  textSize : Word
  dataSize : Word
  deriving DecidableEq

section Names

def textName : Text := ".text".toList
def dataName : Text := ".data".toList
def rodataName : Text := ".rodata".toList
def bssName : Text := ".bss".toList

/-- The name starts with `prefix` followed by a dot, or is `prefix`. -/
private def named (stem name : Text) : Bool :=
  name = stem || (stem ++ ['.']).isPrefixOf name

def getSectionType (name : Text) : SectionType :=
  if named textName name then .text
  else if named dataName name then .data
  else if named rodataName name then .rodata
  else if named bssName name then .bss
  else .custom

end Names

namespace Assembler

/-- `Assembler::Assembler` -/
def init : Assembler where
  labels := []
  sections :=
    (((SortedMap.empty.insert textName (.init textName .text)).insert
      dataName (.init dataName .data)).insert
      rodataName (.init rodataName .rodata)).insert bssName (.init bssName .bss)
  currentSectionName := textName
  pcText := 0
  pcData := 0
  textSize := 0
  dataSize := 0

def switchSection (asm : Assembler) (sectionName : Text) : Assembler :=
  { asm with
    currentSectionName := sectionName
    sections :=
      match asm.sections.find? sectionName with
      | some _ => asm.sections
      | none =>
          asm.sections.insert sectionName
            (.init sectionName (getSectionType sectionName)) }

/-- `get_current_section`; a section that does not exist would be created as
a custom one. -/
def getCurrentSection (asm : Assembler) : SectionInfo :=
  (asm.sections.find? asm.currentSectionName).getD
    (.init asm.currentSectionName .custom)

/-- `get_current_section().offset += n` -/
def addOffset (asm : Assembler) (n : Word) : Assembler :=
  let current := asm.getCurrentSection
  { asm with
    sections := asm.sections.insert asm.currentSectionName
      { current with offset := current.offset + n } }

end Assembler

/-- The names `reg_num` compares with, and their numbers. -/
def abiNames : List (Text × Int) :=
  [("zero".toList, 0), ("ra".toList, 1), ("sp".toList, 2), ("gp".toList, 3),
    ("tp".toList, 4), ("t0".toList, 5), ("t1".toList, 6), ("t2".toList, 7),
    ("s0".toList, 8), ("fp".toList, 8), ("s1".toList, 9), ("a0".toList, 10),
    ("a1".toList, 11), ("a2".toList, 12), ("a3".toList, 13), ("a4".toList, 14),
    ("a5".toList, 15), ("a6".toList, 16), ("a7".toList, 17), ("s2".toList, 18),
    ("s3".toList, 19), ("s4".toList, 20), ("s5".toList, 21), ("s6".toList, 22),
    ("s7".toList, 23), ("s8".toList, 24), ("s9".toList, 25), ("s10".toList, 26),
    ("s11".toList, 27), ("t3".toList, 28), ("t4".toList, 29), ("t5".toList, 30),
    ("t6".toList, 31)]

/-- The register a text names, read from its longest alphanumeric prefix;
-1 when there is none. -/
def regNum (r : Text) : Int :=
  -- `name` holds fifteen characters and the terminator.
  let name := (r.takeWhile Char.isAlphanum).take 15
  if name = [] then -1
  else
    match abiNames.lookup name with
    | some n => n
    | none =>
        match name with
        | 'x' :: digits =>
            let (n, rest) := strtol 10 digits
            if rest ≠ [] ∨ n < 0 ∨ 31 < n then -1 else n
        | _ => -1

def findLabel (labels : List Label) (name : Text) : Except Stop Word :=
  match labels.find? (·.name = name) with
  | some label => .ok label.addr
  | none => .error (.exit ("Undefined label: ".toList ++ name))

/-- The first test of `parse_imm`: an optional minus sign and `0x`. -/
def startsHex : Text → Bool
  | '0' :: x :: _ => x = 'x' || x = 'X'
  | '-' :: '0' :: x :: _ => x = 'x' || x = 'X'
  | _ => false

/-- The second test of `parse_imm`: an optional minus sign and a digit. -/
def startsDecimal : Text → Bool
  | '-' :: c :: _ => c.isDigit
  | c :: _ => c.isDigit
  | [] => false

def parseImm (labels : List Label) (s : Text) : Except Stop Word :=
  if s = [] then .ok 0
  else if startsHex s then .ok (BitVec.ofInt 32 (strtol 16 s).1)
  else if startsDecimal s then .ok (BitVec.ofInt 32 (strtol 10 s).1)
  else findLabel labels s

/-- The bytes of an escaped string, up to the closing quote or the end. -/
def parseEscapedString : Text → Except Stop (List Byte)
  | [] => .ok []
  | '\\' :: [] => .error (.exit "Unknown escape: \\".toList)
  | '\\' :: e :: rest => do
      let c ←
        if e = 'n' then .ok '\n'
        else if e = 't' then .ok '\t'
        else if e = 'r' then .ok '\r'
        else if e = '\\' then .ok '\\'
        else if e = '"' then .ok '"'
        else .error (.exit ("Unknown escape: \\".toList ++ [e]))
      let bytes ← parseEscapedString rest
      .ok (BitVec.ofNat 8 c.toNat :: bytes)
  | '"' :: _ => .ok []
  | c :: rest => do
      let bytes ← parseEscapedString rest
      .ok (BitVec.ofNat 8 c.toNat :: bytes)

section EscapedStrings

variable {rest : Text} {bytes : List Byte}

theorem parseEscapedString_plain {c : Char} (noSlash : c ≠ '\\') (noQuote : c ≠ '"')
    (rest : Text) :
    parseEscapedString (c :: rest) =
      (parseEscapedString rest).map (BitVec.ofNat 8 c.toNat :: ·) := by
  rw [parseEscapedString]
  · cases parseEscapedString rest <;> rfl
  · rintro rfl
    exact absurd rfl noSlash
  · intro e rest same
    exact absurd same noSlash
  · exact noQuote

/-- The escape sequences, and what they stand for. -/
theorem parseEscapedString_escaped {e c : Char}
    (known : (e, c) ∈ [('n', '\n'), ('t', '\t'), ('r', '\r'), ('\\', '\\'), ('"', '"')])
    (rest : Text) :
    parseEscapedString ('\\' :: e :: rest) =
      (parseEscapedString rest).map (BitVec.ofNat 8 c.toNat :: ·) := by
  simp only [List.mem_cons, Prod.mk.injEq, List.not_mem_nil, or_false] at known
  rcases known with ⟨rfl, rfl⟩ | ⟨rfl, rfl⟩ | ⟨rfl, rfl⟩ | ⟨rfl, rfl⟩ | ⟨rfl, rfl⟩ <;>
  · rw [parseEscapedString]
    cases parseEscapedString rest <;> rfl

theorem parseEscapedString_cons {c : Char} (noQuote : c ≠ '"')
    (parsed : parseEscapedString (c :: rest) = .ok bytes) :
    ∃ byte more behind, bytes = byte :: more ∧ behind <:+ rest ∧
      parseEscapedString behind = .ok more := by
  have reads {d : Char} {behind : Text} (suffix : behind <:+ rest) (parsed : (do
      let bytes ← parseEscapedString behind
      Except.ok (BitVec.ofNat 8 d.toNat :: bytes)) = .ok bytes) :
      ∃ byte more behind, bytes = byte :: more ∧ behind <:+ rest ∧
        parseEscapedString behind = .ok more := by
    cases tail : parseEscapedString behind with
    | error reason =>
        rw [tail] at parsed
        cases parsed
    | ok more =>
        rw [tail] at parsed
        cases parsed
        exact ⟨_, more, behind, rfl, suffix, tail⟩
  by_cases slash : c = '\\'
  · subst slash
    cases rest with
    | nil => cases parsed
    | cons e rest =>
        have suffix : rest <:+ e :: rest := List.suffix_cons _ _
        rw [parseEscapedString] at parsed
        split at parsed
        · exact reads suffix parsed
        split at parsed
        · exact reads suffix parsed
        split at parsed
        · exact reads suffix parsed
        split at parsed
        · exact reads suffix parsed
        split at parsed
        · exact reads suffix parsed
        · cases parsed
  · apply reads (List.suffix_refl rest)
    rw [parseEscapedString_plain slash noQuote] at parsed
    cases tail : parseEscapedString rest with
    | error reason =>
        rw [tail] at parsed
        cases parsed
    | ok more =>
        rw [tail] at parsed
        exact parsed

/-- Only the closing quote and the end of the text stand for no byte. -/
theorem parseEscapedString_eq_nil_iff {t : Text}
    (parsed : parseEscapedString t = .ok bytes) :
    bytes = [] ↔ t = [] ∨ t.head? = some '"' := by
  cases t with
  | nil =>
      cases parsed
      simp
  | cons c rest =>
      by_cases quote : c = '"'
      · subst quote
        cases parsed
        simp
      · obtain ⟨byte, more, behind, rfl, _⟩ := parseEscapedString_cons quote parsed
        simp [quote]

theorem length_parseEscapedString_le {t : Text}
    (parsed : parseEscapedString t = .ok bytes) : bytes.length ≤ t.length := by
  induction length : t.length using Nat.strongRecOn generalizing t bytes with
  | _ n induction =>
      cases t with
      | nil =>
          cases parsed
          exact Nat.zero_le _
      | cons c rest =>
          rw [List.length_cons] at length
          by_cases quote : c = '"'
          · subst quote
            cases parsed
            exact Nat.zero_le _
          · obtain ⟨byte, more, behind, rfl, suffix, tail⟩ :=
              parseEscapedString_cons quote parsed
            have shorter := suffix.length_le
            have counted := induction behind.length (by omega) tail rfl
            rw [List.length_cons]
            omega

end EscapedStrings

end RiscvPack.Asm
