import RiscvPack.Assembler.LockStep
import RiscvPack.Assembler.Pseudo

/-!
# Programs of one text section

A program as data: lines with a label, an instruction, or both, and maybe
`.text` in front of them.  What both passes read in the canonical text of such
a line is the line itself.
-/

namespace RiscvPack.Asm

open CString Runs
open SourceLine (read)

/-- An instruction or pseudoinstruction of a program. -/
inductive Statement where
  | instr (src : SourceInstr)
  | pseudo (src : PseudoInstr)

namespace Statement

def mnemonic : Statement → Mnemonic
  | .instr src => src.mnemonic
  | .pseudo src => src.mnemonic

def form : Statement → Form
  | .instr src => src.form
  | .pseudo src => src.form

def text (c : Statement) : Text := c.form.text c.mnemonic.text

/-- The number of words. -/
def size : Statement → Nat
  | .instr _ => 1
  | .pseudo src => src.size

/-- Immediates fit, labels are defined and targets are in range at `pc`. -/
def Encodable (labels : List Label) (pc : Word) : Statement → Prop
  | .instr src => (src.meaning labels pc).isSome
  | .pseudo src => src.Valid labels pc

end Statement

structure ProgramLine where
  label : Option Identifier
  statement : Option Statement

namespace ProgramLine

def text (line : ProgramLine) : Text :=
  match line.label, line.statement with
  | none, none => []
  | none, some c => c.text
  | some name, none => name.text ++ [':']
  | some name, some c => name.text ++ ':' :: ' ' :: c.text

/-- The number of words. -/
def size (line : ProgramLine) : Nat := (line.statement.map Statement.size).getD 0

/-- The label of a line that stands at an address. -/
def symbol (line : ProgramLine) (addr : Word) : List Label :=
  match line.label with
  | some name => [{ name := name.text, addr, sectionName := textName }]
  | none => []

end ProgramLine

/-- A program, with or without `.text` in front. -/
structure Program where
  opens : Bool
  lines : List ProgramLine

namespace Program

def header (p : Program) : List Text := if p.opens then [textName] else []

def texts (p : Program) : List Text := p.header ++ p.lines.map ProgramLine.text

/-- The file has the lines of the program, up to white space around them. -/
def Spells (source : Text) (p : Program) : Prop := (sourceLines source).map trim = p.texts

instance (source : Text) (p : Program) : Decidable (Spells source p) :=
  inferInstanceAs (Decidable (_ = _))

/-- The labels of some lines from number `k` on, each with the address of its line. -/
def symbolsFrom (address : Nat → Word) : Nat → List ProgramLine → List Label
  | _, [] => []
  | k, line :: rest => line.symbol (address k) ++ symbolsFrom address (k + 1) rest

theorem symbolsFrom_append (address : Nat → Word) (k : Nat) (front back : List ProgramLine) :
    symbolsFrom address k (front ++ back) =
      symbolsFrom address k front ++ symbolsFrom address (k + front.length) back := by
  induction front generalizing k with
  | nil => rfl
  | cons line front induction =>
      rw [List.cons_append, symbolsFrom, symbolsFrom, induction, List.append_assoc,
        List.length_cons, Nat.add_right_comm]
      rfl

def symbols (p : Program) (address : Nat → Word) : List Label := symbolsFrom address 0 p.lines

/-- Every statement can be encoded where it stands. -/
def Encodable (p : Program) (address : Nat → Word) : Prop :=
  ∀ (k : Nat) (line : ProgramLine), p.lines[k]? = some line → ∀ c ∈ line.statement,
    c.Encodable (p.symbols address) (address k)

end Program

section Texts

variable (c : Statement)

theorem Statement.not_mem_text {x : Char} (special : lineChar x = false) : x ∉ c.text :=
  c.form.not_mem c.mnemonic special

theorem Statement.stripped_text : Stripped c.text where
  trimmed := c.form.trimmed_text c.mnemonic
  noHash := c.not_mem_text (by decide)
  short := by
    have short := c.form.length_text_lt c.mnemonic c.form.fits_of_short
    unfold Statement.text
    rw [maxLine]
    omega

theorem Statement.text_ne_nil : c.text ≠ [] := by
  obtain ⟨x, rest, split⟩ := List.exists_cons_of_ne_nil c.mnemonic.nonempty
  unfold Statement.text
  cases c.form <;> simp [Form.text, split]

theorem Statement.head_text {x : Char} (special : lineChar x = false) :
    c.text.head? ≠ some x :=
  fun first => c.not_mem_text special (List.mem_of_mem_head? first)

theorem Identifier.not_mem_text (name : Identifier) {x : Char}
    (special : tokenChar x = false) : x ∉ name.text :=
  name.token.not_mem special

theorem ProgramLine.not_mem_text (line : ProgramLine) {x : Char} (special : lineChar x = false)
    (noColon : x ≠ ':') : x ∉ line.text := by
  have noToken : tokenChar x = false := by
    simp only [lineChar, Bool.or_eq_false_iff] at special
    exact special.1.1.1.1
  have noSpace : x ≠ ' ' := by
    rintro rfl
    exact absurd special (by decide)
  obtain ⟨label, statement⟩ := line
  cases label with
  | none =>
      cases statement with
      | none => exact List.not_mem_nil
      | some c => exact c.not_mem_text special
  | some name =>
      have inName := name.not_mem_text noToken
      cases statement with
      | none => simp [ProgramLine.text, inName, noColon]
      | some c => simp [ProgramLine.text, inName, noColon, noSpace, c.not_mem_text special]

theorem ProgramLine.trimmed_text (line : ProgramLine) : Trimmed line.text := by
  obtain ⟨label, statement⟩ := line
  cases label with
  | none =>
      cases statement with
      | none => exact ⟨by simp [ProgramLine.text], by simp [ProgramLine.text]⟩
      | some c => exact c.stripped_text.trimmed
  | some name =>
      have head (rest : Text) : ∀ x ∈ (name.text ++ rest).head?, isspace x = false := by
        intro x first
        exact name.token.trimmed.head x first
      cases statement with
      | none =>
          refine ⟨head _, fun x final => ?_⟩
          have closes : x = ':' := by simpa [ProgramLine.text] using final.symm
          rw [closes]
          rfl
      | some c =>
          refine ⟨head _, fun x final => ?_⟩
          apply c.stripped_text.trimmed.last
          have behind : (name.text ++ ':' :: ' ' :: c.text).getLast? = c.text.getLast? := by
            rw [List.append_cons, List.append_cons, List.getLast?_append_of_ne_nil _ c.text_ne_nil]
          rwa [← behind]

end Texts

section Reading

/-- Without a dot and a hash, a line is skipped when it is blank and content otherwise. -/
theorem read_undotted {line : Text} (noDot : '.' ∉ trim line) (noHash : '#' ∉ trim line) :
    read line = if trim line = [] then .skipped else .content (trim line) := by
  have differs {name : Text} (dotted : '.' ∈ name) : trim line ≠ name := by
    rintro rfl
    exact noDot dotted
  have noSection : ¬ ".section".toList.isPrefixOf (trim line) := by
    intro begins
    exact noDot ((List.isPrefixOf_iff_prefix.mp begins).subset (by decide))
  have noGlobl : ¬ ".globl".toList <:+: trim line := by
    intro inside
    exact noDot (inside.subset (by decide))
  have plain : stripComment (trim line) = trim line := by
    rw [stripComment, strchr_eq_none noHash]
  unfold SourceLine.read
  simp only
  by_cases blank : trim line = []
  · rw [if_pos (.inl blank), if_pos blank]
  · have head : (trim line).head? ≠ some '#' := fun first =>
      noHash (List.mem_of_mem_head? first)
    rw [if_neg (not_or.mpr ⟨blank, head⟩), if_neg noSection, if_neg (differs (by decide)),
      if_neg (differs (by decide)), if_neg (differs (by decide)), if_neg (differs (by decide)),
      if_neg noGlobl, if_neg blank, plain]

variable (line : ProgramLine)

theorem ProgramLine.read_text :
    read line.text = if line.text = [] then .skipped else .content line.text := by
  have trimmed : trim line.text = line.text := trim_of_trimmed line.trimmed_text
  have noDot : '.' ∉ trim line.text := by
    rw [trimmed]
    exact line.not_mem_text (by decide) (by decide)
  have noHash : '#' ∉ trim line.text := by
    rw [trimmed]
    exact line.not_mem_text (by decide) (by decide)
  have undotted := read_undotted noDot noHash
  rwa [trimmed] at undotted

theorem ProgramLine.text_eq_nil_iff :
    line.text = [] ↔ line.label = none ∧ line.statement = none := by
  obtain ⟨label, statement⟩ := line
  cases label with
  | none =>
      cases statement with
      | none => exact iff_of_true rfl ⟨rfl, rfl⟩
      | some c => simp [ProgramLine.text, c.text_ne_nil]
  | some name => cases statement <;> simp [ProgramLine.text]

theorem Statement.strchr_colon (c : Statement) : strchr ':' c.text = none :=
  strchr_eq_none (c.not_mem_text (by decide))

theorem Identifier.strchr_colon (name : Identifier) (rest : Text) :
    strchr ':' (name.text ++ ':' :: rest) = some (name.text, rest) :=
  strchr_append (name.not_mem_text (by decide)) rest

/-- The item of a line is its statement. -/
theorem ProgramLine.contentItem_text (nonempty : line.text ≠ []) :
    contentItem line.text = line.statement.map Statement.text := by
  obtain ⟨label, statement⟩ := line
  cases label with
  | none =>
      cases statement with
      | none => exact absurd rfl nonempty
      | some c =>
          show contentItem c.text = some c.text
          rw [contentItem, c.strchr_colon]
  | some name =>
      cases statement with
      | none =>
          show contentItem (name.text ++ [':']) = none
          rw [contentItem, name.strchr_colon]
          rfl
      | some c =>
          have stripped := c.stripped_text
          have behind : skipSpaces (' ' :: c.text) = c.text :=
            skipSpaces_of_head stripped.trimmed.head
          have item : c.text ≠ [] ∧ c.text.head? ≠ some '#' :=
            ⟨c.text_ne_nil, c.head_text (by decide)⟩
          show contentItem (name.text ++ ':' :: ' ' :: c.text) = some c.text
          rw [contentItem, name.strchr_colon]
          simp only
          rw [behind, if_pos item, trim_of_trimmed stripped.trimmed]

theorem Identifier.trim_take (name : Identifier) :
    skipSpaces name.text ≠ [] ∧ trim ((skipSpaces name.text).take 63) = name.text := by
  have trimmed := name.token.trimmed
  have skipped : skipSpaces name.text = name.text := skipSpaces_of_head trimmed.head
  have short := name.length_text_lt
  rw [skipped, List.take_of_length_le (by omega)]
  exact ⟨List.cons_ne_nil _ _, trim_of_trimmed trimmed⟩

/-- The label a line defines is its label. -/
theorem ProgramLine.contentLabel_text :
    contentLabel line.text = line.label.map Identifier.text := by
  obtain ⟨label, statement⟩ := line
  cases label with
  | none =>
      cases statement with
      | none => rfl
      | some c =>
          show contentLabel c.text = none
          rw [contentLabel, c.strchr_colon]
  | some name =>
      obtain ⟨named, text⟩ := name.trim_take
      have label (rest : Text) :
          contentLabel (name.text ++ ':' :: rest) = some name.text := by
        rw [contentLabel, name.strchr_colon]
        simp only
        rw [if_neg named, text]
      cases statement with
      | none => exact label []
      | some c => exact label (' ' :: c.text)

end Reading

end RiscvPack.Asm
