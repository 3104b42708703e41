import RiscvPack.Assembler.SecondPass

/-!
# Splitting instruction lines

What `parse_instruction_args` finds in a line with one, two or three operands,
whatever the white space around them, and what the whole front end of
`process_instruction_second_pass` finds in a canonical line: a mnemonic, one
space, and operands separated by a comma and a space.
-/

namespace RiscvPack.Asm

open CString Runs

theorem storeText_of_lt {size : Nat} {t : Text} (fits : t.length < size) :
    storeText size t = .ok t := if_pos fits

theorem storeText_eq_ok {size : Nat} {t t' : Text}
    (stored : storeText size t = .ok t') : t.length < size ∧ t' = t := by
  unfold storeText at stored
  split at stored
  · rename_i short
    cases stored
    exact ⟨short, rfl⟩
  · cases stored

theorem storeText_bind_eq_ok {α : Type} {size : Nat} {t : Text} {f : Text → Except Stop α}
    {a : α} : (storeText size t >>= f) = .ok a ↔ t.length < size ∧ f t = .ok a := by
  by_cases short : t.length < size
  · rw [storeText_of_lt short]
    exact (and_iff_right short).symm
  · rw [storeText, if_neg short]
    apply iff_of_false
    · rintro ⟨⟩
    · exact fun both => short both.1

section Splitting

variable {op a b c : Text} (old : Operands)

private theorem take_line {s : Text} (fits : s.length < maxLine) :
    s.take (maxLine - 1) = s :=
  List.take_of_length_le (by omega)

theorem parseInstructionArgs_zero (noSpace : ' ' ∉ op)
    (fits : op.length < maxLine) :
    parseInstructionArgs op old = (do
      let op ← storeText 16 op
      .ok { old with op }) := by
  simp only [parseInstructionArgs, take_line fits, strchr_eq_none noSpace]

theorem parseInstructionArgs_one (noSpace : ' ' ∉ op) (noComma : ',' ∉ trim a)
    (fits : (op ++ ' ' :: a).length < maxLine) :
    parseInstructionArgs (op ++ ' ' :: a) old = (do
      let op ← storeText 16 op
      let a1 ← storeText 32 (trim a)
      .ok { old with op, a1 }) := by
  simp only [parseInstructionArgs, take_line fits, strchr_append noSpace,
    strchr_eq_none noComma]

theorem parseInstructionArgs_two (noSpace : ' ' ∉ op) (noComma : ',' ∉ a)
    (noOther : ',' ∉ b)
    (fits : (op ++ ' ' :: (a ++ ',' :: b)).length < maxLine) :
    parseInstructionArgs (op ++ ' ' :: (a ++ ',' :: b)) old = (do
      let op ← storeText 16 op
      let a1 ← storeText 32 (skipSpaces a)
      let a2 ← storeText 32 (trim b)
      .ok { old with op, a1, a2 }) := by
  have noCommaFront : ',' ∉ skipSpaces a := fun member =>
    noComma ((List.dropWhile_sublist _).subset member)
  have noCommaBack : ',' ∉ b.rdropWhile isspace := fun member =>
    noOther ((List.rdropWhile_prefix _ _).subset member)
  simp only [parseInstructionArgs, take_line fits, strchr_append noSpace,
    trim_append_cons (show isspace ',' = false from rfl),
    strchr_append noCommaFront, strchr_eq_none noCommaBack, trim_rdropWhile]

theorem parseInstructionArgs_three (noSpace : ' ' ∉ op) (noComma : ',' ∉ a)
    (noOther : ',' ∉ b)
    (fits : (op ++ ' ' :: (a ++ ',' :: (b ++ ',' :: c))).length < maxLine) :
    parseInstructionArgs (op ++ ' ' :: (a ++ ',' :: (b ++ ',' :: c))) old = (do
      let op ← storeText 16 op
      let a1 ← storeText 32 (skipSpaces a)
      let a2 ← storeText 32 (skipSpaces b)
      let a3 ← storeText 32 (trim c)
      .ok { op, a1, a2, a3 }) := by
  have noCommaFront : ',' ∉ skipSpaces a := fun member =>
    noComma ((List.dropWhile_sublist _).subset member)
  have solid : isspace ',' = false := rfl
  simp only [parseInstructionArgs, take_line fits, strchr_append noSpace,
    trim_append_cons solid, rdropWhile_append_cons solid,
    strchr_append noCommaFront, strchr_append noOther, trim_rdropWhile]

end Splitting

section Parentheses

variable {line before reg suffix : Text}

/-- The offset in front of a parenthesis. -/
def offsetText (before : Text) : Text := before.rtakeWhile fun c => !isspace c && c ≠ ','

/-- No operand has parentheses. -/
def NoParens (line : Text) : Prop :=
  ∀ before inside, strchr '(' line = some (before, inside) → ')' ∉ inside

theorem noParens_of_absent (absent : '(' ∉ line) : NoParens line := by
  intro before inside opening
  rw [strchr_eq_none absent] at opening
  cases opening

theorem noParens_or_exists (line : Text) : NoParens line ∨ ∃ before reg suffix,
    line = before ++ '(' :: (reg ++ ')' :: suffix) ∧ '(' ∉ before ∧ ')' ∉ reg := by
  by_cases noParens : NoParens line
  · exact .inl noParens
  · unfold NoParens at noParens
    push Not at noParens
    obtain ⟨before, inside, opening, closing⟩ := noParens
    obtain ⟨rfl, noOpen⟩ := eq_append_of_strchr opening
    obtain ⟨reg, suffix, rfl, noClose⟩ := List.eq_append_cons_of_mem closing
    exact .inr ⟨before, reg, suffix, rfl, noOpen, noClose⟩

theorem rewriteParens_none (noParens : NoParens line) : rewriteParens line = .ok line := by
  unfold rewriteParens
  cases opening : strchr '(' line with
  | none => rfl
  | some split =>
      obtain ⟨before, inside⟩ := split
      simp only [strchr_eq_none (noParens before inside opening)]

/-- An operand with parentheses becomes two. -/
theorem rewriteParens_parens (noOpen : '(' ∉ before) (noClose : ')' ∉ reg) :
    rewriteParens (before ++ '(' :: (reg ++ ')' :: suffix)) = (do
      let _ ← storeText 32 (offsetText before)
      let _ ← storeText 32 reg
      .ok ((before ++ ',' :: (reg ++ suffix)).take (maxLine - 1))) := by
  have whole : before.rdropWhile (fun c => !isspace c && decide (c ≠ ',')) ++
      offsetText before = before :=
    List.rdropWhile_append_rtakeWhile
  simp only [rewriteParens, strchr_append noOpen, strchr_append noClose]
  change (storeText 32 (offsetText before) >>= _) = _
  cases storedOffset : storeText 32 (offsetText before) with
  | error reason => rfl
  | ok offset =>
      obtain ⟨_, rfl⟩ := storeText_eq_ok storedOffset
      cases storedReg : storeText 32 reg with
      | error reason => rfl
      | ok _ =>
          obtain ⟨_, rfl⟩ := storeText_eq_ok storedReg
          refine congrArg Except.ok ?_
          rw [whole, List.append_assoc, List.cons_append]

theorem take_rewritten (short : (before ++ '(' :: (reg ++ ')' :: suffix)).length < maxLine) :
    (before ++ ',' :: (reg ++ suffix)).take (maxLine - 1) = before ++ ',' :: (reg ++ suffix) := by
  apply List.take_of_length_le
  simp only [List.length_append, List.length_cons] at short ⊢
  omega

theorem rewriteParens_closed (noOpen : '(' ∉ before) (noClose : ')' ∉ reg)
    (short : (before ++ '(' :: (reg ++ ')' :: suffix)).length < maxLine) :
    rewriteParens (before ++ '(' :: (reg ++ ')' :: suffix)) = (do
      let _ ← storeText 32 (offsetText before)
      let _ ← storeText 32 reg
      .ok (before ++ ',' :: (reg ++ suffix))) := by
  rw [rewriteParens_parens noOpen noClose, take_rewritten short]

/-- What the rewriting leaves, whether or not there are parentheses. -/
theorem rewritten_cases {processed : Text} (rewritten : rewriteParens line = .ok processed) :
    processed = line ∨ ∃ before reg suffix, line = before ++ '(' :: (reg ++ ')' :: suffix) ∧
      processed = (before ++ ',' :: (reg ++ suffix)).take (maxLine - 1) := by
  rcases noParens_or_exists line with noParens | ⟨before, reg, suffix, rfl, noOpen, noClose⟩
  · rw [rewriteParens_none noParens] at rewritten
    exact .inl (Except.ok.inj rewritten).symm
  · rw [rewriteParens_parens noOpen noClose] at rewritten
    obtain ⟨_, _, rewritten⟩ := bind_eq_ok.mp rewritten
    obtain ⟨_, _, result⟩ := bind_eq_ok.mp rewritten
    exact .inr ⟨before, reg, suffix, rfl, (Except.ok.inj result).symm⟩

end Parentheses

/-- The characters of register names, numerals and identifiers. -/
def tokenChar (c : Char) : Bool := digitValue c < 36 || c == '-' || c == '_'

theorem isspace_of_tokenChar {c : Char} (plain : tokenChar c) :
    isspace c = false := by
  by_contra space
  have range : c.toNat = 32 ∨ 9 ≤ c.toNat ∧ c.toNat ≤ 13 := by
    simp only [isspace, Bool.or_eq_false_iff, beq_eq_false_iff_ne,
      Bool.and_eq_false_iff, decide_eq_false_iff_not, not_and_or, not_not,
      not_or] at space
    rcases space with rfl | control
    · exact Or.inl rfl
    · exact Or.inr control
  have notDigit : ¬ digitValue c < 36 := by
    unfold digitValue
    split_ifs <;> omega
  have notMark : c ≠ '-' ∧ c ≠ '_' := by
    constructor <;>
    · rintro rfl
      revert range
      decide
  simp [tokenChar, notDigit, notMark] at plain

/-- The text of an operand that its buffer holds. -/
def Short (text : Text) : Prop := text.length < 32

instance (text : Text) : Decidable (Short text) := inferInstanceAs (Decidable (_ < _))

/-- The text of an operand of any length. -/
def AnyLength (_ : Text) : Prop := True

/-- A bound on operands that lets in what a buffer holds. -/
class Roomy (fits : Text → Prop) : Prop where
  of_short : ∀ {text}, Short text → fits text

instance : Roomy Short := ⟨id⟩

instance : Roomy AnyLength := ⟨fun _ => trivial⟩

/-- An operand as canonical lines write it. -/
structure Token (fits : Text → Prop := Short) where
  text : Text
  nonempty : text ≠ []
  plain : ∀ c ∈ text, tokenChar c
  short : fits text

namespace Token

variable {fits : Text → Prop} (t : Token fits)

theorem not_mem {c : Char} (special : tokenChar c = false) : c ∉ t.text := by
  intro member
  rw [t.plain c member] at special
  cases special

theorem trimmed : Trimmed t.text where
  head := fun c first =>
    isspace_of_tokenChar (t.plain c (List.mem_of_mem_head? first))
  last := fun c final =>
    isspace_of_tokenChar (t.plain c (List.mem_of_mem_getLast? final))

theorem skipSpaces_text : skipSpaces t.text = t.text :=
  skipSpaces_of_head t.trimmed.head

theorem trim_text : trim t.text = t.text := trim_of_trimmed t.trimmed

theorem skipSpaces_space (s : Text) : skipSpaces (' ' :: s) = skipSpaces s := rfl

theorem trim_space (s : Text) : trim (' ' :: s) = trim s := rfl

theorem storeText_text (short : Short t.text) : storeText 32 t.text = .ok t.text :=
  storeText_of_lt short

theorem dropTrailingComma_text : dropTrailingComma t.text = t.text := by
  refine if_neg fun last => ?_
  exact t.not_mem (by decide) (List.mem_of_mem_getLast? last)

end Token

/-- The operand part of a canonical instruction line. -/
inductive Form (fits : Text → Prop := Short) where
  | zero
  | one (a : Token fits)
  | two (a b : Token fits)
  | three (a b c : Token fits)
  /-- `a, offset(base)` -/
  | memory (a offset base : Token fits)

namespace Form

variable {fits : Text → Prop}

def text (op : Text) : Form fits → Text
  | .zero => op
  | .one a => op ++ ' ' :: a.text
  | .two a b => op ++ ' ' :: (a.text ++ ',' :: ' ' :: b.text)
  | .three a b c =>
      op ++ ' ' :: (a.text ++ ',' :: (' ' :: b.text ++ ',' :: ' ' :: c.text))
  | .memory a offset base =>
      op ++ ' ' :: (a.text ++ ',' :: ' ' :: (offset.text ++ '(' ::
        (base.text ++ [')'])))

/-- The line after the parentheses are rewritten. -/
def processed (op : Text) : Form fits → Text
  | .memory a offset base =>
      op ++ ' ' :: (a.text ++ ',' :: (' ' :: offset.text ++ ',' :: base.text))
  | form => form.text op

def tokens : Form fits → List (Token fits)
  | .zero => []
  | .one a => [a]
  | .two a b => [a, b]
  | .three a b c | .memory a b c => [a, b, c]

/-- Every operand fits its buffer. -/
def Fits (form : Form fits) : Prop := ∀ t ∈ form.tokens, Short t.text

instance (form : Form fits) : Decidable form.Fits := inferInstanceAs (Decidable (∀ t ∈ _, _))

theorem fits_of_short (form : Form) : form.Fits := fun t _ => t.short

theorem fits_one {a : Token fits} : (one a).Fits ↔ Short a.text := by
  simp [Fits, tokens]

theorem fits_two {a b : Token fits} : (two a b).Fits ↔ Short a.text ∧ Short b.text := by
  simp [Fits, tokens]

theorem fits_three {a b c : Token fits} :
    (three a b c).Fits ↔ Short a.text ∧ Short b.text ∧ Short c.text := by
  simp [Fits, tokens]

theorem fits_memory {a offset base : Token fits} :
    (memory a offset base).Fits ↔ Short a.text ∧ Short offset.text ∧ Short base.text := by
  simp [Fits, tokens]

def operands (op : Text) : Form fits → Operands
  | .zero => { Operands.blank with op }
  | .one a => { Operands.blank with op, a1 := a.text }
  | .two a b => { Operands.blank with op, a1 := a.text, a2 := b.text }
  | .three a b c => { op, a1 := a.text, a2 := b.text, a3 := c.text }
  | .memory a offset base =>
      { op, a1 := a.text, a2 := offset.text, a3 := base.text }

end Form

/-- A mnemonic: a token that fits its buffer. -/
structure Mnemonic extends Token where
  fits : text.length < 16

section Canonical

variable {fits : Text → Prop} (m : Mnemonic) (form : Form fits)

/-- The characters of canonical instruction lines. -/
def lineChar (c : Char) : Bool :=
  tokenChar c || c == ' ' || c == ',' || c == '(' || c == ')'

theorem Form.lineChar_of_mem : ∀ c ∈ form.text m.text, lineChar c := by
  have token (t : Token fits) : ∀ c ∈ t.text, lineChar c := by
    intro c member
    simp [lineChar, t.plain c member]
  have marks : lineChar ' ' ∧ lineChar ',' ∧ lineChar '(' ∧ lineChar ')' := by
    decide
  have mnemonic : ∀ c ∈ m.text, lineChar c := by
    intro c member
    simp [lineChar, m.plain c member]
  intro c member
  cases form <;>
    simp only [Form.text, List.mem_append, List.mem_cons, List.cons_append,
      List.not_mem_nil, or_false] at member <;>
    grind

theorem Form.length_text_lt (short : form.Fits) : (form.text m.text).length < 120 := by
  have op := m.fits
  unfold Fits Short at short
  cases form <;>
    simp only [tokens, List.forall_mem_cons] at short <;>
    simp only [Form.text, List.length_append, List.length_cons, List.cons_append,
      List.length_nil] <;>
    omega

theorem Form.trimmed_text : Trimmed (form.text m.text) where
  head := by
    intro c first
    apply m.trimmed.head
    obtain ⟨d, rest, split⟩ := List.exists_cons_of_ne_nil m.nonempty
    cases form <;> simpa [Form.text, split] using first
  last := by
    intro c final
    have ends (t : Token fits) (front : Text)
        (final : (front ++ t.text).getLast? = some c) : isspace c = false := by
      rw [List.getLast?_append_of_ne_nil _ t.nonempty] at final
      exact t.trimmed.last c final
    cases form with
    | zero => exact m.trimmed.last c final
    | one a =>
        apply ends a (m.text ++ [' '])
        simpa [Form.text] using final
    | two a b =>
        apply ends b (m.text ++ ' ' :: (a.text ++ [',', ' ']))
        simpa [Form.text] using final
    | three a b d =>
        apply ends d (m.text ++ ' ' :: (a.text ++ ',' :: ' ' :: (b.text ++ [',', ' '])))
        simpa [Form.text] using final
    | memory a offset base =>
        have closes : c = ')' := by
          simpa [Form.text, List.getLast?_append, List.getLast?_cons] using
            final.symm
        subst closes
        rfl

theorem Form.not_mem {c : Char} (special : lineChar c = false) : c ∉ form.text m.text := by
  intro member
  rw [form.lineChar_of_mem m c member] at special
  cases special

private theorem rtakeWhile_suffix {p : Char → Bool} (front : Text) {run : Text} {c : Char}
    (accepted : ∀ d ∈ run, p d) (stop : p c = false) :
    (front ++ c :: run).rtakeWhile p = run := by
  have accepted : ∀ d ∈ run.reverse, p d := by simpa using accepted
  unfold List.rtakeWhile
  rw [List.reverse_append, List.reverse_cons, List.append_assoc,
    List.takeWhile_append_of_pos accepted]
  simp [stop]

section Reading

variable {m form} (short : form.Fits)

include short

theorem rewriteParens_form :
    rewriteParens (form.text m.text) = .ok (form.processed m.text) := by
  have whole := form.length_text_lt m short
  cases form with
  | memory a offset base =>
      have shape : (Form.memory a offset base).text m.text =
          ((m.text ++ ' ' :: (a.text ++ [','])) ++ ' ' :: offset.text) ++
            '(' :: (base.text ++ ')' :: []) := by
        simp [Form.text]
      have noOpen : '(' ∉
          (m.text ++ ' ' :: (a.text ++ [','])) ++ ' ' :: offset.text := by
        have special : tokenChar '(' = false := by decide
        simp [m.not_mem special, a.not_mem special, offset.not_mem special]
      have noClose : ')' ∉ base.text := base.not_mem (by decide)
      have accepted : ∀ d ∈ offset.text,
          (!isspace d && decide (d ≠ ',')) = true := by
        intro d member
        have other : d ≠ ',' := by
          rintro rfl
          exact offset.not_mem (by decide) member
        simp [isspace_of_tokenChar (offset.plain d member), other]
      have stop : (!isspace ' ' && decide (' ' ≠ ',')) = false := rfl
      have offsetOnly : offsetText ((m.text ++ ' ' :: (a.text ++ [','])) ++ ' ' :: offset.text) =
          offset.text :=
        rtakeWhile_suffix (m.text ++ ' ' :: (a.text ++ [','])) accepted stop
      have fits : ((m.text ++ ' ' :: (a.text ++ [','])) ++ ' ' :: offset.text ++
          '(' :: (base.text ++ ')' :: [])).length < maxLine := by
        rw [← shape, maxLine]
        omega
      have shortOffset : Short offset.text := short offset (by simp [Form.tokens])
      have shortBase : Short base.text := short base (by simp [Form.tokens])
      rw [shape, rewriteParens_closed noOpen noClose fits, offsetOnly,
        offset.storeText_text shortOffset, base.storeText_text shortBase]
      simp [Form.processed, bind, Except.bind]
  | zero | one | two | three =>
      have special : tokenChar '(' = false := by decide
      apply rewriteParens_none
      apply noParens_of_absent
      simp [Form.text, m.not_mem special, Token.not_mem _ special]

theorem parseInstructionArgs_form :
    parseInstructionArgs (form.processed m.text) Operands.blank =
      .ok (form.operands m.text) := by
  have noSpace : ' ' ∉ m.text := m.not_mem (by decide)
  have noComma (t : Token fits) : ',' ∉ t.text := t.not_mem (by decide)
  have noCommaSpace (t : Token fits) : ',' ∉ ' ' :: t.text := by
    simp [noComma t]
  have op : storeText 16 m.text = .ok m.text := storeText_of_lt m.fits
  have stored : ∀ t ∈ form.tokens, storeText 32 t.text = .ok t.text :=
    fun t member => t.storeText_text (short t member)
  have whole := form.length_text_lt m short
  cases form with
  | zero =>
      simp only [Form.text] at whole
      show parseInstructionArgs m.text _ = _
      rw [parseInstructionArgs_zero _ noSpace (by rw [maxLine]; omega), op]
      rfl
  | one a =>
      simp only [Form.text] at whole
      simp only [Form.tokens, List.forall_mem_cons] at stored
      show parseInstructionArgs (m.text ++ ' ' :: a.text) _ = _
      rw [parseInstructionArgs_one _ noSpace (by rw [a.trim_text]; exact noComma a)
          (by rw [maxLine]; omega), op, a.trim_text, stored.1]
      rfl
  | two a b =>
      simp only [Form.text] at whole
      simp only [Form.tokens, List.forall_mem_cons] at stored
      show parseInstructionArgs
        (m.text ++ ' ' :: (a.text ++ ',' :: ' ' :: b.text)) _ = _
      rw [parseInstructionArgs_two _ noSpace (noComma a) (noCommaSpace b)
          (by rw [maxLine]; omega), op, a.skipSpaces_text, Token.trim_space,
        b.trim_text, stored.1, stored.2.1]
      rfl
  | three a b c =>
      simp only [Form.text] at whole
      simp only [Form.tokens, List.forall_mem_cons] at stored
      show parseInstructionArgs
        (m.text ++ ' ' :: (a.text ++ ',' :: (' ' :: b.text ++ ',' :: ' ' :: c.text)))
        _ = _
      rw [parseInstructionArgs_three _ noSpace (noComma a) (noCommaSpace b)
          (by rw [maxLine]; omega), op, a.skipSpaces_text,
        Token.skipSpaces_space, b.skipSpaces_text, Token.trim_space, c.trim_text,
        stored.1, stored.2.1, stored.2.2.1]
      rfl
  | memory a offset base =>
      simp only [Form.text, List.length_append, List.length_cons,
        List.length_nil] at whole
      simp only [Form.tokens, List.forall_mem_cons] at stored
      rw [Form.processed,
        parseInstructionArgs_three _ noSpace (noComma a) (noCommaSpace offset)
          (by simp only [List.length_append, List.length_cons]; rw [maxLine]; omega),
        op, a.skipSpaces_text, Token.skipSpaces_space, offset.skipSpaces_text,
        base.trim_text, stored.1, stored.2.1, stored.2.2.1]
      rfl

/-- The front end reads back the operands of a canonical line. -/
theorem readOperands_form :
    readOperands (form.text m.text) = .ok (form.operands m.text) := by
  have whole := form.length_text_lt m short
  have line : trim (((form.text m.text).take (maxLine - 1)).takeWhile (· ≠ '#')) =
      form.text m.text := by
    rw [List.take_of_length_le (by rw [maxLine]; omega),
      takeWhile_ne_self (form.not_mem m (by decide)), trim_of_trimmed (form.trimmed_text m)]
  have inPlace (t : Token fits) : trimInPlace t.text = t.text :=
    trimInPlace_of_trimmed t.trimmed
  simp only [readOperands, line, rewriteParens_form short]
  show (do
    let args ← parseInstructionArgs (form.processed m.text) Operands.blank
    _) = _
  rw [parseInstructionArgs_form short]
  refine congrArg Except.ok ?_
  cases form <;>
    simp only [Form.operands, inPlace, Token.dropTrailingComma_text] <;> rfl

/-- So does the front end for expanded instructions, which rewrites no
parentheses. -/
theorem readExpanded_form (plain : form.processed m.text = form.text m.text) :
    readExpanded (form.text m.text) = .ok (form.operands m.text) := by
  have line : (form.text m.text).takeWhile (· ≠ '#') = form.text m.text :=
    takeWhile_ne_self (form.not_mem m (by decide))
  have inPlace (t : Token fits) : trimInPlace t.text = t.text :=
    trimInPlace_of_trimmed t.trimmed
  rw [readExpanded, line, ← plain, parseInstructionArgs_form short]
  refine congrArg Except.ok ?_
  cases form <;> simp only [Form.operands, inPlace] <;> rfl

end Reading

end Canonical

end RiscvPack.Asm
