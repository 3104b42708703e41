import RiscvPack.Assembler.LineSizes
import RiscvPack.Assembler.Rejection

/-!
# The two tokenisers

The first pass ends the mnemonic at any white space and the first operand at a
comma; what is behind that is the second operand.  The second pass ends the
mnemonic at a space character, takes the parentheses of `offset(reg)` for a
comma and ends two operands at commas.  Both skip the white space in front of
what they split off.
-/

namespace RiscvPack.Asm

open CString Runs

section Parsing

variable {op blanks a b z i i' : Text} (old : Operands)

theorem parseInstructionArgs_gap (noSpace : ' ' ∉ op) (white : ∀ c ∈ blanks, isspace c)
    (short : (op ++ ' ' :: (blanks ++ z)).length < maxLine) :
    parseInstructionArgs (op ++ ' ' :: (blanks ++ z)) old =
      parseInstructionArgs (op ++ ' ' :: z) old := by
  have whole {t : Text} (fits : t.length < maxLine) : t.take (maxLine - 1) = t :=
    List.take_of_length_le (by omega)
  have shorter : (op ++ ' ' :: z).length < maxLine := by
    simp only [List.length_append, List.length_cons] at short ⊢
    omega
  simp only [parseInstructionArgs, whole short, whole shorter, strchr_append noSpace,
    trim_append white]

theorem parseInstructionArgs_behind_first (noSpace : ' ' ∉ op) (noComma : ',' ∉ a)
    (white : ∀ c ∈ blanks, isspace c)
    (short : (op ++ ' ' :: (a ++ ',' :: (blanks ++ z))).length < maxLine) :
    parseInstructionArgs (op ++ ' ' :: (a ++ ',' :: (blanks ++ z))) old =
      parseInstructionArgs (op ++ ' ' :: (a ++ ',' :: z)) old := by
  have shorter : (op ++ ' ' :: (a ++ ',' :: z)).length < maxLine := by
    simp only [List.length_append, List.length_cons] at short ⊢
    omega
  have noCommaBlank : ',' ∉ blanks := not_mem_blank rfl white
  cases found : strchr ',' z with
  | none =>
      have absent := not_mem_of_strchr_eq_none found
      have noOther : ',' ∉ blanks ++ z := by
        rw [List.mem_append, not_or]
        exact ⟨noCommaBlank, absent⟩
      rw [parseInstructionArgs_two _ noSpace noComma noOther short,
        parseInstructionArgs_two _ noSpace noComma absent shorter, trim_append white]
  | some split =>
      obtain ⟨b, c⟩ := split
      obtain ⟨rfl, absent⟩ := eq_append_of_strchr found
      have noOther : ',' ∉ blanks ++ b := by
        rw [List.mem_append, not_or]
        exact ⟨noCommaBlank, absent⟩
      rw [← List.append_assoc] at short ⊢
      rw [parseInstructionArgs_three _ noSpace noComma noOther short,
        parseInstructionArgs_three _ noSpace noComma absent shorter, skipSpaces_append white]

theorem parseInstructionArgs_behind_second (noSpace : ' ' ∉ op) (noComma : ',' ∉ a)
    (noOther : ',' ∉ b) (white : ∀ c ∈ blanks, isspace c)
    (short : (op ++ ' ' :: (a ++ ',' :: (b ++ ',' :: (blanks ++ z)))).length < maxLine) :
    parseInstructionArgs (op ++ ' ' :: (a ++ ',' :: (b ++ ',' :: (blanks ++ z)))) old =
      parseInstructionArgs (op ++ ' ' :: (a ++ ',' :: (b ++ ',' :: z))) old := by
  have shorter : (op ++ ' ' :: (a ++ ',' :: (b ++ ',' :: z))).length < maxLine := by
    simp only [List.length_append, List.length_cons] at short ⊢
    omega
  rw [parseInstructionArgs_three _ noSpace noComma noOther short,
    parseInstructionArgs_three _ noSpace noComma noOther shorter, trim_append white]

/-- The offset reaches back to the last separator. -/
theorem offsetText_append {front before : Text} {h : Char} (ends : front.getLast? = some h)
    (separator : isspace h ∨ h = ',') : offsetText (front ++ before) = offsetText before := by
  have refused : ¬ (!isspace h && decide (h ≠ ',')) = true := by
    rcases separator with white | rfl
    · simp [white]
    · simp
  obtain ⟨others, rfl⟩ := List.getLast?_eq_some_iff.mp ends
  unfold offsetText List.rtakeWhile
  rw [List.reverse_append, List.reverse_append, List.takeWhile_append, List.reverse_singleton,
    List.singleton_append,
    List.takeWhile_cons_of_neg (p := fun c => !isspace c && decide (c ≠ ',')) refused,
    List.append_nil]
  split
  · rename_i all
    rw [(List.takeWhile_prefix _).eq_of_length all]
  · rfl

/-- A line without a parenthesis up to a separator is rewritten behind it. -/
theorem rewriteParens_append {front t : Text} {h : Char} (noParen : '(' ∉ front)
    (ends : front.getLast? = some h) (separator : isspace h ∨ h = ',')
    (short : (front ++ t).length < maxLine) :
    rewriteParens (front ++ t) = (rewriteParens t).map (front ++ ·) := by
  rcases noParens_or_exists t with noParens | ⟨before, reg, suffix, rfl, noOpen, noClose⟩
  · have noParensFront : NoParens (front ++ t) := by
      intro before inside opening
      rw [strchr_behind noParen] at opening
      obtain ⟨⟨others, _⟩, found, same⟩ := Option.map_eq_some_iff.mp opening
      cases same
      exact noParens others inside found
    rw [rewriteParens_none noParens, rewriteParens_none noParensFront]
    rfl
  · have noOpenFront : '(' ∉ front ++ before := by
      rw [List.mem_append, not_or]
      exact ⟨noParen, noOpen⟩
    have shorter : (before ++ '(' :: (reg ++ ')' :: suffix)).length < maxLine := by
      rw [List.length_append] at short
      omega
    rw [← List.append_assoc] at short ⊢
    rw [rewriteParens_closed noOpenFront noClose short,
      rewriteParens_closed noOpen noClose shorter, offsetText_append ends separator]
    cases storeText 32 (offsetText before) with
    | error reason => rfl
    | ok offset =>
        cases storeText 32 reg with
        | error reason => rfl
        | ok _ => exact congrArg Except.ok (List.append_assoc _ _ _)

theorem length_rewriteParens_le {t processed : Text} (rewritten : rewriteParens t = .ok processed) :
    processed.length ≤ t.length := by
  rcases rewritten_cases rewritten with rfl | ⟨before, reg, suffix, rfl, rfl⟩
  · exact le_refl _
  · apply (List.length_take_le' _ _).trans
    simp only [List.length_append, List.length_cons]
    omega

theorem readOperands_congr (stripped : Stripped i) (stripped' : Stripped i')
    (same : (rewriteParens i >>= (parseInstructionArgs · Operands.blank)) =
      (rewriteParens i' >>= (parseInstructionArgs · Operands.blank))) :
    readOperands i = readOperands i' := by
  have unfolded {i : Text} (stripped : Stripped i) : readOperands i =
      (rewriteParens i >>= (parseInstructionArgs · Operands.blank)) >>= fun args =>
        .ok { op := args.op
              a1 := dropTrailingComma (trimInPlace args.a1)
              a2 := dropTrailingComma (trimInPlace args.a2)
              a3 := trimInPlace args.a3 } := by
    rw [readOperands, stripped.line_eq, bind_assoc]
  rw [unfolded stripped, unfolded stripped', same]

theorem processInstructionSecondPass_congr (same : readOperands i = readOperands i')
    (labels : List Label) (st : Pass2) :
    processInstructionSecondPass labels st i = processInstructionSecondPass labels st i' := by
  unfold processInstructionSecondPass
  rw [same]

end Parsing

section FirstPass

variable {op rest rest' i i' : Text}

/-- The operands of the first pass in what is behind the first word of a line. -/
def argsBehind (op rest : Text) : SimpleArgs :=
  match strchr ',' (skipSpaces rest) with
  | none => ⟨op.take 15, trimInPlace ((skipSpaces rest).take 30), []⟩
  | some (first, others) =>
      ⟨op.take 15, trimInPlace (first.take 30), trimInPlace ((skipSpaces others).take 30)⟩

theorem op_of_argsBehind (op rest : Text) : (argsBehind op rest).op = op.take 15 := by
  unfold argsBehind
  split <;> rfl

theorem parseSimpleArgs_word (solid : ∀ c ∈ op, isspace c = false) (nonempty : op ≠ [])
    (gap : ∃ g ∈ rest.head?, isspace g) (short : (op ++ rest).length < maxLine) :
    parseSimpleArgs (op ++ rest) = argsBehind op rest := by
  obtain ⟨g, first, white⟩ := gap
  obtain ⟨blanks, rfl⟩ := List.head?_eq_some_iff.mp first
  obtain ⟨c, others, rfl⟩ := List.exists_cons_of_ne_nil nonempty
  have starts : skipSpaces (c :: others ++ g :: blanks) = c :: others ++ g :: blanks := by
    apply skipSpaces_of_head
    rintro d ⟨⟩
    exact solid c List.mem_cons_self
  unfold parseSimpleArgs
  rw [List.take_of_length_le (by omega), starts]
  simp only
  rw [takeWhile_solid solid white, dropWhile_solid solid white]
  rfl

/-- The first pass looks at the mnemonic, and at the second operand of `li`. -/
theorem processInstructionFirstPass_congr
    (sameOp : (parseSimpleArgs i).op = (parseSimpleArgs i').op)
    (sameArg : (parseSimpleArgs i).op = "li".toList →
      (parseSimpleArgs i).a2 = (parseSimpleArgs i').a2) (asm : Assembler) :
    processInstructionFirstPass asm i = processInstructionFirstPass asm i' := by
  have same : pseudoinstructionSize asm.labels (parseSimpleArgs i).op (parseSimpleArgs i).a2 =
      pseudoinstructionSize asm.labels (parseSimpleArgs i').op (parseSimpleArgs i').a2 := by
    rw [← sameOp]
    by_cases li : (parseSimpleArgs i).op = "li".toList
    · rw [sameArg li]
    · unfold pseudoinstructionSize
      cases pseudo : Pseudo.ofText (parseSimpleArgs i).op with
      | none => rfl
      | some op =>
          cases op with
          | li => exact absurd (ofText_li pseudo) li
          | nop | mv | la | call | ret | j => rfl
  unfold processInstructionFirstPass
  simp only [same]

end FirstPass

section Mnemonics

/-- The first pass and the second one find the same mnemonic. -/
def SameMnemonic (i : Text) : Prop := (operandTexts i).op = (parseSimpleArgs i).op

instance (i : Text) : Decidable (SameMnemonic i) :=
  inferInstanceAs (Decidable ((operandTexts i).op = (parseSimpleArgs i).op))

/-- The first word of the line fits the buffer of a mnemonic and ends at a space
or with the line, and an operand with parentheses comes behind white space. -/
structure WordAtSpace (i : Text) : Prop where
  short : (i.takeWhile (!isspace ·)).length < 16
  space : ∀ g ∈ (i.dropWhile (!isspace ·)).head?, g = ' '
  operand : ∀ before inside, strchr '(' i = some (before, inside) → ')' ∈ inside →
    ∃ c ∈ before, isspace c

variable {i : Text}

theorem op_of_splitArgs (i : Text) :
    (splitArgs i).op = (i.take (maxLine - 1)).takeWhile (· ≠ ' ') := by
  unfold splitArgs
  simp only
  cases space : strchr ' ' (i.take (maxLine - 1)) with
  | none => exact (takeWhile_ne_self (not_mem_of_strchr_eq_none space)).symm
  | some split =>
      obtain ⟨op, rest⟩ := split
      obtain ⟨whole, absent⟩ := eq_append_of_strchr space
      rw [whole, takeWhile_ne_cons absent]
      simp only
      split
      · rfl
      · split <;> rfl

theorem op_of_operandTexts (stripped : Stripped i) (short : (joinParens i).length < maxLine) :
    (operandTexts i).op = (joinParens i).takeWhile (· ≠ ' ') := by
  show (splitArgs (joinParens (trim ((i.take (maxLine - 1)).takeWhile (· ≠ '#'))))).op = _
  rw [stripped.line_eq, op_of_splitArgs, List.take_of_length_le (by omega)]

theorem append_eq_take_iff {word rest : Text} {n : Nat} :
    word ++ rest = word.take n ↔ word.length ≤ n ∧ rest = [] := by
  constructor
  · intro same
    have lengths := congrArg List.length same
    rw [List.length_append, List.length_take] at lengths
    exact ⟨by omega, List.length_eq_zero_iff.mp (by omega)⟩
  · rintro ⟨short, rfl⟩
    rw [List.append_nil, List.take_of_length_le short]

theorem takeWhile_eq_take_iff (t : Text) :
    t.takeWhile (· ≠ ' ') = (t.takeWhile (!isspace ·)).take 15 ↔
      (t.takeWhile (!isspace ·)).length < 16 ∧
        ∀ g ∈ (t.dropWhile (!isspace ·)).head?, g = ' ' := by
  have noSpace : ' ' ∉ t.takeWhile (!isspace ·) := by
    intro member
    exact absurd (List.mem_takeWhile_imp member) (by decide)
  have words : t.takeWhile (· ≠ ' ') =
      t.takeWhile (!isspace ·) ++ (t.dropWhile (!isspace ·)).takeWhile (· ≠ ' ') := by
    rw [← takeWhile_ne_append noSpace, List.takeWhile_append_dropWhile]
  have nothing (rest : Text) : rest.takeWhile (· ≠ ' ') = [] ↔ ∀ g ∈ rest.head?, g = ' ' := by
    cases rest with
    | nil => simp
    | cons c rest => simp [List.takeWhile_cons]
  rw [words, append_eq_take_iff, nothing, Nat.lt_succ_iff]

/-- The first pass does not care where a word ends, the second one looks for a space. -/
theorem sameMnemonic_of_noParens (stripped : Stripped i) (noParens : NoParens i) :
    SameMnemonic i ↔ WordAtSpace i := by
  have same := joinParens_none noParens
  unfold SameMnemonic
  rw [take_of_parseSimpleArgs stripped,
    op_of_operandTexts stripped (by rw [same]; exact stripped.short), same, takeWhile_eq_take_iff]
  constructor
  · rintro ⟨short, space⟩
    exact ⟨short, space, fun before inside opening closing =>
      absurd closing (noParens before inside opening)⟩
  · intro word
    exact ⟨word.short, word.space⟩

theorem sameMnemonic_of_parens {before reg suffix : Text} (noOpen : '(' ∉ before)
    (noClose : ')' ∉ reg) (stripped : Stripped (before ++ '(' :: (reg ++ ')' :: suffix))) :
    SameMnemonic (before ++ '(' :: (reg ++ ')' :: suffix)) ↔
      WordAtSpace (before ++ '(' :: (reg ++ ')' :: suffix)) := by
  have joined : joinParens (before ++ '(' :: (reg ++ ')' :: suffix)) =
      before ++ ',' :: (reg ++ suffix) := by
    rw [joinParens_parens noOpen noClose, take_rewritten stripped.short]
  have shorter : (before ++ ',' :: (reg ++ suffix)).length < maxLine := by
    have short := stripped.short
    simp only [List.length_append, List.length_cons] at short ⊢
    omega
  unfold SameMnemonic
  rw [take_of_parseSimpleArgs stripped, op_of_operandTexts stripped (joined ▸ shorter), joined]
  cases first : before.find? isspace with
  | some g =>
      obtain ⟨white, word, others, rfl, clean⟩ := List.find?_eq_some_iff_append.mp first
      have solid : ∀ c ∈ word, isspace c = false := by
        intro c member
        simpa using clean c member
      have shape (c : Char) (rest : Text) :
          word ++ g :: others ++ c :: rest = word ++ g :: (others ++ c :: rest) := by
        simp
      have behind (c : Char) (rest : Text) :
          (word ++ g :: others ++ c :: rest).takeWhile (!isspace ·) = word ∧
            (word ++ g :: others ++ c :: rest).dropWhile (!isspace ·) =
              g :: (others ++ c :: rest) := by
        rw [shape]
        exact ⟨takeWhile_solid solid white, dropWhile_solid solid white⟩
      have split := takeWhile_eq_take_iff (word ++ g :: others ++ ',' :: (reg ++ suffix))
      rw [(behind _ _).1, (behind _ _).2] at split
      rw [(behind _ _).1, split]
      constructor
      · rintro ⟨short, space⟩
        refine ⟨?_, ?_, ?_⟩
        · rwa [(behind _ _).1]
        · rw [(behind _ _).2]
          exact space
        · intro before inside opening _
          rw [strchr_append noOpen] at opening
          cases opening
          exact ⟨g, by simp, white⟩
      · intro start
        have short := start.short
        have space := start.space
        rw [(behind _ _).1] at short
        rw [(behind _ _).2] at space
        exact ⟨short, space⟩
  | none =>
      have solid := List.find?_eq_none.mp first
      have noSpace : ' ' ∉ before := fun member => solid _ member rfl
      -- The word of the second pass has a comma where the line has a parenthesis.
      apply iff_of_false
      · intro same
        rw [takeWhile_ne_append noSpace, List.takeWhile_cons_of_pos (by simp)] at same
        have inLine := (List.take_prefix 15 _).trans (List.takeWhile_prefix
          (l := before ++ '(' :: (reg ++ ')' :: suffix)) (!isspace ·))
        rw [← same, List.prefix_append_right_inj] at inLine
        exact absurd (List.cons_prefix_cons.mp inLine).1 (by decide)
      · intro start
        obtain ⟨c, member, white⟩ := start.operand before _ (strchr_append noOpen _) (by simp)
        exact solid c member white

/-- The passes find the same mnemonic exactly in these lines. -/
theorem sameMnemonic_iff (stripped : Stripped i) : SameMnemonic i ↔ WordAtSpace i := by
  rcases noParens_or_exists i with noParens | ⟨before, reg, suffix, rfl, noOpen, noClose⟩
  · exact sameMnemonic_of_noParens stripped noParens
  · exact sameMnemonic_of_parens noOpen noClose stripped

end Mnemonics

end RiscvPack.Asm
