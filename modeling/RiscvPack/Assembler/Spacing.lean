import RiscvPack.Assembler.SpacedLines
import RiscvPack.Assembler.Tokenisers

/-!
# White space inside an instruction

A run of white space behind the mnemonic may be replaced by another one exactly
when both begin with a space or neither does.  Behind a comma the runs do not
matter, save where an operand text keeps the rest of the line: the third
operand of the second pass, and the second one of `li` in the first.
-/

namespace RiscvPack.Asm

open CString Runs

section Spots

/-- A word at the beginning of an instruction. -/
structure FirstWord where
  text : Text
  solid : ∀ c ∈ text, isspace c = false

/-- The mnemonic is one of the tables'. -/
def KnownMnemonic (op : Text) : Prop := (Pseudo.ofText op).isSome ∨ (encodings.lookup op).isSome

/-- The operands in a text, an operand with parentheses being two; none when a
parenthesis is open. -/
def operandCount (w : Text) : Option Nat :=
  match strchr '(' w with
  | none => some (w.count ',' + 1)
  | some (_, inside) => if ')' ∈ inside then some (w.count ',' + 2) else none

/-- Where a run of white space stands in an instruction. -/
inductive Spot where
  /-- Behind the mnemonic.  The flags say whether the run and the one that
  replaces it begin with a space. -/
  | mnemonic (spaced spaced' : Bool)
  /-- Behind the comma after the first operand. -/
  | first
  | second
  /-- Behind a later comma, or within parentheses. -/
  | later
  deriving DecidableEq, Repr

namespace Spot

/-- The spot behind the comma after some operands. -/
def behind (w : Text) : Spot :=
  match operandCount w with
  | some 1 => .first
  | some 2 => .second
  | _ => .later

/-- The spots where the run does not matter. -/
def Harmless (op : Text) : Spot → Prop
  | mnemonic spaced spaced' => spaced = spaced'
  | first => True
  | second => op ≠ "li".toList
  | later => False

instance (op : Text) : (spot : Spot) → Decidable (Harmless op spot)
  | mnemonic spaced spaced' => inferInstanceAs (Decidable (spaced = spaced'))
  | first => .isTrue trivial
  | second => inferInstanceAs (Decidable (op ≠ "li".toList))
  | later => .isFalse id

/-- The instruction up to a run at a spot, the run, and what replaces it. -/
inductive At (op : FirstWord) : Spot → Text → Text → Text → Prop where
  | mnemonic (run run' : Text) :
      At op (.mnemonic (run.head? = some ' ') (run'.head? = some ' ')) op.text run run'
  | operand {gap : Text} (w run run' : Text) :
      Gap gap → At op (behind w) (op.text ++ gap ++ w ++ [',']) run run'

end Spot

/-- Replacing the white space at a spot by spaces and tabs changes nothing,
whatever stands around it. -/
def UnchangedAt (op : FirstWord) (spot : Spot) : Prop :=
  ∀ start front run run' back, spot.At op front run run' → Spaced start front run back →
    run' ≠ [] → Blank run' → (start ++ front ++ run' ++ back).length < maxLine - 1 →
    ∀ before rest, Around before rest →
      assemble (before ++ (start ++ front ++ run' ++ back) ++ rest) =
        assemble (before ++ (start ++ front ++ run ++ back) ++ rest)

end Spots

section Harmless

/-- The mnemonics of both tables. -/
def mnemonics : List Text :=
  ["nop", "mv", "li", "la", "call", "ret", "j"].map String.toList ++ encodings.map (·.1)

theorem mem_mnemonics {op : Text} (known : KnownMnemonic op) : op ∈ mnemonics := by
  rcases known with known | known
  · obtain ⟨pseudo, found⟩ := Option.isSome_iff_exists.mp known
    unfold Pseudo.ofText at found
    apply List.mem_append_left
    have member := List.mem_map_of_mem (f := Prod.fst) (mem_of_lookup found)
    exact member
  · obtain ⟨e, found⟩ := Option.isSome_iff_exists.mp known
    apply List.mem_append_right
    exact List.mem_map_of_mem (f := Prod.fst) (mem_of_lookup found)

variable {op : FirstWord} {run run' z rest : Text} {labels : List Label} {st st' : Pass2}

theorem FirstWord.not_mem_space (op : FirstWord) : ' ' ∉ op.text := by
  intro member
  exact absurd (op.solid _ member) (by decide)

theorem KnownMnemonic.not_mem_paren {op : Text} (known : KnownMnemonic op) : '(' ∉ op := by
  have clean : ∀ op ∈ mnemonics, '(' ∉ op := by decide
  exact clean op (mem_mnemonics known)

theorem Spot.behind_cases (w : Text) :
    Spot.behind w = .first ∨ Spot.behind w = .second ∨ Spot.behind w = .later := by
  unfold Spot.behind
  split
  · exact .inl rfl
  · exact .inr (.inl rfl)
  · exact .inr (.inr rfl)

theorem eq_of_operandCount {w : Text} {n : Nat} (counted : operandCount w = some n) :
    ('(' ∉ w ∧ n = w.count ',' + 1) ∨
      ∃ offset reg tail, w = offset ++ '(' :: (reg ++ ')' :: tail) ∧ '(' ∉ offset ∧ ')' ∉ reg ∧
        n = w.count ',' + 2 := by
  unfold operandCount at counted
  cases opening : strchr '(' w with
  | none =>
      simp only [opening, Option.some.injEq] at counted
      exact .inl ⟨not_mem_of_strchr_eq_none opening, counted.symm⟩
  | some split =>
      obtain ⟨offset, inside⟩ := split
      obtain ⟨whole, noOpen⟩ := eq_append_of_strchr opening
      simp only [opening] at counted
      split_ifs at counted with closing
      obtain ⟨reg, tail, rfl, noClose⟩ := List.eq_append_cons_of_mem closing
      exact .inr ⟨offset, reg, tail, whole, noOpen, noClose, (Option.some.inj counted).symm⟩

theorem Spot.eq_of_behind_first {w : Text} (spot : Spot.behind w = .first) :
    '(' ∉ w ∧ ',' ∉ w := by
  have counted : operandCount w = some 1 := by
    unfold Spot.behind at spot
    split at spot
    · assumption
    · cases spot
    · cases spot
  rcases eq_of_operandCount counted with ⟨noParen, one⟩ | ⟨_, _, _, _, _, _, one⟩
  · exact ⟨noParen, List.count_eq_zero.mp (by omega)⟩
  · omega

theorem Spot.eq_of_behind_second {w : Text} (spot : Spot.behind w = .second) :
    (∃ a b, w = a ++ ',' :: b ∧ '(' ∉ w ∧ ',' ∉ a ∧ ',' ∉ b) ∨
      ∃ offset reg tail, w = offset ++ '(' :: (reg ++ ')' :: tail) ∧ '(' ∉ offset ∧ ')' ∉ reg ∧
        ',' ∉ w := by
  have counted : operandCount w = some 2 := by
    unfold Spot.behind at spot
    split at spot
    · cases spot
    · assumption
    · cases spot
  rcases eq_of_operandCount counted with ⟨noParen, two⟩ |
      ⟨offset, reg, tail, whole, noOpen, noClose, two⟩
  · left
    have comma : ',' ∈ w := List.count_pos_iff.mp (by omega)
    obtain ⟨a, b, rfl, noComma⟩ := List.eq_append_cons_of_mem comma
    refine ⟨a, b, rfl, noParen, noComma, List.count_eq_zero.mp ?_⟩
    rw [List.count_append, List.count_cons_self, List.count_eq_zero.mpr noComma] at two
    omega
  · exact .inr ⟨offset, reg, tail, whole, noOpen, noClose, List.count_eq_zero.mp (by omega)⟩

theorem known_of_word {g : Char} (white : isspace g) (stripped : Stripped (op.text ++ g :: rest))
    (finished : processInstructionSecondPass labels st (op.text ++ g :: rest) = .done st') :
    KnownMnemonic op.text := by
  obtain ⟨args, read, known⟩ := known_of_done finished
  have word := (op_of_readOperands stripped read (plain_of_known known)).1
  rw [takeWhile_solid op.solid white] at word
  rwa [← word]

theorem Gap.exists_cons (gap : Gap run) :
    ∃ g blanks, run = g :: blanks ∧ isspace g ∧ ∀ c ∈ blanks, isspace c := by
  obtain ⟨g, blanks, rfl⟩ := List.exists_cons_of_ne_nil gap.nonempty
  obtain ⟨white, others⟩ := List.forall_mem_cons.mp gap.white
  exact ⟨g, blanks, rfl, white, others⟩

theorem spaced_of_done (gap : Gap run) (stripped : Stripped (op.text ++ run ++ rest))
    (finished : processInstructionSecondPass labels st (op.text ++ run ++ rest) = .done st') :
    KnownMnemonic op.text ∧ run.head? = some ' ' := by
  obtain ⟨g, blanks, rfl, white, _⟩ := gap.exists_cons
  have shape : op.text ++ g :: blanks ++ rest = op.text ++ g :: (blanks ++ rest) := by simp
  rw [shape] at stripped finished
  have space := space_of_done stripped op.not_mem_space white finished
  exact ⟨known_of_word white stripped finished, by rw [space]; rfl⟩

theorem readOperands_exchange {front : Text} (noParen : '(' ∉ front) (gap : Gap run)
    (gap' : Gap run') (stripped : Stripped (front ++ run ++ z))
    (stripped' : Stripped (front ++ run' ++ z))
    (same : ∀ rest, rest.length ≤ z.length →
      parseInstructionArgs (front ++ run ++ rest) Operands.blank =
        parseInstructionArgs (front ++ run' ++ rest) Operands.blank) :
    readOperands (front ++ run ++ z) = readOperands (front ++ run' ++ z) := by
  have rewritten {run : Text} (gap : Gap run) (stripped : Stripped (front ++ run ++ z)) :
      rewriteParens (front ++ run ++ z) = (rewriteParens z).map (front ++ run ++ ·) := by
    have absent : '(' ∉ front ++ run := by
      rw [List.mem_append, not_or]
      exact ⟨noParen, gap.not_mem (by decide)⟩
    have ends : (front ++ run).getLast? = some (run.getLast gap.nonempty) := by
      rw [List.getLast?_append_of_ne_nil _ gap.nonempty]
      exact List.getLast?_eq_getLast_of_ne_nil gap.nonempty
    have white := gap.white _ (List.getLast_mem gap.nonempty)
    exact rewriteParens_append absent ends (.inl white) stripped.short
  apply readOperands_congr stripped stripped'
  rw [rewritten gap stripped, rewritten gap' stripped']
  cases result : rewriteParens z with
  | error reason => rfl
  | ok rest =>
      apply same rest
      exact length_rewriteParens_le result

theorem readOperands_mnemonic (known : KnownMnemonic op.text) (gap : Gap run) (gap' : Gap run')
    (spaced : run.head? = some ' ') (spaced' : run'.head? = some ' ')
    (stripped : Stripped (op.text ++ run ++ z)) (stripped' : Stripped (op.text ++ run' ++ z)) :
    readOperands (op.text ++ run ++ z) = readOperands (op.text ++ run' ++ z) := by
  apply readOperands_exchange known.not_mem_paren gap gap' stripped stripped'
  intro rest shorter
  have skipped {run : Text} (gap : Gap run) (spaced : run.head? = some ' ')
      (stripped : Stripped (op.text ++ run ++ z)) :
      parseInstructionArgs (op.text ++ run ++ rest) Operands.blank =
        parseInstructionArgs (op.text ++ ' ' :: rest) Operands.blank := by
    have short := stripped.short
    obtain ⟨blanks, rfl⟩ := List.head?_eq_some_iff.mp spaced
    rw [List.append_assoc, List.cons_append, parseInstructionArgs_gap _ op.not_mem_space
      (List.forall_mem_cons.mp gap.white).2]
    simp only [List.length_append, List.length_cons] at short ⊢
    omega
  rw [skipped gap spaced stripped, skipped gap' spaced' stripped']

theorem readOperands_first {blanks w : Text} (known : KnownMnemonic op.text)
    (white : ∀ c ∈ blanks, isspace c) (noParen : '(' ∉ w) (noComma : ',' ∉ w) (gap : Gap run)
    (gap' : Gap run') (stripped : Stripped (op.text ++ ' ' :: blanks ++ w ++ [','] ++ run ++ z))
    (stripped' : Stripped (op.text ++ ' ' :: blanks ++ w ++ [','] ++ run' ++ z)) :
    readOperands (op.text ++ ' ' :: blanks ++ w ++ [','] ++ run ++ z) =
      readOperands (op.text ++ ' ' :: blanks ++ w ++ [','] ++ run' ++ z) := by
  have noParenBlank : '(' ∉ blanks := not_mem_blank rfl white
  have noCommaBlank : ',' ∉ blanks ++ w := by
    rw [List.mem_append, not_or]
    exact ⟨not_mem_blank rfl white, noComma⟩
  have noParen : '(' ∉ op.text ++ ' ' :: blanks ++ w ++ [','] := by
    simp [known.not_mem_paren, noParenBlank, noParen]
  apply readOperands_exchange noParen gap gap' stripped stripped'
  intro rest shorter
  have skipped {run : Text} (gap : Gap run)
      (stripped : Stripped (op.text ++ ' ' :: blanks ++ w ++ [','] ++ run ++ z)) :
      parseInstructionArgs (op.text ++ ' ' :: blanks ++ w ++ [','] ++ run ++ rest)
          Operands.blank =
        parseInstructionArgs (op.text ++ ' ' :: (blanks ++ w ++ ',' :: rest)) Operands.blank := by
    have short := stripped.short
    have shape : op.text ++ ' ' :: blanks ++ w ++ [','] ++ run ++ rest =
        op.text ++ ' ' :: (blanks ++ w ++ ',' :: (run ++ rest)) := by
      simp
    rw [shape, parseInstructionArgs_behind_first _ op.not_mem_space noCommaBlank gap.white]
    simp only [List.length_append, List.length_cons] at short ⊢
    omega
  rw [skipped gap stripped, skipped gap' stripped']

theorem readOperands_second {blanks a b : Text} (known : KnownMnemonic op.text)
    (white : ∀ c ∈ blanks, isspace c) (noParen : '(' ∉ a ++ ',' :: b) (noComma : ',' ∉ a)
    (noOther : ',' ∉ b) (gap : Gap run) (gap' : Gap run')
    (stripped : Stripped (op.text ++ ' ' :: blanks ++ (a ++ ',' :: b) ++ [','] ++ run ++ z))
    (stripped' : Stripped (op.text ++ ' ' :: blanks ++ (a ++ ',' :: b) ++ [','] ++ run' ++ z)) :
    readOperands (op.text ++ ' ' :: blanks ++ (a ++ ',' :: b) ++ [','] ++ run ++ z) =
      readOperands (op.text ++ ' ' :: blanks ++ (a ++ ',' :: b) ++ [','] ++ run' ++ z) := by
  have noParenBlank : '(' ∉ blanks := not_mem_blank rfl white
  have noCommaBlank : ',' ∉ blanks ++ a := by
    rw [List.mem_append, not_or]
    exact ⟨not_mem_blank rfl white, noComma⟩
  have noParen : '(' ∉ op.text ++ ' ' :: blanks ++ (a ++ ',' :: b) ++ [','] := by
    rw [List.mem_append, List.mem_append, not_or, not_or]
    refine ⟨⟨?_, noParen⟩, by decide⟩
    simp [known.not_mem_paren, noParenBlank]
  apply readOperands_exchange noParen gap gap' stripped stripped'
  intro rest shorter
  have skipped {run : Text} (gap : Gap run)
      (stripped : Stripped (op.text ++ ' ' :: blanks ++ (a ++ ',' :: b) ++ [','] ++ run ++ z)) :
      parseInstructionArgs (op.text ++ ' ' :: blanks ++ (a ++ ',' :: b) ++ [','] ++ run ++ rest)
          Operands.blank =
        parseInstructionArgs (op.text ++ ' ' :: (blanks ++ a ++ ',' :: (b ++ ',' :: rest)))
          Operands.blank := by
    have short := stripped.short
    have shape : op.text ++ ' ' :: blanks ++ (a ++ ',' :: b) ++ [','] ++ run ++ rest =
        op.text ++ ' ' :: (blanks ++ a ++ ',' :: (b ++ ',' :: (run ++ rest))) := by
      simp
    rw [shape, parseInstructionArgs_behind_second _ op.not_mem_space noCommaBlank noOther
      gap.white]
    simp only [List.length_append, List.length_cons] at short ⊢
    omega
  rw [skipped gap stripped, skipped gap' stripped']

theorem readOperands_memory {blanks offset reg tail : Text} (known : KnownMnemonic op.text)
    (white : ∀ c ∈ blanks, isspace c) (noOpen : '(' ∉ offset) (noClose : ')' ∉ reg)
    (noComma : ',' ∉ offset ++ '(' :: (reg ++ ')' :: tail)) (gap : Gap run) (gap' : Gap run')
    (stripped : Stripped (op.text ++ ' ' :: blanks ++ (offset ++ '(' :: (reg ++ ')' :: tail)) ++
      [','] ++ run ++ z))
    (stripped' : Stripped (op.text ++ ' ' :: blanks ++ (offset ++ '(' :: (reg ++ ')' :: tail)) ++
      [','] ++ run' ++ z)) :
    readOperands (op.text ++ ' ' :: blanks ++ (offset ++ '(' :: (reg ++ ')' :: tail)) ++ [','] ++
        run ++ z) =
      readOperands (op.text ++ ' ' :: blanks ++ (offset ++ '(' :: (reg ++ ')' :: tail)) ++ [','] ++
        run' ++ z) := by
  have noParenBlank : '(' ∉ blanks := not_mem_blank rfl white
  have noCommaBlank : ',' ∉ blanks := not_mem_blank rfl white
  simp only [List.mem_append, List.mem_cons, not_or] at noComma
  have noCommaFront : ',' ∉ blanks ++ offset := by simp [noCommaBlank, noComma.1]
  have noOther : ',' ∉ reg ++ tail := by simp [noComma.2.2.1, noComma.2.2.2.2]
  have noOpen : '(' ∉ op.text ++ ' ' :: (blanks ++ offset) := by
    simp [known.not_mem_paren, noParenBlank, noOpen]
  apply readOperands_congr stripped stripped'
  have rewritten {run : Text} (gap : Gap run)
      (stripped : Stripped (op.text ++ ' ' :: blanks ++
        (offset ++ '(' :: (reg ++ ')' :: tail)) ++ [','] ++ run ++ z)) :
      (rewriteParens (op.text ++ ' ' :: blanks ++ (offset ++ '(' :: (reg ++ ')' :: tail)) ++
          [','] ++ run ++ z) >>= (parseInstructionArgs · Operands.blank)) = (do
        let _ ← storeText 32 (offsetText (op.text ++ ' ' :: (blanks ++ offset)))
        let _ ← storeText 32 reg
        parseInstructionArgs (op.text ++ ' ' ::
          (blanks ++ offset ++ ',' :: (reg ++ tail ++ ',' :: z))) Operands.blank) := by
    have shape : op.text ++ ' ' :: blanks ++ (offset ++ '(' :: (reg ++ ')' :: tail)) ++ [','] ++
        run ++ z = (op.text ++ ' ' :: (blanks ++ offset)) ++
          '(' :: (reg ++ ')' :: (tail ++ ',' :: (run ++ z))) := by
      simp
    have short := stripped.short
    rw [shape] at short ⊢
    have parsed : parseInstructionArgs (op.text ++ ' ' :: (blanks ++ offset) ++
        ',' :: (reg ++ (tail ++ ',' :: (run ++ z)))) Operands.blank =
        parseInstructionArgs (op.text ++ ' ' ::
          (blanks ++ offset ++ ',' :: (reg ++ tail ++ ',' :: z))) Operands.blank := by
      have shape : op.text ++ ' ' :: (blanks ++ offset) ++
          ',' :: (reg ++ (tail ++ ',' :: (run ++ z))) = op.text ++ ' ' ::
            (blanks ++ offset ++ ',' :: (reg ++ tail ++ ',' :: (run ++ z))) := by
        simp
      rw [shape, parseInstructionArgs_behind_second _ op.not_mem_space noCommaFront noOther
        gap.white]
      simp only [List.length_append, List.length_cons] at short ⊢
      omega
    rw [rewriteParens_closed noOpen noClose short]
    simp only [bind_assoc]
    rw [← parsed]
    rfl
  rw [rewritten gap stripped, rewritten gap' stripped']

/-- The first pass ends the mnemonic at any white space. -/
theorem parseSimpleArgs_gap (nonempty : op.text ≠ []) (gap : Gap run)
    (short : (op.text ++ run ++ z).length < maxLine) :
    parseSimpleArgs (op.text ++ run ++ z) = parseSimpleArgs (op.text ++ ' ' :: z) := by
  obtain ⟨g, blanks, rfl, white, spaces⟩ := gap.exists_cons
  have shape : op.text ++ g :: blanks ++ z = op.text ++ g :: (blanks ++ z) := by simp
  rw [shape] at short ⊢
  have shorter : (op.text ++ ' ' :: z).length < maxLine := by
    simp only [List.length_append, List.length_cons] at short ⊢
    omega
  have first : skipSpaces (g :: (blanks ++ z)) = skipSpaces z :=
    skipSpaces_append gap.white z
  have single : skipSpaces (' ' :: z) = skipSpaces z :=
    skipSpaces_append (List.forall_mem_singleton.mpr rfl) z
  rw [parseSimpleArgs_word op.solid nonempty ⟨g, rfl, white⟩ short,
    parseSimpleArgs_word op.solid nonempty ⟨' ', rfl, rfl⟩ shorter, argsBehind, argsBehind, first,
    single]

theorem alike_mnemonic (nonempty : op.text ≠ []) (gap : Gap run) (gap' : Gap run')
    (stripped : Stripped (op.text ++ run ++ z)) (stripped' : Stripped (op.text ++ run' ++ z))
    (same : KnownMnemonic op.text → (run.head? = some ' ' ↔ run'.head? = some ' ')) :
    AlikeItems (op.text ++ run' ++ z) (op.text ++ run ++ z) where
  first := by
    intro asm
    unfold processInstructionFirstPass
    rw [parseSimpleArgs_gap nonempty gap stripped.short,
      parseSimpleArgs_gap nonempty gap' stripped'.short]
  second := by
    intro labels st st'
    by_cases spaced : KnownMnemonic op.text ∧ run.head? = some ' '
    · obtain ⟨known, space⟩ := spaced
      have read := readOperands_mnemonic known gap gap' space ((same known).mp space) stripped
        stripped'
      rw [processInstructionSecondPass_congr read]
    · constructor
      · intro finished
        obtain ⟨known, space'⟩ := spaced_of_done gap' stripped' finished
        exact absurd ⟨known, (same known).mpr space'⟩ spaced
      · intro finished
        exact absurd (spaced_of_done gap stripped finished) spaced

/-- The first pass does not look behind a comma, save behind the first one of `li`. -/
theorem firstPass_operand {w : Text} {gap : Text} (nonempty : op.text ≠ []) (white : Gap gap)
    (gapRun : Gap run) (gapRun' : Gap run')
    (short : (op.text ++ gap ++ w ++ [','] ++ run ++ z).length < maxLine)
    (short' : (op.text ++ gap ++ w ++ [','] ++ run' ++ z).length < maxLine)
    (li : op.text = "li".toList → ',' ∉ w) (asm : Assembler) :
    processInstructionFirstPass asm (op.text ++ gap ++ w ++ [','] ++ run' ++ z) =
      processInstructionFirstPass asm (op.text ++ gap ++ w ++ [','] ++ run ++ z) := by
  obtain ⟨g, blanks, rfl, space, spaces⟩ := white.exists_cons
  have shape (run : Text) : op.text ++ g :: blanks ++ w ++ [','] ++ run ++ z =
      op.text ++ g :: (blanks ++ w ++ ',' :: (run ++ z)) := by
    simp
  rw [shape] at short short' ⊢
  rw [shape]
  have word {rest : Text} (short : (op.text ++ g :: rest).length < maxLine) :=
    parseSimpleArgs_word op.solid nonempty ⟨g, rfl, space⟩ short
  have first {rest : Text} (short : (op.text ++ g :: rest).length < maxLine) :
      (parseSimpleArgs (op.text ++ g :: rest)).op = op.text.take 15 := by
    rw [word short, op_of_argsBehind]
  apply processInstructionFirstPass_congr
  · rw [first short, first short']
  · intro loads
    rw [first short'] at loads
    have isLi : op.text = "li".toList := by
      have whole : op.text.length ≤ 15 := by
        by_contra longer
        have clipped := congrArg List.length loads
        rw [List.length_take] at clipped
        simp at clipped
        omega
      rwa [List.take_of_length_le whole] at loads
    have noComma : ',' ∉ skipSpaces (g :: blanks ++ w) := by
      intro member
      rcases List.mem_append.mp (mem_of_mem_skipSpaces member) with inside | inside
      · exact not_mem_blank rfl white.white inside
      · exact li isLi inside
    have second {run : Text} (gap : Gap run)
        (short : (op.text ++ g :: (blanks ++ w ++ ',' :: (run ++ z))).length < maxLine) :
        (parseSimpleArgs (op.text ++ g :: (blanks ++ w ++ ',' :: (run ++ z)))).a2 =
          trimInPlace ((skipSpaces z).take 30) := by
      have split : skipSpaces (g :: (blanks ++ w ++ ',' :: (run ++ z))) =
          skipSpaces (g :: blanks ++ w) ++ ',' :: (run ++ z) :=
        skipSpaces_append_cons rfl (g :: blanks ++ w) (run ++ z)
      rw [word short, argsBehind, split, strchr_append noComma]
      simp only [skipSpaces_append gap.white]
    rw [second gapRun short, second gapRun' short']

theorem alike_operand {w gap : Text} (nonempty : op.text ≠ []) (white : Gap gap)
    (gapRun : Gap run) (gapRun' : Gap run')
    (stripped : Stripped (op.text ++ gap ++ w ++ [','] ++ run ++ z))
    (stripped' : Stripped (op.text ++ gap ++ w ++ [','] ++ run' ++ z))
    (harmless : KnownMnemonic op.text → (Spot.behind w).Harmless op.text) :
    AlikeItems (op.text ++ gap ++ w ++ [','] ++ run' ++ z)
      (op.text ++ gap ++ w ++ [','] ++ run ++ z) where
  first := by
    apply firstPass_operand nonempty white gapRun gapRun' stripped.short stripped'.short
    intro isLi
    have known : KnownMnemonic op.text := .inl (by rw [isLi]; rfl)
    have spot := harmless known
    rcases Spot.behind_cases w with place | place | place
    · exact (Spot.eq_of_behind_first place).2
    · rw [place] at spot
      exact absurd isLi spot
    · rw [place] at spot
      exact absurd spot id
  second := by
    intro labels st st'
    by_cases spaced : KnownMnemonic op.text ∧ gap.head? = some ' '
    · obtain ⟨known, space⟩ := spaced
      obtain ⟨blanks, rfl⟩ := List.head?_eq_some_iff.mp space
      have others := (List.forall_mem_cons.mp white.white).2
      have spot := harmless known
      suffices read : readOperands (op.text ++ ' ' :: blanks ++ w ++ [','] ++ run ++ z) =
          readOperands (op.text ++ ' ' :: blanks ++ w ++ [','] ++ run' ++ z) by
        rw [processInstructionSecondPass_congr read]
      rcases Spot.behind_cases w with place | place | place
      · obtain ⟨noParen, noComma⟩ := Spot.eq_of_behind_first place
        exact readOperands_first known others noParen noComma gapRun gapRun' stripped stripped'
      · rcases Spot.eq_of_behind_second place with ⟨a, b, rfl, noParen, noComma, noOther⟩ |
          ⟨offset, reg, tail, rfl, noOpen, noClose, noComma⟩
        · exact readOperands_second known others noParen noComma noOther gapRun gapRun'
            stripped stripped'
        · exact readOperands_memory known others noOpen noClose noComma gapRun gapRun'
            stripped stripped'
      · rw [place] at spot
        exact absurd spot id
    · have stops {run : Text}
          (stripped : Stripped (op.text ++ gap ++ w ++ [','] ++ run ++ z)) :
          ¬ processInstructionSecondPass labels st (op.text ++ gap ++ w ++ [','] ++ run ++ z) =
            .done st' := by
        intro finished
        have shape : op.text ++ gap ++ w ++ [','] ++ run ++ z =
            op.text ++ gap ++ (w ++ [','] ++ run ++ z) := by
          simp
        rw [shape] at stripped finished
        exact spaced (spaced_of_done white stripped finished)
      exact iff_of_false (stops stripped') (stops stripped)

theorem gap_of_blank (nonempty : run ≠ []) (blank : Blank run) : Gap run := by
  refine ⟨nonempty, fun c member => ?_⟩
  rcases blank c member with rfl | rfl <;> rfl

theorem Blank.not_mem_newline (blank : Blank run) : '\n' ∉ run := by
  intro member
  rcases blank _ member with same | same <;> cases same

/-- At a harmless spot the run does not matter. -/
theorem unchangedAt_of_harmless {spot : Spot}
    (harmless : KnownMnemonic op.text → spot.Harmless op.text) : UnchangedAt op spot := by
  intro start front run run' back placed spaced nonempty blank short before rest around
  have gap' := gap_of_blank nonempty blank
  have stripped := spaced.stripped_item spaced.gap spaced.short
  have stripped' := spaced.stripped_item gap' short
  apply spaced.unchanged gap' blank.not_mem_newline short _ around
  obtain ⟨c, others, split, solid, _⟩ := spaced.exists_cons
  cases placed with
  | mnemonic =>
      have nonempty : op.text ≠ [] := by
        rw [split]
        exact List.cons_ne_nil c others
      apply alike_mnemonic nonempty spaced.gap gap' stripped stripped'
      intro known
      exact decide_eq_decide.mp (harmless known)
  | operand w _ _ white =>
      have nonempty : op.text ≠ [] := by
        intro empty
        obtain ⟨g, blanks, rfl, space, _⟩ := white.exists_cons
        rw [empty] at split
        cases split
        rw [space] at solid
        cases solid
      exact alike_operand nonempty white spaced.gap gap' stripped stripped' harmless

end Harmless

section Harmful

/-- The characters that end a label, begin a comment or a directive, or end a line. -/
def marks : List Char := [':', '#', '.', '\n', Char.ofNat 0]

theorem spaced_of_unmarked {front run back : Text}
    (head : ∃ c ∈ front.head?, isspace c = false) (token : ∃ d ∈ back.head?, isspace d = false)
    (unmarked : ∀ c ∈ front ++ back, c ∉ marks) (gap : Gap run) (oneLine : '\n' ∉ run)
    (short : (front ++ run ++ back).length < maxLine - 1) : Spaced [] front run back := by
  have absentFront {c : Char} (mark : c ∈ marks) : c ∉ front :=
    fun member => unmarked c (List.mem_append_left back member) mark
  have absentBack {c : Char} (mark : c ∈ marks) : c ∉ back :=
    fun member => unmarked c (List.mem_append_right front member) mark
  have colon : ':' ∈ marks := by decide
  have hash : '#' ∈ marks := by decide
  have dot : '.' ∈ marks := by decide
  have newline : '\n' ∈ marks := by decide
  have nul : Char.ofNat 0 ∈ marks := by decide
  obtain ⟨d, first, solid⟩ := token
  obtain ⟨rest, rfl⟩ := List.head?_eq_some_iff.mp first
  have other {e : Char} (mark : e ∈ marks) : d ≠ e :=
    fun same => absentBack mark (same ▸ List.mem_cons_self)
  obtain ⟨c, starts, solidFront⟩ := head
  refine
    { opening := .blank (List.forall_mem_nil _) ?_
      noHash := absentFront hash
      noNul := absentFront nul
      head := ⟨c, starts, solidFront, ?_⟩
      gap
      token := ⟨d, rfl, solid, other hash, other nul⟩
      oneLine := ?_
      content := ?_
      short }
  · rw [List.mem_append, not_or]
    exact ⟨absentFront colon,
      fun member => absentBack colon ((List.takeWhile_prefix _).subset member)⟩
  · rintro rfl
    exact absentFront dot (List.mem_of_mem_head? starts)
  · simp only [List.nil_append, List.mem_append, not_or]
    exact ⟨⟨absentFront newline, oneLine⟩, absentBack newline⟩
  · have noNul : Char.ofNat 0 ∉ front ++ run ++ d :: rest := by
      simp only [List.mem_append, not_or]
      exact ⟨⟨absentFront nul, gap.not_mem (by decide)⟩, absentBack nul⟩
    have whole : cString (front ++ run ++ d :: rest) = front ++ run ++ d :: rest := by
      have ended := cString_append noNul []
      rwa [List.append_nil, show cString [] = [] from rfl, List.append_nil] at ended
    have visible : skipSpaces (front ++ run) = front ++ run := by
      apply skipSpaces_of_head
      intro e first
      rw [List.head?_append, Option.mem_def.mp starts] at first
      cases first
      exact solidFront
    rw [List.nil_append, whole, hasContent_iff, trim_append_cons solid, visible,
      plain_append_iff ⟨c, starts, solidFront⟩ gap]
    have noDot {name : Text} (dotted : '.' ∈ name) :
        ¬ name <:+: front ∧ ¬ name <:+: d :: rest.rdropWhile isspace := by
      refine ⟨fun inside => absentFront dot (inside.subset dotted), fun inside => ?_⟩
      apply absentBack dot
      rcases List.mem_cons.mp (inside.subset dotted) with rfl | behind
      · exact List.mem_cons_self
      · exact List.mem_cons_of_mem d ((List.rdropWhile_prefix _ _).subset behind)
    refine ⟨?_, ?_, not_or.mpr (noDot (by decide))⟩
    · intro comment
      exact absentFront hash (List.mem_of_mem_head? comment)
    · intro directive
      exact (noDot (by decide)).1 (List.isPrefixOf_iff_prefix.mp directive).isInfix

/-- What is in front of the lines below: a label for every operand. -/
def zeroLabel : Text := "0:\n".toList

set_option maxRecDepth 10000 in
/-- Lines that fail when a tab replaces the space behind the mnemonic, or when
many spaces replace the one behind the third comma. -/
theorem assemble_mnemonics : ∀ op ∈ mnemonics,
    (assemble (zeroLabel ++ (op ++ " 0,0,0".toList))).isSome ∧
      assemble (zeroLabel ++ (op ++ "\t0,0,0".toList)) = none ∧
      (assemble (zeroLabel ++ (op ++ " 0,0,0, 0".toList))).isSome ∧
      assemble (zeroLabel ++ (op ++ " 0,0,0,".toList ++ List.replicate 40 ' ' ++ ['0'])) =
        none := by
  decide +kernel

theorem around_labels {labels : Text} (ends : ∃ front, labels = front ++ ['\n']) :
    Around labels [] := ⟨.inr ends, .inl rfl⟩

theorem unmarked_mnemonics : ∀ op ∈ mnemonics,
    (∃ c ∈ op.head?, isspace c = false) ∧ (∀ c ∈ op, c ∉ marks) ∧ op.length < 16 := by
  decide

variable {op : FirstWord} {front run run' back labels : Text} {spot : Spot}

/-- A spot is harmful when one line at it is accepted and the other is not. -/
theorem not_unchangedAt (placed : spot.At op front run run') (spaced : Spaced [] front run back)
    (nonempty : run' ≠ []) (blank : Blank run')
    (short : (front ++ run' ++ back).length < maxLine - 1)
    (ends : ∃ before, labels = before ++ ['\n'])
    (differ : (assemble (labels ++ (front ++ run' ++ back))).isSome ≠
      (assemble (labels ++ (front ++ run ++ back))).isSome) : ¬ UnchangedAt op spot := by
  intro unchanged
  have same := unchanged [] front run run' back placed spaced nonempty blank short labels []
    (around_labels ends)
  simp only [List.nil_append, List.append_nil] at same
  exact differ (congrArg Option.isSome same)

theorem spaced_of_known (known : KnownMnemonic op.text) {t : Text}
    (unmarked : ∀ c ∈ t ++ back, c ∉ marks) (token : ∃ d ∈ back.head?, isspace d = false)
    (nonempty : run ≠ []) (blank : Blank run) (short : (t ++ run ++ back).length < 80) :
    Spaced [] (op.text ++ t) run back := by
  obtain ⟨⟨c, first, solid⟩, clean, length⟩ := unmarked_mnemonics op.text (mem_mnemonics known)
  apply spaced_of_unmarked _ token
  · intro d member
    rw [List.append_assoc] at member
    rcases List.mem_append.mp member with inside | inside
    · exact clean d inside
    · exact unmarked d inside
  · exact gap_of_blank nonempty blank
  · exact blank.not_mem_newline
  · rw [List.length_append] at short
    simp only [List.length_append, maxLine] at short ⊢
    omega
  · refine ⟨c, ?_, solid⟩
    rw [List.head?_append, Option.mem_def.mp first]
    rfl

theorem not_unchangedAt_mnemonic (known : KnownMnemonic op.text) (spaced : Bool) :
    ¬ UnchangedAt op (.mnemonic spaced !spaced) := by
  obtain ⟨accepted, refused, _, _⟩ := assemble_mnemonics op.text (mem_mnemonics known)
  have line (g : Char) (blank : Blank [g]) : Spaced [] op.text [g] "0,0,0".toList := by
    have whole : Spaced [] (op.text ++ []) [g] "0,0,0".toList :=
      spaced_of_known known (by decide) ⟨'0', rfl, rfl⟩ (List.cons_ne_nil g []) blank
        (by simp)
    rwa [List.append_nil] at whole
  have space : Blank [' '] := by decide
  have tab : Blank ['\t'] := by decide
  have short (g : Char) : (op.text ++ [g] ++ "0,0,0".toList).length < maxLine - 1 := by
    have length := (unmarked_mnemonics op.text (mem_mnemonics known)).2.2
    simp [maxLine]
    omega
  have differ : (assemble (zeroLabel ++ (op.text ++ ['\t'] ++ "0,0,0".toList))).isSome ≠
      (assemble (zeroLabel ++ (op.text ++ [' '] ++ "0,0,0".toList))).isSome := by
    have tabbed : op.text ++ ['\t'] ++ "0,0,0".toList = op.text ++ "\t0,0,0".toList :=
      List.append_assoc op.text _ _
    have spaced : op.text ++ [' '] ++ "0,0,0".toList = op.text ++ " 0,0,0".toList :=
      List.append_assoc op.text _ _
    rw [tabbed, spaced, refused, accepted]
    decide
  have ends : ∃ before, zeroLabel = before ++ ['\n'] := ⟨"0:".toList, rfl⟩
  cases spaced with
  | false =>
      exact not_unchangedAt (.mnemonic ['\t'] [' ']) (line '\t' tab) (by decide) space (short ' ')
        ends differ.symm
  | true =>
      exact not_unchangedAt (.mnemonic [' '] ['\t']) (line ' ' space) (by decide) tab (short '\t')
        ends differ

theorem not_unchangedAt_later (known : KnownMnemonic op.text) : ¬ UnchangedAt op .later := by
  obtain ⟨_, _, single, many⟩ := assemble_mnemonics op.text (mem_mnemonics known)
  have line : Spaced [] (op.text ++ [' '] ++ "0,0,0".toList ++ [',']) [' '] ['0'] := by
    rw [List.append_assoc, List.append_assoc]
    exact spaced_of_known known (by decide) ⟨'0', rfl, rfl⟩ (by decide) (by decide) (by decide)
  have ends : ∃ before, zeroLabel = before ++ ['\n'] := ⟨"0:".toList, rfl⟩
  have blank : Gap [' '] := gap_of_blank (by decide) (by decide)
  apply not_unchangedAt (.operand "0,0,0".toList [' '] (List.replicate 40 ' ') blank) line
    (by decide) (by decide) _ ends
  · have shape : op.text ++ [' '] ++ "0,0,0".toList ++ [','] ++ [' '] ++ ['0'] =
        op.text ++ " 0,0,0, 0".toList := by
      simp
    have shape' : op.text ++ [' '] ++ "0,0,0".toList ++ [','] ++ List.replicate 40 ' ' ++ ['0'] =
        op.text ++ " 0,0,0,".toList ++ List.replicate 40 ' ' ++ ['0'] := by
      simp
    rw [shape, shape', many, single]
    decide
  · have length := (unmarked_mnemonics op.text (mem_mnemonics known)).2.2
    simp only [List.length_append, List.length_replicate, maxLine]
    simp
    omega

/-- The first pass keeps the rest of the line as the second operand of `li`: here
a label with a comma and one space in its name. -/
theorem not_unchangedAt_second (li : op.text = "li".toList) : ¬ UnchangedAt op .second := by
  have known : KnownMnemonic op.text := .inl (by rw [li]; rfl)
  have line : Spaced [] (op.text ++ [' '] ++ "a0,-".toList ++ [',']) [' '] ['0'] := by
    rw [List.append_assoc, List.append_assoc]
    exact spaced_of_known known (by decide) ⟨'0', rfl, rfl⟩ (by decide) (by decide) (by decide)
  have ends : ∃ before, "-:\n-, 0:\n".toList = before ++ ['\n'] := ⟨"-:\n-, 0:".toList, rfl⟩
  have blank : Gap [' '] := gap_of_blank (by decide) (by decide)
  apply not_unchangedAt (.operand "a0,-".toList [' '] [' ', ' '] blank) line (by decide)
    (by decide) _ ends
  · rw [li]
    decide +kernel
  · rw [li]
    decide

end Harmful

section Spacing

/-- What replaces a run of white space in an instruction changes nothing exactly
at the harmless spots, and the mnemonic is the same in both passes exactly when
it ends at a space. -/
theorem spacing_unchanged_iff (op : FirstWord) (spot : Spot) {i : Text} (stripped : Stripped i) :
    (UnchangedAt op spot ↔ (KnownMnemonic op.text → spot.Harmless op.text)) ∧
      (SameMnemonic i ↔ WordAtSpace i) := by
  refine ⟨⟨fun unchanged known => ?_, unchangedAt_of_harmless⟩, sameMnemonic_iff stripped⟩
  cases spot with
  | mnemonic spaced spaced' =>
      by_contra differ
      have other : spaced' = !spaced := Bool.eq_not.mpr (Ne.symm differ)
      rw [other] at unchanged
      exact not_unchangedAt_mnemonic known spaced unchanged
  | first => exact trivial
  | second => exact fun li => not_unchangedAt_second li unchanged
  | later => exact not_unchangedAt_later known unchanged

theorem spacing_unchanged_add :
    UnchangedAt ⟨"add".toList, by decide⟩ .second ∧ SameMnemonic "add a0,\ta1, a2".toList := by
  have stripped : Stripped "add a0,\ta1, a2".toList :=
    ⟨⟨by decide, by decide⟩, by decide, by decide⟩
  have word : WordAtSpace "add a0,\ta1, a2".toList :=
    ⟨by decide, by decide, fun before inside opening => by cases opening⟩
  obtain ⟨unchanged_iff, same_iff⟩ :=
    spacing_unchanged_iff ⟨"add".toList, by decide⟩ .second stripped
  exact ⟨unchanged_iff.mpr fun _ => by decide, same_iff.mpr word⟩

/-- A tab behind the mnemonic ends it in the first pass only. -/
theorem changed_by_tab :
    Around "main:\n".toList [] ∧ Spaced [] "j".toList [' '] "main".toList ∧ Blank ['\t'] ∧
      assemble ("main:\n".toList ++ ([] ++ "j".toList ++ ['\t'] ++ "main".toList) ++ []) ≠
        assemble ("main:\n".toList ++ ([] ++ "j".toList ++ [' '] ++ "main".toList) ++ []) ∧
      ¬ SameMnemonic "j\tmain".toList := by
  refine ⟨around_labels ⟨"main:".toList, rfl⟩, ?_, by decide, ?_, by decide⟩
  · exact spaced_of_unmarked ⟨'j', rfl, rfl⟩ ⟨'m', rfl, rfl⟩ (by decide)
      (gap_of_blank (by decide) (by decide)) (by decide) (by decide)
  · intro same
    have outcomes := congrArg Option.isSome same
    revert outcomes
    decide +kernel

end Spacing

end RiscvPack.Asm
