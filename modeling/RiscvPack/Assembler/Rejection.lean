import RiscvPack.Assembler.Canonical
import RiscvPack.Assembler.Lines

/-!
# Which instruction lines are refused

An operand is unfit when it is missing, names no register, or holds a value
that the field of the instruction cannot hold.  Nothing between the operand
texts and the encoders looks at this: a line is refused exactly when its
mnemonic is unknown or a name in it is not a label.
-/

namespace RiscvPack.Asm

open CString Runs

section Splitting

/-- `parse_instruction_args` with buffers of any size. -/
def splitArgs (s : Text) : Operands :=
  let temp := s.take (maxLine - 1)
  match strchr ' ' temp with
  | none => { Operands.blank with op := temp }
  | some (op, rest) =>
      let args := trim rest
      match strchr ',' args with
      | none => { Operands.blank with op, a1 := args }
      | some (a1, afterFirst) =>
          match strchr ',' afterFirst with
          | none => { Operands.blank with op, a1, a2 := trim afterFirst }
          | some (second, afterSecond) =>
              { op, a1, a2 := skipSpaces second, a3 := trim afterSecond }

/-- The rewriting of `offset(reg)` with buffers of any size. -/
def joinParens (line : Text) : Text :=
  match strchr '(' line with
  | none => line
  | some (before, inside) =>
      match strchr ')' inside with
      | none => line
      | some (reg, suffix) =>
          let inOffset (c : Char) : Bool := !isspace c && c ≠ ','
          (before.rdropWhile inOffset ++ before.rtakeWhile inOffset ++
            ',' :: reg ++ suffix).take (maxLine - 1)

/-- The mnemonic and the operands of an instruction line, however long. -/
def operandTexts (s : Text) : Operands :=
  let args := splitArgs
    (joinParens (trim ((s.take (maxLine - 1)).takeWhile (· ≠ '#'))))
  { op := args.op
    a1 := dropTrailingComma (trimInPlace args.a1)
    a2 := dropTrailingComma (trimInPlace args.a2)
    a3 := trimInPlace args.a3 }

/-- The result is `a` if every buffer is large enough. -/
def Bounded {α : Type} (x : Except Stop α) (a : α) : Prop :=
  x = .ok a ∨ x = .error .overflow

theorem Bounded.bind {α β : Type} {x : Except Stop α} {f : α → Except Stop β}
    {a : α} {b : β} (first : Bounded x a) (second : Bounded (f a) b) :
    Bounded (x >>= f) b := by
  rcases first with rfl | rfl
  · exact second
  · exact Or.inr rfl

theorem Bounded.ok {α : Type} (a : α) : Bounded (.ok a) a := Or.inl rfl

theorem bounded_storeText (size : Nat) (t : Text) :
    Bounded (storeText size t) t := by
  unfold storeText
  split
  · exact .ok t
  · exact Or.inr rfl

theorem bounded_parseInstructionArgs (s : Text) :
    Bounded (parseInstructionArgs s Operands.blank) (splitArgs s) := by
  unfold parseInstructionArgs splitArgs
  cases space : strchr ' ' (s.take (maxLine - 1)) with
  | none =>
      simp only [space]
      exact (bounded_storeText ..).bind (.ok _)
  | some found =>
      simp only [space]
      refine (bounded_storeText ..).bind ?_
      cases comma : strchr ',' (trim found.2) with
      | none =>
          simp only
          exact (bounded_storeText ..).bind (.ok _)
      | some first =>
          simp only
          refine (bounded_storeText ..).bind ?_
          cases other : strchr ',' first.2 with
          | none =>
              simp only
              exact (bounded_storeText ..).bind (.ok _)
          | some second =>
              simp only
              exact (bounded_storeText ..).bind ((bounded_storeText ..).bind (.ok _))

theorem joinParens_none {line : Text} (noParens : NoParens line) : joinParens line = line := by
  unfold joinParens
  cases opening : strchr '(' line with
  | none => rfl
  | some split =>
      obtain ⟨before, inside⟩ := split
      simp only [strchr_eq_none (noParens before inside opening)]

theorem joinParens_parens {before reg suffix : Text} (noOpen : '(' ∉ before)
    (noClose : ')' ∉ reg) :
    joinParens (before ++ '(' :: (reg ++ ')' :: suffix)) =
      (before ++ ',' :: (reg ++ suffix)).take (maxLine - 1) := by
  have whole : before.rdropWhile (fun c => !isspace c && decide (c ≠ ',')) ++
      before.rtakeWhile (fun c => !isspace c && decide (c ≠ ',')) = before :=
    List.rdropWhile_append_rtakeWhile
  simp only [joinParens, strchr_append noOpen, strchr_append noClose]
  rw [whole, List.append_assoc, List.cons_append]

theorem bounded_rewriteParens (line : Text) :
    Bounded (rewriteParens line) (joinParens line) := by
  rcases noParens_or_exists line with noParens | ⟨before, reg, suffix, rfl, noOpen, noClose⟩
  · rw [rewriteParens_none noParens, joinParens_none noParens]
    exact .ok line
  · rw [rewriteParens_parens noOpen noClose, joinParens_parens noOpen noClose]
    exact (bounded_storeText ..).bind ((bounded_storeText ..).bind (.ok _))

theorem bounded_readOperands (s : Text) :
    Bounded (readOperands s) (operandTexts s) :=
  (bounded_rewriteParens _).bind ((bounded_parseInstructionArgs _).bind (.ok _))

end Splitting

section Pieces

/-- An operand text as the front end leaves it. -/
structure Piece (t : Text) : Prop where
  noComma : ',' ∉ t
  noHash : '#' ∉ t
  trimmed : Trimmed t
  short : t.length < 32

theorem Piece.nil : Piece [] where
  noComma := by simp
  noHash := by simp
  trimmed := ⟨by simp, by simp⟩
  short := by decide

theorem Token.piece (t : Token) : Piece t.text where
  noComma := t.not_mem (by decide)
  noHash := t.not_mem (by decide)
  trimmed := t.trimmed
  short := t.short

theorem Piece.dropTrailingComma_eq {t : Text} (piece : Piece t) :
    dropTrailingComma t = t := by
  refine if_neg fun last => ?_
  exact piece.noComma (List.mem_of_mem_getLast? last)

/-- A stored operand, once its trailing white space is cut off. -/
theorem piece_trimInPlace {t : Text} (noComma : ',' ∉ t) (noHash : '#' ∉ t)
    (head : ∀ c ∈ t.head?, isspace c = false) (short : t.length < 32) :
    Piece (trimInPlace t) := by
  have noSpaces : t.takeWhile isspace = [] := by
    cases t with
    | nil => rfl
    | cons c t => simp [head c rfl]
  have cut : trimInPlace t = t.rdropWhile isspace := by
    rw [trimInPlace, noSpaces, List.nil_append, trim, skipSpaces_of_head head]
  have inside := List.rdropWhile_prefix isspace (l := t)
  rw [cut]
  exact ⟨fun member => noComma (inside.subset member),
    fun member => noHash (inside.subset member), trimmed_rdropWhile head,
    inside.length_le.trans_lt short⟩

theorem pieces_of_parse {s : Text} {args : Operands} (noHash : '#' ∉ s)
    (parsed : parseInstructionArgs s Operands.blank = .ok args) :
    Piece (trimInPlace args.a1) ∧ Piece (trimInPlace args.a2) := by
  have empty : Piece (trimInPlace []) := Piece.nil
  unfold parseInstructionArgs at parsed
  simp only at parsed
  split at parsed
  · obtain ⟨op, _, result⟩ := bind_eq_ok.mp parsed
    cases result
    exact ⟨empty, empty⟩
  rename_i opText rest space
  obtain ⟨op, _, parsed⟩ := bind_eq_ok.mp parsed
  have noHashRest : '#' ∉ trim rest := by
    intro member
    apply noHash
    apply List.mem_of_mem_take
    rw [(eq_append_of_strchr space).1]
    exact List.mem_append_right _ (List.mem_cons_of_mem _ (mem_of_mem_trim member))
  have headRest := (trimmed_trim rest).head
  split at parsed
  · rename_i noComma
    obtain ⟨a1, stored, result⟩ := bind_eq_ok.mp parsed
    obtain ⟨short, rfl⟩ := storeText_eq_ok stored
    cases result
    exact ⟨piece_trimInPlace (not_mem_of_strchr_eq_none noComma) noHashRest
      headRest short, empty⟩
  rename_i first afterFirst comma
  obtain ⟨split, noComma⟩ := eq_append_of_strchr comma
  rw [split] at noHashRest headRest
  rw [List.mem_append, List.mem_cons, not_or, not_or] at noHashRest
  obtain ⟨a1, stored, others⟩ := bind_eq_ok.mp parsed
  clear parsed
  obtain ⟨short, rfl⟩ := storeText_eq_ok stored
  have headFirst : ∀ c ∈ a1.head?, isspace c = false := by
    intro c head
    apply headRest
    rw [List.head?_append, Option.mem_def.mp head]
    rfl
  have one := piece_trimInPlace noComma noHashRest.1 headFirst short
  split at others
  · rename_i noOther
    obtain ⟨a2, stored, result⟩ := bind_eq_ok.mp others
    obtain ⟨short, rfl⟩ := storeText_eq_ok stored
    cases result
    refine ⟨one, piece_trimInPlace ?_ ?_ (trimmed_trim _).head short⟩
    · exact fun member =>
        not_mem_of_strchr_eq_none noOther (mem_of_mem_trim member)
    · exact fun member => noHashRest.2.2 (mem_of_mem_trim member)
  · rename_i second afterSecond other
    obtain ⟨split, noOther⟩ := eq_append_of_strchr other
    obtain ⟨a2, stored, last⟩ := bind_eq_ok.mp others
    obtain ⟨a3, _, result⟩ := bind_eq_ok.mp last
    obtain ⟨short, rfl⟩ := storeText_eq_ok stored
    cases result
    refine ⟨one, piece_trimInPlace ?_ ?_ (head_skipSpaces _) short⟩
    · exact fun member => noOther (mem_of_mem_skipSpaces member)
    · intro member
      apply noHashRest.2.2
      rw [split]
      exact List.mem_append_left _ (mem_of_mem_skipSpaces member)

theorem not_hash_of_rewriteParens {line processed : Text} (noHash : '#' ∉ line)
    (rewritten : rewriteParens line = .ok processed) : '#' ∉ processed := by
  rcases rewritten_cases rewritten with rfl | ⟨before, reg, suffix, rfl, rfl⟩
  · exact noHash
  · intro member
    apply noHash
    have member := List.mem_of_mem_take member
    simp only [List.mem_append, List.mem_cons] at member ⊢
    rcases member with inside | comma | inside | inside
    · exact .inl inside
    · exact absurd comma (by decide)
    · exact .inr (.inr (.inl inside))
    · exact .inr (.inr (.inr (.inr inside)))

/-- The operands that an expansion is built from. -/
theorem pieces_of_readOperands {s : Text} {args : Operands}
    (read : readOperands s = .ok args) : Piece args.a1 ∧ Piece args.a2 := by
  obtain ⟨processed, rewritten, read⟩ := bind_eq_ok.mp read
  obtain ⟨stored, parsed, result⟩ := bind_eq_ok.mp read
  cases result
  have noHash : '#' ∉ trim ((s.take (maxLine - 1)).takeWhile (· ≠ '#')) := by
    intro member
    have kept := List.mem_takeWhile_imp (mem_of_mem_trim member)
    revert kept
    decide
  obtain ⟨one, two⟩ :=
    pieces_of_parse (not_hash_of_rewriteParens noHash rewritten) parsed
  constructor
  · show Piece (dropTrailingComma (trimInPlace stored.a1))
    rw [one.dropTrailingComma_eq]
    exact one
  · show Piece (dropTrailingComma (trimInPlace stored.a2))
    rw [two.dropTrailingComma_eq]
    exact two

end Pieces

section Names

variable {labels : List Label} {t : Text}

/-- A text that `parse_imm` looks up among the labels, without success. -/
def Unresolved (labels : List Label) (t : Text) : Prop :=
  t ≠ [] ∧ startsHex t = false ∧ startsDecimal t = false ∧
    ∀ label ∈ labels, label.name ≠ t

theorem findLabel_of_missing (missing : ∀ label ∈ labels, label.name ≠ t) :
    findLabel labels t = .error (.exit ("Undefined label: ".toList ++ t)) := by
  have none : labels.find? (·.name = t) = none := by
    rw [List.find?_eq_none]
    simpa using missing
  simp only [findLabel, none]

theorem findLabel_of_mem {label : Label} (member : label ∈ labels)
    (named : label.name = t) : ∃ a, findLabel labels t = .ok a := by
  have found : (labels.find? (·.name = t)).isSome := by
    rw [List.find?_isSome]
    exact ⟨label, member, by simpa using named⟩
  obtain ⟨first, here⟩ := Option.isSome_iff_exists.mp found
  exact ⟨first.addr, by simp only [findLabel, here]⟩

theorem parseImm_of_unresolved (unresolved : Unresolved labels t) :
    parseImm labels t = .error (.exit ("Undefined label: ".toList ++ t)) := by
  obtain ⟨nonempty, notHex, notDecimal, missing⟩ := unresolved
  simp only [parseImm, if_neg nonempty, notHex, notDecimal, Bool.false_eq_true,
    if_false]
  exact findLabel_of_missing missing

theorem parseImm_of_resolved (resolved : ¬ Unresolved labels t) :
    ∃ imm, parseImm labels t = .ok imm := by
  unfold parseImm
  split
  · exact ⟨_, rfl⟩
  rename_i nonempty
  split
  · exact ⟨_, rfl⟩
  rename_i notHex
  split
  · exact ⟨_, rfl⟩
  rename_i notDecimal
  have present : ∃ label ∈ labels, label.name = t := by
    by_contra missing
    push Not at missing
    exact resolved ⟨nonempty, by simpa using notHex, by simpa using notDecimal,
      missing⟩
  obtain ⟨label, member, named⟩ := present
  exact findLabel_of_mem member named

end Names

section Encoders

/-- The operand that an encoder reads with `parse_imm`. -/
def Encoding.immText (e : Encoding) (args : Operands) : Option Text :=
  match e with
  | .r _ _ | .system _ => none
  | .i _ | .shift _ _ | .branch _ | .jalr => some args.a3
  | .load _ | .store _ | .jal | .upper _ => some args.a2

variable {labels : List Label} {pc : Word} {args : Operands} {e : Encoding}

theorem encodeInstruction_of_unresolved (pc : Word)
    (known : encodings.lookup args.op = some e) {t : Text}
    (reads : e.immText args = some t) (unresolved : Unresolved labels t) :
    ∃ message, encodeInstruction labels pc args = .error (.exit message) := by
  have stops := parseImm_of_unresolved unresolved
  unfold encodeInstruction
  rw [known]
  cases e <;> cases reads <;> simp only [stops] <;> exact ⟨_, rfl⟩

theorem encodeInstruction_of_resolved (pc : Word)
    (known : encodings.lookup args.op = some e)
    (resolved : ∀ t ∈ e.immText args, ¬ Unresolved labels t) :
    ∃ word, encodeInstruction labels pc args = .ok word := by
  unfold encodeInstruction
  rw [known]
  cases e with
  | r | system => exact ⟨_, rfl⟩
  | i | shift | branch | jalr =>
      obtain ⟨imm, parsed⟩ := parseImm_of_resolved (resolved args.a3 rfl)
      simp only [parsed]
      exact ⟨_, rfl⟩
  | load | store | jal | upper =>
      obtain ⟨imm, parsed⟩ := parseImm_of_resolved (resolved args.a2 rfl)
      simp only [parsed]
      exact ⟨_, rfl⟩

theorem emitInstruction_of_resolved {st : Pass2}
    (known : encodings.lookup args.op = some e)
    (resolved : ∀ t ∈ e.immText args, ¬ Unresolved labels t) :
    ∃ st', emitInstruction labels st args = .done st' := by
  obtain ⟨word, encoded⟩ :=
    encodeInstruction_of_resolved st.pc known resolved
  simp only [emitInstruction, encoded]
  exact ⟨_, rfl⟩

end Encoders

section Expansions

variable {op x y z : Text}

/-- A mnemonic as the expansions print it. -/
structure Printed (op : Text) : Prop where
  noSpace : ' ' ∉ op
  noHash : '#' ∉ op
  short : op.length < 16

theorem readExpanded_two (printed : Printed op) (first : Piece x)
    (second : Piece y) :
    readExpanded (snprintf (op ++ ' ' :: (x ++ ',' :: ' ' :: y))) =
      .ok { op, a1 := x, a2 := y, a3 := [] } := by
  have shortOp := printed.short
  have shortX := first.short
  have shortY := second.short
  have length : (op ++ ' ' :: (x ++ ',' :: ' ' :: y)).length < maxLine := by
    simp only [List.length_append, List.length_cons]
    rw [maxLine]
    omega
  have whole : (op ++ ' ' :: (x ++ ',' :: ' ' :: y)).takeWhile (· ≠ '#') =
      op ++ ' ' :: (x ++ ',' :: ' ' :: y) := by
    apply takeWhile_ne_self
    simp [printed.noHash, first.noHash, second.noHash]
  have noOther : ',' ∉ ' ' :: y := by simp [second.noComma]
  have trimY : trim (' ' :: y) = y := trim_of_trimmed second.trimmed
  rw [readExpanded, snprintf, List.take_of_length_le (by omega), whole,
    parseInstructionArgs_two _ printed.noSpace first.noComma noOther length,
    skipSpaces_of_head first.trimmed.head, trimY,
    storeText_of_lt printed.short, storeText_of_lt first.short,
    storeText_of_lt second.short]
  refine congrArg Except.ok ?_
  show Operands.mk op (trimInPlace x) (trimInPlace y) [] = _
  rw [trimInPlace_of_trimmed first.trimmed, trimInPlace_of_trimmed second.trimmed]

theorem readExpanded_three (printed : Printed op) (first : Piece x)
    (second : Piece y) (third : Piece z) :
    readExpanded (snprintf
        (op ++ ' ' :: (x ++ ',' :: (' ' :: y ++ ',' :: ' ' :: z)))) =
      .ok { op, a1 := x, a2 := y, a3 := z } := by
  have shortOp := printed.short
  have shortX := first.short
  have shortY := second.short
  have shortZ := third.short
  have length :
      (op ++ ' ' :: (x ++ ',' :: (' ' :: y ++ ',' :: ' ' :: z))).length <
        maxLine := by
    simp only [List.length_append, List.length_cons]
    rw [maxLine]
    omega
  have whole :
      (op ++ ' ' :: (x ++ ',' :: (' ' :: y ++ ',' :: ' ' :: z))).takeWhile
          (· ≠ '#') =
        op ++ ' ' :: (x ++ ',' :: (' ' :: y ++ ',' :: ' ' :: z)) := by
    apply takeWhile_ne_self
    simp [printed.noHash, first.noHash, second.noHash, third.noHash]
  have noOther : ',' ∉ ' ' :: y := by simp [second.noComma]
  have trimZ : trim (' ' :: z) = z := trim_of_trimmed third.trimmed
  have skipY : skipSpaces (' ' :: y) = y := skipSpaces_of_head second.trimmed.head
  rw [readExpanded, snprintf, List.take_of_length_le (by omega), whole,
    parseInstructionArgs_three _ printed.noSpace first.noComma noOther length,
    skipSpaces_of_head first.trimmed.head, skipY, trimZ,
    storeText_of_lt printed.short, storeText_of_lt first.short,
    storeText_of_lt second.short, storeText_of_lt third.short]
  refine congrArg Except.ok ?_
  show Operands.mk op (trimInPlace x) (trimInPlace y) (trimInPlace z) = _
  rw [trimInPlace_of_trimmed first.trimmed, trimInPlace_of_trimmed second.trimmed,
    trimInPlace_of_trimmed third.trimmed]

variable {labels : List Label} {st : Pass2}

theorem parseImm_printInt (labels : List Label) (value : Word) :
    parseImm labels (printInt value.toInt) = .ok value := by
  have lower := BitVec.le_toInt value
  have upper := BitVec.toInt_lt (x := value)
  have parsed := parseImm_number labels (.ofWord value : Number)
    (by show _ ≤ value.toInt; omega) (by show value.toInt < _; omega)
  have same : BitVec.ofInt 32 (.ofWord value : Number).value = value := BitVec.ofInt_toInt
  rwa [same] at parsed

theorem piece_printInt (value : Word) : Piece (printInt value.toInt) :=
  (.ofWord value : Number).token.piece

theorem emitExpanded_addi (labels : List Label) (st : Pass2) (first : Piece x)
    (second : Piece y) (value : Word) :
    emitExpanded labels st (snprintf
        ("addi ".toList ++ x ++ ", ".toList ++ y ++ ", ".toList ++
          printInt value.toInt)) =
      .done (st.emit (Bits.leBytes
        (encodeI value (regField y) 0 (regField x) 0x13))) := by
  have printed : Printed "addi".toList := ⟨by decide, by decide, by decide⟩
  have read := readExpanded_three printed first second (piece_printInt value)
  have known : encodings.lookup "addi".toList = some (.i 0) := rfl
  have encoded : encodeInstruction labels st.pc
      ⟨"addi".toList, x, y, printInt value.toInt⟩ =
      .ok (encodeI value (regField y) 0 (regField x) 0x13) := by
    simp only [encodeInstruction, known, parseImm_printInt]
    rfl
  have text : "addi ".toList ++ x ++ ", ".toList ++ y ++ ", ".toList ++
      printInt value.toInt = "addi".toList ++ ' ' ::
        (x ++ ',' :: (' ' :: y ++ ',' :: ' ' :: printInt value.toInt)) := by
    simp
  rw [text]
  unfold emitExpanded
  rw [read]
  simp only [emitInstruction, encoded]

theorem emitExpanded_upper (labels : List Label) (st : Pass2) {opcode : Word}
    (printed : Printed op) (known : encodings.lookup op = some (.upper opcode))
    (first : Piece x) (value : Word) :
    emitExpanded labels st (snprintf
        (op ++ " ".toList ++ x ++ ", ".toList ++ printInt value.toInt)) =
      .done (st.emit (Bits.leBytes
        (encodeU (value <<< 12) (regField x) opcode))) := by
  have read := readExpanded_two printed first (piece_printInt value)
  have encoded : encodeInstruction labels st.pc ⟨op, x, printInt value.toInt, []⟩ =
      .ok (encodeU (value <<< 12) (regField x) opcode) := by
    simp only [encodeInstruction, known, parseImm_printInt]
    rfl
  have text : op ++ " ".toList ++ x ++ ", ".toList ++ printInt value.toInt =
      op ++ ' ' :: (x ++ ',' :: ' ' :: printInt value.toInt) := by
    simp
  rw [text]
  unfold emitExpanded
  rw [read]
  simp only [emitInstruction, encoded]

theorem emitExpanded_jal {target : Word} (first : Piece x) (second : Piece y)
    (parsed : parseImm labels y = .ok target) (st : Pass2) :
    emitExpanded labels st (snprintf ("jal ".toList ++ x ++ ", ".toList ++ y)) =
      .done (st.emit (Bits.leBytes
        (encodeJ (target - st.pc) (regField x) 0x6F))) := by
  have printed : Printed "jal".toList := ⟨by decide, by decide, by decide⟩
  have read := readExpanded_two printed first second
  have known : encodings.lookup "jal".toList = some .jal := rfl
  have encoded : encodeInstruction labels st.pc ⟨"jal".toList, x, y, []⟩ =
      .ok (encodeJ (target - st.pc) (regField x) 0x6F) := by
    simp only [encodeInstruction, known, parsed]
    rfl
  have text : "jal ".toList ++ x ++ ", ".toList ++ y =
      "jal".toList ++ ' ' :: (x ++ ',' :: ' ' :: y) := by
    simp
  rw [text]
  unfold emitExpanded
  rw [read]
  simp only [emitInstruction, encoded]

theorem emitExpanded_ret (labels : List Label) (st : Pass2) :
    emitExpanded labels st (snprintf "jalr x0, x1, 0".toList) =
      .done (st.emit (Bits.leBytes (encodeI 0 1 0 0 0x67))) := by
  have read : readExpanded (snprintf "jalr x0, x1, 0".toList) =
      .ok ⟨"jalr".toList, "x0".toList, "x1".toList, "0".toList⟩ := by
    decide +kernel
  unfold emitExpanded
  rw [read]
  rfl

private theorem emits_one_line {line : Text} {st' : Pass2}
    (emitted : emitExpanded labels st line = .done st') :
    ∃ st', run (emitExpanded labels) st [line] = .done st' :=
  ⟨st', run_cons_eq_done.mpr ⟨st', emitted, rfl⟩⟩

private theorem emits_two_lines {line line' : Text} {middle st' : Pass2}
    (first : emitExpanded labels st line = .done middle)
    (second : emitExpanded labels middle line' = .done st') :
    ∃ st', run (emitExpanded labels) st [line, line'] = .done st' := by
  obtain ⟨final, last⟩ := emits_one_line second
  exact ⟨final, run_cons_eq_done.mpr ⟨middle, first, last⟩⟩

theorem piece_register (n : Reg) :
    Piece (RegName.token ⟨_, n, .numbered n⟩ : Token).text :=
  Token.piece _

theorem emits_expansion {op : Pseudo} {a1 a2 : Text} {expanded : List Text}
    {pc : Word} (first : Piece a1) (second : Piece a2)
    (resolved : op = .call ∨ op = .j → ¬ Unresolved labels a1)
    (expands : expandPseudoinstruction labels op a1 a2 pc = .ok expanded) :
    ∃ st', run (emitExpanded labels) st expanded = .done st' := by
  have x0 : Piece "x0".toList := piece_register 0
  have x1 : Piece "x1".toList := piece_register 1
  have lui : Printed "lui".toList := ⟨by decide, by decide, by decide⟩
  have auipc : Printed "auipc".toList := ⟨by decide, by decide, by decide⟩
  cases op with
  | nop =>
      cases expands
      exact emits_one_line (emitExpanded_addi labels st x0 x0 0)
  | mv =>
      cases expands
      have zero : ", 0".toList = ", ".toList ++ printInt (0 : Word).toInt := rfl
      rw [zero, ← List.append_assoc]
      exact emits_one_line (emitExpanded_addi labels st first second 0)
  | li =>
      obtain ⟨imm, _, expands⟩ := bind_eq_ok.mp expands
      have shape : ", x0, ".toList = ", ".toList ++ "x0".toList ++ ", ".toList := rfl
      split at expands
      · cases expands
        rw [shape, ← List.append_assoc, ← List.append_assoc]
        exact emits_one_line (emitExpanded_addi labels st first x0 imm)
      · cases expands
        exact emits_two_lines (emitExpanded_upper labels st lui rfl first (hi20 imm))
          (emitExpanded_addi labels _ first first (lo12 imm))
  | la =>
      obtain ⟨targetAddr, _, expands⟩ := bind_eq_ok.mp expands
      cases expands
      exact emits_two_lines (emitExpanded_upper labels st auipc rfl first _)
        (emitExpanded_addi labels _ first first _)
  | call =>
      cases expands
      obtain ⟨target, parsed⟩ := parseImm_of_resolved (resolved (.inl rfl))
      exact emits_one_line (emitExpanded_jal x1 first parsed st)
  | ret =>
      cases expands
      exact emits_one_line (emitExpanded_ret labels st)
  | j =>
      cases expands
      obtain ⟨target, parsed⟩ := parseImm_of_resolved (resolved (.inr rfl))
      exact emits_one_line (emitExpanded_jal x0 first parsed st)

end Expansions

section Lines

/-- What an instruction expects of an operand. -/
inductive Role where
  | register
  /-- Any number or label: shift amounts and constants to load. -/
  | value
  | imm12
  | imm20
  /-- The target of a branch. -/
  | near
  /-- The target of a jump. -/
  | far
  deriving DecidableEq, Repr

def Encoding.roles (e : Encoding) (args : Operands) : List (Role × Text) :=
  match e with
  | .r _ _ => [(.register, args.a1), (.register, args.a2), (.register, args.a3)]
  | .i _ | .jalr =>
      [(.register, args.a1), (.register, args.a2), (.imm12, args.a3)]
  | .shift _ _ => [(.register, args.a1), (.register, args.a2), (.value, args.a3)]
  | .load _ | .store _ =>
      [(.register, args.a1), (.imm12, args.a2), (.register, args.a3)]
  | .branch _ => [(.register, args.a1), (.register, args.a2), (.near, args.a3)]
  | .jal => [(.register, args.a1), (.far, args.a2)]
  | .upper _ => [(.register, args.a1), (.imm20, args.a2)]
  | .system _ => []

def Pseudo.roles (op : Pseudo) (args : Operands) : List (Role × Text) :=
  match op with
  | .nop | .ret => []
  | .mv => [(.register, args.a1), (.register, args.a2)]
  | .li | .la => [(.register, args.a1), (.value, args.a2)]
  | .call | .j => [(.far, args.a1)]

def Operands.roles (args : Operands) : List (Role × Text) :=
  match Pseudo.ofText args.op with
  | some op => op.roles args
  | none =>
      match encodings.lookup args.op with
      | some e => e.roles args
      | none => []

/-- The number a text denotes: a numeral, or the address of a label. -/
def immValue (labels : List Label) (t : Text) : Option Int :=
  if startsHex t then some (strtol 16 t).1
  else if startsDecimal t then some (strtol 10 t).1
  else (labels.find? (·.name = t)).map (·.addr.toInt)

/-- The operand does not fit: it is missing, is no register, or its value is
out of range for the field, counted from `pc` for a target. -/
def Role.Unfit (labels : List Label) (pc : Word) (role : Role) (t : Text) : Prop :=
  t = [] ∨
    match role with
    | .register => regNum t = -1
    | .value => False
    | .imm12 => ∃ v ∈ immValue labels t, ¬ (-2048 ≤ v ∧ v ≤ 2047)
    | .imm20 => ∃ v ∈ immValue labels t, ¬ (-524288 ≤ v ∧ v ≤ 1048575)
    | .near => ∃ v ∈ immValue labels t,
        let offset := (BitVec.ofInt 32 v - pc).toInt
        ¬ (offset % 2 = 0 ∧ -4096 ≤ offset ∧ offset ≤ 4094)
    | .far => ∃ v ∈ immValue labels t,
        let offset := (BitVec.ofInt 32 v - pc).toInt
        ¬ (offset % 2 = 0 ∧ -2 ^ 20 ≤ offset ∧ offset ≤ 2 ^ 20 - 2)

/-- Some operand does not fit. -/
def Operands.Unfit (labels : List Label) (pc : Word) (args : Operands) : Prop :=
  ∃ operand ∈ args.roles, operand.1.Unfit labels pc operand.2

/-- The mnemonic is unknown, or a name stands where a number or a label is
expected and no label has it. -/
def Operands.Undefined (labels : List Label) (args : Operands) : Prop :=
  match Pseudo.ofText args.op with
  | some .nop | some .mv | some .ret => False
  | some .li => Unresolved labels args.a2
  | some .la => ∀ label ∈ labels, label.name ≠ args.a2
  | some .call | some .j => Unresolved labels args.a1
  | none =>
      match encodings.lookup args.op with
      | some e => ∃ t ∈ e.immText args, Unresolved labels t
      | none => True

/-- The pass ends with an error message, and nothing was written. -/
def Rejected (st : Pass2) (outcome : Outcome Stop Pass2) : Prop :=
  ∃ message st', outcome = .stopped (.exit message) st' ∧ st'.out = st.out

variable {labels : List Label} {st : Pass2} {s : Text} {args : Operands}

private theorem stops_jal {x y : Text} (first : Piece x) (second : Piece y)
    (unresolved : Unresolved labels y) :
    ∃ message, run (emitExpanded labels) st
        [snprintf ("jal ".toList ++ x ++ ", ".toList ++ y)] =
      .stopped (.exit message) st := by
  have printed : Printed "jal".toList := ⟨by decide, by decide, by decide⟩
  have known : encodings.lookup "jal".toList = some .jal := rfl
  have read := readExpanded_two printed first second
  obtain ⟨message, stops⟩ : ∃ message,
      encodeInstruction labels st.pc ⟨"jal".toList, x, y, []⟩ =
        .error (.exit message) :=
    encodeInstruction_of_unresolved st.pc known rfl unresolved
  have text : "jal ".toList ++ x ++ ", ".toList ++ y =
      "jal".toList ++ ' ' :: (x ++ ',' :: ' ' :: y) := by simp
  refine ⟨message, ?_⟩
  rw [run_cons, text]
  unfold emitExpanded
  rw [read]
  simp only [emitInstruction, stops]
  rfl

theorem processInstruction_of_undefined (st : Pass2) (read : readOperands s = .ok args)
    (undefined : args.Undefined labels) :
    ∃ message, processInstructionSecondPass labels st s =
      .stopped (.exit message) st := by
  obtain ⟨first, second⟩ := pieces_of_readOperands read
  have x0 : Piece "x0".toList := piece_register 0
  have x1 : Piece "x1".toList := piece_register 1
  unfold processInstructionSecondPass
  unfold Operands.Undefined at undefined
  rw [read]
  simp only
  cases pseudo : Pseudo.ofText args.op with
  | none =>
      simp only [pseudo] at undefined ⊢
      cases known : encodings.lookup args.op with
      | none =>
          refine ⟨"Unknown instruction: ".toList ++ args.op, ?_⟩
          simp only [emitInstruction, encodeInstruction, known]
      | some e =>
          simp only [known] at undefined
          obtain ⟨t, reads, unresolved⟩ := undefined
          obtain ⟨message, stops⟩ :=
            encodeInstruction_of_unresolved st.pc known reads unresolved
          refine ⟨message, ?_⟩
          simp only [emitInstruction, stops]
  | some op =>
      simp only [pseudo] at undefined ⊢
      cases op with
      | nop | mv | ret => cases undefined
      | li =>
          have stops := parseImm_of_unresolved undefined
          refine ⟨"Undefined label: ".toList ++ args.a2, ?_⟩
          simp only [expandPseudoinstruction, stops]
          rfl
      | la =>
          have stops := findLabel_of_missing undefined
          refine ⟨"Undefined label: ".toList ++ args.a2, ?_⟩
          simp only [expandPseudoinstruction, stops]
          rfl
      | call =>
          have unresolved : Unresolved labels args.a1 := undefined
          have jump : "jal x1, ".toList = "jal ".toList ++ "x1".toList ++ ", ".toList :=
            rfl
          simp only [expandPseudoinstruction, jump]
          exact stops_jal x1 first unresolved
      | j =>
          have unresolved : Unresolved labels args.a1 := undefined
          have jump : "jal x0, ".toList = "jal ".toList ++ "x0".toList ++ ", ".toList :=
            rfl
          simp only [expandPseudoinstruction, jump]
          exact stops_jal x0 first unresolved

theorem processInstruction_of_defined (st : Pass2) (read : readOperands s = .ok args)
    (defined : ¬ args.Undefined labels) :
    ∃ st', processInstructionSecondPass labels st s = .done st' := by
  obtain ⟨first, second⟩ := pieces_of_readOperands read
  unfold processInstructionSecondPass
  unfold Operands.Undefined at defined
  rw [read]
  simp only
  cases pseudo : Pseudo.ofText args.op with
  | none =>
      simp only [pseudo] at defined ⊢
      cases known : encodings.lookup args.op with
      | none =>
          simp only [known, not_true_eq_false] at defined
      | some e =>
          simp only [known] at defined
          push Not at defined
          exact emitInstruction_of_resolved known defined
  | some op =>
      simp only [pseudo] at defined ⊢
      have expands : ∃ expanded,
          expandPseudoinstruction labels op args.a1 args.a2 st.pc = .ok expanded := by
        cases op with
        | nop | mv | call | ret | j => exact ⟨_, rfl⟩
        | li =>
            obtain ⟨imm, parsed⟩ := parseImm_of_resolved defined
            simp only [expandPseudoinstruction, parsed]
            by_cases small : fitsImm12 imm
            · exact ⟨_, if_pos small⟩
            · exact ⟨_, if_neg small⟩
        | la =>
            push Not at defined
            obtain ⟨label, member, named⟩ := defined
            obtain ⟨a, found⟩ := findLabel_of_mem member named
            simp only [expandPseudoinstruction, found]
            exact ⟨_, rfl⟩
      obtain ⟨expanded, expands⟩ := expands
      have resolved : op = .call ∨ op = .j → ¬ Unresolved labels args.a1 := by
        rintro (rfl | rfl)
        · exact defined
        · exact defined
      simp only [expands]
      exact emits_expansion first second resolved expands

/-- A line is rejected exactly when its operands fit the buffers and something
in it is undefined. -/
theorem rejected_iff (labels : List Label) (st : Pass2) (s : Text) :
    Rejected st (processInstructionSecondPass labels st s) ↔
      (readOperands s).isOk ∧ (operandTexts s).Undefined labels := by
  rcases bounded_readOperands s with read | read
  · constructor
    · rintro ⟨message, st', stops, _⟩
      refine ⟨by rw [read]; rfl, ?_⟩
      by_contra defined
      obtain ⟨final, finished⟩ := processInstruction_of_defined st read defined
      rw [finished] at stops
      cases stops
    · rintro ⟨_, undefined⟩
      obtain ⟨message, stops⟩ := processInstruction_of_undefined st read undefined
      exact ⟨message, st, stops, rfl⟩
  · constructor
    · rintro ⟨message, st', stops, _⟩
      simp only [processInstructionSecondPass, read] at stops
      cases stops
    · rintro ⟨fits, _⟩
      rw [read] at fits
      cases fits

/-- A line whose content is an instruction, in a text section. -/
structure InstructionLine (asm : Assembler) (st : Pass2) (line s : Text) : Prop where
  content : ∃ c, SourceLine.read line = .content c ∧ contentItem c = some s
  plain : s.head? ≠ some '.'
  text : ∃ sec ∈ asm.sections.find? st.currentSectionName, sec.type = .text

theorem secondPassLine_instruction {asm : Assembler} {line : Text}
    (instruction : InstructionLine asm st line s) :
    secondPassLine asm st line = processInstructionSecondPass asm.labels st s := by
  obtain ⟨c, content, item⟩ := instruction.content
  obtain ⟨sec, found, type⟩ := instruction.text
  have found : asm.sections.find? st.currentSectionName = some sec := found
  have processed : secondPassContent asm st c = secondPassItem asm st s := by
    rw [secondPassContent_eq, item]
  rw [secondPassLine_eq, content]
  show secondPassContent asm st c = _
  rw [processed]
  unfold secondPassItem
  rw [if_neg instruction.plain, found]
  simp only [Option.map_some, Option.getD_some, if_pos type]

/-- An instruction line with an unfit operand is rejected exactly when its
operands fit the buffers and its mnemonic or a name in it is undefined. -/
theorem rejects_unfit_iff {asm : Assembler} {line : Text}
    (instruction : InstructionLine asm st line s) :
    ((operandTexts s).Unfit asm.labels st.pc →
        Rejected st (secondPassLine asm st line)) ↔
      ((operandTexts s).Unfit asm.labels st.pc →
        (readOperands s).isOk ∧ (operandTexts s).Undefined asm.labels) := by
  rw [secondPassLine_instruction instruction, rejected_iff]

/-- A branch to a name that is no label, without a second register. -/
theorem rejects_unfit_iff_beq :
    let line : Text := "beq a0, , nowhere\n".toList
    let args : Operands := ⟨"beq".toList, "a0".toList, [], "nowhere".toList⟩
    operandTexts (trim line) = args ∧ args.Unfit Assembler.init.labels Pass2.init.pc ∧
      Rejected Pass2.init (secondPassLine Assembler.init Pass2.init line) := by
  intro line args
  have instruction :
      InstructionLine Assembler.init Pass2.init line (trim line) :=
    ⟨⟨trim line, by decide +kernel, by decide +kernel⟩, by decide +kernel,
      by decide +kernel⟩
  have fits : (readOperands (trim line)).isOk := by decide +kernel
  have texts : operandTexts (trim line) = args := by decide +kernel
  have missing : Unresolved Assembler.init.labels "nowhere".toList :=
    ⟨by decide, by decide, by decide, by simp [Assembler.init]⟩
  have undefined : args.Undefined Assembler.init.labels :=
    ⟨"nowhere".toList, rfl, missing⟩
  have unfit : args.Unfit Assembler.init.labels Pass2.init.pc :=
    ⟨(.register, []), by decide, .inl rfl⟩
  have rejects := (rejects_unfit_iff instruction).mpr
  rw [texts] at rejects
  exact ⟨texts, unfit, rejects (fun _ => ⟨fits, undefined⟩) unfit⟩

/-- An immediate that twelve bits cannot hold is written all the same. -/
theorem not_rejected_addi_5000 :
    let line : Text := "addi a0, a0, 5000\n".toList
    InstructionLine Assembler.init Pass2.init line (trim line) ∧
      (operandTexts (trim line)).Unfit [] 0 ∧
      ¬ Rejected Pass2.init (secondPassLine Assembler.init Pass2.init line) := by
  intro line
  refine ⟨⟨⟨trim line, by decide +kernel, by decide +kernel⟩, by decide +kernel,
    by decide +kernel⟩, ⟨(.imm12, "5000".toList), by decide +kernel, .inr ?_⟩, ?_⟩
  · exact ⟨5000, by decide +kernel, by decide⟩
  · rintro ⟨message, st', stops, _⟩
    have written : secondPassLine Assembler.init Pass2.init line =
        .done (Pass2.init.emit [0x13, 0x05, 0x85, 0x38]) := by
      decide +kernel
    rw [written] at stops
    cases stops

end Lines

end RiscvPack.Asm
