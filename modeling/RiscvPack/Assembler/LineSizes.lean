import RiscvPack.Assembler.DirectiveSizes
import RiscvPack.Assembler.ListTexts

/-!
# The two passes count alike

The first pass predicts the size of a line with parsers of its own.  On
instruction lines whose `li` loads a numeral, and on lists of numerals, the
prediction is the number of bytes the second pass writes.
-/

namespace RiscvPack.Asm

open CString Runs

section Lists

/-- A value of a list that `strtol` reads to its end. -/
structure ListValue extends ListEntry where
  canonical : Canonical text

/-- A value after one blank. -/
def ListValue.ofNumeral {text : Text} {value : Int} (numeral : Numeral text value)
    (canonical : Canonical text) : ListValue where
  before := [' ']
  text := text
  value := value
  after := []
  numeral := numeral
  canonical := canonical
  blankBefore := by simp [Blank]
  blankAfter := by simp [Blank]

/-- The values of a list, separated by commas. -/
def listText (vs : List ListValue) : Text := entriesText (vs.map ListValue.toListEntry)

theorem countItems_listText (vs : List ListValue) :
    countItems false (listText vs) = vs.length := by
  rw [listText, countItems_entriesText, List.length_map]

theorem valueCount_listText {next : Text → Text}
    (reads : ∀ (v : ListValue) (rest : List ListEntry),
      next (v.text ++ v.tail rest) = v.tail rest) (vs : List ListValue) :
    valueCount next (listText vs).length (listText vs) = vs.length := by
  rw [listText, valueCount_entriesText, List.length_map]
  intro e member
  obtain ⟨v, _, rfl⟩ := List.mem_map.mp member
  exact reads v

theorem strtol_value (v : ListValue) (rest : List ListEntry) :
    (strtol 0 (v.text ++ v.tail rest)).2 = v.tail rest := by
  rw [strtol_auto v.numeral v.canonical (v.stops_tail rest)]

theorem strspn_value (v : ListValue) (rest : List ListEntry) :
    (v.text ++ v.tail rest).dropWhile isNumeralChar = v.tail rest :=
  dropWhile_entry v.toListEntry rest

end Lists

section Directives

/-- A data item on which the passes agree: the values of a list are numerals
between commas, and space is not negative. -/
structure DataItem (d : Text) : Prop where
  list : ∀ key ∈ [".byte".toList, ".half".toList, ".word".toList],
    key.isPrefixOf d → ∃ vs, d.drop 5 = listText vs
  space : ".space".toList.isPrefixOf d →
    ∀ n ∈ scanInt (d.drop 6), 0 ≤ n.toInt

/-- On such a directive the first pass adds what the second one writes. -/
theorem directiveCount_eq {d : Text} (trimmed : Trimmed d) (item : DataItem d) :
    directiveCount d = BitVec.ofNat 32 (directiveSize d) := by
  unfold directiveCount directiveSize
  simp only [trim_of_trimmed trimmed, ← countItems_eq]
  split
  · rfl
  split
  · rfl
  split
  · rename_i byte
    obtain ⟨vs, list⟩ := item.list _ (by simp) byte
    rw [list, countItems_listText, valueCount_listText strtol_value]
  split
  · rename_i half
    obtain ⟨vs, list⟩ := item.list _ (by simp) half
    rw [list, countItems_listText, valueCount_listText strspn_value]
  split
  · rename_i word
    obtain ⟨vs, list⟩ := item.list _ (by simp) word
    rw [list, countItems_listText, valueCount_listText strspn_value]
  split
  · rename_i space
    cases scanned : scanInt (d.drop 6) with
    | none => rfl
    | some size =>
        have positive := item.space space size scanned
        rw [Option.getD_some, Option.map_some, Option.getD_some, ← BitVec.ofInt_natCast,
          Int.toNat_of_nonneg positive, BitVec.ofInt_toInt]
  · rfl

end Directives

section Instructions

/-- `li` with a numeral, and no third operand. -/
structure LoadsNumeral (i : Text) where
  first : Text
  second : Text
  numeral : Text
  value : Int
  line : i = "li".toList ++ ' ' :: (first ++ ',' :: second)
  noComma : ',' ∉ first
  noParen : '(' ∉ first
  spaced : skipSpaces second = numeral
  denotes : Numeral numeral value
  short : numeral.length ≤ 30

/-- An instruction on which the passes agree. -/
structure TextItem (i : Text) : Prop where
  plain : i.head? ≠ some '.'
  li : i.takeWhile (!isspace ·) = "li".toList → Nonempty (LoadsNumeral i)

/-- A line as `trim` and the comment strip leave it. -/
structure Stripped (i : Text) : Prop where
  trimmed : Trimmed i
  noHash : '#' ∉ i
  short : i.length < maxLine

theorem takeWhile_of_all {p q : Char → Bool} {s : Text}
    (weaker : ∀ c, q c → p c) (all : ∀ c ∈ s.takeWhile p, q c) :
    s.takeWhile q = s.takeWhile p := by
  induction s with
  | nil => rfl
  | cons c s induction =>
      cases accepted : p c with
      | true =>
          rw [List.takeWhile_cons_of_pos accepted] at all ⊢
          have here := all c List.mem_cons_self
          rw [List.takeWhile_cons_of_pos here,
            induction fun d member => all d (List.mem_cons_of_mem _ member)]
      | false =>
          have refused : ¬ q c := fun here => by simp [weaker c here] at accepted
          rw [List.takeWhile_cons_of_neg refused,
            List.takeWhile_cons_of_neg (by simp [accepted])]

theorem op_of_parse {s : Text} {args : Operands}
    (parsed : parseInstructionArgs s Operands.blank = .ok args) :
    args.op = (s.take (maxLine - 1)).takeWhile (· ≠ ' ') ∧ args.op.length < 16 := by
  unfold parseInstructionArgs at parsed
  simp only at parsed
  split at parsed
  · rename_i noSpace
    obtain ⟨op, stored, result⟩ := bind_eq_ok.mp parsed
    obtain ⟨short, rfl⟩ := storeText_eq_ok stored
    cases result
    exact ⟨(takeWhile_ne_self (not_mem_of_strchr_eq_none noSpace)).symm, short⟩
  rename_i opText rest space
  obtain ⟨op, stored, others⟩ := bind_eq_ok.mp parsed
  obtain ⟨split, absent⟩ := eq_append_of_strchr space
  obtain ⟨short, rfl⟩ := storeText_eq_ok stored
  rw [split, takeWhile_ne_cons absent]
  suffices args.op = op from ⟨this, this ▸ short⟩
  split at others
  · obtain ⟨a1, _, result⟩ := bind_eq_ok.mp others
    cases result
    rfl
  obtain ⟨a1, _, others⟩ := bind_eq_ok.mp others
  split at others
  · obtain ⟨a2, _, result⟩ := bind_eq_ok.mp others
    cases result
    rfl
  · obtain ⟨a2, _, others⟩ := bind_eq_ok.mp others
    obtain ⟨a3, _, result⟩ := bind_eq_ok.mp others
    cases result
    rfl

theorem Stripped.line_eq {i : Text} (stripped : Stripped i) :
    trim ((i.take (maxLine - 1)).takeWhile (· ≠ '#')) = i := by
  have short := stripped.short
  rw [List.take_of_length_le (by omega), takeWhile_ne_self stripped.noHash,
    trim_of_trimmed stripped.trimmed]

theorem firstWord_of_rewriteParens {i processed : Text} (short : i.length < maxLine)
    (rewritten : rewriteParens i = .ok processed)
    (noComma : ',' ∉ (processed.take (maxLine - 1)).takeWhile (· ≠ ' ')) :
    (processed.take (maxLine - 1)).takeWhile (· ≠ ' ') = i.takeWhile (· ≠ ' ') := by
  rcases rewritten_cases rewritten with rfl | ⟨before, reg, suffix, rfl, rfl⟩
  · rw [List.take_of_length_le (by omega)]
  · rw [take_rewritten short, take_rewritten short] at noComma ⊢
    have spaced : ' ' ∈ before := by
      by_contra noSpace
      apply noComma
      rw [takeWhile_ne_append noSpace, List.takeWhile_cons_of_pos (by simp)]
      simp
    obtain ⟨word, others, rfl, absent⟩ := List.eq_append_cons_of_mem spaced
    have stops (rest : Text) : (word ++ ' ' :: others ++ rest).takeWhile (· ≠ ' ') = word := by
      rw [List.append_assoc, List.cons_append, takeWhile_ne_cons absent]
    rw [stops, stops]

theorem firstWord_of_readOperands {i : Text} {args : Operands} (stripped : Stripped i)
    (read : readOperands i = .ok args) (noComma : ',' ∉ args.op) :
    args.op = i.takeWhile (· ≠ ' ') ∧ args.op.length < 16 := by
  obtain ⟨processed, rewritten, parsing⟩ := bind_eq_ok.mp read
  obtain ⟨stored, parsed, result⟩ := bind_eq_ok.mp parsing
  cases result
  rw [stripped.line_eq] at rewritten
  obtain ⟨word, short⟩ := op_of_parse parsed
  refine ⟨?_, short⟩
  have noComma : ',' ∉ stored.op := noComma
  show stored.op = _
  rw [word] at noComma ⊢
  exact firstWord_of_rewriteParens stripped.short rewritten noComma

theorem op_of_readOperands {i : Text} {args : Operands} (stripped : Stripped i)
    (read : readOperands i = .ok args)
    (plain : ∀ c ∈ args.op, isspace c = false ∧ c ≠ ',') :
    args.op = i.takeWhile (!isspace ·) ∧ args.op.length < 16 := by
  have noComma : ',' ∉ args.op := fun member => (plain _ member).2 rfl
  obtain ⟨word, short⟩ := firstWord_of_readOperands stripped read noComma
  refine ⟨?_, short⟩
  rw [word] at plain ⊢
  refine (takeWhile_of_all ?_ ?_).symm
  · intro c solid
    have other : c ≠ ' ' := by
      rintro rfl
      simp [isspace] at solid
    simpa using other
  · intro c member
    simp [(plain c member).1]

theorem take_of_parseSimpleArgs {i : Text} (stripped : Stripped i) :
    (parseSimpleArgs i).op = (i.takeWhile (!isspace ·)).take 15 := by
  have room := stripped.short
  have temp : skipSpaces (i.take (maxLine - 1)) = i := by
    rw [List.take_of_length_le (by omega), skipSpaces_of_head stripped.trimmed.head]
  unfold parseSimpleArgs
  rw [temp]
  simp only
  split <;> rfl

theorem op_of_parseSimpleArgs {i : Text} (stripped : Stripped i)
    (short : (i.takeWhile (!isspace ·)).length < 16) :
    (parseSimpleArgs i).op = i.takeWhile (!isspace ·) := by
  rw [take_of_parseSimpleArgs stripped, List.take_of_length_le (by omega)]

theorem mem_of_lookup {α : Type} {op : Text} {table : List (Text × α)} {a : α}
    (found : table.lookup op = some a) : (op, a) ∈ table := by
  induction table with
  | nil => cases found
  | cons entry table induction =>
      obtain ⟨name, value⟩ := entry
      rw [List.lookup_cons] at found
      split at found
      · rename_i same
        cases found
        rw [eq_of_beq same]
        exact List.mem_cons_self
      · exact List.mem_cons_of_mem _ (induction found)

/-- A mnemonic that either table knows has neither white space nor commas. -/
theorem plain_of_known {op : Text}
    (known : (Pseudo.ofText op).isSome ∨ (encodings.lookup op).isSome) :
    ∀ c ∈ op, isspace c = false ∧ c ≠ ',' := by
  rcases known with known | known
  · obtain ⟨pseudo, found⟩ := Option.isSome_iff_exists.mp known
    unfold Pseudo.ofText at found
    have member := mem_of_lookup found
    have all : ∀ entry ∈ [("nop".toList, Pseudo.nop), ("mv".toList, .mv),
        ("li".toList, .li), ("la".toList, .la), ("call".toList, .call),
        ("ret".toList, .ret), ("j".toList, .j)],
        ∀ c ∈ entry.1, isspace c = false ∧ c ≠ ',' := by
      decide
    exact all _ member
  · obtain ⟨e, found⟩ := Option.isSome_iff_exists.mp known
    have all : ∀ entry ∈ encodings, ∀ c ∈ entry.1, isspace c = false ∧ c ≠ ',' := by
      decide
    exact all _ (mem_of_lookup found)

theorem ofText_li {op : Text} (found : Pseudo.ofText op = some .li) :
    op = "li".toList := by
  unfold Pseudo.ofText at found
  have member := mem_of_lookup found
  simpa using member

theorem known_of_done {labels : List Label} {st st' : Pass2} {i : Text}
    (finished : processInstructionSecondPass labels st i = .done st') :
    ∃ args, readOperands i = .ok args ∧
      ((Pseudo.ofText args.op).isSome ∨ (encodings.lookup args.op).isSome) := by
  unfold processInstructionSecondPass at finished
  split at finished
  · cases finished
  rename_i args read
  refine ⟨args, read, ?_⟩
  split at finished
  · rename_i op pseudo
    rw [pseudo]
    exact .inl rfl
  · right
    unfold emitInstruction encodeInstruction at finished
    cases known : encodings.lookup args.op with
    | some e => rfl
    | none =>
        rw [known] at finished
        cases finished

theorem space_of_done {labels : List Label} {st st' : Pass2} {op rest : Text} {g : Char}
    (stripped : Stripped (op ++ g :: rest)) (noSpace : ' ' ∉ op) (white : isspace g)
    (finished : processInstructionSecondPass labels st (op ++ g :: rest) = .done st') :
    g = ' ' := by
  obtain ⟨args, read, known⟩ := known_of_done finished
  have plain := plain_of_known known
  have noComma : ',' ∉ args.op := fun member => (plain _ member).2 rfl
  have word := (firstWord_of_readOperands stripped read noComma).1
  by_contra other
  rw [takeWhile_ne_append noSpace, List.takeWhile_cons_of_pos (by simpa using other)] at word
  have inside : g ∈ args.op := by simp [word]
  rw [(plain g inside).1] at white
  cases white

theorem starts_of_numeral {n : Text} {value : Int} (denotes : Numeral n value) :
    startsHex n ∨ startsDecimal n := by
  cases denotes with
  | decimal nonempty valid =>
      have starts := startsDecimal_of_digits nonempty valid []
      rw [List.append_nil] at starts
      exact .inr starts.1
  | negative nonempty valid =>
      have starts := startsDecimal_of_digits nonempty valid []
      rw [List.append_nil] at starts
      exact .inr starts.2.1
  | hex mark _ _ => exact .inl (by simpa [startsHex] using mark)
  | negativeHex mark _ _ => exact .inl (by simpa [startsHex] using mark)

theorem head_of_numeral {n : Text} {value : Int} (denotes : Numeral n value) :
    ∃ c ∈ n.head?, c.isDigit ∨ c = '-' := by
  cases denotes with
  | decimal nonempty valid =>
      obtain ⟨c, others, rfl⟩ := List.exists_cons_of_ne_nil nonempty
      exact ⟨c, rfl, .inl (digitValue_lt_ten.mp (valid c (by simp)))⟩
  | negative => exact ⟨'-', rfl, .inr rfl⟩
  | hex => exact ⟨'0', rfl, .inl rfl⟩
  | negativeHex => exact ⟨'-', rfl, .inr rfl⟩

theorem parseImm_of_numeral {n : Text} {value : Int} (denotes : Numeral n value) :
    ∃ imm, ∀ labels, parseImm labels n = .ok imm := by
  have nonempty : n ≠ [] := (token_of_numeral denotes).1
  unfold parseImm
  by_cases hex : startsHex n
  · refine ⟨BitVec.ofInt 32 (strtol 16 n).1, fun labels => ?_⟩
    rw [if_neg nonempty, if_pos hex]
  · have decimal := (starts_of_numeral denotes).resolve_left hex
    refine ⟨BitVec.ofInt 32 (strtol 10 n).1, fun labels => ?_⟩
    rw [if_neg nonempty, if_neg hex, if_pos decimal]

theorem trimmed_of_numeral {n : Text} {value : Int} (denotes : Numeral n value) :
    Trimmed n where
  head := fun c first => isspace_of_tokenChar
    ((token_of_numeral denotes).2 c (List.mem_of_mem_head? first))
  last := fun c final => isspace_of_tokenChar
    ((token_of_numeral denotes).2 c (List.mem_of_mem_getLast? final))

namespace LoadsNumeral

variable {i : Text} (loads : LoadsNumeral i)

theorem not_mem_numeral {c : Char} (special : tokenChar c = false) :
    c ∉ loads.numeral := by
  intro member
  rw [(token_of_numeral loads.denotes).2 c member] at special
  cases special

theorem not_mem_second {c : Char} (solid : isspace c = false)
    (special : tokenChar c = false) : c ∉ loads.second := by
  intro member
  have split := List.takeWhile_append_dropWhile (p := isspace) (l := loads.second)
  rw [← split, List.mem_append] at member
  rcases member with blank | rest
  · have space := List.mem_takeWhile_imp blank
    rw [solid] at space
    cases space
  · have numeral : loads.second.dropWhile isspace = loads.numeral := loads.spaced
    rw [numeral] at rest
    exact loads.not_mem_numeral special rest

theorem parseSimpleArgs_a2 (stripped : Stripped i) :
    (parseSimpleArgs i).a2 = loads.numeral := by
  have room := stripped.short
  have temp : skipSpaces (i.take (maxLine - 1)) = i := by
    rw [List.take_of_length_le (by omega), skipSpaces_of_head stripped.trimmed.head]
  have ptr : skipSpaces (i.dropWhile (!isspace ·)) =
      skipSpaces loads.first ++ ',' :: loads.second := by
    have dropped : i.dropWhile (!isspace ·) =
        ' ' :: (loads.first ++ ',' :: loads.second) :=
      (congrArg (List.dropWhile (!isspace ·)) loads.line).trans rfl
    rw [dropped]
    show skipSpaces (loads.first ++ ',' :: loads.second) = _
    exact skipSpaces_append_cons rfl _ _
  have noComma : ',' ∉ skipSpaces loads.first := fun member =>
    loads.noComma ((List.dropWhile_sublist _).subset member)
  unfold parseSimpleArgs
  rw [temp]
  simp only
  rw [ptr, strchr_append noComma]
  simp only
  rw [loads.spaced, List.take_of_length_le loads.short,
    trimInPlace_of_trimmed (trimmed_of_numeral loads.denotes)]

theorem readOperands_a2 (stripped : Stripped i) {args : Operands}
    (read : readOperands i = .ok args) : args.a2 = loads.numeral := by
  obtain ⟨processed, rewritten, parsing⟩ := bind_eq_ok.mp read
  obtain ⟨stored, parsed, result⟩ := bind_eq_ok.mp parsing
  cases result
  rw [stripped.line_eq] at rewritten
  have noParen : '(' ∉ i := by
    rw [loads.line]
    simp [loads.noParen, loads.not_mem_second (c := '(') rfl rfl]
  rw [rewriteParens, strchr_eq_none noParen] at rewritten
  cases rewritten
  have short := stripped.short
  rw [loads.line] at parsed short
  rw [parseInstructionArgs_two _ (by decide) loads.noComma
    (loads.not_mem_second rfl rfl) short] at parsed
  obtain ⟨op, _, parsed⟩ := bind_eq_ok.mp parsed
  obtain ⟨a1, _, parsed⟩ := bind_eq_ok.mp parsed
  obtain ⟨a2, second, result⟩ := bind_eq_ok.mp parsed
  cases result
  obtain ⟨_, rfl⟩ := storeText_eq_ok second
  have numeral : trim loads.second = loads.numeral := by
    rw [trim, loads.spaced,
      rdropWhile_of_last (trimmed_of_numeral loads.denotes).last]
  show dropTrailingComma (trimInPlace (trim loads.second)) = _
  rw [numeral, trimInPlace_of_trimmed (trimmed_of_numeral loads.denotes)]
  refine if_neg fun last => ?_
  exact loads.not_mem_numeral rfl (List.mem_of_mem_getLast? last)

end LoadsNumeral

/-- The first pass predicts the size of an instruction line. -/
theorem instruction_size {i : Text} (stripped : Stripped i) (item : TextItem i)
    {labels : List Label} {st st' : Pass2}
    (finished : processInstructionSecondPass labels st i = .done st')
    (early : List Label) :
    ∃ k, pseudoinstructionSize early (parseSimpleArgs i).op (parseSimpleArgs i).a2 =
        .ok k ∧
      (if 0 < k then k * 4 else 4) = instructionWords labels i * 4 := by
  obtain ⟨args, read, known⟩ := known_of_done finished
  obtain ⟨word, short⟩ := op_of_readOperands stripped read (plain_of_known known)
  have sameOp : (parseSimpleArgs i).op = args.op := by
    rw [op_of_parseSimpleArgs stripped (word ▸ short), word]
  unfold pseudoinstructionSize instructionWords
  rw [sameOp, read]
  simp only
  cases pseudo : Pseudo.ofText args.op with
  | none => exact ⟨0, rfl, rfl⟩
  | some op =>
      cases op with
      | nop | mv | call | ret | j => exact ⟨1, rfl, rfl⟩
      | la => exact ⟨2, rfl, rfl⟩
      | li =>
          obtain ⟨loads⟩ := item.li (word ▸ ofText_li pseudo)
          obtain ⟨imm, parsed⟩ := parseImm_of_numeral loads.denotes
          rw [loads.parseSimpleArgs_a2 stripped, loads.readOperands_a2 stripped read]
          have starts : loads.numeral ≠ [] ∧
              ∃ c ∈ loads.numeral.head?, c.isDigit ∨ c = '-' :=
            ⟨(token_of_numeral loads.denotes).1, head_of_numeral loads.denotes⟩
          simp only [if_pos starts, parsed, Pseudo.words]
          by_cases small : fitsImm12 imm
          · exact ⟨1, if_pos small, by rw [if_pos small]; rfl⟩
          · exact ⟨2, if_neg small, by rw [if_neg small]; rfl⟩

end Instructions

end RiscvPack.Asm
