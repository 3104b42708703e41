import RiscvPack.Lib.Loops
import RiscvPack.Assembler.Lines

/-!
# The lists of `.byte`, `.half` and `.word`

The scanning loop of the three directives.  It reads a value wherever no
separator stands, and skips separators behind it.  A value of `.byte` is what
`strtol` accepts; a value of the other two is what `parse_imm` accepts, which
may be a label, while the text is advanced over the characters of numerals
only.  So a label that begins with another character is read for ever.
-/

namespace RiscvPack.Asm

open CString Runs Files Loops

inductive ListDirective where
  | byte | half | word
  deriving DecidableEq, Repr

namespace ListDirective

def name : ListDirective → Text
  | byte => ".byte".toList
  | half => ".half".toList
  | word => ".word".toList

/-- What an iteration reads. -/
def item (labels : List Label) : ListDirective → Text → Except Stop (List Byte × Text)
  | byte => byteItem
  | half => halfItem labels
  | word => wordItem labels

/-- The operand text of a directive. -/
def operands (s : Text) : Text := (trim s).drop 5

/-- One iteration of the loop. -/
def iteration (d : ListDirective) (labels : List Label) (st : Pass2) (t : Text) :
    Except Stop (Pass2 × Text) :=
  match t with
  | [] => .ok (st, [])
  | c :: rest =>
      if c ≠ ' ' ∧ c ≠ '\t' ∧ c ≠ ',' then
        match d.item labels (c :: rest) with
        | .ok (bytes, after) => .ok (st.emit bytes, skipSeparators after)
        | .error reason => .error reason
      else .ok (st, skipSeparators (c :: rest))

/-- What an iteration leaves of the text; none when it exits. -/
def left (d : ListDirective) (labels : List Label) : Text → Option Text
  | [] => some []
  | c :: rest =>
      if c ≠ ' ' ∧ c ≠ '\t' ∧ c ≠ ',' then
        match d.item labels (c :: rest) with
        | .ok (_, after) => some (skipSeparators after)
        | .error _ => none
      else some (skipSeparators (c :: rest))

/-- The loop over the operand text ends in this way. -/
def Returns (d : ListDirective) (labels : List Label) (st : Pass2) (s : Text)
    (outcome : Outcome Stop Pass2) : Prop :=
  Ends (d.iteration labels) st (operands s) outcome

/-- The loop arrives at `u` in the operand text. -/
def ArrivesAt (d : ListDirective) (labels : List Label) (s u : Text) : Prop :=
  Arrives (d.left labels) (operands s) u

/-- The first character is not skipped, and the value that is read there is
none: no number for `.byte`, a label that does not begin like a numeral for
the others. -/
def Stuck (labels : List Label) : ListDirective → Text → Prop
  | byte, u => (∃ c ∈ u.head?, c ≠ ',' ∧ isspace c = false) ∧ ¬ StartsNumber u
  | half, u | word, u =>
      (∃ c ∈ u.head?, c ≠ ',' ∧ isspace c = false ∧ isNumeralChar c = false) ∧
        ∃ label ∈ labels, label.name = u

variable {d : ListDirective} {labels : List Label} {st : Pass2} {t rest : Text}

theorem left_iff (st : Pass2) (t rest : Text) :
    d.left labels t = some rest ↔
      ∃ st', d.iteration labels st t = .ok (st', rest) := by
  unfold left iteration
  cases t with
  | nil => simp
  | cons c tail =>
      by_cases value : c ≠ ' ' ∧ c ≠ '\t' ∧ c ≠ ','
      · simp only [if_pos value]
        cases d.item labels (c :: tail) with
        | ok result => simp
        | error reason => simp
      · simp only [if_neg value]
        simp

theorem item_suffix {bytes : List Byte} (read : d.item labels t = .ok (bytes, rest)) :
    rest <:+ t := by
  cases d with
  | byte =>
      rw [(byteItem_reads t bytes rest read).2]
      exact strtol_suffix 0 t
  | half =>
      rw [(halfItem_reads t bytes rest read).2]
      exact List.dropWhile_suffix _
  | word =>
      rw [(wordItem_reads t bytes rest read).2]
      exact List.dropWhile_suffix _

theorem left_suffix (leaves : d.left labels t = some rest) : rest <:+ t := by
  unfold left at leaves
  cases t with
  | nil =>
      cases leaves
      exact List.suffix_refl _
  | cons c tail =>
      simp only at leaves
      split at leaves
      · split at leaves
        · rename_i bytes after read
          cases leaves
          exact (List.dropWhile_suffix _).trans (item_suffix read)
        · cases leaves
      · cases leaves
        exact List.dropWhile_suffix _

theorem consumes (t rest : Text) (leaves : d.left labels t = some rest) :
    rest.length ≤ t.length ∧ (rest.length = t.length → rest = t) :=
  ⟨(left_suffix leaves).length_le, (left_suffix leaves).eq_of_length⟩

theorem separator_of_blank {c : Char} (blank : ¬ (c ≠ ' ' ∧ c ≠ '\t' ∧ c ≠ ',')) :
    c = ',' ∨ isspace c := by
  by_cases comma : c = ','
  · exact .inl comma
  · right
    by_cases space : c = ' '
    · rw [space]
      rfl
    · have tab : c = '\t' := by
        by_contra tab
        exact blank ⟨space, tab, comma⟩
      rw [tab]
      rfl

/-- Separators are skipped, so what begins with one gets shorter. -/
theorem skipSeparators_eq_self_iff {c : Char} {tail after : Text}
    (suffix : after <:+ c :: tail) :
    skipSeparators after = c :: tail ↔
      after = c :: tail ∧ c ≠ ',' ∧ isspace c = false := by
  constructor
  · intro same
    have behind : skipSeparators after <:+ after := List.dropWhile_suffix _
    have whole : after = c :: tail := by
      apply suffix.eq_of_length
      apply le_antisymm suffix.length_le
      rw [← same]
      exact behind.length_le
    refine ⟨whole, ?_⟩
    rw [whole, skipSeparators, List.dropWhile_eq_self_iff] at same
    have head := same (by simp)
    simpa using head
  · rintro ⟨rfl, comma, space⟩
    rw [skipSeparators, List.dropWhile_cons]
    simp [comma, space]

theorem findLabel_isOk_iff (name : Text) :
    (∃ addr, findLabel labels name = .ok addr) ↔ ∃ label ∈ labels, label.name = name := by
  unfold findLabel
  cases found : labels.find? (·.name = name) with
  | none =>
      rw [List.find?_eq_none] at found
      constructor
      · rintro ⟨addr, result⟩
        cases result
      · rintro ⟨label, member, same⟩
        exact absurd (decide_eq_true same) (found label member)
  | some label =>
      constructor
      · intro _
        exact ⟨label, List.mem_of_find?_eq_some found,
          by simpa using List.find?_some found⟩
      · intro _
        exact ⟨label.addr, rfl⟩

theorem parseImm_of_head {c : Char} {tail : Text} (other : isNumeralChar c = false) :
    parseImm labels (c :: tail) = findLabel labels (c :: tail) := by
  have noDigit : c.isDigit = false := by
    rw [Bool.eq_false_iff]
    intro digit
    have range := isDigit_range.mp digit
    have all : ∀ n < 58, 48 ≤ n → isNumeralChar (Char.ofNat n) = true := by decide
    have accepted := all c.toNat (by omega) range.1
    rw [Char.ofNat_toNat, other] at accepted
    cases accepted
  have noMinus : c ≠ '-' := by
    rintro rfl
    revert other
    decide
  have noZero : c ≠ '0' := by
    rintro rfl
    revert other
    decide
  have noHex : startsHex (c :: tail) = false := by
    unfold startsHex
    split
    · rename_i same
      exact absurd (List.cons.inj same).1 noZero
    · rename_i same
      exact absurd (List.cons.inj same).1 noMinus
    · rfl
  have noDecimal : startsDecimal (c :: tail) = false := by
    unfold startsDecimal
    split
    · rename_i same
      exact absurd (List.cons.inj same).1 noMinus
    · rename_i same
      rw [← (List.cons.inj same).1]
      exact noDigit
    · rfl
  simp [parseImm, noHex, noDecimal]

/-- The items of `.half` and `.word` read an immediate and skip its characters. -/
theorem item_immediate (numeric : d ≠ byte) :
    (∃ bytes, d.item labels t = .ok (bytes, rest)) ↔
      (∃ imm, parseImm labels t = .ok imm) ∧ rest = t.dropWhile isNumeralChar := by
  cases d with
  | byte => exact absurd rfl numeric
  | half | word =>
      constructor
      · rintro ⟨bytes, read⟩
        obtain ⟨imm, parsed, result⟩ := bind_eq_ok.mp read
        cases result
        exact ⟨⟨imm, parsed⟩, rfl⟩
      · rintro ⟨⟨imm, parsed⟩, rfl⟩
        exact ⟨_, bind_eq_ok.mpr ⟨imm, parsed, rfl⟩⟩

theorem left_eq_self_iff {u : Text} (nonempty : u ≠ []) :
    d.left labels u = some u ↔ d.Stuck labels u := by
  obtain ⟨c, tail, rfl⟩ := List.exists_cons_of_ne_nil nonempty
  have reads : d.left labels (c :: tail) = some (c :: tail) ↔
      (c ≠ ',' ∧ isspace c = false) ∧
        ∃ bytes, d.item labels (c :: tail) = .ok (bytes, c :: tail) := by
    unfold left
    simp only
    split
    · cases read : d.item labels (c :: tail) with
      | error reason => simp
      | ok result =>
          obtain ⟨bytes, after⟩ := result
          simp only [Option.some.injEq, Except.ok.injEq, Prod.mk.injEq,
            exists_eq_left']
          rw [skipSeparators_eq_self_iff (item_suffix read), and_comm]
    · rename_i blank
      refine iff_of_false ?_ ?_
      · intro same
        have solid := ((skipSeparators_eq_self_iff (List.suffix_refl _)).mp
          (Option.some.inj same)).2
        rcases separator_of_blank blank with comma | space
        · exact solid.1 comma
        · rw [solid.2] at space
          cases space
      · rintro ⟨⟨comma, space⟩, _⟩
        rcases separator_of_blank blank with same | blank
        · exact comma same
        · rw [space] at blank
          cases blank
  rw [reads]
  have immediate (numeric : d ≠ byte) :
      (∃ bytes, d.item labels (c :: tail) = .ok (bytes, c :: tail)) ↔
        isNumeralChar c = false ∧ ∃ label ∈ labels, label.name = c :: tail := by
    rw [item_immediate numeric, eq_comm, List.dropWhile_eq_self_iff]
    constructor
    · rintro ⟨parsed, stays⟩
      have other : isNumeralChar c = false :=
        Bool.eq_false_iff.mpr (stays (Nat.succ_pos _))
      rw [parseImm_of_head other, findLabel_isOk_iff] at parsed
      exact ⟨other, parsed⟩
    · rintro ⟨other, found⟩
      rw [parseImm_of_head other, findLabel_isOk_iff]
      exact ⟨found, by simp [other]⟩
  cases d with
  | byte =>
      simp only [Stuck, List.head?_cons, Option.mem_some_iff, exists_eq_left']
      rw [← strtol_stays_iff]
      simp [item, byteItem]
  | half | word =>
      simp only [Stuck, List.head?_cons, Option.mem_some_iff, exists_eq_left']
      rw [immediate (by simp)]
      simp only [and_assoc]

/-- With as many iterations as there are characters, the loop of the model
gets to the end of every loop that ends. -/
theorem emitItems_of_ends {fuel : Nat} {outcome : Outcome Stop Pass2}
    (ends : Ends (d.iteration labels) st t outcome) (enough : t.length ≤ fuel) :
    emitItems (d.item labels) fuel st t = outcome := by
  induction ends generalizing fuel with
  | done s =>
      unfold emitItems
      rfl
  | @exits s t reason nonempty stops =>
      obtain ⟨c, tail, rfl⟩ := List.exists_cons_of_ne_nil nonempty
      obtain ⟨fuel, rfl⟩ := Nat.exists_eq_succ_of_ne_zero
        (Nat.ne_of_gt (lt_of_lt_of_le (Nat.succ_pos _) enough))
      unfold iteration at stops
      unfold emitItems
      simp only at stops
      split at stops
      · rename_i value
        rw [if_pos value]
        cases read : d.item labels (c :: tail) with
        | ok result =>
            rw [read] at stops
            cases stops
        | error refused =>
            rw [read] at stops
            cases stops
            rfl
      · cases stops
  | @next s s' t rest outcome nonempty continues ends induction =>
      have leaves := (left_iff s t rest).mpr ⟨s', continues⟩
      have shorter : rest.length < t.length := by
        obtain ⟨bound, same⟩ := consumes t rest leaves
        apply lt_of_le_of_ne bound
        intro equal
        rw [same equal] at leaves ends
        exact not_ends_of_stuck left_iff nonempty leaves ends
      obtain ⟨c, tail, rfl⟩ := List.exists_cons_of_ne_nil nonempty
      obtain ⟨fuel, rfl⟩ := Nat.exists_eq_succ_of_ne_zero
        (Nat.ne_of_gt (lt_of_lt_of_le (Nat.succ_pos _) enough))
      have rest := induction (Nat.lt_succ_iff.mp (lt_of_lt_of_le shorter enough))
      unfold iteration at continues
      unfold emitItems
      simp only at continues
      split at continues
      · rename_i value
        rw [if_pos value]
        cases read : d.item labels (c :: tail) with
        | ok result =>
            rw [read] at continues
            cases continues
            exact rest
        | error refused =>
            rw [read] at continues
            cases continues
      · rename_i separator
        rw [if_neg separator]
        cases continues
        exact rest

theorem processDataDirective_eq {s : Text} (starts : d.name.isPrefixOf (trim s)) :
    processDataDirective labels st s =
      emitItems (d.item labels) (operands s).length st (operands s) := by
  obtain ⟨rest, whole⟩ := List.isPrefixOf_iff_prefix.mp starts
  unfold processDataDirective operands
  rw [← whole]
  cases d with
  | byte => rfl
  | half => rfl
  | word => rfl

/-- The loop of a list directive ends, in the way the second pass says, exactly
when it arrives at no value that it reads without advancing. -/
theorem returns_iff (d : ListDirective) (labels : List Label) (st : Pass2) {s : Text}
    (starts : d.name.isPrefixOf (trim s)) :
    (∃ outcome, d.Returns labels st s outcome ∧
        processDataDirective labels st s = outcome) ↔
      ∀ u, d.ArrivesAt labels s u → ¬ d.Stuck labels u := by
  have empty : ¬ d.Stuck labels [] := by
    cases d <;> simp [Stuck]
  constructor
  · rintro ⟨outcome, ends, _⟩ u arrives stuck
    have nonempty : u ≠ [] := by
      rintro rfl
      exact empty stuck
    exact (exists_ends_iff left_iff consumes st (operands s)).mp ⟨outcome, ends⟩ u
      arrives nonempty ((left_eq_self_iff nonempty).mpr stuck)
  · intro moves
    obtain ⟨outcome, ends⟩ := (exists_ends_iff left_iff consumes st (operands s)).mpr
      fun u arrives nonempty stays =>
        moves u arrives ((left_eq_self_iff nonempty).mp stays)
    refine ⟨outcome, ends, ?_⟩
    rw [processDataDirective_eq starts]
    exact emitItems_of_ends ends le_rfl

/-- A list of two bytes, without any labels. -/
theorem returns_iff_bytes :
    (∃ outcome, byte.Returns [] Pass2.init ".byte 1, 2".toList outcome ∧
        processDataDirective [] Pass2.init ".byte 1, 2".toList = outcome) ↔
      ∀ u, byte.ArrivesAt [] ".byte 1, 2".toList u → ¬ byte.Stuck [] u :=
  returns_iff byte [] Pass2.init (by decide)

/-- A word that is the address of a label. -/
theorem not_returns_word_label :
    let source : Text := ".data\nloop: .word loop\n".toList
    let asm := (firstPass Assembler.init source).last
    let labels := (adjustLabels asm asm.pcText).labels
    firstPass Assembler.init source = .done asm ∧
      ∀ st, ¬ ∃ outcome, word.Returns labels st ".word loop".toList outcome := by
  intro source asm labels
  refine ⟨by decide +kernel, ?_⟩
  rintro st ⟨outcome, ends⟩
  have defined : ∃ label ∈ labels, label.name = "loop".toList := by decide +kernel
  have arrives : word.ArrivesAt labels ".word loop".toList "loop".toList :=
    .next (by decide) (by decide +kernel) (.here _)
  have stuck : word.Stuck labels "loop".toList := ⟨by decide, defined⟩
  exact (exists_ends_iff left_iff consumes st _).mp ⟨outcome, ends⟩ _ arrives
    (by decide) ((left_eq_self_iff (by decide)).mpr stuck)

end ListDirective

end RiscvPack.Asm
