import RiscvPack.Assembler.DataLists
import RiscvPack.Assembler.Operands

/-!
# The fields of a list

The operand text of a list directive, cut at its commas, and the numerals of a
field: its words, which `.byte` cuts once more in front of a sign and where an
octal numeral runs into an 8 or a 9.  A loop that ends reads one value for each
numeral, and reads one in every field that is more than white space.
-/

namespace RiscvPack.Asm

open CString Runs Loops

section Groups

variable {p : Char → Bool} {run rest : Text} {c : Char}

theorem splitOnP_append (solid : ∀ c ∈ run, p c = false) (rest : Text) :
    (run ++ rest).splitOnP p = (rest.splitOnP p).modifyHead (run ++ ·) := by
  induction run with
  | nil =>
      rw [List.nil_append]
      cases rest.splitOnP p <;> rfl
  | cons c run induction =>
      rw [List.forall_mem_cons] at solid
      rw [List.cons_append, List.splitOnP_cons_eq_if_modifyHead, solid.1,
        induction solid.2]
      cases rest.splitOnP p <;> rfl

/-- The parts of a text between the characters that `p` picks out. -/
def groups (p : Char → Bool) (t : Text) : List Text := (t.splitOnP p).filter (· ≠ [])

theorem groups_nil : groups p [] = [] := by
  simp [groups]

theorem groups_cons (breaks : p c) (t : Text) : groups p (c :: t) = groups p t := by
  simp [groups, List.splitOnP_cons_eq_if_modifyHead, breaks]

theorem groups_append_breaks (breaks : ∀ c ∈ run, p c) (t : Text) :
    groups p (run ++ t) = groups p t := by
  induction run with
  | nil => rfl
  | cons c run induction =>
      rw [List.forall_mem_cons] at breaks
      rw [List.cons_append, groups_cons breaks.1, induction breaks.2]

theorem groups_breaks (breaks : ∀ c ∈ run, p c) : groups p run = [] := by
  have whole := groups_append_breaks breaks []
  rwa [List.append_nil, groups_nil] at whole

theorem groups_run (nonempty : run ≠ []) (solid : ∀ c ∈ run, p c = false)
    (ends : ∀ c ∈ rest.head?, p c) : groups p (run ++ rest) = run :: groups p rest := by
  unfold groups
  rw [splitOnP_append solid]
  cases rest with
  | nil => simp [nonempty]
  | cons c rest => simp [List.splitOnP_cons_eq_if_modifyHead, ends c rfl, nonempty]

/-- The group at the front of a text grows with what stands in front of it. -/
theorem groups_join (solid : ∀ c ∈ run, p c = false) (inside : p c = false) (rest : Text) :
    ∃ more others, groups p (c :: rest) = (c :: more) :: others ∧
      groups p (run ++ c :: rest) = (run ++ c :: more) :: others := by
  obtain ⟨more, others, split⟩ := List.exists_cons_of_ne_nil (List.splitOnP_ne_nil p rest)
  have front : (c :: rest).splitOnP p = (c :: more) :: others := by
    rw [List.splitOnP_cons_eq_if_modifyHead, inside, split]
    rfl
  refine ⟨more, others.filter (· ≠ []), ?_, ?_⟩
  · simp [groups, front]
  · simp [groups, splitOnP_append solid, front]

end Groups

section AutoDigits

/-- The digits of a number at the front of a text, for `strtol` with base zero,
and what stands behind them. -/
inductive AutoDigits : Text → Text → Prop where
  | decimal {digits rest : Text} (nonempty : digits ≠ [])
      (valid : ∀ c ∈ digits, digitValue c < 10) (nonzero : digits.head? ≠ some '0')
      (stops : ∀ c ∈ rest.head?, 10 ≤ digitValue c) : AutoDigits digits rest
  | octal {digits rest : Text} (zero : digits.head? = some '0')
      (valid : ∀ c ∈ digits, digitValue c < 8) (stops : ∀ c ∈ rest.head?, 8 ≤ digitValue c) :
      AutoDigits digits rest
  | hex {x : Char} {digits rest : Text} (mark : x = 'x' ∨ x = 'X') (nonempty : digits ≠ [])
      (valid : ∀ c ∈ digits, digitValue c < 16) (stops : ∀ c ∈ rest.head?, 16 ≤ digitValue c) :
      AutoDigits ('0' :: x :: digits) rest

theorem exists_sign (t : Text) :
    ∃ marks, t = marks ++ (sign t).2 ∧ ∀ c ∈ marks, c = '+' ∨ c = '-' := by
  unfold sign
  split
  · exact ⟨['-'], rfl, by simp⟩
  · exact ⟨['+'], rfl, by simp⟩
  · exact ⟨[], rfl, by simp⟩

private theorem taken_below {base : Nat} {t : Text} :
    (∀ c ∈ t.takeWhile (digitValue · < base), digitValue c < base) ∧
      ∀ c ∈ (t.dropWhile (digitValue · < base)).head?, base ≤ digitValue c := by
  constructor
  · intro c member
    have accepted := List.mem_takeWhile_imp member
    simpa using accepted
  · intro c first
    have refused := List.head?_dropWhile_not (digitValue · < base) t
    rw [Option.mem_def.mp first] at refused
    simpa using refused

theorem radix_zero_cases {body : Text} (digit : ∃ c ∈ body.head?, c.isDigit) :
    (∃ x rest, body = '0' :: x :: rest ∧ (x = 'x' ∨ x = 'X') ∧
        (∃ d ∈ rest.head?, digitValue d < 16) ∧ radix 0 body = (16, rest)) ∨
      (body.head? = some '0' ∧ radix 0 body = (8, body)) ∨
      (body.head? ≠ some '0' ∧ radix 0 body = (10, body)) := by
  unfold radix
  split
  · rename_i x d rest
    split
    · rename_i hex
      exact .inl ⟨x, d :: rest, rfl, hex.2.1, ⟨d, rfl, hex.2.2⟩, rfl⟩
    · exact .inr (.inl ⟨rfl, rfl⟩)
  · exact .inr (.inl ⟨rfl, rfl⟩)
  · rename_i other
    refine .inr (.inr ⟨?_, rfl⟩)
    intro zero
    obtain ⟨rest, rfl⟩ := List.head?_eq_some_iff.mp zero
    exact other _ rfl

/-- Where a number stands, `strtol` reads white space, a sign and its digits. -/
theorem strtol_split {t : Text} (starts : StartsNumber t) :
    ∃ spaces marks digits, t = spaces ++ (marks ++ (digits ++ (strtol 0 t).2)) ∧
      (∀ c ∈ spaces, isspace c) ∧ (∀ c ∈ marks, c = '+' ∨ c = '-') ∧
      AutoDigits digits (strtol 0 t).2 := by
  obtain ⟨marks, signed, isSign⟩ := exists_sign (skipSpaces t)
  have spaced : t = t.takeWhile isspace ++ (marks ++ (sign (skipSpaces t)).2) := by
    rw [← signed]
    exact List.takeWhile_append_dropWhile.symm
  have blank : ∀ c ∈ t.takeWhile isspace, isspace c := fun c => List.mem_takeWhile_imp
  unfold StartsNumber at starts
  have read : ∃ digits, (sign (skipSpaces t)).2 = digits ++ (strtol 0 t).2 ∧
      AutoDigits digits (strtol 0 t).2 := by
    unfold strtol
    simp only
    generalize (sign (skipSpaces t)).2 = body at starts
    have head := starts
    obtain ⟨c, first, digit⟩ := head
    obtain ⟨tail, rfl⟩ := List.head?_eq_some_iff.mp first
    have small := digitValue_lt_ten.mpr digit
    rcases radix_zero_cases starts with
      ⟨x, rest, body, mark, ⟨d, second, isHex⟩, based⟩ | ⟨zero, based⟩ | ⟨nonzero, based⟩
    · obtain ⟨more, rfl⟩ := List.head?_eq_some_iff.mp second
      have some : (d :: more).takeWhile (digitValue · < 16) ≠ [] := by
        simp [isHex]
      rw [based]
      simp only [if_neg some]
      refine ⟨'0' :: x :: (d :: more).takeWhile (digitValue · < 16), ?_,
        .hex mark some taken_below.1 taken_below.2⟩
      rw [body, List.cons_append, List.cons_append, List.takeWhile_append_dropWhile]
    · have some : (c :: tail).takeWhile (digitValue · < 8) ≠ [] := by
        cases zero
        simp [digitValue]
      rw [based]
      simp only [if_neg some]
      refine ⟨_, List.takeWhile_append_dropWhile.symm,
        .octal ?_ taken_below.1 taken_below.2⟩
      cases zero
      simp [digitValue]
    · have some : (c :: tail).takeWhile (digitValue · < 10) ≠ [] := by
        simp [small]
      rw [based]
      simp only [if_neg some]
      refine ⟨_, List.takeWhile_append_dropWhile.symm,
        .decimal some taken_below.1 ?_ taken_below.2⟩
      simpa [small] using nonzero
  obtain ⟨digits, whole, shape⟩ := read
  rw [whole] at spaced
  exact ⟨_, marks, digits, spaced, blank, isSign, shape⟩

end AutoDigits

section Fields

/-- The comma-separated fields that hold more than spaces and tabs. -/
def fields (t : Text) : List Text :=
  (t.splitOn ',').filter (·.any fun c => c ≠ ' ' && c ≠ '\t')

/-- Nothing but white space. -/
def AllSpace (f : Text) : Prop := ∀ c ∈ f, isspace c

instance (f : Text) : Decidable (AllSpace f) := inferInstanceAs (Decidable (∀ c ∈ f, _))

/-- A word that `strtol` reads as two numerals: it takes a leading zero for an
octal number, which ends in front of an 8 or a 9. -/
def CutsOctal (w : Text) : Prop :=
  w.head? = some '0' ∧ (∀ x ∈ w.tail.head?, x ≠ 'x' ∧ x ≠ 'X') ∧ ∃ c ∈ w, c = '8' ∨ c = '9'

instance (w : Text) : Decidable (CutsOctal w) := inferInstanceAs (Decidable (_ ∧ _ ∧ _))

namespace ListDirective

/-- What stands between two numerals of a field, or in front of the digits. -/
def breaks : ListDirective → Char → Bool
  | byte => fun c => isspace c || c == '+' || c == '-'
  | half | word => isspace

/-- The numerals that a word without a sign is read as. -/
def weight : ListDirective → Text → Nat
  | byte, w => if CutsOctal w then 2 else 1
  | half, _ | word, _ => 1

/-- The numerals of a field. -/
def numerals (d : ListDirective) (f : Text) : Nat := ((groups d.breaks f).map d.weight).sum

/-- The text behind a value. -/
def next : ListDirective → Text → Text
  | byte => fun t => (strtol 0 t).2
  | half | word => (·.dropWhile isNumeralChar)

/-- The values the second pass comes across. -/
def values (d : ListDirective) (t : Text) : Nat := valueCount d.next t.length t

/-- White space right behind the name of the directive that is taken for a
value: the loop looks for blanks, tabs and commas only there, and `strtol`
alone skips the others to get to a numeral. -/
def Leads (d : ListDirective) (t : Text) : Prop :=
  (∃ c ∈ t.head?, isspace c ∧ c ≠ ' ' ∧ c ≠ '\t') ∧ ¬ (d = byte ∧ StartsNumber t)

instance (d : ListDirective) (t : Text) : Decidable (d.Leads t) :=
  inferInstanceAs (Decidable (_ ∧ _))

variable {d : ListDirective} {f : Text}

theorem breaks_of_isspace {c : Char} (space : isspace c) : d.breaks c := by
  cases d <;> simp [breaks, space]

theorem numerals_allSpace (blank : AllSpace f) : d.numerals f = 0 := by
  rw [numerals, groups_breaks fun c member => breaks_of_isspace (blank c member)]
  rfl

/-- The fields, one by one: what a loop that reads `n` values makes of them. -/
structure Tally (d : ListDirective) (all : List Text) (n : Nat) : Prop where
  sum : (all.map d.numerals).sum = n
  some : ∀ f ∈ all, AllSpace f ∨ 1 ≤ d.numerals f

end ListDirective

theorem splitOn_append {run : Text} (noComma : ',' ∉ run) (rest : Text) :
    (run ++ rest).splitOn ',' = (rest.splitOn ',').modifyHead (run ++ ·) := by
  rw [List.splitOn_eq_splitOnP, List.splitOn_eq_splitOnP, splitOnP_append]
  intro c member
  rw [beq_eq_false_iff_ne]
  rintro rfl
  exact noComma member

theorem exists_splitOn (t : Text) : ∃ field more, t.splitOn ',' = field :: more :=
  List.exists_cons_of_ne_nil (List.splitOn_ne_nil _ t)

theorem head_field {t field : Text} {more : List Text} (split : t.splitOn ',' = field :: more) :
    field = [] ∨ ∃ c rest after, t = c :: rest ∧ c ≠ ',' ∧ field = c :: after := by
  cases t with
  | nil =>
      cases split
      exact .inl rfl
  | cons c rest =>
      obtain ⟨field', more', inner⟩ := exists_splitOn rest
      rw [List.splitOn_cons_eq_if_modifyHead, inner] at split
      by_cases comma : c = ','
      · rw [if_pos (by simpa using comma)] at split
        cases split
        exact .inl rfl
      · rw [if_neg (by simpa using comma)] at split
        cases split
        exact .inr ⟨c, rest, field', rfl, comma, rfl⟩

end Fields

namespace ListDirective

section Numerals

variable {d : ListDirective} {run digits rest field f : Text} {more : List Text}

theorem solid_of_digitValue {c : Char} (alphanumeric : digitValue c < 36) :
    byte.breaks c = false := by
  have token : tokenChar c := by simp [tokenChar, alphanumeric]
  have plus : c ≠ '+' := by
    rintro rfl
    exact absurd alphanumeric (by decide)
  have minus : c ≠ '-' := by
    rintro rfl
    exact absurd alphanumeric (by decide)
  simp [breaks, isspace_of_tokenChar token, plus, minus]

theorem solid_digits (digits' : AutoDigits digits rest) :
    digits ≠ [] ∧ (∀ c ∈ digits, digitValue c < 36) ∧ ¬ CutsOctal digits := by
  cases digits' with
  | decimal nonempty valid nonzero =>
      refine ⟨nonempty, fun c member => (valid c member).trans (by decide), ?_⟩
      exact fun cuts => nonzero cuts.1
  | octal zero valid =>
      refine ⟨?_, fun c member => (valid c member).trans (by decide), ?_⟩
      · rintro rfl
        cases zero
      · rintro ⟨_, _, c, member, rfl | rfl⟩
        · exact absurd (valid _ member) (by decide)
        · exact absurd (valid _ member) (by decide)
  | @hex x digits _ mark nonempty valid =>
      refine ⟨List.cons_ne_nil _ _, ?_, ?_⟩
      · have marked : digitValue x < 36 := by
          rcases mark with rfl | rfl <;> decide
        rw [List.forall_mem_cons, List.forall_mem_cons]
        exact ⟨by decide, marked, fun c member => (valid c member).trans (by decide)⟩
      · rintro ⟨_, plain, _⟩
        obtain ⟨lower, upper⟩ := plain x rfl
        rcases mark with rfl | rfl
        · exact lower rfl
        · exact upper rfl

/-- A word with nothing of it behind is one numeral. -/
theorem numerals_word (nonempty : run ≠ []) (solid : ∀ c ∈ run, d.breaks c = false)
    (ends : ∀ c ∈ f.head?, d.breaks c) : d.numerals (run ++ f) = d.weight run + d.numerals f := by
  rw [numerals, groups_run nonempty solid ends]
  rfl

/-- An octal numeral in front of an 8 or a 9 makes a word of two numerals. -/
theorem numerals_octal (digits' : AutoDigits digits rest) {c : Char} {after : Text}
    (digit : c.isDigit) (first : c ∈ rest.head?) :
    byte.numerals (digits ++ c :: after) = 1 + byte.numerals (c :: after) := by
  have small := digitValue_lt_ten.mpr digit
  have solid : ∀ x ∈ digits, byte.breaks x = false := fun x member =>
    solid_of_digitValue ((solid_digits digits').2.1 x member)
  obtain ⟨more, others, alone, joined⟩ :=
    groups_join solid (solid_of_digitValue (small.trans (by decide))) after
  have single : ¬ CutsOctal (c :: more) := by
    rintro ⟨zero, _⟩
    cases zero
    cases digits' with
    | decimal _ _ _ stops => exact absurd (stops _ first) (by decide)
    | octal _ _ stops => exact absurd (stops _ first) (by decide)
    | hex _ _ _ stops => exact absurd (stops _ first) (by decide)
  have double : CutsOctal (digits ++ c :: more) := by
    cases digits' with
    | decimal _ _ _ stops => exact absurd (stops c first) (not_le.mpr small)
    | hex _ _ _ stops =>
        exact absurd (stops c first) (not_le.mpr (small.trans (by decide)))
    | octal zero valid stops =>
        obtain ⟨others, rfl⟩ := List.head?_eq_some_iff.mp zero
        have large := stops c first
        refine ⟨rfl, ?_, c, by simp, ?_⟩
        · intro x second
          have octal : digitValue x < 10 := by
            cases others with
            | nil =>
                cases second
                exact small
            | cons y others =>
                cases second
                exact (valid x (by simp)).trans (by decide)
          constructor
          · rintro rfl
            exact absurd octal (by decide)
          · rintro rfl
            exact absurd octal (by decide)
        · have range := isDigit_range.mp digit
          have value : c.toNat = 56 ∨ c.toNat = 57 := by
            unfold digitValue at large
            rw [if_pos range] at large
            omega
          rcases value with eight | nine
          · exact .inl (Char.ext (UInt32.toNat.inj eight))
          · exact .inr (Char.ext (UInt32.toNat.inj nine))
  rw [numerals, numerals, alone, joined]
  simp only [List.map_cons, List.sum_cons, weight, if_pos double, if_neg single]
  omega

end Numerals

section Tallies

variable {d : ListDirective} {run rest t : Text} {n : Nat} {c : Char}

theorem Tally.nil : Tally d (([] : Text).splitOn ',') 0 where
  sum := rfl
  some := by
    intro f member
    obtain rfl := List.mem_singleton.mp member
    exact .inl fun c member => absurd member List.not_mem_nil

theorem Tally.cons_separator (separates : c = ',' ∨ isspace c)
    (tally : Tally d (t.splitOn ',') n) : Tally d ((c :: t).splitOn ',') n := by
  obtain ⟨sum, some⟩ := tally
  obtain ⟨field, more, split⟩ := exists_splitOn t
  rw [split] at sum some
  rw [List.splitOn_cons_eq_if_modifyHead, split]
  rw [List.forall_mem_cons] at some
  split
  · have blank : AllSpace [] := fun c member => absurd member List.not_mem_nil
    refine ⟨?_, ?_⟩
    · rw [List.map_cons, List.sum_cons, numerals_allSpace blank, Nat.zero_add, sum]
    · rw [List.forall_mem_cons, List.forall_mem_cons]
      exact ⟨.inl blank, some⟩
  · rename_i noComma
    have space : isspace c := separates.resolve_left (by simpa using noComma)
    have same : d.numerals (c :: field) = d.numerals field := by
      rw [numerals, groups_cons (breaks_of_isspace space), numerals]
    refine ⟨?_, ?_⟩
    · rw [← sum, List.modifyHead_cons, List.map_cons, List.map_cons, same]
    · rw [List.modifyHead_cons, List.forall_mem_cons, same]
      refine ⟨some.1.imp_left fun blank => ?_, some.2⟩
      rw [AllSpace, List.forall_mem_cons]
      exact ⟨space, blank⟩

theorem Tally.of_skipped (tally : Tally d ((skipSeparators t).splitOn ',') n) :
    Tally d (t.splitOn ',') n := by
  induction t with
  | nil => exact tally
  | cons c t induction =>
      rw [skipSeparators, List.dropWhile_cons] at tally
      split at tally
      · rename_i separates
        exact (induction tally).cons_separator (by simpa using separates)
      · exact tally

theorem Tally.append_value (noComma : ',' ∉ run)
    (value : ∀ field more, rest.splitOn ',' = field :: more →
      d.numerals (run ++ field) = 1 + d.numerals field)
    (tally : Tally d (rest.splitOn ',') n) : Tally d ((run ++ rest).splitOn ',') (n + 1) := by
  obtain ⟨sum, some⟩ := tally
  obtain ⟨field, more, split⟩ := exists_splitOn rest
  have one := value field more split
  rw [split, List.map_cons, List.sum_cons] at sum
  rw [split, List.forall_mem_cons] at some
  rw [splitOn_append noComma, split, List.modifyHead_cons]
  refine ⟨?_, ?_⟩
  · rw [List.map_cons, List.sum_cons, one]
    omega
  · rw [List.forall_mem_cons]
    exact ⟨.inr (by omega), some.2⟩

end Tallies

section Loop

variable {d : ListDirective} {labels : List Label} {st st' : Pass2} {fuel : Nat}
  {t rest : Text} {c : Char}

/-- The loop does not get past a value that it does not advance over. -/
theorem not_done_of_stuck (stuck : d.Stuck labels (c :: t)) :
    emitItems (d.item labels) fuel st (c :: t) ≠ .done st' := by
  have stays := (left_eq_self_iff (List.cons_ne_nil c t)).mpr stuck
  induction fuel generalizing st with
  | zero => exact fun finished => by cases finished
  | succ fuel induction =>
      unfold left at stays
      unfold emitItems
      simp only at stays
      split at stays
      · rename_i value
        rw [if_pos value]
        cases read : d.item labels (c :: t) with
        | error reason => exact fun finished => by cases finished
        | ok result =>
            rw [read] at stays
            simp only [Option.some.injEq] at stays
            simp only [stays]
            exact induction
      · rename_i separator
        rw [if_neg separator]
        rw [Option.some.inj stays]
        exact induction

variable (solid : c ≠ ',' ∧ isspace c = false)

include solid

theorem startsNumber_of_done
    (finished : emitItems (byte.item labels) fuel st (c :: t) = .done st') :
    StartsNumber (c :: t) := by
  by_contra none
  exact not_done_of_stuck (d := byte) ⟨⟨c, rfl, solid⟩, none⟩ finished

theorem isNumeralChar_of_done (numeric : d ≠ byte)
    (finished : emitItems (d.item labels) fuel st (c :: t) = .done st') : isNumeralChar c := by
  by_contra other
  have other : isNumeralChar c = false := by simpa using other
  have stuck : d.Stuck labels (c :: t) := by
    cases fuel with
    | zero => cases finished
    | succ fuel =>
        have value : c ≠ ' ' ∧ c ≠ '\t' ∧ c ≠ ',' := by
          refine ⟨?_, ?_, solid.1⟩ <;>
          · rintro rfl
            exact absurd solid.2 (by decide)
        unfold emitItems at finished
        rw [if_pos value] at finished
        cases read : d.item labels (c :: t) with
        | error reason =>
            rw [read] at finished
            cases finished
        | ok result =>
            obtain ⟨⟨imm, parsed⟩, _⟩ := (item_immediate numeric).mp ⟨result.1, read⟩
            rw [parseImm_of_head other] at parsed
            have found := (findLabel_isOk_iff _).mp ⟨imm, parsed⟩
            cases d with
            | byte => exact absurd rfl numeric
            | half | word => exact ⟨⟨c, rfl, solid.1, solid.2, other⟩, found⟩
  exact not_done_of_stuck stuck finished

end Loop

section Values

variable {d : ListDirective} {labels : List Label} {st st' : Pass2} {fuel n : Nat}
  {t : Text} {c : Char}

theorem head_of_startsNumber (solid : isspace c = false) (starts : StartsNumber (c :: t)) :
    c = '+' ∨ c = '-' ∨ c.isDigit := by
  have head : skipSpaces (c :: t) = c :: t := by
    apply skipSpaces_of_head
    intro x first
    cases first
    exact solid
  obtain ⟨x, first, digit⟩ := starts
  rw [head] at first
  unfold sign at first
  split at first
  · rename_i equal
    exact .inr (.inl (List.cons.inj equal).1)
  · rename_i equal
    exact .inl (List.cons.inj equal).1
  · cases first
    exact .inr (.inr digit)

theorem skipSeparators_solid (solid : c ≠ ',' ∧ isspace c = false) :
    skipSeparators (c :: t) = c :: t := by
  rw [skipSeparators, List.dropWhile_cons]
  simp [solid.1, solid.2]

theorem head_skipSeparators (t : Text) :
    ∀ c ∈ (skipSeparators t).head?, isspace c → c = ' ' ∨ c = '\t' := by
  intro c first space
  have refused := List.head?_dropWhile_not (fun c => c = ',' || isspace c) t
  rw [← skipSeparators, Option.mem_def.mp first] at refused
  simp [space] at refused

theorem value_byte (starts : StartsNumber t)
    (finished : emitItems (byte.item labels) fuel st (skipSeparators (strtol 0 t).2) =
      .done st') :
    ∃ run, t = run ++ (strtol 0 t).2 ∧ ',' ∉ run ∧
      ∀ field more, (strtol 0 t).2.splitOn ',' = field :: more →
        byte.numerals (run ++ field) = 1 + byte.numerals field := by
  obtain ⟨spaces, marks, digits, whole, blank, signs, read⟩ := strtol_split starts
  obtain ⟨nonempty, alphanumeric, single⟩ := solid_digits read
  have solid : ∀ x ∈ digits, byte.breaks x = false := fun x member =>
    solid_of_digitValue (alphanumeric x member)
  have one : byte.weight digits = 1 := if_neg single
  refine ⟨spaces ++ (marks ++ digits), by simpa using whole, ?_, ?_⟩
  · have noSpaces : ',' ∉ spaces := not_mem_blank rfl blank
    have noMarks : ',' ∉ marks := fun member => absurd (signs _ member) (by decide)
    have noDigits : ',' ∉ digits := fun member => absurd (alphanumeric _ member) (by decide)
    simp [noSpaces, noMarks, noDigits]
  · intro field more split
    have fronts : byte.numerals (spaces ++ (marks ++ digits) ++ field) =
        byte.numerals (digits ++ field) := by
      have isBreak : ∀ x ∈ marks, byte.breaks x := by
        intro x member
        rcases signs x member with rfl | rfl <;> rfl
      rw [List.append_assoc, List.append_assoc, numerals,
        groups_append_breaks fun x member => breaks_of_isspace (blank x member),
        groups_append_breaks isBreak, numerals]
    rw [fronts]
    rcases head_field split with rfl | ⟨c, behind, after, rest, noComma, rfl⟩
    · rw [numerals_word nonempty solid (fun x first => by cases first), one]
    · by_cases space : isspace c
      · rw [numerals_word nonempty solid (fun x first => ?_), one]
        cases first
        exact breaks_of_isspace space
      · have solidHead : c ≠ ',' ∧ isspace c = false := ⟨noComma, by simpa using space⟩
        rw [rest, skipSeparators_solid solidHead] at finished
        have next := startsNumber_of_done solidHead finished
        rcases head_of_startsNumber solidHead.2 next with plus | minus | digit
        · rw [numerals_word nonempty solid (fun x first => ?_), one]
          cases first
          simp [breaks, plus]
        · rw [numerals_word nonempty solid (fun x first => ?_), one]
          cases first
          simp [breaks, minus]
        · exact numerals_octal read digit (by rw [rest]; rfl)

theorem plain_numeralChar (accepted : isNumeralChar c) : isspace c = false ∧ c ≠ ',' := by
  have all : ∀ x ∈ "0123456789abcdefABCDEFxX-+".toList, isspace x = false ∧ x ≠ ',' := by
    decide
  exact all c (of_decide_eq_true accepted)

theorem value_numeric (numeric : d ≠ byte) (accepted : isNumeralChar c)
    (finished : emitItems (d.item labels) fuel st
      (skipSeparators ((c :: t).dropWhile isNumeralChar)) = .done st') :
    ∃ run, c :: t = run ++ (c :: t).dropWhile isNumeralChar ∧ ',' ∉ run ∧
      ∀ field more, ((c :: t).dropWhile isNumeralChar).splitOn ',' = field :: more →
        d.numerals (run ++ field) = 1 + d.numerals field := by
  have chars : ∀ x ∈ (c :: t).takeWhile isNumeralChar, isNumeralChar x := fun x =>
    List.mem_takeWhile_imp
  have nonempty : (c :: t).takeWhile isNumeralChar ≠ [] := by
    simp [accepted]
  have solid : ∀ x ∈ (c :: t).takeWhile isNumeralChar, d.breaks x = false := by
    intro x member
    have plain := (plain_numeralChar (chars x member)).1
    cases d with
    | byte => exact absurd rfl numeric
    | half | word => exact plain
  have one (w : Text) : d.weight w = 1 := by
    cases d with
    | byte => exact absurd rfl numeric
    | half | word => rfl
  refine ⟨_, List.takeWhile_append_dropWhile.symm, ?_, ?_⟩
  · exact fun member => (plain_numeralChar (chars _ member)).2 rfl
  · intro field more split
    rw [numerals_word nonempty solid (fun x first => ?_), one]
    rcases head_field split with rfl | ⟨c', behind, after, rest, noComma, rfl⟩
    · cases first
    · cases first
      apply breaks_of_isspace
      by_contra solidHead
      have solidHead : x ≠ ',' ∧ isspace x = false := ⟨noComma, by simpa using solidHead⟩
      rw [rest, skipSeparators_solid solidHead] at finished
      have again := isNumeralChar_of_done solidHead numeric finished
      have refused := List.head?_dropWhile_not isNumeralChar (c :: t)
      rw [rest] at refused
      simp [again] at refused

theorem value_of_done {bytes : List Byte} {after : Text} (solid : c ≠ ',' ∧ isspace c = false)
    (here : emitItems (d.item labels) (fuel + 1) st (c :: t) = .done st')
    (read : d.item labels (c :: t) = .ok (bytes, after))
    (finished : emitItems (d.item labels) fuel (st.emit bytes) (skipSeparators after) =
      .done st') :
    after = d.next (c :: t) ∧ ∃ run, c :: t = run ++ after ∧ ',' ∉ run ∧
      ∀ field more, after.splitOn ',' = field :: more →
        d.numerals (run ++ field) = 1 + d.numerals field := by
  cases d with
  | byte =>
      obtain rfl := (byteItem_reads _ _ _ read).2
      exact ⟨rfl, value_byte (startsNumber_of_done solid here) finished⟩
  | half =>
      obtain rfl := (halfItem_reads _ _ _ read).2
      have numeric : half ≠ byte := by decide
      exact ⟨rfl, value_numeric numeric (isNumeralChar_of_done solid numeric here) finished⟩
  | word =>
      obtain rfl := (wordItem_reads _ _ _ read).2
      have numeric : word ≠ byte := by decide
      exact ⟨rfl, value_numeric numeric (isNumeralChar_of_done solid numeric here) finished⟩

/-- On a text without odd white space in front, a loop that ends reads one
value for each numeral. -/
theorem tally_of_done (front : ∀ c ∈ t.head?, isspace c → c = ' ' ∨ c = '\t')
    (finished : emitItems (d.item labels) fuel st t = .done st') :
    Tally d (t.splitOn ',') (valueCount d.next fuel t) := by
  induction fuel generalizing st t with
  | zero =>
      cases t with
      | nil => exact .nil
      | cons c t => cases finished
  | succ fuel induction =>
      cases t with
      | nil => exact .nil
      | cons c t =>
          have here := finished
          unfold emitItems at finished
          split at finished
          · rename_i value
            have solid : c ≠ ',' ∧ isspace c = false := by
              refine ⟨value.2.2, ?_⟩
              by_contra space
              rcases front c rfl (by simpa using space) with blank | tab
              · exact value.1 blank
              · exact value.2.1 tab
            cases read : d.item labels (c :: t) with
            | error reason =>
                rw [read] at finished
                cases finished
            | ok result =>
                obtain ⟨bytes, after⟩ := result
                rw [read] at finished
                obtain ⟨behind, run, whole, noComma, one⟩ :=
                  value_of_done solid here read finished
                have tally := (induction (head_skipSeparators after) finished).of_skipped
                rw [valueCount, if_pos value, ← behind, whole]
                exact tally.append_value noComma one
          · rename_i separator
            have tally := (induction (head_skipSeparators _) finished).of_skipped
            rwa [valueCount, if_neg separator]

/-- White space that is taken for a value is one value more. -/
theorem values_of_done (finished : emitItems (d.item labels) t.length st t = .done st') :
    ∃ n, Tally d (t.splitOn ',') n ∧ d.values t = n + if d.Leads t then 1 else 0 := by
  by_cases odd : ∃ c ∈ t.head?, isspace c ∧ c ≠ ' ' ∧ c ≠ '\t'
  · obtain ⟨c, first, space, noBlank, noTab⟩ := odd
    obtain ⟨rest, rfl⟩ := List.head?_eq_some_iff.mp first
    have noComma : c ≠ ',' := by
      rintro rfl
      cases space
    have value : c ≠ ' ' ∧ c ≠ '\t' ∧ c ≠ ',' := ⟨noBlank, noTab, noComma⟩
    have lead : ∃ x ∈ (c :: rest).head?, isspace x ∧ x ≠ ' ' ∧ x ≠ '\t' :=
      ⟨c, rfl, space, noBlank, noTab⟩
    rw [List.length_cons] at finished
    unfold emitItems at finished
    rw [if_pos value] at finished
    cases read : d.item labels (c :: rest) with
    | error reason =>
        rw [read] at finished
        cases finished
    | ok result =>
        obtain ⟨bytes, after⟩ := result
        rw [read] at finished
        have tally := (tally_of_done (head_skipSeparators after) finished).of_skipped
        have stays (same : after = c :: rest) (behind : after = d.next (c :: rest))
            (none : ¬ (d = byte ∧ StartsNumber (c :: rest))) :
            ∃ n, Tally d ((c :: rest).splitOn ',') n ∧
              d.values (c :: rest) = n + if d.Leads (c :: rest) then 1 else 0 := by
          refine ⟨_, same ▸ tally, ?_⟩
          rw [if_pos (show d.Leads (c :: rest) from ⟨lead, none⟩), values, List.length_cons,
            valueCount, if_pos value, ← behind, same]
        have immediate (numeric : d ≠ byte) (behind : after = d.next (c :: rest))
            (dropped : d.next (c :: rest) = (c :: rest).dropWhile isNumeralChar) :
            ∃ n, Tally d ((c :: rest).splitOn ',') n ∧
              d.values (c :: rest) = n + if d.Leads (c :: rest) then 1 else 0 := by
          have other : isNumeralChar c = false := by
            by_contra accepted
            have plain := plain_numeralChar (by simpa using accepted)
            rw [space] at plain
            cases plain.1
          have same : after = c :: rest := by
            rw [behind, dropped, List.dropWhile_cons, other]
            rfl
          exact stays same behind fun both => numeric both.1
        cases d with
        | byte =>
            have behind := (byteItem_reads _ _ _ read).2
            by_cases starts : StartsNumber (c :: rest)
            · rw [behind] at finished tally
              obtain ⟨run, whole, absent, one⟩ := value_byte starts finished
              have noLead : ¬ byte.Leads (c :: rest) := fun leads => leads.2 ⟨rfl, starts⟩
              refine ⟨_, by rw [whole]; exact tally.append_value absent one, ?_⟩
              rw [if_neg noLead, values, List.length_cons, valueCount, if_pos value]
              rfl
            · exact stays (behind.trans ((strtol_stays_iff _).mpr starts)) behind
                fun both => starts both.2
        | half => exact immediate (by decide) (halfItem_reads _ _ _ read).2 rfl
        | word => exact immediate (by decide) (wordItem_reads _ _ _ read).2 rfl
  · have front : ∀ c ∈ t.head?, isspace c → c = ' ' ∨ c = '\t' := by
      intro c first space
      by_contra other
      exact odd ⟨c, first, space, not_or.mp other⟩
    refine ⟨_, tally_of_done front finished, ?_⟩
    rw [if_neg fun leads => odd leads.1]
    rfl

end Values

section Agreement

variable {d : ListDirective} {labels : List Label} {st st' : Pass2} {t : Text} {n : Nat}

/-- White space other than blanks and tabs where only one pass looks for it:
right behind the name of the directive, or alone in a field. -/
def OddSpace (d : ListDirective) (t : Text) : Prop := (∃ f ∈ fields t, AllSpace f) ∨ d.Leads t

instance (d : ListDirective) (t : Text) : Decidable (d.OddSpace t) :=
  inferInstanceAs (Decidable (_ ∨ _))

/-- Every field is one numeral.  With odd white space, which the first pass
takes for a field and the second one does not, the numerals are as many as the
fields. -/
structure Matches (d : ListDirective) (t : Text) : Prop where
  plain : ¬ d.OddSpace t → ∀ f ∈ fields t, d.numerals f = 1
  odd : d.OddSpace t → ((fields t).map d.numerals).sum + (if d.Leads t then 1 else 0) =
    (fields t).length

theorem sum_fields (t : Text) :
    ((fields t).map d.numerals).sum = ((t.splitOn ',').map d.numerals).sum := by
  unfold fields
  induction t.splitOn ',' with
  | nil => rfl
  | cons f rest induction =>
      rw [List.map_cons, List.sum_cons, List.filter_cons]
      split
      · rw [List.map_cons, List.sum_cons, induction]
      · rename_i blank
        have blank : AllSpace f := by
          intro c member
          simp only [List.any_eq_true, Bool.and_eq_true, decide_eq_true_eq, not_exists,
            not_and] at blank
          by_cases space : c = ' '
          · rw [space]
            rfl
          · by_cases tab : c = '\t'
            · rw [tab]
              rfl
            · exact absurd tab (blank c member space)
        rw [numerals_allSpace blank, Nat.zero_add, induction]

theorem sum_eq_length_iff {α : Type} {g : α → Nat} {all : List α}
    (positive : ∀ a ∈ all, 1 ≤ g a) : (all.map g).sum = all.length ↔ ∀ a ∈ all, g a = 1 := by
  induction all with
  | nil => simp
  | cons a all induction =>
      rw [List.forall_mem_cons] at positive
      have bound : all.length ≤ (all.map g).sum := by
        have sum := List.length_le_sum_of_one_le (all.map g) (by simpa using positive.2)
        rwa [List.length_map] at sum
      rw [List.map_cons, List.sum_cons, List.length_cons, List.forall_mem_cons,
        ← induction positive.2]
      have := positive.1
      omega

/-- The values are as many as the fields exactly when the fields are numerals. -/
theorem values_eq_fields_iff
    (finished : emitItems (d.item labels) t.length st t = .done st') :
    d.values t = (fields t).length ↔ d.Matches t := by
  obtain ⟨n, tally, values⟩ := values_of_done finished
  have total : ((fields t).map d.numerals).sum = n := (sum_fields t).trans tally.sum
  rw [values, ← total]
  by_cases odd : d.OddSpace t
  · exact ⟨fun same => ⟨fun plain => absurd odd plain, fun _ => same⟩, fun counts => counts.odd odd⟩
  · obtain ⟨noSpaces, noLead⟩ := not_or.mp odd
    have positive : ∀ f ∈ fields t, 1 ≤ d.numerals f := by
      intro f member
      have whole : f ∈ t.splitOn ',' := List.mem_of_mem_filter member
      exact (tally.some f whole).resolve_left fun blank => noSpaces ⟨f, member, blank⟩
    rw [if_neg noLead, Nat.add_zero, sum_eq_length_iff positive]
    exact ⟨fun one => ⟨fun _ => one, fun odd' => absurd odd' odd⟩, fun counts => counts.plain odd⟩

end Agreement

end ListDirective

end RiscvPack.Asm
