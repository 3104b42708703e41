import RiscvPack.Assembler.Canonical
import RiscvPack.Assembler.Lines

/-!
# Lists of numerals

The operand text of a data directive as numerals between commas, with blanks
around them.  The first pass counts the numerals, and the second one comes
across each of them, as long as it reads them to their end.
-/

namespace RiscvPack.Asm

open CString Runs

section Lists

/-- Spaces and tabs. -/
def Blank (t : Text) : Prop := ∀ c ∈ t, c = ' ' ∨ c = '\t'

instance (t : Text) : Decidable (Blank t) :=
  inferInstanceAs (Decidable (∀ c ∈ t, c = ' ' ∨ c = '\t'))

/-- A value of a list, with the blanks around it. -/
structure ListEntry where
  before : Text
  text : Text
  value : Int
  after : Text
  numeral : Numeral text value
  blankBefore : Blank before
  blankAfter : Blank after

/-- The values of a list, separated by commas. -/
def entriesText : List ListEntry → Text
  | [] => []
  | [v] => v.before ++ v.text ++ v.after
  | v :: rest => v.before ++ v.text ++ v.after ++ ',' :: entriesText rest

namespace ListEntry

variable (v : ListEntry)

/-- What stands behind a value in the list. -/
def tail (rest : List ListEntry) : Text :=
  v.after ++ (if rest = [] then [] else ',' :: entriesText rest)

theorem entriesText_cons (rest : List ListEntry) :
    entriesText (v :: rest) = v.before ++ (v.text ++ v.tail rest) := by
  cases rest with
  | nil => simp [entriesText, tail]
  | cons next rest => simp [entriesText, tail]

theorem plain_text : ∀ c ∈ v.text, tokenChar c := (token_of_numeral v.numeral).2

theorem exists_text : ∃ c rest, v.text = c :: rest ∧
    (c ≠ ' ' ∧ c ≠ '\t' ∧ c ≠ ',') ∧ isspace c = false := by
  obtain ⟨c, rest, equal⟩ :=
    List.exists_cons_of_ne_nil (token_of_numeral v.numeral).1
  have plain := v.plain_text c (by simp [equal])
  refine ⟨c, rest, equal, ⟨?_, ?_, ?_⟩, isspace_of_tokenChar plain⟩ <;>
  · rintro rfl
    revert plain
    decide

theorem head_tail (rest : List ListEntry) :
    ∀ c ∈ (v.tail rest).head?, c = ' ' ∨ c = '\t' ∨ c = ',' := by
  intro c first
  unfold tail at first
  cases empty : v.after with
  | nil =>
      rw [empty] at first
      split at first
      · cases first
      · cases first
        simp
  | cons d after =>
      rw [empty] at first
      cases first
      have blank := v.blankAfter c (by simp [empty])
      tauto

theorem stops_tail (rest : List ListEntry) : Stops (v.tail rest) := by
  intro c first
  rcases v.head_tail rest c first with rfl | rfl | rfl <;> rfl

end ListEntry

theorem blank_isspace {t : Text} (blank : Blank t) : ∀ c ∈ t, isspace c := by
  intro c member
  rcases blank c member with rfl | rfl <;> rfl

section FirstPassCount

theorem countItems_blank {t : Text} (blank : Blank t) (s : Text) :
    countItems false (t ++ s) = countItems false s := by
  induction t with
  | nil => rfl
  | cons c t induction =>
      have tail : Blank t := fun d member => blank d (List.mem_cons_of_mem _ member)
      rw [List.cons_append, countItems]
      rcases blank c List.mem_cons_self with rfl | rfl
      · simpa using induction tail
      · simpa using induction tail

theorem countItems_inside {t : Text} (noComma : ',' ∉ t) (s : Text) :
    countItems true (t ++ s) = countItems true s := by
  induction t with
  | nil => rfl
  | cons c t induction =>
      simp only [List.mem_cons, not_or] at noComma
      have other : c ≠ ',' := Ne.symm noComma.1
      rw [List.cons_append, countItems, decide_eq_true other, induction noComma.2]

/-- The first pass counts the values of a list. -/
theorem countItems_entriesText (vs : List ListEntry) :
    countItems false (entriesText vs) = vs.length := by
  induction vs with
  | nil => rfl
  | cons v rest induction =>
      obtain ⟨c, others, text, ⟨noSpace, noTab, noComma⟩, _⟩ := v.exists_text
      have insideText : ',' ∉ others := by
        intro member
        have plain := v.plain_text ',' (by simp [text, member])
        revert plain
        decide
      have insideAfter : ',' ∉ v.after := by
        intro member
        rcases v.blankAfter _ member with blank | blank <;> revert blank <;> decide
      rw [ListEntry.entriesText_cons, countItems_blank v.blankBefore, text,
        List.cons_append, countItems, if_pos ⟨noSpace, noTab, noComma⟩,
        countItems_inside insideText, ListEntry.tail,
        countItems_inside insideAfter, List.length_cons, Nat.add_comm]
      split
      · rename_i empty
        simp [empty, countItems]
      · rw [countItems]
        simpa using induction

end FirstPassCount

section SecondPassCount

theorem skipSeparators_blank {t : Text} (blank : Blank t) (s : Text) :
    skipSeparators (t ++ s) = skipSeparators s := by
  unfold skipSeparators
  rw [List.dropWhile_append_of_pos]
  intro c member
  simp [blank_isspace blank c member]

theorem skipSeparators_value (v : ListEntry) (s : Text) :
    skipSeparators (v.text ++ s) = v.text ++ s := by
  obtain ⟨c, others, text, ⟨_, _, noComma⟩, solid⟩ := v.exists_text
  rw [text, List.cons_append, skipSeparators, List.dropWhile_cons]
  simp [noComma, solid]

theorem skipSeparators_tail (v : ListEntry) (rest : List ListEntry) :
    skipSeparators (v.tail rest) = skipSeparators (entriesText rest) := by
  rw [ListEntry.tail, skipSeparators_blank v.blankAfter]
  split
  · rename_i empty
    rw [empty]
    rfl
  · rfl

variable {next : Text → Text}

private theorem valueCount_skipped {vs : List ListEntry} {fuel : Nat}
    (reads : ∀ v ∈ vs, ∀ rest, next (v.text ++ v.tail rest) = v.tail rest)
    (enough : (skipSeparators (entriesText vs)).length ≤ fuel) :
    valueCount next fuel (skipSeparators (entriesText vs)) = vs.length := by
  induction vs generalizing fuel with
  | nil =>
      show valueCount next fuel [] = 0
      simp [valueCount]
  | cons v rest induction =>
      obtain ⟨c, others, text, value, _⟩ := v.exists_text
      have here : skipSeparators (entriesText (v :: rest)) = v.text ++ v.tail rest := by
        rw [ListEntry.entriesText_cons, skipSeparators_blank v.blankBefore,
          skipSeparators_value]
      have shorter : (skipSeparators (entriesText rest)).length ≤ (v.tail rest).length := by
        rw [← skipSeparators_tail v]
        exact List.length_dropWhile_le _ _
      rw [here, List.length_append, text, List.length_cons] at enough
      obtain ⟨fuel, rfl⟩ := Nat.exists_eq_add_of_lt (show 0 < fuel by omega)
      rw [here, text, List.cons_append, Nat.zero_add, valueCount, if_pos value,
        ← List.cons_append, ← text, reads v List.mem_cons_self, skipSeparators_tail,
        induction (fun w member => reads w (List.mem_cons_of_mem _ member)) (by omega),
        List.length_cons]

/-- The second pass reads the values of a list. -/
theorem valueCount_entriesText {vs : List ListEntry}
    (reads : ∀ v ∈ vs, ∀ rest, next (v.text ++ v.tail rest) = v.tail rest) :
    valueCount next (entriesText vs).length (entriesText vs) = vs.length := by
  cases vs with
  | nil => rfl
  | cons v rest =>
      have whole := v.entriesText_cons rest
      cases blanks : v.before with
      | nil =>
          rw [blanks, List.nil_append] at whole
          have skipped : skipSeparators (entriesText (v :: rest)) =
              entriesText (v :: rest) := by
            rw [whole, skipSeparators_value]
          rw [← skipped]
          exact valueCount_skipped reads le_rfl
      | cons b others =>
          rw [blanks, List.cons_append] at whole
          have blank : ¬ (b ≠ ' ' ∧ b ≠ '\t' ∧ b ≠ ',') := by
            have := v.blankBefore b (by simp [blanks])
            tauto
          have first : skipSeparators (entriesText (v :: rest)) =
              skipSeparators (others ++ (v.text ++ v.tail rest)) := by
            rw [whole]
            exact skipSeparators_blank (t := [b])
              (fun c member => v.blankBefore c (by
                rw [List.mem_singleton.mp member, blanks]
                exact List.mem_cons_self)) _
          have shorter : (skipSeparators (entriesText (v :: rest))).length ≤
              (others ++ (v.text ++ v.tail rest)).length := by
            rw [first]
            exact List.length_dropWhile_le _ _
          have count := valueCount_skipped reads shorter
          rw [whole] at count ⊢
          rw [List.length_cons, valueCount, if_neg blank]
          exact count

end SecondPassCount

section Readers

theorem isNumeralChar_of_digit {c : Char} (digit : digitValue c < 16) :
    isNumeralChar c := by
  have ranges : (48 ≤ c.toNat ∧ c.toNat ≤ 57) ∨ (97 ≤ c.toNat ∧ c.toNat ≤ 102) ∨
      65 ≤ c.toNat ∧ c.toNat ≤ 70 := by
    unfold digitValue at digit
    split_ifs at digit <;> omega
  have all : ∀ n < 128, (48 ≤ n ∧ n ≤ 57) ∨ (97 ≤ n ∧ n ≤ 102) ∨ 65 ≤ n ∧ n ≤ 70 →
      isNumeralChar (Char.ofNat n) = true := by
    decide
  have accepted := all c.toNat (by omega) ranges
  rwa [Char.ofNat_toNat] at accepted

theorem isNumeralChar_of_numeral {text : Text} {n : Int}
    (numeral : Numeral text n) : ∀ c ∈ text, isNumeralChar c := by
  have mark {x : Char} (isMark : x = 'x' ∨ x = 'X') : isNumeralChar x := by
    rcases isMark with rfl | rfl <;> rfl
  have decimal {digits : Text} (valid : ∀ c ∈ digits, digitValue c < 10) :
      ∀ c ∈ digits, isNumeralChar c := fun c member =>
    isNumeralChar_of_digit ((valid c member).trans (by decide))
  have hexadecimal {digits : Text} (valid : ∀ c ∈ digits, digitValue c < 16) :
      ∀ c ∈ digits, isNumeralChar c := fun c member =>
    isNumeralChar_of_digit (valid c member)
  have minus : isNumeralChar '-' := rfl
  have zero : isNumeralChar '0' := rfl
  cases numeral with
  | decimal _ valid => exact decimal valid
  | negative _ valid =>
      rw [List.forall_mem_cons]
      exact ⟨minus, decimal valid⟩
  | hex isMark _ valid =>
      rw [List.forall_mem_cons, List.forall_mem_cons]
      exact ⟨zero, mark isMark, hexadecimal valid⟩
  | negativeHex isMark _ valid =>
      rw [List.forall_mem_cons, List.forall_mem_cons, List.forall_mem_cons]
      exact ⟨minus, zero, mark isMark, hexadecimal valid⟩

theorem dropWhile_entry (v : ListEntry) (rest : List ListEntry) :
    (v.text ++ v.tail rest).dropWhile isNumeralChar = v.tail rest := by
  rw [List.dropWhile_append_of_pos (isNumeralChar_of_numeral v.numeral)]
  cases tail : v.tail rest with
  | nil => rfl
  | cons c others =>
      have separator := v.head_tail rest c (by rw [tail]; rfl)
      have stops : isNumeralChar c = false := by
        rcases separator with rfl | rfl | rfl <;> rfl
      rw [List.dropWhile_cons, stops]
      rfl

end Readers

end Lists

end RiscvPack.Asm
