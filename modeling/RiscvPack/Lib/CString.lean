import Mathlib.Data.List.DropRight
import Mathlib.Data.List.TakeWhile
import Mathlib.Tactic.Linarith
import Mathlib.Tactic.Ring

/-!
# C strings and numerals

The parts of the C string library that line-oriented parsers use, over lists
of characters: searching, trimming, `strtol` and `%d`.  A search returns the
text on both sides of what it finds instead of a pointer.  Numerals are the
texts on which reading and printing agree.
-/

namespace CString

abbrev Text := List Char

section Decisions

-- A statement about the characters of a text is decided along the text, not
-- over all characters.
variable (p : Char → Prop) [DecidablePred p]

instance (priority := 2000) decidableForallText (t : Text) : Decidable (∀ c ∈ t, p c) :=
  List.decidableBAll p t

instance (priority := 2000) decidableExistsText (t : Text) : Decidable (∃ c ∈ t, p c) :=
  List.decidableBEx p t

instance (priority := 2000) decidableForallChar (o : Option Char) :
    Decidable (∀ c ∈ o, p c) :=
  Option.decidableForallMem o

instance (priority := 2000) decidableExistsChar (o : Option Char) :
    Decidable (∃ c ∈ o, p c) :=
  Option.decidableExistsMem o

end Decisions

def isspace (c : Char) : Bool :=
  c == ' ' || (9 ≤ c.toNat && c.toNat ≤ 13)

section Searching

/-- `strchr`: the text before the first `c` and the text after it. -/
def strchr (c : Char) : Text → Option (Text × Text)
  | [] => none
  | d :: s =>
      if d = c then some ([], s)
      else (strchr c s).map fun (before, after) => (d :: before, after)

theorem strchr_append {c : Char} {before : Text} (absent : c ∉ before)
    (after : Text) : strchr c (before ++ c :: after) = some (before, after) := by
  induction before with
  | nil => simp [strchr]
  | cons d before induction =>
      simp only [List.mem_cons, not_or] at absent
      have different : d ≠ c := fun same => absent.1 same.symm
      simp [strchr, different, induction absent.2]

theorem strchr_eq_none {c : Char} {s : Text} (absent : c ∉ s) :
    strchr c s = none := by
  induction s with
  | nil => rfl
  | cons d s induction =>
      simp only [List.mem_cons, not_or] at absent
      have different : d ≠ c := fun same => absent.1 same.symm
      simp [strchr, different, induction absent.2]

theorem eq_append_of_strchr {c : Char} {s before after : Text}
    (found : strchr c s = some (before, after)) :
    s = before ++ c :: after ∧ c ∉ before := by
  induction s generalizing before with
  | nil => cases found
  | cons d s induction =>
      unfold strchr at found
      split at found
      · rename_i same
        cases found
        simp [same]
      · rename_i different
        obtain ⟨⟨inner, rest⟩, foundRest, equal⟩ :=
          Option.map_eq_some_iff.mp found
        cases equal
        obtain ⟨split, absent⟩ := induction foundRest
        refine ⟨by rw [split]; rfl, ?_⟩
        simp [absent, Ne.symm different]

theorem not_mem_of_strchr_eq_none {c : Char} {s : Text}
    (missing : strchr c s = none) : c ∉ s := by
  intro present
  obtain ⟨before, after, rfl, absent⟩ := List.eq_append_cons_of_mem present
  rw [strchr_append absent] at missing
  cases missing

theorem takeWhile_ne_append {c : Char} {s : Text} (absent : c ∉ s) (t : Text) :
    (s ++ t).takeWhile (· ≠ c) = s ++ t.takeWhile (· ≠ c) := by
  apply List.takeWhile_append_of_pos
  intro d member
  have other : d ≠ c := fun same => absent (same ▸ member)
  simpa using other

theorem takeWhile_ne_self {c : Char} {s : Text} (absent : c ∉ s) :
    s.takeWhile (· ≠ c) = s := by
  have whole := takeWhile_ne_append absent []
  rwa [List.append_nil, List.takeWhile_nil, List.append_nil] at whole

theorem takeWhile_ne_cons {c : Char} {s : Text} (absent : c ∉ s) (t : Text) :
    (s ++ c :: t).takeWhile (· ≠ c) = s := by
  rw [takeWhile_ne_append absent, List.takeWhile_cons_of_neg (by simp), List.append_nil]

theorem prefix_takeWhile {p : Char → Bool} {s t : Text} (starts : s <+: t) :
    s.takeWhile p <+: t.takeWhile p := by
  obtain ⟨rest, rfl⟩ := starts
  rw [List.takeWhile_append]
  split
  · exact (List.takeWhile_prefix p).trans (List.prefix_append s _)
  · exact List.prefix_refl _

theorem takeWhile_solid {s t : Text} {c : Char} (solid : ∀ d ∈ s, isspace d = false)
    (white : isspace c) : (s ++ c :: t).takeWhile (!isspace ·) = s := by
  have accepted : ∀ d ∈ s, (!isspace d) = true := by
    intro d member
    rw [solid d member]
    rfl
  rw [List.takeWhile_append_of_pos accepted, List.takeWhile_cons_of_neg (by simp [white]),
    List.append_nil]

theorem dropWhile_solid {s t : Text} {c : Char} (solid : ∀ d ∈ s, isspace d = false)
    (white : isspace c) : (s ++ c :: t).dropWhile (!isspace ·) = c :: t := by
  have split := List.takeWhile_append_dropWhile (p := (!isspace ·)) (l := s ++ c :: t)
  rw [takeWhile_solid solid white] at split
  exact List.append_cancel_left split

theorem strchr_behind {c : Char} {front : Text} (absent : c ∉ front) (t : Text) :
    strchr c (front ++ t) =
      (strchr c t).map fun (before, after) => (front ++ before, after) := by
  cases found : strchr c t with
  | none =>
      apply strchr_eq_none
      rw [List.mem_append, not_or]
      exact ⟨absent, not_mem_of_strchr_eq_none found⟩
  | some split =>
      obtain ⟨before, after⟩ := split
      obtain ⟨rfl, missing⟩ := eq_append_of_strchr found
      rw [← List.append_assoc]
      apply strchr_append
      rw [List.mem_append, not_or]
      exact ⟨absent, missing⟩

theorem prefix_append_cons_iff {c : Char} {w : Text} (absent : c ∉ w) (x y : Text) :
    w <+: x ++ c :: y ↔ w <+: x := by
  constructor
  · intro front
    induction x generalizing w with
    | nil =>
        cases w with
        | nil => exact List.nil_prefix
        | cons d w =>
            rw [(List.cons_prefix_cons.mp front).1] at absent
            exact absurd List.mem_cons_self absent
    | cons d x induction =>
        cases w with
        | nil => exact List.nil_prefix
        | cons e w =>
            rw [List.mem_cons, not_or] at absent
            obtain ⟨same, rest⟩ := List.cons_prefix_cons.mp front
            exact List.cons_prefix_cons.mpr ⟨same, induction absent.2 rest⟩
  · exact List.prefix_append_of_prefix

theorem infix_append_cons_iff {c : Char} {w : Text} (absent : c ∉ w) (x y : Text) :
    w <:+: x ++ c :: y ↔ w <:+: x ∨ w <:+: y := by
  constructor
  · intro inside
    induction x with
    | nil =>
        rcases List.infix_cons_iff.mp inside with front | behind
        · have empty := (prefix_append_cons_iff absent [] y).mp front
          exact .inl empty.isInfix
        · exact .inr behind
    | cons d x induction =>
        rcases List.infix_cons_iff.mp inside with front | behind
        · have start := (prefix_append_cons_iff absent (d :: x) y).mp front
          exact .inl start.isInfix
        · exact (induction behind).imp_left List.infix_cons
  · rintro (front | behind)
    · exact List.infix_append_of_infix_left front
    · exact List.infix_append_of_infix_right (List.infix_cons behind)

end Searching

section Trimming

def skipSpaces (s : Text) : Text := s.dropWhile isspace

/-- `trim`: the text without leading and trailing white space. -/
def trim (s : Text) : Text := (skipSpaces s).rdropWhile isspace

/-- What `trim` leaves in the buffer when the pointer it returns is dropped:
the leading white space is still there. -/
def trimInPlace (s : Text) : Text := s.takeWhile isspace ++ trim s

/-- Neither end of the text is white space. -/
structure Trimmed (s : Text) : Prop where
  head : ∀ c ∈ s.head?, isspace c = false
  last : ∀ c ∈ s.getLast?, isspace c = false

theorem skipSpaces_of_head {s : Text}
    (head : ∀ c ∈ s.head?, isspace c = false) : skipSpaces s = s := by
  cases s with
  | nil => rfl
  | cons c s => simp [skipSpaces, head c rfl]

theorem skipSpaces_append {spaces : Text} (blank : ∀ c ∈ spaces, isspace c)
    (s : Text) : skipSpaces (spaces ++ s) = skipSpaces s := by
  unfold skipSpaces
  rw [List.dropWhile_append, List.dropWhile_eq_nil_iff.mpr blank]
  rfl

theorem trim_append {spaces : Text} (blank : ∀ c ∈ spaces, isspace c) (s : Text) :
    trim (spaces ++ s) = trim s := by
  rw [trim, skipSpaces_append blank, trim]

theorem not_mem_blank {spaces : Text} {c : Char} (solid : isspace c = false)
    (blank : ∀ d ∈ spaces, isspace d) : c ∉ spaces := by
  intro member
  rw [blank c member] at solid
  cases solid

theorem rdropWhile_of_last {s : Text}
    (last : ∀ c ∈ s.getLast?, isspace c = false) : s.rdropWhile isspace = s := by
  rw [List.rdropWhile_eq_self_iff]
  intro nonempty
  simp [last _ (List.getLast?_eq_getLast_of_ne_nil nonempty)]

theorem trim_of_trimmed {s : Text} (trimmed : Trimmed s) : trim s = s := by
  rw [trim, skipSpaces_of_head trimmed.head, rdropWhile_of_last trimmed.last]

theorem trimInPlace_of_trimmed {s : Text} (trimmed : Trimmed s) :
    trimInPlace s = s := by
  have noSpaces : s.takeWhile isspace = [] := by
    cases s with
    | nil => rfl
    | cons c s => simp [trimmed.head c rfl]
  rw [trimInPlace, noSpaces, trim_of_trimmed trimmed, List.nil_append]

theorem head_skipSpaces (s : Text) :
    ∀ c ∈ (skipSpaces s).head?, isspace c = false := by
  intro c first
  have stopped := List.head?_dropWhile_not isspace s
  rw [skipSpaces] at first
  rw [Option.mem_def.mp first] at stopped
  simpa using stopped

theorem trimmed_rdropWhile {s : Text}
    (head : ∀ c ∈ s.head?, isspace c = false) :
    Trimmed (s.rdropWhile isspace) where
  head := by
    intro c first
    obtain ⟨dropped, split⟩ := List.rdropWhile_prefix isspace (l := s)
    apply head
    rw [← split, List.head?_append, Option.mem_def.mp first]
    rfl
  last := by
    intro c final
    cases empty : s.rdropWhile isspace with
    | nil => simp [empty] at final
    | cons d rest =>
        have nonempty : s.rdropWhile isspace ≠ [] := by simp [empty]
        have stopped := List.rdropWhile_last_not isspace s nonempty
        rw [List.getLast?_eq_getLast_of_ne_nil nonempty] at final
        cases final
        simpa using stopped

theorem trimmed_trim (s : Text) : Trimmed (trim s) :=
  trimmed_rdropWhile (head_skipSpaces s)

theorem rdropWhile_append_cons {c : Char} (solid : isspace c = false)
    (a b : Text) :
    (a ++ c :: b).rdropWhile isspace = a ++ c :: b.rdropWhile isspace := by
  unfold List.rdropWhile
  rw [List.reverse_append, List.reverse_cons, List.append_assoc,
    List.dropWhile_append]
  split
  · rename_i empty
    rw [List.isEmpty_iff.mp empty, List.singleton_append, List.dropWhile_cons,
      solid]
    simp
  · simp

theorem skipSpaces_append_cons {c : Char} (solid : isspace c = false)
    (a b : Text) : skipSpaces (a ++ c :: b) = skipSpaces a ++ c :: b := by
  unfold skipSpaces
  rw [List.dropWhile_append]
  split
  · rename_i empty
    rw [List.isEmpty_iff.mp empty, List.nil_append, List.dropWhile_cons, solid]
    rfl
  · rfl

theorem trim_append_cons {c : Char} (solid : isspace c = false) (a b : Text) :
    trim (a ++ c :: b) = skipSpaces a ++ c :: b.rdropWhile isspace := by
  rw [trim, skipSpaces_append_cons solid, rdropWhile_append_cons solid]

theorem trim_rdropWhile (s : Text) : trim (s.rdropWhile isspace) = trim s := by
  by_cases blank : ∀ c ∈ s, isspace c
  · rw [List.rdropWhile_eq_nil_iff.mpr blank, trim, trim, skipSpaces,
      skipSpaces, List.dropWhile_eq_nil_iff.mpr blank]
    rfl
  · push Not at blank
    obtain ⟨c, member, solid⟩ := blank
    obtain ⟨front, back, rfl⟩ := List.append_of_mem member
    have solid : isspace c = false := by simpa using solid
    rw [rdropWhile_append_cons solid, trim_append_cons solid,
      trim_append_cons solid, List.rdropWhile_idempotent]

theorem rdropWhile_append_right {spaces : Text} (blank : ∀ c ∈ spaces, isspace c)
    (s : Text) : (s ++ spaces).rdropWhile isspace = s.rdropWhile isspace := by
  unfold List.rdropWhile
  rw [List.reverse_append, List.dropWhile_append,
    List.dropWhile_eq_nil_iff.mpr (by simpa using blank)]
  rfl

theorem trim_append_right {spaces : Text} (blank : ∀ c ∈ spaces, isspace c) (s : Text) :
    trim (s ++ spaces) = trim s := by
  rw [← trim_rdropWhile, rdropWhile_append_right blank, trim_rdropWhile]

theorem mem_of_mem_skipSpaces {c : Char} {t : Text}
    (member : c ∈ skipSpaces t) : c ∈ t :=
  (List.dropWhile_sublist _).subset member

theorem mem_of_mem_trim {c : Char} {t : Text} (member : c ∈ trim t) : c ∈ t :=
  (List.dropWhile_sublist _).subset ((List.rdropWhile_prefix _ _).subset member)

theorem length_trim_le (t : Text) : (trim t).length ≤ t.length :=
  (List.rdropWhile_prefix _ _).length_le.trans (List.length_dropWhile_le _ _)

end Trimming

section Numbers

/-- The value of a character as a digit; 36 when it is none in any base. -/
def digitValue (c : Char) : Nat :=
  if 48 ≤ c.toNat ∧ c.toNat ≤ 57 then c.toNat - 48
  else if 97 ≤ c.toNat ∧ c.toNat ≤ 122 then c.toNat - 87
  else if 65 ≤ c.toNat ∧ c.toNat ≤ 90 then c.toNat - 55
  else 36

def ofDigits (base : Nat) (s : Text) : Nat :=
  s.foldl (fun n c => base * n + digitValue c) 0

/-- The base to read in, and the text after a `0x` prefix.  The prefix counts
only when a hexadecimal digit follows it. -/
def radix (base : Nat) (s : Text) : Nat × Text :=
  match s with
  | '0' :: x :: d :: rest =>
      if (base = 16 ∨ base = 0) ∧ (x = 'x' ∨ x = 'X') ∧ digitValue d < 16 then
        (16, d :: rest)
      else (if base = 0 then 8 else base, s)
  | '0' :: _ => (if base = 0 then 8 else base, s)
  | _ => (if base = 0 then 10 else base, s)

/-- The range of `long`. -/
def clampLong (n : Int) : Int := max (-2 ^ 63) (min n (2 ^ 63 - 1))

def sign : Text → Bool × Text
  | '-' :: rest => (true, rest)
  | '+' :: rest => (false, rest)
  | s => (false, s)

/-- `strtol`: the number at the front of the text and the text after it; zero
and the whole text when there is no number. -/
def strtol (base : Nat) (s : Text) : Int × Text :=
  let (negative, body) := sign (skipSpaces s)
  let (base, body) := radix base body
  let digits := body.takeWhile (digitValue · < base)
  if digits = [] then (0, s)
  else
    let magnitude : Int := ofDigits base digits
    (clampLong (if negative then -magnitude else magnitude),
      body.dropWhile (digitValue · < base))

theorem sign_suffix (s : Text) : (sign s).2 <:+ s := by
  unfold sign
  split
  · exact List.suffix_cons _ _
  · exact List.suffix_cons _ _
  · exact List.suffix_refl _

theorem radix_suffix (base : Nat) (s : Text) : (radix base s).2 <:+ s := by
  unfold radix
  split
  · split
    · exact (List.suffix_cons _ _).trans (List.suffix_cons _ _)
    · exact List.suffix_refl _
  · exact List.suffix_refl _
  · exact List.suffix_refl _

/-- What `strtol` reads, it reads from the front. -/
theorem strtol_suffix (base : Nat) (s : Text) : (strtol base s).2 <:+ s := by
  unfold strtol
  simp only
  split
  · exact List.suffix_refl _
  · exact (List.dropWhile_suffix _).trans ((radix_suffix _ _).trans
      ((sign_suffix _).trans (List.dropWhile_suffix _)))

/-- `printf` of an `int` with `%d`. -/
def printInt (n : Int) : Text :=
  if n < 0 then '-' :: Nat.toDigits 10 n.natAbs else Nat.toDigits 10 n.natAbs

/-- The texts that denote an integer, in decimal or with a `0x` prefix. -/
inductive Numeral : Text → Int → Prop where
  | decimal {digits : Text} (nonempty : digits ≠ [])
      (valid : ∀ c ∈ digits, digitValue c < 10) :
      Numeral digits (ofDigits 10 digits)
  | negative {digits : Text} (nonempty : digits ≠ [])
      (valid : ∀ c ∈ digits, digitValue c < 10) :
      Numeral ('-' :: digits) (-ofDigits 10 digits)
  | hex {x : Char} {digits : Text} (mark : x = 'x' ∨ x = 'X')
      (nonempty : digits ≠ []) (valid : ∀ c ∈ digits, digitValue c < 16) :
      Numeral ('0' :: x :: digits) (ofDigits 16 digits)
  | negativeHex {x : Char} {digits : Text} (mark : x = 'x' ∨ x = 'X')
      (nonempty : digits ≠ []) (valid : ∀ c ∈ digits, digitValue c < 16) :
      Numeral ('-' :: '0' :: x :: digits) (-ofDigits 16 digits)

/-- The text does not continue a number that stands before it. -/
def Stops (rest : Text) : Prop := ∀ c ∈ rest.head?, digitValue c = 36

theorem stops_nil : Stops [] := by
  intro c first
  cases first

theorem isDigit_range {c : Char} :
    c.isDigit = true ↔ 48 ≤ c.toNat ∧ c.toNat ≤ 57 :=
  Char.isDigit_iff_toNat

theorem digitValue_lt_ten {c : Char} : digitValue c < 10 ↔ c.isDigit := by
  rw [isDigit_range]
  unfold digitValue
  split_ifs <;> omega

/-- A number stands at the front of the text, after white space and a sign. -/
def StartsNumber (s : Text) : Prop := ∃ c ∈ (sign (skipSpaces s)).2.head?, c.isDigit

instance (s : Text) : Decidable (StartsNumber s) :=
  decidable_of_iff ((sign (skipSpaces s)).2.head?.any Char.isDigit)
    (by simp [StartsNumber, Option.any_eq_true])

/-- `strtol` with base zero stays where it is when there is no number. -/
theorem strtol_stays_iff (s : Text) : (strtol 0 s).2 = s ↔ ¬ StartsNumber s := by
  unfold StartsNumber
  have inside : (sign (skipSpaces s)).2 <:+ s :=
    (sign_suffix _).trans (List.dropWhile_suffix _)
  unfold strtol
  simp only
  generalize (sign (skipSpaces s)).2 = body at inside ⊢
  have read : ((radix 0 body).2.takeWhile (digitValue · < (radix 0 body).1)) = [] ↔
      ¬ ∃ c ∈ body.head?, c.isDigit := by
    unfold radix
    split
    · rename_i x d rest
      split
      · rename_i hex
        simp [hex.2.2, show ('0' : Char).isDigit from rfl]
      · simp [digitValue, show ('0' : Char).isDigit from rfl]
    · simp [digitValue, show ('0' : Char).isDigit from rfl]
    · cases body with
      | nil => simp
      | cons c rest =>
          simp only [List.takeWhile_cons, List.head?_cons]
          simp only [if_true, decide_eq_true_eq, digitValue_lt_ten]
          by_cases digit : c.isDigit
          · simp [digit]
          · simp [digit]
  by_cases none : (radix 0 body).2.takeWhile (digitValue · < (radix 0 body).1) = []
  · rw [if_pos none]
    exact iff_of_true rfl (read.mp none)
  · rw [if_neg none]
    refine iff_of_false ?_ (fun absent => none (read.mpr absent))
    intro same
    have shorter : ((radix 0 body).2.dropWhile
        (digitValue · < (radix 0 body).1)).length < (radix 0 body).2.length := by
      have whole := congrArg List.length (List.takeWhile_append_dropWhile
        (p := (digitValue · < (radix 0 body).1)) (l := (radix 0 body).2))
      rw [List.length_append] at whole
      have some := List.length_pos_iff.mpr none
      omega
    have bound := (radix_suffix 0 body).length_le
    have bound' := inside.length_le
    have length := congrArg List.length same
    simp only at length
    omega

theorem isspace_of_printable {c : Char} (printable : 32 < c.toNat) :
    isspace c = false := by
  have noBlank : c ≠ ' ' := by
    rintro rfl
    exact absurd printable (by decide)
  simp only [isspace, Bool.or_eq_false_iff, Bool.and_eq_false_iff,
    decide_eq_false_iff_not, beq_eq_false_iff_ne]
  exact ⟨noBlank, Or.inr (by omega)⟩

theorem isspace_of_digit {c : Char} (digit : c.isDigit) : isspace c = false :=
  isspace_of_printable (by have range := isDigit_range.mp digit; omega)

theorem split_digits {base : Nat} (small : base ≤ 36) {digits : Text}
    (valid : ∀ c ∈ digits, digitValue c < base) {rest : Text}
    (stops : Stops rest) :
    (digits ++ rest).takeWhile (digitValue · < base) = digits ∧
      (digits ++ rest).dropWhile (digitValue · < base) = rest := by
  have accepted : ∀ c ∈ digits, decide (digitValue c < base) = true := by
    simpa using valid
  have ends : rest.takeWhile (digitValue · < base) = [] ∧
      rest.dropWhile (digitValue · < base) = rest := by
    cases rest with
    | nil => exact ⟨rfl, rfl⟩
    | cons c rest =>
        have refused : ¬ digitValue c < base := by
          rw [stops c rfl]
          omega
        simp [refused]
  constructor
  · rw [List.takeWhile_append_of_pos accepted, ends.1, List.append_nil]
  · rw [List.dropWhile_append_of_pos accepted, ends.2]

theorem sign_of_digit {c : Char} (digit : c.isDigit) (rest : Text) :
    sign (c :: rest) = (false, c :: rest) := by
  unfold sign
  split
  · rename_i equal
    cases equal
    exact absurd digit (by decide)
  · rename_i equal
    cases equal
    exact absurd digit (by decide)
  · rfl

theorem radix_ten (s : Text) : radix 10 s = (10, s) := by
  unfold radix
  split <;> simp

theorem radix_hex {x : Char} (mark : x = 'x' ∨ x = 'X') {digits : Text}
    (nonempty : digits ≠ []) (valid : ∀ c ∈ digits, digitValue c < 16)
    (rest : Text) :
    radix 16 ('0' :: x :: (digits ++ rest)) = (16, digits ++ rest) := by
  obtain ⟨d, others, rfl⟩ := List.exists_cons_of_ne_nil nonempty
  simp [radix, mark, valid d (by simp)]

private theorem strtol_body {base : Nat} {s body digits rest : Text}
    (negative : Bool) {readBase : Nat} (small : readBase ≤ 36)
    (signed : sign (skipSpaces s) = (negative, body))
    (based : radix base body = (readBase, digits ++ rest))
    (nonempty : digits ≠ []) (valid : ∀ c ∈ digits, digitValue c < readBase)
    (stops : Stops rest) :
    strtol base s =
      (clampLong (if negative then -(ofDigits readBase digits : Int)
        else ofDigits readBase digits), rest) := by
  obtain ⟨taken, dropped⟩ := split_digits small valid stops
  unfold strtol
  simp only [signed, based, taken, dropped, if_neg nonempty]

theorem skipSpaces_of_digit {digits : Text} (nonempty : digits ≠ [])
    (valid : ∀ c ∈ digits, digitValue c < 10) (rest : Text) :
    skipSpaces (digits ++ rest) = digits ++ rest := by
  apply skipSpaces_of_head
  obtain ⟨c, others, rfl⟩ := List.exists_cons_of_ne_nil nonempty
  intro d first
  cases first
  exact isspace_of_digit (digitValue_lt_ten.mp (valid c (by simp)))

theorem strtol_decimal {digits : Text} (nonempty : digits ≠ [])
    (valid : ∀ c ∈ digits, digitValue c < 10) {rest : Text}
    (stops : Stops rest) :
    strtol 10 (digits ++ rest) = (clampLong (ofDigits 10 digits), rest) := by
  refine strtol_body false (by decide) ?_ (radix_ten _) nonempty
    valid stops
  rw [skipSpaces_of_digit nonempty valid]
  obtain ⟨c, others, rfl⟩ := List.exists_cons_of_ne_nil nonempty
  exact sign_of_digit (digitValue_lt_ten.mp (valid c (by simp))) _

theorem strtol_bare {s : Text} (bare : sign (skipSpaces s) = (false, s)) :
    strtol 10 s =
      if s.takeWhile (digitValue · < 10) = [] then (0, s)
      else (clampLong (ofDigits 10 (s.takeWhile (digitValue · < 10))),
        s.dropWhile (digitValue · < 10)) := by
  unfold strtol
  simp only [bare, radix_ten, Bool.false_eq_true, if_false]

/-- The end pointer of `strtol` is at the end of a bare text exactly when the
text has digits only. -/
theorem strtol_bare_ends {s : Text} (bare : sign (skipSpaces s) = (false, s)) :
    (strtol 10 s).2 = [] ↔ ∀ c ∈ s, c.isDigit := by
  have ends : s.dropWhile (digitValue · < 10) = [] ↔ ∀ c ∈ s, c.isDigit := by
    simp only [List.dropWhile_eq_nil_iff, decide_eq_true_eq, digitValue_lt_ten]
  rw [strtol_bare bare]
  by_cases none : s.takeWhile (digitValue · < 10) = []
  · rw [if_pos none]
    have untouched := List.takeWhile_append_dropWhile
      (p := (digitValue · < 10)) (l := s)
    rw [none, List.nil_append] at untouched
    rw [← ends, untouched]
  · rw [if_neg none]
    exact ends

theorem strtol_digits {digits : Text} (valid : ∀ c ∈ digits, c.isDigit) :
    strtol 10 digits = (clampLong (ofDigits 10 digits), []) := by
  by_cases nonempty : digits = []
  · subst nonempty
    rfl
  · have read := strtol_decimal nonempty
      (fun c member => digitValue_lt_ten.mpr (valid c member)) stops_nil
    rwa [List.append_nil] at read

theorem strtol_negative {digits : Text} (nonempty : digits ≠ [])
    (valid : ∀ c ∈ digits, digitValue c < 10) {rest : Text}
    (stops : Stops rest) :
    strtol 10 ('-' :: (digits ++ rest)) =
      (clampLong (-ofDigits 10 digits), rest) :=
  strtol_body true (by decide) rfl (radix_ten _) nonempty valid stops

theorem strtol_hex {x : Char} (mark : x = 'x' ∨ x = 'X') {digits : Text}
    (nonempty : digits ≠ []) (valid : ∀ c ∈ digits, digitValue c < 16)
    {rest : Text} (stops : Stops rest) :
    strtol 16 ('0' :: x :: (digits ++ rest)) =
      (clampLong (ofDigits 16 digits), rest) :=
  strtol_body false (by decide) rfl (radix_hex mark nonempty valid rest)
    nonempty valid stops

theorem strtol_negativeHex {x : Char} (mark : x = 'x' ∨ x = 'X')
    {digits : Text} (nonempty : digits ≠ [])
    (valid : ∀ c ∈ digits, digitValue c < 16) {rest : Text}
    (stops : Stops rest) :
    strtol 16 ('-' :: '0' :: x :: (digits ++ rest)) =
      (clampLong (-ofDigits 16 digits), rest) :=
  strtol_body true (by decide) rfl (radix_hex mark nonempty valid rest)
    nonempty valid stops

/-- A numeral that base zero does not read as octal. -/
def Canonical (s : Text) : Prop :=
  ∀ d rest, s = '0' :: d :: rest ∨ s = '-' :: '0' :: d :: rest → d = 'x' ∨ d = 'X'

theorem radix_auto_digits {digits : Text} (nonempty : digits ≠ [])
    (valid : ∀ c ∈ digits, digitValue c < 10)
    (canonical : ∀ d rest, digits ≠ '0' :: d :: rest) {rest : Text}
    (stops : Stops rest) :
    ∃ base, radix 0 (digits ++ rest) = (base, digits ++ rest) ∧ base ≤ 36 ∧
      (∀ c ∈ digits, digitValue c < base) ∧
      ofDigits base digits = ofDigits 10 digits := by
  obtain ⟨c, others, rfl⟩ := List.exists_cons_of_ne_nil nonempty
  by_cases zero : c = '0'
  · subst zero
    have single : others = [] := by
      cases others with
      | nil => rfl
      | cons d others => exact absurd rfl (canonical d others)
    subst single
    refine ⟨8, ?_, by decide, by simp [digitValue], rfl⟩
    have octal : ∀ x d more, rest = x :: d :: more →
        ¬ ((x = 'x' ∨ x = 'X') ∧ digitValue d < 16) := by
      rintro x d more rfl ⟨mark, _⟩
      have none := stops x rfl
      rcases mark with rfl | rfl <;> revert none <;> decide
    match rest, octal with
    | [], _ => rfl
    | [_], _ => rfl
    | x :: d :: more, octal =>
        have refused := octal x d more rfl
        simp only [radix, List.singleton_append]
        rw [if_neg (fun all => refused all.2)]
        rfl
  · refine ⟨10, ?_, by decide, valid, rfl⟩
    rw [List.cons_append]
    unfold radix
    split
    · rename_i equal
      exact absurd (List.cons.inj equal).1 zero
    · rename_i equal
      exact absurd (List.cons.inj equal).1 zero
    · rfl

theorem radix_auto_hex {x : Char} (mark : x = 'x' ∨ x = 'X') {digits : Text}
    (nonempty : digits ≠ []) (valid : ∀ c ∈ digits, digitValue c < 16)
    (rest : Text) :
    radix 0 ('0' :: x :: (digits ++ rest)) = (16, digits ++ rest) := by
  obtain ⟨d, others, rfl⟩ := List.exists_cons_of_ne_nil nonempty
  simp [radix, mark, valid d (by simp)]

/-- With base zero `strtol` reads a canonical numeral to its end. -/
theorem strtol_auto {s rest : Text} {n : Int} (numeral : Numeral s n)
    (canonical : Canonical s) (stops : Stops rest) :
    strtol 0 (s ++ rest) = (clampLong n, rest) := by
  cases numeral with
  | decimal nonempty valid =>
      obtain ⟨base, based, small, accepted, value⟩ :=
        radix_auto_digits nonempty valid
          (by
            rintro d others rfl
            have digit := valid d (by simp)
            rcases canonical d others (.inl rfl) with rfl | rfl <;>
              revert digit <;> decide) stops
      rw [strtol_body false small ?_ based nonempty accepted stops, value]
      · rfl
      rw [skipSpaces_of_digit nonempty valid]
      obtain ⟨c, others, rfl⟩ := List.exists_cons_of_ne_nil nonempty
      exact sign_of_digit (digitValue_lt_ten.mp (valid c (by simp))) _
  | @negative digits nonempty valid =>
      obtain ⟨base, based, small, accepted, value⟩ :=
        radix_auto_digits nonempty valid
          (by
            rintro d others rfl
            have digit := valid d (by simp)
            rcases canonical d others (.inr rfl) with rfl | rfl <;>
              revert digit <;> decide) stops
      have signed : sign (skipSpaces ('-' :: digits ++ rest)) =
          (true, digits ++ rest) := rfl
      rw [strtol_body true small signed based nonempty accepted stops, value]
      rfl
  | @hex x digits mark nonempty valid =>
      have signed : sign (skipSpaces ('0' :: x :: digits ++ rest)) =
          (false, '0' :: x :: (digits ++ rest)) := rfl
      rw [strtol_body false (by decide) signed
        (radix_auto_hex mark nonempty valid rest) nonempty valid stops]
      rfl
  | @negativeHex x digits mark nonempty valid =>
      have signed : sign (skipSpaces ('-' :: '0' :: x :: digits ++ rest)) =
          (true, '0' :: x :: (digits ++ rest)) := rfl
      rw [strtol_body true (by decide) signed
        (radix_auto_hex mark nonempty valid rest) nonempty valid stops]
      rfl

section Octal

theorem ofDigits_append (base : Nat) (front back : Text) :
    ofDigits base (front ++ back) =
      back.foldl (fun n c => base * n + digitValue c) (ofDigits base front) :=
  List.foldl_append ..

theorem ofDigits_append_eq (base : Nat) (front back : Text) :
    ofDigits base (front ++ back) =
      ofDigits base front * base ^ back.length + ofDigits base back := by
  have general : ∀ (back : Text) (start : Nat),
      back.foldl (fun n c => base * n + digitValue c) start =
        start * base ^ back.length +
          back.foldl (fun n c => base * n + digitValue c) 0 := by
    intro back
    induction back with
    | nil => intro start; simp
    | cons c back induction =>
        intro start
        rw [List.foldl_cons, List.foldl_cons, induction, induction (base * 0 + _),
          List.length_cons]
        ring
  rw [ofDigits_append, general]
  rfl

theorem ofDigits_eq_zero_iff {base : Nat} (positive : 0 < base) (digits : Text) :
    ofDigits base digits = 0 ↔ ∀ c ∈ digits, digitValue c = 0 := by
  induction digits with
  | nil => simp [ofDigits]
  | cons c digits induction =>
      have split := ofDigits_append_eq base [c] digits
      have first : ofDigits base [c] = digitValue c := by simp [ofDigits]
      have scaled : digitValue c * base ^ digits.length = 0 ↔ digitValue c = 0 := by
        simp [positive.ne']
      rw [List.singleton_append, first] at split
      rw [split, Nat.add_eq_zero_iff, scaled, induction, List.forall_mem_cons]

/-- Digits appended to a numeral leave its value alone only among zeros. -/
theorem ofDigits_append_eq_self_iff {base : Nat} (large : 1 < base)
    {front back : Text} (more : back ≠ []) :
    ofDigits base (front ++ back) = ofDigits base front ↔
      ∀ c ∈ front ++ back, digitValue c = 0 := by
  rw [← ofDigits_eq_zero_iff (Nat.zero_lt_of_lt large)]
  have grows : 1 < base ^ back.length :=
    Nat.one_lt_pow (List.length_pos_iff.mpr more).ne' large
  have value := ofDigits_append_eq base front back
  constructor
  · intro same
    have bound : ofDigits base front * 2 ≤
        ofDigits base front * base ^ back.length := Nat.mul_le_mul_left _ grows
    omega
  · intro zero
    have frontZero : ofDigits base front * base ^ back.length = 0 := by omega
    rcases Nat.mul_eq_zero.mp frontZero with here | here
    · rw [zero, here]
    · omega

theorem digitValue_eq_zero {c : Char} : digitValue c = 0 ↔ c = '0' := by
  constructor
  · intro zero
    have range : 48 ≤ c.toNat ∧ c.toNat ≤ 57 := by
      unfold digitValue at zero
      split_ifs at zero <;> omega
    have value : c.toNat = '0'.toNat := by
      rw [digitValue, if_pos range] at zero
      change c.toNat = 48
      omega
    exact Char.toNat_inj.mp value
  · rintro rfl
    rfl

private theorem le_foldl_digits {small large : Nat} (bases : small ≤ large)
    (digits : Text) {m n : Nat} (start : m ≤ n) :
    digits.foldl (fun n c => small * n + digitValue c) m ≤
      digits.foldl (fun n c => large * n + digitValue c) n := by
  induction digits generalizing m n with
  | nil => exact start
  | cons c digits induction =>
      apply induction
      exact Nat.add_le_add_right (Nat.mul_le_mul bases start) _

private theorem start_le_foldl_digits {base : Nat} (positive : 0 < base)
    (digits : Text) (m : Nat) :
    m ≤ digits.foldl (fun n c => base * n + digitValue c) m := by
  induction digits generalizing m with
  | nil => exact le_rfl
  | cons c digits induction =>
      exact ((Nat.le_mul_of_pos_left m positive).trans (Nat.le_add_right _ _)).trans
        (induction _)

/-- Read in a smaller base, or not to the end, a text has a smaller value. -/
theorem ofDigits_le_of_prefix {small large : Nat} (positive : 0 < small)
    (bases : small ≤ large) {front digits : Text} (start : front <+: digits) :
    ofDigits small front ≤ ofDigits large digits := by
  obtain ⟨back, rfl⟩ := start
  calc
    ofDigits small front ≤ ofDigits small (front ++ back) := by
      rw [ofDigits_append]
      exact start_le_foldl_digits positive back _
    _ ≤ ofDigits large (front ++ back) := le_foldl_digits bases _ le_rfl

/-- A decimal numeral with a leading zero. -/
structure LeadingZero (s : Text) (n : Int) (negative : Bool) (digits : Text) :
    Prop where
  text : s = (if negative then ['-'] else []) ++ digits
  value : n = if negative then -(ofDigits 10 digits : Int) else ofDigits 10 digits
  valid : ∀ c ∈ digits, digitValue c < 10
  zero : ∃ d others, digits = '0' :: d :: others

theorem Numeral.leadingZero {s : Text} {n : Int} (numeral : Numeral s n)
    (octal : ¬ Canonical s) : ∃ negative digits, LeadingZero s n negative digits := by
  simp only [Canonical, not_forall] at octal
  obtain ⟨d, rest, starts, noMark⟩ := octal
  cases numeral with
  | @decimal digits nonempty valid =>
      rcases starts with rfl | rfl
      · exact ⟨false, _, rfl, rfl, valid, d, rest, rfl⟩
      · exact absurd (valid '-' (by simp)) (by decide)
  | @negative digits nonempty valid =>
      rcases starts with zero | zero
      · cases zero
      · obtain rfl := (List.cons.inj zero).2
        exact ⟨true, _, rfl, rfl, valid, d, rest, rfl⟩
  | hex mark =>
      rcases starts with zero | zero
      · obtain rfl := (List.cons.inj (List.cons.inj zero).2).1
        exact absurd mark noMark
      · cases zero
  | negativeHex mark =>
      rcases starts with zero | zero
      · cases zero
      · obtain rfl := (List.cons.inj (List.cons.inj (List.cons.inj zero).2).2).1
        exact absurd mark noMark

theorem LeadingZero.sign_eq {s : Text} {n : Int} {negative : Bool} {digits : Text}
    (leading : LeadingZero s n negative digits) : sign s = (negative, digits) := by
  obtain ⟨rfl, _, _, d, others, rfl⟩ := leading
  cases negative with
  | false => rfl
  | true => rfl

theorem strtol_octal {s : Text} {n : Int} {negative : Bool} {digits : Text}
    (leading : LeadingZero s n negative digits) {rest : Text} (stops : Stops rest) :
    strtol 0 (s ++ rest) =
      (clampLong (if negative then
          -(ofDigits 8 (digits.takeWhile (digitValue · < 8)) : Int)
        else ofDigits 8 (digits.takeWhile (digitValue · < 8))),
        digits.dropWhile (digitValue · < 8) ++ rest) := by
  obtain ⟨rfl, _, valid, d, others, rfl⟩ := leading
  have based : radix 0 ('0' :: d :: others ++ rest) = (8, '0' :: d :: others ++ rest) := by
    have noHex : ¬ (d = 'x' ∨ d = 'X') := by
      have digit := valid d (by simp)
      rintro (rfl | rfl) <;> revert digit <;> decide
    rw [List.cons_append, List.cons_append]
    unfold radix
    split
    · rename_i x e more equal
      cases (List.cons.inj (List.cons.inj equal).2).1
      rw [if_neg fun all => noHex all.2.1]
      rfl
    · rfl
    · rename_i other
      exact absurd rfl (other _)
  have taken : ('0' :: d :: others ++ rest).takeWhile (digitValue · < 8) =
      ('0' :: d :: others).takeWhile (digitValue · < 8) := by
    rw [List.takeWhile_append]
    split
    · rename_i whole
      have none : rest.takeWhile (digitValue · < 8) = [] := by
        cases rest with
        | nil => rfl
        | cons c rest => simp [stops c rfl]
      rw [none, List.append_nil]
      exact (List.takeWhile_prefix _).eq_of_length whole |>.symm
    · rfl
  have dropped : ('0' :: d :: others ++ rest).dropWhile (digitValue · < 8) =
      ('0' :: d :: others).dropWhile (digitValue · < 8) ++ rest := by
    rw [List.dropWhile_append]
    split
    · rename_i whole
      have stay : rest.dropWhile (digitValue · < 8) = rest := by
        cases rest with
        | nil => rfl
        | cons c rest => simp [stops c rfl]
      rw [stay, List.isEmpty_iff.mp whole]
      rfl
    · rfl
  have some : ('0' :: d :: others).takeWhile (digitValue · < 8) ≠ [] := by
    simp [digitValue]
  have signed : sign (skipSpaces
      ((if negative then ['-'] else []) ++ '0' :: d :: others ++ rest)) =
        (negative, '0' :: d :: others ++ rest) := by
    cases negative with
    | false => rfl
    | true => rfl
  unfold strtol
  simp only [signed, based, taken, dropped, if_neg some]

end Octal

theorem clampLong_of_small {n : Int} (lower : -2 ^ 63 ≤ n)
    (upper : n < 2 ^ 63) : clampLong n = n := by
  unfold clampLong
  omega

/-- What `%d` prints is a numeral for the number printed. -/
theorem numeral_printInt (n : Int) : Numeral (printInt n) n := by
  have valid : ∀ c ∈ Nat.toDigits 10 n.natAbs, digitValue c < 10 := by
    intro c member
    exact digitValue_lt_ten.mpr
      (Nat.isDigit_of_mem_toDigits (by decide) (by decide) member)
  have value : ofDigits 10 (Nat.toDigits 10 n.natAbs) = n.natAbs := by
    calc
      ofDigits 10 (Nat.toDigits 10 n.natAbs) =
          Nat.ofDigitChars 10 (Nat.toDigits 10 n.natAbs) 0 := by
        apply List.foldl_ext
        intro total c member
        have digit := digitValue_lt_ten.mp (valid c member)
        simp [digitValue, isDigit_range.mp digit]
      _ = n.natAbs := Nat.ofDigitChars_ten_toDigits
  unfold printInt
  split
  · rename_i below
    have numeral := Numeral.negative Nat.toDigits_ne_nil valid
    rw [value] at numeral
    rwa [show -(n.natAbs : Int) = n by omega] at numeral
  · rename_i above
    have numeral := Numeral.decimal Nat.toDigits_ne_nil valid
    rw [value] at numeral
    rwa [show (n.natAbs : Int) = n by omega] at numeral

theorem length_printInt {n : Int} (lower : -2 ^ 31 ≤ n) (upper : n < 2 ^ 32) :
    (printInt n).length ≤ 11 := by
  have digits : (Nat.toDigits 10 n.natAbs).length ≤ 10 :=
    (Nat.length_toDigits_le_iff (by decide) (by decide)).mpr (by omega)
  unfold printInt
  split
  · rw [List.length_cons]
    omega
  · omega

/-- `strtoul`, without the text after the number: minus wraps around, and what
does not fit is the largest number. -/
def strtoul (base : Nat) (s : Text) : BitVec 64 :=
  let (negative, body) := sign (skipSpaces s)
  let (base, body) := radix base body
  let magnitude := ofDigits base (body.takeWhile (digitValue · < base))
  if 2 ^ 64 ≤ magnitude then BitVec.allOnes 64
  else if negative then -BitVec.ofNat 64 magnitude
  else BitVec.ofNat 64 magnitude

/-- What `long` can hold, `strtoul` reads as `strtol` does. -/
theorem strtoul_eq_strtol {base : Nat} {s : Text} (lower : -2 ^ 63 < (strtol base s).1)
    (upper : (strtol base s).1 < 2 ^ 63 - 1) :
    strtoul base s = BitVec.ofInt 64 (strtol base s).1 := by
  unfold strtol at lower upper ⊢
  unfold strtoul
  generalize sign (skipSpaces s) = signed at lower upper ⊢
  obtain ⟨negative, body⟩ := signed
  simp only at lower upper ⊢
  generalize radix base body = based at lower upper ⊢
  obtain ⟨base, body⟩ := based
  simp only at lower upper ⊢
  generalize body.takeWhile (digitValue · < base) = digits at lower upper ⊢
  by_cases empty : digits = []
  · have none : ofDigits base [] = 0 := rfl
    rw [empty, none, if_pos rfl]
    cases negative <;> simp
  · simp only [if_neg empty] at lower upper ⊢
    generalize ofDigits base digits = magnitude at lower upper ⊢
    cases negative with
    | true =>
        simp only [if_true] at lower upper ⊢
        unfold clampLong at lower upper ⊢
        have small : ¬ 2 ^ 64 ≤ magnitude := by omega
        have value : max (-2 ^ 63) (min (-(magnitude : Int)) (2 ^ 63 - 1)) =
            -(magnitude : Int) := by omega
        rw [if_neg small, value, BitVec.ofInt_neg, BitVec.ofInt_natCast]
    | false =>
        simp only [Bool.false_eq_true, if_false] at lower upper ⊢
        unfold clampLong at lower upper ⊢
        have small : ¬ 2 ^ 64 ≤ magnitude := by omega
        have value : max (-2 ^ 63) (min (magnitude : Int) (2 ^ 63 - 1)) = magnitude := by omega
        rw [if_neg small, value, BitVec.ofInt_natCast]

end Numbers

end CString
