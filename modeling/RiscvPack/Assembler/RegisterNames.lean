import RiscvPack.Assembler.Canonical

/-!
# Which texts name a register

`reg_num` copies the alphanumeric front of a text into fifteen characters and
looks at the copy only.  The copy and the front agree about the register they
name except in two cases: an `x` without digits, which is read as register
zero, and a longer front whose copy happens to end behind a register number.
-/

namespace RiscvPack.Asm

open CString

/-- The texts that name register `n` exactly: an ABI name of the register, or
`x` and a decimal numeral for `n`. -/
inductive RegisterName : Text → Nat → Prop where
  | abi (r : Reg) : RegisterName (abiRegisterNames.getD r.toNat []) r.toNat
  | framePointer : RegisterName "fp".toList 8
  | numbered {digits : Text} (nonempty : digits ≠ [])
      (valid : ∀ c ∈ digits, c.isDigit) :
      RegisterName ('x' :: digits) (ofDigits 10 digits)

/-- The longest alphanumeric front of a text. -/
def alphanumFront (s : Text) : Text := s.takeWhile Char.isAlphanum

/-- What `reg_num` is to return for a text. -/
def ParsedExactly (s : Text) : Prop :=
  (∀ n : Nat, n ≤ 31 → (regNum s = n ↔ RegisterName (alphanumFront s) n)) ∧
    ((∀ n : Nat, n ≤ 31 → ¬ RegisterName (alphanumFront s) n) → regNum s = -1)

section Copy

/-- The characters `reg_num` copies into `name`. -/
def registerCopy (s : Text) : Text := (alphanumFront s).take 15

theorem alphanum_of_mem_copy {s : Text} {c : Char} (member : c ∈ registerCopy s) :
    c.isAlphanum :=
  List.mem_takeWhile_imp (List.mem_of_mem_take member)

end Copy

section Names

theorem abiNames_name : ∀ entry ∈ abiNames,
    (∃ r : Reg, entry = (abiRegisterNames.getD r.toNat [], (r.toNat : Int))) ∨
      entry = ("fp".toList, 8) := by
  decide

theorem lookup_abi (r : Reg) :
    abiNames.lookup (abiRegisterNames.getD r.toNat []) = some (r.toNat : Int) := by
  revert r
  decide

/-- No ABI name starts with `x`. -/
theorem lookup_numbered (q : Text) : abiNames.lookup ('x' :: q) = none := by
  have first : ∀ entry ∈ abiNames, entry.1.head? ≠ some 'x' := by decide
  rw [List.lookup_eq_none_iff]
  intro entry member
  rw [bne_iff_ne]
  intro same
  exact first entry member (by rw [← same]; rfl)

theorem registerName_numbered {q : Text} {n : Nat} :
    RegisterName ('x' :: q) n ↔
      q ≠ [] ∧ (∀ c ∈ q, c.isDigit) ∧ ofDigits 10 q = n := by
  constructor
  · intro names
    generalize shape : 'x' :: q = text at names
    cases names with
    | abi r =>
        have found := lookup_abi r
        rw [← shape, lookup_numbered] at found
        cases found
    | framePointer => cases shape
    | numbered nonempty valid =>
        cases shape
        exact ⟨nonempty, valid, rfl⟩
  · rintro ⟨nonempty, valid, rfl⟩
    exact .numbered nonempty valid

theorem registerName_of_lookup {text : Text} {i : Int}
    (found : abiNames.lookup text = some i) :
    ∃ n : Nat, i = n ∧ n ≤ 31 ∧ RegisterName text n := by
  obtain ⟨front, back, split, _⟩ := List.lookup_eq_some_iff.mp found
  have member : (text, i) ∈ abiNames := by
    rw [split]
    simp
  rcases abiNames_name _ member with ⟨r, entry⟩ | entry
  · cases entry
    exact ⟨r.toNat, rfl, Nat.le_of_lt_succ r.isLt, .abi r⟩
  · cases entry
    exact ⟨8, rfl, by decide, .framePointer⟩

theorem lookup_of_registerName {text : Text} {n : Nat}
    (names : RegisterName text n) (other : ∀ q, text ≠ 'x' :: q) :
    abiNames.lookup text = some (n : Int) := by
  cases names with
  | abi r => exact lookup_abi r
  | framePointer => rfl
  | @numbered digits => exact absurd rfl (other digits)

theorem numbered_of_long {text : Text} {n : Nat} (names : RegisterName text n)
    (long : 4 < text.length) : ∃ q, text = 'x' :: q := by
  cases names with
  | abi r =>
      have short : ∀ r : Reg, (abiRegisterNames.getD r.toNat []).length ≤ 4 := by
        decide
      exact absurd long (Nat.not_lt.mpr (short r))
  | framePointer => exact absurd long (by decide)
  | @numbered digits => exact ⟨digits, rfl⟩

end Names

section Reading

theorem isspace_of_alphanum {c : Char} (alphanum : c.isAlphanum) :
    isspace c = false := by
  have control : ∀ n ≤ 32, ¬ (Char.ofNat n).isAlphanum := by decide
  apply isspace_of_printable
  by_contra small
  apply control c.toNat (by omega)
  rwa [Char.ofNat_toNat]

theorem bare_of_alphanum {q : Text} (alphanum : ∀ c ∈ q, c.isAlphanum) :
    sign (skipSpaces q) = (false, q) := by
  have kept : skipSpaces q = q := by
    apply skipSpaces_of_head
    intro c first
    exact isspace_of_alphanum (alphanum c (List.mem_of_mem_head? first))
  rw [kept]
  unfold sign
  split
  · exact absurd (alphanum '-' (by simp)) (by decide)
  · exact absurd (alphanum '+' (by simp)) (by decide)
  · rfl

/-- What `reg_num` makes of a copy that starts with `x`; no digits at all
count as zero. -/
theorem regNum_numbered {s q : Text} (copied : registerCopy s = 'x' :: q) :
    regNum s =
      if (∀ c ∈ q, c.isDigit) ∧ ofDigits 10 q ≤ 31 then (ofDigits 10 q : Int)
      else -1 := by
  have bare : sign (skipSpaces q) = (false, q) := by
    apply bare_of_alphanum
    intro c member
    exact alphanum_of_mem_copy (s := s) (by rw [copied]; simp [member])
  have name : (s.takeWhile Char.isAlphanum).take 15 = 'x' :: q := copied
  unfold regNum
  simp only [name, List.cons_ne_nil, if_false, lookup_numbered]
  by_cases digits : ∀ c ∈ q, c.isDigit
  · rw [strtol_digits digits]
    by_cases small : ofDigits 10 q ≤ 31
    · rw [clampLong_of_small (by omega) (by omega), if_neg (by simp; omega),
        if_pos ⟨digits, small⟩]
    · have large : 31 < clampLong (ofDigits 10 q) := by
        unfold clampLong
        omega
      rw [if_pos (Or.inr (Or.inr large)), if_neg (fun both => small both.2)]
  · have stays : (strtol 10 q).2 ≠ [] := fun ends =>
      digits ((strtol_bare_ends bare).mp ends)
    rw [if_pos (Or.inl stays), if_neg (fun both => digits both.1)]

theorem regNum_other {s : Text} (other : ∀ q, registerCopy s ≠ 'x' :: q) :
    regNum s = (abiNames.lookup (registerCopy s)).getD (-1) := by
  have name : (s.takeWhile Char.isAlphanum).take 15 = registerCopy s := rfl
  unfold regNum
  -- With `other` at hand, the branch that reads digits drops out.
  simp only [name]
  by_cases empty : registerCopy s = []
  · rw [if_pos empty, empty]
    rfl
  · rw [if_neg empty]
    cases abiNames.lookup (registerCopy s) <;> rfl

/-- `reg_num` reads the copy: an exact name, or an `x` on its own. -/
theorem regNum_eq_iff {s : Text} {n : Nat} (small : n ≤ 31) :
    regNum s = n ↔
      RegisterName (registerCopy s) n ∨ registerCopy s = ['x'] ∧ n = 0 := by
  by_cases numbered : ∃ q, registerCopy s = 'x' :: q
  · obtain ⟨q, copied⟩ := numbered
    rw [regNum_numbered copied, copied, registerName_numbered]
    constructor
    · intro read
      split_ifs at read with both
      have value : ofDigits 10 q = n := Int.ofNat_inj.mp read
      by_cases empty : q = []
      · subst empty
        exact Or.inr ⟨rfl, value.symm⟩
      · exact Or.inl ⟨empty, both.1, value⟩
    · rintro (⟨_, valid, rfl⟩ | ⟨only, rfl⟩)
      · rw [if_pos ⟨valid, small⟩]
      · cases only
        rfl
  · have other : ∀ q, registerCopy s ≠ 'x' :: q := not_exists.mp numbered
    rw [regNum_other other]
    constructor
    · intro read
      cases found : abiNames.lookup (registerCopy s) with
      | none =>
          rw [found] at read
          cases read
      | some i =>
          obtain ⟨m, rfl, _, names⟩ := registerName_of_lookup found
          rw [found, Option.getD_some] at read
          cases Int.ofNat_inj.mp read
          exact Or.inl names
    · rintro (names | ⟨only, _⟩)
      · rw [lookup_of_registerName names other]
        rfl
      · exact absurd only (other [])

theorem regNum_range (s : Text) :
    regNum s = -1 ∨ ∃ n : Nat, n ≤ 31 ∧ regNum s = n := by
  by_cases numbered : ∃ q, registerCopy s = 'x' :: q
  · obtain ⟨q, copied⟩ := numbered
    rw [regNum_numbered copied]
    split_ifs with both
    · exact Or.inr ⟨_, both.2, rfl⟩
    · exact Or.inl rfl
  · rw [regNum_other (not_exists.mp numbered)]
    cases found : abiNames.lookup (registerCopy s) with
    | none => exact Or.inl rfl
    | some i =>
        obtain ⟨m, rfl, small, _⟩ := registerName_of_lookup found
        exact Or.inr ⟨m, small, rfl⟩

end Reading

section Exactness

/-- The front is a register number only as far as the copy goes: `x`, fourteen
digits worth at most 31, and more characters, not all of them zeros. -/
def ClippedNumber (front : Text) : Prop :=
  front.head? = some 'x' ∧ 15 < front.length ∧
    (∀ c ∈ (front.drop 1).take 14, c.isDigit) ∧
    ofDigits 10 ((front.drop 1).take 14) ≤ 31 ∧ ∃ c ∈ front.drop 1, c ≠ '0'

theorem parsedExactly_iff_copy (s : Text) :
    ParsedExactly s ↔
      ∀ n : Nat, n ≤ 31 →
        (RegisterName (registerCopy s) n ∨ registerCopy s = ['x'] ∧ n = 0 ↔
          RegisterName (alphanumFront s) n) := by
  constructor
  · intro exact n small
    rw [← regNum_eq_iff small]
    exact exact.1 n small
  · intro agree
    have exact : ∀ n : Nat, n ≤ 31 →
        (regNum s = n ↔ RegisterName (alphanumFront s) n) := by
      intro n small
      rw [regNum_eq_iff small]
      exact agree n small
    refine ⟨exact, fun unnamed => ?_⟩
    rcases regNum_range s with refused | ⟨n, small, read⟩
    · exact refused
    · exact absurd ((exact n small).mp read) (unnamed n small)

theorem parsedExactly_of_short {s : Text} (short : (alphanumFront s).length ≤ 15) :
    ParsedExactly s ↔ alphanumFront s ≠ ['x'] := by
  have whole : registerCopy s = alphanumFront s := List.take_of_length_le short
  rw [parsedExactly_iff_copy, whole]
  constructor
  · intro agree only
    have zero := (agree 0 (by decide)).mp (Or.inr ⟨only, rfl⟩)
    rw [only] at zero
    exact (registerName_numbered.mp zero).1 rfl
  · intro more n _
    simp [more]

/-- When a number and its front of `k` digits name the same small registers. -/
theorem names_agree_iff {q : Text} {k : Nat} (some : 0 < k) (more : k < q.length) :
    (∀ n : Nat, n ≤ 31 →
      (RegisterName ('x' :: q.take k) n ↔ RegisterName ('x' :: q) n)) ↔
      ¬ ((∀ c ∈ q.take k, c.isDigit) ∧ ofDigits 10 (q.take k) ≤ 31 ∧
        ∃ c ∈ q, c ≠ '0') := by
  have split : q.take k ++ q.drop k = q := List.take_append_drop k q
  have front : q.take k ≠ [] := by
    rw [← List.length_pos_iff, List.length_take]
    omega
  have back : q.drop k ≠ [] := by
    rw [← List.length_pos_iff, List.length_drop]
    omega
  have same : ofDigits 10 q = ofDigits 10 (q.take k) ↔ ∀ c ∈ q, c = '0' := by
    have value : ofDigits 10 (q.take k ++ q.drop k) = ofDigits 10 (q.take k) ↔
        ∀ c ∈ q.take k ++ q.drop k, digitValue c = 0 :=
      ofDigits_append_eq_self_iff (by decide) back
    simpa only [split, digitValue_eq_zero] using value
  simp only [registerName_numbered]
  constructor
  · rintro agree ⟨valid, small, c, member, nonzero⟩
    have whole := ((agree _ small).mp ⟨front, valid, rfl⟩).2.2
    exact nonzero (same.mp whole c member)
  · intro unclipped n small
    -- A name on either side makes every character a zero.
    have zeros (valid : ∀ c ∈ q.take k, c.isDigit)
        (worth : ofDigits 10 (q.take k) ≤ 31) : ∀ c ∈ q, c = '0' := by
      intro c member
      by_contra nonzero
      exact unclipped ⟨valid, worth, c, member, nonzero⟩
    constructor
    · rintro ⟨_, valid, rfl⟩
      have all := zeros valid small
      refine ⟨List.ne_nil_of_length_pos (by omega), ?_, same.mpr all⟩
      intro c member
      rw [all c member]
      rfl
    · rintro ⟨_, valid, rfl⟩
      have start : ∀ c ∈ q.take k, c.isDigit := fun c member =>
        valid c (List.mem_of_mem_take member)
      have worth := ofDigits_le_of_prefix (by decide : 0 < 10) le_rfl
        (List.take_prefix k q)
      exact ⟨front, start, (same.mpr (zeros start (worth.trans small))).symm⟩

theorem parsedExactly_of_long {s : Text} (long : 15 < (alphanumFront s).length) :
    ParsedExactly s ↔ ¬ ClippedNumber (alphanumFront s) := by
  have size : (registerCopy s).length = 15 := by
    rw [registerCopy, List.length_take]
    omega
  have more : registerCopy s ≠ ['x'] := by
    intro only
    rw [only] at size
    cases size
  rw [parsedExactly_iff_copy]
  simp only [more, false_and, or_false]
  by_cases numbered : ∃ q, alphanumFront s = 'x' :: q
  · obtain ⟨q, front⟩ := numbered
    rw [registerCopy, ClippedNumber, front]
    rw [front, List.length_cons] at long
    rw [List.take_succ_cons, names_agree_iff (by decide) (by omega)]
    simp [long]
  · have unnamed : ∀ {text : Text} {n : Nat}, 15 ≤ text.length →
        text <+: alphanumFront s → ¬ RegisterName text n := by
      intro text n wide start names
      obtain ⟨q, rfl⟩ := numbered_of_long names (by omega)
      obtain ⟨rest, front⟩ := start
      exact numbered ⟨q ++ rest, front.symm⟩
    refine ⟨fun _ clipped => numbered ?_, fun _ n _ => ?_⟩
    · exact ⟨_, (List.cons_head?_tail clipped.1).symm⟩
    · exact iff_of_false (unnamed size.ge (List.take_prefix _ _))
        (unnamed long.le (List.prefix_refl _))

/-- Register names are parsed exactly but for a bare `x` and numbers cut short
by the copy. -/
theorem parsedExactly_iff (s : Text) :
    ParsedExactly s ↔
      alphanumFront s ≠ ['x'] ∧ ¬ ClippedNumber (alphanumFront s) := by
  by_cases long : 15 < (alphanumFront s).length
  · rw [parsedExactly_of_long long]
    have more : alphanumFront s ≠ ['x'] := by
      intro only
      rw [only] at long
      exact absurd long (by decide)
    exact ⟨fun exact => ⟨more, exact⟩, And.right⟩
  · rw [parsedExactly_of_short (by omega)]
    exact ⟨fun exact => ⟨exact, fun clipped => long clipped.2.1⟩, And.left⟩

/-- `x` names no register, and `x000000000000015` names register 15. -/
theorem bare_and_clipped_misread :
    regNum "x".toList = 0 ∧ ¬ ParsedExactly "x".toList ∧
      regNum "x000000000000015".toList = 1 ∧
      ¬ ParsedExactly "x000000000000015".toList := by
  have bare : regNum "x".toList = 0 := by decide
  have clipped : regNum "x000000000000015".toList = 1 := by decide
  refine ⟨bare, fun exact => ?_, clipped, fun exact => ?_⟩
  · have zero := (exact.1 0 (by decide)).mp bare
    exact (registerName_numbered.mp zero).1 rfl
  · have one := (exact.1 1 (by decide)).mp clipped
    exact absurd (registerName_numbered.mp one).2.2 (by decide)

end Exactness

end RiscvPack.Asm
