import RiscvPack.Assembler.ListFields
import RiscvPack.Assembler.Tables

/-!
# What the two passes make of a data directive

The first pass counts the fields between commas, the second one writes a value
for every numeral it comes across.  The two numbers agree on lists with one
numeral in every field; they differ where blanks or signs separate values, where
`strtol` stops early, and for a negative `.space`.
-/

namespace RiscvPack.Asm

open CString Runs
open ListDirective (operands)

section Counts

theorem splitOn_cons (c : Char) (t : Text) {field : Text} {more : List Text}
    (rest : t.splitOn ',' = field :: more) :
    (c :: t).splitOn ',' = if c = ',' then [] :: field :: more else (c :: field) :: more := by
  rw [List.splitOn_cons_eq_if_modifyHead, rest]
  by_cases comma : c = ','
  · simp [comma]
  · simp [comma]

/-- The first pass counts the fields; inside a field it counts the others. -/
theorem countItems_splitOn (t : Text) {field : Text} {more : List Text}
    (split : t.splitOn ',' = field :: more) :
    countItems false t = (fields t).length ∧
      countItems true t =
        (more.filter (·.any fun c => c ≠ ' ' && c ≠ '\t')).length := by
  unfold fields
  induction t generalizing field more with
  | nil =>
      cases split
      exact ⟨rfl, rfl⟩
  | cons c t induction =>
      obtain ⟨first, others, rest⟩ := exists_splitOn t
      obtain ⟨outside, inside⟩ := induction rest
      have cons := splitOn_cons c t rest
      rw [rest] at outside
      by_cases comma : c = ','
      · subst comma
        rw [if_pos rfl] at cons
        rw [cons] at split ⊢
        cases split
        have blank : countItems false (',' :: t) = countItems false t := by
          simp [countItems]
        have ends : countItems true (',' :: t) = countItems false t := by
          simp [countItems]
        rw [blank, ends, outside]
        exact ⟨by simp, rfl⟩
      · rw [if_neg comma] at cons
        rw [cons] at split ⊢
        cases split
        constructor
        · by_cases solid : c ≠ ' ' ∧ c ≠ '\t'
          · have value : countItems false (c :: t) = 1 + countItems true t := by
              simp [countItems, comma, solid.1, solid.2]
            rw [value, inside, List.filter_cons, if_pos]
            · rw [List.length_cons, Nat.add_comm]
            · simp [solid.1, solid.2]
          · have value : countItems false (c :: t) = countItems false t := by
              rw [countItems, if_neg fun all => solid ⟨all.1, all.2.1⟩]
            have blank : (decide (c ≠ ' ') && decide (c ≠ '\t')) = false := by
              simpa using solid
            rw [value, outside, List.filter_cons, List.filter_cons, List.any_cons,
              blank, Bool.false_or]
            split <;> rfl
        · have value : countItems true (c :: t) = countItems true t := by
            simp [countItems, comma]
          rw [value, inside]

theorem countItems_eq (t : Text) : countItems false t = (fields t).length := by
  obtain ⟨field, more, split⟩ := exists_splitOn t
  exact (countItems_splitOn t split).1

theorem countItems_le (inside : Bool) (t : Text) : countItems inside t ≤ t.length := by
  induction t generalizing inside with
  | nil => exact Nat.zero_le _
  | cons c t induction =>
      have more := induction (decide (c ≠ ','))
      have outside := induction false
      have within := induction true
      rw [List.length_cons]
      cases inside with
      | true =>
          rw [countItems]
          omega
      | false =>
          rw [countItems]
          split
          · omega
          · omega

theorem valueCount_le (next : Text → Text) (fuel : Nat) (t : Text) :
    valueCount next fuel t ≤ fuel := by
  induction fuel generalizing t with
  | zero => cases t <;> exact Nat.le_refl _
  | succ fuel induction =>
      cases t with
      | nil => exact Nat.zero_le _
      | cons c rest =>
          rw [valueCount]
          split
          · exact Nat.succ_le_succ (induction _)
          · exact (induction _).trans (Nat.le_succ _)

end Counts

namespace ListDirective

def width : ListDirective → Nat
  | byte => 1
  | half => 2
  | word => 4

end ListDirective

section Sizes

/-- What the first pass adds for a directive. -/
def directiveCount (s : Text) : Word :=
  let s := trim s
  let items := (fields (s.drop 5)).length
  if ".asciiz".toList.isPrefixOf s then BitVec.ofNat 32 (stringSize s + 1)
  else if ".ascii".toList.isPrefixOf s then BitVec.ofNat 32 (stringSize s)
  else if ".byte".toList.isPrefixOf s then BitVec.ofNat 32 items
  else if ".half".toList.isPrefixOf s then BitVec.ofNat 32 (items * 2)
  else if ".word".toList.isPrefixOf s then BitVec.ofNat 32 (items * 4)
  else if ".space".toList.isPrefixOf s then (scanInt (s.drop 6)).getD 0
  else 0

variable {asm asm' : Assembler} {s : Text}

theorem processDirective_cases (processed : processDirective asm s = .ok asm') :
    asm' = growData asm (directiveCount s) ∨ asm' = asm ∧ directiveCount s = 0 := by
  unfold processDirective at processed
  unfold directiveCount
  simp only [countItems_eq] at processed ⊢
  split at processed
  · rename_i asciiz
    rw [if_pos asciiz]
    split at processed
    · cases processed
    · rename_i text quoted
      obtain ⟨bytes, parsed, result⟩ := bind_eq_ok.mp processed
      cases result
      rw [stringSize_eq quoted parsed]
      exact .inl rfl
  rename_i notAsciiz
  rw [if_neg notAsciiz]
  split at processed
  · rename_i ascii
    rw [if_pos ascii]
    split at processed
    · cases processed
    · rename_i text quoted
      obtain ⟨bytes, parsed, result⟩ := bind_eq_ok.mp processed
      cases result
      rw [stringSize_eq quoted parsed]
      exact .inl rfl
  rename_i notAscii
  rw [if_neg notAscii]
  split at processed
  · rename_i byte
    rw [if_pos byte]
    cases processed
    exact .inl rfl
  rename_i notByte
  rw [if_neg notByte]
  split at processed
  · rename_i half
    rw [if_pos half]
    cases processed
    exact .inl rfl
  rename_i notHalf
  rw [if_neg notHalf]
  split at processed
  · rename_i word
    rw [if_pos word]
    cases processed
    exact .inl rfl
  rename_i notWord
  rw [if_neg notWord]
  split at processed
  · rename_i space
    rw [if_pos space]
    split at processed
    · rename_i size scanned
      cases processed
      left
      simp only [scanned, Option.getD_some]
    · rename_i scanned
      cases processed
      right
      simp only [scanned, Option.getD_none, and_self]
  · rename_i notSpace
    rw [if_neg notSpace]
    cases processed
    exact .inr ⟨rfl, rfl⟩

theorem processDirective_offset (processed : processDirective asm s = .ok asm') :
    asm'.getCurrentSection.offset = asm.getCurrentSection.offset + directiveCount s := by
  rcases processDirective_cases processed with rfl | ⟨rfl, none⟩
  · exact getCurrentSection_growData asm _
  · rw [none]
    exact (BitVec.add_zero _).symm

theorem list_counts {d : ListDirective} (starts : d.name.isPrefixOf (trim s)) :
    directiveCount s = BitVec.ofNat 32 ((fields (operands s)).length * d.width) ∧
      directiveSize s = d.values (operands s) * d.width := by
  obtain ⟨rest, whole⟩ := List.isPrefixOf_iff_prefix.mp starts
  unfold directiveCount directiveSize operands
  rw [← whole]
  cases d with
  | byte =>
      rw [ListDirective.width, Nat.mul_one, Nat.mul_one]
      exact ⟨rfl, rfl⟩
  | half => exact ⟨rfl, rfl⟩
  | word => exact ⟨rfl, rfl⟩

theorem space_counts (starts : ".space".toList.isPrefixOf (trim s)) :
    directiveCount s = (scanInt ((trim s).drop 6)).getD 0 ∧
      directiveSize s = ((scanInt ((trim s).drop 6)).map (·.toInt.toNat)).getD 0 := by
  obtain ⟨rest, whole⟩ := List.isPrefixOf_iff_prefix.mp starts
  unfold directiveCount directiveSize
  rw [← whole]
  exact ⟨rfl, rfl⟩

/-- Both passes count strings alike, and nothing for other directives. -/
theorem other_counts (noList : ∀ d : ListDirective, ¬ d.name.isPrefixOf (trim s))
    (noSpace : ¬ ".space".toList.isPrefixOf (trim s)) :
    directiveCount s = BitVec.ofNat 32 (directiveSize s) := by
  have noByte : ¬ ".byte".toList.isPrefixOf (trim s) := noList .byte
  have noHalf : ¬ ".half".toList.isPrefixOf (trim s) := noList .half
  have noWord : ¬ ".word".toList.isPrefixOf (trim s) := noList .word
  simp only [directiveCount, directiveSize]
  rw [if_neg noByte, if_neg noByte, if_neg noHalf, if_neg noHalf, if_neg noWord,
    if_neg noWord, if_neg noSpace, if_neg noSpace]
  split
  · rfl
  split
  · rfl
  · rfl

/-- Every field of the list is one numeral, and space is not negative. -/
structure SameCount (s : Text) : Prop where
  list : ∀ d : ListDirective, d.name.isPrefixOf (trim s) → d.Matches (operands s)
  space : ".space".toList.isPrefixOf (trim s) →
    ∀ n ∈ scanInt ((trim s).drop 6), 0 ≤ n.toInt

theorem length_operands (s : Text) : (operands s).length ≤ s.length := by
  rw [operands, List.length_drop]
  exact (Nat.sub_le _ _).trans (length_trim_le s)

theorem fields_le (t : Text) : (fields t).length ≤ t.length :=
  countItems_eq t ▸ countItems_le false t

theorem ofNat_inj_of_lt {m n : Nat} (small : m < 2 ^ 32) (small' : n < 2 ^ 32) :
    BitVec.ofNat 32 m = BitVec.ofNat 32 n ↔ m = n := by
  rw [← BitVec.toNat_inj, BitVec.toNat_ofNat, BitVec.toNat_ofNat,
    Nat.mod_eq_of_lt small, Nat.mod_eq_of_lt small']

theorem ofNat_eq_zero_of_lt {n : Nat} (small : n < 2 ^ 32) :
    BitVec.ofNat 32 n = 0 ↔ n = 0 :=
  ofNat_inj_of_lt small (by decide)

theorem directiveCount_eq_iff {labels : List Label} {st st' : Pass2} (short : s.length < maxLine)
    (written : processDataDirective labels st s = .done st') :
    directiveCount s = BitVec.ofNat 32 (directiveSize s) ↔ SameCount s := by
  have bound : s.length < 512 := short
  by_cases list : ∃ d : ListDirective, d.name.isPrefixOf (trim s)
  · obtain ⟨d, starts⟩ := list
    obtain ⟨counted, sized⟩ := list_counts starts
    rw [ListDirective.processDataDirective_eq starts] at written
    have fieldsBound := (fields_le (operands s)).trans (length_operands s)
    have valuesBound : d.values (operands s) ≤ s.length :=
      (valueCount_le _ _ _).trans (length_operands s)
    have width : 0 < d.width ∧ d.width ≤ 4 := by
      cases d <;> decide
    have smallFields : (fields (operands s)).length * d.width < 2 ^ 32 :=
      lt_of_le_of_lt (Nat.mul_le_mul fieldsBound width.2) (by omega)
    have smallValues : d.values (operands s) * d.width < 2 ^ 32 :=
      lt_of_le_of_lt (Nat.mul_le_mul valuesBound width.2) (by omega)
    rw [counted, sized, ofNat_inj_of_lt smallFields smallValues,
      Nat.mul_left_inj (Nat.ne_of_gt width.1), eq_comm,
      ListDirective.values_eq_fields_iff written]
    obtain ⟨rest, whole⟩ := List.isPrefixOf_iff_prefix.mp starts
    constructor
    · intro same
      constructor
      · intro d' starts'
        have equal : d' = d := by
          rw [← whole] at starts'
          cases d <;> cases d' <;> first | rfl | cases starts'
        rw [equal]
        exact same
      · intro space
        rw [← whole] at space
        cases d <;> cases space
    · exact fun same => same.list d starts
  · have noList : ∀ d : ListDirective, ¬ d.name.isPrefixOf (trim s) :=
      fun d starts => list ⟨d, starts⟩
    by_cases space : ".space".toList.isPrefixOf (trim s)
    · obtain ⟨counted, sized⟩ := space_counts space
      have same : SameCount s ↔ ∀ n ∈ scanInt ((trim s).drop 6), 0 ≤ n.toInt :=
        ⟨fun count => count.space space,
          fun positive => ⟨fun d starts => absurd starts (noList d), fun _ => positive⟩⟩
      rw [counted, sized, same]
      cases scanned : scanInt ((trim s).drop 6) with
      | none => simp
      | some n =>
          simp only [Option.getD_some, Option.map_some, Option.mem_some_iff, forall_eq']
          constructor
          · intro whole
            by_contra negative
            rw [Int.toNat_of_nonpos (by omega)] at whole
            rw [whole] at negative
            exact negative (by decide)
          · intro positive
            rw [← BitVec.ofInt_natCast, Int.toNat_of_nonneg positive, BitVec.ofInt_toInt]
    · exact iff_of_true (other_counts noList space)
        ⟨fun d starts => absurd starts (noList d), fun starts => absurd starts space⟩

/-- What the first pass adds to the section for a data directive is what the
second pass writes for it, exactly when every field of the list is one numeral
and space is not negative. -/
theorem directive_sizes_agree_iff {labels : List Label} {st st' : Pass2}
    (short : s.length < maxLine) (counted : processDirective asm s = .ok asm')
    (written : processDataDirective labels st s = .done st') :
    (∃ n, Emitted st n st' ∧ asm'.getCurrentSection.offset =
        asm.getCurrentSection.offset + BitVec.ofNat 32 n) ↔ SameCount s := by
  have emitted := emitted_dataDirective written
  rw [← directiveCount_eq_iff short written, processDirective_offset counted]
  constructor
  · rintro ⟨n, emitted', same⟩
    rw [Emitted.size_unique emitted emitted']
    exact (BitVec.add_right_inj _).mp same
  · intro same
    exact ⟨directiveSize s, emitted, by rw [same]⟩

/-- Two bytes, in hexadecimal and with a sign. -/
theorem directive_sizes_agree_iff_bytes :
    let s : Text := ".byte 0x1F , -2".toList
    let start := Assembler.init.switchSection dataName
    let asm' := growData start 2
    let st' := Pass2.init.emit [0x1F, 0xFE]
    processDirective start s = .ok asm' ∧ processDataDirective [] Pass2.init s = .done st' ∧
      ∃ n, Emitted Pass2.init n st' ∧ asm'.getCurrentSection.offset =
        start.getCurrentSection.offset + BitVec.ofNat 32 n := by
  intro s start asm' st'
  have counted : processDirective start s = .ok asm' := by decide +kernel
  have written : processDataDirective [] Pass2.init s = .done st' := by decide +kernel
  have same : SameCount s := by
    constructor
    · intro d starts
      obtain rfl : d = .byte := by
        cases d with
        | byte => rfl
        | half | word => exact absurd starts (by decide)
      exact ⟨fun _ => by decide +kernel, fun odd => absurd odd (by decide +kernel)⟩
    · exact fun starts => absurd starts (by decide)
  exact ⟨counted, written, (directive_sizes_agree_iff (by decide) counted written).mpr same⟩

/-- Two bytes without a comma: one is counted, two are written. -/
theorem not_directive_sizes_agree_blank :
    let s : Text := ".byte 1 2".toList
    let start := Assembler.init.switchSection dataName
    let asm' := growData start 1
    let st' := Pass2.init.emit [1, 2]
    processDirective start s = .ok asm' ∧ processDataDirective [] Pass2.init s = .done st' ∧
      ¬ ∃ n, Emitted Pass2.init n st' ∧ asm'.getCurrentSection.offset =
        start.getCurrentSection.offset + BitVec.ofNat 32 n := by
  intro s start asm' st'
  refine ⟨by decide +kernel, by decide +kernel, ?_⟩
  rintro ⟨n, emitted, same⟩
  rw [← Emitted.size_unique (Emitted.bytes [1, 2]) emitted] at same
  revert same
  decide +kernel

end Sizes

end RiscvPack.Asm
