import RiscvPack.Assembler.Main

/-!
# Comments

A comment is stripped from a line only after the line has been compared with
the section directives and searched for `.globl`.  So a comment takes its
meaning from a section directive that stands alone, and a comment with
`.globl` in it takes it from any line with content.  No other line notices a
comment.
-/

namespace RiscvPack.Asm

open CString Runs Files
open SourceLine (read)

section Reading

/-- The text `s` is the text `u`, white space and a comment. -/
structure Commented (u tail s : Text) : Prop where
  trimmed : Trimmed u
  noHash : '#' ∉ u
  split : ∃ c blank, isspace c ∧ (∀ b ∈ blank, isspace b) ∧
    s = u ++ c :: (blank ++ '#' :: tail)

variable {u tail s w line line' : Text}

theorem infix_append_blank {blank : Text} (spaces : ∀ b ∈ blank, isspace b)
    (solid : ∀ c ∈ w, isspace c = false) (nonempty : w ≠ []) (x : Text) :
    w <:+: x ++ blank ↔ w <:+: x := by
  cases blank with
  | nil => rw [List.append_nil]
  | cons b blank =>
      rw [List.forall_mem_cons] at spaces
      have absent : b ∉ w := by
        intro member
        rw [solid b member] at spaces
        exact absurd spaces.1 (by decide)
      rw [infix_append_cons_iff absent, or_iff_left]
      intro inside
      obtain ⟨c, others, rfl⟩ := List.exists_cons_of_ne_nil nonempty
      have space := spaces.2 c (inside.subset List.mem_cons_self)
      rw [solid c List.mem_cons_self] at space
      cases space

namespace Commented

theorem prefix_iff (commented : Commented u tail s)
    (solid : ∀ c ∈ w, isspace c = false) : w.isPrefixOf s ↔ w.isPrefixOf u := by
  obtain ⟨c, blank, space, _, rfl⟩ := commented.split
  rw [List.isPrefixOf_iff_prefix, List.isPrefixOf_iff_prefix]
  apply prefix_append_cons_iff
  intro member
  rw [solid c member] at space
  cases space

theorem infix_iff (commented : Commented u tail s)
    (solid : ∀ c ∈ w, isspace c = false) (nonempty : w ≠ []) (noHash : '#' ∉ w) :
    w <:+: s ↔ w <:+: u ∨ w <:+: tail := by
  obtain ⟨c, blank, space, others, rfl⟩ := commented.split
  have spaces : ∀ b ∈ c :: blank, isspace b := List.forall_mem_cons.mpr ⟨space, others⟩
  rw [← List.cons_append, ← List.append_assoc, infix_append_cons_iff noHash,
    infix_append_blank spaces solid nonempty]

theorem stripComment (commented : Commented u tail s) : stripComment s = u := by
  obtain ⟨c, blank, space, others, rfl⟩ := commented.split
  have spaces : ∀ b ∈ c :: blank, isspace b := List.forall_mem_cons.mpr ⟨space, others⟩
  have absent : '#' ∉ u ++ c :: blank := by
    rw [List.mem_append, not_or]
    exact ⟨commented.noHash, fun member => absurd (spaces _ member) (by decide)⟩
  rw [Asm.stripComment, ← List.cons_append, ← List.append_assoc, strchr_append absent]
  exact (trim_append_right spaces u).trans (trim_of_trimmed commented.trimmed)

theorem sectionArgument (commented : Commented u tail s) {v : Text}
    (operand : u = ".section".toList ++ v) (nonempty : v ≠ []) :
    sectionArgument s = sectionArgument u := by
  obtain ⟨c, blank, space, _, rfl⟩ := commented.split
  have solid : isspace (v.getLast nonempty) = false := by
    apply commented.trimmed.last
    rw [operand, List.getLast?_append_of_ne_nil _ nonempty]
    exact List.getLast?_eq_getLast_of_ne_nil nonempty
  have ends := List.dropLast_append_getLast nonempty
  generalize v.getLast nonempty = d at solid ends
  have stops : ((!isspace c && c ≠ ',') : Bool) = false := by
    rw [space]
    rfl
  have behind (rest : Text) :
      skipSpaces (v ++ rest) = skipSpaces v.dropLast ++ [d] ++ rest := by
    rw [← ends, List.append_assoc, List.singleton_append, skipSpaces_append_cons solid,
      List.dropLast_concat, List.append_assoc, List.singleton_append]
  have whole (rest : Text) : (u ++ rest).drop 8 = v ++ rest := by
    rw [operand, List.append_assoc]
    rfl
  have alone := behind []
  rw [List.append_nil, List.append_nil] at alone
  have same := whole []
  rw [List.append_nil, List.append_nil] at same
  rw [Asm.sectionArgument, Asm.sectionArgument, whole, same, behind, alone,
    List.takeWhile_append, List.takeWhile_cons_of_neg (by rw [stops]; decide),
    List.append_nil]
  split
  · rename_i all
    rw [(List.takeWhile_prefix _).eq_of_length all]
  · rfl

theorem read_eq (commented : Commented u tail (trim line')) (nonempty : u ≠ []) :
    read line' =
      if ".section".toList.isPrefixOf u then
        if Asm.sectionArgument (trim line') ≠ [] then .named (Asm.sectionArgument (trim line'))
        else .skipped
      else if ".globl".toList <:+: u ∨ ".globl".toList <:+: tail then .skipped
      else .content u := by
  have hash : '#' ∈ trim line' := by
    obtain ⟨c, blank, _, _, split⟩ := commented.split
    rw [split]
    simp
  have head : (trim line').head? ≠ some '#' := by
    obtain ⟨c, blank, _, _, split⟩ := commented.split
    obtain ⟨first, others, rfl⟩ := List.exists_cons_of_ne_nil nonempty
    rw [split]
    intro starts
    cases starts
    exact commented.noHash List.mem_cons_self
  have differs {name : Text} (noHash : '#' ∉ name) : trim line' ≠ name := by
    intro same
    rw [same] at hash
    exact noHash hash
  simp only [SourceLine.read]
  rw [if_neg (not_or.mpr ⟨differs (by decide), head⟩),
    if_neg (differs (by decide) : trim line' ≠ textName),
    if_neg (differs (by decide) : trim line' ≠ dataName),
    if_neg (differs (by decide) : trim line' ≠ rodataName),
    if_neg (differs (by decide) : trim line' ≠ bssName), commented.stripComment]
  simp only [commented.prefix_iff (w := ".section".toList) (by decide),
    commented.infix_iff (w := ".globl".toList) (by decide) (by decide) (by decide)]

end Commented

end Reading

section Kinds

variable {u tail line line' : Text}

/-- The section directives without an argument. -/
def bareNames : List Text := [textName, dataName, rodataName, bssName]

theorem read_plain (plain : trim line = u) (noHash : '#' ∉ u) (nonempty : u ≠ [])
    (noSection : ¬ ".section".toList.isPrefixOf u) (notBare : u ∉ bareNames) :
    read line = if ".globl".toList <:+: u then .skipped else .content u := by
  have head : u.head? ≠ some '#' := by
    obtain ⟨first, others, rfl⟩ := List.exists_cons_of_ne_nil nonempty
    intro starts
    cases starts
    exact noHash List.mem_cons_self
  simp only [bareNames, List.mem_cons, List.not_mem_nil, or_false, not_or] at notBare
  simp only [SourceLine.read]
  rw [plain, if_neg (not_or.mpr ⟨nonempty, head⟩), if_neg noSection, if_neg notBare.1,
    if_neg notBare.2.1, if_neg notBare.2.2.1, if_neg notBare.2.2.2, stripComment,
    strchr_eq_none noHash]

theorem read_same (plain : trim line = u) (commented : Commented u tail (trim line'))
    (nonempty : u ≠ []) (notBare : u ∉ bareNames) (notAlone : u ≠ ".section".toList)
    (quiet : ".globl".toList <:+: tail →
      ".globl".toList <:+: u ∨ ".section".toList.isPrefixOf u) :
    read line' = read line := by
  rw [commented.read_eq nonempty]
  by_cases enters : ".section".toList.isPrefixOf u
  · obtain ⟨v, split⟩ := List.isPrefixOf_iff_prefix.mp enters
    have operand : v ≠ [] := by
      rintro rfl
      rw [List.append_nil] at split
      exact notAlone split.symm
    have hash : u.head? ≠ some '#' := by
      rw [← split]
      intro starts
      cases starts
    rw [if_pos enters, commented.sectionArgument split.symm operand]
    simp only [SourceLine.read]
    rw [plain, if_neg (not_or.mpr ⟨nonempty, hash⟩), if_pos enters]
  · rw [read_plain plain commented.noHash nonempty enters notBare, if_neg enters]
    have same : ".globl".toList <:+: u ∨ ".globl".toList <:+: tail ↔
        ".globl".toList <:+: u := by
      rw [or_iff_left_iff_imp]
      intro inside
      exact (quiet inside).resolve_right enters
    simp only [same]

theorem read_alone (commented : Commented ".section".toList tail (trim line')) :
    ∃ rest, read line' = .named ('#' :: rest) := by
  rw [commented.read_eq (by decide), if_pos (by decide)]
  obtain ⟨c, blank, space, others, split⟩ := commented.split
  have spaces : ∀ b ∈ c :: blank, isspace b := List.forall_mem_cons.mpr ⟨space, others⟩
  have operand : (trim line').drop 8 = (c :: blank) ++ '#' :: tail := by
    rw [split]
    rfl
  have argument : sectionArgument (trim line') =
      '#' :: (tail.takeWhile fun c => !isspace c && c ≠ ',').take 62 := by
    rw [sectionArgument, operand, skipSpaces_append spaces]
    rfl
  rw [argument, if_pos (List.cons_ne_nil _ _)]
  exact ⟨_, rfl⟩

end Kinds

section Effects

/-- A directive that changes nothing. -/
structure IdleDirective (s : Text) : Prop where
  noColon : ':' ∉ s
  directive : s.head? = some '.'
  idle : Idle s
  quoted : ".ascii".toList.isPrefixOf (trim s) → '"' ∈ trim s

/-- The content of a line that changes nothing. -/
def NoEffect (s : Text) : Prop := s = [':'] ∨ IdleDirective s

variable {asm asm' : Assembler} {st : Pass2} {s : Text}

theorem Typed.growData_zero (typed : Typed asm) : growData asm 0 = asm := by
  obtain ⟨sec, found⟩ := Option.isSome_iff_exists.mp typed.current
  have same : asm.addOffset 0 = asm := by
    have here : asm.getCurrentSection = sec := by
      rw [Assembler.getCurrentSection, found]
      rfl
    have kept : sec.offset + 0 = sec.offset := BitVec.add_zero _
    unfold Assembler.addOffset
    simp only
    rw [here, kept, SortedMap.insert_self found]
  have total : asm.pcData + 0 = asm.pcData := BitVec.add_zero _
  unfold growData
  simp only
  rw [same, total, ite_self]

theorem IdleDirective.string (idle : IdleDirective s)
    (string : ".ascii".toList.isPrefixOf (trim s)) :
    ∃ before text, strchr '"' (trim s) = some (before, text) ∧
      parseEscapedString text = .ok [] := by
  cases found : strchr '"' (trim s) with
  | none => exact absurd (idle.quoted string) (not_mem_of_strchr_eq_none found)
  | some split =>
      obtain ⟨before, text⟩ := split
      refine ⟨before, text, rfl, ?_⟩
      rcases idle.idle.ascii string before text found with rfl | quote
      · rfl
      · obtain ⟨rest, rfl⟩ := List.head?_eq_some_iff.mp quote
        rfl

theorem IdleDirective.first (idle : IdleDirective s) (typed : Typed asm) :
    processDirective asm s = .ok asm := by
  unfold processDirective
  simp only
  rw [if_neg idle.idle.asciiz]
  have list (d : ListDirective) (starts : d.name.isPrefixOf (trim s)) :
      countItems false ((trim s).drop 5) = 0 :=
    (countItems_eq_zero_iff _).mpr (idle.idle.list d starts)
  split
  · rename_i string
    obtain ⟨before, text, found, parsed⟩ := idle.string string
    simp only [found, parsed]
    exact congrArg Except.ok typed.growData_zero
  split
  · rename_i starts
    rw [list .byte starts]
    exact congrArg Except.ok typed.growData_zero
  split
  · rename_i starts
    rw [list .half starts]
    exact congrArg Except.ok typed.growData_zero
  split
  · rename_i starts
    rw [list .word starts]
    exact congrArg Except.ok typed.growData_zero
  split
  · rename_i space
    cases scanned : scanInt ((trim s).drop 6) with
    | none => rfl
    | some n =>
        rw [idle.idle.space space n scanned]
        exact congrArg Except.ok typed.growData_zero
  · rfl

theorem emitItems_blank (item : Text → Except Stop (List Byte × Text)) {t : Text}
    (blank : ∀ c ∈ t, c = ' ' ∨ c = '\t' ∨ c = ',') :
    emitItems item t.length st t = .done st := by
  cases t with
  | nil => rfl
  | cons c rest =>
      have separators : skipSeparators (c :: rest) = [] := by
        rw [skipSeparators_eq_nil_iff]
        intro d member
        rcases blank d member with rfl | rfl | rfl
        · exact .inr rfl
        · exact .inr rfl
        · exact .inl rfl
      have first := blank c List.mem_cons_self
      rw [List.length_cons, emitItems, if_neg (by tauto), separators]
      cases rest <;> rfl

theorem IdleDirective.second (idle : IdleDirective s) (labels : List Label) :
    processDataDirective labels st s = .done st := by
  unfold processDataDirective
  simp only
  rw [if_neg idle.idle.asciiz]
  split
  · rename_i string
    obtain ⟨before, text, found, parsed⟩ := idle.string string
    simp only [found, parsed, Pass2.emit_nil]
  split
  · rename_i starts
    exact emitItems_blank _ (idle.idle.list .byte starts)
  split
  · rename_i starts
    exact emitItems_blank _ (idle.idle.list .half starts)
  split
  · rename_i starts
    exact emitItems_blank _ (idle.idle.list .word starts)
  split
  · rename_i space
    cases scanned : scanInt ((trim s).drop 6) with
    | none => rfl
    | some n =>
        rw [idle.idle.space space n scanned]
        exact congrArg Outcome.done (Pass2.emit_nil st)
  · rfl

theorem NoEffect.first (noEffect : NoEffect s) (typed : Typed asm) :
    firstPassContent asm s = .ok asm := by
  rcases noEffect with rfl | idle
  · rfl
  · unfold firstPassContent
    simp only [strchr_eq_none idle.noColon]
    rw [if_pos idle.directive]
    exact idle.first typed

theorem NoEffect.second (noEffect : NoEffect s) (asm : Assembler) (st : Pass2) :
    secondPassContent asm st s = .done st := by
  rcases noEffect with rfl | idle
  · rfl
  · unfold secondPassContent
    simp only [strchr_eq_none idle.noColon]
    unfold secondPassItem
    simp only
    rw [if_pos idle.directive, idle.second]
    exact ite_self _

end Effects

section Appending

/-- A line without a comment, and a comment that fits behind it. -/
structure Appended (line comment : Text) : Prop where
  noHash : '#' ∉ line
  oneLine : '\n' ∉ line ∧ '\n' ∉ comment
  short : (line ++ " #".toList ++ comment).length < maxLine - 1

/-- The comment changes nothing, whatever stands around the line. -/
def Unchanged (line comment : Text) : Prop :=
  ∀ before rest, Around before rest →
    assemble (before ++ (line ++ " #".toList ++ comment) ++ rest) =
      assemble (before ++ line ++ rest)

variable {line comment ending : Text} {front back : List Text} {t t' : Text}

theorem Appended.unchanged_iff (appended : Appended line comment) :
    Unchanged line comment ↔ ∀ before rest, Around before rest →
      assembleLines (sourceLines before ++
          cString (line ++ " #".toList ++ comment ++ rest.take 1) :: sourceLines rest.tail) =
        assembleLines (sourceLines before ++
          cString (line ++ rest.take 1) :: sourceLines rest.tail) := by
  have noNewline : '\n' ∉ line ++ " #".toList ++ comment := by
    rw [List.mem_append, List.mem_append, not_or, not_or]
    exact ⟨⟨appended.oneLine.1, by decide⟩, appended.oneLine.2⟩
  have short : line.length < maxLine - 1 := by
    have whole := appended.short
    rw [List.length_append, List.length_append] at whole
    omega
  apply forall_congr'
  intro before
  apply forall_congr'
  intro rest
  apply forall_congr'
  intro around
  rw [assemble_around around noNewline appended.short,
    assemble_around around appended.oneLine.1 short]

theorem cString_append (noNul : Char.ofNat 0 ∉ line) (t : Text) :
    cString (line ++ t) = line ++ cString t := takeWhile_ne_append noNul t

theorem trim_ended (noNul : Char.ofNat 0 ∉ line) (ends : ending = [] ∨ ending = ['\n']) :
    trim (cString (line ++ ending)) = trim line := by
  rw [cString_append noNul]
  rcases ends with rfl | rfl
  · exact trim_append_right (by decide) line
  · exact trim_append_right (by decide) line

theorem rdropWhile_ended (t : Text) (ends : ending = [] ∨ ending = ['\n']) :
    (cString (t ++ ending)).rdropWhile isspace = (cString t).rdropWhile isspace := by
  by_cases nul : Char.ofNat 0 ∈ t
  · obtain ⟨before, after, rfl, noNul⟩ := List.eq_append_cons_of_mem nul
    rw [List.append_assoc, cString_append noNul, cString_append noNul]
    rfl
  · have alone := cString_append nul []
    rw [List.append_nil] at alone
    have blank : ∀ c ∈ cString ending, isspace c := by
      rcases ends with rfl | rfl <;> decide
    rw [cString_append nul, alone, rdropWhile_append_right blank]
    exact congrArg (List.rdropWhile isspace) (List.append_nil t).symm

/-- A comment has `.globl` in it where the line ends or in front. -/
theorem globl_ended (comment : Text) (ends : ending = [] ∨ ending = ['\n']) :
    ".globl".toList <:+: (cString (comment ++ ending)).rdropWhile isspace ↔
      ".globl".toList <:+: cString comment := by
  have spaces : ∀ c ∈ (cString comment).rtakeWhile isspace, isspace c :=
    fun _ => List.mem_rtakeWhile_imp
  have whole := infix_append_blank spaces (w := ".globl".toList) (by decide) (by decide)
    ((cString comment).rdropWhile isspace)
  rw [List.rdropWhile_append_rtakeWhile] at whole
  rw [rdropWhile_ended comment ends]
  exact whole.symm

theorem Appended.text (noNul : Char.ofNat 0 ∉ line) (comment : Text) :
    trim (cString (line ++ " #".toList ++ comment ++ ending)) =
      skipSpaces (line ++ [' ']) ++ '#' :: (cString (comment ++ ending)).rdropWhile isspace := by
  have whole : line ++ " #".toList ++ comment ++ ending =
      (line ++ " #".toList) ++ (comment ++ ending) := by
    rw [List.append_assoc]
  have noNul' : Char.ofNat 0 ∉ line ++ " #".toList := by
    rw [List.mem_append, not_or]
    exact ⟨noNul, by decide⟩
  rw [whole, cString_append noNul', ← trim_append_cons (by decide)]
  simp

theorem Appended.commented (appended : Appended line comment) (noNul : Char.ofNat 0 ∉ line)
    (nonempty : trim line ≠ []) (ends : ending = [] ∨ ending = ['\n']) :
    ∃ tail, Commented (trim line) tail
        (trim (cString (line ++ " #".toList ++ comment ++ ending))) ∧
      (".globl".toList <:+: tail ↔ ".globl".toList <:+: cString comment) := by
  refine ⟨_, ⟨trimmed_trim line, ?_, ?_⟩, globl_ended comment ends⟩
  · intro member
    exact appended.noHash (mem_of_mem_trim member)
  have solid : skipSpaces line ≠ [] := by
    intro empty
    rw [trim, empty] at nonempty
    exact nonempty rfl
  have spaced : skipSpaces (line ++ [' ']) = trim line ++
      ((skipSpaces line).rtakeWhile isspace ++ [' ']) := by
    rw [trim, ← List.append_assoc, List.rdropWhile_append_rtakeWhile]
    unfold skipSpaces at solid ⊢
    rw [List.dropWhile_append, if_neg]
    rwa [List.isEmpty_iff]
  have blank : ∀ c ∈ (skipSpaces line).rtakeWhile isspace ++ [' '], isspace c := by
    intro c member
    rcases List.mem_append.mp member with inside | last
    · exact List.mem_rtakeWhile_imp inside
    · rw [List.mem_singleton.mp last]
      rfl
  obtain ⟨c, others, split⟩ := List.exists_cons_of_ne_nil
    (List.append_ne_nil_of_right_ne_nil ((skipSpaces line).rtakeWhile isspace)
      (List.cons_ne_nil ' ' []))
  rw [split, List.forall_mem_cons] at blank
  refine ⟨c, others, blank.1, blank.2, ?_⟩
  rw [Appended.text noNul, spaced, split, List.append_assoc]
  rfl

theorem read_blank (noNul : Char.ofNat 0 ∉ line) (comment : Text) (empty : trim line = [])
    (ends : ending = [] ∨ ending = ['\n']) :
    read (cString (line ++ " #".toList ++ comment ++ ending)) = .skipped ∧
      read (cString (line ++ ending)) = .skipped := by
  have spaces : skipSpaces (line ++ [' ']) = [] := by
    have solid : skipSpaces line = [] := by
      by_contra nonempty
      obtain ⟨c, others, split⟩ := List.exists_cons_of_ne_nil nonempty
      have head := head_skipSpaces line c (by rw [split]; rfl)
      rw [trim, split] at empty
      have all := List.rdropWhile_eq_nil_iff.mp empty c List.mem_cons_self
      rw [head] at all
      cases all
    unfold skipSpaces at solid ⊢
    rw [List.dropWhile_append, solid]
    rfl
  constructor
  · simp only [SourceLine.read]
    rw [Appended.text noNul, spaces, if_pos (.inr rfl)]
  · simp only [SourceLine.read]
    rw [trim_ended noNul ends, empty, if_pos (.inl rfl)]

/-- A line that neither pass acts on. -/
def Unseen (t : Text) : Prop := read t = .skipped ∨ ∃ s, NoEffect s ∧ read t = .content s

theorem assembleLines_unseen (unseen : Unseen t) :
    assembleLines (front ++ t :: back) = assembleLines (front ++ back) := by
  apply assembleLines_skip
  · intro asm typed
    rw [firstPassLine_eq]
    rcases unseen with skipped | ⟨s, noEffect, content⟩
    · rw [skipped]
      rfl
    · rw [content]
      simp only [firstPassRead, noEffect.first typed]
  · intro asm st
    rw [secondPassLine_eq]
    rcases unseen with skipped | ⟨s, noEffect, content⟩
    · rw [skipped]
      rfl
    · rw [content]
      exact noEffect.second asm st

theorem assembleLines_read (same : read t = read t') :
    assembleLines (front ++ t :: back) = assembleLines (front ++ t' :: back) := by
  apply assembleLines_congr
  · intro asm _
    rw [firstPassLine_eq, firstPassLine_eq, same]
  · intro asm st
    rw [secondPassLine_eq, secondPassLine_eq, same]

end Appending

section Harmless

/-- The lines and comments for which the comment does not matter: the line has
a zero byte, or it is no section directive that stands alone, and where the
comment has `.globl` in it, the line has no effect of its own, or one that
`.globl` does not hide. -/
def Harmless (line comment : Text) : Prop :=
  Char.ofNat 0 ∈ line ∨
    trim line ∉ ".section".toList :: bareNames ∧
      (".globl".toList <:+: cString comment →
        trim line = [] ∨ ".globl".toList <:+: trim line ∨
          ".section".toList.isPrefixOf (trim line) ∨ NoEffect (trim line))

variable {line comment name : Text} {lines : List Text} {asm asm' : Assembler} {A : Assembled}

theorem ends_of_around {before rest : Text} (around : Around before rest) :
    rest.take 1 = [] ∨ rest.take 1 = ['\n'] := by
  rcases around.ends with rfl | ⟨back, rfl⟩
  · exact .inl rfl
  · exact .inr rfl

theorem unchanged_of_harmless (appended : Appended line comment)
    (harmless : Harmless line comment) : Unchanged line comment := by
  rw [appended.unchanged_iff]
  intro before rest around
  have ends := ends_of_around around
  by_cases nul : Char.ofNat 0 ∈ line
  · obtain ⟨front, back, rfl, noNul⟩ := List.eq_append_cons_of_mem nul
    simp only [List.append_assoc, List.cons_append, cString_append noNul]
    rfl
  obtain ⟨notAlone, quiet⟩ := harmless.resolve_left nul
  rw [List.mem_cons, not_or] at notAlone
  by_cases empty : trim line = []
  · apply assembleLines_read
    obtain ⟨skipped, skipped'⟩ := read_blank nul comment empty ends
    rw [skipped, skipped']
  obtain ⟨tail, commented, globl⟩ := appended.commented nul empty ends
  have plain := trim_ended nul ends
  by_cases hidden : ".globl".toList <:+: cString comment ∧
      ¬ (".globl".toList <:+: trim line ∨ ".section".toList.isPrefixOf (trim line))
  · obtain ⟨inside, content⟩ := hidden
    rw [not_or] at content
    have noEffect : NoEffect (trim line) := by
      rcases quiet inside with blank | inLine | enters | noEffect
      · exact absurd blank empty
      · exact absurd inLine content.1
      · exact absurd enters content.2
      · exact noEffect
    have left : Unseen (cString (line ++ " #".toList ++ comment ++ rest.take 1)) := by
      left
      rw [commented.read_eq empty, if_neg content.2, if_pos (.inr (globl.mpr inside))]
    have right : Unseen (cString (line ++ rest.take 1)) := by
      right
      refine ⟨_, noEffect, ?_⟩
      rw [read_plain plain commented.noHash empty content.2 notAlone.2, if_neg content.1]
    rw [assembleLines_unseen left, assembleLines_unseen right]
  · apply assembleLines_read
    apply read_same plain commented empty notAlone.2 notAlone.1
    intro inside
    rw [not_and, not_not] at hidden
    exact hidden (globl.mp inside)

theorem first_of_assembled (assembled : assembleLines lines = some A) :
    ∃ asm, run firstPassLine Assembler.init lines = .done asm ∧
      A.labels = (adjustLabels asm asm.textSize).labels ∧ A.offsets = sectionOffset asm := by
  unfold assembleLines firstPassLines at assembled
  have start : { Assembler.init with labels := [], pcText := 0, pcData := 0 } =
      Assembler.init := rfl
  rw [start] at assembled
  cases ran : run firstPassLine Assembler.init lines with
  | stopped reason asm =>
      rw [ran] at assembled
      cases assembled
  | done asm =>
      rw [ran, Outcome.done_andThen] at assembled
      unfold assembleWith at assembled
      simp only at assembled
      split at assembled
      · cases assembled
      · cases assembled
        refine ⟨asm, rfl, rfl, ?_⟩
        funext name
        exact sectionOffset_adjustLabels _ _ name

/-- Content without an item that defines no label is a colon. -/
theorem eq_colon_of_noItem {s : Text} (stripped : Stripped s) (item : contentItem s = none)
    (noLabel : contentLabel s = none) : s = [':'] := by
  unfold contentItem at item
  unfold contentLabel at noLabel
  cases found : strchr ':' s with
  | none =>
      rw [found] at item
      cases item
  | some split =>
      obtain ⟨before, after⟩ := split
      have whole := (eq_append_of_strchr found).1
      simp only [found] at item noLabel
      have noBefore : before = [] := by
        by_contra named
        have solid : skipSpaces before = before := by
          apply skipSpaces_of_head
          intro c first
          apply stripped.trimmed.head
          rw [whole, List.head?_append_of_ne_nil _ named]
          exact first
        rw [solid, if_neg named] at noLabel
        cases noLabel
      have noAfter : after = [] := by
        by_contra operand
        have last : isspace (after.getLast operand) = false := by
          apply stripped.trimmed.last
          rw [whole, List.getLast?_append_of_ne_nil _ (List.cons_ne_nil _ _),
            List.getLast?_cons_of_ne_nil operand]
          exact List.getLast?_eq_getLast_of_ne_nil operand
        have solid : skipSpaces after ≠ [] := by
          intro spaces
          have space := List.dropWhile_eq_nil_iff.mp spaces _ (List.getLast_mem operand)
          rw [last] at space
          cases space
        have noHash : (skipSpaces after).head? ≠ some '#' := by
          intro hash
          apply stripped.noHash
          rw [whole]
          apply List.mem_append_right
          apply List.mem_cons_of_mem
          exact mem_of_mem_skipSpaces (List.mem_of_head? hash)
        rw [if_pos ⟨solid, noHash⟩] at item
        cases item
      rw [whole, noBefore, noAfter]
      rfl

/-- Content that leaves no trace in `.text` has no effect anywhere. -/
theorem noEffect_of_unseen {s : Text} (stripped : Stripped s)
    (processed : firstPassContent Assembler.init s = .ok asm') (noLabels : asm'.labels = [])
    (noOffset : sectionOffset asm' textName = 0) : NoEffect s := by
  obtain ⟨labels, current⟩ := firstPassContent_kept processed
  have still : asm'.getCurrentSection.offset = Assembler.init.getCurrentSection.offset := by
    rw [getCurrentSection_offset, current]
    exact noOffset
  have moves := firstPassContent_moves stripped.trimmed processed
  cases item : contentItem s with
  | none =>
      left
      apply eq_colon_of_noItem stripped item
      cases label : contentLabel s with
      | none => rfl
      | some name =>
          rw [noLabels, label] at labels
          simp [withLabel, addLabel] at labels
  | some i =>
      right
      rw [item] at moves
      simp only at moves
      split at moves
      · exact absurd still moves
      rename_i notText
      rw [not_and, not_or, not_not] at notText
      obtain ⟨noColon, directive⟩ := notText rfl
      have same : i = s := by
        rw [contentItem, strchr_eq_none noColon] at item
        cases item
        rfl
      rw [same] at directive moves
      rw [if_pos directive] at moves
      obtain ⟨mid, here, processed'⟩ := moves
      refine ⟨noColon, directive, ?_, ?_⟩
      · rw [← directiveCount_eq_zero_iff processed' stripped.short]
        by_contra grows
        apply (processDirective_moves processed').mpr grows
        rw [here]
        exact still
      · intro string
        obtain ⟨before, text, bytes, found, _⟩ := string_of_processed processed' string
        rw [(eq_append_of_strchr found).1]
        simp

theorem noEffect_of_bare (bare : name ∈ bareNames) : NoEffect name := by
  right
  have known : ∀ name ∈ bareNames, ':' ∉ name ∧ name.head? = some '.' ∧
      ¬ ".asciiz".toList.isPrefixOf (trim name) ∧ ¬ ".ascii".toList.isPrefixOf (trim name) ∧
      (∀ d ∈ [ListDirective.byte, .half, .word], ¬ d.name.isPrefixOf (trim name)) ∧
      ¬ ".space".toList.isPrefixOf (trim name) := by
    decide
  obtain ⟨noColon, directive, noString, noAscii, noList, noSpace⟩ := known name bare
  refine ⟨noColon, directive, ⟨noString, fun starts => absurd starts noAscii, ?_,
    fun starts => absurd starts noSpace⟩, fun starts => absurd starts noAscii⟩
  intro d starts
  refine absurd starts (noList d ?_)
  cases d <;> decide

/-- A section directive alone on its line decides what becomes of a line
behind it. -/
theorem bare_matters (bare : name ∈ bareNames) :
    ∃ before, Around before "\nnop".toList ∧
      assembleLines (sourceLines before ++ name :: ["nop".toList]) ≠
        assembleLines (sourceLines before ++ ["nop".toList]) := by
  have differ {before : Text}
      (sizes : (assembleLines (sourceLines before ++ name :: ["nop".toList])).map
          Assembled.textSize ≠
        (assembleLines (sourceLines before ++ ["nop".toList])).map Assembled.textSize) :
      assembleLines (sourceLines before ++ name :: ["nop".toList]) ≠
        assembleLines (sourceLines before ++ ["nop".toList]) := by
    intro same
    rw [same] at sizes
    exact sizes rfl
  have behind : "\nnop".toList = [] ∨ ∃ back, "\nnop".toList = '\n' :: back :=
    .inr ⟨"nop".toList, rfl⟩
  simp only [bareNames, List.mem_cons, List.not_mem_nil, or_false] at bare
  rcases bare with rfl | rfl | rfl | rfl
  · exact ⟨".data\n".toList, ⟨.inr ⟨dataName, rfl⟩, behind⟩, differ (by decide +kernel)⟩
  · exact ⟨[], ⟨.inl rfl, behind⟩, differ (by decide +kernel)⟩
  · exact ⟨[], ⟨.inl rfl, behind⟩, differ (by decide +kernel)⟩
  · exact ⟨[], ⟨.inl rfl, behind⟩, differ (by decide +kernel)⟩

theorem read_congr {t t' : Text} (same : trim t = trim t') : read t = read t' := by
  unfold SourceLine.read
  rw [same]

theorem not_unchanged_of_bare (appended : Appended line comment)
    (noNul : Char.ofNat 0 ∉ line) (bare : trim line ∈ bareNames) :
    ¬ Unchanged line comment := by
  rw [appended.unchanged_iff]
  intro unchanged
  have known : ∀ name ∈ bareNames, name ≠ [] ∧ ¬ ".section".toList.isPrefixOf name ∧
      trim name = name := by
    decide
  obtain ⟨nonempty, noSection, trimmed⟩ := known _ bare
  obtain ⟨before, around, matters⟩ := bare_matters bare
  have ends := ends_of_around around
  obtain ⟨tail, commented, _⟩ := appended.commented noNul nonempty ends
  have unseen : Unseen (cString (line ++ " #".toList ++ comment ++ "\nnop".toList.take 1)) := by
    unfold Unseen
    rw [commented.read_eq nonempty, if_neg noSection]
    split
    · exact .inl rfl
    · exact .inr ⟨_, noEffect_of_bare bare, rfl⟩
  have same := unchanged _ _ around
  have plain : read (cString (line ++ "\nnop".toList.take 1)) = read (trim line) :=
    read_congr ((trim_ended noNul ends).trans trimmed.symm)
  rw [assembleLines_unseen unseen, assembleLines_read plain] at same
  exact matters same.symm

/-- The comment behind a lone `.section` opens a section of its own. -/
theorem not_unchanged_of_alone (appended : Appended line comment)
    (noNul : Char.ofNat 0 ∉ line) (alone : trim line = ".section".toList) :
    ¬ Unchanged line comment := by
  rw [appended.unchanged_iff]
  intro unchanged
  have around : Around [] "\nnop".toList := ⟨.inl rfl, .inr ⟨"nop".toList, rfl⟩⟩
  have ends := ends_of_around around
  obtain ⟨tail, commented, _⟩ := appended.commented noNul (by rw [alone]; decide) ends
  rw [alone] at commented
  obtain ⟨rest, named⟩ := read_alone commented
  have plain : Unseen (cString (line ++ "\nnop".toList.take 1)) := by
    left
    rw [read_congr ((trim_ended noNul ends).trans (alone.trans rfl : _ = trim ".section".toList))]
    decide
  have same := unchanged _ _ around
  rw [assembleLines_unseen plain] at same
  have counted : ∃ A, assembleLines ["nop".toList] = some A ∧ A.offsets textName = 4 := by
    have size : (assembleLines ["nop".toList]).map (·.offsets textName) = some 4 := by
      decide +kernel
    exact Option.map_eq_some_iff.mp size
  obtain ⟨A, assembled, offset⟩ := counted
  obtain ⟨asm, ran, _, offsets⟩ := first_of_assembled (same.trans assembled)
  let entered := Assembler.init.switchSection ('#' :: rest)
  have custom : entered.getCurrentSection.type ≠ .text := by
    rw [(typed_init.change (.switch _ _)).getType]
    intro text
    cases text
  have ignored : firstPassLine entered "nop".toList = .done entered := by
    have content : read "nop".toList = .content "nop".toList := by
      decide
    rw [firstPassLine_eq, content]
    have noColon : ':' ∉ "nop".toList := by
      decide
    simp only [firstPassRead, firstPassContent, strchr_eq_none noColon]
    rw [if_neg (by decide), if_neg custom]
  have stays : run firstPassLine Assembler.init
      (cString (line ++ " #".toList ++ comment ++ "\nnop".toList.take 1) :: ["nop".toList]) =
        .done entered := by
    rw [run_cons, firstPassLine_eq, named]
    simp only [firstPassRead, Outcome.done_andThen]
    rw [run_cons, ignored]
    rfl
  have other : textName ≠ '#' :: rest := by
    intro names
    cases names
  have nothing : sectionOffset entered textName = 0 := by
    rw [sectionOffset, find?_switchSection, if_neg other]
    rfl
  have reached : entered = asm := Outcome.done.inj (stays.symm.trans ran)
  rw [offsets, ← reached, nothing] at offset
  cases offset

/-- Where a comment hides the content of the line, the content had no effect. -/
theorem noEffect_of_unchanged (appended : Appended line comment)
    (noNul : Char.ofNat 0 ∉ line) (nonempty : trim line ≠ [])
    (noSection : ¬ ".section".toList.isPrefixOf (trim line)) (notBare : trim line ∉ bareNames)
    (inside : ".globl".toList <:+: cString comment)
    (notHere : ¬ ".globl".toList <:+: trim line) (unchanged : Unchanged line comment) :
    NoEffect (trim line) := by
  rw [appended.unchanged_iff] at unchanged
  have around : Around [] [] := ⟨.inl rfl, .inl rfl⟩
  have ends := ends_of_around around
  obtain ⟨tail, commented, globl⟩ := appended.commented noNul nonempty ends
  have unseen : Unseen (cString (line ++ " #".toList ++ comment ++ [].take 1)) := by
    left
    rw [commented.read_eq nonempty, if_neg noSection, if_pos (.inr (globl.mpr inside))]
  have content : read (cString (line ++ [].take 1)) = .content (trim line) := by
    rw [read_plain (trim_ended noNul ends) commented.noHash nonempty noSection notBare,
      if_neg notHere]
  have same := unchanged _ _ around
  rw [assembleLines_unseen unseen] at same
  have empty : ∃ A, assembleLines [] = some A ∧ A.labels = [] ∧ A.offsets textName = 0 :=
    ⟨_, rfl, rfl, rfl⟩
  obtain ⟨A, assembled, noLabels, noOffset⟩ := empty
  obtain ⟨asm, ran, labels, offsets⟩ := first_of_assembled (same.symm.trans assembled)
  obtain ⟨asm', first, last⟩ := run_cons_eq_done.mp ran
  cases last
  have short : (cString (line ++ [].take 1)).length < maxLine := by
    have whole := appended.short
    have prefixed := (List.takeWhile_prefix (l := line ++ [].take 1)
      (· ≠ Char.ofNat 0)).length_le
    rw [List.length_append] at whole prefixed
    rw [List.length_append] at whole
    have bound : maxLine = 512 := rfl
    unfold cString
    simp only [List.take_nil, List.length_nil] at prefixed ⊢
    omega
  apply noEffect_of_unseen (stripped_content short content)
    (processed_of_content content first)
  · rw [labels] at noLabels
    exact List.map_eq_nil_iff.mp noLabels
  · rw [← offsets]
    exact noOffset

theorem harmless_of_unchanged (appended : Appended line comment)
    (unchanged : Unchanged line comment) : Harmless line comment := by
  by_cases noNul : Char.ofNat 0 ∈ line
  · exact .inl noNul
  right
  have notAlone : trim line ∉ ".section".toList :: bareNames := by
    rw [List.mem_cons, not_or]
    exact ⟨fun alone => not_unchanged_of_alone appended noNul alone unchanged,
      fun bare => not_unchanged_of_bare appended noNul bare unchanged⟩
  refine ⟨notAlone, ?_⟩
  intro inside
  by_contra seen
  rw [not_or, not_or, not_or] at seen
  obtain ⟨nonempty, notHere, noSection, effect⟩ := seen
  exact effect (noEffect_of_unchanged appended noNul nonempty noSection
    (fun bare => notAlone (List.mem_cons_of_mem _ bare)) inside notHere unchanged)

/-- A comment leaves everything as it is exactly behind the lines that it does
not change. -/
theorem comment_unchanged_iff (appended : Appended line comment) :
    Unchanged line comment ↔ Harmless line comment :=
  ⟨harmless_of_unchanged appended, unchanged_of_harmless appended⟩

theorem comment_unchanged_iff_nop :
    Unchanged "nop".toList "wait".toList ↔ Harmless "nop".toList "wait".toList :=
  comment_unchanged_iff ⟨by decide, by decide, by decide⟩

/-- `.data # values` is not `.data`. -/
theorem not_comment_unchanged_data :
    let line : Text := ".data".toList
    let comment : Text := "values".toList
    Appended line comment ∧
      (assemble (line ++ "\nnop".toList)).map Assembled.textSize = some 0 ∧
      (assemble (line ++ " #".toList ++ comment ++ "\nnop".toList)).map Assembled.textSize =
        some 4 ∧ ¬ Unchanged line comment := by
  intro line comment
  have plain : (assemble (line ++ "\nnop".toList)).map Assembled.textSize = some 0 := by
    decide +kernel
  have commented : (assemble (line ++ " #".toList ++ comment ++ "\nnop".toList)).map
      Assembled.textSize = some 4 := by
    decide +kernel
  refine ⟨⟨by decide, by decide, by decide⟩, plain, commented, ?_⟩
  intro unchanged
  have same := unchanged [] "\nnop".toList ⟨.inl rfl, .inr ⟨"nop".toList, rfl⟩⟩
  rw [List.nil_append, List.nil_append] at same
  rw [same, plain] at commented
  cases commented

end Harmless

end RiscvPack.Asm
