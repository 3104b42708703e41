import RiscvPack.Assembler.Agreement
import RiscvPack.Assembler.Comments

/-!
# A run of white space in an instruction line

What the passes see of a line with an instruction and a run of white space in
it.  The run is part of the item that they process, and of nothing else: two
lines that differ in the run are exchanged when both passes get through their
items alike.
-/

namespace RiscvPack.Asm

open CString Runs
open SourceLine (read)

section Lines

/-- What stands in front of an instruction: white space, or a label. -/
inductive Opening (item : Text) : Text → Prop where
  | blank {start : Text} :
      (∀ c ∈ start, isspace c) → ':' ∉ item → Opening item start
  | label {name blanks : Text} :
      ':' ∉ name → (∀ c ∈ blanks, isspace c) → Opening item (name ++ ':' :: blanks)

/-- A run of white space. -/
structure Gap (run : Text) : Prop where
  nonempty : run ≠ []
  white : ∀ c ∈ run, isspace c

/-- A line with an instruction and a run of white space in it: the text in
front of the instruction, the instruction up to the run, the run, and the rest
of the line, which begins with a token. -/
structure Spaced (start front run back : Text) : Prop where
  opening : Opening (front ++ back.takeWhile (· ≠ '#')) start
  noHash : '#' ∉ start ++ front
  noNul : Char.ofNat 0 ∉ start ++ front
  head : ∃ c ∈ front.head?, isspace c = false ∧ c ≠ '.'
  gap : Gap run
  token : ∃ d ∈ back.head?, isspace d = false ∧ d ≠ '#' ∧ d ≠ Char.ofNat 0
  oneLine : '\n' ∉ start ++ front ++ run ++ back
  content : HasContent (cString (start ++ front ++ run ++ back))
  short : (start ++ front ++ run ++ back).length < maxLine - 1

/-- A trimmed line with content. -/
structure Plain (u : Text) : Prop where
  nonempty : u ≠ []
  noComment : u.head? ≠ some '#'
  noSection : ¬ ".section".toList.isPrefixOf u
  notBare : u ∉ bareNames
  noGlobl : ¬ ".globl".toList <:+: u

theorem read_eq_content_iff {line s : Text} :
    read line = .content s ↔ Plain (trim line) ∧ s = stripComment (trim line) := by
  constructor
  · intro content
    refine ⟨?_, content_eq content⟩
    unfold SourceLine.read at content
    simp only at content
    split at content
    · cases content
    rename_i visible
    rw [not_or] at visible
    split at content
    · split at content <;> cases content
    rename_i noSection
    split at content
    · cases content
    rename_i noText
    split at content
    · cases content
    rename_i noData
    split at content
    · cases content
    rename_i noRodata
    split at content
    · cases content
    rename_i noBss
    split at content
    · cases content
    rename_i noGlobl
    refine ⟨visible.1, visible.2, noSection, ?_, noGlobl⟩
    simp [bareNames, noText, noData, noRodata, noBss]
  · rintro ⟨plain, rfl⟩
    have notBare := plain.notBare
    simp only [bareNames, List.mem_cons, List.not_mem_nil, or_false, not_or] at notBare
    simp only [SourceLine.read]
    rw [if_neg (not_or.mpr ⟨plain.nonempty, plain.noComment⟩), if_neg plain.noSection,
      if_neg notBare.1, if_neg notBare.2.1, if_neg notBare.2.2.1, if_neg notBare.2.2.2,
      if_neg plain.noGlobl]

theorem hasContent_iff {line : Text} : HasContent line ↔ Plain (trim line) := by
  constructor
  · rintro ⟨s, content⟩
    exact (read_eq_content_iff.mp content).1
  · intro plain
    exact ⟨_, read_eq_content_iff.mpr ⟨plain, rfl⟩⟩

/-- A run of white space in a line does not tell what the line is. -/
theorem plain_append_iff {A B run : Text} (head : ∃ c ∈ A.head?, isspace c = false)
    (gap : Gap run) :
    Plain (A ++ run ++ B) ↔ A.head? ≠ some '#' ∧ ¬ ".section".toList.isPrefixOf A ∧
      ¬ (".globl".toList <:+: A ∨ ".globl".toList <:+: B) := by
  obtain ⟨nonempty, white⟩ := gap
  obtain ⟨g, blanks, rfl⟩ := List.exists_cons_of_ne_nil nonempty
  have space := List.forall_mem_cons.mp white
  have absent {w : Text} (clean : ∀ c ∈ w, isspace c = false) : g ∉ w := by
    intro member
    rw [clean g member] at space
    exact absurd space.1 (by decide)
  have whole : A ++ g :: blanks ++ B = A ++ g :: (blanks ++ B) := by simp
  have section_iff : ".section".toList.isPrefixOf (A ++ g :: (blanks ++ B)) ↔
      ".section".toList.isPrefixOf A := by
    rw [List.isPrefixOf_iff_prefix, List.isPrefixOf_iff_prefix]
    exact prefix_append_cons_iff (absent (by decide)) _ _
  have globl_iff : ".globl".toList <:+: A ++ g :: (blanks ++ B) ↔
      ".globl".toList <:+: A ∨ ".globl".toList <:+: B := by
    rw [infix_append_cons_iff (absent (by decide))]
    apply or_congr_right
    constructor
    · apply infix_behind
      intro member
      exact absurd (space.2 '.' member) (by decide)
    · exact List.infix_append_of_infix_right
  have notBare : A ++ g :: (blanks ++ B) ∉ bareNames := by
    have clean : ∀ name ∈ bareNames, ∀ c ∈ name, isspace c = false := by decide
    intro bare
    exact absent (clean _ bare) (by simp)
  have first : (A ++ g :: (blanks ++ B)).head? = A.head? := by
    obtain ⟨c, starts, _⟩ := head
    rw [List.head?_append, Option.mem_def.mp starts]
    rfl
  rw [whole]
  constructor
  · intro plain
    have noComment := plain.noComment
    have noSection := plain.noSection
    have noGlobl := plain.noGlobl
    rw [first] at noComment
    rw [section_iff] at noSection
    rw [globl_iff] at noGlobl
    exact ⟨noComment, noSection, noGlobl⟩
  · rintro ⟨noComment, noSection, noGlobl⟩
    refine ⟨by simp, ?_, ?_, notBare, ?_⟩
    · rwa [first]
    · rwa [section_iff]
    · rwa [globl_iff]

/-- What the passes see of the rest of a line. -/
def seen (back : Text) : Text :=
  (((cString back).rdropWhile isspace).takeWhile (· ≠ '#')).rdropWhile isspace

/-- The item of a line behind a run of white space: it begins with a token,
and no white space or comment follows it. -/
structure Behind (back z : Text) : Prop where
  head : ∃ d ∈ z.head?, isspace d = false
  last : z.rdropWhile isspace = z
  inside : z <+: back.takeWhile (· ≠ '#')

theorem Behind.noHash {back z : Text} (behind : Behind back z) : '#' ∉ z := by
  intro member
  have kept := List.mem_takeWhile_imp (behind.inside.subset member)
  exact absurd kept (by decide)

variable {start front run run' back ending : Text}

theorem Spaced.behind (spaced : Spaced start front run back) : Behind back (seen back) where
  head := by
    obtain ⟨d, first, solid, noHash, noNul⟩ := spaced.token
    obtain ⟨rest, rfl⟩ := List.head?_eq_some_iff.mp first
    refine ⟨d, ?_, solid⟩
    have keeps (t : Text) : (d :: t).rdropWhile isspace = d :: t.rdropWhile isspace :=
      rdropWhile_append_cons solid [] t
    rw [seen, cString, List.takeWhile_cons_of_pos (by simpa using noNul), keeps,
      List.takeWhile_cons_of_pos (by simpa using noHash), keeps]
    rfl
  last := List.rdropWhile_idempotent _ _
  inside := by
    apply (List.rdropWhile_prefix _ _).trans
    apply prefix_takeWhile
    exact (List.rdropWhile_prefix _ _).trans (List.takeWhile_prefix _)

theorem Spaced.exists_cons (spaced : Spaced start front run back) :
    ∃ c rest, front = c :: rest ∧ isspace c = false ∧ c ≠ '.' := by
  obtain ⟨c, first, solid, noDot⟩ := spaced.head
  obtain ⟨rest, split⟩ := List.head?_eq_some_iff.mp first
  exact ⟨c, rest, split, solid, noDot⟩

theorem Gap.not_mem (gap : Gap run) {c : Char} (solid : isspace c = false) : c ∉ run :=
  not_mem_blank solid gap.white

theorem Spaced.trim_eq (spaced : Spaced start front run back) (gap : Gap run')
    (ends : ending = [] ∨ ending = ['\n']) :
    trim (cString (start ++ front ++ run' ++ back ++ ending)) =
      skipSpaces start ++ front ++ run' ++ (cString back).rdropWhile isspace := by
  obtain ⟨c, rest, rfl, solid, _⟩ := spaced.exists_cons
  obtain ⟨d, first, solidBack, _, noNul⟩ := spaced.token
  obtain ⟨others, rfl⟩ := List.head?_eq_some_iff.mp first
  have clean : Char.ofNat 0 ∉ start ++ c :: rest ++ run' := by
    rw [List.mem_append, not_or]
    exact ⟨spaced.noNul, gap.not_mem (by decide)⟩
  have ended := rdropWhile_ended (d :: others) ends
  rw [List.append_assoc _ (d :: others), cString_append clean]
  have starts : ∃ t, cString (d :: others ++ ending) = d :: t := by
    refine ⟨(others ++ ending).takeWhile (· ≠ Char.ofNat 0), ?_⟩
    exact List.takeWhile_cons_of_pos (by simpa using noNul)
  obtain ⟨t, starts⟩ := starts
  rw [starts] at ended ⊢
  have front : skipSpaces (start ++ c :: rest ++ run') =
      skipSpaces start ++ c :: rest ++ run' := by
    rw [List.append_assoc, List.cons_append, skipSpaces_append_cons solid, List.append_assoc,
      List.cons_append]
  rw [trim_append_cons solidBack, front, ← ended]
  congr 1
  exact (rdropWhile_append_cons solidBack [] t).symm

theorem Spaced.skipSpaces_front (spaced : Spaced start front run back) :
    skipSpaces (skipSpaces start ++ front ++ run') = skipSpaces start ++ front ++ run' := by
  obtain ⟨c, rest, rfl, solid, _⟩ := spaced.exists_cons
  apply skipSpaces_of_head
  intro d first
  cases blank : skipSpaces start with
  | nil =>
      rw [blank] at first
      cases first
      exact solid
  | cons e others =>
      apply head_skipSpaces start
      rw [blank] at first ⊢
      exact first

theorem Spaced.stripped_eq (spaced : Spaced start front run back) (gap : Gap run') :
    stripComment (skipSpaces start ++ front ++ run' ++ (cString back).rdropWhile isspace) =
      skipSpaces start ++ front ++ run' ++ seen back := by
  have noHash : '#' ∉ skipSpaces start ++ front ++ run' := by
    have visible := spaced.noHash
    rw [List.mem_append, not_or] at visible
    rw [List.mem_append, List.mem_append, not_or, not_or]
    exact ⟨⟨fun member => visible.1 (mem_of_mem_skipSpaces member), visible.2⟩,
      gap.not_mem (by decide)⟩
  obtain ⟨d, head, solid⟩ := spaced.behind.head
  have skipped : skipSpaces (skipSpaces start ++ front ++ run') = _ := spaced.skipSpaces_front
  have ended := List.rdropWhile_idempotent isspace (cString back)
  unfold seen at head ⊢
  generalize (cString back).rdropWhile isspace = b at head ended ⊢
  cases found : strchr '#' b with
  | none =>
      have absent := not_mem_of_strchr_eq_none found
      have noHashWhole : '#' ∉ skipSpaces start ++ front ++ run' ++ b := by
        rw [List.mem_append, not_or]
        exact ⟨noHash, absent⟩
      rw [takeWhile_ne_self absent, ended, stripComment,
        strchr_eq_none noHashWhole]
  | some split =>
      obtain ⟨before, after⟩ := split
      obtain ⟨rfl, absent⟩ := eq_append_of_strchr found
      have noHashFront : '#' ∉ skipSpaces start ++ front ++ run' ++ before := by
        rw [List.mem_append, not_or]
        exact ⟨noHash, absent⟩
      rw [takeWhile_ne_cons absent] at head ⊢
      obtain ⟨rest, starts⟩ : ∃ rest, before = d :: rest := by
        obtain ⟨others, kept⟩ := List.head?_eq_some_iff.mp head
        obtain ⟨spaces, whole⟩ := List.rdropWhile_prefix isspace (l := before)
        exact ⟨others ++ spaces, by rw [← whole, kept, List.cons_append]⟩
      rw [stripComment, ← List.append_assoc, strchr_append noHashFront]
      show trim (_ ++ before) = _
      rw [starts, trim_append_cons solid, skipped]
      congr 1
      exact (rdropWhile_append_cons solid [] rest).symm

/-- What the passes read in the line does not depend on the run. -/
theorem Spaced.read_eq (spaced : Spaced start front run back) (gap : Gap run')
    (ends : ending = [] ∨ ending = ['\n']) :
    read (cString (start ++ front ++ run' ++ back ++ ending)) =
      .content (skipSpaces start ++ front ++ run' ++ seen back) := by
  obtain ⟨c, rest, whole, solid, _⟩ := spaced.exists_cons
  have head : ∃ d ∈ (skipSpaces start ++ front).head?, isspace d = false := by
    cases blank : skipSpaces start with
    | nil => exact ⟨c, by rw [whole]; rfl, solid⟩
    | cons e others => exact ⟨e, rfl, head_skipSpaces start e (by rw [blank]; rfl)⟩
  have plain := hasContent_iff.mp spaced.content
  have before := spaced.trim_eq spaced.gap (.inl rfl)
  rw [List.append_nil] at before
  rw [before, plain_append_iff head spaced.gap] at plain
  rw [read_eq_content_iff, spaced.trim_eq gap ends, plain_append_iff head gap]
  exact ⟨plain, (spaced.stripped_eq gap).symm⟩

end Lines

section Items

variable {start front run run' back ending : Text}

theorem Spaced.skipSpaces_item (spaced : Spaced start front run back) (t : Text) :
    skipSpaces (front ++ t) = front ++ t := by
  obtain ⟨c, rest, rfl, solid, _⟩ := spaced.exists_cons
  exact skipSpaces_append_cons solid [] (rest ++ t)

theorem Spaced.trim_item (spaced : Spaced start front run back) (run' : Text) :
    trim (front ++ run' ++ seen back) = front ++ run' ++ seen back := by
  obtain ⟨d, first, solid⟩ := spaced.behind.head
  obtain ⟨rest, split⟩ := List.head?_eq_some_iff.mp first
  have ended := spaced.behind.last
  rw [split] at ended ⊢
  rw [trim_append_cons solid, spaced.skipSpaces_item]
  exact congrArg (front ++ run' ++ ·) ((rdropWhile_append_cons solid [] rest).symm.trans ended)

theorem Spaced.stripped_item (spaced : Spaced start front run back) (gap : Gap run')
    (short : (start ++ front ++ run' ++ back).length < maxLine - 1) :
    Stripped (front ++ run' ++ seen back) where
  trimmed := spaced.trim_item run' ▸ trimmed_trim _
  noHash := by
    have visible := spaced.noHash
    simp only [List.mem_append, not_or] at visible ⊢
    exact ⟨⟨visible.2, gap.not_mem (by decide)⟩, spaced.behind.noHash⟩
  short := by
    have shorter := spaced.behind.inside.length_le.trans
      (List.takeWhile_prefix (l := back) (· ≠ '#')).length_le
    simp only [List.length_append] at short ⊢
    omega

theorem Spaced.item (spaced : Spaced start front run back) :
    ∃ label : Assembler → Except Stop Assembler, ∀ run', Gap run' →
      contentItem (skipSpaces start ++ front ++ run' ++ seen back) =
          some (front ++ run' ++ seen back) ∧
        ∀ asm, firstPassContent asm (skipSpaces start ++ front ++ run' ++ seen back) = (do
          let labelled ← label asm
          if labelled.getCurrentSection.type = .text then
            processInstructionFirstPass labelled (front ++ run' ++ seen back)
          else .ok labelled) := by
  obtain ⟨c, rest, whole, solid, noDot⟩ := spaced.exists_cons
  have noHashFront : c ≠ '#' := by
    rintro rfl
    apply spaced.noHash
    rw [whole]
    simp
  have behind := spaced.behind
  cases spaced.opening with
  | blank spaces noColon =>
      have nothing : skipSpaces start = [] := List.dropWhile_eq_nil_iff.mpr spaces
      refine ⟨.ok, fun run' gap => ?_⟩
      have absent : ':' ∉ front ++ run' ++ seen back := by
        rw [List.mem_append, not_or] at noColon
        simp only [List.mem_append, not_or]
        exact ⟨⟨noColon.1, gap.not_mem (by decide)⟩,
          fun member => noColon.2 (behind.inside.subset member)⟩
      rw [nothing, List.nil_append]
      refine ⟨by rw [contentItem, strchr_eq_none absent], fun asm => ?_⟩
      have head : (front ++ run' ++ seen back).head? ≠ some '.' := by
        rw [whole]
        intro same
        exact noDot (Option.some.inj same)
      rw [firstPassContent, strchr_eq_none absent]
      exact if_neg head
  | @label name blanks noColon spaces =>
      refine ⟨fun asm => processLabel asm (skipSpaces name), fun run' gap => ?_⟩
      have shape : skipSpaces (name ++ ':' :: blanks) ++ front ++ run' ++ seen back =
          skipSpaces name ++ ':' :: (blanks ++ (front ++ run' ++ seen back)) := by
        rw [skipSpaces_append_cons rfl]
        simp
      have absent : ':' ∉ skipSpaces name := fun member =>
        noColon (mem_of_mem_skipSpaces member)
      have item : skipSpaces (blanks ++ (front ++ run' ++ seen back)) =
          front ++ run' ++ seen back := by
        rw [skipSpaces_append spaces, List.append_assoc, spaced.skipSpaces_item]
      have first : (front ++ run' ++ seen back).head? = some c := by
        rw [whole]
        rfl
      have visible : front ++ run' ++ seen back ≠ [] ∧
          (front ++ run' ++ seen back).head? ≠ some '#' := by
        rw [first]
        refine ⟨by rw [whole]; exact List.cons_ne_nil _ _, ?_⟩
        exact fun same => noHashFront (Option.some.inj same)
      have noDirective : (front ++ run' ++ seen back).head? ≠ some '.' := by
        rw [first]
        exact fun same => noDot (Option.some.inj same)
      constructor
      · rw [shape, contentItem, strchr_append absent]
        simp only
        rw [item, if_pos visible, spaced.trim_item]
      · intro asm
        rw [shape, firstPassContent, strchr_append absent]
        simp only [item, if_pos visible, if_neg noDirective]

/-- Two items that both passes get through alike. -/
structure AlikeItems (i i' : Text) : Prop where
  first : ∀ asm, processInstructionFirstPass asm i = processInstructionFirstPass asm i'
  second : ∀ labels st st', processInstructionSecondPass labels st i = .done st' ↔
    processInstructionSecondPass labels st i' = .done st'

/-- The second pass on the line is the one on its item, in a text section. -/
theorem Spaced.second_eq (spaced : Spaced start front run back) (gap : Gap run')
    (ends : ending = [] ∨ ending = ['\n']) (asm : Assembler) (st : Pass2) :
    secondPassLine asm st (cString (start ++ front ++ run' ++ back ++ ending)) =
      if ((asm.sections.find? st.currentSectionName).map (·.type)).getD .text = .text then
        processInstructionSecondPass asm.labels st (front ++ run' ++ seen back)
      else .done st := by
  obtain ⟨label, items⟩ := spaced.item
  obtain ⟨c, rest, whole, _, noDot⟩ := spaced.exists_cons
  have noDirective : (front ++ run' ++ seen back).head? ≠ some '.' := by
    rw [whole]
    exact fun same => noDot (Option.some.inj same)
  rw [secondPassLine_eq, spaced.read_eq gap ends]
  show secondPassContent _ _ _ = _
  rw [secondPassContent_eq, (items run' gap).1]
  exact if_neg noDirective

theorem Spaced.unchanged (spaced : Spaced start front run back) (gap : Gap run')
    (oneLine : '\n' ∉ run')
    (short : (start ++ front ++ run' ++ back).length < maxLine - 1)
    (alike : AlikeItems (front ++ run' ++ seen back) (front ++ run ++ seen back))
    {before rest : Text} (around : Around before rest) :
    assemble (before ++ (start ++ front ++ run' ++ back) ++ rest) =
      assemble (before ++ (start ++ front ++ run ++ back) ++ rest) := by
  have ends := ends_of_around around
  have noNewline : '\n' ∉ start ++ front ++ run' ++ back := by
    have whole := spaced.oneLine
    simp only [List.mem_append, not_or] at whole ⊢
    exact ⟨⟨whole.1.1, oneLine⟩, whole.2⟩
  rw [assemble_around around noNewline short, assemble_around around spaced.oneLine spaced.short]
  obtain ⟨label, items⟩ := spaced.item
  apply assembleLines_alike
  · intro asm asm' _
    rw [firstPassLine_eq, firstPassLine_eq, spaced.read_eq gap ends,
      spaced.read_eq spaced.gap ends]
    simp only [firstPassRead, (items run' gap).2, (items run spaced.gap).2, alike.first]
  · intro asm st st'
    rw [spaced.second_eq gap ends, spaced.second_eq spaced.gap ends]
    split
    · exact alike.second asm.labels st st'
    · exact Iff.rfl

end Items

end RiscvPack.Asm
