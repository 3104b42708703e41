import RiscvPack.Assembler.Dispatch

/-!
# Strings

Escaping a string and reading it back is exact.  But both passes look at the
line before they look at the string: `.globl` makes them skip it, a `#` ends it
and a colon makes a label of what stands before.  The strings without the three
are reserved and written exactly, wherever their line stands.
-/

namespace RiscvPack.Asm

open CString Runs Files
open SourceLine (read)

section Escapes

/-- A character of a string as it is written in the source. -/
def escapeChar (c : Char) : Text :=
  if c = '\n' then ['\\', 'n']
  else if c = '\t' then ['\\', 't']
  else if c = '\r' then ['\\', 'r']
  else if c = '\\' then ['\\', '\\']
  else if c = '"' then ['\\', '"']
  else [c]

def escape (b : Text) : Text := b.flatMap escapeChar

/-- The bytes of a string. -/
def stringBytes (b : Text) : List Byte := b.map fun c => BitVec.ofNat 8 c.toNat

theorem escape_cons (c : Char) (b : Text) : escape (c :: b) = escapeChar c ++ escape b :=
  rfl

theorem escape_append (b b' : Text) : escape (b ++ b') = escape b ++ escape b' :=
  List.flatMap_append

/-- A character is escaped with its letter or stands for itself. -/
theorem escapeChar_cases (c : Char) :
    (∃ e, (e, c) ∈ [('n', '\n'), ('t', '\t'), ('r', '\r'), ('\\', '\\'), ('"', '"')] ∧
      escapeChar c = ['\\', e]) ∨ c ≠ '\\' ∧ c ≠ '"' ∧ escapeChar c = [c] := by
  unfold escapeChar
  split_ifs with newline tab ret slash quote
  · exact .inl ⟨'n', by simp [newline], rfl⟩
  · exact .inl ⟨'t', by simp [tab], rfl⟩
  · exact .inl ⟨'r', by simp [ret], rfl⟩
  · exact .inl ⟨'\\', by simp [slash], rfl⟩
  · exact .inl ⟨'"', by simp [quote], rfl⟩
  · exact .inr ⟨slash, quote, rfl⟩

theorem parseEscapedString_escape (b rest : Text) :
    parseEscapedString (escape b ++ rest) =
      (parseEscapedString rest).map (stringBytes b ++ ·) := by
  induction b with
  | nil =>
      cases parsed : parseEscapedString rest with
      | error reason => exact parsed
      | ok bytes => exact parsed
  | cons c b induction =>
      have one : parseEscapedString (escape (c :: b) ++ rest) =
          (parseEscapedString (escape b ++ rest)).map (BitVec.ofNat 8 c.toNat :: ·) := by
        rw [escape_cons, List.append_assoc]
        rcases escapeChar_cases c with ⟨e, known, text⟩ | ⟨noSlash, noQuote, text⟩
        · rw [text]
          exact parseEscapedString_escaped known _
        · rw [text]
          exact parseEscapedString_plain noSlash noQuote _
      rw [one, induction]
      cases parseEscapedString rest <;> rfl

/-- The characters that escaping neither changes nor adds. -/
def plainChar (c : Char) : Bool := c ∉ ['\n', '\t', '\r', '\\', '"', 'n', 't', 'r']

theorem mem_escapeChar {c : Char} (plain : plainChar c) (d : Char) :
    c ∈ escapeChar d ↔ c = d := by
  rcases escapeChar_cases d with ⟨e, known, text⟩ | ⟨_, _, text⟩
  · have noSlash : c ≠ '\\' := by
      rintro rfl
      exact absurd plain (by decide)
    simp only [List.mem_cons, Prod.mk.injEq, List.not_mem_nil, or_false] at known
    rw [text, List.mem_pair, or_iff_right noSlash]
    rcases known with ⟨rfl, rfl⟩ | ⟨rfl, rfl⟩ | ⟨rfl, rfl⟩ | ⟨rfl, rfl⟩ | ⟨rfl, rfl⟩ <;>
    · constructor <;>
      · rintro rfl
        exact absurd plain (by decide)
  · rw [text, List.mem_singleton]

theorem mem_escape {c : Char} (plain : plainChar c) (b : Text) :
    c ∈ escape b ↔ c ∈ b := by
  unfold escape
  simp only [List.mem_flatMap, mem_escapeChar plain, exists_eq_right']

theorem escapeChar_of_plain {c : Char} (plain : plainChar c) : escapeChar c = [c] := by
  simp only [plainChar, List.mem_cons, List.not_mem_nil, or_false, not_or,
    decide_eq_true_eq] at plain
  simp [escapeChar, plain]

theorem escape_of_plain {w : Text} (plain : ∀ c ∈ w, plainChar c) : escape w = w := by
  induction w with
  | nil => rfl
  | cons c w induction =>
      rw [List.forall_mem_cons] at plain
      rw [escape_cons, escapeChar_of_plain plain.1, induction plain.2]
      rfl

theorem prefix_of_prefix_escape {w b : Text} (plain : ∀ c ∈ w, plainChar c)
    (front : w <+: escape b) : w <+: b := by
  induction b generalizing w with
  | nil => exact front
  | cons d b induction =>
      cases w with
      | nil => exact List.nil_prefix
      | cons x w =>
          rw [List.forall_mem_cons] at plain
          rw [escape_cons] at front
          rcases escapeChar_cases d with ⟨e, _, text⟩ | ⟨_, _, text⟩
          · rw [text, List.cons_append, List.cons_prefix_cons] at front
            rw [front.1] at plain
            exact absurd plain.1 (by decide)
          · rw [text, List.singleton_append, List.cons_prefix_cons] at front
            rw [List.cons_prefix_cons]
            exact ⟨front.1, induction plain.2 front.2⟩

theorem infix_escape_iff {w b : Text} (plain : ∀ c ∈ w, plainChar c)
    (nonempty : w ≠ []) : w <:+: escape b ↔ w <:+: b := by
  obtain ⟨x, others, rfl⟩ := List.exists_cons_of_ne_nil nonempty
  constructor
  · intro inside
    induction b with
    | nil => exact inside
    | cons d b induction =>
        rcases escapeChar_cases d with ⟨e, known, text⟩ | ⟨_, _, text⟩
        · have letter : plainChar e = false := by
            simp only [List.mem_cons, Prod.mk.injEq, List.not_mem_nil, or_false] at known
            rcases known with ⟨rfl, _⟩ | ⟨rfl, _⟩ | ⟨rfl, _⟩ | ⟨rfl, _⟩ | ⟨rfl, _⟩ <;> rfl
          rw [escape_cons, text, List.cons_append, List.cons_append, List.nil_append,
            List.infix_cons_iff, List.infix_cons_iff] at inside
          rw [List.forall_mem_cons] at plain
          rcases inside with front | front | behind
          · rw [(List.cons_prefix_cons.mp front).1] at plain
            exact absurd plain.1 (by decide)
          · rw [(List.cons_prefix_cons.mp front).1, letter] at plain
            exact absurd plain.1 (by decide)
          · exact List.infix_cons (induction behind)
        · rw [escape_cons, text, List.singleton_append, List.infix_cons_iff] at inside
          rw [List.infix_cons_iff]
          rcases inside with front | behind
          · left
            apply prefix_of_prefix_escape plain
            rwa [escape_cons, text]
          · exact .inr (induction behind)
  · rintro ⟨front, back, rfl⟩
    refine ⟨escape front, escape back, ?_⟩
    rw [escape_append, escape_append, escape_of_plain plain]

/-- White space at the end of an escaped string is white space of the string. -/
theorem rdropWhile_escape (b : Text) :
    ∃ b', (escape b).rdropWhile isspace = escape b' ∧ b' <+: b := by
  induction b using List.reverseRecOn with
  | nil => exact ⟨[], rfl, List.prefix_refl _⟩
  | append_singleton b c induction =>
      have whole : escape (b ++ [c]) = escape b ++ escapeChar c := by
        rw [escape_append, escape_cons]
        exact congrArg _ (List.append_nil _)
      rcases escapeChar_cases c with ⟨e, known, text⟩ | ⟨_, _, text⟩
      · refine ⟨b ++ [c], rdropWhile_of_last ?_, List.prefix_refl _⟩
        intro d last
        rw [whole, text, List.getLast?_append] at last
        cases last
        simp only [List.mem_cons, Prod.mk.injEq, List.not_mem_nil, or_false] at known
        rcases known with ⟨rfl, _⟩ | ⟨rfl, _⟩ | ⟨rfl, _⟩ | ⟨rfl, _⟩ | ⟨rfl, _⟩ <;> rfl
      · rw [whole, text, List.rdropWhile_concat]
        split
        · obtain ⟨b', dropped, front⟩ := induction
          exact ⟨b', dropped, front.trans (List.prefix_append _ _)⟩
        · exact ⟨b ++ [c], by rw [whole, text], List.prefix_refl _⟩

end Escapes

inductive StringDirective where
  | ascii | asciiz
  deriving DecidableEq, Repr

namespace StringDirective

def name : StringDirective → Text
  | ascii => ".ascii".toList
  | asciiz => ".asciiz".toList

def terminator : StringDirective → List Byte
  | ascii => []
  | asciiz => [0]

/-- What the directive asks for. -/
def bytes (d : StringDirective) (b : Text) : List Byte := stringBytes b ++ d.terminator

def opening (d : StringDirective) : Text := d.name ++ [' ', '"']

/-- The directive and its string in quotes. -/
def text (d : StringDirective) (b : Text) : Text := d.opening ++ (escape b ++ ['"'])

variable {d : StringDirective} {asm asm' : Assembler} {labels : List Label} {st : Pass2}
  {s b line : Text}

section Reading

theorem strchr_opening (d : StringDirective) (string : Text) :
    strchr '"' (d.opening ++ string) = some (d.name ++ [' '], string) := by
  have absent : '"' ∉ d.name ++ [' '] := by
    cases d <;> decide
  have whole : d.opening ++ string = (d.name ++ [' ']) ++ '"' :: string := by
    simp [opening]
  rw [whole]
  exact strchr_append absent string

theorem processDirective_string {string : Text} {bytes : List Byte}
    (text : trim s = d.opening ++ string) (parsed : parseEscapedString string = .ok bytes) :
    processDirective asm s =
      .ok (growData asm (BitVec.ofNat 32 (bytes ++ d.terminator).length)) := by
  have quote := d.strchr_opening string
  unfold processDirective
  rw [text]
  cases d with
  | ascii =>
      have noZero : ¬ ".asciiz".toList.isPrefixOf (ascii.opening ++ string) := by
        exact Bool.false_ne_true
      have starts : ".ascii".toList.isPrefixOf (ascii.opening ++ string) := rfl
      simp only [if_neg noZero, if_pos starts, quote, parsed]
      rw [terminator, List.append_nil]
      rfl
  | asciiz =>
      have starts : ".asciiz".toList.isPrefixOf (asciiz.opening ++ string) := rfl
      simp only [if_pos starts, quote, parsed]
      rw [terminator, List.length_append]
      rfl

theorem processDataDirective_string {string : Text} {bytes : List Byte}
    (text : trim s = d.opening ++ string) (parsed : parseEscapedString string = .ok bytes) :
    processDataDirective labels st s = .done (st.emit (bytes ++ d.terminator)) := by
  have quote := d.strchr_opening string
  unfold processDataDirective
  rw [text]
  cases d with
  | ascii =>
      have noZero : ¬ ".asciiz".toList.isPrefixOf (ascii.opening ++ string) := by
        exact Bool.false_ne_true
      have starts : ".ascii".toList.isPrefixOf (ascii.opening ++ string) := rfl
      simp only [if_neg noZero, if_pos starts, quote, parsed]
      rw [terminator, List.append_nil]
  | asciiz =>
      have starts : ".asciiz".toList.isPrefixOf (asciiz.opening ++ string) := rfl
      simp only [if_pos starts, quote, parsed]
      rw [terminator, Pass2.emit_append]

theorem parse_quoted (b : Text) : parseEscapedString (escape b ++ ['"']) = .ok (stringBytes b) := by
  rw [parseEscapedString_escape]
  exact congrArg Except.ok (List.append_nil _)

theorem parse_unquoted (b : Text) : parseEscapedString (escape b) = .ok (stringBytes b) := by
  have parsed := parseEscapedString_escape b []
  rw [List.append_nil] at parsed
  rw [parsed]
  exact congrArg Except.ok (List.append_nil _)

theorem mem_text_iff {c : Char} (plain : plainChar c) (noOpening : c ∉ d.opening) :
    c ∈ d.text b ↔ c ∈ b := by
  have noQuote : c ≠ '"' := by
    rintro rfl
    exact absurd plain (by decide)
  rw [text, List.mem_append, List.mem_append, mem_escape plain, List.mem_singleton,
    or_iff_left noQuote, or_iff_right noOpening]

theorem globl_operand_iff : ".globl".toList <:+: [' ', '"'] ++ (escape b ++ ['"']) ↔
    ".globl".toList <:+: b := by
  have plain : ∀ c ∈ ".globl".toList, plainChar c := by
    decide
  constructor
  · intro inside
    have behind : ".globl".toList <:+: escape b ++ ['"'] :=
      infix_behind (by decide) inside
    rw [List.infix_concat_iff] at behind
    rcases behind with ⟨front, same⟩ | inString
    · have last := congrArg List.getLast? same
      rw [List.getLast?_append, List.getLast?_append] at last
      cases last
    · exact (infix_escape_iff plain (by decide)).mp inString
  · intro inside
    have escaped := (infix_escape_iff plain (by decide)).mpr inside
    exact escaped.trans ⟨[' ', '"'], ['"'], by simp⟩

theorem read_text (text : trim line = d.text b) :
    read line = if ".globl".toList <:+: b then .skipped
      else .content (stripComment (d.text b)) := by
  have known : d.name ∈ directiveNames := by
    cases d <;> decide
  have whole : trim line = d.name ++ ([' ', '"'] ++ (escape b ++ ['"'])) := by
    rw [text]
    simp [StringDirective.text, opening]
  rw [read_directive known whole, text]
  simp only [globl_operand_iff]

/-- Behind `#` the string is gone, and white space before it. -/
theorem stripComment_text (d : StringDirective) (b : Text) :
    '#' ∉ b ∧ stripComment (d.text b) = d.text b ∨
      ∃ b', b'.length < b.length ∧ stripComment (d.text b) = d.opening ++ escape b' := by
  have noOpening : '#' ∉ d.opening := by
    cases d <;> decide
  by_cases hash : '#' ∈ b
  · right
    obtain ⟨front, back, rfl, absent⟩ := List.eq_append_cons_of_mem hash
    obtain ⟨b', dropped, start⟩ := rdropWhile_escape front
    refine ⟨b', ?_, ?_⟩
    · have shorter := start.length_le
      rw [List.length_append, List.length_cons]
      omega
    · have before : '#' ∉ d.opening ++ escape front := by
        rw [List.mem_append, mem_escape (by decide)]
        exact not_or.mpr ⟨noOpening, absent⟩
      have split : d.text (front ++ '#' :: back) =
          (d.opening ++ escape front) ++ '#' :: (escape back ++ ['"']) := by
        rw [text, escape_append, escape_cons, escapeChar_of_plain (by decide)]
        simp
      have trimmed : trim (d.opening ++ escape front) = d.opening ++ escape b' := by
        have quote : d.opening ++ escape front = (d.name ++ [' ']) ++ '"' :: escape front := by
          simp [opening]
        rw [quote, trim_append_cons (by decide), dropped]
        cases d <;> rfl
      rw [stripComment, split, strchr_append before]
      exact trimmed
  · left
    have absent : '#' ∉ d.text b := by
      rwa [mem_text_iff (by decide) noOpening]
    refine ⟨hash, ?_⟩
    rw [stripComment, strchr_eq_none absent]

end Reading

section Exact

/-- Lines behind which the first pass stands in `.data`. -/
structure InData (front : List Text) (asm : Assembler) : Prop where
  short : ∀ line ∈ front, line.length < maxLine
  ran : run firstPassLine Assembler.init front = .done asm
  current : asm.currentSectionName = dataName

/-- Wherever the line stands in `.data`, the first pass reserves as many bytes
as the directive asks for and the second pass writes these bytes. -/
structure Exact (d : StringDirective) (b line : Text) : Prop where
  reserved : ∀ front asm, InData front asm → ∃ asm', firstPassLine asm line = .done asm' ∧
    asm'.getCurrentSection.offset =
      asm.getCurrentSection.offset + BitVec.ofNat 32 (d.bytes b).length
  written : ∀ (asm : Assembler) (st : Pass2),
    (asm.sections.find? st.currentSectionName).map (·.type) = some .data →
      secondPassLine asm st line = .done (st.emit (d.bytes b))

/-- Nothing in the string changes what the line is. -/
structure Unmarked (b : Text) : Prop where
  noHash : '#' ∉ b
  noColon : ':' ∉ b
  noGlobl : ¬ ".globl".toList <:+: b

theorem secondPassLine_string {content : Text} (dataSection :
      (asm.sections.find? st.currentSectionName).map (·.type) = some .data)
    (read : read line = .content content) (noColon : ':' ∉ content) {string : Text}
    (text : content = d.opening ++ string) (trimmed : Trimmed content) {bytes : List Byte}
    (parsed : parseEscapedString string = .ok bytes) :
    secondPassLine asm st line = .done (st.emit (bytes ++ d.terminator)) := by
  have directive : content.head? = some '.' := by
    rw [text]
    cases d <;> rfl
  have data : SectionType.data ≠ .text := by
    decide
  have again : trim content = d.opening ++ string := by
    rw [trim_of_trimmed trimmed, text]
  rw [secondPassLine_eq, read, secondPassRead, secondPassContent_eq, contentItem,
    strchr_eq_none noColon]
  simp only [secondPassItem, dataSection, Option.getD_some]
  rw [if_pos directive, if_pos data]
  exact processDataDirective_string again parsed

theorem exact_of_unmarked (unmarked : Unmarked b) (text : trim line = d.text b) :
    d.Exact b line := by
  have noOpening {c : Char} (special : c = '#' ∨ c = ':') : c ∉ d.opening := by
    rcases special with rfl | rfl <;> cases d <;> decide
  have noHash : '#' ∉ d.text b := by
    rw [mem_text_iff (by decide) (noOpening (.inl rfl))]
    exact unmarked.noHash
  have noColon : ':' ∉ d.text b := by
    rw [mem_text_iff (by decide) (noOpening (.inr rfl))]
    exact unmarked.noColon
  have content : read line = .content (d.text b) := by
    rw [read_text text, if_neg unmarked.noGlobl, stripComment, strchr_eq_none noHash]
  have trimmed : Trimmed (d.text b) := by
    rw [← text]
    exact trimmed_trim line
  constructor
  · intro front asm _
    have directive : (d.text b).head? = some '.' := by
      cases d <;> rfl
    have again : trim (d.text b) = d.opening ++ (escape b ++ ['"']) :=
      trim_of_trimmed trimmed
    refine ⟨_, ?_, getCurrentSection_growData _ _⟩
    rw [firstPassLine_eq, content]
    simp only [firstPassRead, firstPassContent, strchr_eq_none noColon, if_pos directive,
      processDirective_string again (parse_quoted b)]
    rfl
  · intro asm st dataSection
    exact secondPassLine_string dataSection content noColon rfl trimmed (parse_quoted b)

/-- A line that defines a label is refused behind itself. -/
theorem noColon_of_reserved {content : Text} (short : line.length < maxLine)
    (read : read line = .content content) (directive : content.head? = some '.')
    (reserved : ∀ front asm, InData front asm → ∃ asm', firstPassLine asm line = .done asm') :
    ':' ∉ content := by
  intro colon
  cases found : strchr ':' content with
  | none => exact not_mem_of_strchr_eq_none found colon
  | some split =>
      obtain ⟨before, after⟩ := split
      have whole := (eq_append_of_strchr found).1
      have named : skipSpaces before ≠ [] := by
        rw [whole] at directive
        cases before with
        | nil => cases directive
        | cons c before =>
            cases directive
            exact List.cons_ne_nil _ _
      have opened : InData [".data\n".toList] (Assembler.init.switchSection dataName) :=
        ⟨by decide, by decide +kernel, rfl⟩
      obtain ⟨once, first⟩ := reserved _ _ opened
      obtain ⟨labelled, label, labels, current⟩ := firstPassContent_label found
        (processed_of_content read first)
      have recorded := processLabel_eq label
      rw [if_neg named] at recorded
      have again : InData [".data\n".toList, line] once := by
        refine ⟨?_, ?_, ?_⟩
        · intro other member
          rcases List.mem_cons.mp member with rfl | later
          · decide
          · rwa [List.mem_singleton.mp later]
        · exact run_cons_eq_done.mpr ⟨_, opened.ran, run_cons_eq_done.mpr ⟨_, first, rfl⟩⟩
        · rw [current, recorded]
          rfl
      obtain ⟨twice, second⟩ := reserved _ _ again
      obtain ⟨relabelled, duplicate, _⟩ := firstPassContent_label found
        (processed_of_content read second)
      have defined : once.labels.any (·.name = trim ((skipSpaces before).take 63)) := by
        rw [labels, recorded]
        simp [withLabel, addLabel]
      unfold processLabel at duplicate
      simp only [if_neg named, if_pos defined] at duplicate
      cases duplicate

theorem unmarked_of_exact (short : line.length < maxLine) (text : trim line = d.text b)
    (exact : d.Exact b line) : Unmarked b := by
  let st : Pass2 := { Pass2.init with currentSectionName := dataName }
  have dataSection : (Assembler.init.sections.find? st.currentSectionName).map (·.type) =
      some .data := by
    decide
  have written := exact.written Assembler.init st dataSection
  have noGlobl : ¬ ".globl".toList <:+: b := by
    intro inside
    rw [secondPassLine_eq, read_text text, if_pos inside] at written
    have none : st.emit [] = st.emit (d.bytes b) := by
      rw [Pass2.emit_nil]
      exact Outcome.done.inj written
    have empty := Pass2.emit_inj.mp none
    have noBytes : b = [] := by
      cases b with
      | nil => rfl
      | cons c b => cases empty
    rw [noBytes] at inside
    exact absurd inside (by decide)
  have content : read line = .content (stripComment (d.text b)) := by
    rw [read_text text, if_neg noGlobl]
  have trimmed := (stripped_content short content).trimmed
  have directive : (stripComment (d.text b)).head? = some '.' := by
    rcases d.stripComment_text b with ⟨_, whole⟩ | ⟨b', _, whole⟩
    · rw [whole]
      cases d <;> rfl
    · rw [whole]
      cases d <;> rfl
  have noColon := noColon_of_reserved short content directive fun front asm inData => by
    obtain ⟨asm', done, _⟩ := exact.reserved front asm inData
    exact ⟨asm', done⟩
  rcases d.stripComment_text b with ⟨noHash, whole⟩ | ⟨b', shorter, whole⟩
  · rw [whole, mem_text_iff (by decide) (by cases d <;> decide)] at noColon
    exact ⟨noHash, noColon, noGlobl⟩
  · have truncated := secondPassLine_string dataSection content noColon whole trimmed
      (parse_unquoted b')
    rw [truncated] at written
    have same := congrArg List.length (Pass2.emit_inj.mp (Outcome.done.inj written))
    simp only [bytes, stringBytes, List.length_append, List.length_map] at same
    omega

/-- A string is reserved and written exactly, wherever its line stands in
`.data`, when it contains no `#`, no colon and no `.globl`. -/
theorem exact_iff_unmarked (d : StringDirective) {b line : Text}
    (short : line.length < maxLine) (text : trim line = d.text b) :
    d.Exact b line ↔ Unmarked b :=
  ⟨unmarked_of_exact short text, fun unmarked => exact_of_unmarked unmarked text⟩

/-- A string with escapes and a quote. -/
theorem exact_iff_unmarked_escapes :
    asciiz.Exact "a\t\"b\"\n".toList "  .asciiz \"a\\t\\\"b\\\"\\n\"\n".toList ↔
      Unmarked "a\t\"b\"\n".toList :=
  exact_iff_unmarked asciiz (by decide) (by decide)

/-- The string `a#b` is cut off before its comment. -/
theorem not_exact_hash :
    let line : Text := ".ascii \"a#b\"\n".toList
    let st : Pass2 := { Pass2.init with currentSectionName := dataName }
    trim line = ascii.text "a#b".toList ∧
      secondPassLine Assembler.init st line = .done (st.emit (stringBytes ['a'])) ∧
      ¬ ascii.Exact "a#b".toList line := by
  intro line st
  refine ⟨by decide, by decide +kernel, ?_⟩
  intro exact
  have written := exact.written Assembler.init st (by decide)
  have cut : secondPassLine Assembler.init st line =
      .done (st.emit (stringBytes ['a'])) := by
    decide +kernel
  rw [cut] at written
  have same := Pass2.emit_inj.mp (Outcome.done.inj written)
  exact absurd same (by decide)

end Exact

end StringDirective

end RiscvPack.Asm
