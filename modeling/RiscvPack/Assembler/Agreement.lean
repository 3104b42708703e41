import RiscvPack.Assembler.LockStep

/-!
# The two passes agree

A source with one block of text and one block of data.  Labels mean the places
at which the second pass meets them, and the output is text and data, each
byte written once.
-/

namespace RiscvPack.Asm

open CString Runs Files
open SourceLine (read)

section Shape

def HasContent (line : Text) : Prop := ∃ s, read line = .content s

/-- A source of one block of text and one block of data, in either order: no
two lines with content in one section have a section line between them. -/
structure TextAndData (lines : List Text) : Prop where
  sections : ∀ line ∈ lines, ∀ name, (read line).entered = some name →
    name = textName ∨ name = dataName
  oneBlock : ∀ front line mid line' rest,
    lines = front ++ line :: (mid ++ line' :: rest) →
    HasContent line → HasContent line' →
    Place.sectionAfter front = Place.sectionAfter (front ++ line :: mid) →
    ∀ l ∈ mid, (read l).entered = none
  text : ∀ front line rest, lines = front ++ line :: rest →
    Place.sectionAfter front = textName → TextLine line
  data : ∀ front line rest, lines = front ++ line :: rest →
    Place.sectionAfter front = dataName → DataLine line

variable {labels : List Label} {lines : List Text}

theorem hasContent_of_lineSize {name line : Text} (size : lineSize labels name line ≠ 0) :
    HasContent line := by
  unfold lineSize at size
  split at size
  · rename_i s content
    exact ⟨s, content⟩
  · exact absurd rfl size

theorem not_entered_of_content {line : Text} (content : HasContent line) :
    (read line).entered = none := by
  obtain ⟨s, content⟩ := content
  rw [content]
  rfl

namespace TextAndData

variable (shape : TextAndData lines)

include shape

theorem sectionAfter_cases {front rest : List Text} (split : lines = front ++ rest) :
    Place.sectionAfter front = textName ∨ Place.sectionAfter front = dataName := by
  induction front using List.reverseRecOn generalizing rest with
  | nil => exact .inl rfl
  | append_singleton front line induction =>
      rw [List.append_assoc] at split
      cases enters : (read line).entered with
      | some name =>
          rw [Place.sectionAfter_entered enters]
          exact shape.sections line (by rw [split]; simp) name enters
      | none =>
          rw [Place.sectionAfter_stays enters]
          exact induction split

theorem suits {front rest : List Text} {line : Text}
    (split : lines = front ++ line :: rest) :
    Suits (Place.sectionAfter front) line := by
  rcases shape.sectionAfter_cases split with text | data
  · exact .inl ⟨text, shape.text front line rest split text⟩
  · exact .inr ⟨data, shape.data front line rest split data⟩

/-- At a line with content, all bytes of its section are in its block. -/
theorem written_eq (labels : List Label) {front rest : List Text} {line : Text}
    (split : lines = front ++ line :: rest) (content : HasContent line) :
    (Place.start.after labels front).written =
      Place.bytesInto labels (Place.sectionAfter front) Place.start front := by
  rcases Place.exists_last_entry front with
    all | ⟨before, entry, since, name, whole, enters, stays⟩
  · have current : Place.sectionAfter front = Place.start.name := by
      rw [← Place.name_after labels, Place.after_stays all]
    rw [current, Place.bytesInto_stays labels all, Place.after_stays all]
    exact Nat.zero_add _
  · have current : Place.sectionAfter front = name := by
      rw [whole, Place.sectionAfter_block enters stays]
    have earlier : Place.bytesInto labels name Place.start before = 0 := by
      by_contra some
      obtain ⟨a, l, b, splitBefore, here, _, size⟩ := Place.exists_first some
      have together := shape.oneBlock a l (b ++ entry :: since) line rest
        (by rw [split, whole, splitBefore]; simp) (hasContent_of_lineSize size) content
        (by rw [here, ← current, whole, splitBefore]; simp)
      rw [together entry (by simp)] at enters
      cases enters
    rw [current, whole, Place.after_block labels enters stays,
      Place.bytesInto_block labels enters stays, earlier, Nat.zero_add]

end TextAndData

private theorem place_in_blocks {α : Type} {text data front rest : List α} {entry line : α}
    (split : text ++ entry :: data = front ++ line :: rest) :
    (∃ back, text = front ++ line :: back ∧ rest = back ++ entry :: data) ∨
      (front = text ∧ line = entry ∧ rest = data) ∨
      ∃ mid, front = text ++ entry :: mid ∧ data = mid ++ line :: rest := by
  rcases List.append_eq_append_iff.mp split with ⟨c, rfl, later⟩ | ⟨c, rfl, later⟩
  · cases c with
    | nil =>
        cases later
        exact .inr (.inl ⟨by simp, rfl, rfl⟩)
    | cons first mid =>
        rw [List.cons_append, List.cons.injEq] at later
        obtain ⟨rfl, later⟩ := later
        exact .inr (.inr ⟨mid, rfl, later⟩)
  · cases c with
    | nil =>
        cases later
        exact .inr (.inl ⟨by simp, rfl, rfl⟩)
    | cons first back =>
        rw [List.cons_append, List.cons.injEq] at later
        obtain ⟨rfl, later⟩ := later
        exact .inl ⟨back, rfl, later⟩

/-- Text before a `.data` line and data behind it. -/
theorem textAndData_of_blocks {text data : List Text} {entry : Text}
    (enters : (read entry).entered = some dataName)
    (staysText : ∀ l ∈ text, (read l).entered = none)
    (staysData : ∀ l ∈ data, (read l).entered = none)
    (textLines : ∀ l ∈ text, TextLine l) (dataLines : ∀ l ∈ data, DataLine l) :
    TextAndData (text ++ entry :: data) := by
  have before {front back : List Text} (split : text = front ++ back) :
      Place.sectionAfter front = textName := by
    rw [← Place.name_after [], Place.after_stays]
    · rfl
    · intro l member
      exact staysText l (by rw [split]; exact List.mem_append_left _ member)
  have behind {front back : List Text} (split : data = front ++ back) :
      Place.sectionAfter (text ++ entry :: front) = dataName := by
    rw [← Place.name_after [], Place.after_append, Place.after_cons,
      Place.next_entered enters, Place.after_stays]
    intro l member
    exact staysData l (by rw [split]; exact List.mem_append_left _ member)
  constructor
  · intro line member name entered
    rcases List.mem_append.mp member with inText | inRest
    · rw [staysText line inText] at entered
      cases entered
    · rcases List.mem_cons.mp inRest with rfl | inData
      · rw [enters] at entered
        exact .inr (Option.some.inj entered).symm
      · rw [staysData line inData] at entered
        cases entered
  · intro front line mid line' rest split content content' same l member
    have split' : text ++ entry :: data = (front ++ line :: mid) ++ line' :: rest := by
      rw [split]
      simp
    rcases place_in_blocks split with ⟨back, inText, _⟩ | ⟨_, rfl, _⟩ | ⟨since, _, inData⟩
    · rcases place_in_blocks split' with ⟨back', inText', _⟩ | ⟨_, rfl, _⟩ | ⟨since, whole, inData⟩
      · exact staysText l (by rw [inText']; simp [member])
      · rw [not_entered_of_content content'] at enters
        cases enters
      · rw [before inText, whole, behind inData] at same
        exact absurd same (by decide)
    · rw [not_entered_of_content content] at enters
      cases enters
    · exact staysData l (by rw [inData]; simp [member])
  · intro front line rest split here
    rcases place_in_blocks split with ⟨back, inText, _⟩ | ⟨_, rfl, _⟩ | ⟨mid, whole, inData⟩
    · exact textLines line (by rw [inText]; simp)
    · intro s i content
      rw [content] at enters
      cases enters
    · rw [whole, behind inData] at here
      exact absurd here (by decide)
  · intro front line rest split here
    rcases place_in_blocks split with ⟨back, inText, _⟩ | ⟨_, rfl, _⟩ | ⟨mid, _, inData⟩
    · rw [before inText] at here
      exact absurd here (by decide)
    · intro s i content
      rw [content] at enters
      cases enters
    · exact dataLines line (by rw [inData]; simp)

end Shape

section Final

variable {asm : Assembler} {source : Text} {final : Pass2}

theorem lock_init (labels : List Label) : Lock labels [] Assembler.init where
  formed := wellFormed_init
  current := rfl
  offsets := by
    intro name
    rw [sectionOffset, Assembler.init]
    simp only [SortedMap.find?_insert]
    split_ifs <;> rfl
  pcText := rfl
  recorded := rfl

theorem Lock.sized {labels : List Label} {front : List Text} {finished : Assembler}
    (lock : Lock labels front finished) (textSize dataSize : Word) :
    Lock labels front { finished with textSize, dataSize } where
  formed := ⟨lock.formed.typed, lock.formed.standard, lock.formed.current,
    lock.formed.labels⟩
  current := lock.current
  offsets := lock.offsets
  pcText := lock.pcText
  recorded := lock.recorded

theorem lock_of_produced (produced : firstPass Assembler.init source = .done asm)
    (assembled : secondPass (placedTables asm) source = .done final)
    (shape : TextAndData (sourceLines source)) :
    Lock (placedTables asm).labels (sourceLines source) asm := by
  obtain ⟨text, entered⟩ := known_of_produced produced asm.pcText
  obtain ⟨finished, ran, result⟩ := Outcome.andThen_eq_done.mp produced
  have lock := (lock_init (placedTables asm).labels).run (At.start text) entered
    (fun before line rest split _ => shape.suits split)
    (fun line member => length_sourceLines member) ran assembled
  cases result
  exact lock.sized _ _

section Counts

variable (shape : TextAndData (sourceLines source))

include shape

theorem bytesOf_other {name : Text} (noText : name ≠ textName)
    (noData : name ≠ dataName) : bytesOf asm source name = 0 := by
  by_contra some
  obtain ⟨front, line, rest, split, here, _, _⟩ := Place.exists_first some
  rcases shape.sectionAfter_cases split with text | data
  · exact noText (here.symm.trans text)
  · exact noData (here.symm.trans data)

variable (produced : firstPass Assembler.init source = .done asm)

include produced

theorem length_writes {front rest : List Text} {st : Pass2}
    (split : sourceLines source = front ++ rest)
    (reached : run (secondPassLine (placedTables asm)) Pass2.init front = .done st) :
    st.out.writes.length =
      Place.bytesInto (placedTables asm).labels textName Place.start front +
        Place.bytesInto (placedTables asm).labels dataName Place.start front := by
  induction front using List.reverseRecOn generalizing rest st with
  | nil =>
      cases reached
      rfl
  | append_singleton front line induction =>
      obtain ⟨before, earlier, stepped⟩ := run_append_eq_done.mp reached
      obtain ⟨after, stepped, stop⟩ := run_cons_eq_done.mp stepped
      cases stop
      rw [List.append_assoc] at split
      have here := (at_of_reached produced split earlier).1
      have known := (known_of_produced produced asm.pcText).2 line (by rw [split]; simp)
      have count := (here.next known stepped).2
      rw [Place.name_after] at count
      rw [Place.bytesInto_snoc, Place.bytesInto_snoc, count, induction split earlier]
      have different : textName ≠ dataName := by decide
      rcases shape.sectionAfter_cases split with text | data
      · rw [text, if_pos rfl, if_neg different]
        omega
      · rw [data, if_neg different.symm, if_pos rfl]
        omega

variable (assembled : secondPass (placedTables asm) source = .done final)

include assembled

omit shape produced in
theorem reached_of_assembled {front rest : List Text}
    (split : sourceLines source = front ++ rest) :
    ∃ st, run (secondPassLine (placedTables asm)) Pass2.init front = .done st := by
  rw [secondPass, split] at assembled
  obtain ⟨st, reached, _⟩ := run_append_eq_done.mp assembled
  exact ⟨st, reached⟩

theorem length_final : final.out.writes.length =
    bytesOf asm source textName + bytesOf asm source dataName := by
  have whole : sourceLines source = sourceLines source ++ [] :=
    (List.append_nil _).symm
  exact length_writes shape produced whole assembled

theorem legacyDataPlaced : LegacyDataPlaced asm := by
  have lock := lock_of_produced produced assembled shape
  have rodata : sectionOffset asm rodataName = 0 := by
    rw [lock.offsets]
    exact congrArg (BitVec.ofNat 32)
      (bytesOf_other shape (by decide) (by decide) : bytesOf asm source rodataName = 0)
  rw [LegacyDataPlaced, rodata, lock.pcText]
  exact (BitVec.add_zero _).symm

/-- The address at which text or data is written. -/
def baseOf (asm : Assembler) (source name : Text) : Nat :=
  if name = dataName then bytesOf asm source textName else 0

theorem find?_baseOf {front rest : List Text} (split : sourceLines source = front ++ rest) :
    ∃ sec, (placedTables asm).sections.find? (Place.sectionAfter front) = some sec ∧
      sec.baseAddr = BitVec.ofNat 32 (baseOf asm source (Place.sectionAfter front)) := by
  have lock := lock_of_produced produced assembled shape
  have legacy := legacyDataPlaced shape produced assembled
  obtain ⟨t, d, foundText, baseText, foundData, baseData⟩ := find?_legacy produced
  rcases shape.sectionAfter_cases split with text | data
  · rw [text]
    exact ⟨t, foundText, baseText⟩
  · rw [data]
    refine ⟨d, foundData, ?_⟩
    rw [baseData, ← legacy, lock.pcText, lock.offsets]
    rfl

/-- Behind some lines the second pass stands behind the bytes that they put
into the section, when the line there has content. -/
theorem position_of_content {front rest : List Text} {line : Text} {st : Pass2}
    (split : sourceLines source = front ++ line :: rest) (content : HasContent line)
    (fits : final.out.writes.length < 2 ^ 32)
    (reached : run (secondPassLine (placedTables asm)) Pass2.init front = .done st) :
    st.out.pos = baseOf asm source (Place.sectionAfter front) +
        Place.bytesInto (placedTables asm).labels (Place.sectionAfter front)
          Place.start front ∧
      st.pc = BitVec.ofNat 32 st.out.pos ∧ st.out.pos < 2 ^ 32 := by
  have here := (at_of_reached produced split reached).1
  obtain ⟨sec, found, base⟩ := find?_baseOf shape produced assembled split
  have opened := (openingAddr_iff produced front (by
    have known := here.known
    rwa [Place.name_after] at known)).mpr
      fun _ => legacyDataPlaced shape produced assembled
  obtain ⟨sec', found', opening⟩ := opened
  rw [Option.mem_def, found] at found'
  cases found'
  have whole := length_final shape produced assembled
  have text : baseOf asm source (Place.sectionAfter front) ≤
      bytesOf asm source textName := by
    unfold baseOf
    split
    · exact le_refl _
    · exact Nat.zero_le _
  have inside : baseOf asm source (Place.sectionAfter front) +
      Place.bytesInto (placedTables asm).labels (Place.sectionAfter front)
        Place.start front ≤
      bytesOf asm source textName + bytesOf asm source dataName := by
    have part (name : Text) : Place.bytesInto (placedTables asm).labels name
        Place.start front ≤ bytesOf asm source name := by
      rw [bytesOf, split, Place.bytesInto_append]
      exact Nat.le_add_right _ _
    rcases shape.sectionAfter_cases split with name | name
    · have noBase : baseOf asm source textName = 0 := if_neg (by decide)
      have bound := part textName
      rw [name, noBase]
      omega
    · have bound := part dataName
      rw [name] at text ⊢
      omega
  have opening : openingAddr (placedTables asm) (Place.lastOpening front) =
      BitVec.ofNat 32 (baseOf asm source (Place.sectionAfter front)) :=
    opening.trans base
  have pos := here.pos
  have pc := here.pc
  rw [Place.opening_after, shape.written_eq _ split content, opening] at pos pc
  rw [BitVec.toNat_ofNat, Nat.mod_eq_of_lt (by omega)] at pos
  refine ⟨pos, ?_, by omega⟩
  rw [pc, pos, BitVec.ofNat_add]

/-- The positions written so far: the first bytes of text, and of data behind
all of text. -/
structure Filled (asm : Assembler) (source : Text) (front : List Text) (st : Pass2) :
    Prop where
  once : st.out.positions.Nodup
  covered : ∀ p, p ∈ st.out.positions ↔
    p < Place.bytesInto (placedTables asm).labels textName Place.start front ∨
      bytesOf asm source textName ≤ p ∧
        p < bytesOf asm source textName +
          Place.bytesInto (placedTables asm).labels dataName Place.start front

omit shape produced assembled in
private theorem Filled.step_entered {front : List Text} {line name : Text} {st st' : Pass2}
    (enters : (read line).entered = some name) (filled : Filled asm source front st)
    (stepped : secondPassLine (placedTables asm) st line = .done st') :
    Filled asm source (front ++ [line]) st' := by
  have same : st'.out.positions = st.out.positions := by
    unfold OutFile.positions
    rw [writes_of_entered enters stepped]
  constructor
  · rw [same]
    exact filled.once
  · rw [same, Place.bytesInto_entered enters, Place.bytesInto_entered enters]
    exact filled.covered

theorem Filled.step {front rest : List Text} {line : Text} {st st' : Pass2}
    (split : sourceLines source = front ++ line :: rest)
    (fits : final.out.writes.length < 2 ^ 32)
    (reached : run (secondPassLine (placedTables asm)) Pass2.init front = .done st)
    (filled : Filled asm source front st)
    (stepped : secondPassLine (placedTables asm) st line = .done st') :
    Filled asm source (front ++ [line]) st' := by
  have here := (at_of_reached produced split reached).1
  cases enters : (read line).entered with
  | some name => exact filled.step_entered enters stepped
  | none =>
      obtain ⟨sec, found, typed⟩ := here.known
      rw [← here.name] at found typed
      obtain ⟨bytes, length, rfl⟩ := emitted_line found typed enters stepped
      rw [here.name, Place.name_after] at length
      have position : bytes.length ≠ 0 → st.out.pos =
          baseOf asm source (Place.sectionAfter front) +
            Place.bytesInto (placedTables asm).labels (Place.sectionAfter front)
              Place.start front := by
        intro some
        exact (position_of_content shape produced assembled split
          (hasContent_of_lineSize (length ▸ some)) fits reached).1
      have room : Place.bytesInto (placedTables asm).labels textName Place.start
          (front ++ [line]) ≤ bytesOf asm source textName := by
        rw [bytesOf, split, List.append_cons front line rest,
          Place.bytesInto_append textName (front ++ [line]) rest]
        exact Nat.le_add_right _ _
      have positions : (st.emit bytes).out.positions =
          st.out.positions ++ List.range' st.out.pos bytes.length :=
        OutFile.fwrite_positions _ _
      have texts := Place.bytesInto_snoc (placedTables asm).labels front line textName
      have datas := Place.bytesInto_snoc (placedTables asm).labels front line dataName
      have covered := filled.covered
      have distinct : textName ≠ dataName := by decide
      -- The bytes of the line go right behind those of its section.
      have block : ∀ p, p ∈ List.range' st.out.pos bytes.length →
          p ∉ st.out.positions := by
        intro p inside
        rw [List.mem_range'_1] at inside
        have start := position (by omega)
        rw [covered]
        rcases shape.sectionAfter_cases split with name | name
        · have noBase : baseOf asm source textName = 0 := if_neg distinct
          rw [name, noBase] at start
          rw [name, if_pos rfl, ← name, ← length, name] at texts
          omega
        · have base : baseOf asm source dataName = bytesOf asm source textName :=
            if_pos rfl
          rw [name, base] at start
          rw [name, if_neg distinct.symm] at texts
          omega
      constructor
      · rw [positions, List.nodup_append']
        exact ⟨filled.once, List.nodup_range', fun p old new => block p new old⟩
      · intro p
        rw [positions, List.mem_append, covered, List.mem_range'_1, texts, datas]
        rcases shape.sectionAfter_cases split with name | name
        · have noBase : baseOf asm source textName = 0 := if_neg distinct
          rw [name] at length
          rw [name, noBase] at position
          rw [name, if_pos rfl, if_neg distinct, ← length]
          omega
        · have base : baseOf asm source dataName = bytesOf asm source textName :=
            if_pos rfl
          rw [name] at length
          rw [name, base] at position
          rw [name, if_neg distinct.symm, if_pos rfl, ← length]
          omega

theorem filled_of_reached {front rest : List Text} {st : Pass2}
    (split : sourceLines source = front ++ rest)
    (fits : final.out.writes.length < 2 ^ 32)
    (reached : run (secondPassLine (placedTables asm)) Pass2.init front = .done st) :
    Filled asm source front st := by
  induction front using List.reverseRecOn generalizing rest st with
  | nil =>
      cases reached
      exact ⟨List.nodup_nil, fun p => by simp [Pass2.init, Place.bytesInto,
        OutFile.positions, OutFile.empty]⟩
  | append_singleton front line induction =>
      obtain ⟨before, earlier, stepped⟩ := run_append_eq_done.mp reached
      obtain ⟨after, stepped, stop⟩ := run_cons_eq_done.mp stepped
      cases stop
      rw [List.append_assoc] at split
      exact Filled.step shape produced assembled split fits earlier
        (induction split earlier) stepped

/-- The size of the sections of some types, when one name alone has bytes. -/
theorem sizeOf_single {types : List SectionType} {name : Text}
    (known : (asm.sections.find? name).isSome) (member : getSectionType name ∈ types)
    (others : ∀ key, key ≠ name → getSectionType key ∈ types →
      bytesOf asm source key = 0) :
    sizeOf asm.sections types = BitVec.ofNat 32 (bytesOf asm source name) := by
  have lock := lock_of_produced produced assembled shape
  obtain ⟨sec, found⟩ := Option.isSome_iff_exists.mp known
  have offset (key : Text) (info : SectionInfo)
      (present : asm.sections.find? key = some info) :
      info.offset = BitVec.ofNat 32 (bytesOf asm source key) := by
    have counted := lock.offsets key
    rw [sectionOffset, present] at counted
    exact counted
  rw [sizeOf_eq, SortedMap.sum_values_single found]
  · rw [(lock.formed.typed name sec found).1, if_pos member, offset name sec found]
  · intro key info present different
    split
    · rename_i counts
      rw [(lock.formed.typed key info present).1] at counts
      rw [offset key info present, others key different counts]
      rfl
    · rfl

theorem size_fields :
    asm.textSize = BitVec.ofNat 32 (bytesOf asm source textName) ∧
      asm.dataSize = BitVec.ofNat 32 (bytesOf asm source dataName) := by
  have lock := lock_of_produced produced assembled shape
  have fields : asm.textSize = sizeOf asm.sections [.text] ∧
      asm.dataSize = sizeOf asm.sections [.data, .rodata, .bss] := by
    obtain ⟨finished, _, result⟩ := Outcome.andThen_eq_done.mp produced
    cases result
    exact ⟨rfl, rfl⟩
  have known (name : Text)
      (standard : name ∈ [textName, rodataName, dataName, bssName]) :=
    lock.formed.standard name standard
  rw [fields.1, fields.2]
  constructor
  · apply sizeOf_single shape produced assembled (known _ (by decide)) (by decide)
    intro key different text
    apply bytesOf_other shape different
    rintro rfl
    revert text
    decide
  · apply sizeOf_single shape produced assembled (known _ (by decide)) (by decide)
    intro key different data
    apply bytesOf_other shape ?_ different
    rintro rfl
    revert data
    decide

end Counts

theorem names_distinct (produced : firstPass Assembler.init source = .done asm) :
    (asm.labels.map (·.name)).Nodup := by
  obtain ⟨finished, ran, result⟩ := Outcome.andThen_eq_done.mp produced
  cases result
  have preserved : ∀ a a' : Assembler, (a.labels.map (·.name)).Nodup →
      Change a a' → (a'.labels.map (·.name)).Nodup := by
    intro a a' distinct change
    cases change with
    | switch name => exact distinct
    | label name fresh =>
        rw [addLabel, List.map_append, List.nodup_append']
        refine ⟨distinct, List.nodup_singleton _, ?_⟩
        intro other old new
        obtain ⟨label, member, rfl⟩ := List.mem_map.mp old
        exact fresh label member (List.mem_singleton.mp new)
    | text size =>
        rw [growText_labels]
        exact distinct
    | data size =>
        rw [growData_labels]
        exact distinct
  apply run_firstPass_invariant preserved ?_ ran
  exact List.nodup_nil

theorem names_placed (asm : Assembler) :
    (placedTables asm).labels.map (·.name) = asm.labels.map (·.name) := by
  show (asm.labels.map (adjustLabel (placedTables asm).sections)).map (·.name) = _
  rw [List.map_map]
  apply List.map_congr_left
  intro label _
  rw [Function.comp_apply, adjustLabel]
  split <;> rfl

/-- The two passes agree on labels and on what the output holds. -/
structure PassesAgree (asm : Assembler) (source : Text) (final : Pass2) : Prop where
  labels : ∀ front line rest name, sourceLines source = front ++ line :: rest →
    lineLabel line = some name →
    ∃ st, run (secondPassLine asm) Pass2.init front = .done st ∧
      ∃ label ∈ asm.labels, label.name = name ∧ label.addr = st.pc ∧
        st.out.pos = label.addr.toNat
  names : asm.labels.map (·.name) = (sourceLines source).filterMap lineLabel
  distinct : (asm.labels.map (·.name)).Nodup
  once : final.out.positions.Nodup
  length : final.out.length = asm.textSize.toNat + asm.dataSize.toNat

theorem hasContent_of_lineLabel {line name : Text} (label : lineLabel line = some name) :
    HasContent line := by
  unfold lineLabel at label
  split at label
  · rename_i s content
    exact ⟨s, content⟩
  · cases label

/-- On a source of one block of text and one block of data that assembles to
less than the whole address space the passes agree. -/
theorem passes_agree (shape : TextAndData (sourceLines source))
    (produced : firstPass Assembler.init source = .done asm)
    (assembled : secondPass (placedTables asm) source = .done final)
    (fits : final.out.writes.length < 2 ^ 32) :
    PassesAgree (placedTables asm) source final := by
  have lock := lock_of_produced produced assembled shape
  have labels : (placedTables asm).labels =
      asm.labels.map (adjustLabel (placedTables asm).sections) := rfl
  have names := names_placed asm
  have whole : sourceLines source = sourceLines source ++ [] :=
    (List.append_nil _).symm
  have filled := filled_of_reached shape produced assembled whole fits assembled
  have total := length_final shape produced assembled
  constructor
  · intro front line rest name split label
    obtain ⟨st, reached⟩ := reached_of_assembled assembled split
    refine ⟨st, reached, ?_⟩
    obtain ⟨pos, pc, small⟩ := position_of_content shape produced assembled split
      (hasContent_of_lineLabel label) fits reached
    obtain ⟨sec, found, base⟩ := find?_baseOf shape produced assembled split
    let recorded : Label :=
      { name
        addr := BitVec.ofNat 32 (Place.bytesInto (placedTables asm).labels
          (Place.sectionAfter front) Place.start front)
        sectionName := Place.sectionAfter front }
    have member : recorded ∈ asm.labels := by
      rw [lock.recorded, split, recorded_append]
      apply List.mem_append_right
      apply List.mem_append_left
      rw [labelAt, label]
      exact List.mem_singleton_self _
    have adjusted : adjustLabel (placedTables asm).sections recorded =
        { recorded with addr := st.pc } := by
      rw [adjustLabel, found]
      simp only [base]
      rw [pc, pos, Nat.add_comm, BitVec.ofNat_add]
    refine ⟨{ recorded with addr := st.pc }, ?_, rfl, rfl, ?_⟩
    · rw [← adjusted, labels]
      exact List.mem_map_of_mem member
    · rw [pc, BitVec.toNat_ofNat, Nat.mod_eq_of_lt small]
  · rw [names, lock.recorded, names_recorded]
  · rw [names]
    exact names_distinct produced
  · exact filled.once
  · obtain ⟨text, data⟩ := size_fields shape produced assembled
    have sizes : (placedTables asm).textSize.toNat + (placedTables asm).dataSize.toNat =
        bytesOf asm source textName + bytesOf asm source dataName := by
      show asm.textSize.toNat + asm.dataSize.toNat = _
      rw [text, data, BitVec.toNat_ofNat, BitVec.toNat_ofNat,
        Nat.mod_eq_of_lt (by omega), Nat.mod_eq_of_lt (by omega)]
    rw [sizes]
    apply OutFile.length_eq
    intro p
    rw [filled.covered]
    change p < bytesOf asm source textName ∨
      _ ∧ p < _ + bytesOf asm source dataName ↔ _
    omega

/-- A label and an instruction, then a label, a list and a gap. -/
theorem passes_agree_list :
    let source : Text := "start: li a0, 5\n.data\nx: .byte 1, 2\n.space 3\n".toList
    let asm := (firstPass Assembler.init source).last
    PassesAgree (placedTables asm) source (secondPass (placedTables asm) source).last := by
  intro source asm
  have produced : firstPass Assembler.init source = .done asm := by decide +kernel
  have assembled : secondPass (placedTables asm) source =
      .done (secondPass (placedTables asm) source).last := by decide +kernel
  have load : TextItem "li a0, 5".toList :=
    { plain := by decide
      li := fun _ =>
        ⟨{ first := "a0".toList
           second := " 5".toList
           numeral := ['5']
           value := 5
           line := rfl
           noComma := by decide
           noParen := by decide
           spaced := rfl
           denotes := .decimal (by decide) (by decide)
           short := by decide }⟩ }
  have numerals : Numeral ['1'] 1 ∧ Numeral ['2'] 2 :=
    ⟨.decimal (by decide) (by decide), .decimal (by decide) (by decide)⟩
  have bytes : DataItem ".byte 1, 2".toList :=
    { list := fun _ _ _ => ⟨[.ofNumeral numerals.1 (by simp [Canonical]),
        .ofNumeral numerals.2 (by simp [Canonical])], rfl⟩
      space := fun starts => absurd starts (by decide) }
  have noList : ∀ key ∈ [".byte".toList, ".half".toList, ".word".toList],
      key.isPrefixOf ".space 3".toList = false := by decide +kernel
  have three : scanInt (".space 3".toList.drop 6) = some 3 := by decide +kernel
  have gap : DataItem ".space 3".toList :=
    { list := by
        intro key member starts
        rw [noList key member] at starts
        cases starts
      space := by
        intro _ n found
        rw [three] at found
        cases found
        decide }
  have shape : TextAndData (["start: li a0, 5\n".toList] ++ ".data\n".toList ::
      ["x: .byte 1, 2\n".toList, ".space 3\n".toList]) := by
    apply textAndData_of_blocks
    · decide +kernel
    · decide +kernel
    · decide +kernel
    · intro line member
      rw [List.mem_singleton.mp member]
      exact textLine_of_item (s := "start: li a0, 5".toList) (by decide +kernel)
        (by decide +kernel) load
    · intro line member
      rcases List.mem_pair.mp member with rfl | rfl
      · exact dataLine_of_item (s := "x: .byte 1, 2".toList) (by decide +kernel)
          (by decide +kernel) bytes
      · exact dataLine_of_item (s := ".space 3".toList) (by decide +kernel)
          (by decide +kernel) gap
  have lines : sourceLines source = ["start: li a0, 5\n".toList] ++ ".data\n".toList ::
      ["x: .byte 1, 2\n".toList, ".space 3\n".toList] := by decide +kernel
  rw [← lines] at shape
  have fits : (secondPass (placedTables asm) source).last.out.writes.length < 2 ^ 32 := by
    decide +kernel
  exact passes_agree shape produced assembled fits

theorem secondPassLine_space {asm : Assembler} {st : Pass2} {line s : Text} {size : Word}
    (content : read line = .content s) (item : contentItem s = some s)
    (starts : ".space".toList.isPrefixOf (trim s)) (head : s.head? = some '.')
    (number : scanInt ((trim s).drop 6) = some size)
    (data : (asm.sections.find? st.currentSectionName).map (·.type) = some .data) :
    secondPassLine asm st line =
      .done (st.emit (List.replicate size.toInt.toNat 0)) := by
  obtain ⟨rest, spaced⟩ := List.isPrefixOf_iff_prefix.mp starts
  rw [secondPassLine_eq, content, secondPassRead, secondPassContent_eq, item]
  simp only [secondPassItem, head, if_true, data, Option.getD_some, processDataDirective,
    number]
  rw [← spaced]
  rfl

theorem dataLine_space {line n : Text} {size : Word}
    (content : read line = .content (".space ".toList ++ n))
    (item : contentItem (".space ".toList ++ n) = some (".space ".toList ++ n))
    (number : scanInt (' ' :: n) = some size) (positive : 0 ≤ size.toInt) :
    DataLine line := by
  apply dataLine_of_item content item
  constructor
  · intro key member starts
    simp only [List.mem_cons, List.not_mem_nil, or_false] at member
    rcases member with rfl | rfl | rfl
    · cases starts
    · cases starts
    · cases starts
  · intro _ scanned found
    have same : scanInt (' ' :: n) = some scanned := found
    rw [number] at same
    cases same
    exact positive

/-- Four gigabytes of zeros: the size of the data is zero modulo 2^32. -/
theorem not_passes_agree_four_gigabytes :
    let source : Text :=
      ".data\n.space 2147483647\n.space 2147483647\n.space 2\n".toList
    let asm := (firstPass Assembler.init source).last
    firstPass Assembler.init source = .done asm ∧
      TextAndData (sourceLines source) ∧
      ∃ final, secondPass (placedTables asm) source = .done final ∧
        ¬ PassesAgree (placedTables asm) source final := by
  intro source asm
  have produced : firstPass Assembler.init source = .done asm := by decide +kernel
  have lines : sourceLines source = [] ++ ".data\n".toList ::
      [".space 2147483647\n".toList, ".space 2147483647\n".toList,
        ".space 2\n".toList] := by decide +kernel
  have numberLarge : scanInt (' ' :: "2147483647".toList) = some 2147483647 := by
    decide +kernel
  have numberTwo : scanInt (' ' :: ['2']) = some 2 := by decide +kernel
  have contentLarge : read ".space 2147483647\n".toList =
      .content (".space ".toList ++ "2147483647".toList) := by decide +kernel
  have contentTwo : read ".space 2\n".toList = .content (".space ".toList ++ ['2']) := by
    decide +kernel
  have itemLarge : contentItem (".space ".toList ++ "2147483647".toList) =
      some (".space ".toList ++ "2147483647".toList) := by decide +kernel
  have itemTwo : contentItem (".space ".toList ++ ['2']) =
      some (".space ".toList ++ ['2']) := by decide +kernel
  have shape : TextAndData (sourceLines source) := by
    rw [lines]
    apply textAndData_of_blocks
    · decide +kernel
    · simp
    · decide +kernel
    · simp
    · have large := dataLine_space contentLarge itemLarge numberLarge (by decide)
      have two := dataLine_space contentTwo itemTwo numberTwo (by decide)
      intro line member
      simp only [List.mem_cons, List.not_mem_nil, or_false] at member
      rcases member with rfl | rfl | rfl
      · exact large
      · exact large
      · exact two
  have data : ((placedTables asm).sections.find? dataName).map (·.type) = some .data := by
    decide +kernel
  have sizes : (placedTables asm).textSize.toNat + (placedTables asm).dataSize.toNat = 0 := by
    decide +kernel
  let start : Pass2 :=
    { currentSectionName := dataName
      pc := (placedTables asm).pcText
      out := Pass2.init.out.seek (placedTables asm).pcText.toNat }
  have enters : secondPassLine (placedTables asm) Pass2.init ".data\n".toList =
      .done start := by
    rw [secondPassLine_eq]
    have opened : read ".data\n".toList = .legacyData := by decide +kernel
    rw [opened]
    rfl
  have large (st : Pass2) (here : st.currentSectionName = dataName) :=
    secondPassLine_space contentLarge itemLarge (by decide) (by decide) numberLarge
      (here ▸ data)
  have two (st : Pass2) (here : st.currentSectionName = dataName) :=
    secondPassLine_space contentTwo itemTwo (by decide) (by decide) numberTwo
      (here ▸ data)
  let zeros : List Byte := List.replicate (2147483647 : Word).toInt.toNat 0
  let rest : List Byte := List.replicate (2 : Word).toInt.toNat 0
  refine ⟨produced, shape, ((start.emit zeros).emit zeros).emit rest, ?_, ?_⟩
  · rw [secondPass, lines, List.nil_append, run_cons, enters, Outcome.done_andThen,
      run_cons, large start rfl, Outcome.done_andThen, run_cons,
      large (start.emit zeros) rfl, Outcome.done_andThen, run_cons,
      two ((start.emit zeros).emit zeros) rfl]
    rfl
  · intro agree
    have length : 0 < rest.length := by
      rw [List.length_replicate]
      decide
    have written : ((start.emit zeros).emit zeros).out.pos ∈
        (((start.emit zeros).emit zeros).emit rest).out.positions := by
      rw [Pass2.emit, OutFile.fwrite_positions]
      apply List.mem_append_right
      rw [List.mem_range'_1]
      omega
    have some := OutFile.lt_length written
    rw [agree.length, sizes] at some
    exact absurd some (Nat.not_lt_zero _)

end Final

end RiscvPack.Asm
