import RiscvPack.Assembler.Blocks

/-!
# Section starts and section returns

Where the second pass begins to write a section, and where it goes on when it
returns to one.  It enters every section at the address the table gives, save
that plain `.data` goes to `pc_text`; and it forgets what a section already
holds, so a second block of a section starts where the first one did.
-/

namespace RiscvPack.Asm

open CString Runs Files
open SourceLine (read)

section Tables

variable {asm asm' : Assembler} {source : Text}

theorem Changes.present {key : Text} (changes : Changes asm asm')
    (present : (asm.sections.find? key).isSome) :
    (asm'.sections.find? key).isSome := by
  induction changes with
  | refl => exact present
  | tail _ change induction => exact change.present induction

theorem run_firstPass_changes {lines : List Text}
    (finished : run firstPassLine asm lines = .done asm') :
    Changes asm asm' := by
  induction lines generalizing asm with
  | nil =>
      cases finished
      exact .refl
  | cons line lines induction =>
      obtain ⟨middle, stepped, rest⟩ := run_cons_eq_done.mp finished
      exact (firstPassLine_changes stepped).trans (induction rest)

theorem present_of_entered {lines : List Text} {line name : Text}
    (finished : run firstPassLine asm lines = .done asm')
    (member : line ∈ lines) (enters : (read line).entered = some name) :
    (asm'.sections.find? name).isSome := by
  obtain ⟨front, back, rfl⟩ := List.append_of_mem member
  obtain ⟨before, _, rest⟩ := run_append_eq_done.mp finished
  obtain ⟨middle, stepped, last⟩ := run_cons_eq_done.mp rest
  rw [firstPassLine_eq, firstPassRead_entered enters] at stepped
  cases stepped
  apply (run_firstPass_changes last).present
  rw [find?_switchSection, if_pos rfl]
  rfl

theorem known_of_produced (produced : firstPass Assembler.init source = .done asm)
    (dataBase : Word) :
    Known (adjustLabels asm dataBase) textName ∧
      ∀ line ∈ sourceLines source, ∀ name, (read line).entered = some name →
        Known (adjustLabels asm dataBase) name := by
  have formed := wellFormed_firstPass produced
  obtain ⟨order, layout, _⟩ := placed_placeSections formed
  have known (name : Text) (present : (asm.sections.find? name).isSome) :
      Known (adjustLabels asm dataBase) name := by
    obtain ⟨sec, found⟩ := Option.isSome_iff_exists.mp (layout.image name present)
    obtain ⟨old, foundOld, fields⟩ := layout.origin name sec found
    refine ⟨sec, found, ?_⟩
    rw [fields]
    exact (formed.typed name old foundOld).1
  refine ⟨known _ (formed.standard _ (by decide)), ?_⟩
  intro line member name enters
  obtain ⟨finished, ran, result⟩ := Outcome.andThen_eq_done.mp produced
  cases result
  have present := present_of_entered ran member enters
  exact known name present

/-- The bytes the first pass counted in a section. -/
def sectionOffset (asm : Assembler) (name : Text) : Word :=
  ((asm.sections.find? name).map (·.offset)).getD 0

/-- `pc_text` is where `.data` is placed: behind `.text` and `.rodata`. -/
def LegacyDataPlaced (asm : Assembler) : Prop :=
  asm.pcText = sectionOffset asm textName + sectionOffset asm rodataName

end Tables

section Starts

variable {asm : Assembler} {source : Text}

/-- The second pass on the tables the first pass left. -/
abbrev placedTables (asm : Assembler) : Assembler := adjustLabels asm asm.pcText

/-- The section that is current has its base address here. -/
def AtBase (asm : Assembler) (st : Pass2) : Prop :=
  ∃ sec ∈ asm.sections.find? st.currentSectionName,
    st.pc = sec.baseAddr ∧ st.out.pos = sec.baseAddr.toNat

instance (asm : Assembler) (st : Pass2) : Decidable (AtBase asm st) :=
  inferInstanceAs (Decidable (∃ sec ∈ _, _))

/-- The bytes of a section. -/
def bytesOf (asm : Assembler) (source name : Text) : Nat :=
  Place.bytesInto (placedTables asm).labels name Place.start (sourceLines source)

/-- Where the second pass is about to write the first byte of a section. -/
structure FirstByte (asm : Assembler) (lines : List Text) where
  front : List Text
  line : Text
  rest : List Text
  st : Pass2
  split : lines = front ++ line :: rest
  reached : run (secondPassLine asm) Pass2.init front = .done st
  first : emittedInto asm st.currentSectionName Pass2.init front = 0
  writes : (secondPassLine asm st line).last.out.writes ≠ st.out.writes

theorem at_of_reached (produced : firstPass Assembler.init source = .done asm)
    {front rest : List Text} {st : Pass2}
    (split : sourceLines source = front ++ rest)
    (reached : run (secondPassLine (placedTables asm)) Pass2.init front = .done st) :
    At (placedTables asm) (Place.start.after (placedTables asm).labels front) st ∧
      ∀ name, emittedInto (placedTables asm) name Pass2.init front =
        Place.bytesInto (placedTables asm).labels name Place.start front := by
  obtain ⟨text, entered⟩ := known_of_produced produced asm.pcText
  apply (At.start text).run ?_ reached
  intro line member name enters
  apply entered line ?_ name enters
  rw [split]
  exact List.mem_append_left rest member

theorem find?_legacy (produced : firstPass Assembler.init source = .done asm) :
    ∃ t d, (placedTables asm).sections.find? textName = some t ∧
      t.baseAddr = 0 ∧
      (placedTables asm).sections.find? dataName = some d ∧
      d.baseAddr = sectionOffset asm textName + sectionOffset asm rodataName := by
  obtain ⟨t, r, d, foundText, foundRodata, _, text, data⟩ :=
    standard_bases (wellFormed_firstPass produced)
  refine ⟨_, _, text, rfl, data, ?_⟩
  simp only [sectionOffset, foundText, foundRodata]
  rfl

theorem openingAddr_iff (produced : firstPass Assembler.init source = .done asm)
    (front : List Text)
    (known : Known (placedTables asm) (Place.sectionAfter front)) :
    (∃ sec ∈ (placedTables asm).sections.find? (Place.sectionAfter front),
        openingAddr (placedTables asm) (Place.lastOpening front) = sec.baseAddr) ↔
      (Place.lastOpening front = .legacyData → LegacyDataPlaced asm) := by
  have entered := Place.opening_entered [] front
  rw [Place.opening_after, Place.name_after] at entered
  obtain ⟨t, d, foundText, baseText, foundData, baseData⟩ := find?_legacy produced
  cases opening : Place.lastOpening front with
  | skipped | content =>
      rw [opening] at entered
      cases entered
  | legacyText =>
      rw [opening] at entered
      rw [← Option.some.inj entered]
      constructor
      · intro _ legacy
        cases legacy
      · intro _
        exact ⟨t, foundText, baseText.symm⟩
  | legacyData =>
      rw [opening] at entered
      rw [← Option.some.inj entered]
      constructor
      · rintro ⟨sec, found, atBase⟩ _
        rw [Option.mem_def, foundData] at found
        cases found
        exact atBase.trans baseData
      · intro placed
        exact ⟨d, foundData, (placed rfl).trans baseData.symm⟩
  | named other =>
      rw [opening] at entered
      have name := Option.some.inj entered
      obtain ⟨sec, found, _⟩ := known
      rw [← name] at found ⊢
      constructor
      · intro _ legacy
        cases legacy
      · intro _
        refine ⟨sec, found, ?_⟩
        simp only [openingAddr, found]
        rfl

/-- The second pass starts a section at its base address exactly when the
block was not opened by plain `.data`, or `pc_text` is the base of `.data`. -/
theorem atBase_iff (produced : firstPass Assembler.init source = .done asm)
    (b : FirstByte (placedTables asm) (sourceLines source)) :
    AtBase (placedTables asm) b.st ↔
      (Place.lastOpening b.front = .legacyData → LegacyDataPlaced asm) := by
  obtain ⟨here, counts⟩ := at_of_reached produced b.split b.reached
  have name := Place.name_after (placedTables asm).labels b.front
  have bound := Place.written_le (placedTables asm).labels b.front Place.start
  have none := counts b.st.currentSectionName
  rw [b.first, here.name] at none
  have fresh : (Place.start.after (placedTables asm).labels b.front).written = 0 := by
    have start : Place.start.written = 0 := rfl
    rw [← none, start] at bound
    split at bound
    · omega
    · omega
  have pc := here.pc
  have pos := here.pos
  rw [fresh, Place.opening_after] at pc pos
  have pc : b.st.pc = openingAddr (placedTables asm) (Place.lastOpening b.front) :=
    pc.trans (BitVec.add_zero _)
  rw [← openingAddr_iff produced b.front (name ▸ here.known), AtBase, here.name, name,
    pc, pos]
  constructor
  · rintro ⟨sec, found, atBase, _⟩
    exact ⟨sec, found, atBase⟩
  · rintro ⟨sec, found, atBase⟩
    exact ⟨sec, found, atBase, congrArg BitVec.toNat atBase⟩

theorem atBase_iff_data :
    let source : Text := ".text\nnop\n.data\n.byte 1\n".toList
    let asm := (firstPass Assembler.init source).last
    firstPass Assembler.init source = .done asm ∧
      ∃ b : FirstByte (placedTables asm) (sourceLines source),
        AtBase (placedTables asm) b.st ↔
          (Place.lastOpening b.front = .legacyData → LegacyDataPlaced asm) := by
  intro source asm
  have produced : firstPass Assembler.init source = .done asm := by
    decide +kernel
  let b : FirstByte (placedTables asm) (sourceLines source) :=
    { front := (sourceLines source).take 3
      line := ".byte 1\n".toList
      rest := []
      st := { currentSectionName := dataName
              pc := 4
              out := ⟨4, [(0x13, 0), (0, 1), (0, 2), (0, 3)]⟩ }
      split := by decide +kernel
      reached := by decide +kernel
      first := by decide +kernel
      writes := by decide +kernel }
  exact ⟨produced, b, atBase_iff produced b⟩

/-- Plain `.data` behind a byte of `.rodata`: every section is entered once,
and the first byte of `.data` goes to the address of that byte. -/
theorem not_atBase_behind_rodata :
    let source : Text := ".text\nnop\n.rodata\n.byte 7\n.data\n.byte 1\n".toList
    let asm := (firstPass Assembler.init source).last
    firstPass Assembler.init source = .done asm ∧
      ((sourceLines source).filterMap fun line => (read line).entered).Nodup ∧
      ∃ b : FirstByte (placedTables asm) (sourceLines source),
        ¬ AtBase (placedTables asm) b.st := by
  intro source asm
  let st : Pass2 :=
    { currentSectionName := dataName
      pc := 4
      out := ⟨4, [(0x13, 0), (0, 1), (0, 2), (0, 3), (7, 4)]⟩ }
  have outcomes : firstPass Assembler.init source = .done asm ∧
      run (secondPassLine (placedTables asm)) Pass2.init ((sourceLines source).take 5) =
        .done st ∧
      emittedInto (placedTables asm) st.currentSectionName Pass2.init
        ((sourceLines source).take 5) = 0 ∧
      (secondPassLine (placedTables asm) st ".byte 1\n".toList).last.out.writes ≠
        st.out.writes ∧
      ¬ AtBase (placedTables asm) st := by
    decide +kernel
  obtain ⟨produced, reached, first, writes, notAtBase⟩ := outcomes
  let b : FirstByte (placedTables asm) (sourceLines source) :=
    { front := (sourceLines source).take 5
      line := ".byte 1\n".toList
      rest := []
      st
      split := by decide +kernel
      reached
      first
      writes }
  exact ⟨produced, by decide +kernel, b, notAtBase⟩

end Starts

section Returns

variable {asm : Assembler} {source : Text}

/-- A line of a block of `name`, the line that opened the block, and the lines
before and between them. -/
structure Block (lines : List Text) (name : Text) where
  before : List Text
  entry : Text
  since : List Text
  line : Text
  rest : List Text
  split : lines = before ++ entry :: (since ++ line :: rest)
  enters : (read entry).entered = some name
  stays : ∀ l ∈ since, (read l).entered = none

namespace Block

variable {lines : List Text} {name : Text}

/-- When the section holds bytes already, the first byte that the block writes
goes behind them. -/
def Appends (asm : Assembler) (b : Block lines name) : Prop :=
  ∀ s st, run (secondPassLine asm) Pass2.init b.before = .done s →
    run (secondPassLine asm) s (b.entry :: b.since) = .done st →
    st.out.writes = s.out.writes →
    (secondPassLine asm st b.line).last.out.writes ≠ st.out.writes →
    0 < emittedInto asm name Pass2.init b.before →
    ∃ sec ∈ asm.sections.find? name,
      st.out.pos =
        sec.baseAddr.toNat + emittedInto asm name Pass2.init b.before

/-- The bytes the source puts into the section before the block. -/
def earlier (labels : List Label) (b : Block lines name) : Nat :=
  Place.bytesInto labels name Place.start b.before

/-- The line holds the first bytes of the block, and the section has bytes
before the block. -/
structure Returns (labels : List Label) (b : Block lines name) : Prop where
  earlier : 0 < b.earlier labels
  quiet : ∀ l ∈ b.since, lineSize labels name l = 0
  stays : (read b.line).entered = none
  size : 0 < lineSize labels name b.line

/-- Plain `.data`, with `pc_text` where the next byte of `.data` belongs. -/
def Lucky (asm : Assembler) (b : Block lines name) : Prop :=
  read b.entry = .legacyData ∧
    asm.pcText.toNat =
      (sectionOffset asm textName + sectionOffset asm rodataName).toNat +
        b.earlier (placedTables asm).labels

theorem opening_iff (produced : firstPass Assembler.init source = .done asm)
    (b : Block lines name) (known : Known (placedTables asm) name)
    (some : 0 < b.earlier (placedTables asm).labels) :
    (∃ sec ∈ (placedTables asm).sections.find? name,
        (openingAddr (placedTables asm) (read b.entry)).toNat =
          sec.baseAddr.toNat + b.earlier (placedTables asm).labels) ↔
      b.Lucky asm := by
  obtain ⟨t, d, foundText, baseText, foundData, baseData⟩ := find?_legacy produced
  have enters := b.enters
  unfold Lucky
  cases entry : read b.entry with
  | skipped | content =>
      rw [entry] at enters
      cases enters
  | legacyText =>
      rw [entry] at enters
      cases enters
      constructor
      · rintro ⟨sec, found, pos⟩
        rw [Option.mem_def, foundText] at found
        cases found
        simp only [openingAddr, baseText] at pos
        omega
      · rintro ⟨legacy, _⟩
        cases legacy
  | legacyData =>
      rw [entry] at enters
      cases enters
      rw [← baseData]
      constructor
      · rintro ⟨sec, found, pos⟩
        rw [Option.mem_def, foundData] at found
        cases found
        exact ⟨rfl, pos⟩
      · rintro ⟨_, pos⟩
        exact ⟨d, foundData, pos⟩
  | named other =>
      rw [entry] at enters
      cases enters
      obtain ⟨sec, found, _⟩ := known
      have base : openingAddr (placedTables asm) (.named name) = sec.baseAddr := by
        simp only [openingAddr, found]
        rfl
      rw [base]
      constructor
      · rintro ⟨sec', found', pos⟩
        rw [Option.mem_def, found] at found'
        cases found'
        omega
      · rintro ⟨legacy, _⟩
        cases legacy

end Block

theorem writes_of_entered {line name : Text} {st st' : Pass2}
    (enters : (read line).entered = some name)
    (stepped : secondPassLine asm st line = .done st') :
    st'.out.writes = st.out.writes := by
  rw [secondPassLine_eq] at stepped
  cases opened : read line with
  | skipped | content =>
      rw [opened] at enters
      cases enters
  | legacyText | legacyData =>
      rw [opened] at stepped
      cases stepped
      rfl
  | named other =>
      rw [opened] at stepped
      cases stepped
      unfold enterSection
      split <;> rfl

/-- A block that returns to a section appends to it only by luck. -/
theorem appends_iff (produced : firstPass Assembler.init source = .done asm)
    {final : Pass2} (assembled : secondPass (placedTables asm) source = .done final)
    {name : Text} (b : Block (sourceLines source) name) :
    b.Appends (placedTables asm) ↔
      (b.Returns (placedTables asm).labels → b.Lucky asm) := by
  have whole : run (secondPassLine (placedTables asm)) Pass2.init
      (b.before ++ (b.entry :: b.since ++ b.line :: b.rest)) = .done final := by
    rw [List.cons_append, ← b.split]
    exact assembled
  obtain ⟨s, before, behind⟩ := run_append_eq_done.mp whole
  obtain ⟨st, block, rest⟩ := run_append_eq_done.mp behind
  obtain ⟨st', stepped, _⟩ := run_cons_eq_done.mp rest
  obtain ⟨m, entry, since⟩ := run_cons_eq_done.mp block
  obtain ⟨here, counts⟩ := at_of_reached produced b.split before
  have known : Known (placedTables asm) name := by
    have member : b.entry ∈ b.before ++ b.entry :: (b.since ++ b.line :: b.rest) :=
      List.mem_append_right _ List.mem_cons_self
    rw [← b.split] at member
    exact (known_of_produced produced asm.pcText).2 b.entry member name b.enters
  have opened := (here.next (fun other enters => by
    rw [b.enters] at enters
    cases enters
    exact known) entry).1
  rw [Place.next_entered b.enters] at opened
  have emitted := opened.emitted b.stays since
  have quiet : st.out.writes = s.out.writes ↔
      ∀ l ∈ b.since, lineSize (placedTables asm).labels name l = 0 := by
    rw [← writes_of_entered b.enters entry, emitted.writes_eq_iff,
      List.sum_eq_zero_iff]
    simp
  have position (silent : st.out.writes = s.out.writes) :
      st.out.pos = (openingAddr (placedTables asm) (read b.entry)).toNat := by
    rw [← writes_of_entered b.enters entry, emitted.writes_eq_iff] at silent
    obtain ⟨bytes, length, rfl⟩ := emitted
    rw [silent] at length
    show m.out.pos + bytes.length = _
    rw [length, opened.pos]
    rfl
  have writes : (secondPassLine (placedTables asm) st b.line).last.out.writes ≠
      st.out.writes ↔ (read b.line).entered = none ∧
        0 < lineSize (placedTables asm).labels name b.line := by
    rw [stepped]
    cases stays : (read b.line).entered with
    | some other => simp [Outcome.last, writes_of_entered stays stepped]
    | none =>
        have there := (opened.run (fun l member other enters => by
          rw [b.stays l member] at enters
          cases enters) since).1
        rw [Place.after_stays b.stays] at there
        obtain ⟨sec, found, typed⟩ := there.known
        rw [← there.name] at found typed
        have last := emitted_line found typed stays stepped
        rw [there.name] at last
        simp [Outcome.last, last.writes_eq_iff, Nat.pos_iff_ne_zero]
  have same : emittedInto (placedTables asm) name Pass2.init b.before =
      b.earlier (placedTables asm).labels := counts name
  constructor
  · intro appends returns
    have silent := quiet.mpr returns.quiet
    have pos := appends s st before block silent
      (writes.mpr ⟨returns.stays, returns.size⟩) (same ▸ returns.earlier)
    rw [position silent, same] at pos
    exact (b.opening_iff produced known returns.earlier).mp pos
  · intro lucky s₁ st₁ before₁ block₁ silent emits some
    rw [before] at before₁
    cases before₁
    rw [block] at block₁
    cases block₁
    obtain ⟨stays, size⟩ := writes.mp emits
    rw [same] at some ⊢
    rw [position silent]
    exact (b.opening_iff produced known some).mpr
      (lucky ⟨some, quiet.mp silent, stays, size⟩)

end Returns

end RiscvPack.Asm
