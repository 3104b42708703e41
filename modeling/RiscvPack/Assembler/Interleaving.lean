import RiscvPack.Assembler.LineBytes
import RiscvPack.Assembler.Sections

/-!
# Interleaved sections

A source may leave a section and come back to it.  The second pass should go
on behind the bytes the section holds, so that no byte is lost and the image
is the one of the source with each section's lines written together.  It does
so exactly for sources whose blocks fit together: no section gets bytes in two
blocks, and the bytes of two sections do not meet.
-/

namespace RiscvPack.Asm

open CString Runs Files Layout
open SourceLine (read)

section Grouping

/-- The lines that stand in a section. -/
def linesIn (name : Text) : Text → List Text → List Text
  | _, [] => []
  | current, line :: rest =>
      match (read line).entered with
      | some other => linesIn name other rest
      | none =>
          if current = name then line :: linesIn name current rest
          else linesIn name current rest

/-- The pass starts as if it had read this line. -/
def startLine : Text := ".text\n".toList

/-- The line that opens the block with the first byte of a section. -/
def firstEntry (labels : List Label) (name : Text) : Text → List Text → Option Text
  | _, [] => none
  | entry, line :: rest =>
      if (read line).entered.isSome then firstEntry labels name line rest
      else if (read entry).entered = some name ∧ 0 < lineSize labels name line then
        some entry
      else firstEntry labels name entry rest

/-- The line that opens a section when its lines are written together. -/
def opener (labels : List Label) (lines : List Text) (name : Text) : Text :=
  ((firstEntry labels name startLine lines).or
    (lines.find? fun line => (read line).entered = some name)).getD startLine

/-- The sections in which lines of the source may stand. -/
def sectionNames (lines : List Text) : List Text :=
  (textName :: lines.filterMap fun line => (read line).entered).dedup

/-- The source with the lines of each section written together. -/
def grouped (labels : List Label) (lines : List Text) : List Text :=
  (sectionNames lines).flatMap fun name =>
    opener labels lines name :: linesIn name textName lines

variable {labels : List Label} {name : Text} {lines : List Text}

theorem linesIn_append (labels : List Label) (p : Place) (front back : List Text) :
    linesIn name p.name (front ++ back) =
      linesIn name p.name front ++ linesIn name (p.after labels front).name back := by
  induction front generalizing p with
  | nil => rfl
  | cons line front induction =>
      have later := induction (p.next labels line)
      rw [Place.after_cons]
      cases enters : (read line).entered with
      | some other =>
          rw [Place.next_entered enters] at later ⊢
          simpa only [List.cons_append, linesIn, enters] using later
      | none =>
          rw [Place.next_stays enters] at later ⊢
          simp only [List.cons_append, linesIn, enters]
          split
          · rw [List.cons_append]
            exact congrArg (line :: ·) later
          · exact later

theorem linesIn_snoc (front : List Text) (line : Text) :
    linesIn name textName (front ++ [line]) =
      linesIn name textName front ++
        if (read line).entered = none ∧ Place.sectionAfter front = name then [line]
        else [] := by
  have split : linesIn name textName (front ++ [line]) = _ :=
    linesIn_append [] Place.start front [line]
  rw [Place.name_after] at split
  refine split.trans (congrArg (linesIn name textName front ++ ·) ?_)
  cases enters : (read line).entered with
  | some other => simp [linesIn, enters]
  | none => simp [linesIn, enters]

theorem not_entered_of_linesIn {current line : Text}
    (member : line ∈ linesIn name current lines) : (read line).entered = none := by
  induction lines generalizing current with
  | nil => cases member
  | cons first rest induction =>
      unfold linesIn at member
      split at member
      · exact induction member
      · rename_i stays
        split at member
        · rcases List.mem_cons.mp member with rfl | later
          · exact stays
          · exact induction later
        · exact induction member

theorem mem_sectionNames : name ∈ sectionNames lines ↔
    name = textName ∨ ∃ line ∈ lines, (read line).entered = some name := by
  simp [sectionNames]

theorem nodup_sectionNames : (sectionNames lines).Nodup := List.nodup_dedup _

theorem sectionAfter_mem (front rest : List Text) :
    Place.sectionAfter front ∈ sectionNames (front ++ rest) := by
  rw [mem_sectionNames]
  rcases Place.exists_last_entry front with stays |
    ⟨before, entry, since, name, split, enters, stays⟩
  · left
    rw [← Place.name_after [], Place.after_stays stays]
    rfl
  · right
    refine ⟨entry, by rw [split]; simp, ?_⟩
    rw [enters, ← Place.name_after [], split, Place.after_append, Place.after_cons,
      Place.next_entered enters, Place.after_stays stays]

theorem entered_firstEntry {entry found : Text}
    (first : firstEntry labels name entry lines = some found) :
    (read found).entered = some name ∧ (found = entry ∨ found ∈ lines) := by
  induction lines generalizing entry with
  | nil => cases first
  | cons line rest induction =>
      unfold firstEntry at first
      split at first
      · obtain ⟨enters, member⟩ := induction first
        refine ⟨enters, .inr ?_⟩
        rcases member with rfl | later
        · exact List.mem_cons_self
        · exact List.mem_cons_of_mem _ later
      · split at first
        · rename_i here
          cases first
          exact ⟨here.1, .inl rfl⟩
        · obtain ⟨enters, member⟩ := induction first
          exact ⟨enters, member.imp_right (List.mem_cons_of_mem _)⟩

theorem entered_opener (labels : List Label) (member : name ∈ sectionNames lines) :
    (read (opener labels lines name)).entered = some name := by
  unfold opener
  cases first : firstEntry labels name startLine lines with
  | some entry =>
      rw [Option.some_or, Option.getD_some]
      exact (entered_firstEntry first).1
  | none =>
      rw [Option.none_or]
      cases found : lines.find? fun line => (read line).entered = some name with
      | some line =>
          rw [Option.getD_some]
          simpa using List.find?_some found
      | none =>
          rcases mem_sectionNames.mp member with rfl | ⟨line, member, enters⟩
          · decide
          · rw [List.find?_eq_none] at found
            exact absurd enters (by simpa using found line member)

theorem firstEntry_eq {front rest : List Text} {line entry : Text} {p : Place}
    (opening : read entry = p.opening) (enters : p.opening.entered = some p.name)
    (here : (p.after labels front).name = name)
    (none : Place.bytesInto labels name p front = 0) (size : lineSize labels name line ≠ 0) :
    ∃ found, firstEntry labels name entry (front ++ line :: rest) = some found ∧
      read found = (p.after labels front).opening := by
  induction front generalizing p entry with
  | nil =>
      refine ⟨entry, ?_, opening⟩
      have current : (read entry).entered = some name := by
        rw [opening, enters]
        exact congrArg some here
      rw [List.nil_append, firstEntry, Place.not_entered_of_size size, if_neg (by simp),
        if_pos ⟨current, Nat.pos_of_ne_zero size⟩]
  | cons l front induction =>
      rw [Place.bytesInto, Nat.add_eq_zero_iff] at none
      rw [Place.after_cons] at here ⊢
      rw [List.cons_append, firstEntry]
      cases opened : (read l).entered with
      | some other =>
          rw [Place.next_entered opened] at here none ⊢
          rw [if_pos (by rfl)]
          exact induction rfl opened here none.2
      | none =>
          rw [Place.next_stays opened] at here none ⊢
          rw [if_neg (by simp), if_neg]
          · exact induction opening enters here none.2
          · rintro ⟨current, some⟩
            rw [opening, enters] at current
            rw [if_pos (Option.some.inj current)] at none
            omega

/-- The opener of a section with bytes is the line that opened the block of
its first byte. -/
theorem Place.FirstIn.read_opener {front rest : List Text} {line : Text}
    (first : Place.FirstIn labels name lines front line rest) :
    read (opener labels lines name) = Place.lastOpening front := by
  obtain ⟨split, here, none, size⟩ := first
  have start : (Place.start.after labels front).name = name :=
    (Place.name_after labels front).trans here
  have entry : read startLine = Place.start.opening := by decide
  obtain ⟨found, first, opens⟩ := firstEntry_eq entry rfl start none size
  rw [opener, split, first, Option.some_or, Option.getD_some, opens, Place.opening_after]

end Grouping

section Positions

variable {asm : Assembler} {source : Text}

/-- The address of the first byte of a section: its base address, or `pc_text`
when plain `.data` opens it. -/
def startAddr (asm : Assembler) (source name : Text) : Word :=
  openingAddr (placedTables asm)
    (read (opener (placedTables asm).labels (sourceLines source) name))

abbrev startOf (asm : Assembler) (source name : Text) : Nat := (startAddr asm source name).toNat

/-- The second pass about to write a section on its own. -/
def openedAt (asm : Assembler) (source name : Text) : Pass2 where
  currentSectionName := name
  pc := startAddr asm source name
  out := { pos := startOf asm source name, writes := [] }

/-- Every line with bytes stands behind the bytes its section has by then. -/
def Steady (asm : Assembler) (source : Text) : Prop :=
  ∀ front line rest, sourceLines source = front ++ line :: rest →
    lineSize (placedTables asm).labels (Place.sectionAfter front) line ≠ 0 →
    (openingAddr (placedTables asm) (Place.lastOpening front)).toNat +
        (Place.start.after (placedTables asm).labels front).written =
      startOf asm source (Place.sectionAfter front) +
        Place.bytesInto (placedTables asm).labels (Place.sectionAfter front) Place.start front

/-- The bytes of the sections, each section passed on its own, and what the
pass over interleaved lines has written by then. -/
structure Streams (asm : Assembler) (source : Text) (front : List Text) (st : Pass2)
    (stream : Text → List Byte) : Prop where
  length : ∀ name, (stream name).length =
    Place.bytesInto (placedTables asm).labels name Place.start front
  alone : ∀ name, run (secondPassLine (placedTables asm)) (openedAt asm source name)
    (linesIn name textName front) = .done ((openedAt asm source name).emit (stream name))
  writes : st.out.writes.Perm ((sectionNames (sourceLines source)).flatMap fun name =>
    (stream name).zipIdx (startOf asm source name))

variable (produced : firstPass Assembler.init source = .done asm)

include produced

theorem known_of_sectionNames {name : Text} (member : name ∈ sectionNames (sourceLines source)) :
    Known (placedTables asm) name := by
  obtain ⟨text, entered⟩ := known_of_produced produced asm.pcText
  rcases mem_sectionNames.mp member with rfl | ⟨line, member, enters⟩
  · exact text
  · exact entered line member name enters

/-- A line with bytes stands where the bytes of its section end so far. -/
theorem Streams.position (steady : Steady asm source) {front rest : List Text} {line : Text}
    {st : Pass2} {stream : Text → List Byte}
    (split : sourceLines source = front ++ line :: rest)
    (reached : run (secondPassLine (placedTables asm)) Pass2.init front = .done st)
    (streams : Streams asm source front st stream)
    (size : lineSize (placedTables asm).labels (Place.sectionAfter front) line ≠ 0) :
    st.out.pos = startOf asm source (Place.sectionAfter front) +
        (stream (Place.sectionAfter front)).length ∧
      st.pc = startAddr asm source (Place.sectionAfter front) +
        BitVec.ofNat 32 (stream (Place.sectionAfter front)).length := by
  obtain ⟨here, _⟩ := at_of_reached produced split reached
  have position := steady front line rest split size
  rw [streams.length]
  constructor
  · rw [here.pos, Place.opening_after]
    exact position
  · rw [here.pc, Place.opening_after]
    simpa only [BitVec.ofNat_add, BitVec.ofNat_toNat, BitVec.setWidth_eq] using
      congrArg (BitVec.ofNat 32) position

theorem Streams.step (steady : Steady asm source) {front rest : List Text} {line : Text}
    {st st' : Pass2} {stream : Text → List Byte}
    (split : sourceLines source = front ++ line :: rest)
    (reached : run (secondPassLine (placedTables asm)) Pass2.init front = .done st)
    (streams : Streams asm source front st stream)
    (stepped : secondPassLine (placedTables asm) st line = .done st') :
    ∃ stream', Streams asm source (front ++ [line]) st' stream' := by
  obtain ⟨here, _⟩ := at_of_reached produced split reached
  have name := Place.name_after (placedTables asm).labels front
  cases enters : (read line).entered with
  | some other =>
      refine ⟨stream, ⟨?_, ?_, ?_⟩⟩
      · intro key
        rw [Place.bytesInto_entered enters]
        exact streams.length key
      · intro key
        rw [linesIn_snoc, if_neg (by simp [enters]), List.append_nil]
        exact streams.alone key
      · rw [writes_of_entered enters stepped]
        exact streams.writes
  | none =>
      let current := Place.sectionAfter front
      have member : current ∈ sectionNames (sourceLines source) := by
        rw [split]
        exact sectionAfter_mem front (line :: rest)
      obtain ⟨sec, found, typed⟩ := here.known
      rw [← here.name] at found typed
      have emitted := emitted_line found typed enters stepped
      obtain ⟨bytes, rfl, repeats⟩ := repeats_line enters stepped
      have size := emitted.size_unique (.bytes bytes)
      rw [here.name, name] at size
      have placed (some : bytes ≠ []) := streams.position produced steady split reached (by
        rw [size]
        exact fun empty => some (List.length_eq_zero_iff.mp empty))
      refine ⟨Function.update stream current (stream current ++ bytes), ⟨?_, ?_, ?_⟩⟩
      · intro key
        rw [Place.bytesInto_snoc, ← streams.length key]
        by_cases same : key = current
        · subst same
          rw [Function.update_self, if_pos rfl, List.length_append, size]
        · rw [Function.update_of_ne same, if_neg (Ne.symm same), Nat.add_zero]
      · intro key
        rw [linesIn_snoc]
        by_cases same : key = current
        · subst same
          rw [Function.update_self, if_pos ⟨enters, rfl⟩, Pass2.emit_append]
          refine run_append_eq_done.mpr ⟨_, streams.alone current, ?_⟩
          refine run_cons_eq_done.mpr ⟨_, repeats _ ?_ ?_, rfl⟩
          · exact (here.name.trans name).symm
          · intro some
            exact (placed some).2.symm
        · rw [Function.update_of_ne same, if_neg (fun both => same both.2.symm),
            List.append_nil]
          exact streams.alone key
      · have grown : (Function.update stream current (stream current ++ bytes) current).zipIdx
            (startOf asm source current) =
              (stream current).zipIdx (startOf asm source current) ++
                bytes.zipIdx st.out.pos := by
          rw [Function.update_self, List.zipIdx_append]
          by_cases some : bytes = []
          · rw [some, List.zipIdx_nil, List.zipIdx_nil]
          · rw [(placed some).1]
        have chunks := perm_flatMap_grown nodup_sectionNames member grown
          (f := fun name => (stream name).zipIdx (startOf asm source name))
          (g := fun name => (Function.update stream current (stream current ++ bytes) name).zipIdx
            (startOf asm source name))
          (fun other different => by rw [Function.update_of_ne different])
        exact (streams.writes.append_right _).trans chunks.symm

theorem exists_streams (steady : Steady asm source) {front rest : List Text} {st : Pass2}
    (split : sourceLines source = front ++ rest)
    (reached : run (secondPassLine (placedTables asm)) Pass2.init front = .done st) :
    ∃ stream, Streams asm source front st stream := by
  induction front using List.reverseRecOn generalizing rest st with
  | nil =>
      cases reached
      refine ⟨fun _ => [], ⟨fun _ => rfl, fun _ => by rw [Pass2.emit_nil]; rfl, ?_⟩⟩
      simp [Pass2.init, OutFile.empty]
  | append_singleton front line induction =>
      obtain ⟨before, earlier, last⟩ := run_append_eq_done.mp reached
      obtain ⟨after, stepped, stop⟩ := run_cons_eq_done.mp last
      cases stop
      have split : sourceLines source = front ++ line :: rest := by simpa using split
      obtain ⟨stream, streams⟩ := induction split earlier
      exact streams.step produced steady split earlier stepped

/-- The lines of the sections, one section after another, write the same bytes
to the same places. -/
theorem Streams.run_grouped {final : Pass2} {stream : Text → List Byte}
    (streams : Streams asm source (sourceLines source) final stream) {names : List Text}
    (members : names ⊆ sectionNames (sourceLines source)) (st : Pass2) :
    ∃ st', run (secondPassLine (placedTables asm)) st (names.flatMap fun name =>
        opener (placedTables asm).labels (sourceLines source) name ::
          linesIn name textName (sourceLines source)) = .done st' ∧
      st'.out.writes = st.out.writes ++
        names.flatMap fun name => (stream name).zipIdx (startOf asm source name) := by
  induction names generalizing st with
  | nil => exact ⟨st, rfl, by simp⟩
  | cons name names induction =>
      have member := members List.mem_cons_self
      have opened := enter_line (entered_opener (placedTables asm).labels member)
        (known_of_sectionNames produced member) st
      obtain ⟨bytes, same, repeats⟩ := repeats_lines
        (fun l member => not_entered_of_linesIn member) (streams.alone name)
      rw [Pass2.emit_inj] at same
      subst same
      have passed := repeats { currentSectionName := name
                               pc := startAddr asm source name
                               out := st.out.seek (startOf asm source name) } rfl rfl
      obtain ⟨st', others, writes⟩ := induction
        (fun other later => members (List.mem_cons_of_mem _ later))
        (Pass2.emit { currentSectionName := name
                      pc := startAddr asm source name
                      out := st.out.seek (startOf asm source name) } (stream name))
      refine ⟨st', ?_, ?_⟩
      · rw [List.flatMap_cons, List.cons_append]
        refine run_cons_eq_done.mpr ⟨_, opened, ?_⟩
        exact run_append_eq_done.mpr ⟨_, passed, others⟩
      · rw [writes, List.flatMap_cons]
        simp [Pass2.emit, OutFile.fwrite]

omit produced in
theorem mem_of_bytesOf {name : Text} (some : 0 < bytesOf asm source name) :
    name ∈ sectionNames (sourceLines source) := by
  obtain ⟨front, line, rest, first⟩ := Place.exists_first some.ne'
  rw [first.split, ← first.here]
  exact sectionAfter_mem front (line :: rest)

omit produced in
/-- No byte is overwritten exactly when the bytes of different sections do not
meet. -/
theorem Streams.nodup_iff {final : Pass2} {stream : Text → List Byte}
    (streams : Streams asm source (sourceLines source) final stream) :
    final.out.positions.Nodup ↔ ∀ a b, a ≠ b → 0 < bytesOf asm source a →
      0 < bytesOf asm source b → Apart (startOf asm source) (bytesOf asm source) a b := by
  have positions : final.out.positions.Perm ((sectionNames (sourceLines source)).flatMap
      fun name => List.range' (startOf asm source name) (bytesOf asm source name)) := by
    have mapped := streams.writes.map Prod.snd
    rw [List.map_flatMap] at mapped
    simp only [List.zipIdx_map_snd, streams.length] at mapped
    exact mapped
  rw [positions.nodup_iff, nodup_ranges_iff nodup_sectionNames]
  constructor
  · intro apart a b different someA someB
    exact apart a (mem_of_bytesOf someA) b (mem_of_bytesOf someB) different someA someB
  · intro apart a _ b _
    exact apart a b

end Positions

section Blocks

variable {asm : Assembler} {source : Text}

/-- The block goes on behind the bytes of its section: plain `.data` opens it,
another spelling opened `.data` before, and `pc_text` happens to be the address
of the next byte. -/
structure Block.Follows (asm : Assembler) (source : Text) {name : Text}
    (b : Block (sourceLines source) name) : Prop where
  lucky : b.Lucky asm
  other : read (opener (placedTables asm).labels (sourceLines source) dataName) ≠ .legacyData

/-- No section gets bytes in a second block, and the bytes of different
sections have different addresses. -/
structure BlocksFit (asm : Assembler) (source : Text) : Prop where
  once : ∀ name (b : Block (sourceLines source) name),
    b.Returns (placedTables asm).labels → b.Follows asm source
  apart : ∀ a b, a ≠ b → 0 < bytesOf asm source a → 0 < bytesOf asm source b →
    Apart (startOf asm source) (bytesOf asm source) a b

section Decidability

/-- The condition on blocks, at the lines that open a block and hold its first
bytes. -/
def OnceAt (asm : Assembler) (source : Text) (i j : Nat) : Prop :=
  let lines := sourceLines source
  let labels := (placedTables asm).labels
  let since := (lines.drop (i + 1)).take j
  ∀ entry ∈ lines[i]?, ∀ line ∈ (lines.drop (i + 1))[j]?, ∀ name ∈ (read entry).entered,
    (∀ l ∈ since, (read l).entered = none ∧ lineSize labels name l = 0) →
    0 < Place.bytesInto labels name Place.start (lines.take i) →
    (read line).entered = none → 0 < lineSize labels name line →
    (read entry = .legacyData ∧
      asm.pcText.toNat = (sectionOffset asm textName + sectionOffset asm rodataName).toNat +
        Place.bytesInto labels name Place.start (lines.take i)) ∧
      read (opener labels lines dataName) ≠ .legacyData

instance (asm : Assembler) (source : Text) (i j : Nat) : Decidable (OnceAt asm source i j) :=
  inferInstanceAs (Decidable (∀ _ ∈ _, ∀ _ ∈ _, ∀ _ ∈ _, _))

theorem once_iff : (∀ name (b : Block (sourceLines source) name),
      b.Returns (placedTables asm).labels → b.Follows asm source) ↔
    ∀ i < (sourceLines source).length, ∀ j < (sourceLines source).length,
      OnceAt asm source i j := by
  constructor
  · intro once i _ j _ entry opens line here name enters quiet earlier stays size
    rw [Option.mem_def] at opens here
    obtain ⟨front, rfl⟩ := List.getElem?_eq_some_iff.mp opens
    obtain ⟨back, rfl⟩ := List.getElem?_eq_some_iff.mp here
    let b : Block (sourceLines source) name :=
      { before := (sourceLines source).take i
        entry := (sourceLines source)[i]
        since := ((sourceLines source).drop (i + 1)).take j
        line := ((sourceLines source).drop (i + 1))[j]
        rest := ((sourceLines source).drop (i + 1)).drop (j + 1)
        split := by
          rw [← List.drop_eq_getElem_cons back, List.take_append_drop,
            ← List.drop_eq_getElem_cons front, List.take_append_drop]
        enters
        stays := fun l member => (quiet l member).1 }
    have follows := once name b
      { earlier, quiet := fun l member => (quiet l member).2, stays, size }
    exact ⟨follows.lucky, follows.other⟩
  · rintro checked name ⟨before, entry, since, line, rest, split, enters, stays⟩ returns
    have front : (sourceLines source).take before.length = before := by
      rw [split]
      simp
    have behind : (sourceLines source).drop (before.length + 1) = since ++ line :: rest := by
      rw [split]
      simp
    have block : ((sourceLines source).drop (before.length + 1)).take since.length = since := by
      rw [behind]
      simp
    have length := congrArg List.length split
    simp only [List.length_append, List.length_cons] at length
    have follows := checked before.length (by omega) since.length (by omega) entry
      (by rw [split]; simp) line (by rw [behind]; simp) name enters
    rw [block, front] at follows
    obtain ⟨lucky, other⟩ := follows
      (fun l member => ⟨stays l member, returns.quiet l member⟩) returns.earlier
      returns.stays returns.size
    exact ⟨lucky, other⟩

instance (base size : Text → Nat) (a b : Text) : Decidable (Apart base size a b) :=
  inferInstanceAs (Decidable (_ ∨ _))

theorem blocksFit_iff : BlocksFit asm source ↔
    (∀ i < (sourceLines source).length, ∀ j < (sourceLines source).length,
      OnceAt asm source i j) ∧
    ∀ a ∈ sectionNames (sourceLines source), ∀ b ∈ sectionNames (sourceLines source),
      a ≠ b → 0 < bytesOf asm source a → 0 < bytesOf asm source b →
        Apart (startOf asm source) (bytesOf asm source) a b := by
  rw [← once_iff]
  constructor
  · rintro ⟨once, apart⟩
    exact ⟨once, fun a _ b _ => apart a b⟩
  · rintro ⟨once, apart⟩
    refine ⟨once, ?_⟩
    intro a b different someA someB
    exact apart a (mem_of_bytesOf someA) b (mem_of_bytesOf someB) different someA someB

instance (asm : Assembler) (source : Text) : Decidable (BlocksFit asm source) :=
  decidable_of_iff' _ blocksFit_iff

end Decidability

/-- Every block of a section goes on behind the bytes of the section, no byte
is overwritten, and the image is that of the lines grouped by section. -/
structure SectionsAppend (asm : Assembler) (source : Text) (final : Pass2) : Prop where
  appends : ∀ name (b : Block (sourceLines source) name), b.Appends (placedTables asm)
  kept : final.out.positions.Nodup
  together : ∃ st, run (secondPassLine (placedTables asm)) Pass2.init
      (grouped (placedTables asm).labels (sourceLines source)) = .done st ∧
    st.out.image = final.out.image

variable (produced : firstPass Assembler.init source = .done asm)

include produced

theorem startOf_text : startOf asm source textName = 0 := by
  have member : textName ∈ sectionNames (sourceLines source) := mem_sectionNames.mpr (.inl rfl)
  obtain ⟨t, d, foundText, baseText, _, _⟩ := find?_legacy produced
  have enters := entered_opener (placedTables asm).labels member
  rw [startOf, startAddr]
  cases opened : read (opener (placedTables asm).labels (sourceLines source) textName) with
  | skipped | content | legacyData =>
      rw [opened] at enters
      cases enters
  | legacyText => rfl
  | named other =>
      rw [opened] at enters
      cases enters
      rw [openingAddr, foundText, Option.map_some, Option.getD_some, baseText]
      rfl

theorem startOf_data (member : dataName ∈ sectionNames (sourceLines source))
    (other : read (opener (placedTables asm).labels (sourceLines source) dataName) ≠
      .legacyData) :
    startOf asm source dataName =
      (sectionOffset asm textName + sectionOffset asm rodataName).toNat := by
  obtain ⟨t, d, _, _, foundData, baseData⟩ := find?_legacy produced
  have enters := entered_opener (placedTables asm).labels member
  rw [startOf, startAddr]
  cases opened : read (opener (placedTables asm).labels (sourceLines source) dataName) with
  | skipped | content | legacyText =>
      rw [opened] at enters
      cases enters
  | legacyData => exact absurd opened other
  | named name =>
      rw [opened] at enters
      cases enters
      rw [openingAddr, foundData, Option.map_some, Option.getD_some, baseData]

/-- Before the first section line the pass stands behind the bytes of `.text`. -/
theorem position_of_stays {front : List Text} (stays : ∀ l ∈ front, (read l).entered = none) :
    (openingAddr (placedTables asm) (Place.lastOpening front)).toNat +
        (Place.start.after (placedTables asm).labels front).written =
      startOf asm source (Place.sectionAfter front) +
        Place.bytesInto (placedTables asm).labels (Place.sectionAfter front) Place.start front := by
  have place : Place.start.after (placedTables asm).labels front = _ :=
    Place.after_stays stays
  have current : Place.sectionAfter front = textName := by
    rw [← Place.name_after (placedTables asm).labels, place]
    rfl
  have opening : Place.lastOpening front = .legacyText := by
    rw [← Place.opening_after (placedTables asm).labels, place]
    rfl
  have bytes : Place.bytesInto (placedTables asm).labels textName Place.start front = _ :=
    Place.bytesInto_stays (placedTables asm).labels stays (p := Place.start)
  rw [current, opening, startOf_text produced, bytes, place]
  show 0 + (0 + _) = _
  rw [Nat.zero_add]

omit produced in
/-- The block of the first byte of a section begins where the section starts. -/
theorem startOf_first {name entry first : Text} {before quiet others : List Text}
    (split : sourceLines source = before ++ entry :: (quiet ++ first :: others))
    (enters : (read entry).entered = some name) (stays : ∀ l ∈ quiet, (read l).entered = none)
    (silent : ∀ l ∈ quiet, lineSize (placedTables asm).labels name l = 0)
    (some : lineSize (placedTables asm).labels name first ≠ 0)
    (earlier : Place.bytesInto (placedTables asm).labels name Place.start before = 0) :
    startOf asm source name = (openingAddr (placedTables asm) (read entry)).toNat := by
  have none : Place.bytesInto (placedTables asm).labels name Place.start
      (before ++ entry :: quiet) = 0 := by
    rw [Place.bytesInto_block _ enters stays, earlier, Nat.zero_add, List.sum_eq_zero_iff]
    simpa using silent
  have opens := Place.FirstIn.read_opener
    { split := by rw [split]; simp
      here := Place.sectionAfter_block enters stays
      none, size := some : Place.FirstIn (placedTables asm).labels name (sourceLines source)
        (before ++ entry :: quiet) first others }
  rw [Place.lastOpening_block enters stays] at opens
  rw [startOf, startAddr, opens]

/-- A later block that follows begins behind the bytes of its section. -/
theorem startOf_follows {name : Text} {b : Block (sourceLines source) name}
    (follows : b.Follows asm source) :
    (openingAddr (placedTables asm) (read b.entry)).toNat =
      startOf asm source name +
        Place.bytesInto (placedTables asm).labels name Place.start b.before := by
  obtain ⟨⟨legacy, address⟩, other⟩ := follows
  have data : name = dataName := by
    have enters := b.enters
    rw [legacy] at enters
    exact (Option.some.inj enters).symm
  subst data
  have member : dataName ∈ sectionNames (sourceLines source) := by
    rw [b.split, mem_sectionNames]
    exact .inr ⟨b.entry, by simp, b.enters⟩
  rw [legacy, startOf_data produced member other]
  exact address

/-- In blocks that fit, every line with bytes has its place in its section. -/
theorem steady_of_once (once : ∀ name (b : Block (sourceLines source) name),
    b.Returns (placedTables asm).labels → b.Follows asm source) :
    Steady asm source := by
  intro front line rest split size
  rcases Place.exists_last_entry front with stays |
    ⟨before, entry, since, name, whole, enters, stays⟩
  · exact position_of_stays produced stays
  · have current : Place.sectionAfter front = name := by
      rw [whole, Place.sectionAfter_block enters stays]
    rw [current] at size ⊢
    rw [whole, Place.lastOpening_block enters stays, Place.after_block _ enters stays,
      Place.bytesInto_block _ enters stays]
    obtain ⟨quiet, first, others, lines, silent, some⟩ :=
      Place.exists_first_size since rest size
    have quietStays : ∀ l ∈ quiet, (read l).entered = none :=
      fun l member => stays l (silent l member).1
    have split : sourceLines source = before ++ entry :: (quiet ++ first :: others) := by
      rw [split, whole, ← lines]
      simp
    by_cases earlier : Place.bytesInto (placedTables asm).labels name Place.start before = 0
    · rw [startOf_first split enters quietStays (fun l member => (silent l member).2) some
        earlier, earlier, Nat.zero_add]
    · let b : Block (sourceLines source) name :=
        { before, entry, since := quiet, line := first, rest := others, split, enters
          stays := quietStays }
      have follows := once name b
        { earlier := Nat.pos_of_ne_zero earlier
          quiet := fun l member => (silent l member).2
          stays := Place.not_entered_of_size some
          size := Nat.pos_of_ne_zero some }
      rw [← Nat.add_assoc]
      exact congrArg (· + _) (startOf_follows produced follows)

/-- What a line with bytes writes, and where. -/
theorem positions_of_line {front rest : List Text} {line : Text} {st st' : Pass2}
    (split : sourceLines source = front ++ line :: rest)
    (size : lineSize (placedTables asm).labels (Place.sectionAfter front) line ≠ 0)
    (reached : run (secondPassLine (placedTables asm)) Pass2.init front = .done st)
    (stepped : secondPassLine (placedTables asm) st line = .done st') :
    st'.out.positions = st.out.positions ++ List.range'
      ((openingAddr (placedTables asm) (Place.lastOpening front)).toNat +
        (Place.start.after (placedTables asm).labels front).written)
      (lineSize (placedTables asm).labels (Place.sectionAfter front) line) := by
  obtain ⟨here, _⟩ := at_of_reached produced split reached
  obtain ⟨sec, found, typed⟩ := here.known
  rw [← here.name] at found typed
  obtain ⟨bytes, length, rfl⟩ := emitted_line found typed (Place.not_entered_of_size size) stepped
  rw [here.name, Place.name_after] at length
  show (st.out.fwrite bytes).positions = _
  rw [OutFile.fwrite_positions, here.pos, Place.opening_after, length]

omit produced in
theorem positions_of_run {asm : Assembler} {lines : List Text} {st st' : Pass2}
    (finished : run (secondPassLine asm) st lines = .done st') :
    st.out.positions <+: st'.out.positions := by
  refine run_invariant (I := fun t => st.out.positions <+: t.out.positions) ?_
    List.prefix_rfl finished
  intro t t' line _ longer stepped
  refine longer.trans ?_
  cases enters : (read line).entered with
  | some name =>
      rw [OutFile.positions, OutFile.positions, writes_of_entered enters stepped]
  | none =>
      obtain ⟨bytes, rfl, _⟩ := repeats_line enters stepped
      show t.out.positions <+: (t.out.fwrite bytes).positions
      rw [OutFile.fwrite_positions]
      exact List.prefix_append ..

variable {final : Pass2}
  (assembled : secondPass (placedTables asm) source = .done final)

include assembled

/-- Two lines that begin at the same position spoil each other. -/
theorem positions_ne (kept : final.out.positions.Nodup)
    {front mid rest : List Text} {line line' : Text}
    (split : sourceLines source = front ++ line :: (mid ++ line' :: rest))
    (size : lineSize (placedTables asm).labels (Place.sectionAfter front) line ≠ 0)
    (size' : lineSize (placedTables asm).labels
      (Place.sectionAfter (front ++ line :: mid)) line' ≠ 0) :
    (openingAddr (placedTables asm) (Place.lastOpening front)).toNat +
        (Place.start.after (placedTables asm).labels front).written ≠
      (openingAddr (placedTables asm) (Place.lastOpening (front ++ line :: mid))).toNat +
        (Place.start.after (placedTables asm).labels (front ++ line :: mid)).written := by
  intro same
  have split' : sourceLines source = (front ++ line :: mid) ++ line' :: rest := by
    rw [split]
    simp
  rw [secondPass, split'] at assembled
  obtain ⟨t, reached', behind⟩ := run_append_eq_done.mp assembled
  obtain ⟨t', stepped', rest'⟩ := run_cons_eq_done.mp behind
  obtain ⟨s, reached, between⟩ := run_append_eq_done.mp reached'
  obtain ⟨s', stepped, through⟩ := run_cons_eq_done.mp between
  have first := positions_of_line produced split size reached stepped
  have second := positions_of_line produced split' size' reached' stepped'
  rw [← same] at second
  generalize (openingAddr (placedTables asm) (Place.lastOpening front)).toNat +
    (Place.start.after (placedTables asm).labels front).written = p at first second
  have head {n : Nat} (some : n ≠ 0) : p ∈ List.range' p n :=
    List.mem_range'_1.mpr ⟨le_refl p, Nat.lt_add_of_pos_right (Nat.pos_of_ne_zero some)⟩
  have inFirst : p ∈ s'.out.positions := by
    rw [first]
    exact List.mem_append_right _ (head size)
  have before : p ∈ t.out.positions := (positions_of_run through).subset inFirst
  have once : t'.out.positions.Nodup := (positions_of_run rest').sublist.nodup kept
  rw [second] at once
  exact (List.nodup_append.mp once).2.2 p before p (head size') rfl

theorem follows_of_kept (appends : ∀ name (b : Block (sourceLines source) name),
      b.Appends (placedTables asm))
    (kept : final.out.positions.Nodup) {name : Text} (b : Block (sourceLines source) name)
    (returns : b.Returns (placedTables asm).labels) : b.Follows asm source := by
  have lucky := (appends_iff produced assembled b).mp (appends name b) returns
  refine ⟨lucky, ?_⟩
  intro legacy
  obtain ⟨entry, _⟩ := lucky
  have data : name = dataName := by
    have enters := b.enters
    rw [entry] at enters
    exact (Option.some.inj enters).symm
  subst data
  -- The first byte of `.data` stands at `pc_text`, and so does that of the block.
  obtain ⟨front, line, rest, first⟩ := Place.exists_first returns.earlier.ne'
  have whole : sourceLines source =
      front ++ line :: ((rest ++ b.entry :: b.since) ++ b.line :: b.rest) := by
    refine b.split.trans ?_
    rw [first.split]
    simp
  have opens := Place.FirstIn.read_opener
    { split := whole, here := first.here, none := first.none, size := first.size :
      Place.FirstIn (placedTables asm).labels dataName (sourceLines source) front line _ }
  rw [legacy] at opens
  have here : front ++ line :: (rest ++ b.entry :: b.since) = b.before ++ b.entry :: b.since := by
    rw [first.split]
    simp
  have size' : lineSize (placedTables asm).labels
      (Place.sectionAfter (front ++ line :: (rest ++ b.entry :: b.since))) b.line ≠ 0 := by
    rw [here, Place.sectionAfter_block b.enters b.stays]
    exact returns.size.ne'
  have size : lineSize (placedTables asm).labels (Place.sectionAfter front) line ≠ 0 := by
    rw [first.here]
    exact first.size
  apply positions_ne produced assembled kept whole size size'
  have written := Place.written_le (placedTables asm).labels front Place.start
  rw [Place.name_after, first.here, first.none] at written
  have none : (Place.start.after (placedTables asm).labels front).written = 0 := by
    have start : Place.start.written = 0 := rfl
    rw [start, ite_self] at written
    omega
  have quiet : (b.since.map (lineSize (placedTables asm).labels dataName)).sum = 0 := by
    rw [List.sum_eq_zero_iff]
    simpa using returns.quiet
  rw [here, Place.lastOpening_block b.enters b.stays, Place.after_block _ b.enters b.stays,
    ← opens, none, entry, quiet]

/-- A source grows its sections without a loss exactly when its blocks fit
together. -/
theorem sectionsAppend_iff : SectionsAppend asm source final ↔ BlocksFit asm source := by
  have whole : sourceLines source = sourceLines source ++ [] := (List.append_nil _).symm
  constructor
  · rintro ⟨appends, kept, _⟩
    have once : ∀ name (b : Block (sourceLines source) name), _ → b.Follows asm source :=
      fun name b returns => follows_of_kept produced assembled appends kept b returns
    obtain ⟨stream, streams⟩ :=
      exists_streams produced (steady_of_once produced once) whole assembled
    exact ⟨once, streams.nodup_iff.mp kept⟩
  · rintro ⟨once, apart⟩
    obtain ⟨stream, streams⟩ :=
      exists_streams produced (steady_of_once produced once) whole assembled
    have kept := streams.nodup_iff.mpr apart
    refine ⟨?_, kept, ?_⟩
    · intro name b
      exact (appends_iff produced assembled b).mpr fun returns => (once name b returns).lucky
    · obtain ⟨st, passed, writes⟩ :=
        streams.run_grouped produced (List.Subset.refl _) Pass2.init
      have same : final.out.writes.Perm st.out.writes := by
        rw [writes]
        exact streams.writes
      exact ⟨st, passed, (OutFile.image_eq_of_perm same kept).symm⟩

omit produced assembled in
/-- A source that comes back to `.text` for a label, and writes `.rodata` behind
`.data`. -/
theorem sectionsAppend_iff_label :
    let source : Text :=
      ".text\nnop\n.section .data\n.byte 1\n.text\nend:\n.rodata\n.byte 2\n".toList
    let asm := (firstPass Assembler.init source).last
    let final := (secondPass (placedTables asm) source).last
    firstPass Assembler.init source = .done asm ∧
      secondPass (placedTables asm) source = .done final ∧ SectionsAppend asm source final := by
  intro source asm final
  have produced : firstPass Assembler.init source = .done asm := by
    decide +kernel
  have assembled : secondPass (placedTables asm) source = .done final := by
    decide +kernel
  have fit : BlocksFit asm source := by
    decide +kernel
  exact ⟨produced, assembled, (sectionsAppend_iff produced assembled).mpr fit⟩

omit produced assembled in
/-- The second block of `.data` writes over the byte of the first one. -/
theorem not_sectionsAppend_second_data :
    let source : Text := ".data\n.byte 1\n.text\nnop\n.data\n.byte 2\n".toList
    let asm := (firstPass Assembler.init source).last
    let final := (secondPass (placedTables asm) source).last
    firstPass Assembler.init source = .done asm ∧
      secondPass (placedTables asm) source = .done final ∧
      (1, 4) ∈ final.out.writes ∧ (2, 4) ∈ final.out.writes ∧
      (∃ b : Block (sourceLines source) dataName, ¬ b.Appends (placedTables asm)) ∧
      ¬ final.out.positions.Nodup ∧ ¬ SectionsAppend asm source final := by
  intro source asm final
  let b : Block (sourceLines source) dataName :=
    { before := (sourceLines source).take 4
      entry := ".data\n".toList
      since := []
      line := ".byte 2\n".toList
      rest := []
      split := by decide +kernel
      enters := by decide +kernel
      stays := by simp }
  have outcomes : firstPass Assembler.init source = .done asm ∧
      secondPass (placedTables asm) source = .done final ∧
        (1, 4) ∈ final.out.writes ∧ (2, 4) ∈ final.out.writes ∧
          ¬ final.out.positions.Nodup := by
    decide +kernel
  obtain ⟨produced, assembled, first, second, twice⟩ := outcomes
  refine ⟨produced, assembled, first, second, ⟨b, ?_⟩, twice, fun keeps => twice keeps.kept⟩
  intro appends
  let s := (run (secondPassLine (placedTables asm)) Pass2.init b.before).last
  let st := (run (secondPassLine (placedTables asm)) s (b.entry :: b.since)).last
  have reached : run (secondPassLine (placedTables asm)) Pass2.init b.before = .done s ∧
      run (secondPassLine (placedTables asm)) s (b.entry :: b.since) = .done st ∧
        st.out.writes = s.out.writes ∧
          (secondPassLine (placedTables asm) st b.line).last.out.writes ≠ st.out.writes ∧
            0 < emittedInto (placedTables asm) dataName Pass2.init b.before := by
    decide +kernel
  obtain ⟨before, block, silent, writes, earlier⟩ := reached
  obtain ⟨sec, found, pos⟩ := appends s st before block silent writes earlier
  have place : (placedTables asm).sections.find? dataName =
      some { name := dataName, type := .data, offset := 2, baseAddr := 4 } := by
    decide +kernel
  rw [Option.mem_def, place] at found
  cases found
  revert pos
  decide +kernel

end Blocks

end RiscvPack.Asm
