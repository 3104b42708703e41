import RiscvPack.Assembler.Lines
import RiscvPack.Assembler.Layout

/-!
# Where the second pass stands

The sections a source enters cut it into blocks.  `place` reads off the text
which block a line belongs to and how many bytes the block has so far;
`At.run` says that the second pass then stands that many bytes behind the
address at which the block was entered.
-/

namespace RiscvPack.Asm

open CString Runs Files
open SourceLine (read)

/-- A place between two lines: the section, the line that entered it and the
bytes since then. -/
structure Place where
  name : Text
  opening : SourceLine
  written : Nat
  deriving DecidableEq, Repr

namespace Place

variable (labels : List Label)

/-- The pass starts as if after a plain `.text`. -/
def start : Place where
  name := textName
  opening := .legacyText
  written := 0

def next (p : Place) (line : Text) : Place :=
  match (read line).entered with
  | some name => { name, opening := read line, written := 0 }
  | none => { p with written := p.written + lineSize labels p.name line }

/-- The place after some lines. -/
def after (p : Place) (lines : List Text) : Place := lines.foldl (next labels) p

/-- The bytes that lines put into a section. -/
def bytesInto (name : Text) : Place → List Text → Nat
  | _, [] => 0
  | p, line :: rest =>
      (if p.name = name then lineSize labels name line else 0) +
        bytesInto name (p.next labels line) rest

variable {labels} {p : Place} {line name : Text}

theorem next_entered (enters : (read line).entered = some name) :
    p.next labels line = { name, opening := read line, written := 0 } := by
  simp only [next, enters]

theorem next_stays (stays : (read line).entered = none) :
    p.next labels line =
      { p with written := p.written + lineSize labels p.name line } := by
  simp only [next, stays]

theorem after_append (p : Place) (front back : List Text) :
    p.after labels (front ++ back) = (p.after labels front).after labels back :=
  List.foldl_append

theorem after_cons (p : Place) (line : Text) (rest : List Text) :
    p.after labels (line :: rest) = (p.next labels line).after labels rest := rfl

/-- The line that opened the block in which some lines end. -/
def lastOpening (lines : List Text) : SourceLine :=
  lines.foldl
    (fun opening line =>
      if (read line).entered.isSome then read line else opening)
    .legacyText

theorem opening_after (labels : List Label) (lines : List Text) :
    (start.after labels lines).opening = lastOpening lines := by
  have general (p : Place) : (p.after labels lines).opening =
      lines.foldl
        (fun opening line =>
          if (read line).entered.isSome then read line else opening)
        p.opening := by
    induction lines generalizing p with
    | nil => rfl
    | cons line lines induction =>
        rw [after_cons, induction, List.foldl_cons]
        cases enters : (read line).entered with
        | none =>
            rw [next_stays enters]
            rfl
        | some name =>
            rw [next_entered enters]
            rfl
  exact general start

theorem opening_entered (labels : List Label) (lines : List Text) :
    (start.after labels lines).opening.entered =
      some (start.after labels lines).name := by
  have general (p : Place) (enters : p.opening.entered = some p.name) :
      (p.after labels lines).opening.entered = some (p.after labels lines).name := by
    induction lines generalizing p with
    | nil => exact enters
    | cons line lines induction =>
        apply induction
        cases opened : (read line).entered with
        | none =>
            rw [next_stays opened]
            exact enters
        | some name =>
            rw [next_entered opened]
            exact opened
  exact general start rfl

theorem after_stays {lines : List Text}
    (stays : ∀ l ∈ lines, (read l).entered = none) :
    p.after labels lines =
      { p with
        written := p.written + (lines.map (lineSize labels p.name)).sum } := by
  induction lines generalizing p with
  | nil => rfl
  | cons line lines induction =>
      have rest := fun l member => stays l (List.mem_cons_of_mem _ member)
      rw [after_cons, next_stays (stays line List.mem_cons_self), induction rest,
        List.map_cons, List.sum_cons, Nat.add_assoc]

theorem bytesInto_append (name : Text) (front back : List Text) (p : Place) :
    bytesInto labels name p (front ++ back) =
      bytesInto labels name p front +
        bytesInto labels name (p.after labels front) back := by
  induction front generalizing p with
  | nil => simp [bytesInto, after]
  | cons line front induction =>
      rw [List.cons_append, bytesInto, bytesInto, induction, after_cons,
        Nat.add_assoc]

/-- The section in which the line after some lines stands. -/
def sectionAfter (lines : List Text) : Text :=
  ((lastOpening lines).entered).getD textName

theorem name_after (labels : List Label) (lines : List Text) :
    (start.after labels lines).name = sectionAfter lines := by
  have entered := opening_entered labels lines
  rw [opening_after] at entered
  rw [sectionAfter, entered]
  rfl

/-- The bytes of the block a place stands in were put into its section. -/
theorem written_le (labels : List Label) (lines : List Text) (p : Place) :
    (p.after labels lines).written ≤
      bytesInto labels (p.after labels lines).name p lines +
        (if (p.after labels lines).name = p.name then p.written else 0) := by
  induction lines generalizing p with
  | nil =>
      show p.written ≤ 0 + if p.name = p.name then p.written else 0
      rw [if_pos rfl]
      omega
  | cons line lines induction =>
      have later := induction (p.next labels line)
      rw [after_cons, bytesInto]
      generalize (p.next labels line).after labels lines = q at later ⊢
      cases enters : (read line).entered with
      | some name =>
          rw [next_entered enters] at later ⊢
          simp only at later
          split at later
          · omega
          · omega
      | none =>
          rw [next_stays enters] at later ⊢
          simp only at later
          by_cases same : q.name = p.name
          · rw [if_pos same] at later ⊢
            rw [if_pos same.symm]
            rw [same] at later ⊢
            omega
          · rw [if_neg same] at later ⊢
            omega

section Ends

variable {front : List Text}

theorem sectionAfter_entered {name : Text} (enters : (read line).entered = some name) :
    sectionAfter (front ++ [line]) = name := by
  rw [← name_after [], after_append, after_cons, next_entered enters]
  rfl

theorem sectionAfter_stays (stays : (read line).entered = none) :
    sectionAfter (front ++ [line]) = sectionAfter front := by
  rw [← name_after [], ← name_after [], after_append, after_cons, next_stays stays]
  rfl

theorem lineSize_of_entered {name : Text} (enters : (read line).entered = some name)
    (key : Text) : lineSize labels key line = 0 := by
  unfold lineSize
  split
  · rename_i s content
    rw [content] at enters
    cases enters
  · rfl

theorem bytesInto_snoc (labels : List Label) (front : List Text) (line key : Text) :
    bytesInto labels key start (front ++ [line]) =
      bytesInto labels key start front +
        if sectionAfter front = key then lineSize labels key line else 0 := by
  rw [bytesInto_append, bytesInto, name_after]
  rfl

theorem bytesInto_entered {name : Text} (enters : (read line).entered = some name)
    (key : Text) :
    bytesInto labels key start (front ++ [line]) = bytesInto labels key start front := by
  rw [bytesInto_snoc, lineSize_of_entered enters]
  split <;> rfl

/-- The line with the first byte of a section. -/
structure FirstIn (labels : List Label) (name : Text) (lines front : List Text) (line : Text)
    (rest : List Text) : Prop where
  split : lines = front ++ line :: rest
  here : sectionAfter front = name
  none : bytesInto labels name start front = 0
  size : lineSize labels name line ≠ 0

theorem exists_first {lines : List Text} (some : bytesInto labels name start lines ≠ 0) :
    ∃ front line rest, FirstIn labels name lines front line rest := by
  induction lines using List.reverseRecOn with
  | nil => exact absurd rfl some
  | append_singleton front line induction =>
      rw [bytesInto_snoc] at some
      by_cases earlier : bytesInto labels name start front = 0
      · rw [earlier, Nat.zero_add] at some
        split at some
        · rename_i here
          exact ⟨front, line, [], rfl, here, earlier, some⟩
        · exact absurd rfl some
      · obtain ⟨before, l, rest, first⟩ := induction earlier
        exact ⟨before, l, rest ++ [line], by rw [first.split]; simp, first.here, first.none,
          first.size⟩

theorem not_entered_of_size {line : Text} (size : lineSize labels name line ≠ 0) :
    (read line).entered = none := by
  cases enters : (read line).entered with
  | none => rfl
  | some other => exact absurd (lineSize_of_entered enters name) size

/-- Some lines up to the last section line, and the lines after it. -/
theorem exists_last_entry (lines : List Text) :
    (∀ l ∈ lines, (read l).entered = none) ∨
      ∃ before entry since name, lines = before ++ entry :: since ∧
        (read entry).entered = some name ∧ ∀ l ∈ since, (read l).entered = none := by
  induction lines using List.reverseRecOn with
  | nil => exact .inl (by simp)
  | append_singleton front line induction =>
      cases enters : (read line).entered with
      | some name => exact .inr ⟨front, line, [], name, rfl, enters, by simp⟩
      | none =>
          rcases induction with all | ⟨before, entry, since, name, split, opened, stays⟩
          · left
            simpa [or_imp, forall_and, enters] using all
          · right
            refine ⟨before, entry, since ++ [line], name, by rw [split]; simp, opened, ?_⟩
            simpa [or_imp, forall_and, enters] using stays

/-- The bytes of a block are the bytes of its lines. -/
theorem bytesInto_stays (labels : List Label) {lines : List Text} {p : Place}
    (stays : ∀ l ∈ lines, (read l).entered = none) :
    bytesInto labels p.name p lines = (lines.map (lineSize labels p.name)).sum := by
  induction lines generalizing p with
  | nil => rfl
  | cons line lines induction =>
      have rest := induction (p := p.next labels line)
        fun l member => stays l (List.mem_cons_of_mem _ member)
      rw [next_stays (stays line List.mem_cons_self)] at rest
      rw [bytesInto, if_pos rfl, next_stays (stays line List.mem_cons_self), rest,
        List.map_cons, List.sum_cons]

theorem after_block (labels : List Label) {before since : List Text} {entry name : Text}
    (enters : (read entry).entered = some name)
    (stays : ∀ l ∈ since, (read l).entered = none) (p : Place) :
    p.after labels (before ++ entry :: since) =
      { name, opening := read entry, written := (since.map (lineSize labels name)).sum } := by
  rw [after_append, after_cons, next_entered enters, after_stays stays, Nat.zero_add]

theorem bytesInto_block (labels : List Label) {before since : List Text} {entry name : Text}
    (enters : (read entry).entered = some name)
    (stays : ∀ l ∈ since, (read l).entered = none) (p : Place) :
    bytesInto labels name p (before ++ entry :: since) =
      bytesInto labels name p before + (since.map (lineSize labels name)).sum := by
  have block := bytesInto_stays labels stays (p := { name, opening := read entry, written := 0 })
  rw [bytesInto_append, bytesInto, lineSize_of_entered enters, next_entered enters, block,
    ite_self, Nat.zero_add]

theorem lastOpening_block {before since : List Text} {entry name : Text}
    (enters : (read entry).entered = some name)
    (stays : ∀ l ∈ since, (read l).entered = none) :
    lastOpening (before ++ entry :: since) = read entry := by
  rw [← opening_after [], after_block [] enters stays]

theorem sectionAfter_block {before since : List Text} {entry name : Text}
    (enters : (read entry).entered = some name)
    (stays : ∀ l ∈ since, (read l).entered = none) :
    sectionAfter (before ++ entry :: since) = name := by
  rw [← name_after [], after_block [] enters stays]

theorem exists_first_size {labels : List Label} {name line : Text} (since rest : List Text)
    (size : lineSize labels name line ≠ 0) :
    ∃ quiet first others, since ++ line :: rest = quiet ++ first :: others ∧
      (∀ l ∈ quiet, l ∈ since ∧ lineSize labels name l = 0) ∧
      lineSize labels name first ≠ 0 := by
  induction since with
  | nil => exact ⟨[], line, rest, rfl, by simp, size⟩
  | cons l since induction =>
      by_cases empty : lineSize labels name l = 0
      · obtain ⟨quiet, first, others, split, silent, some⟩ := induction
        refine ⟨l :: quiet, first, others, by rw [List.cons_append, split]; rfl, ?_, some⟩
        intro l' member
        rcases List.mem_cons.mp member with rfl | later
        · exact ⟨List.mem_cons_self, empty⟩
        · exact ⟨List.mem_cons_of_mem _ (silent l' later).1, (silent l' later).2⟩
      · exact ⟨[], l, since ++ line :: rest, rfl, by simp, empty⟩

end Ends

end Place

section Position

/-- The address at which a section is entered. -/
def openingAddr (asm : Assembler) : SourceLine → Word
  | .legacyData => asm.pcText
  | .named name =>
      ((asm.sections.find? name).map (·.baseAddr)).getD 0
  | .legacyText | .skipped | .content _ => 0

/-- The section is in the table, with the type of its name. -/
def Known (asm : Assembler) (name : Text) : Prop :=
  ∃ sec, asm.sections.find? name = some sec ∧ sec.type = getSectionType name

/-- The second pass stands at a place. -/
structure At (asm : Assembler) (p : Place) (st : Pass2) : Prop where
  name : st.currentSectionName = p.name
  known : Known asm p.name
  pc : st.pc = openingAddr asm p.opening + BitVec.ofNat 32 p.written
  pos : st.out.pos = (openingAddr asm p.opening).toNat + p.written

variable {asm : Assembler} {p : Place} {st st' : Pass2}

theorem At.start (known : Known asm textName) : At asm Place.start Pass2.init where
  name := rfl
  known := known
  pc := rfl
  pos := rfl

theorem enter_line {line name : Text} (enters : (read line).entered = some name)
    (known : Known asm name) (st : Pass2) :
    secondPassLine asm st line = .done
      { currentSectionName := name
        pc := openingAddr asm (read line)
        out := st.out.seek (openingAddr asm (read line)).toNat } := by
  rw [secondPassLine_eq]
  cases opened : read line with
  | skipped | content =>
      rw [opened] at enters
      cases enters
  | legacyText | legacyData =>
      rw [opened] at enters
      cases enters
      rfl
  | named other =>
      rw [opened] at enters
      cases enters
      obtain ⟨sec, found, _⟩ := known
      simp only [secondPassRead, enterSection, openingAddr, found, Option.map_some,
        Option.getD_some]

theorem At.next (here : At asm p st) {line : Text}
    (known : ∀ name, (read line).entered = some name → Known asm name)
    (stepped : secondPassLine asm st line = .done st') :
    At asm (p.next asm.labels line) st' ∧
      st'.out.writes.length = st.out.writes.length +
        lineSize asm.labels p.name line := by
  cases enters : (read line).entered with
  | none =>
      obtain ⟨sec, found, typed⟩ := here.known
      rw [← here.name] at found typed
      obtain ⟨bytes, length, rfl⟩ := emitted_line found typed enters stepped
      rw [here.name] at length
      rw [Place.next_stays enters]
      refine ⟨⟨here.name, here.known, ?_, ?_⟩, ?_⟩
      · show st.pc + BitVec.ofNat 32 bytes.length = _
        rw [here.pc, length, BitVec.add_assoc, ← BitVec.ofNat_add]
      · show st.out.pos + bytes.length = _
        rw [here.pos, length, Nat.add_assoc]
      · show (st.out.fwrite bytes).writes.length = _
        simp [OutFile.fwrite, length]
  | some name =>
      rw [enter_line enters (known name enters)] at stepped
      cases stepped
      rw [Place.next_entered enters, Place.lineSize_of_entered enters]
      exact ⟨⟨rfl, known name enters, (BitVec.add_zero _).symm, rfl⟩, rfl⟩

/-- The bytes the second pass writes while it is in a section. -/
def emittedInto (asm : Assembler) (name : Text) : Pass2 → List Text → Nat
  | _, [] => 0
  | st, line :: rest =>
      let st' := (secondPassLine asm st line).last
      (if st.currentSectionName = name then
          st'.out.writes.length - st.out.writes.length
        else 0) + emittedInto asm name st' rest

theorem At.run (here : At asm p st) {lines : List Text}
    (known : ∀ line ∈ lines, ∀ name, (read line).entered = some name →
      Known asm name)
    (finished : run (secondPassLine asm) st lines = .done st') :
    At asm (p.after asm.labels lines) st' ∧
      ∀ name, emittedInto asm name st lines =
        Place.bytesInto asm.labels name p lines := by
  induction lines generalizing p st with
  | nil =>
      cases finished
      exact ⟨here, fun _ => rfl⟩
  | cons line lines induction =>
      obtain ⟨middle, stepped, rest⟩ := run_cons_eq_done.mp finished
      obtain ⟨there, growth⟩ := here.next (known line List.mem_cons_self) stepped
      obtain ⟨final, counts⟩ := induction there
        (fun l member => known l (List.mem_cons_of_mem _ member)) rest
      refine ⟨final, ?_⟩
      intro name
      rw [emittedInto, Place.bytesInto, stepped]
      simp only [Outcome.last]
      rw [counts name, here.name, growth, Nat.add_sub_cancel_left]
      split
      · rename_i same
        rw [same]
      · rfl

/-- What lines of one block write. -/
theorem At.emitted (here : At asm p st) {lines : List Text}
    (stays : ∀ line ∈ lines, (read line).entered = none)
    (finished : Runs.run (secondPassLine asm) st lines = .done st') :
    Emitted st ((lines.map (lineSize asm.labels p.name)).sum) st' := by
  induction lines generalizing p st with
  | nil =>
      cases finished
      exact .refl
  | cons line lines induction =>
      obtain ⟨middle, stepped, rest⟩ := run_cons_eq_done.mp finished
      have stay := stays line List.mem_cons_self
      obtain ⟨sec, found, typed⟩ := here.known
      rw [← here.name] at found typed
      have first := emitted_line found typed stay stepped
      have there := (here.next (by simp [stay]) stepped).1
      have others := induction there
        (fun l member => stays l (List.mem_cons_of_mem _ member)) rest
      rw [Place.next_stays stay] at others
      rw [here.name] at first
      rw [List.map_cons, List.sum_cons]
      exact first.trans others

end Position

end RiscvPack.Asm
