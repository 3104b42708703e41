import RiscvPack.Assembler.DataLines
import RiscvPack.Assembler.LabelReferences
import RiscvPack.Emulator.Provenance

/-!
# Data in the emulator

What the data directives behind a label stand for is in the memory of the
emulator at the address of the label, until the program itself writes there:
the two passes, the output file and the loader agree on where data is.
-/

namespace RiscvPack.Asm

open CString Runs Files
open SourceLine (read)
open Emulator (Machine Host boot)

section Image

variable {source : Text} {asm : Assembler} {final : Pass2}

theorem writes_grow (produced : firstPass Assembler.init source = .done asm)
    {front lines rest : List Text} {st st' : Pass2}
    (split : sourceLines source = front ++ (lines ++ rest))
    (reached : run (secondPassLine (placedTables asm)) Pass2.init front = .done st)
    (ran : run (secondPassLine (placedTables asm)) st lines = .done st') :
    st.out.writes <+: st'.out.writes := by
  induction lines generalizing front st with
  | nil =>
      cases ran
      exact List.prefix_refl _
  | cons line lines induction =>
      obtain ⟨next, stepped, ran⟩ := run_cons_eq_done.mp ran
      have here := (at_of_reached produced split reached).1
      have step : st.out.writes <+: next.out.writes := by
        cases enters : (read line).entered with
        | some name =>
            rw [writes_of_entered enters stepped]
        | none =>
            obtain ⟨sec, found, typed⟩ := here.known
            rw [← here.name] at found typed
            obtain ⟨bytes, _, rfl⟩ := emitted_line found typed enters stepped
            exact List.prefix_append _ _
      have reached' : run (secondPassLine (placedTables asm)) Pass2.init (front ++ [line]) =
          .done next :=
        run_append_eq_done.mpr ⟨st, reached, run_cons_eq_done.mpr ⟨next, stepped, rfl⟩⟩
      exact step.trans (induction (by rw [split]; simp) reached' ran)

variable (shape : TextAndData (sourceLines source))
  (produced : firstPass Assembler.init source = .done asm)
  (assembled : secondPass (placedTables asm) source = .done final)
  (fits : final.out.writes.length < 2 ^ 32)

include shape produced assembled fits

/-- The name of a label is found with the position at which its line is
written. -/
theorem findLabel_of_line {front rest : List Text} {line name : Text} {st : Pass2}
    (split : sourceLines source = front ++ line :: rest) (label : lineLabel line = some name)
    (reached : run (secondPassLine (placedTables asm)) Pass2.init front = .done st) :
    findLabel (placedTables asm).labels name = .ok (BitVec.ofNat 32 st.out.pos) ∧
      st.out.pos < 2 ^ 32 := by
  obtain ⟨pos, _, small⟩ := position_of_content shape produced assembled split
    (hasContent_of_lineLabel label) fits reached
  obtain ⟨sec, found, base⟩ := find?_baseOf shape produced assembled split
  let recorded : Label :=
    { name
      addr := BitVec.ofNat 32 (Place.bytesInto (placedTables asm).labels
        (Place.sectionAfter front) Place.start front)
      sectionName := Place.sectionAfter front }
  have member : recorded ∈ asm.labels := by
    rw [(lock_of_produced produced assembled shape).recorded, split, recorded_append]
    apply List.mem_append_right
    apply List.mem_append_left
    rw [labelAt, label]
    exact List.mem_singleton_self _
  have adjusted : adjustLabel (placedTables asm).sections recorded =
      { recorded with addr := BitVec.ofNat 32 st.out.pos } := by
    rw [adjustLabel, found]
    simp only [base]
    rw [pos, Nat.add_comm, BitVec.ofNat_add]
  have placed : { recorded with addr := BitVec.ofNat 32 st.out.pos } ∈
      (placedTables asm).labels := by
    rw [← adjusted]
    exact List.mem_map_of_mem member
  have distinct := names_distinct produced
  rw [← names_placed] at distinct
  exact ⟨findLabel_of_distinct distinct placed, small⟩

/-- Data behind a label is in the output file at the address under which the
label is found. -/
theorem data_in_image {front lines rest : List Text} {line name : Text} {bytes : List Byte}
    (split : sourceLines source = front ++ line :: (lines ++ rest))
    (label : lineLabel line = some name) (inData : Place.sectionAfter front = dataName)
    (data : DataBytes (line :: lines) bytes) :
    ∃ addr : Word, findLabel (placedTables asm).labels name = .ok addr ∧
      ∀ k b, bytes[k]? = some b → final.out.image[addr.toNat + k]? = some b := by
  have whole : sourceLines source = sourceLines source ++ [] :=
    (List.append_nil _).symm
  have once := (filled_of_reached shape produced assembled whole fits assembled).once
  obtain ⟨st, reached⟩ := reached_of_assembled assembled split
  obtain ⟨address, small⟩ :=
    findLabel_of_line shape produced assembled fits split label reached
  refine ⟨_, address, ?_⟩
  rw [BitVec.toNat_ofNat, Nat.mod_eq_of_lt small]
  have here := (at_of_reached produced split reached).1
  have typed : ((placedTables asm).sections.find? st.currentSectionName).map (·.type) =
      some .data := by
    obtain ⟨sec, found, typed⟩ := here.known
    rw [← here.name] at found typed
    rw [found, Option.map_some, typed, here.name, Place.name_after, inData]
    rfl
  have short : ∀ l ∈ line :: lines, l.length < maxLine := by
    intro l member
    have here : l ∈ sourceLines source := by
      rw [split, ← List.cons_append]
      exact List.mem_append_right _ (List.mem_append_left _ member)
    exact length_sourceLines here
  have written := run_secondPass_data typed short data
  have reached' : run (secondPassLine (placedTables asm)) Pass2.init (front ++ line :: lines) =
      .done (st.emit bytes) :=
    run_append_eq_done.mpr ⟨st, reached, written⟩
  have split' : sourceLines source = (front ++ line :: lines) ++ (rest ++ []) := by
    rw [split]
    simp
  have ran : run (secondPassLine (placedTables asm)) (st.emit bytes) rest = .done final := by
    rw [secondPass, split', List.append_nil] at assembled
    obtain ⟨st', earlier, ran⟩ := run_append_eq_done.mp assembled
    rw [reached'] at earlier
    cases earlier
    exact ran
  have grown := writes_grow produced split' reached' ran
  intro k b found
  apply OutFile.image_of_mem once
  apply grown.subset
  apply List.mem_append_right
  rw [List.mk_mem_zipIdx_iff_le_and_getElem?_sub]
  refine ⟨Nat.le_add_right _ _, ?_⟩
  rw [Nat.add_sub_cancel_left, found]

end Image

theorem loadWord_of_bytes {mem : Word → Byte} {a w : Word}
    (stands : ∀ k b, (Bits.leBytes w)[k]? = some b → mem (a + BitVec.ofNat 32 k) = b) :
    Isa.LoadOp.lw.value mem a = w := by
  have zeroth := stands 0 _ rfl
  rw [BitVec.add_zero] at zeroth
  have first : mem (a + 1) = _ := stands 1 _ rfl
  have second : mem (a + 2) = _ := stands 2 _ rfl
  have third : mem (a + 3) = _ := stands 3 _ rfl
  rw [Isa.LoadOp.value, zeroth, first, second, third, Bits.ofLeBytes_extract]

section Loaded

variable {source : Text} {asm : Assembler} {final : Pass2} {σ : Type} {h : Host σ} {host : σ}
  {base : Word} {m last : Machine σ} {n : Nat}

section Boot

variable {program bytes : List Byte} {addr : Word}

theorem toNat_of_boot (booted : boot host program base = some m)
    (placed : ∀ k b, bytes[k]? = some b → program[addr.toNat + k]? = some b) {k : Nat}
    (inside : k < bytes.length) :
    (base + addr + BitVec.ofNat 32 k).toNat = base.toNat + (addr.toNat + k) ∧
      base.toNat + (addr.toNat + k) < Emulator.memorySize.toNat := by
  have inImage : addr.toNat + k < program.length :=
    (List.getElem?_eq_some_iff.mp (placed k _ (List.getElem?_eq_getElem inside))).1
  obtain ⟨_, _, _, room⟩ := Machine.loaded_of_boot booted
  have size := Emulator.memorySize.isLt
  refine ⟨?_, by omega⟩
  rw [BitVec.add_assoc, BitVec.toNat_add, BitVec.toNat_add, BitVec.toNat_ofNat]
  omega

theorem byte_of_steps (bounded : h.Bounded) (booted : boot host program base = some m)
    (placed : ∀ k b, bytes[k]? = some b → program[addr.toNat + k]? = some b)
    (steps : Machine.Steps h n m last) {k : Nat} {b : Byte} (found : bytes[k]? = some b)
    (untouched : ¬ Machine.Written h m n (base + addr + BitVec.ofNat 32 k)) :
    last.mem.data (base + addr + BitVec.ofNat 32 k) = b := by
  have inside := (List.getElem?_eq_some_iff.mp found).1
  have loaded : m.mem.data (base + addr + BitVec.ofNat 32 k) = b := by
    rw [Machine.data_of_boot booted, Emulator.imageByte,
      (toNat_of_boot booted placed inside).1, if_pos (Nat.le_add_right _ _),
      Nat.add_sub_cancel_left, List.getD_eq_getElem?_getD, placed k b found]
    rfl
  rw [steps.unwritten bounded (Machine.holds_of_boot booted) untouched]
  exact loaded

end Boot

variable (shape : TextAndData (sourceLines source))
  (produced : firstPass Assembler.init source = .done asm)
  (assembled : secondPass (placedTables asm) source = .done final)
  (fits : final.out.writes.length < 2 ^ 32) (bounded : h.Bounded)
  (booted : boot host final.out.image base = some m)
  {front lines rest : List Text} {line name : Text} {bytes : List Byte}
  (split : sourceLines source = front ++ line :: (lines ++ rest))
  (label : lineLabel line = some name) (inData : Place.sectionAfter front = dataName)
  (data : DataBytes (line :: lines) bytes) (steps : Machine.Steps h n m last)

include shape produced assembled fits bounded booted split label inData data steps

/-- At the address under which an operand finds a label, behind the load
address, a run has the bytes that the lines from the label on stand for, as long
as it has not written them. -/
theorem labelled_data_loaded :
    ∃ addr : Word, findLabel (placedTables asm).labels name = .ok addr ∧
      ∀ k b, bytes[k]? = some b → ¬ Machine.Written h m n (base + addr + BitVec.ofNat 32 k) →
        last.mem.data (base + addr + BitVec.ofNat 32 k) = b := by
  obtain ⟨addr, address, placed⟩ :=
    data_in_image shape produced assembled fits split label inData data
  exact ⟨addr, address, fun k b found untouched =>
    byte_of_steps bounded booted placed steps found untouched⟩

/-- A load of an aligned word among them loads what the source has there. -/
theorem labelled_word_loads {before back : List Byte} {value : Word}
    (word : bytes = before ++ Bits.leBytes value ++ back) :
    ∃ addr : Word, findLabel (placedTables asm).labels name = .ok addr ∧
      ∀ rd rs1 offset, Isa.decode last.fetched = some (.load .lw rd rs1 offset) →
        Isa.Accessible last.mem.size.toNat 4 last.cpu.pc →
        last.cpu.regRead rs1 + offset = base + addr + BitVec.ofNat 32 before.length →
        (base + addr + BitVec.ofNat 32 before.length).toNat % 4 = 0 →
        (∀ k < 4, ¬ Machine.Written h m n (base + addr + BitVec.ofNat 32 (before.length + k))) →
        ∃ next, Machine.step h last = some (.ok, next) ∧
          next.arch = last.arch.writeNext rd value := by
  obtain ⟨addr, address, placed⟩ :=
    data_in_image shape produced assembled fits split label inData data
  refine ⟨addr, address, ?_⟩
  intro rd rs1 offset legal accessible target aligned untouched
  have keeps := steps.keeps bounded (Machine.holds_of_boot booted)
  have size : last.mem.size = Emulator.memorySize :=
    keeps.size.trans (Machine.loaded_of_boot booted).2.2.1
  have here (k : Nat) (below : k < 4) :
      bytes[before.length + k]? = (Bits.leBytes value)[k]? := by
    rw [word, List.append_assoc, List.getElem?_append_right (Nat.le_add_right _ _),
      Nat.add_sub_cancel_left, List.getElem?_append_left below]
  have stands : ∀ k b, (Bits.leBytes value)[k]? = some b →
      last.mem.data (base + addr + BitVec.ofNat 32 before.length + BitVec.ofNat 32 k) = b := by
    intro k b found
    have below : k < 4 := (List.getElem?_eq_some_iff.mp found).1
    rw [BitVec.add_assoc, ← BitVec.ofNat_add]
    exact byte_of_steps bounded booted placed steps ((here k below).trans found)
      (untouched k below)
  have effect : Isa.exec last.arch (.load .lw rd rs1 offset) =
      some (last.arch.writeNext rd value) := by
    have inside (k : Nat) (below : k < 4) : before.length + k < bytes.length := by
      rw [word, List.length_append, List.length_append, Bits.length_leBytes]
      omega
    have start := (toNat_of_boot booted placed (inside 0 (by decide))).1
    have stop := (toNat_of_boot booted placed (inside 3 (by decide))).2
    have reads : Isa.Accessible last.arch.size Isa.LoadOp.lw.width
        (last.arch.x.get rs1 + offset) := by
      show Isa.Accessible last.mem.size.toNat 4 (last.cpu.regRead rs1 + offset)
      rw [target, size]
      rw [Nat.add_zero] at start
      exact ⟨aligned, by omega⟩
    have loaded : Isa.LoadOp.lw.value last.arch.mem (last.arch.x.get rs1 + offset) = value := by
      show Isa.LoadOp.lw.value last.mem.data (last.cpu.regRead rs1 + offset) = value
      rw [target]
      exact loadWord_of_bytes stands
    simp only [Isa.exec]
    rw [if_pos reads, loaded]
  have ready : last.Fetchable :=
    { running := keeps.running.trans (Machine.running_of_boot booted)
      holds := by
        rw [size]
        decide
      accessible }
  obtain ⟨next, stepped, reaches⟩ :=
    Machine.step_ok h ready legal (fun overflow => overflow) effect
  exact ⟨next, stepped, reaches.arch⟩

end Loaded

section Instance

/-- Loads the word behind it. -/
def loadSource : Text := "lw a1, 4(zero)\n.data\nx:\n.word 258\n".toList

theorem lines_loadSource : sourceLines loadSource =
    ["lw a1, 4(zero)\n".toList] ++ ".data\n".toList :: ["x:\n".toList, ".word 258\n".toList] := by
  decide +kernel

theorem shape_loadSource : TextAndData (sourceLines loadSource) := by
  have load : TextItem "lw a1, 4(zero)".toList :=
    { plain := by decide
      li := fun named => absurd named (by decide) }
  have numeral : Numeral "258".toList 258 := .decimal (by decide) (by decide)
  have word : DataItem ".word 258".toList :=
    { list := fun _ _ _ => ⟨[.ofNumeral numeral (by simp [Canonical])], rfl⟩
      space := fun starts => absurd starts (by decide) }
  rw [lines_loadSource]
  apply textAndData_of_blocks
  · decide +kernel
  · decide +kernel
  · decide +kernel
  · intro line member
    rw [List.mem_singleton.mp member]
    exact textLine_of_item (s := "lw a1, 4(zero)".toList) (by decide +kernel)
      (by decide +kernel) load
  · intro line member
    rcases List.mem_pair.mp member with rfl | rfl
    · intro s i content item
      have read : read "x:\n".toList = .content "x:".toList := by decide +kernel
      rw [read] at content
      cases content
      cases item
    · exact dataLine_of_item (s := ".word 258".toList) (by decide +kernel)
        (by decide +kernel) word

theorem data_loadSource : DataBytes ["x:\n".toList, ".word 258\n".toList] [2, 1, 0, 0] := by
  let value := ListDirective.entryOfDigits "258".toList (by decide) (by decide)
  have text : ".word 258".toList = ListDirective.word.name ++ entriesText [value] := by
    decide +kernel
  have bytes : ([2, 1, 0, 0] : List Byte) =
      ([value].flatMap fun v => ListDirective.word.bytesOf v.value) ++ [] := by
    decide +kernel
  have item : lineItem ".word 258\n".toList = some ".word 258".toList := by decide +kernel
  rw [bytes]
  refine .blank (by decide +kernel) (by decide +kernel) (.directive item ?_ .nil)
  rw [text]
  exact .numerals .word (by decide +kernel) (fun byte => by cases byte)

theorem split_loadSource :
    sourceLines loadSource = ["lw a1, 4(zero)\n".toList, ".data\n".toList] ++
      "x:\n".toList :: ([".word 258\n".toList] ++ []) := lines_loadSource

theorem passes_loadSource :
    ∃ asm final, firstPass Assembler.init loadSource = .done asm ∧
      secondPass (placedTables asm) loadSource = .done final ∧
      final.out.writes.length < 2 ^ 32 ∧
      final.out.image = [0x83, 0x25, 0x40, 0x00, 2, 1, 0, 0] ∧
      findLabel (placedTables asm).labels ['x'] = .ok 4 := by
  let asm := (firstPass Assembler.init loadSource).last
  exact ⟨asm, (secondPass (placedTables asm) loadSource).last, by decide +kernel⟩

/-- Loaded at 64, the program loads a zero, and the word is where it was. -/
theorem labelled_data_loaded_word :
    ∃ asm final m last, firstPass Assembler.init loadSource = .done asm ∧
      secondPass (placedTables asm) loadSource = .done final ∧
      boot () final.out.image 64 = some m ∧ Machine.Steps Host.inert 1 m last ∧
      ∃ addr : Word, findLabel (placedTables asm).labels ['x'] = .ok addr ∧
        ∀ k b, ([2, 1, 0, 0] : List Byte)[k]? = some b →
          ¬ Machine.Written Host.inert m 1 (64 + addr + BitVec.ofNat 32 k) →
            last.mem.data (64 + addr + BitVec.ofNat 32 k) = b := by
  obtain ⟨asm, final, produced, assembled, fits, image, _⟩ := passes_loadSource
  have ran : ((boot () final.out.image 64).bind (Machine.step Host.inert)).map (·.1) =
      some .ok := by
    rw [image]
    decide
  obtain ⟨⟨status, last⟩, found, ok⟩ := Option.map_eq_some_iff.mp ran
  obtain ⟨m, booted, stepped⟩ := Option.bind_eq_some_iff.mp found
  cases ok
  have steps : Machine.Steps Host.inert 1 m last := .next stepped (.refl last)
  exact ⟨asm, final, m, last, produced, assembled, booted, steps,
    labelled_data_loaded shape_loadSource produced assembled fits Machine.bounded_inert booted
      split_loadSource (by decide +kernel) (by decide +kernel) data_loadSource steps⟩

/-- Loaded at zero, it loads the word. -/
theorem labelled_word_loads_word :
    ∃ asm final m, firstPass Assembler.init loadSource = .done asm ∧
      secondPass (placedTables asm) loadSource = .done final ∧
      boot () final.out.image 0 = some m ∧
      ∃ next, Machine.step Host.inert m = some (.ok, next) ∧
        next.arch = m.arch.writeNext 11 258 := by
  obtain ⟨asm, final, produced, assembled, fits, image, address⟩ := passes_loadSource
  have outcome : (boot () final.out.image 0).map (·.fetched) = some 0x00402583 := by
    rw [image]
    decide
  obtain ⟨m, booted, fetched⟩ := Option.map_eq_some_iff.mp outcome
  obtain ⟨_, cpu, size, _⟩ := Machine.loaded_of_boot booted
  have label : lineLabel "x:\n".toList = some ['x'] := by decide +kernel
  have word : ([2, 1, 0, 0] : List Byte) = [] ++ Bits.leBytes 258 ++ [] := by decide
  obtain ⟨addr, found, loads⟩ :=
    labelled_word_loads shape_loadSource produced assembled fits Machine.bounded_inert booted
      split_loadSource label (by decide +kernel) data_loadSource (.refl m) word
  rw [address] at found
  cases found
  have fetches : Isa.Accessible m.mem.size.toNat 4 m.cpu.pc := by
    rw [size, cpu]
    decide
  have legal : Isa.decode m.fetched = some (.load .lw 11 0 4) := by
    rw [fetched]
    decide
  exact ⟨asm, final, m, produced, assembled, booted,
    loads 11 0 4 legal fetches rfl (by decide) fun k _ written => by
      obtain ⟨_, _, _, never, _⟩ := written
      cases never⟩

end Instance

end RiscvPack.Asm
