import RiscvPack.Lib.CString
import RiscvPack.Lib.CommandLine
import RiscvPack.Emulator.Provenance
import RiscvPack.Emulator.StepLimit

/-!
# The command line and the loader

`main.cpp` from its arguments on, and `Emulator::load_program`.  For a regular
file they come down to `boot` and the run loop.  A stream whose length `ftell`
cannot tell is the one case in which the loader can leave the memory.
-/

namespace RiscvPack.Emulator

open CString CommandLine

/-- A file open for reading: what `ftell` says at its end, and the bytes that
`fread` transfers of those it is asked for. -/
structure Stream where
  size : BitVec 64
  fread : BitVec 64 → List Byte
  bounded : ∀ count, (fread count).length ≤ count.toNat

/-- A file whose length is known. -/
def Stream.regular (bytes : List Byte) : Stream where
  size := BitVec.ofNat 64 bytes.length
  fread count := bytes.take count.toNat
  bounded count := List.length_take_le count.toNat bytes

/-- What `load_program` reports; everything but `loaded` is -1. -/
inductive LoadStatus where
  | loaded (size : Int)
  | cannotOpen
  | tooLarge
  | incomplete
  deriving DecidableEq

/-- `Emulator::load_program`, with `none` where the sum of the address and the
`long` overflows or `fread` writes beyond the memory. -/
def Memory.loadProgram (mem : Memory) (file : Option Stream) (loadAddress : Word) :
    Option (LoadStatus × Memory) :=
  match file with
  | none => some (.cannotOpen, mem)
  | some file =>
      let last := loadAddress.toNat + file.size.toInt
      if 2 ^ 63 ≤ last then none
      else if mem.size.toNat < last then some (.tooLarge, mem)
      else
        -- `fread` takes the length as a `size_t`.
        let bytes := file.fread file.size
        if mem.size.toNat < loadAddress.toNat + bytes.length then none
        else if bytes.length = file.size.toNat then
          some (.loaded file.size.toInt, mem.blit loadAddress bytes)
        else some (.incomplete, mem.blit loadAddress bytes)

section Loading

variable (mem : Memory) (loadAddress : Word)

theorem Stream.length_fread_le (file : Stream) (known : 0 ≤ file.size.toInt) :
    ((file.fread file.size).length : Int) ≤ file.size.toInt := by
  have bounded := file.bounded file.size
  rw [BitVec.toInt_eq_toNat_of_lt (BitVec.toInt_pos_iff.mp known)]
  omega

theorem Memory.loadProgram_eq_none_iff (file : Stream) :
    mem.loadProgram (some file) loadAddress = none ↔
      2 ^ 63 ≤ loadAddress.toNat + file.size.toInt ∨
        file.size.toInt < 0 ∧ loadAddress.toNat + file.size.toInt ≤ mem.size.toNat ∧
          mem.size.toNat < loadAddress.toNat + (file.fread file.size).length := by
  have small := mem.size.isLt
  unfold loadProgram
  dsimp only
  split
  · rename_i overflow
    exact iff_of_true rfl (.inl overflow)
  split
  · exact iff_of_false (by simp) (by omega)
  split
  · rename_i beyond
    refine iff_of_true rfl (.inr ⟨?_, by omega, beyond⟩)
    by_contra known
    have room := file.length_fread_le (by omega)
    omega
  · refine iff_of_false ?_ (by omega)
    split <;> simp

theorem Memory.data_blit_changed {bytes : List Byte} {a : Word}
    (changed : (mem.blit loadAddress bytes).data a ≠ mem.data a) :
    loadAddress.toNat ≤ a.toNat ∧ a.toNat < loadAddress.toNat + bytes.length := by
  by_contra outside
  exact changed (mem.blit_of_outside outside)

theorem Memory.loadProgram_inside {file : Stream} {status : LoadStatus} {mem' : Memory}
    (loads : mem.loadProgram (some file) loadAddress = some (status, mem')) :
    mem'.size = mem.size ∧
      (∀ a, mem'.data a ≠ mem.data a → loadAddress.toNat ≤ a.toNat ∧
        a.toNat < mem.size.toNat) ∧
      ((∃ size, status = .loaded size) →
        (file.fread file.size).length = file.size.toNat ∧
          mem' = mem.blit loadAddress (file.fread file.size)) := by
  unfold loadProgram at loads
  dsimp only at loads
  split at loads
  · cases loads
  split at loads
  · cases loads
    exact ⟨rfl, fun a changed => absurd rfl changed, fun loaded => by simp at loaded⟩
  split at loads
  · cases loads
  rename_i inside
  have blitted (a : Word)
      (changed : (mem.blit loadAddress (file.fread file.size)).data a ≠ mem.data a) :
      loadAddress.toNat ≤ a.toNat ∧ a.toNat < mem.size.toNat := by
    obtain ⟨behind, within⟩ := mem.data_blit_changed loadAddress changed
    exact ⟨behind, by omega⟩
  split at loads
  · rename_i whole
    cases loads
    exact ⟨rfl, blitted, fun _ => ⟨whole, rfl⟩⟩
  · cases loads
    exact ⟨rfl, blitted, fun loaded => by simp at loaded⟩

/-- Only a length that `ftell` could not tell, and a sum that is no `long`, let
the loader leave the memory; otherwise it writes behind the load address and
inside the memory, and reports a load when `fread` has transferred the whole
length. -/
theorem Memory.loadProgram_contained (file : Stream) :
    (mem.loadProgram (some file) loadAddress = none ↔
      2 ^ 63 ≤ loadAddress.toNat + file.size.toInt ∨
        file.size.toInt < 0 ∧ loadAddress.toNat + file.size.toInt ≤ mem.size.toNat ∧
          mem.size.toNat < loadAddress.toNat + (file.fread file.size).length) ∧
      ∀ status mem', mem.loadProgram (some file) loadAddress = some (status, mem') →
        mem'.size = mem.size ∧
        (∀ a, mem'.data a ≠ mem.data a → loadAddress.toNat ≤ a.toNat ∧
          a.toNat < mem.size.toNat) ∧
        ((∃ size, status = .loaded size) →
          (file.fread file.size).length = file.size.toNat ∧
            mem' = mem.blit loadAddress (file.fread file.size)) :=
  ⟨mem.loadProgram_eq_none_iff loadAddress file, fun _ _ => mem.loadProgram_inside loadAddress⟩

/-- A regular file is loaded as a whole or not at all. -/
theorem Memory.loadProgram_regular {program : List Byte}
    (short : loadAddress.toNat + program.length < 2 ^ 63) :
    mem.loadProgram (some (.regular program)) loadAddress =
      if mem.size.toNat < loadAddress.toNat + program.length then some (.tooLarge, mem)
      else some (.loaded program.length, mem.blit loadAddress program) := by
  have length : (Stream.regular program).size.toNat = program.length := by
    show (BitVec.ofNat 64 program.length).toNat = _
    rw [BitVec.toNat_ofNat]
    omega
  have size : (Stream.regular program).size.toInt = program.length := by
    rw [BitVec.toInt_eq_toNat_cond, if_pos (by omega), length]
  have content : (Stream.regular program).fread (Stream.regular program).size = program := by
    show program.take (Stream.regular program).size.toNat = program
    rw [length, List.take_length]
  simp only [loadProgram, size, content, length]
  rw [if_neg (by omega)]
  by_cases large : mem.size.toNat < loadAddress.toNat + program.length
  · have beyond : (mem.size.toNat : Int) < loadAddress.toNat + program.length := by omega
    rw [if_pos beyond, if_pos large]
  · have inside : ¬ (mem.size.toNat : Int) < loadAddress.toNat + program.length := by omega
    rw [if_neg inside, if_neg large, if_neg large, if_pos trivial]

theorem Memory.loadProgram_overflow {program : List Byte} (long : program.length < 2 ^ 63)
    (overflows : 2 ^ 63 ≤ loadAddress.toNat + program.length) :
    mem.loadProgram (some (.regular program)) loadAddress = none := by
  have size : (Stream.regular program).size.toInt = program.length := by
    show (BitVec.ofNat 64 program.length).toInt = _
    rw [BitVec.toInt_eq_toNat_cond, BitVec.toNat_ofNat, if_pos (by omega)]
    omega
  simp only [loadProgram, size]
  exact if_pos (by omega)

end Loading

section Arguments

def debugFlag : Text := "--debug".toList

/-- The variables that the arguments set. -/
structure Arguments where
  debugMode : Bool
  programFile : Option Text
  loadAddress : Word
  deriving DecidableEq

def Arguments.init : Arguments where
  debugMode := false
  programFile := none
  loadAddress := 0

/-- `std::strtoul`, cut to 32 bits. -/
def addressOf (arg : Text) : Word := (strtoul 0 arg).setWidth 32

theorem addressOf_numeral {arg : Text} {n : Int} (numeral : Numeral arg n)
    (canonical : Canonical arg) (lower : -2 ^ 63 < n) (upper : n < 2 ^ 63 - 1) :
    addressOf arg = BitVec.ofInt 32 n := by
  have read := strtol_auto numeral canonical stops_nil
  rw [List.append_nil, clampLong_of_small (by omega) (by omega)] at read
  have value : (strtol 0 arg).1 = n := by rw [read]
  unfold addressOf
  rw [strtoul_eq_strtol (by omega) (by omega), value]
  apply BitVec.eq_of_toNat_eq
  rw [BitVec.toNat_setWidth, BitVec.toNat_ofInt, BitVec.toNat_ofInt]
  omega

/-- One turn of the loop over the arguments. -/
def Arguments.add (args : Arguments) (arg : Text) : Arguments :=
  if arg = debugFlag then { args with debugMode := true }
  else if args.programFile = none then { args with programFile := some arg }
  else { args with loadAddress := addressOf arg }

def parseArguments (argv : List Text) : Arguments := argv.foldl Arguments.add Arguments.init

/-- The last address counts. -/
def lastAddress (start : Word) (addresses : List Text) : Word :=
  (addresses.getLast?.map addressOf).getD start

theorem lastAddress_cons (start : Word) (arg : Text) (addresses : List Text) :
    lastAddress start (arg :: addresses) = lastAddress (addressOf arg) addresses := by
  unfold lastAddress
  cases addresses with
  | nil => rfl
  | cons next rest =>
      rw [List.getLast?_cons_cons, List.getLast?_cons, Option.map_some]
      rfl

theorem foldl_add_addresses (argv : List Text) (debugMode : Bool) (file : Text)
    (address : Word) :
    argv.foldl Arguments.add ⟨debugMode, some file, address⟩ =
      ⟨debugMode || debugFlag ∈ argv, some file,
        lastAddress address (operands debugFlag argv)⟩ := by
  induction argv generalizing debugMode address with
  | nil => simp [lastAddress]
  | cons arg argv induction =>
      rw [List.foldl_cons, Arguments.add]
      by_cases flag : arg = debugFlag
      · subst flag
        rw [if_pos rfl, induction, operands_cons_flag]
        simp
      · rw [if_neg flag, if_neg (by simp), induction, operands_cons flag, lastAddress_cons]
        simp only [mem_cons_of_other flag]

/-- Wherever the flag stands, the first operand is the program, and the last one
behind it the address. -/
theorem parseArguments_eq (argv : List Text) :
    parseArguments argv =
      { debugMode := debugFlag ∈ argv
        programFile := (operands debugFlag argv).head?
        loadAddress := lastAddress 0 (operands debugFlag argv).tail } := by
  have start (debugMode : Bool) : argv.foldl Arguments.add ⟨debugMode, none, 0⟩ =
      ⟨debugMode || debugFlag ∈ argv, (operands debugFlag argv).head?,
        lastAddress 0 (operands debugFlag argv).tail⟩ := by
    induction argv generalizing debugMode with
    | nil => simp [lastAddress]
    | cons arg argv induction =>
        rw [List.foldl_cons, Arguments.add]
        by_cases flag : arg = debugFlag
        · subst flag
          rw [if_pos rfl, induction, operands_cons_flag]
          simp
        · rw [if_neg flag, if_pos rfl, foldl_add_addresses, operands_cons flag]
          simp only [mem_cons_of_other flag, List.head?_cons, List.tail_cons]
  have all := start false
  rwa [Bool.false_or] at all

end Arguments

/-- What `main` prints in front of its loop. -/
inductive Message where
  | usage
  | initializing (stackBase stackTop stackSize : Word)
  | cannotOpen (file : Text)
  | tooLarge
  | incomplete
  | loaded (size : Int) (loadAddress : Word)
  | starting (initialSp initialPc : Word)
  deriving DecidableEq

/-- The lines of a failed load. -/
def LoadStatus.message (file : Text) (loadAddress : Word) : LoadStatus → Message
  | .loaded size => .loaded size loadAddress
  | .cannotOpen => .cannotOpen file
  | .tooLarge => .tooLarge
  | .incomplete => .incomplete

section Main

variable {σ : Type}

/-- `main`: the lines in front of the loop, those from the loop on without the
ones of debug mode, and the value returned; `none` when the emulator is brought
down. -/
def main (h : Host σ) (host : σ) (files : Text → Option Stream) (argv : List Text) :
    Option (List Message × List Report × Word) :=
  let args := parseArguments argv
  match args.programFile with
  | none => some ([.usage], [], 1)
  | some file =>
      let greeting := Message.initializing stackBase stackTop stackSize
      match (Memory.init memorySize).loadProgram (files file) args.loadAddress with
      | none => none
      | some (.loaded size, mem) =>
          let cpu := { CPU.init with pc := args.loadAddress }
          (Machine.runProgram h maxSteps { cpu, mem, host }).map fun (reports, code) =>
            ([greeting, .loaded size args.loadAddress, .starting (cpu.regRead sp) cpu.pc],
              reports, code)
      | some (status, _) => some ([greeting, status.message file args.loadAddress], [], 1)

/-- What regular files come down to: the first operand is the program, and it
is loaded at the last one. -/
def launch (h : Host σ) (host : σ) (content : Text → Option (List Byte)) :
    List Text → Option (List Message × List Report × Word)
  | [] => some ([.usage], [], 1)
  | file :: addresses =>
      let greeting := Message.initializing stackBase stackTop stackSize
      let loadAddress := lastAddress 0 addresses
      match content file with
      | none => some ([greeting, .cannotOpen file], [], 1)
      | some program =>
          match boot host program loadAddress with
          | none => some ([greeting, .tooLarge], [], 1)
          | some m =>
              (Machine.runProgram h maxSteps m).map fun (reports, code) =>
                ([greeting, .loaded program.length loadAddress, .starting stackTop loadAddress],
                  reports, code)

/-- On regular files `main` is the run of what `boot` sets up, wherever the flag
stands among its arguments. -/
theorem main_eq_launch (h : Host σ) (host : σ) {content : Text → Option (List Byte)}
    (argv : List Text)
    (short : ∀ file addresses program, operands debugFlag argv = file :: addresses →
      content file = some program →
        (lastAddress 0 addresses).toNat + program.length < 2 ^ 63) :
    main h host (fun file => (content file).map .regular) argv =
      launch h host content (operands debugFlag argv) := by
  unfold main
  simp only [parseArguments_eq]
  cases command : operands debugFlag argv with
  | nil => rfl
  | cons file addresses =>
      simp only [launch, List.head?_cons, List.tail_cons]
      cases found : content file with
      | none => rfl
      | some program =>
          rw [Option.map_some,
            Memory.loadProgram_regular _ _ (short file addresses program command found)]
          unfold boot
          by_cases large : (Memory.init memorySize).size.toNat <
              (lastAddress 0 addresses).toNat + program.length
          · simp only [if_pos large]
            rfl
          · simp only [if_neg large]
            rfl

/-- `main` for regular files: what it prints and returns when there is nothing
to run, and otherwise for every end that the run can have. -/
structure MainEnds (h : Host σ) (host : σ) (content : Text → Option (List Byte))
    (argv : List Text) (result : Option (List Message × List Report × Word)) : Prop where
  usage : operands debugFlag argv = [] → result = some ([.usage], [], 1)
  missing : ∀ file addresses, operands debugFlag argv = file :: addresses →
    content file = none →
      result = some ([.initializing stackBase stackTop stackSize, .cannotOpen file], [], 1)
  large : ∀ file addresses program, operands debugFlag argv = file :: addresses →
    content file = some program →
      memorySize.toNat < (lastAddress 0 addresses).toNat + program.length →
        (lastAddress 0 addresses).toNat + program.length < 2 ^ 63 →
          result = some ([.initializing stackBase stackTop stackSize, .tooLarge], [], 1)
  /-- The sum of the address and the length is no `long`. -/
  overflow : ∀ file addresses program, operands debugFlag argv = file :: addresses →
    content file = some program →
      2 ^ 63 ≤ (lastAddress 0 addresses).toNat + program.length → result = none
  run : ∀ file addresses program m, operands debugFlag argv = file :: addresses →
    content file = some program → boot host program (lastAddress 0 addresses) = some m →
      ∀ ending : Machine.Ending h m maxSteps,
        result = ending.output.map fun (reports, code) =>
          ([.initializing stackBase stackTop stackSize,
            .loaded program.length (lastAddress 0 addresses),
            .starting stackTop (lastAddress 0 addresses)], reports, code)
  address : ∀ file addresses arg n, operands debugFlag argv = file :: addresses →
    addresses.getLast? = some arg → Numeral arg n → Canonical arg → -2 ^ 63 < n →
      n < 2 ^ 63 - 1 → lastAddress 0 addresses = BitVec.ofInt 32 n

theorem main_ends (h : Host σ) (host : σ) {content : Text → Option (List Byte)}
    (long : ∀ file program, content file = some program → program.length < 2 ^ 63)
    (argv : List Text) :
    MainEnds h host content argv (main h host (fun file => (content file).map .regular) argv) := by
  have short {file program addresses} (command : operands debugFlag argv = file :: addresses)
      (found : content file = some program)
      (small : (lastAddress 0 addresses).toNat + program.length < 2 ^ 63) :
      main h host (fun file => (content file).map .regular) argv =
        launch h host content (operands debugFlag argv) := by
    apply main_eq_launch h host argv
    intro file' addresses' program' command' found'
    rw [command] at command'
    cases command'
    rw [found] at found'
    cases found'
    exact small
  constructor
  · intro empty
    unfold main
    simp only [parseArguments_eq, empty, List.head?_nil]
  · intro file addresses command missing
    unfold main
    simp only [parseArguments_eq, command, List.head?_cons, missing]
    rfl
  · intro file addresses program command found large small
    have refused : boot host program (lastAddress 0 addresses) = none := if_pos large
    rw [short command found small, command, launch]
    simp only [found, refused]
  · intro file addresses program command found overflows
    unfold main
    simp only [parseArguments_eq, command, List.head?_cons, List.tail_cons, found,
      Option.map_some, Memory.loadProgram_overflow _ _ (long file program found) overflows]
  · intro file addresses program m command found booted ending
    have ended := Machine.runProgram_of_ending (Machine.running_of_boot booted) ending
    have small : (lastAddress 0 addresses).toNat + program.length < 2 ^ 63 := by
      have bound : memorySize.toNat < 2 ^ 32 := memorySize.isLt
      by_contra large
      have refused : boot host program (lastAddress 0 addresses) = none :=
        if_pos (show memorySize.toNat < _ by omega)
      rw [refused] at booted
      cases booted
    rw [short command found small, command, launch]
    simp only [found, booted, ended]
  · intro file addresses arg n _ last numeral canonical lower upper
    rw [lastAddress, last]
    exact addressOf_numeral numeral canonical lower upper

/-- One file, which holds an `ecall`. -/
def oneFile (file : Text) : Option (List Byte) :=
  if file = "a.bin".toList then some [0x73, 0, 0, 0] else none

/-- That file, loaded at 0x100 with the flag in between. -/
theorem main_ends_oneFile :
    MainEnds Host.inert () oneFile ["a.bin".toList, debugFlag, "0x100".toList]
      (main Host.inert () (fun file => (oneFile file).map .regular)
        ["a.bin".toList, debugFlag, "0x100".toList]) := by
  apply main_ends Host.inert ()
  intro file program found
  unfold oneFile at found
  split at found
  · cases found
    decide
  · cases found

end Main

end RiscvPack.Emulator
