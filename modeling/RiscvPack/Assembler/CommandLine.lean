import RiscvPack.Lib.CommandLine
import RiscvPack.Lib.FileSystem
import RiscvPack.Assembler.Main

/-!
# The command line of the assembler

`main.cpp` from its arguments to the files it leaves.  The output file is
opened, and so emptied, before either pass has read a line; nothing but that
file is ever touched.
-/

namespace RiscvPack.Asm

open CString Runs Files CommandLine

section Arguments

def debugFlag : Text := "--debug".toList

/-- The variables that the arguments set. -/
structure Arguments where
  debugMode : Bool
  inputFile : Option Text
  outputFile : Option Text
  deriving DecidableEq

def Arguments.init : Arguments where
  debugMode := false
  inputFile := none
  outputFile := none

/-- One turn of the loop over the arguments; `none` for a third file. -/
def Arguments.add (args : Arguments) (arg : Text) : Option Arguments :=
  if arg = debugFlag then some { args with debugMode := true }
  else if args.inputFile = none then some { args with inputFile := some arg }
  else if args.outputFile = none then some { args with outputFile := some arg }
  else none

def parseArguments (argv : List Text) : Option Arguments :=
  argv.foldlM Arguments.add Arguments.init

/-- The two files, from those that are known and the operands ahead. -/
def filesOf : Option Text → Option Text → List Text → Option (Option Text × Option Text)
  | input, output, [] => some (input, output)
  | none, output, file :: rest => filesOf (some file) output rest
  | some input, none, file :: rest => filesOf (some input) (some file) rest
  | some _, some _, _ :: _ => none

theorem foldlM_add (argv : List Text) (args : Arguments) :
    argv.foldlM Arguments.add args =
      (filesOf args.inputFile args.outputFile (operands debugFlag argv)).map fun files =>
        ⟨args.debugMode || debugFlag ∈ argv, files.1, files.2⟩ := by
  induction argv generalizing args with
  | nil => simp [filesOf]
  | cons arg argv induction =>
      rw [List.foldlM_cons, Arguments.add]
      by_cases flag : arg = debugFlag
      · subst flag
        rw [if_pos rfl, operands_cons_flag]
        simp [induction]
      · obtain ⟨debugMode, input, output⟩ := args
        rw [if_neg flag, operands_cons flag]
        simp only [mem_cons_of_other flag]
        cases input with
        | none => simp [induction, filesOf]
        | some input =>
            cases output with
            | none => simp [induction, filesOf]
            | some output => simp [filesOf]

end Arguments

/-- What `main` prints at its end. -/
inductive Message where
  | tooManyArguments
  | usage
  /-- `perror` for a file that cannot be opened. -/
  | file
  /-- The message of the pass that ended the process. -/
  | failed (message : Text)
  | assembled (textSize dataSize : Word) (labels : Nat)
  deriving DecidableEq

/-- The value returned, what is printed, and the files. -/
structure Finished where
  code : Nat
  message : Message
  files : FileSystem Text Byte

/-- The characters of a text file, one for each byte. -/
def textOf (bytes : List Byte) : Text := bytes.map fun b => Char.ofNat b.toNat

section Main

/-- `main` with its files open: `exit` and the destructors both write out what
the second pass has put into the output file.  `none` when a pass leaves a
buffer or does not end. -/
def assembleTo (fs : FileSystem Text Byte) (source : Text) (output : Text) : Option Finished :=
  match firstPass Assembler.init source with
  | .stopped (.exit message) _ => some ⟨1, .failed message, fs⟩
  | .stopped _ _ => none
  | .done asm =>
      let placed := adjustLabels asm asm.textSize
      match secondPass placed source with
      | .stopped (.exit message) st => some ⟨1, .failed message, fs.put output st.out.image⟩
      | .stopped _ _ => none
      | .done st =>
          some ⟨0, .assembled placed.textSize placed.dataSize placed.labels.length,
            fs.put output st.out.image⟩

/-- `main`: both files are opened before either is checked.  A file is the name
it is given by, so two names of one file are two files. -/
def main (fs : FileSystem Text Byte) (argv : List Text) : Option Finished :=
  match parseArguments argv with
  | none => some ⟨1, .tooManyArguments, fs⟩
  | some { inputFile := some input, outputFile := some output, .. } =>
      let input? := (fs.openRead input).isSome
      match fs.openWrite output with
      | none => some ⟨1, .file, fs⟩
      | some opened =>
          if input? then assembleTo opened (textOf ((opened.content input).getD [])) output
          else some ⟨1, .file, opened⟩
  | some _ => some ⟨1, .usage, fs⟩

theorem assembleTo_succeeds_iff (fs : FileSystem Text Byte) (source output : Text)
    (message : Message) (files : FileSystem Text Byte) :
    assembleTo fs source output = some ⟨0, message, files⟩ ↔
      ∃ result, assemble source = some result ∧
        message = .assembled result.textSize result.dataSize result.labels.length ∧
        files = fs.put output result.bytes := by
  have refused {finished : Finished} (code : finished.code = 1) :
      some finished ≠ some ⟨0, message, files⟩ := by
    intro same
    cases same
    cases code
  unfold assembleTo assemble assembleWith secondPass
  cases firstPass Assembler.init source with
  | stopped reason asm =>
      refine iff_of_false ?_ (by rintro ⟨_, none, _⟩; cases none)
      cases reason with
      | exit => exact refused rfl
      | overflow | diverges => exact nofun
  | done asm =>
      dsimp only
      cases run (secondPassLine (adjustLabels asm asm.textSize)) Pass2.init
          (sourceLines source) with
      | stopped reason st =>
          refine iff_of_false ?_ (by rintro ⟨_, none, _⟩; cases none)
          cases reason with
          | exit => exact refused rfl
          | overflow | diverges => exact nofun
      | done st =>
          constructor
          · intro same
            cases same
            exact ⟨_, rfl, rfl, rfl⟩
          · rintro ⟨result, same, rfl, rfl⟩
            cases same
            rfl

theorem sameBut_assembleTo {fs : FileSystem Text Byte} {source output : Text}
    {finished : Finished} (ends : assembleTo (fs.put output []) source output = some finished) :
    FileSystem.SameBut output fs finished.files := by
  unfold assembleTo at ends
  split at ends
  · cases ends
    exact FileSystem.sameBut_put output fs []
  · cases ends
  · dsimp only at ends
    split at ends
    · cases ends
      rw [FileSystem.put_put]
      exact FileSystem.sameBut_put output fs _
    · cases ends
    · cases ends
      rw [FileSystem.put_put]
      exact FileSystem.sameBut_put output fs _

theorem parseArguments_eq (argv : List Text) :
    parseArguments argv = (filesOf none none (operands debugFlag argv)).map fun files =>
      ⟨debugFlag ∈ argv, files.1, files.2⟩ := by
  unfold parseArguments
  rw [foldlM_add]
  rfl

theorem main_eq (fs : FileSystem Text Byte) (argv : List Text) :
    main fs argv =
      match operands debugFlag argv with
      | [] | [_] => some ⟨1, .usage, fs⟩
      | [input, output] =>
          match fs.openWrite output with
          | none => some ⟨1, .file, fs⟩
          | some opened =>
              if (fs.openRead input).isSome then
                assembleTo opened (textOf ((opened.content input).getD [])) output
              else some ⟨1, .file, opened⟩
      | _ :: _ :: _ :: _ => some ⟨1, .tooManyArguments, fs⟩ := by
  unfold main
  rw [parseArguments_eq]
  match operands debugFlag argv with
  | [] | [_] | [_, _] | _ :: _ :: _ :: _ => rfl

/-- What the passes read: a file that is its own output is empty by then. -/
def sourceRead (input output : Text) (bytes : List Byte) : Text :=
  textOf (if input = output then [] else bytes)

theorem content_of_openRead {fs : FileSystem Text Byte} {input output : Text}
    {bytes : List Byte} (found : fs.openRead input = some bytes) :
    textOf (((fs.put output []).content input).getD []) = sourceRead input output bytes := by
  unfold sourceRead
  by_cases same : input = output
  · rw [if_pos same, same, FileSystem.put_content_self]
    rfl
  · have stays := (FileSystem.sameBut_put output fs []).content input same
    obtain ⟨_, content⟩ := Option.ite_none_right_eq_some.mp found
    rw [if_neg same, stays, content]
    rfl

/-- `main` returns zero for two files that can be opened and whose first
assembles, and writes the image into the second. -/
theorem main_succeeds_iff (fs : FileSystem Text Byte) (argv : List Text) (message : Message)
    (files : FileSystem Text Byte) :
    main fs argv = some ⟨0, message, files⟩ ↔
      ∃ input output bytes result, operands debugFlag argv = [input, output] ∧
        fs.openRead input = some bytes ∧ fs.writable output = true ∧
        assemble (sourceRead input output bytes) = some result ∧
        message = .assembled result.textSize result.dataSize result.labels.length ∧
        files = fs.put output result.bytes := by
  have refused {finished : Finished} (code : finished.code = 1) :
      some finished ≠ some ⟨0, message, files⟩ := by
    intro same
    cases same
    cases code
  rw [main_eq]
  match operands debugFlag argv with
  | [] | [_] | _ :: _ :: _ :: _ =>
      refine iff_of_false (refused rfl) ?_
      rintro ⟨_, _, _, _, other, _⟩
      cases other
  | [input, output] =>
      unfold FileSystem.openWrite
      by_cases writable : fs.writable output = true
      · simp only [if_pos writable]
        cases found : fs.openRead input with
        | none =>
            refine iff_of_false (refused rfl) ?_
            rintro ⟨_, _, _, _, same, opened, _⟩
            cases same
            rw [found] at opened
            cases opened
        | some bytes =>
            rw [Option.isSome_some, if_pos rfl, content_of_openRead found,
              assembleTo_succeeds_iff]
            constructor
            · rintro ⟨result, assembled, printed, left⟩
              rw [FileSystem.put_put] at left
              exact ⟨input, output, bytes, result, rfl, found, writable, assembled, printed, left⟩
            · rintro ⟨_, _, _, result, same, opened, _, assembled, printed, left⟩
              cases same
              cases found.symm.trans opened
              exact ⟨result, assembled, printed, left.trans FileSystem.put_put.symm⟩
      · simp only [if_neg writable]
        refine iff_of_false (refused rfl) ?_
        rintro ⟨_, _, _, _, same, _, able, _⟩
        cases same
        exact writable able

/-- What is left behind a run of `main`.  Only the output file differs, and it
is empty when the input cannot be read, and when it is the input. -/
structure Leaves (fs : FileSystem Text Byte) (argv : List Text) (finished : Finished) :
    Prop where
  succeeds : finished.code = 0 ↔
    ∃ input output bytes result, operands debugFlag argv = [input, output] ∧
      fs.openRead input = some bytes ∧ fs.writable output = true ∧
      assemble (sourceRead input output bytes) = some result ∧
      finished.message =
        .assembled result.textSize result.dataSize result.labels.length ∧
      finished.files = fs.put output result.bytes
  untouched : ∀ name, (operands debugFlag argv)[1]? ≠ some name →
    finished.files.content name = fs.content name
  refused : ∀ input output, operands debugFlag argv = [input, output] →
    fs.writable output = false → finished.code = 1 ∧ finished.files = fs
  missing : ∀ input output, operands debugFlag argv = [input, output] →
    fs.writable output = true → fs.openRead input = none →
      finished.code = 1 ∧ finished.files.content output = some []
  overwritten : ∀ file bytes, operands debugFlag argv = [file, file] →
    fs.writable file = true → fs.openRead file = some bytes →
      finished.code = 0 ∧ finished.files.content file = some []
  other : (operands debugFlag argv).length ≠ 2 → finished.code = 1 ∧ finished.files = fs

section TwoFiles

variable {fs : FileSystem Text Byte} {argv : List Text} {input output : Text}
  {finished : Finished} (two : operands debugFlag argv = [input, output])
  (ends : main fs argv = some finished)

include two ends

theorem refused_of_main (unwritable : fs.writable output = false) :
    finished.code = 1 ∧ finished.files = fs := by
  have closed : fs.openWrite output = none := if_neg (by simp [unwritable])
  rw [main_eq, two] at ends
  simp only [closed] at ends
  cases ends
  exact ⟨rfl, rfl⟩

theorem missing_of_main (writable : fs.writable output = true)
    (missing : fs.openRead input = none) :
    finished.code = 1 ∧ finished.files = fs.put output [] := by
  have opened : fs.openWrite output = some (fs.put output []) := if_pos writable
  rw [main_eq, two] at ends
  simp only [opened, missing] at ends
  cases ends
  exact ⟨rfl, rfl⟩

theorem sameBut_main : FileSystem.SameBut output fs finished.files := by
  by_cases writable : fs.writable output = true
  · cases found : fs.openRead input with
    | none =>
        rw [(missing_of_main two ends writable found).2]
        exact FileSystem.sameBut_put output fs []
    | some bytes =>
        have opened : fs.openWrite output = some (fs.put output []) := if_pos writable
        rw [main_eq, two] at ends
        simp only [opened, found, Option.isSome_some, if_true] at ends
        exact sameBut_assembleTo ends
  · rw [(refused_of_main two ends (by simpa using writable)).2]
    exact FileSystem.SameBut.refl output fs

end TwoFiles

theorem assemble_nil : (assemble []).map (·.bytes) = some [] := by decide

theorem main_leaves (fs : FileSystem Text Byte) {argv : List Text} {finished : Finished}
    (ends : main fs argv = some finished) : Leaves fs argv finished where
  succeeds := by
    rw [← main_succeeds_iff, ends, Option.some.injEq]
    obtain ⟨code, message, files⟩ := finished
    simp
  untouched := by
    intro name other
    match two : operands debugFlag argv with
    | [input, output] =>
        rw [two] at other
        have differs : name ≠ output := by
          rintro rfl
          exact other rfl
        exact (sameBut_main two ends).content name differs
    | [] | [_] | _ :: _ :: _ :: _ =>
        rw [main_eq, two] at ends
        cases ends
        rfl
  refused := fun input output two unwritable => refused_of_main two ends unwritable
  missing := by
    intro input output two writable missing
    obtain ⟨code, files⟩ := missing_of_main two ends writable missing
    rw [files]
    exact ⟨code, FileSystem.put_content_self⟩
  overwritten := by
    intro file bytes two writable found
    obtain ⟨result, assembled, empty⟩ := Option.map_eq_some_iff.mp assemble_nil
    have source : sourceRead file file bytes = [] := by
      rw [sourceRead, if_pos rfl]
      rfl
    have succeeds := (main_succeeds_iff fs argv _ _).mpr
      ⟨file, file, bytes, result, two, found, writable, source ▸ assembled, rfl, rfl⟩
    rw [succeeds] at ends
    cases ends
    rw [empty]
    exact ⟨rfl, FileSystem.put_content_self⟩
  other := by
    intro count
    match two : operands debugFlag argv with
    | [input, output] =>
        rw [two] at count
        exact absurd rfl count
    | [] | [_] | _ :: _ :: _ :: _ =>
        rw [main_eq, two] at ends
        cases ends
        exact ⟨rfl, rfl⟩

/-- One readable and writable file. -/
def oneFile (name : Text) (bytes : List Byte) : FileSystem Text Byte where
  content := fun other => if other = name then some bytes else none
  readable := fun _ => true
  writable := fun _ => true

/-- A missing input and an output that held a byte. -/
theorem main_leaves_missing :
    ∃ finished, main (oneFile "b".toList [1]) ["a".toList, "b".toList] = some finished ∧
      Leaves (oneFile "b".toList [1]) ["a".toList, "b".toList] finished := by
  have ends : main (oneFile "b".toList [1]) ["a".toList, "b".toList] =
      some ⟨1, .file, (oneFile "b".toList [1]).put "b".toList []⟩ := rfl
  exact ⟨_, ends, main_leaves _ ends⟩

end Main

end RiscvPack.Asm
