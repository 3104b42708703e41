import RiscvPack.Assembler.Reuse

/-!
# The whole assembler

`main.cpp`: the two passes over one file, with the labels moved in between.  A
line of the file, as `fgets` reads it, can be exchanged for another that both
passes treat alike, and left out when neither pass does anything with it.
-/

namespace RiscvPack.Asm

open CString Runs Files

section Main

/-- What can be seen of an assembly that succeeds. -/
structure Assembled where
  labels : List Label
  offsets : Text → Word
  textSize : Word
  dataSize : Word
  bytes : List Byte

/-- The second pass, from the tables of the first. -/
def assembleWith (first : Outcome Stop Assembler) (lines : List Text) : Option Assembled :=
  match first with
  | .stopped _ _ => none
  | .done asm =>
      let placed := adjustLabels asm asm.textSize
      match run (secondPassLine placed) Pass2.init lines with
      | .stopped _ _ => none
      | .done st =>
          some { labels := placed.labels
                 offsets := sectionOffset placed
                 textSize := placed.textSize
                 dataSize := placed.dataSize
                 bytes := st.out.image }

/-- `main`, without its messages. -/
def assemble (source : Text) : Option Assembled :=
  assembleWith (firstPass Assembler.init source) (sourceLines source)

/-- The first pass over lines. -/
def firstPassLines (asm : Assembler) (lines : List Text) : Outcome Stop Assembler :=
  (run firstPassLine { asm with labels := [], pcText := 0, pcData := 0 } lines).andThen
    fun asm =>
      .done { asm with
        textSize := sizeOf asm.sections [.text]
        dataSize := sizeOf asm.sections [.data, .rodata, .bss] }

def assembleLines (lines : List Text) : Option Assembled :=
  assembleWith (firstPassLines Assembler.init lines) lines

theorem assemble_eq (source : Text) : assemble source = assembleLines (sourceLines source) :=
  rfl

end Main

section Exchange

variable {front back : List Text} {t t' : Text}

theorem typed_of_run {lines : List Text} {asm : Assembler}
    (ran : run firstPassLine { Assembler.init with labels := [], pcText := 0, pcData := 0 }
      lines = .done asm) : Typed asm :=
  run_firstPass_invariant (fun _ _ typed change => typed.change change)
    ⟨typed_init.typed, typed_init.current⟩ ran

theorem assembleLines_eq_some {lines : List Text} {A : Assembled} :
    assembleLines lines = some A ↔
      ∃ asm, firstPassLines Assembler.init lines = .done asm ∧
        ∃ st, run (secondPassLine (adjustLabels asm asm.textSize)) Pass2.init lines = .done st ∧
          { labels := (adjustLabels asm asm.textSize).labels
            offsets := sectionOffset (adjustLabels asm asm.textSize)
            textSize := asm.textSize
            dataSize := asm.dataSize
            bytes := st.out.image } = A := by
  unfold assembleLines assembleWith
  cases firstPassLines Assembler.init lines with
  | stopped reason asm => simp
  | done asm =>
      cases ran : run (secondPassLine (adjustLabels asm asm.textSize)) Pass2.init lines with
      | stopped reason st => simp [ran]
      | done st =>
          simp only [ran, Option.some.injEq, Outcome.done.injEq, exists_eq_left']
          rfl

/-- Lines that both passes get through alike can be exchanged. -/
theorem assembleLines_alike
    (first : ∀ asm asm', Typed asm →
      (firstPassLine asm t = .done asm' ↔ firstPassLine asm t' = .done asm'))
    (second : ∀ asm st st',
      secondPassLine asm st t = .done st' ↔ secondPassLine asm st t' = .done st') :
    assembleLines (front ++ t :: back) = assembleLines (front ++ t' :: back) := by
  have sameFirst (asm : Assembler) :
      firstPassLines Assembler.init (front ++ t :: back) = .done asm ↔
        firstPassLines Assembler.init (front ++ t' :: back) = .done asm := by
    unfold firstPassLines
    rw [Outcome.andThen_eq_done, Outcome.andThen_eq_done]
    apply exists_congr
    intro finished
    rw [run_exchange_eq_done]
    intro m m' reached
    exact first m m' (typed_of_run reached)
  have sameSecond (asm : Assembler) (st : Pass2) :
      run (secondPassLine asm) Pass2.init (front ++ t :: back) = .done st ↔
        run (secondPassLine asm) Pass2.init (front ++ t' :: back) = .done st :=
    run_exchange_eq_done fun m m' _ => second asm m m'
  apply Option.ext
  intro A
  simp only [assembleLines_eq_some, sameFirst, sameSecond]

theorem assembleLines_congr
    (first : ∀ asm, Typed asm → firstPassLine asm t = firstPassLine asm t')
    (second : ∀ asm st, secondPassLine asm st t = secondPassLine asm st t') :
    assembleLines (front ++ t :: back) = assembleLines (front ++ t' :: back) := by
  apply assembleLines_alike
  · intro asm asm' typed
    rw [first asm typed]
  · intro asm st st'
    rw [second]

/-- A line with which the passes do nothing can be left out. -/
theorem assembleLines_skip (first : ∀ asm, Typed asm → firstPassLine asm t = .done asm)
    (second : ∀ asm st, secondPassLine asm st t = .done st) :
    assembleLines (front ++ t :: back) = assembleLines (front ++ back) := by
  have sameFirst : firstPassLines Assembler.init (front ++ t :: back) =
      firstPassLines Assembler.init (front ++ back) := by
    unfold firstPassLines
    rw [run_append, run_append]
    cases ran : run firstPassLine _ front with
    | stopped reason asm => rfl
    | done asm =>
        simp only [Outcome.done_andThen, run_cons]
        rw [first asm (typed_of_run ran), Outcome.done_andThen]
  have sameSecond (asm : Assembler) : run (secondPassLine asm) Pass2.init (front ++ t :: back) =
      run (secondPassLine asm) Pass2.init (front ++ back) := by
    rw [run_append, run_append]
    cases run (secondPassLine asm) Pass2.init front with
    | stopped reason st => rfl
    | done st =>
        simp only [Outcome.done_andThen, run_cons]
        rw [second asm st, Outcome.done_andThen]
  unfold assembleLines assembleWith
  rw [sameFirst]
  simp only [sameSecond]

end Exchange

section SourceLines

/-- A C string, which ends at a zero byte. -/
def cString (t : Text) : Text := t.takeWhile (· ≠ Char.ofNat 0)

theorem fgetsFrom_newline (room : Nat) (current before rest : Text) :
    fgetsFrom room current (before ++ '\n' :: rest) =
      fgetsFrom room current (before ++ ['\n']) ++ fgetsFrom (maxLine - 1) [] rest := by
  induction before generalizing room current with
  | nil => simp [fgetsFrom]
  | cons c before induction =>
      rw [List.cons_append, List.cons_append, fgetsFrom, fgetsFrom]
      by_cases ends : c = '\n' ∨ room ≤ 1
      · rw [if_pos ends, if_pos ends, induction, List.cons_append]
      · rw [if_neg ends, if_neg ends]
        exact induction _ _

theorem fgetsFrom_line {room : Nat} {current line : Text} (noNewline : '\n' ∉ line)
    (short : line.length < room) (rest : Text) :
    fgetsFrom room current (line ++ '\n' :: rest) =
      (current ++ line ++ ['\n']) :: fgetsFrom (maxLine - 1) [] rest := by
  induction line generalizing room current with
  | nil => simp [fgetsFrom]
  | cons c line induction =>
      rw [List.mem_cons, not_or] at noNewline
      rw [List.length_cons] at short
      rw [List.cons_append, fgetsFrom, if_neg, induction noNewline.2 (by omega)]
      · simp
      · rintro (newline | full)
        · exact noNewline.1 newline.symm
        · omega

theorem fgetsFrom_last {room : Nat} {current line : Text} (noNewline : '\n' ∉ line)
    (short : line.length < room) :
    fgetsFrom room current line =
      if current ++ line = [] then [] else [current ++ line] := by
  induction line generalizing room current with
  | nil => simp [fgetsFrom]
  | cons c line induction =>
      rw [List.mem_cons, not_or] at noNewline
      rw [List.length_cons] at short
      rw [fgetsFrom, if_neg, induction noNewline.2 (by omega)]
      · simp
      · rintro (newline | full)
        · exact noNewline.1 newline.symm
        · omega

/-- The text around a line of a file. -/
structure Around (before rest : Text) : Prop where
  starts : before = [] ∨ ∃ front, before = front ++ ['\n']
  ends : rest = [] ∨ ∃ back, rest = '\n' :: back

theorem assembleLines_empty (front back : List Text) :
    assembleLines (front ++ [] :: back) = assembleLines (front ++ back) :=
  assembleLines_skip (fun _ _ => rfl) (fun _ _ => rfl)

/-- A line of a file is one of the lines that are assembled. -/
theorem assemble_around {before rest line : Text} (around : Around before rest)
    (noNewline : '\n' ∉ line) (short : line.length < maxLine - 1) :
    assemble (before ++ line ++ rest) =
      assembleLines (sourceLines before ++
        cString (line ++ rest.take 1) :: sourceLines rest.tail) := by
  have front (tail : Text) :
      sourceLines (before ++ tail) = sourceLines before ++ sourceLines tail := by
    rcases around.starts with rfl | ⟨front, rfl⟩
    · rfl
    · unfold sourceLines
      rw [List.append_assoc, List.singleton_append, fgetsFrom_newline, List.map_append]
  rw [assemble_eq, List.append_assoc, front]
  rcases around.ends with rfl | ⟨back, rfl⟩
  · rw [List.append_nil, List.take_nil, List.append_nil]
    have last : sourceLines line = if line = [] then [] else [cString line] := by
      unfold sourceLines
      rw [fgetsFrom_last noNewline short, List.nil_append]
      split <;> rfl
    rw [last]
    split
    · rename_i empty
      rw [empty]
      exact (assembleLines_empty _ _).symm
    · rfl
  · have here : sourceLines (line ++ '\n' :: back) =
        cString (line ++ ['\n']) :: sourceLines back := by
      unfold sourceLines
      rw [fgetsFrom_line noNewline short]
      rfl
    rw [here]
    rfl

end SourceLines

end RiscvPack.Asm
