import Mathlib.Data.List.Basic

/-!
# Command lines

Arguments of which one is a flag, which may stand anywhere among the others.
-/

namespace CommandLine

variable {α : Type} [DecidableEq α] {flag : α}

/-- The arguments other than the flag. -/
def operands (flag : α) (argv : List α) : List α := argv.filter (· ≠ flag)

@[simp] theorem operands_nil : operands flag [] = [] := rfl

theorem operands_cons_flag (argv : List α) :
    operands flag (flag :: argv) = operands flag argv :=
  List.filter_cons_of_neg (by simp)

theorem operands_cons {arg : α} (other : arg ≠ flag) (argv : List α) :
    operands flag (arg :: argv) = arg :: operands flag argv :=
  List.filter_cons_of_pos (by simpa using other)

omit [DecidableEq α] in
theorem mem_cons_of_other {arg : α} (other : arg ≠ flag) (argv : List α) :
    (flag ∈ arg :: argv) = (flag ∈ argv) := by
  simp [Ne.symm other]

end CommandLine
