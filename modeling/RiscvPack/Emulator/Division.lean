import RiscvPack.Lib.Division
import RiscvPack.Emulator.StepRefinement

/-!
# Division

`div`, `divu`, `rem` and `remu` on every pair of register values.  The one
pair whose signed quotient is no 32-bit number has no defined result in the
source, although the instruction set gives it one; on all others the four
results are the quotients and remainders of the manual.
-/

namespace RiscvPack.Emulator

namespace Machine

/-- A step of any processor that has fetched `op`, with `a` and `b` in the
source registers, completes and writes `value`. -/
def Computes (op : Isa.RegOp) (a b value : Word) : Prop :=
  ∀ {σ : Type} (h : Host σ) (m : Machine σ) (rd rs1 rs2 : Reg), m.Fetchable →
    Isa.decode m.fetched = some (.reg op rd rs1 rs2) →
    m.cpu.regRead rs1 = a → m.cpu.regRead rs2 = b →
    ∃ m', step h m = some (.ok, m') ∧ m.Reaches (m.arch.writeNext rd value) m'

/-- The four division instructions on one pair of operands. -/
def Divides (a b : Word) : Prop :=
  ∃ div rem divu remu, Computes .div a b div ∧ Computes .rem a b rem ∧
    Computes .divu a b divu ∧ Computes .remu a b remu ∧
    Division.Signed a b div rem ∧ Division.Unsigned a b divu remu

theorem computes_eval (op : Isa.RegOp) {a b : Word}
    (defined : op = .div ∨ op = .rem → CPU.SignedDivisionDefined a b) :
    Computes op a b (op.eval a b) := by
  intro σ h m rd rs1 rs2 ready legal first second
  have noOverflow : ¬ Isa.DivOverflow m.arch (.reg op rd rs1 rs2) := by
    intro overflow
    unfold Isa.DivOverflow at overflow
    split at overflow
    · rename_i same
      cases same
      apply defined (Or.inl rfl)
      rwa [← first, ← second]
    · rename_i same
      cases same
      apply defined (Or.inr rfl)
      rwa [← first, ← second]
    · exact overflow
  rw [← first, ← second]
  exact step_ok h ready legal noOverflow rfl

/-- On the remaining pair the step evaluates an undefined C++ operation. -/
theorem step_undefined {σ : Type} (h : Host σ) {m : Machine σ} {op : Isa.RegOp} {rd rs1 rs2 : Reg}
    (ready : m.Fetchable) (legal : Isa.decode m.fetched = some (.reg op rd rs1 rs2))
    (signed : op = .div ∨ op = .rem)
    (overflow : ¬ CPU.SignedDivisionDefined (m.cpu.regRead rs1) (m.cpu.regRead rs2)) :
    step h m = none := by
  rw [step_of_fetchable h ready, Instruction.decode_eq]
  cases Isa.decode_eq_some_iff.mp legal with
  | reg _ major f7 f3 =>
      rw [major]
      have extension : Isa.funct7 m.fetched = 0x01 := by
        rcases signed with rfl | rfl
        · exact f7
        · exact f7
      have refused := CPU.executeMulDiv_undefined signed overflow
      rw [← f3] at refused
      exact (if_pos extension).trans (congrArg (Option.map _) refused)

/-- `op x3, x1, x2` alone in memory, with its operands in registers. -/
def dividing (w a b : Word) : Machine Unit :=
  { ofWord w with
    cpu := { CPU.init with x := fun r => if r = 1 then a else if r = 2 then b else 0 } }

theorem dividing_fetchable (w a b : Word) : (dividing w a b).Fetchable where
  running := rfl
  holds := by
    show 4 ≤ (4 : Word).toNat
    decide
  accessible := by
    show Isa.Accessible (4 : Word).toNat 4 0
    decide

/-- `div x3, x1, x2` -/
def divWord : Word := 0x0220C1B3

theorem not_divides_of_overflow {a b : Word} (overflow : ¬ CPU.SignedDivisionDefined a b) :
    ¬ Divides a b := by
  rintro ⟨_, _, _, _, computed, _⟩
  have legal : Isa.decode (dividing divWord a b).fetched = some (.reg .div 3 1 2) := by
    show Isa.decode ((ofWord divWord).fetched) = _
    decide
  obtain ⟨m', stepped, _⟩ := computed Host.inert (dividing divWord a b) 3 1 2
    (dividing_fetchable _ a b) legal rfl rfl
  rw [step_undefined Host.inert (dividing_fetchable _ a b) legal (Or.inl rfl) overflow]
    at stepped
  cases stepped

/-- The four instructions give the quotients and remainders of the manual on
every pair but the one whose signed quotient overflows. -/
theorem divides_iff (a b : Word) : Divides a b ↔ ¬ (a = BitVec.intMin 32 ∧ b = -1) := by
  constructor
  · intro divides overflow
    exact not_divides_of_overflow (fun defined => defined overflow) divides
  · intro defined
    have signed := Division.signed_of_truncated (by decide) a b
    have unsigned := Division.unsigned_of_floored a b
    have always : ∀ op, op = Isa.RegOp.div ∨ op = .rem → CPU.SignedDivisionDefined a b :=
      fun _ _ => defined
    refine ⟨_, _, _, _, computes_eval .div (always _), computes_eval .rem (always _),
      computes_eval .divu (always _), computes_eval .remu (always _), signed, unsigned⟩

/-- -2147483648 divided by -1. -/
theorem not_divides_intMin : ¬ Divides 0x80000000 0xFFFFFFFF :=
  not_divides_of_overflow (by decide)

end Machine

end RiscvPack.Emulator
