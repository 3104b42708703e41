import RiscvPack.Isa.Semantics

/-!
# The reference machine and its environment

Runs of the reference semantics.  An `ecall` hands over to an environment of
which only the interface is fixed: it comes back behind the call with its
result in a0, having filled no more than the buffer it was given.
-/

namespace RiscvPack.Isa

/-- The word at the program counter. -/
def State.word (s : State) : Word :=
  Bits.ofLeBytes (s.mem s.pc) (s.mem (s.pc + 1)) (s.mem (s.pc + 2)) (s.mem (s.pc + 3))

/-- The numbers of the calls that end the program or fill a buffer. -/
def callExit : Word := 93
def callRead : Word := 63
def callFstat : Word := 80

/-- The registers of the system call interface. -/
def a0 : Reg := 10
def a1 : Reg := 11
def a2 : Reg := 12
def a7 : Reg := 17

/-- The bytes that a call may fill: a2 bytes at a1 for a read, 64 for an fstat. -/
def State.InBuffer (s : State) (b : Word) : Prop :=
  (s.x.get a7 = callRead ∧ (s.x.get a1).toNat ≤ b.toNat ∧
      b.toNat < (s.x.get a1).toNat + (s.x.get a2).toNat) ∨
    (s.x.get a7 = callFstat ∧ (s.x.get a1).toNat ≤ b.toNat ∧
      b.toNat < (s.x.get a1).toNat + 64)

/-- A call the environment has answered. -/
structure Serviced (s s' : State) : Prop where
  pc : s'.pc = s.pc + 4
  size : s'.size = s.size
  registers : ∀ r, r ≠ a0 → s'.x.get r = s.x.get r
  bytes : ∀ b, s'.mem b ≠ s.mem b → b.toNat < s.size ∧ s.InBuffer b

/-- One instruction, or one call. -/
inductive Transition (s : State) : State → Prop where
  | exec {i : Instr} {s' : State} : Accessible s.size 4 s.pc → decode s.word = some i →
      exec s i = some s' → Transition s s'
  | call {s' : State} : Accessible s.size 4 s.pc → decode s.word = some .ecall →
      s.x.get a7 ≠ callExit → Serviced s s' → Transition s s'

/-- `n` transitions. -/
inductive Trace : Nat → State → State → Prop where
  | refl (s : State) : Trace 0 s s
  | next {n : Nat} {s s₁ s₂ : State} : Transition s s₁ → Trace n s₁ s₂ → Trace (n + 1) s s₂

/-- Why the reference machine goes no further. -/
inductive Cause where
  | exit (code : Word)
  | misalignedFetch
  | fetchOutside
  | dataAccess
  deriving DecidableEq

inductive Halted (s : State) : Cause → Prop where
  | exit : Accessible s.size 4 s.pc → decode s.word = some .ecall → s.x.get a7 = callExit →
      Halted s (.exit (s.x.get a0))
  | misalignedFetch : s.pc.toNat % 4 ≠ 0 → Halted s .misalignedFetch
  | fetchOutside : s.pc.toNat % 4 = 0 → ¬ s.pc.toNat + 4 ≤ s.size → Halted s .fetchOutside
  | dataAccess {i : Instr} : Accessible s.size 4 s.pc → decode s.word = some i → i ≠ .ecall →
      exec s i = none → Halted s .dataAccess

theorem Trace.snoc {n : Nat} {s s₁ s₂ : State} (trace : Trace n s s₁)
    (last : Transition s₁ s₂) : Trace (n + 1) s s₂ := by
  induction trace with
  | refl => exact .next last (.refl _)
  | next first _ induction => exact .next first (induction last)

end RiscvPack.Isa
