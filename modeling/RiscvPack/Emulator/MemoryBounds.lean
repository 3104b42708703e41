import RiscvPack.Emulator.Memory

/-!
# The bounds checks

The six accesses by width, and which of them succeed.  The halfword and word
checks compare the address with `size - n`, which wraps around on a memory
that does not hold a single access; there every aligned address passes.
-/

namespace RiscvPack.Emulator

open Runs
open Isa (Accessible)

inductive Width where
  | byte
  | half
  | word
  deriving DecidableEq, Repr

def Width.bytes : Width → Nat
  | .byte => 1
  | .half => 2
  | .word => 4

namespace Memory

/-- `read8`, `read16` and `read32`. -/
def read (m : Memory) : (n : Width) → Word → Except MemoryStatus (BitVec (8 * n.bytes))
  | .byte, addr => m.read8 addr
  | .half, addr => m.read16 addr
  | .word, addr => m.read32 addr

/-- `write8`, `write16` and `write32`. -/
def write (m : Memory) :
    (n : Width) → Word → BitVec (8 * n.bytes) → Outcome MemoryStatus Memory
  | .byte, addr, value => m.write8 addr value
  | .half, addr, value => m.write16 addr value
  | .word, addr, value => m.write32 addr value

/-- The checks of both accesses of a width at one address are exact, and what
they let through indexes `data` below `size`. -/
structure ExactAt (m : Memory) (n : Width) (addr : Word) : Prop where
  read : (∃ value, m.read n addr = .ok value) ↔ Accessible m.size.toNat n.bytes addr
  write : ∀ value,
    (∃ m', m.write n addr value = .done m') ↔ Accessible m.size.toNat n.bytes addr
  index : ((∃ value, m.read n addr = .ok value) ∨
      ∃ value m', m.write n addr value = .done m') →
    ∀ i, i < n.bytes → (addr + BitVec.ofNat 32 i).toNat < m.size.toNat

/-- What the source tests before an access. -/
def Passes (m : Memory) : Width → Word → Prop
  | .byte, addr => ¬ m.size ≤ addr
  | .half, addr => ¬ addr % 2 ≠ 0 ∧ ¬ m.size - 2 < addr
  | .word, addr => ¬ addr % 4 ≠ 0 ∧ ¬ m.size - 4 < addr

section

variable {m : Memory} {n : Width} {addr : Word}

private theorem one_check {α β : Type} {outside : Prop} [Decidable outside] {refusal : β}
    {success : α → β} {x : α} (apart : ∀ y, refusal ≠ success y) :
    (∃ y, (if outside then refusal else success x) = success y) ↔ ¬ outside := by
  by_cases fails : outside
  · simp [fails, apart]
  · rw [if_neg fails]
    exact iff_of_true ⟨x, rfl⟩ fails

private theorem two_checks {α β : Type} {misaligned outside : Prop} [Decidable misaligned]
    [Decidable outside] {refusal refusal' : β} {success : α → β} {x : α}
    (apart : ∀ y, refusal ≠ success y) (apart' : ∀ y, refusal' ≠ success y) :
    (∃ y, (if misaligned then refusal else if outside then refusal' else success x) =
      success y) ↔ ¬ misaligned ∧ ¬ outside := by
  by_cases fails : misaligned
  · simp [fails, apart]
  · rw [if_neg fails, one_check apart']
    exact (and_iff_right fails).symm

theorem read_ok_iff : (∃ value, m.read n addr = .ok value) ↔ m.Passes n addr := by
  cases n with
  | byte => exact one_check nofun
  | half => exact two_checks nofun nofun
  | word => exact two_checks nofun nofun

theorem write_ok_iff (value : BitVec (8 * n.bytes)) :
    (∃ m', m.write n addr value = .done m') ↔ m.Passes n addr := by
  cases n with
  | byte => exact one_check nofun
  | half => exact two_checks nofun nofun
  | word => exact two_checks nofun nofun

/-- The wrapping checks of a wide access on a memory that holds one. -/
private theorem wide_checks {size : Word} {width : Nat} (holds : width ≤ size.toNat) :
    (¬ addr % BitVec.ofNat 32 width ≠ 0 ∧ ¬ size - BitVec.ofNat 32 width < addr) ↔
      Accessible size.toNat width addr := by
  have small : width < 2 ^ 32 := Nat.lt_of_le_of_lt holds size.isLt
  rw [misaligned_iff small, beyond_iff holds, not_not, not_not]
  exact Iff.rfl

/-- On a smaller memory the difference wraps to at least the last aligned
address. -/
private theorem wide_checks_small {size : Word} {width : Nat} (small : size.toNat < width)
    (fits : width < 2 ^ 32) (divides : width ∣ 2 ^ 32) (aligned : addr.toNat % width = 0) :
    ¬ addr % BitVec.ofNat 32 width ≠ 0 ∧ ¬ size - BitVec.ofNat 32 width < addr := by
  have last : addr.toNat + width ≤ 2 ^ 32 := by
    obtain ⟨count, total⟩ := divides
    obtain ⟨k, position⟩ := Nat.dvd_of_mod_eq_zero aligned
    have below : width * k < width * count := by
      rw [← position, ← total]
      exact addr.isLt
    have next := Nat.mul_le_mul_left width (Nat.lt_of_mul_lt_mul_left below)
    rwa [Nat.mul_succ, ← position, ← total] at next
  have wrapped : (size - BitVec.ofNat 32 width).toNat = 2 ^ 32 - width + size.toNat := by
    rw [BitVec.toNat_sub, BitVec.toNat_ofNat, Nat.mod_eq_of_lt fits]
    exact Nat.mod_eq_of_lt (by omega)
  rw [misaligned_iff fits, not_not, BitVec.lt_def, wrapped]
  exact ⟨aligned, by omega⟩

/-- The checks agree with exact arithmetic on a memory that holds one access. -/
theorem passes_iff (holds : n = .byte ∨ n.bytes ≤ m.size.toNat) :
    m.Passes n addr ↔ Accessible m.size.toNat n.bytes addr := by
  cases n with
  | byte =>
      show ¬ m.size ≤ addr ↔ addr.toNat % 1 = 0 ∧ addr.toNat + 1 ≤ m.size.toNat
      rw [BitVec.le_def]
      omega
  | half => exact wide_checks (holds.resolve_left (by simp))
  | word => exact wide_checks (holds.resolve_left (by simp))

theorem passes_of_small (small : m.size.toNat < n.bytes) (wide : n ≠ .byte)
    (aligned : addr.toNat % n.bytes = 0) : m.Passes n addr := by
  cases n with
  | byte => exact absurd rfl wide
  | half => exact wide_checks_small small (by decide) (by decide) aligned
  | word => exact wide_checks_small small (by decide) (by decide) aligned

theorem aligned_of_passes (passes : m.Passes n addr) : addr.toNat % n.bytes = 0 := by
  cases n with
  | byte => exact Nat.mod_one _
  | half => exact not_not.mp (mt (misaligned_iff (by decide)).mpr passes.1)
  | word => exact not_not.mp (mt (misaligned_iff (by decide)).mpr passes.1)

theorem index_lt_of_accessible (accessible : Accessible m.size.toNat n.bytes addr) {i : Nat}
    (within : i < n.bytes) : (addr + BitVec.ofNat 32 i).toNat < m.size.toNat := by
  have inside := accessible.2
  have bound := m.size.isLt
  rw [BitVec.toNat_add, BitVec.toNat_ofNat, Nat.mod_eq_of_lt (by omega : i < 2 ^ 32),
    Nat.mod_eq_of_lt (by omega)]
  omega

theorem not_exactAt_of_small (small : m.size.toNat < n.bytes) (wide : n ≠ .byte)
    (aligned : addr.toNat % n.bytes = 0) : ¬ m.ExactAt n addr := by
  intro checked
  have passes := passes_of_small small wide aligned
  have accessible := checked.read.mp (read_ok_iff.mpr passes)
  have inside := accessible.2
  omega

/-- At an address the checks of a width are exact unless the memory is too
small for one access of that width and the address is aligned. -/
theorem exactAt_iff (m : Memory) (n : Width) (addr : Word) :
    m.ExactAt n addr ↔ n = .byte ∨ n.bytes ≤ m.size.toNat ∨ addr.toNat % n.bytes ≠ 0 := by
  constructor
  · intro checked
    by_contra unmet
    rw [not_or, not_or, not_le, not_not] at unmet
    obtain ⟨wide, small, aligned⟩ := unmet
    exact not_exactAt_of_small small wide aligned checked
  · intro condition
    have agree : m.Passes n addr ↔ Accessible m.size.toNat n.bytes addr := by
      rcases condition with isByte | holds | misaligned
      · exact passes_iff (Or.inl isByte)
      · exact passes_iff (Or.inr holds)
      · constructor
        · intro passes
          exact absurd (aligned_of_passes passes) misaligned
        · intro accessible
          exact absurd accessible.1 misaligned
    refine ⟨read_ok_iff.trans agree, fun value => (write_ok_iff value).trans agree, ?_⟩
    intro succeeds i within
    apply index_lt_of_accessible _ within
    apply agree.mp
    rcases succeeds with reads | ⟨value, writes⟩
    · exact read_ok_iff.mp reads
    · exact (write_ok_iff value).mp writes

/-- A word read at address zero of an empty memory. -/
theorem not_exactAt_empty : ¬ (init 0).ExactAt .word 0 :=
  not_exactAt_of_small (by decide) (by decide) (by decide)

end

end Memory

end RiscvPack.Emulator
