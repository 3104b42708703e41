import RiscvPack.Lib.Runs
import RiscvPack.Isa.Semantics

/-!
# The emulator's memory

`Memory` of `memory.cpp`: a byte array with bounds and alignment checks.  An
index is a 32-bit address, so `data` is total here, while in the source an
index at or above `size` lies outside the allocation.  The wrapping checks
are exact as soon as the memory is large enough for one access.
-/

namespace RiscvPack.Emulator

open Runs

/-- `memory_status_t` without `MEM_OK`, which is the `ok` of a read and the
`done` of a write. -/
inductive MemoryStatus where
  | readError
  | writeError
  | misalignedError
  deriving DecidableEq, Repr

structure Memory where
  size : Word
  data : Word → Byte

namespace Memory

/-- `Memory::Memory`: every byte is zero. -/
def init (size : Word) : Memory where
  size := size
  data := fun _ => 0

/-- `data[addr] = value`. -/
def put (m : Memory) (addr : Word) (value : Byte) : Memory :=
  { m with data := Function.update m.data addr value }

def read8 (m : Memory) (addr : Word) : Except MemoryStatus Byte :=
  if m.size ≤ addr then .error .readError else .ok (m.data addr)

def write8 (m : Memory) (addr : Word) (value : Byte) :
    Outcome MemoryStatus Memory :=
  if m.size ≤ addr then .stopped .writeError m else .done (m.put addr value)

def read16 (m : Memory) (addr : Word) : Except MemoryStatus (BitVec 16) :=
  if addr % 2 ≠ 0 then .error .misalignedError
  else if m.size - 2 < addr then .error .readError
  else
    .ok (((m.data addr).setWidth 32 |||
      ((m.data (addr + 1)).setWidth 32 <<< 8)).setWidth 16)

def write16 (m : Memory) (addr : Word) (value : BitVec 16) :
    Outcome MemoryStatus Memory :=
  if addr % 2 ≠ 0 then .stopped .misalignedError m
  else if m.size - 2 < addr then .stopped .writeError m
  else
    .done ((m.put addr ((value &&& 0xFF).setWidth 8)).put (addr + 1)
      (((value >>> 8) &&& 0xFF).setWidth 8))

def read32 (m : Memory) (addr : Word) : Except MemoryStatus Word :=
  if addr % 4 ≠ 0 then .error .misalignedError
  else if m.size - 4 < addr then .error .readError
  else
    .ok ((m.data addr).setWidth 32 |||
      ((m.data (addr + 1)).setWidth 32 <<< 8) |||
      ((m.data (addr + 2)).setWidth 32 <<< 16) |||
      ((m.data (addr + 3)).setWidth 32 <<< 24))

def write32 (m : Memory) (addr : Word) (value : Word) :
    Outcome MemoryStatus Memory :=
  if addr % 4 ≠ 0 then .stopped .misalignedError m
  else if m.size - 4 < addr then .stopped .writeError m
  else
    .done ((((m.put addr ((value &&& 0xFF).setWidth 8)).put (addr + 1)
      (((value >>> 8) &&& 0xFF).setWidth 8)).put (addr + 2)
      (((value >>> 16) &&& 0xFF).setWidth 8)).put (addr + 3)
      (((value >>> 24) &&& 0xFF).setWidth 8))

/-- `memcpy(&data[addr], bytes, n)`: the host writes `bytes` from `addr` on. -/
def blit (m : Memory) (addr : Word) (bytes : List Byte) : Memory :=
  { m with
    data := fun a =>
      if addr.toNat ≤ a.toNat ∧ a.toNat < addr.toNat + bytes.length then
        bytes.getD (a.toNat - addr.toNat) 0
      else m.data a }

/-- The bytes `data[addr] .. data[addr + count - 1]`. -/
def slice (m : Memory) (addr : Word) (count : Nat) : List Byte :=
  (List.range count).map fun i => m.data (addr + BitVec.ofNat 32 i)

@[simp] theorem put_size (m : Memory) (addr : Word) (value : Byte) :
    (m.put addr value).size = m.size := rfl

@[simp] theorem put_data (m : Memory) (addr : Word) (value : Byte) :
    (m.put addr value).data = Function.update m.data addr value := rfl

section Checks

open Isa (Accessible)

theorem misaligned_iff {addr : Word} {n : Nat} (small : n < 2 ^ 32) :
    addr % BitVec.ofNat 32 n ≠ 0 ↔ addr.toNat % n ≠ 0 := by
  rw [ne_eq, ne_eq, ← BitVec.toNat_inj, BitVec.toNat_umod, BitVec.toNat_ofNat,
    Nat.mod_eq_of_lt small]
  rfl

/-- The wrapping bounds check agrees with the exact one as soon as the memory
holds one access. -/
theorem beyond_iff {size addr : Word} {n : Nat}
    (holds : n ≤ size.toNat) :
    size - BitVec.ofNat 32 n < addr ↔ ¬ addr.toNat + n ≤ size.toNat := by
  have small : n < 2 ^ 32 := Nat.lt_of_le_of_lt holds size.isLt
  have difference : (size - BitVec.ofNat 32 n).toNat = size.toNat - n := by
    rw [BitVec.toNat_sub_of_le]
    · rw [BitVec.toNat_ofNat, Nat.mod_eq_of_lt small]
    · rw [BitVec.le_def, BitVec.toNat_ofNat, Nat.mod_eq_of_lt small]
      exact holds
  rw [BitVec.lt_def, difference]
  omega

theorem read8_of_accessible {m : Memory} {addr : Word}
    (accessible : Accessible m.size.toNat 1 addr) :
    m.read8 addr = .ok (m.data addr) := by
  have inside : ¬ m.size ≤ addr := by
    rw [BitVec.le_def]
    have := accessible.2
    omega
  rw [read8, if_neg inside]

theorem read8_of_not_accessible {m : Memory} {addr : Word}
    (refused : ¬ Accessible m.size.toNat 1 addr) :
    m.read8 addr = .error .readError := by
  have outside : m.size ≤ addr := by
    rw [BitVec.le_def]
    by_contra inside
    exact refused ⟨Nat.mod_one _, by omega⟩
  rw [read8, if_pos outside]

theorem write8_of_accessible {m : Memory} {addr : Word}
    (accessible : Accessible m.size.toNat 1 addr) (value : Byte) :
    m.write8 addr value = .done (m.put addr value) := by
  have inside : ¬ m.size ≤ addr := by
    rw [BitVec.le_def]
    have := accessible.2
    omega
  rw [write8, if_neg inside]

theorem write8_of_not_accessible {m : Memory} {addr : Word}
    (refused : ¬ Accessible m.size.toNat 1 addr) (value : Byte) :
    m.write8 addr value = .stopped .writeError m := by
  have outside : m.size ≤ addr := by
    rw [BitVec.le_def]
    by_contra inside
    exact refused ⟨Nat.mod_one _, by omega⟩
  rw [write8, if_pos outside]

/-- What an aligned wider access finds out from its two checks. -/
private theorem checked_access {α : Type} {size addr : Word} {n : Nat}
    (holds : n ≤ size.toNat) (misaligned outOfBounds success : α) :
    (if addr % BitVec.ofNat 32 n ≠ 0 then misaligned
      else if size - BitVec.ofNat 32 n < addr then outOfBounds
      else success) =
    if Accessible size.toNat n addr then success
    else if addr.toNat % n ≠ 0 then misaligned
    else outOfBounds := by
  have small : n < 2 ^ 32 := Nat.lt_of_le_of_lt holds size.isLt
  simp only [misaligned_iff small, beyond_iff holds, Accessible]
  by_cases aligned : addr.toNat % n = 0 <;>
    by_cases inside : addr.toNat + n ≤ size.toNat <;>
    simp [aligned, inside]

variable {m : Memory} {addr : Word}

/-- What a checked access returns, it returns behind its checks. -/
private theorem of_checked {α : Type} {first second : Prop} [Decidable first]
    [Decidable second] {refusal refusal' : MemoryStatus} {success : α} {result : α}
    (returned : (if first then Except.error refusal
      else if second then .error refusal' else .ok success) = .ok result) :
    result = success := by
  split at returned
  · cases returned
  split at returned
  · cases returned
  · cases returned
    rfl

theorem read8_value {value : Byte} (read : m.read8 addr = .ok value) :
    value = m.data addr := by
  unfold read8 at read
  split at read
  · cases read
  · cases read
    rfl

theorem read16_value {value : BitVec 16} (read : m.read16 addr = .ok value) :
    value = ((m.data addr).setWidth 32 |||
      ((m.data (addr + 1)).setWidth 32 <<< 8)).setWidth 16 :=
  of_checked read

theorem read32_value {value : Word} (read : m.read32 addr = .ok value) :
    value = Bits.ofLeBytes (m.data addr) (m.data (addr + 1)) (m.data (addr + 2))
      (m.data (addr + 3)) :=
  of_checked read

private theorem of_checked_done {first second : Prop} [Decidable first] [Decidable second]
    {refusal refusal' : MemoryStatus} {success m' : Memory}
    (written : (if first then Outcome.stopped refusal m
      else if second then .stopped refusal' m else .done success) = .done m') :
    m' = success := by
  split at written
  · cases written
  split at written
  · cases written
  · cases written
    rfl

/-- A checked write that is refused has not begun. -/
private theorem of_checked_stopped {first second : Prop} [Decidable first] [Decidable second]
    {refusal refusal' status : MemoryStatus} {success m' : Memory}
    (refused : (if first then Outcome.stopped refusal m
      else if second then .stopped refusal' m else .done success) = .stopped status m') :
    m' = m := by
  split at refused
  · cases refused
    rfl
  split at refused
  · cases refused
    rfl
  · cases refused

theorem write8_value {value : Byte} {m' : Memory}
    (written : m.write8 addr value = .done m') : m' = m.put addr value := by
  unfold write8 at written
  split at written
  · cases written
  · cases written
    rfl

theorem write16_value {value : BitVec 16} {m' : Memory}
    (written : m.write16 addr value = .done m') :
    m' = (m.put addr ((value &&& 0xFF).setWidth 8)).put (addr + 1)
      (((value >>> 8) &&& 0xFF).setWidth 8) :=
  of_checked_done written

theorem write32_value {value : Word} {m' : Memory}
    (written : m.write32 addr value = .done m') :
    m' = (((m.put addr ((value &&& 0xFF).setWidth 8)).put (addr + 1)
      (((value >>> 8) &&& 0xFF).setWidth 8)).put (addr + 2)
      (((value >>> 16) &&& 0xFF).setWidth 8)).put (addr + 3)
      (((value >>> 24) &&& 0xFF).setWidth 8) :=
  of_checked_done written

theorem write8_refused {value : Byte} {status : MemoryStatus} {m' : Memory}
    (refused : m.write8 addr value = .stopped status m') : m' = m := by
  unfold write8 at refused
  split at refused
  · cases refused
    rfl
  · cases refused

theorem write16_refused {value : BitVec 16} {status : MemoryStatus} {m' : Memory}
    (refused : m.write16 addr value = .stopped status m') : m' = m :=
  of_checked_stopped refused

theorem write32_refused {value : Word} {status : MemoryStatus} {m' : Memory}
    (refused : m.write32 addr value = .stopped status m') : m' = m :=
  of_checked_stopped refused

theorem read16_of_accessible (holds : 2 ≤ m.size.toNat)
    (accessible : Accessible m.size.toNat 2 addr) :
    m.read16 addr =
      .ok (((m.data addr).setWidth 32 |||
        ((m.data (addr + 1)).setWidth 32 <<< 8)).setWidth 16) :=
  (checked_access holds _ _ _).trans (if_pos accessible)

theorem read16_of_not_accessible (holds : 2 ≤ m.size.toNat)
    (refused : ¬ Accessible m.size.toNat 2 addr) :
    m.read16 addr =
      .error (if addr.toNat % 2 ≠ 0 then .misalignedError else .readError) := by
  refine (checked_access holds _ _ _).trans ?_
  rw [if_neg refused]
  split <;> rfl

theorem write16_of_accessible (holds : 2 ≤ m.size.toNat)
    (accessible : Accessible m.size.toNat 2 addr) (value : BitVec 16) :
    m.write16 addr value =
      .done ((m.put addr ((value &&& 0xFF).setWidth 8)).put (addr + 1)
        (((value >>> 8) &&& 0xFF).setWidth 8)) :=
  (checked_access holds _ _ _).trans (if_pos accessible)

theorem write16_of_not_accessible (holds : 2 ≤ m.size.toNat)
    (refused : ¬ Accessible m.size.toNat 2 addr) (value : BitVec 16) :
    m.write16 addr value =
      .stopped (if addr.toNat % 2 ≠ 0 then .misalignedError else .writeError) m := by
  refine (checked_access holds _ _ _).trans ?_
  rw [if_neg refused]
  split <;> rfl

theorem read32_of_accessible (holds : 4 ≤ m.size.toNat)
    (accessible : Accessible m.size.toNat 4 addr) :
    m.read32 addr =
      .ok (Bits.ofLeBytes (m.data addr) (m.data (addr + 1))
        (m.data (addr + 2)) (m.data (addr + 3))) :=
  (checked_access holds _ _ _).trans (if_pos accessible)

theorem read32_of_not_accessible (holds : 4 ≤ m.size.toNat)
    (refused : ¬ Accessible m.size.toNat 4 addr) :
    m.read32 addr =
      .error (if addr.toNat % 4 ≠ 0 then .misalignedError else .readError) := by
  refine (checked_access holds _ _ _).trans ?_
  rw [if_neg refused]
  split <;> rfl

theorem write32_of_accessible (holds : 4 ≤ m.size.toNat)
    (accessible : Accessible m.size.toNat 4 addr) (value : Word) :
    m.write32 addr value =
      .done ((((m.put addr ((value &&& 0xFF).setWidth 8)).put (addr + 1)
        (((value >>> 8) &&& 0xFF).setWidth 8)).put (addr + 2)
        (((value >>> 16) &&& 0xFF).setWidth 8)).put (addr + 3)
        (((value >>> 24) &&& 0xFF).setWidth 8)) :=
  (checked_access holds _ _ _).trans (if_pos accessible)

theorem write32_of_not_accessible (holds : 4 ≤ m.size.toNat)
    (refused : ¬ Accessible m.size.toNat 4 addr) (value : Word) :
    m.write32 addr value =
      .stopped (if addr.toNat % 4 ≠ 0 then .misalignedError else .writeError) m := by
  refine (checked_access holds _ _ _).trans ?_
  rw [if_neg refused]
  split <;> rfl

end Checks

end Memory

end RiscvPack.Emulator
