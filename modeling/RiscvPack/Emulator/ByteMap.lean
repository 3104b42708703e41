import RiscvPack.Lib.History
import RiscvPack.Emulator.Operations

/-!
# The memory is a byte map

Calls of `write8`, `write16` and `write32` in any order, against the history
of the bytes that the accepted ones wrote.  What a later read of any width
returns is put together from the bytes written last, least significant first.
-/

namespace RiscvPack.Emulator

open Runs
open Isa (Accessible)

/-- A call of one of the three write functions. -/
inductive Write where
  | write8 (addr : Word) (value : Byte)
  | write16 (addr : Word) (value : BitVec 16)
  | write32 (addr : Word) (value : Word)
  deriving DecidableEq, Repr

namespace Write

def addr : Write → Word
  | write8 a _ | write16 a _ | write32 a _ => a

def width : Write → Nat
  | write8 _ _ => 1
  | write16 _ _ => 2
  | write32 _ _ => 4

/-- The bytes of a call, least significant first. -/
def bytes : Write → List (Word × Byte)
  | write8 a value => [(a, value)]
  | write16 a value =>
      [(a, value.extractLsb' 0 8), (a + 1, value.extractLsb' 8 8)]
  | write32 a value =>
      [(a, value.extractLsb' 0 8), (a + 1, value.extractLsb' 8 8),
        (a + 2, value.extractLsb' 16 8), (a + 3, value.extractLsb' 24 8)]

def call (m : Memory) : Write → Outcome MemoryStatus Memory
  | write8 a value => m.write8 a value
  | write16 a value => m.write16 a value
  | write32 a value => m.write32 a value

theorem refused {m m' : Memory} {status : MemoryStatus} (w : Write)
    (result : w.call m = .stopped status m') : m' = m := by
  cases w with
  | write8 a value => exact Memory.write8_refused result
  | write16 a value => exact Memory.write16_refused result
  | write32 a value => exact Memory.write32_refused result

end Write

namespace Memory

/-- The memory after a call, refused or not. -/
def after (m : Memory) (w : Write) : Memory := (w.call m).last

def afterAll (m : Memory) (calls : List Write) : Memory := calls.foldl after m

/-- The bytes that the accepted calls write, in order. -/
def accepted (m : Memory) : List Write → List (Word × Byte)
  | [] => []
  | w :: calls => (if (w.call m).succeeds then w.bytes else []) ++ (m.after w).accepted calls

variable {m : Memory}

theorem byte_of_half (value : BitVec 16) :
    ((value &&& 0xFF).setWidth 8 : Byte) = value.extractLsb' 0 8 ∧
      (((value >>> 8) &&& 0xFF).setWidth 8 : Byte) = value.extractLsb' 8 8 := by
  constructor
  · apply BitVec.eq_of_getLsbD_eq
    intro i inRange
    interval_cases i <;> simp
  · apply BitVec.eq_of_getLsbD_eq
    intro i inRange
    interval_cases i <;> simp

/-- What each of the three functions does, and when it refuses. -/
theorem call_eq (holds : 4 ≤ m.size.toNat) (w : Write) :
    (Accessible m.size.toNat w.width w.addr ∧
        w.call m = .done { m with data := History.replay m.data w.bytes }) ∨
      ¬ Accessible m.size.toNat w.width w.addr ∧ ∃ status, w.call m = .stopped status m := by
  by_cases accessible : Accessible m.size.toNat w.width w.addr
  · refine .inl ⟨accessible, ?_⟩
    cases w with
    | write8 a value => exact write8_of_accessible accessible value
    | write16 a value =>
        refine (write16_of_accessible (by omega) accessible value).trans ?_
        rw [(byte_of_half value).1, (byte_of_half value).2]
        rfl
    | write32 a value =>
        refine (write32_of_accessible holds accessible value).trans ?_
        rw [CPU.low_byte_field, CPU.byte_field, CPU.byte_field, CPU.byte_field]
        rfl
  · refine .inr ⟨accessible, ?_⟩
    cases w with
    | write8 a value => exact ⟨_, write8_of_not_accessible accessible value⟩
    | write16 a value => exact ⟨_, write16_of_not_accessible (by omega) accessible value⟩
    | write32 a value => exact ⟨_, write32_of_not_accessible holds accessible value⟩

theorem after_size (holds : 4 ≤ m.size.toNat) (w : Write) : (m.after w).size = m.size := by
  unfold after
  rcases call_eq holds w with ⟨_, written⟩ | ⟨_, status, refused⟩
  · rw [written]
    rfl
  · rw [refused]
    rfl

theorem after_data (holds : 4 ≤ m.size.toNat) (w : Write) :
    (m.after w).data =
      History.replay m.data (if (w.call m).succeeds then w.bytes else []) := by
  unfold after
  rcases call_eq holds w with ⟨_, written⟩ | ⟨_, status, refused⟩
  · rw [written]
    rfl
  · rw [refused]
    rfl

theorem afterAll_eq (holds : 4 ≤ m.size.toNat) (calls : List Write) :
    (m.afterAll calls).size = m.size ∧
      (m.afterAll calls).data = History.replay m.data (m.accepted calls) := by
  induction calls generalizing m with
  | nil => exact ⟨rfl, rfl⟩
  | cons w calls induction =>
      have size := after_size holds w
      obtain ⟨sizes, data⟩ := induction (m := m.after w) (by rw [size]; exact holds)
      constructor
      · exact sizes.trans size
      · rw [accepted, History.replay_append, ← after_data holds w]
        exact data

theorem halfword_append (low high : Byte) :
    ((low.setWidth 32 ||| (high.setWidth 32 <<< 8)).setWidth 16 : BitVec 16) =
      high ++ low := by
  apply BitVec.eq_of_getLsbD_eq
  intro i inRange
  simp only [BitVec.getLsbD_setWidth, BitVec.getLsbD_append]
  interval_cases i <;> simp

theorem word_append (b₀ b₁ b₂ b₃ : Byte) :
    Bits.ofLeBytes b₀ b₁ b₂ b₃ = (b₃ ++ b₂ ++ b₁ ++ b₀ : BitVec (8 + 8 + 8 + 8)) := by
  apply BitVec.eq_of_getLsbD_eq
  intro i inRange
  simp only [Bits.ofLeBytes, BitVec.getLsbD_or, BitVec.getLsbD_append]
  interval_cases i <;> simp

/-- The memory is a little-endian byte map: after any calls of the write
functions on a new memory, a read that is aligned and in bounds returns the
bytes that the accepted calls wrote last, zero where none did, and a call is
refused exactly when it is misaligned or out of bounds and then changes
nothing. -/
theorem memory_is_byte_map (size : Word) (holds : 4 ≤ size.toNat) (calls : List Write) :
    let m := (init size).afterAll calls
    let byte := fun a => (History.latest ((init size).accepted calls) a).getD 0
    (∀ a, Accessible size.toNat 1 a → m.read8 a = .ok (byte a)) ∧
      (∀ a, Accessible size.toNat 2 a →
        m.read16 a = .ok (byte (a + 1) ++ byte a : BitVec (8 + 8))) ∧
      (∀ a, Accessible size.toNat 4 a →
        m.read32 a = .ok (byte (a + 3) ++ byte (a + 2) ++ byte (a + 1) ++ byte a :
          BitVec (8 + 8 + 8 + 8))) ∧
      ∀ w : Write,
        ((∃ status m', w.call m = .stopped status m') ↔
          ¬ Accessible size.toNat w.width w.addr) ∧
        ∀ status m', w.call m = .stopped status m' → m' = m := by
  intro m byte
  obtain ⟨sameSize, history⟩ := afterAll_eq (m := init size) holds calls
  have sizes : m.size = size := sameSize
  have data (a : Word) : m.data a = byte a := by
    rw [show m.data = _ from history, History.replay_eq]
    rfl
  have holdsM : 4 ≤ m.size.toNat := by rwa [sizes]
  refine ⟨?_, ?_, ?_, ?_⟩
  · intro a accessible
    rw [← sizes] at accessible
    rw [read8_of_accessible accessible, data]
  · intro a accessible
    rw [← sizes] at accessible
    rw [read16_of_accessible (by omega) accessible, halfword_append, data, data]
  · intro a accessible
    rw [← sizes] at accessible
    rw [read32_of_accessible holdsM accessible, word_append, data, data, data, data]
  · intro w
    constructor
    · rcases call_eq holdsM w with ⟨accessible, written⟩ | ⟨refused, status, result⟩
      · rw [sizes] at accessible
        constructor
        · rintro ⟨status, m', result⟩
          rw [written] at result
          cases result
        · intro refused
          exact absurd accessible refused
      · rw [sizes] at refused
        exact iff_of_true ⟨status, m, result⟩ refused
    · intro status m' result
      exact w.refused result

/-- A byte and a refused halfword over a word. -/
theorem memory_is_byte_map_overlap :
    let calls := [Write.write32 4 0x11223344, .write8 5 0xAA, .write16 7 0xBBCC]
    ((init 8).afterAll calls).read32 4 = .ok 0x1122AA44 := by
  intro calls
  have map := memory_is_byte_map 8 (by decide) calls
  rw [map.2.2.1 4 (by decide)]
  decide +kernel

end Memory

end RiscvPack.Emulator
