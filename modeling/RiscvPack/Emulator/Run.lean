import RiscvPack.Emulator.StepRefinement

/-!
# Runs of the processor over loaded code

Sequences of successful steps, and the placement of code in memory.  A word
whose bytes stand at the program counter is the word the step fetches, so code
that decodes to reference instructions runs as the reference semantics says.
-/

namespace RiscvPack.Emulator.Machine

open Isa (Accessible)

variable {σ : Type}

/-- `n` steps that all return `CPU_OK`. -/
inductive Steps (h : Host σ) : Nat → Machine σ → Machine σ → Prop where
  | refl (m : Machine σ) : Steps h 0 m m
  | next {n : Nat} {m m₁ m₂ : Machine σ} :
      step h m = some (.ok, m₁) → Steps h n m₁ m₂ → Steps h (n + 1) m m₂

theorem Steps.trans {h : Host σ} {a b : Nat} {m m₁ m₂ : Machine σ}
    (first : Steps h a m m₁) (second : Steps h b m₁ m₂) :
    Steps h (a + b) m m₂ := by
  induction first with
  | refl =>
      rw [Nat.zero_add]
      exact second
  | next stepped _ induction =>
      rw [Nat.add_right_comm]
      exact .next stepped (induction second)

/-- The bytes stand in memory from address `a` on. -/
def Loaded (mem : Word → Byte) (a : Word) (bytes : List Byte) : Prop :=
  ∀ k, (inside : k < bytes.length) → mem (a + BitVec.ofNat 32 k) = bytes[k]

theorem Loaded.left {mem : Word → Byte} {a : Word} {front back : List Byte}
    (loaded : Loaded mem a (front ++ back)) : Loaded mem a front := by
  intro k inside
  rw [loaded k (by rw [List.length_append]; omega),
    List.getElem_append_left inside]

theorem Loaded.right {mem : Word → Byte} {a : Word} {front back : List Byte}
    (loaded : Loaded mem a (front ++ back)) :
    Loaded mem (a + BitVec.ofNat 32 front.length) back := by
  intro k inside
  have moved := loaded (front.length + k) (by rw [List.length_append]; omega)
  rw [List.getElem_append_right (by omega)] at moved
  rw [BitVec.add_assoc, ← BitVec.ofNat_add, moved]
  simp

theorem loaded_blit (mem : Memory) {a : Word} {bytes : List Byte}
    (fits : a.toNat + bytes.length ≤ 2 ^ 32) : Loaded (mem.blit a bytes).data a bytes := by
  intro k inside
  have position : (a + BitVec.ofNat 32 k).toNat = a.toNat + k := by
    rw [BitVec.toNat_add, BitVec.toNat_ofNat, Nat.mod_eq_of_lt (by omega : k < 2 ^ 32)]
    exact Nat.mod_eq_of_lt (by omega)
  simp only [Memory.blit, position]
  rw [if_pos ⟨by omega, by omega⟩, Nat.add_sub_cancel_left]
  rw [List.getD_eq_getElem?_getD, List.getElem?_eq_getElem inside]
  rfl

variable {m : Machine σ}

/-- The word that stands at the program counter is the word fetched. -/
theorem fetched_of_loaded {w : Word}
    (loaded : Loaded m.mem.data m.cpu.pc (Bits.leBytes w)) : m.fetched = w := by
  have zeroth : m.mem.data m.cpu.pc = w.extractLsb' 0 8 := by
    have byte := loaded 0 (by simp)
    rwa [BitVec.add_zero] at byte
  have first : m.mem.data (m.cpu.pc + 1) = w.extractLsb' 8 8 :=
    loaded 1 (by simp)
  have second : m.mem.data (m.cpu.pc + 2) = w.extractLsb' 16 8 :=
    loaded 2 (by simp)
  have third : m.mem.data (m.cpu.pc + 3) = w.extractLsb' 24 8 :=
    loaded 3 (by simp)
  rw [fetched, zeroth, first, second, third]
  exact Bits.ofLeBytes_extract w

/-- The processor runs, and `count` whole words starting at an aligned program
counter lie inside the memory. -/
structure Ready (m : Machine σ) (count : Nat) : Prop where
  running : m.cpu.running = true
  aligned : m.cpu.pc.toNat % 4 = 0
  inside : m.cpu.pc.toNat + 4 * count ≤ m.mem.size.toNat

theorem Ready.fetchable {count : Nat} (ready : m.Ready (count + 1)) :
    m.Fetchable where
  running := ready.running
  holds := by
    have := ready.inside
    omega
  accessible := ⟨ready.aligned, by
    have := ready.inside
    omega⟩

theorem Reaches.trans {m m₁ m₂ : Machine σ} {s s' : Isa.State}
    (first : m.Reaches s m₁) (second : m₁.Reaches s' m₂) : m.Reaches s' m₂ where
  arch := second.arch
  running := second.running.trans first.running
  size := second.size.trans first.size
  host := second.host.trans first.host

theorem steps_one (h : Host σ) {w : Word} {i : Isa.Instr} {s : Isa.State}
    (ready : m.Ready 1) (loaded : Loaded m.mem.data m.cpu.pc (Bits.leBytes w))
    (decodes : Isa.Decodes w i) (defined : ¬ Isa.DivOverflow m.arch i)
    (effect : Isa.exec m.arch i = some s) :
    ∃ m', Steps h 1 m m' ∧ m.Reaches s m' := by
  have legal : Isa.decode m.fetched = some i := by
    rw [fetched_of_loaded loaded]
    exact Isa.decode_eq_some_iff.mpr decodes
  obtain ⟨m', stepped, reaches⟩ := step_ok h ready.fetchable legal defined effect
  exact ⟨m', .next stepped (.refl m'), reaches⟩

/-- Two loaded words, the first of which only writes a register. -/
theorem steps_two (h : Host σ) {w₁ w₂ : Word} {i₁ i₂ : Isa.Instr} {r : Reg}
    {value : Word} {s : Isa.State} (ready : m.Ready 2)
    (loaded : Loaded m.mem.data m.cpu.pc (Bits.leBytes w₁ ++ Bits.leBytes w₂))
    (decodes₁ : Isa.Decodes w₁ i₁) (decodes₂ : Isa.Decodes w₂ i₂)
    (defined₁ : ¬ Isa.DivOverflow m.arch i₁)
    (defined₂ : ¬ Isa.DivOverflow (m.arch.writeNext r value) i₂)
    (effect₁ : Isa.exec m.arch i₁ = some (m.arch.writeNext r value))
    (effect₂ : Isa.exec (m.arch.writeNext r value) i₂ = some s) :
    ∃ m', Steps h 2 m m' ∧ m.Reaches s m' := by
  have inside := ready.inside
  have aligned := ready.aligned
  obtain ⟨m₁, first, reaches⟩ := steps_one h
    ⟨ready.running, aligned, by omega⟩ loaded.left decodes₁ defined₁ effect₁
  have pc : m₁.cpu.pc = m.cpu.pc + 4 := congrArg Isa.State.pc reaches.arch
  have data : m₁.mem.data = m.mem.data := congrArg Isa.State.mem reaches.arch
  have small := m.mem.size.isLt
  have next : m₁.cpu.pc.toNat = m.cpu.pc.toNat + 4 := by
    rw [pc, BitVec.toNat_add]
    exact Nat.mod_eq_of_lt (by simp; omega)
  have ready₁ : m₁.Ready 1 :=
    ⟨reaches.running.trans ready.running, by omega,
      by rw [reaches.size]; omega⟩
  obtain ⟨m₂, second, reached⟩ := steps_one h ready₁
    (by rw [pc, data]; exact loaded.right) decodes₂
    (by rw [reaches.arch]; exact defined₂) (by rw [reaches.arch]; exact effect₂)
  exact ⟨m₂, first.trans second, reaches.trans reached⟩

end RiscvPack.Emulator.Machine
