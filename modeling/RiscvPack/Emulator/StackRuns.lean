import RiscvPack.Emulator.Stack

/-!
# A stack inside the memory

Programs that push and pop words with the stack pointer where memory is.  As
long as the stack stays apart from the code, every step succeeds and every pop
loads the word of its push; only a pop into the stack pointer itself is out.
-/

namespace RiscvPack.Emulator

open Isa (Accessible Instr)

namespace Machine

variable {σ : Type} {h : Host σ} {m : Machine σ}

section Words

variable {mem : Word → Byte} {a b value : Word}

theorem byte_of_apart (fits : a.toNat + 4 ≤ 2 ^ 32)
    (apart : b.toNat < a.toNat ∨ a.toNat + 4 ≤ b.toNat) :
    Isa.StoreOp.sw.write mem a value b = mem b := by
  apply Isa.StoreOp.write_of_not_mem
  intro k below same
  have below : k < 4 := below
  have position := congrArg BitVec.toNat same
  rw [Bits.toNat_offset _ (by omega)] at position
  omega

theorem word_of_write : Isa.LoadOp.lw.value (Isa.StoreOp.sw.write mem a value) a = value := by
  have first : a ≠ a + 1 := by bv_omega
  have second : a ≠ a + 2 := by bv_omega
  have third : a ≠ a + 3 := by bv_omega
  have fourth : a + 1 ≠ a + 2 := by bv_omega
  have fifth : a + 1 ≠ a + 3 := by bv_omega
  have sixth : a + 2 ≠ a + 3 := by bv_omega
  simp only [Isa.LoadOp.value, Isa.StoreOp.write]
  rw [Function.update_of_ne third, Function.update_of_ne second, Function.update_of_ne first,
    Function.update_self, Function.update_of_ne fifth, Function.update_of_ne fourth,
    Function.update_self, Function.update_of_ne sixth, Function.update_self,
    Function.update_self]
  exact Bits.ofLeBytes_extract value

theorem word_of_apart (fitsA : a.toNat + 4 ≤ 2 ^ 32) (fitsB : b.toNat + 4 ≤ 2 ^ 32)
    (apart : b.toNat + 4 ≤ a.toNat ∨ a.toNat + 4 ≤ b.toNat) :
    Isa.LoadOp.lw.value (Isa.StoreOp.sw.write mem a value) b = Isa.LoadOp.lw.value mem b := by
  have first : (b + 1).toNat = b.toNat + 1 := Bits.toNat_offset 1 (by omega)
  have second : (b + 2).toNat = b.toNat + 2 := Bits.toNat_offset 2 (by omega)
  have third : (b + 3).toNat = b.toNat + 3 := Bits.toNat_offset 3 (by omega)
  simp only [Isa.LoadOp.value]
  rw [byte_of_apart fitsA (by omega), byte_of_apart fitsA (by omega),
    byte_of_apart fitsA (by omega), byte_of_apart fitsA (by omega)]

theorem slot_succ (p : Word) (i : Nat) :
    p + BitVec.ofNat 32 (4 * (i + 1)) = p + 4 + BitVec.ofNat 32 (4 * i) := by
  rw [Nat.mul_succ, BitVec.ofNat_add, show BitVec.ofNat 32 4 = 4 from rfl]
  ring

theorem words_of_push {p pushed : Word} {stack : List Word}
    (fits : p.toNat + 4 * (stack.length + 1) ≤ 2 ^ 32)
    (content : ∀ i value, stack[i]? = some value →
      Isa.LoadOp.lw.value mem (p + 4 + BitVec.ofNat 32 (4 * i)) = value) :
    ∀ i value, (pushed :: stack)[i]? = some value →
      Isa.LoadOp.lw.value (Isa.StoreOp.sw.write mem p pushed)
        (p + BitVec.ofNat 32 (4 * i)) = value := by
  intro i value found
  cases i with
  | zero =>
      cases found
      rw [Nat.mul_zero, BitVec.add_zero]
      exact word_of_write
  | succ i =>
      rw [List.getElem?_cons_succ] at found
      have within := (List.getElem?_eq_some_iff.mp found).1
      have old : (p + BitVec.ofNat 32 (4 * (i + 1))).toNat = p.toNat + 4 * (i + 1) :=
        Bits.toNat_offset _ (by omega)
      rw [word_of_apart (by omega) (by omega) (by omega), slot_succ]
      exact content i value found

end Words

section Code

/-- The words that the processor is about to run stand at its program counter. -/
structure Ahead (words : List Word) (m : Machine σ) : Prop where
  ready : m.Ready words.length
  code : Loaded m.mem.data m.cpu.pc (words.flatMap Bits.leBytes)

/-- One word is run, and the rest is ahead when it has not been overwritten. -/
theorem Ahead.step (h : Host σ) {w : Word} {rest : List Word} {i : Instr} {s : Isa.State}
    (ahead : Ahead (w :: rest) m) (decodes : Isa.decode w = some i)
    (defined : ¬ Isa.DivOverflow m.arch i) (effect : Isa.exec m.arch i = some s)
    (follows : s.pc = m.cpu.pc + 4)
    (kept : ∀ a : Word, m.cpu.pc.toNat + 4 ≤ a.toNat →
      a.toNat < m.cpu.pc.toNat + 4 + 4 * rest.length → s.mem a = m.mem.data a) :
    ∃ m', Machine.step h m = some (.ok, m') ∧ m.Reaches s m' ∧ Ahead rest m' := by
  have inside := ahead.ready.inside
  rw [List.length_cons] at inside
  have aligned := ahead.ready.aligned
  have bound := m.mem.size.isLt
  have code := ahead.code
  rw [List.flatMap_cons] at code
  have fetched : m.fetched = w := fetched_of_loaded code.left
  obtain ⟨m', stepped, reaches⟩ := step_ok h ahead.ready.fetchable
    (by rw [fetched]; exact decodes) defined effect
  have pc : m'.cpu.pc = m.cpu.pc + 4 := (congrArg Isa.State.pc reaches.arch).trans follows
  have data : m'.mem.data = s.mem := congrArg Isa.State.mem reaches.arch
  have next : m'.cpu.pc.toNat = m.cpu.pc.toNat + 4 := by
    rw [pc]
    exact Bits.toNat_offset 4 (by omega)
  refine ⟨m', stepped, reaches,
    ⟨reaches.running.trans ahead.ready.running, by omega, by rw [reaches.size]; omega⟩, ?_⟩
  intro k below
  have length := Bits.length_flatMap_leBytes rest
  have place : (m'.cpu.pc + BitVec.ofNat 32 k).toNat = m.cpu.pc.toNat + 4 + k := by
    rw [Bits.toNat_offset _ (by omega), next]
  rw [data, kept _ (by omega) (by omega), pc]
  exact code.right k below

end Code

/-- The words of a stack stand in memory below `top`, apart from the code that
is ahead; the stack may grow to `room` bytes. -/
structure OnStack (top room : Nat) (words stack : List Word) (m : Machine σ) : Prop where
  ahead : Ahead words m
  pointer : (m.cpu.regRead sp).toNat + 4 * stack.length = top
  aligned : top % 4 = 0
  inside : top ≤ m.mem.size.toNat
  reserved : room ≤ top
  apart : m.cpu.pc.toNat + 4 * words.length ≤ top - room ∨ top ≤ m.cpu.pc.toNat
  content : ∀ i value, stack[i]? = some value →
    Isa.LoadOp.lw.value m.mem.data (m.cpu.regRead sp + BitVec.ofNat 32 (4 * i)) = value

namespace OnStack

variable {top room : Nat} {words stack : List Word} {r : Reg} {w₁ w₂ value : Word}

theorem push (h : Host σ) (on : OnStack top room (w₁ :: w₂ :: words) stack m)
    (first : Isa.decode w₁ = some (.imm .addi sp sp (-4)))
    (second : Isa.decode w₂ = some (.store .sw r sp 0))
    (fits : 4 * (stack.length + 1) ≤ room) :
    ∃ m₁ m₂, Machine.step h m = some (.ok, m₁) ∧ Machine.step h m₁ = some (.ok, m₂) ∧
      OnStack top room words (m₁.cpu.regRead r :: stack) m₂ := by
  have pointer := on.pointer
  have reserved := on.reserved
  have aligned := on.aligned
  have inside := on.inside
  have apart := on.apart
  have bound := m.mem.size.isLt
  simp only [List.length_cons] at apart
  obtain ⟨m₁, stepped₁, reaches₁, ahead₁⟩ :=
    on.ahead.step h first id rfl rfl (fun _ _ _ => rfl)
  have pc₁ : m₁.cpu.pc = m.cpu.pc + 4 := congrArg Isa.State.pc reaches₁.arch
  have data₁ : m₁.mem.data = m.mem.data := congrArg Isa.State.mem reaches₁.arch
  have codeInside := on.ahead.ready.inside
  simp only [List.length_cons] at codeInside
  have next₁ : m₁.cpu.pc.toNat = m.cpu.pc.toNat + 4 := by
    rw [pc₁]
    exact Bits.toNat_offset 4 (by omega)
  have sp₁ : m₁.cpu.regRead sp = m.cpu.regRead sp + -4 := by
    have file := congrArg (fun s => s.x.get sp) reaches₁.arch
    exact file.trans (Isa.RegFile.get_set_self _ (by decide) _)
  have place : (m₁.cpu.regRead sp).toNat = (m.cpu.regRead sp).toNat - 4 := by
    rw [sp₁]
    bv_omega
  have accessible : Accessible m₁.arch.size 4 (m₁.cpu.regRead sp) := by
    refine ⟨by omega, ?_⟩
    show _ ≤ m₁.mem.size.toNat
    rw [reaches₁.size]
    omega
  have effect : Isa.exec m₁.arch (.store .sw r sp 0) =
      some { m₁.arch with
        mem := Isa.StoreOp.sw.write m₁.mem.data (m₁.cpu.regRead sp) (m₁.cpu.regRead r)
        pc := m₁.cpu.pc + 4 } := by
    have offset : m₁.arch.x.get sp + 0 = m₁.cpu.regRead sp := BitVec.add_zero _
    simp only [Isa.exec, offset]
    exact if_pos accessible
  obtain ⟨m₂, stepped₂, reaches₂, ahead₂⟩ := ahead₁.step h second id effect rfl (by
    intro a behind below
    exact byte_of_apart (by omega) (by omega))
  have pc₂ : m₂.cpu.pc = m₁.cpu.pc + 4 := congrArg Isa.State.pc reaches₂.arch
  have data₂ : m₂.mem.data =
      Isa.StoreOp.sw.write m₁.mem.data (m₁.cpu.regRead sp) (m₁.cpu.regRead r) :=
    congrArg Isa.State.mem reaches₂.arch
  have sp₂ : m₂.cpu.regRead sp = m₁.cpu.regRead sp :=
    congrArg (fun s => s.x.get sp) reaches₂.arch
  have next₂ : m₂.cpu.pc.toNat = m.cpu.pc.toNat + 8 := by
    rw [pc₂]
    have offset : (m₁.cpu.pc + 4).toNat = m₁.cpu.pc.toNat + 4 := Bits.toNat_offset 4 (by omega)
    omega
  refine ⟨m₁, m₂, stepped₁, stepped₂, ahead₂, ?_, aligned, ?_, reserved, by omega, ?_⟩
  · rw [sp₂, place, List.length_cons]
    omega
  · rw [reaches₂.size, reaches₁.size]
    exact inside
  · rw [data₂, sp₂, data₁]
    refine words_of_push (by omega) fun i value found => ?_
    have above : m₁.cpu.regRead sp + 4 = m.cpu.regRead sp := by
      rw [sp₁]
      ring
    rw [above]
    exact on.content i value found

theorem pop (h : Host σ) (on : OnStack top room (w₁ :: w₂ :: words) (value :: stack) m)
    (first : Isa.decode w₁ = some (.load .lw r sp 0))
    (second : Isa.decode w₂ = some (.imm .addi sp sp 4)) (other : r ≠ sp) :
    ∃ m₁ m₂, Machine.step h m = some (.ok, m₁) ∧ (r ≠ 0 → m₁.cpu.regRead r = value) ∧
      Machine.step h m₁ = some (.ok, m₂) ∧ OnStack top room words stack m₂ := by
  have pointer := on.pointer
  have aligned := on.aligned
  have inside := on.inside
  have apart := on.apart
  have bound := m.mem.size.isLt
  simp only [List.length_cons] at apart pointer
  have accessible : Accessible m.arch.size 4 (m.cpu.regRead sp) := by
    refine ⟨by omega, ?_⟩
    show _ ≤ m.mem.size.toNat
    omega
  have effect : Isa.exec m.arch (.load .lw r sp 0) =
      some (m.arch.writeNext r (Isa.LoadOp.lw.value m.mem.data (m.cpu.regRead sp))) := by
    have offset : m.arch.x.get sp + 0 = m.cpu.regRead sp := BitVec.add_zero _
    simp only [Isa.exec, offset]
    exact if_pos accessible
  obtain ⟨m₁, stepped₁, reaches₁, ahead₁⟩ :=
    on.ahead.step h first id effect rfl (fun _ _ _ => rfl)
  have loaded : Isa.LoadOp.lw.value m.mem.data (m.cpu.regRead sp) = value := by
    have content := on.content 0 value rfl
    rwa [Nat.mul_zero, BitVec.add_zero] at content
  have sp₁ : m₁.cpu.regRead sp = m.cpu.regRead sp := by
    have file := congrArg (fun s => s.x.get sp) reaches₁.arch
    exact file.trans (Isa.RegFile.get_set_ne _ (Ne.symm other) _)
  obtain ⟨m₂, stepped₂, reaches₂, ahead₂⟩ :=
    ahead₁.step h second id rfl rfl (fun _ _ _ => rfl)
  have pc₁ : m₁.cpu.pc = m.cpu.pc + 4 := congrArg Isa.State.pc reaches₁.arch
  have pc₂ : m₂.cpu.pc = m₁.cpu.pc + 4 := congrArg Isa.State.pc reaches₂.arch
  have data₁ : m₁.mem.data = m.mem.data := congrArg Isa.State.mem reaches₁.arch
  have data₂ : m₂.mem.data = m₁.mem.data := congrArg Isa.State.mem reaches₂.arch
  have sp₂ : m₂.cpu.regRead sp = m.cpu.regRead sp + 4 := by
    have file := congrArg (fun s => s.x.get sp) reaches₂.arch
    rw [← sp₁]
    exact file.trans (Isa.RegFile.get_set_self _ (by decide) _)
  have codeInside := on.ahead.ready.inside
  simp only [List.length_cons] at codeInside
  have next₂ : m₂.cpu.pc.toNat = m.cpu.pc.toNat + 8 := by
    rw [pc₂, pc₁, BitVec.add_assoc]
    exact Bits.toNat_offset 8 (by omega)
  refine ⟨m₁, m₂, stepped₁, ?_, stepped₂, ahead₂, ?_, aligned, ?_, on.reserved, by omega, ?_⟩
  · intro nonzero
    have file := congrArg (fun s => s.x.get r) reaches₁.arch
    rw [← loaded]
    exact file.trans (Isa.RegFile.get_set_self _ nonzero _)
  · have raised : (m.cpu.regRead sp + 4).toNat = (m.cpu.regRead sp).toNat + 4 :=
      Bits.toNat_offset 4 (by omega)
    rw [sp₂]
    omega
  · rw [reaches₂.size, reaches₁.size]
    exact inside
  · intro i value found
    rw [data₂, data₁, sp₂, ← slot_succ]
    exact on.content (i + 1) value found

theorem words_of_assembles {words : List Word} {op : StackOp} {ops : List StackOp}
    {i₁ i₂ : Instr} (code : op.code = [i₁, i₂])
    (assembled : StackOp.Assembles words (op :: ops)) :
    ∃ w₁ w₂ rest, words = w₁ :: w₂ :: rest ∧ Isa.decode w₁ = some i₁ ∧
      Isa.decode w₂ = some i₂ ∧ StackOp.Assembles rest ops := by
  unfold StackOp.Assembles at assembled
  rw [List.flatMap_cons, code] at assembled
  match words with
  | [] => cases assembled
  | [_] => cases (List.cons.inj assembled).2
  | w₁ :: w₂ :: rest =>
      have tail := (List.cons.inj assembled).2
      exact ⟨w₁, w₂, rest, rfl, (List.cons.inj assembled).1, (List.cons.inj tail).1,
        (List.cons.inj tail).2⟩

/-- By induction on the operations; the stack of words is the one the memory
holds. -/
theorem disciplined (h : Host σ) {ops : List StackOp}
    (on : OnStack top room words stack m) (assembled : StackOp.Assembles words ops)
    (fits : StackOp.Fits room stack.length ops) (kept : .pop sp ∉ ops) :
    Disciplined h m stack ops := by
  induction ops generalizing words stack m with
  | nil => trivial
  | cons op ops induction =>
      have later : .pop sp ∉ ops := fun member => kept (List.mem_cons_of_mem _ member)
      cases op with
      | push r =>
          obtain ⟨w₁, w₂, rest, rfl, first, second, assembled⟩ :=
            words_of_assembles rfl assembled
          obtain ⟨m₁, m₂, stepped₁, stepped₂, on⟩ := on.push h first second fits.1
          exact ⟨m₁, m₂, stepped₁, stepped₂, induction on assembled fits.2 later⟩
      | pop r =>
          obtain ⟨w₁, w₂, rest, rfl, first, second, assembled⟩ :=
            words_of_assembles rfl assembled
          have other : r ≠ sp := by
            rintro rfl
            exact kept (List.mem_cons_self ..)
          cases stack with
          | nil => exact absurd fits.1 (Nat.lt_irrefl 0)
          | cons value stack =>
              obtain ⟨m₁, m₂, stepped₁, loaded, stepped₂, on⟩ := on.pop h first second other
              exact ⟨m₁, m₂, stepped₁, loaded, stepped₂, induction on assembled fits.2 later⟩

end OnStack

/-- Whatever the operations, as long as they fit: with `room` bytes below an
aligned stack pointer inside the memory, apart from the code, every step
succeeds and every pop loads the word of its push. -/
theorem disciplined_of_inside (h : Host σ) {room : Nat} {words : List Word}
    {ops : List StackOp} (assembled : StackOp.Assembles words ops)
    (fits : StackOp.Fits room 0 ops) (kept : .pop sp ∉ ops) (ready : m.Ready words.length)
    (code : Loaded m.mem.data m.cpu.pc (words.flatMap Bits.leBytes))
    (aligned : (m.cpu.regRead sp).toNat % 4 = 0)
    (inside : (m.cpu.regRead sp).toNat ≤ m.mem.size.toNat)
    (reserved : room ≤ (m.cpu.regRead sp).toNat)
    (apart : m.cpu.pc.toNat + 4 * words.length ≤ (m.cpu.regRead sp).toNat - room ∨
      (m.cpu.regRead sp).toNat ≤ m.cpu.pc.toNat) :
    Disciplined h m [] ops :=
  OnStack.disciplined h
    { ahead := ⟨ready, code⟩
      pointer := rfl
      aligned
      inside
      reserved
      apart
      content := by
        intro i value found
        cases found }
    assembled fits kept

/-- One push and one pop below 0x1000. -/
theorem disciplined_of_inside_pushPop :
    ∃ m, boot () (pushPop.flatMap Bits.leBytes) 0 = some m ∧
      Disciplined Host.inert { m with cpu := m.cpu.regWrite sp 0x1000 } []
        [.push 10, .pop 11] := by
  obtain ⟨m, booted⟩ := boot_pushPop
  obtain ⟨loaded, cpu, size, _⟩ := loaded_of_boot booted
  have pc : (m.cpu.regWrite sp 0x1000).pc = 0 := by rw [cpu]; rfl
  have pointer : (m.cpu.regWrite sp 0x1000).regRead sp = 0x1000 := by rw [cpu]; rfl
  have assembled : StackOp.Assembles pushPop [.push 10, .pop 11] := by decide
  have fits : StackOp.Fits 4 0 [.push 10, .pop 11] := ⟨by decide, by decide, trivial⟩
  refine ⟨m, booted, disciplined_of_inside Host.inert assembled fits (by decide)
    ⟨?_, ?_, ?_⟩ ?_ ?_ ?_ ?_ ?_⟩
  · show (m.cpu.regWrite sp 0x1000).running = true
    rw [cpu]
    rfl
  · show (m.cpu.regWrite sp 0x1000).pc.toNat % 4 = 0
    rw [pc]
    rfl
  · show (m.cpu.regWrite sp 0x1000).pc.toNat + 4 * 4 ≤ m.mem.size.toNat
    rw [pc, size]
    decide
  · have start : (m.cpu.regWrite sp 0x1000).pc = m.cpu.pc := by rw [pc, cpu]
    show Loaded m.mem.data (m.cpu.regWrite sp 0x1000).pc _
    rw [start]
    exact loaded
  · show ((m.cpu.regWrite sp 0x1000).regRead sp).toNat % 4 = 0
    rw [pointer]
    rfl
  · show ((m.cpu.regWrite sp 0x1000).regRead sp).toNat ≤ m.mem.size.toNat
    rw [pointer, size]
    decide
  · show 4 ≤ ((m.cpu.regWrite sp 0x1000).regRead sp).toNat
    rw [pointer]
    decide
  · left
    show (m.cpu.regWrite sp 0x1000).pc.toNat + 4 * 4 ≤
      ((m.cpu.regWrite sp 0x1000).regRead sp).toNat - 4
    rw [pc, pointer]
    decide

end Machine

end RiscvPack.Emulator
