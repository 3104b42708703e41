import RiscvPack.Emulator.Run
import RiscvPack.Emulator.Syscalls

/-!
# What system calls report

Calls whose buffer leaves the memory, and the path that `openat` hands to the
host.  Write and read refuse a bad buffer; `fstat` only skips its copy and
reports the host's success, and never copies more than 64 bytes of its
structure.  `openat` cuts a path that is unterminated or does not fit its
buffer, and opens what is left.
-/

namespace RiscvPack.Emulator

/-- The host with a record of the paths that `open` is called with. -/
def Host.logged {σ : Type} (h : Host σ) : Host (σ × List (List Byte)) where
  write := fun fd bytes s =>
    let (result, host) := h.write fd bytes s.1
    (result, (host, s.2))
  read := fun fd count s =>
    let (result, bytes, host) := h.read fd count s.1
    (result, bytes, (host, s.2))
  openFile := fun path flags mode s =>
    let (result, host) := h.openFile path flags mode s.1
    (result, (host, s.2 ++ [path]))
  close := fun fd s =>
    let (result, host) := h.close fd s.1
    (result, (host, s.2))
  fstat := fun fd s =>
    let (result, st, host) := h.fstat fd s.1
    (result, st, (host, s.2))
  statSize := h.statSize

/-- A host on which `fstat` succeeds. -/
def Host.statting : Host Unit :=
  { Host.inert with fstat := fun _ s => (0, List.replicate 144 0, s) }

namespace Machine

variable {σ : Type}

/-- The number of bytes of the buffer that a1 names, for the calls that have
one. -/
def bufferSize (h : Host σ) (m : Machine σ) : Option Nat :=
  if m.cpu.x 17 = sysWrite ∨ m.cpu.x 17 = sysRead then some (m.cpu.x 12).toNat
  else if m.cpu.x 17 = sysFstat then some h.statSize
  else none

/-- A value that reports neither success nor a count. -/
def Failure (value : Word) : Prop := value.toInt < 0

instance (value : Word) : Decidable (Failure value) :=
  inferInstanceAs (Decidable (_ < _))

/-- The whole structure that the host's `fstat` fills in. -/
def statStructure (h : Host σ) (m : Machine σ) : List Byte :=
  (h.fstat (m.cpu.x 10) m.host).2.1.take h.statSize

/-- a0 is what the host reports.  The host was handed the buffer of a write;
the buffer of a read holds what the host produced, and that of an fstat that
reports zero the whole structure. -/
structure Transferred (h : Host σ) (m m' : Machine σ) : Prop where
  write : m.cpu.x 17 = sysWrite →
    (m'.cpu.x 10, m'.host) =
      h.write (m.cpu.x 10) (m.mem.slice (m.cpu.x 11) (m.cpu.x 12).toNat) m.host
  read : m.cpu.x 17 = sysRead →
    m'.cpu.x 10 = (h.read (m.cpu.x 10) (m.cpu.x 12).toNat m.host).1 ∧
      Loaded m'.mem.data (m.cpu.x 11) (h.read (m.cpu.x 10) (m.cpu.x 12).toNat m.host).2.1
  fstat : m.cpu.x 17 = sysFstat →
    m'.cpu.x 10 = (h.fstat (m.cpu.x 10) m.host).1 ∧
      (m'.cpu.x 10 = 0 → Loaded m'.mem.data (m.cpu.x 11) (statStructure h m))

/-- A call with a bad buffer fails and leaves the memory alone; one that does
not fail has a good buffer and has moved its data. -/
structure RespectsBuffer (h : Host σ) (m : Machine σ) : Prop where
  bad : ∀ count, bufferSize h m = some count →
    m.mem.size.toNat < (m.cpu.x 11).toNat + count →
    Failure ((handleSyscall h m).2.cpu.x 10) ∧ (handleSyscall h m).2.mem = m.mem
  good : ∀ count, bufferSize h m = some count →
    ¬ Failure ((handleSyscall h m).2.cpu.x 10) →
    (m.cpu.x 11).toNat + count ≤ m.mem.size.toNat ∧ Transferred h m (handleSyscall h m).2

theorem setA0_a0 (m : Machine σ) (value : Word) : (m.setA0 value).cpu.x 10 = value := by
  show Function.update m.cpu.x 10 value 10 = value
  rw [Function.update_self]

theorem bufferSize_eq_some {h : Host σ} {m : Machine σ} {count : Nat}
    (named : bufferSize h m = some count) :
    (m.cpu.x 17 = sysWrite ∧ count = (m.cpu.x 12).toNat) ∨
      (m.cpu.x 17 = sysRead ∧ count = (m.cpu.x 12).toNat) ∨
      (m.cpu.x 17 = sysFstat ∧ count = h.statSize) := by
  unfold bufferSize at named
  split at named
  · rename_i call
    cases named
    rcases call with write | read
    · exact Or.inl ⟨write, rfl⟩
    · exact Or.inr (Or.inl ⟨read, rfl⟩)
  · split at named
    · rename_i fstat
      cases named
      exact Or.inr (Or.inr ⟨fstat, rfl⟩)
    · cases named

theorem loaded_blit_append (mem : Memory) {a : Word} (front back : List Byte)
    (room : a.toNat + (front ++ back).length ≤ 2 ^ 32) :
    Loaded (mem.blit a front).data a (front ++ back) ↔
      Loaded mem.data (a + BitVec.ofNat 32 front.length) back := by
  rw [List.length_append] at room
  have behind (k : Nat) (inside : k < back.length) :
      (mem.blit a front).data (a + BitVec.ofNat 32 (front.length + k)) =
        mem.data (a + BitVec.ofNat 32 (front.length + k)) := by
    apply Memory.blit_of_outside
    rw [Bits.toNat_offset _ (by omega)]
    omega
  constructor
  · intro whole k inside
    have moved := whole.right k inside
    rw [BitVec.add_assoc, ← BitVec.ofNat_add] at moved ⊢
    rw [← behind k inside, moved]
  · intro rest k inside
    rcases Nat.lt_or_ge k front.length with before | after
    · rw [loaded_blit mem (by omega) k before, List.getElem_append_left before]
    · obtain ⟨j, rfl⟩ := Nat.exists_eq_add_of_le after
      rw [List.length_append] at inside
      have there := rest j (by omega)
      rw [BitVec.add_assoc, ← BitVec.ofNat_add] at there
      rw [behind j (by omega), there, List.getElem_append_right (by omega)]
      simp

section Transfers

variable {h : Host σ} {m : Machine σ}

private theorem transferred_iff_write {m' : Machine σ} (call : m.cpu.x 17 = sysWrite) :
    Transferred h m m' ↔ (m'.cpu.x 10, m'.host) =
      h.write (m.cpu.x 10) (m.mem.slice (m.cpu.x 11) (m.cpu.x 12).toNat) m.host := by
  refine ⟨fun transferred => transferred.write call, fun handed => ⟨fun _ => handed, ?_, ?_⟩⟩
  · intro other
    cases call.symm.trans other
  · intro other
    cases call.symm.trans other

private theorem transferred_iff_read {m' : Machine σ} (call : m.cpu.x 17 = sysRead) :
    Transferred h m m' ↔
      m'.cpu.x 10 = (h.read (m.cpu.x 10) (m.cpu.x 12).toNat m.host).1 ∧
        Loaded m'.mem.data (m.cpu.x 11)
          (h.read (m.cpu.x 10) (m.cpu.x 12).toNat m.host).2.1 := by
  refine ⟨fun transferred => transferred.read call, fun loaded => ⟨?_, fun _ => loaded, ?_⟩⟩
  · intro other
    cases call.symm.trans other
  · intro other
    cases call.symm.trans other

private theorem transferred_iff_fstat {m' : Machine σ} (call : m.cpu.x 17 = sysFstat) :
    Transferred h m m' ↔ m'.cpu.x 10 = (h.fstat (m.cpu.x 10) m.host).1 ∧
      (m'.cpu.x 10 = 0 → Loaded m'.mem.data (m.cpu.x 11) (statStructure h m)) := by
  refine ⟨fun transferred => transferred.fstat call, fun loaded => ⟨?_, ?_, fun _ => loaded⟩⟩
  · intro other
    cases call.symm.trans other
  · intro other
    cases call.symm.trans other

theorem statBytes_eq : statBytes h m = (statStructure h m).take 64 := by
  rw [statBytes, statStructure, List.take_take]
  congr 1
  split <;> omega

/-- The structure stands in its buffer after a successful fstat when the part
behind its first 64 bytes stood there before. -/
theorem loaded_statStructure
    (inside : (m.cpu.x 11).toNat + h.statSize ≤ m.mem.size.toNat) :
    Loaded (m.mem.blit (m.cpu.x 11) (statBytes h m)).data (m.cpu.x 11) (statStructure h m) ↔
      Loaded m.mem.data (m.cpu.x 11 + 64) ((statStructure h m).drop 64) := by
  have small := m.mem.size.isLt
  have taken : (statStructure h m).length ≤ h.statSize := by
    rw [statStructure, List.length_take]
    exact Nat.min_le_left ..
  have whole := List.take_append_drop 64 (statStructure h m)
  have split := loaded_blit_append m.mem ((statStructure h m).take 64)
    ((statStructure h m).drop 64) (a := m.cpu.x 11) (by rw [whole]; omega)
  rw [whole] at split
  rw [statBytes_eq, split]
  rcases Nat.lt_or_ge 64 (statStructure h m).length with long | short
  · rw [List.length_take, Nat.min_eq_left (Nat.le_of_lt long)]
    rfl
  · have nothing : (statStructure h m).drop 64 = [] := List.drop_of_length_le short
    rw [nothing]
    exact iff_of_true (fun _ absent => absurd absent (Nat.not_lt_zero _))
      (fun _ absent => absurd absent (Nat.not_lt_zero _))

/-- A call whose buffer lies in memory moves its data, an fstat if the part of
the structure that is not copied stands there already. -/
theorem transferred_iff_of_inside (bounded : h.Bounded) {count : Nat}
    (named : bufferSize h m = some count)
    (inside : (m.cpu.x 11).toNat + count ≤ m.mem.size.toNat) :
    Transferred h m (handleSyscall h m).2 ↔
      (m.cpu.x 17 = sysFstat → (h.fstat (m.cpu.x 10) m.host).1 = 0 →
        Loaded m.mem.data (m.cpu.x 11 + 64) ((statStructure h m).drop 64)) := by
  have small := m.mem.size.isLt
  rcases bufferSize_eq_some named with ⟨call, rfl⟩ | ⟨call, rfl⟩ | ⟨call, rfl⟩
  · rw [transferred_iff_write call, handleSyscall_write h call,
      if_neg (Nat.not_lt_of_le inside), setA0_a0]
    refine iff_of_true rfl fun other => ?_
    cases call.symm.trans other
  · have filled := bounded (m.cpu.x 10) (m.cpu.x 12).toNat m.host
    rw [transferred_iff_read call, handleSyscall_read h call,
      if_neg (Nat.not_lt_of_le inside), setA0_a0]
    refine iff_of_true ⟨rfl, loaded_blit m.mem (by omega)⟩ fun other => ?_
    cases call.symm.trans other
  · rw [transferred_iff_fstat call, handleSyscall_fstat h call, setA0_a0]
    constructor
    · rintro ⟨_, loaded⟩ _ success
      have stands := loaded success
      rw [if_pos ⟨success, inside⟩] at stands
      exact (loaded_statStructure inside).mp stands
    · intro rest
      refine ⟨rfl, fun success => ?_⟩
      rw [if_pos ⟨success, inside⟩]
      exact (loaded_statStructure inside).mpr (rest call success)

theorem a0_of_outside {count : Nat} (named : bufferSize h m = some count)
    (outside : m.mem.size.toNat < (m.cpu.x 11).toNat + count) :
    (handleSyscall h m).2.mem = m.mem ∧
      (handleSyscall h m).2.cpu.x 10 =
        if m.cpu.x 17 = sysFstat then (h.fstat (m.cpu.x 10) m.host).1 else -1 := by
  rcases bufferSize_eq_some named with ⟨call, rfl⟩ | ⟨call, rfl⟩ | ⟨call, rfl⟩
  · rw [handleSyscall_write h call, if_pos outside, call]
    exact ⟨rfl, setA0_a0 m (-1)⟩
  · rw [handleSyscall_read h call, if_pos outside, call]
    exact ⟨rfl, setA0_a0 m (-1)⟩
  · rw [handleSyscall_fstat h call, setA0_a0, if_pos call]
    refine ⟨if_neg ?_, rfl⟩
    rintro ⟨_, inside⟩
    omega

end Transfers

/-- Buffers are respected by every call but an `fstat` that succeeds on the
host while its buffer leaves the memory, or while the part of its structure
that is not copied does not stand in the buffer already. -/
theorem respectsBuffer_iff {h : Host σ} (bounded : h.Bounded) (m : Machine σ) :
    RespectsBuffer h m ↔
      (m.cpu.x 17 = sysFstat →
        (m.mem.size.toNat < (m.cpu.x 11).toNat + h.statSize →
          Failure (h.fstat (m.cpu.x 10) m.host).1) ∧
        ((m.cpu.x 11).toNat + h.statSize ≤ m.mem.size.toNat →
          (h.fstat (m.cpu.x 10) m.host).1 = 0 →
          Loaded m.mem.data (m.cpu.x 11 + 64) ((statStructure h m).drop 64))) := by
  have named (call : m.cpu.x 17 = sysFstat) : bufferSize h m = some h.statSize := by
    rw [bufferSize, call]
    rfl
  constructor
  · intro respects call
    constructor
    · intro outside
      have failed := (respects.bad _ (named call) outside).1
      rwa [(a0_of_outside (named call) outside).2, if_pos call] at failed
    · intro inside success
      have reported : ¬ Failure ((handleSyscall h m).2.cpu.x 10) := by
        rw [handleSyscall_fstat h call, setA0_a0, success]
        decide
      have transferred := (respects.good _ (named call) reported).2
      exact (transferred_iff_of_inside bounded (named call) inside).mp transferred call success
  · intro fstat
    have bad : ∀ count, bufferSize h m = some count →
        m.mem.size.toNat < (m.cpu.x 11).toNat + count →
        Failure ((handleSyscall h m).2.cpu.x 10) ∧ (handleSyscall h m).2.mem = m.mem := by
      intro count sized outside
      obtain ⟨memory, value⟩ := a0_of_outside sized outside
      refine ⟨?_, memory⟩
      rw [value]
      split
      · rename_i call
        have size : h.statSize = count := Option.some.inj ((named call).symm.trans sized)
        rw [← size] at outside
        exact (fstat call).1 outside
      · decide
    refine ⟨bad, ?_⟩
    intro count sized succeeds
    have inside : (m.cpu.x 11).toNat + count ≤ m.mem.size.toNat := by
      by_contra outside
      exact succeeds (bad count sized (Nat.lt_of_not_le outside)).1
    refine ⟨inside, (transferred_iff_of_inside bounded sized inside).mpr fun call => ?_⟩
    have size : h.statSize = count := Option.some.inj ((named call).symm.trans sized)
    rw [← size] at inside
    exact (fstat call).2 inside

/-- A read of 32 bytes, 16 of them behind the end of memory. -/
theorem respectsBuffer_iff_read :
    RespectsBuffer Host.inert (calling sysRead (memorySize - 16) 32 memorySize) := by
  apply (respectsBuffer_iff bounded_inert _).mpr
  intro call
  exact absurd call (by decide)

/-- The structure of an `fstat` ends behind the end of memory. -/
theorem not_respectsBuffer_fstat :
    ¬ RespectsBuffer Host.statting (calling sysFstat (memorySize - 16) 0 memorySize) := by
  intro respects
  have named : bufferSize Host.statting (calling sysFstat (memorySize - 16) 0 memorySize) =
      some 144 := rfl
  have outside : (memorySize : Word).toNat < (memorySize - 16 : Word).toNat + 144 := by
    decide
  have failed := (respects.bad 144 named outside).1
  rw [(a0_of_outside named outside).2] at failed
  revert failed
  decide

/-- The NUL-terminated string stored from element `i` on. -/
inductive StringAt (mem : Memory) : (i : Nat) → List Byte → Prop where
  | nil {i : Nat} : i < mem.size.toNat → mem.data (BitVec.ofNat 32 i) = 0 → StringAt mem i []
  | cons {i : Nat} {c : Byte} {rest : List Byte} :
      i < mem.size.toNat → mem.data (BitVec.ofNat 32 i) = c → c ≠ 0 →
      StringAt mem (i + 1) rest → StringAt mem i (c :: rest)

/-- The paths that a system call hands to the host's `open`. -/
def openedPaths (h : Host σ) (m : Machine σ) : List (List Byte) :=
  (handleSyscall h.logged { cpu := m.cpu, mem := m.mem, host := (m.host, []) }).2.host.2

/-- `openat` opens the string at its path address; or no string that fits the
buffer stands there, and the call fails without opening another one. -/
def OpensNamedPath (h : Host σ) (m : Machine σ) : Prop :=
  (∃ path, StringAt m.mem (m.cpu.x 11).toNat path ∧ openedPaths h m = [path]) ∨
    ((∀ path, StringAt m.mem (m.cpu.x 11).toNat path → pathCapacity ≤ path.length) ∧
      Failure ((handleSyscall h m).2.cpu.x 10) ∧
      ∀ path, path ∈ openedPaths h m → StringAt m.mem (m.cpu.x 11).toNat path)

private theorem scan_index (addr : Word) (i : Nat) :
    addr + BitVec.ofNat 32 i = BitVec.ofNat 32 (addr.toNat + i) := by
  rw [BitVec.ofNat_add, BitVec.ofNat_toNat, BitVec.setWidth_eq]

theorem scanPath_of_stringAt {mem : Memory} {addr : Word} {i room : Nat} {path : List Byte}
    (stored : StringAt mem (addr.toNat + i) path) (fits : path.length ≤ room) :
    scanPath mem addr room i = path := by
  induction path generalizing i room with
  | nil =>
      cases stored with
      | nil inside terminated =>
          cases room with
          | zero => rfl
          | succ room =>
              have index := scan_index addr i
              rw [← index] at terminated
              unfold scanPath
              dsimp only
              rw [if_pos terminated, ite_self]
  | cons c rest induction =>
      cases stored with
      | cons inside value nonzero later =>
          cases room with
          | zero => cases fits
          | succ room =>
              have index := scan_index addr i
              have within : ¬ mem.size ≤ addr + BitVec.ofNat 32 i := by
                rw [index, BitVec.le_def, Memory.toNat_index (Nat.le_of_lt inside)]
                exact Nat.not_le_of_lt inside
              rw [← index] at value
              unfold scanPath
              dsimp only
              rw [if_neg within, value, if_neg nonzero,
                induction later (Nat.le_of_succ_le_succ fits)]

theorem openedPaths_openat (h : Host σ) {m : Machine σ} (call : m.cpu.x 17 = sysOpenat) :
    openedPaths h m = [scanPath m.mem (m.cpu.x 11) (pathCapacity - 1) 0] := by
  unfold openedPaths
  rw [handleSyscall_openat h.logged call]
  rfl

/-- `openat` opens the path the guest named exactly when a string of fewer
than 256 bytes stands at the path address. -/
theorem opensNamedPath_iff (h : Host σ) (m : Machine σ) (call : m.cpu.x 17 = sysOpenat) :
    OpensNamedPath h m ↔
      ∃ path, StringAt m.mem (m.cpu.x 11).toNat path ∧ path.length < pathCapacity := by
  have opened := openedPaths_openat h call
  have short : (scanPath m.mem (m.cpu.x 11) (pathCapacity - 1) 0).length < pathCapacity :=
    Nat.lt_of_le_of_lt (scanPath_length ..) (by decide)
  constructor
  · rintro (⟨path, stored, only⟩ | ⟨long, _, others⟩)
    · rw [opened] at only
      cases only
      exact ⟨_, stored, short⟩
    · have stored := others _ (by rw [opened]; exact List.mem_singleton_self _)
      exact absurd short (Nat.not_lt_of_le (long _ stored))
  · rintro ⟨path, stored, fits⟩
    have scanned : scanPath m.mem (m.cpu.x 11) (pathCapacity - 1) 0 = path :=
      scanPath_of_stringAt stored (Nat.le_pred_of_lt fits)
    left
    refine ⟨path, stored, ?_⟩
    rw [opened, scanned]

/-- The path `ab` at address 1, its terminator in the last byte of memory. -/
theorem opensNamedPath_iff_ab :
    OpensNamedPath Host.inert
      { calling sysOpenat 1 0 4 with mem := (Memory.init 4).blit 1 [0x61, 0x62, 0] } := by
  apply (opensNamedPath_iff Host.inert _ rfl).mpr
  have terminated : StringAt ((Memory.init 4).blit 1 [0x61, 0x62, 0]) 3 [] :=
    .nil (by decide) (by decide)
  have stored : StringAt ((Memory.init 4).blit 1 [0x61, 0x62, 0]) 1 [0x61, 0x62] :=
    .cons (by decide) (by decide) (by decide)
      (.cons (by decide) (by decide) (by decide) terminated)
  exact ⟨[0x61, 0x62], stored, by decide⟩

/-- The path address is the end of memory: `open` is called all the same. -/
theorem not_opensNamedPath_unterminated :
    ¬ OpensNamedPath Host.inert (calling sysOpenat 4 0 4) := by
  have nothing : ∀ path, ¬ StringAt (calling sysOpenat 4 0 4).mem 4 path := by
    intro path stored
    have inside : 4 < (4 : Word).toNat := by
      cases stored with
      | nil inside => exact inside
      | cons inside => exact inside
    revert inside
    decide
  rintro (⟨path, stored, _⟩ | ⟨_, _, others⟩)
  · exact nothing path stored
  · apply nothing [] (others [] _)
    rw [openedPaths_openat Host.inert rfl]
    exact List.mem_singleton_self _

end Machine

end RiscvPack.Emulator
