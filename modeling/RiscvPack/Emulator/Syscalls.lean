import RiscvPack.Emulator.Cpu

/-!
# System calls and guest memory

`checkedSyscall` is `CPU::handle_syscall` again with every access to an array
checked: indices into guest memory are the plain sums that pointer arithmetic
gives, and the local path array has its 256 elements.  It never faults and
computes what `handleSyscall` computes.
-/

namespace RiscvPack.Emulator

namespace Memory

/-- `get_data()[i]`, when that element exists. -/
def at? (m : Memory) (i : Nat) : Option Byte :=
  if i < m.size.toNat then some (m.data (BitVec.ofNat 32 i)) else none

/-- `get_data()[i] = value` -/
def put? (m : Memory) (i : Nat) (value : Byte) : Option Memory :=
  if i < m.size.toNat then some (m.put (BitVec.ofNat 32 i) value) else none

/-- The host reads `count` bytes through a pointer to element `i`. -/
def range? (m : Memory) : (i count : Nat) → Option (List Byte)
  | _, 0 => some []
  | i, count + 1 => do
      let first ← m.at? i
      let rest ← m.range? (i + 1) count
      return first :: rest

/-- The host writes the bytes through a pointer to element `i`. -/
def store? (m : Memory) (i : Nat) : List Byte → Option Memory
  | [] => some m
  | first :: rest => do
      let m ← m.put? i first
      m.store? (i + 1) rest

theorem at?_eq {m : Memory} {a : Word} (inside : a.toNat < m.size.toNat) :
    m.at? a.toNat = some (m.data a) := by
  rw [at?, if_pos inside, BitVec.ofNat_toNat, BitVec.setWidth_eq]

theorem toNat_index {m : Memory} {i : Nat} (inside : i ≤ m.size.toNat) :
    (BitVec.ofNat 32 i).toNat = i := by
  rw [BitVec.toNat_ofNat]
  exact Nat.mod_eq_of_lt (Nat.lt_of_le_of_lt inside m.size.isLt)

theorem slice_succ (m : Memory) (a : Word) (count : Nat) :
    m.slice a (count + 1) = m.data a :: m.slice (a + 1) count := by
  unfold slice
  rw [List.range_succ_eq_map, List.map_cons, List.map_map]
  congr 1
  · rw [BitVec.add_zero]
  · apply List.map_congr_left
    intro i _
    have next : BitVec.ofNat 32 (i + 1) = 1 + BitVec.ofNat 32 i := by
      rw [Nat.add_comm]
      exact BitVec.ofNat_add ..
    show m.data (a + BitVec.ofNat 32 (i + 1)) = m.data (a + 1 + BitVec.ofNat 32 i)
    rw [next, BitVec.add_assoc]

private theorem range?_index {m : Memory} {i count : Nat} (inside : i + count ≤ m.size.toNat) :
    m.range? i count = some (m.slice (BitVec.ofNat 32 i) count) := by
  induction count generalizing i with
  | zero => rfl
  | succ count induction =>
      have first : i < m.size.toNat := by omega
      have next : BitVec.ofNat 32 (i + 1) = BitVec.ofNat 32 i + 1 := BitVec.ofNat_add ..
      have rest := induction (i := i + 1) (by omega)
      rw [next] at rest
      rw [range?, at?, if_pos first, rest, slice_succ]
      rfl

theorem blit_nil (m : Memory) (a : Word) : m.blit a [] = m := by
  unfold blit
  congr 1
  funext b
  apply if_neg
  rw [List.length_nil]
  omega

theorem blit_cons {m : Memory} {i : Nat} {first : Byte} {rest : List Byte}
    (inside : i + (rest.length + 1) ≤ m.size.toNat) :
    m.blit (BitVec.ofNat 32 i) (first :: rest) =
      (m.put (BitVec.ofNat 32 i) first).blit (BitVec.ofNat 32 (i + 1)) rest := by
  have here := toNat_index (m := m) (i := i) (by omega)
  have next := toNat_index (m := m) (i := i + 1) (by omega)
  unfold blit
  rw [here, next, List.length_cons]
  congr 1
  funext b
  rw [put_data]
  by_cases same : b = BitVec.ofNat 32 i
  · have position : b.toNat = i := by rw [same, here]
    rw [if_pos (by omega), if_neg (by omega), same, Function.update_self, here, Nat.sub_self]
    rfl
  · have position : b.toNat ≠ i := by
      intro equal
      apply same
      apply BitVec.eq_of_toNat_eq
      rw [here, equal]
    rw [Function.update_of_ne same]
    by_cases within : i + 1 ≤ b.toNat ∧ b.toNat < i + 1 + rest.length
    · have offset : b.toNat - i = b.toNat - (i + 1) + 1 := by omega
      rw [if_pos within, if_pos (by omega), offset]
      rfl
    · rw [if_neg within, if_neg (by omega)]

theorem blit_of_outside (m : Memory) {start a : Word} {bytes : List Byte}
    (outside : ¬ (start.toNat ≤ a.toNat ∧ a.toNat < start.toNat + bytes.length)) :
    (m.blit start bytes).data a = m.data a :=
  if_neg outside

private theorem store?_index {m : Memory} {i : Nat} {bytes : List Byte}
    (inside : i + bytes.length ≤ m.size.toNat) :
    m.store? i bytes = some (m.blit (BitVec.ofNat 32 i) bytes) := by
  induction bytes generalizing m i with
  | nil => rw [store?, blit_nil]
  | cons first rest induction =>
      rw [List.length_cons] at inside
      have here : i < m.size.toNat := by omega
      have stored := induction (m := m.put (BitVec.ofNat 32 i) first) (i := i + 1)
        (by rw [put_size]; omega)
      rw [blit_cons inside, ← stored, store?, put?, if_pos here]
      rfl

theorem range?_eq {m : Memory} {a : Word} {count : Nat}
    (inside : a.toNat + count ≤ m.size.toNat) :
    m.range? a.toNat count = some (m.slice a count) := by
  rw [range?_index inside, BitVec.ofNat_toNat, BitVec.setWidth_eq]

theorem store?_eq {m : Memory} {a : Word} {bytes : List Byte}
    (inside : a.toNat + bytes.length ≤ m.size.toNat) :
    m.store? a.toNat bytes = some (m.blit a bytes) := by
  rw [store?_index inside, BitVec.ofNat_toNat, BitVec.setWidth_eq]

end Memory

/-- `char path[256]`, by index. -/
abbrev PathArray := Nat → Byte

namespace PathArray

def set? (path : PathArray) (i : Nat) (value : Byte) : Option PathArray :=
  if i < 256 then some (Function.update path i value) else none

/-- The string that starts at element `i`, as `open` reads it; `room` elements
are left. -/
def string? (path : PathArray) : (room i : Nat) → Option (List Byte)
  | 0, _ => none
  | room + 1, i =>
      if path i = 0 then some []
      else do
        let rest ← path.string? room (i + 1)
        return path i :: rest

/-- The array holds the characters of `name` from element `i` on, then a NUL. -/
def Holds (path : PathArray) : (i : Nat) → (name : List Byte) → Prop
  | i, [] => path i = 0
  | i, c :: name => path i = c ∧ c ≠ 0 ∧ Holds path (i + 1) name

theorem string?_eq {path : PathArray} {i room : Nat} {name : List Byte}
    (holds : path.Holds i name) (terminated : name.length < room) :
    path.string? room i = some name := by
  induction name generalizing i room with
  | nil =>
      cases room with
      | zero => cases terminated
      | succ room => exact if_pos holds
  | cons c name induction =>
      cases room with
      | zero => cases terminated
      | succ room =>
          obtain ⟨here, nonzero, later⟩ := holds
          have rest := induction later (Nat.lt_of_succ_lt_succ terminated)
          rw [string?, here, if_neg nonzero, rest]
          rfl

end PathArray

/-- `read` fills at most the `count` bytes it is given. -/
def Host.Bounded {σ : Type} (h : Host σ) : Prop :=
  ∀ fd count s, (h.read fd count s).2.1.length ≤ count

namespace Machine

variable {σ : Type}

/-- The loop of `openat`, with the array and the index it ends at. -/
def checkedScan (mem : Memory) (pathAddr : Word) :
    (room : Nat) → PathArray → (i : Nat) → Option (PathArray × Nat)
  | 0, path, i => some (path, i)
  | room + 1, path, i =>
      let addr := pathAddr + BitVec.ofNat 32 i
      if mem.size ≤ addr then some (path, i)
      else do
        let value ← mem.at? addr.toNat
        let path ← path.set? i value
        if value = 0 then some (path, i) else checkedScan mem pathAddr room path (i + 1)

/-- `none` when an index leaves its array.  `stale` is what the path array
holds before the loop. -/
def checkedSyscall (h : Host σ) (stale : PathArray) (m : Machine σ) :
    Option (CpuStatus × Machine σ) :=
  let syscallNum := m.cpu.x 17
  let arg1 := m.cpu.x 10
  let arg2 := m.cpu.x 11
  let arg3 := m.cpu.x 12
  if syscallNum = sysExit then
    some (.syscallExit, { m with cpu := { m.cpu with running := false } })
  else if syscallNum = sysWrite then
    if m.mem.size.toNat < arg2.toNat + arg3.toNat then some (.ok, m.setA0 (-1))
    else do
      let buffer ← m.mem.range? arg2.toNat arg3.toNat
      let (result, host) := h.write arg1 buffer m.host
      return (.ok, { m with host }.setA0 result)
  else if syscallNum = sysRead then
    if m.mem.size.toNat < arg2.toNat + arg3.toNat then some (.ok, m.setA0 (-1))
    else do
      let (result, bytes, host) := h.read arg1 arg3.toNat m.host
      let mem ← m.mem.store? arg2.toNat bytes
      return (.ok, { m with mem, host }.setA0 result)
  else if syscallNum = sysOpenat then do
    let (path, i) ← checkedScan m.mem arg2 (256 - 1) stale 0
    let path ← path.set? i 0
    let name ← path.string? 256 0
    let (result, host) := h.openFile name arg3 arg3 m.host
    return (.ok, { m with host }.setA0 result)
  else if syscallNum = sysClose then
    let (result, host) := h.close arg1 m.host
    some (.ok, { m with host }.setA0 result)
  else if syscallNum = sysBrk then
    some (.ok, m.setA0 (-12))
  else if syscallNum = sysFstat then
    let (result, st, host) := h.fstat arg1 m.host
    if result = 0 ∧ arg2.toNat + h.statSize ≤ m.mem.size.toNat then do
      let mem ← m.mem.store? arg2.toNat
        (st.take (if h.statSize < 64 then h.statSize else 64))
      return (.ok, { m with mem, host }.setA0 result)
    else some (.ok, { m with host }.setA0 result)
  else
    some (.ok, m.setA0 (-38))

theorem scanPath_length (mem : Memory) (pathAddr : Word) (room i : Nat) :
    (scanPath mem pathAddr room i).length ≤ room := by
  induction room generalizing i with
  | zero => exact Nat.le_refl 0
  | succ room induction =>
      unfold scanPath
      dsimp only
      split
      · exact Nat.zero_le _
      · split
        · exact Nat.zero_le _
        · exact Nat.succ_le_succ (induction (i + 1))

/-- The loop leaves the scanned characters in the array, ends behind the last
of them, and touches nothing before its start. -/
theorem checkedScan_eq (mem : Memory) (pathAddr : Word) {room i : Nat}
    (fits : i + room < 256) (path : PathArray) :
    ∃ path', checkedScan mem pathAddr room path i =
        some (path', i + (scanPath mem pathAddr room i).length) ∧
      (∀ k, k < i → path' k = path k) ∧
      PathArray.Holds
        (Function.update path' (i + (scanPath mem pathAddr room i).length) 0) i
        (scanPath mem pathAddr room i) := by
  induction room generalizing i path with
  | zero => exact ⟨path, rfl, fun _ _ => rfl, Function.update_self ..⟩
  | succ room induction =>
      unfold checkedScan scanPath
      dsimp only
      by_cases outside : mem.size ≤ pathAddr + BitVec.ofNat 32 i
      · rw [if_pos outside, if_pos outside]
        exact ⟨path, rfl, fun _ _ => rfl, Function.update_self ..⟩
      · have inside : (pathAddr + BitVec.ofNat 32 i).toNat < mem.size.toNat := by
          rwa [BitVec.not_le] at outside
        rw [if_neg outside, if_neg outside, Memory.at?_eq inside]
        generalize mem.data (pathAddr + BitVec.ofNat 32 i) = value
        have written : path.set? i value = some (Function.update path i value) :=
          if_pos (by omega)
        simp only [Option.bind_eq_bind, Option.bind_some, written]
        by_cases zero : value = 0
        · rw [if_pos zero, if_pos zero]
          refine ⟨_, rfl, ?_, Function.update_self ..⟩
          intro k before
          exact Function.update_of_ne (Nat.ne_of_lt before) ..
        · rw [if_neg zero, if_neg zero]
          obtain ⟨path', scanned, kept, holds⟩ := induction (i := i + 1) (by omega)
            (Function.update path i value)
          rw [List.length_cons, ← Nat.add_assoc, Nat.add_right_comm]
          refine ⟨path', scanned, ?_, ?_, zero, holds⟩
          · intro k before
            rw [kept k (by omega)]
            exact Function.update_of_ne (Nat.ne_of_lt before) ..
          · rw [Function.update_of_ne (by omega), kept i (Nat.lt_succ_self i)]
            exact Function.update_self ..

theorem checkedScan_string (mem : Memory) (pathAddr : Word) (stale : PathArray) :
    ∃ path i path', checkedScan mem pathAddr (256 - 1) stale 0 = some (path, i) ∧
      path.set? i 0 = some path' ∧
      path'.string? 256 0 = some (scanPath mem pathAddr (pathCapacity - 1) 0) := by
  obtain ⟨path, scanned, _, holds⟩ :=
    checkedScan_eq mem pathAddr (by decide : 0 + (256 - 1) < 256) stale
  have short : (scanPath mem pathAddr (256 - 1) 0).length < 256 :=
    Nat.lt_of_le_of_lt (scanPath_length mem pathAddr (256 - 1) 0) (by decide)
  rw [Nat.zero_add] at scanned holds
  exact ⟨path, _, _, scanned, if_pos short, PathArray.string?_eq holds short⟩

section Calls

variable (h : Host σ) {m : Machine σ}

theorem handleSyscall_exit (call : m.cpu.x 17 = sysExit) :
    handleSyscall h m =
      (.syscallExit, { m with cpu := { m.cpu with running := false } }) := by
  simp only [handleSyscall, call]
  rfl

theorem handleSyscall_write (call : m.cpu.x 17 = sysWrite) :
    handleSyscall h m =
      if m.mem.size.toNat < (m.cpu.x 11).toNat + (m.cpu.x 12).toNat then
        (.ok, m.setA0 (-1))
      else
        (.ok, { m with
          host := (h.write (m.cpu.x 10) (m.mem.slice (m.cpu.x 11) (m.cpu.x 12).toNat)
            m.host).2 }.setA0
          (h.write (m.cpu.x 10) (m.mem.slice (m.cpu.x 11) (m.cpu.x 12).toNat)
            m.host).1) := by
  simp only [handleSyscall, call]
  rfl

theorem handleSyscall_read (call : m.cpu.x 17 = sysRead) :
    handleSyscall h m =
      if m.mem.size.toNat < (m.cpu.x 11).toNat + (m.cpu.x 12).toNat then
        (.ok, m.setA0 (-1))
      else
        (.ok, { m with
          mem := m.mem.blit (m.cpu.x 11)
            (h.read (m.cpu.x 10) (m.cpu.x 12).toNat m.host).2.1
          host := (h.read (m.cpu.x 10) (m.cpu.x 12).toNat m.host).2.2 }.setA0
          (h.read (m.cpu.x 10) (m.cpu.x 12).toNat m.host).1) := by
  simp only [handleSyscall, call]
  rfl

theorem handleSyscall_openat (call : m.cpu.x 17 = sysOpenat) :
    handleSyscall h m =
      (.ok, { m with
        host := (h.openFile (scanPath m.mem (m.cpu.x 11) (pathCapacity - 1) 0)
          (m.cpu.x 12) (m.cpu.x 12) m.host).2 }.setA0
        (h.openFile (scanPath m.mem (m.cpu.x 11) (pathCapacity - 1) 0)
          (m.cpu.x 12) (m.cpu.x 12) m.host).1) := by
  simp only [handleSyscall, call]
  rfl

theorem handleSyscall_close (call : m.cpu.x 17 = sysClose) :
    handleSyscall h m =
      (.ok, { m with host := (h.close (m.cpu.x 10) m.host).2 }.setA0
        (h.close (m.cpu.x 10) m.host).1) := by
  simp only [handleSyscall, call]
  rfl

theorem handleSyscall_brk (call : m.cpu.x 17 = sysBrk) :
    handleSyscall h m = (.ok, m.setA0 (-12)) := by
  simp only [handleSyscall, call]
  rfl

/-- The bytes of the host's structure that `fstat` copies. -/
def statBytes (h : Host σ) (m : Machine σ) : List Byte :=
  (h.fstat (m.cpu.x 10) m.host).2.1.take (if h.statSize < 64 then h.statSize else 64)

theorem handleSyscall_fstat (call : m.cpu.x 17 = sysFstat) :
    handleSyscall h m =
      (.ok, { m with
        mem := if (h.fstat (m.cpu.x 10) m.host).1 = 0 ∧
            (m.cpu.x 11).toNat + h.statSize ≤ m.mem.size.toNat then
          m.mem.blit (m.cpu.x 11) (statBytes h m) else m.mem
        host := (h.fstat (m.cpu.x 10) m.host).2.2 }.setA0
        (h.fstat (m.cpu.x 10) m.host).1) := by
  simp only [handleSyscall, call]
  rfl

/-- The call numbers that `handle_syscall` knows. -/
def systemCalls : List Word :=
  [sysExit, sysWrite, sysRead, sysOpenat, sysClose, sysBrk, sysFstat]

theorem handleSyscall_other (unknown : m.cpu.x 17 ∉ systemCalls) :
    handleSyscall h m = (.ok, m.setA0 (-38)) := by
  simp only [systemCalls, List.mem_cons, not_or] at unknown
  obtain ⟨exit, write, read, openat, close, brk, fstat, _⟩ := unknown
  unfold handleSyscall
  dsimp only
  rw [if_neg exit, if_neg write, if_neg read, if_neg openat, if_neg close, if_neg brk,
    if_neg fstat]

theorem systemCalls_cases {motive : Prop} (number : Word)
    (exit : number = sysExit → motive) (write : number = sysWrite → motive)
    (read : number = sysRead → motive) (openat : number = sysOpenat → motive)
    (close : number = sysClose → motive) (brk : number = sysBrk → motive)
    (fstat : number = sysFstat → motive) (other : number ∉ systemCalls → motive) :
    motive := by
  by_cases known : number ∈ systemCalls
  · simp only [systemCalls, List.mem_cons, List.not_mem_nil, or_false] at known
    rcases known with call | call | call | call | call | call | call
    · exact exit call
    · exact write call
    · exact read call
    · exact openat call
    · exact close call
    · exact brk call
    · exact fstat call
  · exact other known

end Calls

/-- The guest bytes a system call may alter: the buffer of a read and the 64
bytes of an fstat. -/
def Alterable (m : Machine σ) (a : Word) : Prop :=
  (m.cpu.x 17 = sysRead ∧ (m.cpu.x 11).toNat ≤ a.toNat ∧
    a.toNat < (m.cpu.x 11).toNat + (m.cpu.x 12).toNat) ∨
  (m.cpu.x 17 = sysFstat ∧ (m.cpu.x 11).toNat ≤ a.toNat ∧
    a.toNat < (m.cpu.x 11).toNat + 64)

/-- What a system call leaves alone. -/
structure Contained (m m' : Machine σ) : Prop where
  registers : ∀ r, r ≠ 10 → m'.cpu.x r = m.cpu.x r
  pc : m'.cpu.pc = m.cpu.pc
  size : m'.mem.size = m.mem.size
  bytes : ∀ a, ¬ m.Alterable a → m'.mem.data a = m.mem.data a

theorem contained_setA0 {m m' : Machine σ} (registers : m'.cpu = m.cpu)
    (size : m'.mem.size = m.mem.size)
    (bytes : ∀ a, ¬ m.Alterable a → m'.mem.data a = m.mem.data a) (value : Word) :
    m.Contained (m'.setA0 value) where
  registers := by
    intro r other
    show Function.update m'.cpu.x 10 value r = m.cpu.x r
    rw [Function.update_of_ne other, registers]
  pc := by
    show m'.cpu.pc = m.cpu.pc
    rw [registers]
  size := size
  bytes := bytes

theorem contained_host (m : Machine σ) (host : σ) (value : Word) :
    m.Contained ({ m with host }.setA0 value) := by
  apply contained_setA0
  · rfl
  · rfl
  · intro a _
    rfl

theorem contained_handleSyscall {h : Host σ} (bounded : h.Bounded) (m : Machine σ) :
    m.Contained (handleSyscall h m).2 := by
  apply systemCalls_cases (m.cpu.x 17)
  · intro call
    rw [handleSyscall_exit h call]
    exact ⟨fun _ _ => rfl, rfl, rfl, fun _ _ => rfl⟩
  · intro call
    rw [handleSyscall_write h call]
    split
    · exact contained_host m _ _
    · exact contained_host m _ _
  · intro call
    rw [handleSyscall_read h call]
    split
    · exact contained_host m _ _
    · apply contained_setA0
      · rfl
      · rfl
      · intro a fixed
        apply Memory.blit_of_outside
        rintro ⟨lower, upper⟩
        have filled := bounded (m.cpu.x 10) (m.cpu.x 12).toNat m.host
        exact fixed (Or.inl ⟨call, lower, by omega⟩)
  · intro call
    rw [handleSyscall_openat h call]
    exact contained_host m _ _
  · intro call
    rw [handleSyscall_close h call]
    exact contained_host m _ _
  · intro call
    rw [handleSyscall_brk h call]
    exact contained_host m _ _
  · intro call
    rw [handleSyscall_fstat h call]
    have short : (statBytes h m).length ≤ 64 := by
      rw [statBytes, List.length_take]
      split <;> omega
    apply contained_setA0
    · rfl
    · dsimp only
      split
      · rfl
      · rfl
    · intro a fixed
      dsimp only
      split
      · apply Memory.blit_of_outside
        rintro ⟨lower, upper⟩
        exact fixed (Or.inr ⟨call, lower, by omega⟩)
      · rfl
  · intro unknown
    rw [handleSyscall_other h unknown]
    exact contained_host m _ _

theorem checkedSyscall_eq {h : Host σ} (bounded : h.Bounded) (stale : PathArray)
    (m : Machine σ) : checkedSyscall h stale m = some (handleSyscall h m) := by
  unfold checkedSyscall handleSyscall
  dsimp only
  by_cases exit : m.cpu.x 17 = sysExit
  · rw [if_pos exit, if_pos exit]
  rw [if_neg exit, if_neg exit]
  by_cases write : m.cpu.x 17 = sysWrite
  · rw [if_pos write, if_pos write]
    by_cases beyond : m.mem.size.toNat < (m.cpu.x 11).toNat + (m.cpu.x 12).toNat
    · rw [if_pos beyond, if_pos beyond]
    · rw [if_neg beyond, if_neg beyond, Memory.range?_eq (Nat.le_of_not_lt beyond)]
      rfl
  rw [if_neg write, if_neg write]
  by_cases read : m.cpu.x 17 = sysRead
  · rw [if_pos read, if_pos read]
    by_cases beyond : m.mem.size.toNat < (m.cpu.x 11).toNat + (m.cpu.x 12).toNat
    · rw [if_pos beyond, if_pos beyond]
    · have filled := bounded (m.cpu.x 10) (m.cpu.x 12).toNat m.host
      have stored : m.mem.store? (m.cpu.x 11).toNat
          (h.read (m.cpu.x 10) (m.cpu.x 12).toNat m.host).2.1 = some _ :=
        Memory.store?_eq (by omega)
      rw [if_neg beyond, if_neg beyond]
      show (m.mem.store? _ (h.read (m.cpu.x 10) (m.cpu.x 12).toNat m.host).2.1).bind _ = _
      rw [stored]
      rfl
  rw [if_neg read, if_neg read]
  by_cases openat : m.cpu.x 17 = sysOpenat
  · rw [if_pos openat, if_pos openat]
    obtain ⟨path, i, path', scanned, terminated, named⟩ :=
      checkedScan_string m.mem (m.cpu.x 11) stale
    rw [scanned]
    show (path.set? i 0).bind _ = _
    rw [terminated]
    show (path'.string? 256 0).bind _ = _
    rw [named]
    rfl
  rw [if_neg openat, if_neg openat]
  by_cases close : m.cpu.x 17 = sysClose
  · rw [if_pos close, if_pos close]
  rw [if_neg close, if_neg close]
  by_cases brk : m.cpu.x 17 = sysBrk
  · rw [if_pos brk, if_pos brk]
  rw [if_neg brk, if_neg brk]
  by_cases fstat : m.cpu.x 17 = sysFstat
  · rw [if_pos fstat, if_pos fstat]
    by_cases copies : (h.fstat (m.cpu.x 10) m.host).1 = 0 ∧
        (m.cpu.x 11).toNat + h.statSize ≤ m.mem.size.toNat
    · have taken : ((h.fstat (m.cpu.x 10) m.host).2.1.take
          (if h.statSize < 64 then h.statSize else 64)).length ≤ h.statSize := by
        rw [List.length_take]
        split <;> omega
      have stored := Memory.store?_eq (m := m.mem) (a := m.cpu.x 11)
        (Nat.le_trans (Nat.add_le_add_left taken _) copies.2)
      rw [if_pos copies, if_pos copies]
      show (m.mem.store? _ ((h.fstat (m.cpu.x 10) m.host).2.1.take _)).bind _ = _
      rw [stored]
      rfl
    · rw [if_neg copies, if_neg copies]
  rw [if_neg fstat, if_neg fstat]

/-- On any register file and memory, with any contents of the path array
before the scan, a system call accesses arrays inside their bounds and leaves
everything but a0 and its own buffer alone. -/
theorem handleSyscall_inside {h : Host σ} (bounded : h.Bounded) (stale : PathArray)
    (m : Machine σ) :
    checkedSyscall h stale m = some (handleSyscall h m) ∧
      m.Contained (handleSyscall h m).2 :=
  ⟨checkedSyscall_eq bounded stale m, contained_handleSyscall bounded m⟩

/-- A processor about to make a call, with a zeroed memory. -/
def calling (number arg2 arg3 size : Word) : Machine Unit where
  cpu :=
    { CPU.init with
      x := fun r =>
        if r = 17 then number else if r = 11 then arg2 else if r = 12 then arg3 else 0 }
  mem := Memory.init size
  host := ()

theorem bounded_inert : Host.inert.Bounded :=
  fun _ count _ => Nat.zero_le count

/-- An `openat` whose path address is the end of a four-byte memory. -/
theorem handleSyscall_inside_openat :
    checkedSyscall Host.inert (fun _ => 0xFF) (calling sysOpenat 4 0 4) =
        some (handleSyscall Host.inert (calling sysOpenat 4 0 4)) ∧
      (calling sysOpenat 4 0 4).Contained
        (handleSyscall Host.inert (calling sysOpenat 4 0 4)).2 :=
  handleSyscall_inside bounded_inert (fun _ => 0xFF) (calling sysOpenat 4 0 4)

end Machine

end RiscvPack.Emulator
