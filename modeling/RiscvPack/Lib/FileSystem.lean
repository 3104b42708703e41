import Mathlib.Logic.Function.Basic

/-!
# Files by name

What a program sees of the files around it when it opens them by name: which
of them it may read and write, and what they hold.
-/

namespace Files

structure FileSystem (ν β : Type) where
  content : ν → Option (List β)
  readable : ν → Bool
  writable : ν → Bool

namespace FileSystem

variable {ν β : Type}

/-- `fopen` for reading, with what can be read. -/
def openRead (fs : FileSystem ν β) (name : ν) : Option (List β) :=
  if fs.readable name then fs.content name else none

variable [DecidableEq ν]

def put (fs : FileSystem ν β) (name : ν) (bytes : List β) : FileSystem ν β :=
  { fs with content := Function.update fs.content name (some bytes) }

/-- `fopen` for writing: the file is there, and empty. -/
def openWrite (fs : FileSystem ν β) (name : ν) : Option (FileSystem ν β) :=
  if fs.writable name then some (fs.put name []) else none

/-- Nothing but one file may differ. -/
structure SameBut (name : ν) (fs fs' : FileSystem ν β) : Prop where
  content : ∀ other, other ≠ name → fs'.content other = fs.content other
  readable : fs'.readable = fs.readable
  writable : fs'.writable = fs.writable

variable {fs : FileSystem ν β} {name : ν} {bytes bytes' : List β}

@[simp] theorem put_content_self : (fs.put name bytes).content name = some bytes :=
  Function.update_self ..

theorem openRead_put_self (readable : fs.readable name = true) :
    (fs.put name bytes).openRead name = some bytes :=
  (if_pos readable).trans put_content_self

@[simp] theorem put_put : (fs.put name bytes).put name bytes' = fs.put name bytes' := by
  unfold put
  rw [Function.update_idem]

omit [DecidableEq ν] in
theorem SameBut.refl (name : ν) (fs : FileSystem ν β) : SameBut name fs fs :=
  ⟨fun _ _ => rfl, rfl, rfl⟩

theorem sameBut_put (name : ν) (fs : FileSystem ν β) (bytes : List β) :
    SameBut name fs (fs.put name bytes) :=
  ⟨fun _ different => Function.update_of_ne different .., rfl, rfl⟩

end FileSystem

end Files
