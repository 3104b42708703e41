import Mathlib.Data.List.Nodup
import Mathlib.Data.List.Range
import Mathlib.Order.Basic

/-!
# Output files

A file open for writing, as the log of what was written where.  The content
is read off the log: the last write to a position wins, positions that were
skipped read as the default, and the length reaches just past the furthest
write.
-/

namespace Files

structure OutFile (β : Type) where
  pos : Nat
  writes : List (β × Nat)
  deriving DecidableEq, Repr

namespace OutFile

variable {β : Type}

/-- A freshly opened file. -/
def empty : OutFile β where
  pos := 0
  writes := []

/-- `fseek` from the start of the file. -/
def seek (f : OutFile β) (pos : Nat) : OutFile β := { f with pos }

/-- `fwrite` at the current position. -/
def fwrite (f : OutFile β) (bytes : List β) : OutFile β where
  pos := f.pos + bytes.length
  writes := f.writes ++ bytes.zipIdx f.pos

/-- The positions written, in order. -/
def positions (f : OutFile β) : List Nat := f.writes.map Prod.snd

def length (f : OutFile β) : Nat :=
  f.positions.foldr (fun p n => max n (p + 1)) 0

/-- The byte at a position below the length. -/
def byteAt [Inhabited β] (f : OutFile β) (p : Nat) : β :=
  ((f.writes.reverse.find? (·.2 = p)).map Prod.fst).getD default

def image [Inhabited β] (f : OutFile β) : List β :=
  (List.range f.length).map f.byteAt

@[simp] theorem seek_writes (f : OutFile β) (p : Nat) :
    (f.seek p).writes = f.writes := rfl

@[simp] theorem seek_pos (f : OutFile β) (p : Nat) : (f.seek p).pos = p := rfl

@[simp] theorem seek_positions (f : OutFile β) (p : Nat) :
    (f.seek p).positions = f.positions := rfl

@[simp] theorem fwrite_pos (f : OutFile β) (bytes : List β) :
    (f.fwrite bytes).pos = f.pos + bytes.length := rfl

@[simp] theorem fwrite_nil (f : OutFile β) : f.fwrite [] = f := by
  simp [fwrite]

theorem fwrite_append (f : OutFile β) (first second : List β) :
    f.fwrite (first ++ second) = (f.fwrite first).fwrite second := by
  simp [fwrite, List.zipIdx_append, Nat.add_assoc]

@[simp] theorem fwrite_positions (f : OutFile β) (bytes : List β) :
    (f.fwrite bytes).positions =
      f.positions ++ List.range' f.pos bytes.length := by
  simp [positions, fwrite]

theorem length_le {f : OutFile β} {n : Nat} (below : ∀ p ∈ f.positions, p < n) :
    f.length ≤ n := by
  unfold length
  generalize f.positions = positions at below
  induction positions with
  | nil => exact Nat.zero_le n
  | cons p rest induction =>
      have others := induction fun q member => below q (List.mem_cons_of_mem _ member)
      exact max_le others (below p List.mem_cons_self)

theorem lt_length {f : OutFile β} {p : Nat} (member : p ∈ f.positions) :
    p < f.length := by
  unfold length
  generalize f.positions = positions at member
  induction positions with
  | nil => cases member
  | cons q rest induction =>
      rw [List.foldr_cons]
      rcases List.mem_cons.mp member with rfl | later
      · exact (Nat.lt_succ_self p).trans_le (le_max_right _ _)
      · exact (induction later).trans_le (le_max_left _ _)

theorem length_eq {f : OutFile β} {n : Nat} (filled : ∀ p, p ∈ f.positions ↔ p < n) :
    f.length = n := by
  apply le_antisymm (length_le fun p member => (filled p).mp member)
  cases n with
  | zero => exact Nat.zero_le _
  | succ n => exact lt_length ((filled n).mpr (Nat.lt_succ_self n))

/-- Where no position is written twice, the file keeps what is written. -/
theorem byteAt_of_mem [Inhabited β] {f : OutFile β} (once : f.positions.Nodup) {b : β} {p : Nat}
    (written : (b, p) ∈ f.writes) : f.byteAt p = b := by
  obtain ⟨entry, found⟩ := Option.isSome_iff_exists.mp
    (List.find?_isSome.mpr
        ⟨_, List.mem_reverse.mpr written, decide_eq_true (Eq.refl p)⟩ :
      (f.writes.reverse.find? (·.2 = p)).isSome)
  have position : entry.2 = p := by simpa using List.find?_some found
  have member : entry ∈ f.writes := List.mem_reverse.mp (List.mem_of_find?_eq_some found)
  have same : entry = (b, p) := List.inj_on_of_nodup_map once member written position
  rw [byteAt, found, same]
  rfl

theorem image_of_mem [Inhabited β] {f : OutFile β} (once : f.positions.Nodup) {b : β} {p : Nat}
    (written : (b, p) ∈ f.writes) : f.image[p]? = some b := by
  have inside : p < f.length := lt_length (List.mem_map_of_mem written)
  rw [image, List.getElem?_map, List.getElem?_range inside, Option.map_some,
    byteAt_of_mem once written]

/-- Where no position is written twice, the order of the writes is of no
account. -/
theorem image_eq_of_perm [Inhabited β] {f g : OutFile β} (same : f.writes.Perm g.writes)
    (once : f.positions.Nodup) : f.image = g.image := by
  have positions : f.positions.Perm g.positions := same.map Prod.snd
  have once' : g.positions.Nodup := positions.nodup_iff.mp once
  have length : f.length = g.length := by
    apply le_antisymm
    · exact length_le fun p member => lt_length (positions.mem_iff.mp member)
    · exact length_le fun p member => lt_length (positions.mem_iff.mpr member)
  have bytes (p : Nat) : f.byteAt p = g.byteAt p := by
    by_cases written : p ∈ f.positions
    · obtain ⟨⟨b, q⟩, member, rfl⟩ := List.mem_map.mp written
      rw [byteAt_of_mem once member, byteAt_of_mem once' (same.mem_iff.mp member)]
    · have hole {h : OutFile β} (absent : p ∉ h.positions) : h.byteAt p = default := by
        have none : h.writes.reverse.find? (·.2 = p) = none := by
          rw [List.find?_eq_none]
          intro entry member equal
          have here : entry.2 = p := of_decide_eq_true equal
          exact absent (List.mem_map.mpr ⟨entry, List.mem_reverse.mp member, here⟩)
        rw [byteAt, none]
        rfl
      rw [hole written, hole fun there => written (positions.mem_iff.mpr there)]
  rw [image, image, length, funext bytes]

theorem image_fwrite_empty [Inhabited β] (bytes : List β) :
    ((empty : OutFile β).fwrite bytes).image = bytes := by
  have length : ((empty : OutFile β).fwrite bytes).length = bytes.length := by
    apply length_eq
    intro p
    rw [fwrite_positions]
    simp [empty, positions]
  apply List.ext_getElem
  · rw [image, List.length_map, List.length_range, length]
  · intro k _ inside
    have written : (bytes[k], k) ∈ bytes.zipIdx.reverse := by
      rw [List.mem_reverse, List.mk_mem_zipIdx_iff_getElem?]
      exact List.getElem?_eq_getElem inside
    obtain ⟨entry, found⟩ := Option.isSome_iff_exists.mp
      (List.find?_isSome.mpr ⟨_, written, decide_eq_true (Eq.refl k)⟩ :
        (bytes.zipIdx.reverse.find? (·.2 = k)).isSome)
    have position : entry.2 = k := by simpa using List.find?_some found
    have value : bytes[k]? = some entry.1 := by
      rw [← position]
      exact List.mk_mem_zipIdx_iff_getElem?.mp
        (List.mem_reverse.mp (List.mem_of_find?_eq_some found))
    have same : ((empty : OutFile β).fwrite bytes).byteAt k = entry.1 := by
      show ((bytes.zipIdx.reverse.find? (·.2 = k)).map Prod.fst).getD default = entry.1
      rw [found]
      rfl
    rw [List.getElem?_eq_getElem inside] at value
    simp only [image, List.getElem_map, List.getElem_range, same]
    exact (Option.some.inj value).symm
end OutFile

end Files
