import Mathlib.Algebra.BigOperators.Group.List.Basic
import Mathlib.Algebra.BigOperators.Group.Finset.Basic
import Mathlib.Order.Basic
import Mathlib.Order.Defs.LinearOrder
import Mathlib.Data.List.Nodup
import Mathlib.Data.List.Pairwise
import Mathlib.Data.List.Sort

/-!
# Ordered maps

A map kept as the list of its entries in increasing order of the keys, the
order in which a loop over it visits them.  `mapAccum` is a loop over the
entries that threads a state and may change each value.
-/

structure SortedMap (κ ν : Type) [LinearOrder κ] where
  entries : List (κ × ν)
  sorted : (entries.map Prod.fst).Pairwise (· < ·)
  deriving DecidableEq

namespace SortedMap

variable {κ ν σ : Type} [LinearOrder κ]

section Entries

/-- Insertion into a list of entries. -/
def insertEntry (k : κ) (v : ν) : List (κ × ν) → List (κ × ν)
  | [] => [(k, v)]
  | (key, value) :: rest =>
      if k < key then (k, v) :: (key, value) :: rest
      else if k = key then (k, v) :: rest
      else (key, value) :: insertEntry k v rest

def lookup (k : κ) : List (κ × ν) → Option ν
  | [] => none
  | (key, value) :: rest => if k = key then some value else lookup k rest

def mapAccumEntries (f : σ → ν → σ × ν) (s : σ) : List (κ × ν) → List (κ × ν)
  | [] => []
  | (key, value) :: rest =>
      (key, (f s value).2) :: mapAccumEntries f (f s value).1 rest

theorem mem_keys_insertEntry {k key : κ} {v : ν} {entries : List (κ × ν)} :
    key ∈ (insertEntry k v entries).map Prod.fst ↔
      key = k ∨ key ∈ entries.map Prod.fst := by
  induction entries with
  | nil => simp [insertEntry]
  | cons entry rest induction =>
      obtain ⟨first, value⟩ := entry
      unfold insertEntry
      split
      · simp
      split
      · rename_i same
        simp [same]
      · rw [List.map_cons, List.mem_cons, induction, List.map_cons,
          List.mem_cons, or_left_comm]

theorem sorted_insertEntry (k : κ) (v : ν) {entries : List (κ × ν)}
    (sorted : (entries.map Prod.fst).Pairwise (· < ·)) :
    ((insertEntry k v entries).map Prod.fst).Pairwise (· < ·) := by
  induction entries with
  | nil => simp [insertEntry]
  | cons entry rest induction =>
      obtain ⟨first, value⟩ := entry
      have tail := List.pairwise_cons.mp sorted
      unfold insertEntry
      split
      · rename_i before
        refine List.pairwise_cons.mpr ⟨?_, sorted⟩
        intro key member
        rcases List.mem_cons.mp member with rfl | member
        · exact before
        · exact before.trans (tail.1 key member)
      split
      · rename_i same
        subst same
        exact sorted
      · rename_i notBefore different
        refine List.pairwise_cons.mpr ⟨?_, induction tail.2⟩
        intro key member
        rcases mem_keys_insertEntry.mp member with rfl | member
        · exact lt_of_le_of_ne (not_lt.mp notBefore) (Ne.symm different)
        · exact tail.1 key member

theorem lookup_insertEntry {k key : κ} {v : ν} {entries : List (κ × ν)}
    (sorted : (entries.map Prod.fst).Pairwise (· < ·)) :
    lookup key (insertEntry k v entries) =
      if key = k then some v else lookup key entries := by
  induction entries with
  | nil => simp [insertEntry, lookup]
  | cons entry rest induction =>
      obtain ⟨first, value⟩ := entry
      have tail := List.pairwise_cons.mp sorted
      unfold insertEntry
      split
      · simp [lookup]
      split
      · rename_i same
        subst same
        by_cases here : key = k <;> simp [lookup, here]
      · rename_i different
        simp only [lookup, induction tail.2]
        by_cases here : key = first
        · subst here
          simp [Ne.symm different]
        · simp [here]

theorem insertEntry_self {k : κ} {v : ν} {entries : List (κ × ν)}
    (sorted : (entries.map Prod.fst).Pairwise (· < ·)) (member : (k, v) ∈ entries) :
    insertEntry k v entries = entries := by
  induction entries with
  | nil => cases member
  | cons entry rest induction =>
      obtain ⟨first, value⟩ := entry
      have tail := List.pairwise_cons.mp sorted
      unfold insertEntry
      rcases List.mem_cons.mp member with here | later
      · cases here
        rw [if_neg (lt_irrefl k), if_pos rfl]
      · have above := tail.1 k (List.mem_map_of_mem later)
        rw [if_neg above.asymm, if_neg above.ne', induction tail.2 later]

omit [LinearOrder κ] in
theorem keys_mapAccumEntries (f : σ → ν → σ × ν) (s : σ)
    (entries : List (κ × ν)) :
    (mapAccumEntries f s entries).map Prod.fst = entries.map Prod.fst := by
  induction entries generalizing s with
  | nil => rfl
  | cons entry rest induction =>
      simp only [mapAccumEntries, List.map_cons, induction]

theorem mem_iff_lookup {k : κ} {v : ν} {entries : List (κ × ν)}
    (sorted : (entries.map Prod.fst).Pairwise (· < ·)) :
    (k, v) ∈ entries ↔ lookup k entries = some v := by
  induction entries with
  | nil => simp [lookup]
  | cons entry rest induction =>
      obtain ⟨first, value⟩ := entry
      have tail := List.pairwise_cons.mp sorted
      rw [List.mem_cons, induction tail.2, lookup]
      by_cases here : k = first
      · subst here
        have absent : lookup k rest ≠ some v := by
          intro found
          have member := (induction tail.2).mpr found
          exact lt_irrefl k (tail.1 k (List.mem_map_of_mem member))
        simp [absent, eq_comm]
      · simp [here]

/-- What the loop leaves alone in every value can be looked up as before. -/
theorem lookup_mapAccumEntries {τ : Type} {f : σ → ν → σ × ν} {g : ν → τ}
    (kept : ∀ t v, g (f t v).2 = g v) (s : σ) (k : κ) (entries : List (κ × ν)) :
    (lookup k (mapAccumEntries f s entries)).map g = (lookup k entries).map g := by
  induction entries generalizing s with
  | nil => rfl
  | cons entry rest induction =>
      obtain ⟨key, value⟩ := entry
      simp only [mapAccumEntries, lookup]
      split
      · exact congrArg some (kept s value)
      · exact induction _

omit [LinearOrder κ] in
theorem exists_of_mem_mapAccumEntries {f : σ → ν → σ × ν} {s : σ}
    {entries : List (κ × ν)} {k : κ} {v' : ν}
    (member : (k, v') ∈ mapAccumEntries f s entries) :
    ∃ t v, (k, v) ∈ entries ∧ v' = (f t v).2 := by
  induction entries generalizing s with
  | nil => cases member
  | cons entry rest induction =>
      rcases List.mem_cons.mp member with here | later
      · cases here
        exact ⟨s, entry.2, List.mem_cons_self, rfl⟩
      · obtain ⟨t, v, found, equal⟩ := induction later
        exact ⟨t, v, List.mem_cons_of_mem _ found, equal⟩

omit [LinearOrder κ] in
theorem mem_mapAccumEntries_of_fixed {f : σ → ν → σ × ν} {k : κ} {v : ν}
    (fixed : ∀ t, (f t v).2 = v) {s : σ} {entries : List (κ × ν)}
    (member : (k, v) ∈ entries) : (k, v) ∈ mapAccumEntries f s entries := by
  induction entries generalizing s with
  | nil => cases member
  | cons entry rest induction =>
      rcases List.mem_cons.mp member with here | later
      · cases here
        simp [mapAccumEntries, fixed]
      · exact List.mem_cons_of_mem _ (induction later)

end Entries

variable (m : SortedMap κ ν)

def empty : SortedMap κ ν where
  entries := []
  sorted := List.Pairwise.nil

def find? (k : κ) : Option ν := lookup k m.entries

def insert (k : κ) (v : ν) : SortedMap κ ν where
  entries := insertEntry k v m.entries
  sorted := sorted_insertEntry k v m.sorted

/-- A loop over the entries in key order. -/
def mapAccum (f : σ → ν → σ × ν) (s : σ) : SortedMap κ ν where
  entries := mapAccumEntries f s m.entries
  sorted := by
    rw [keys_mapAccumEntries]
    exact m.sorted

def values : List ν := m.entries.map Prod.snd

theorem find?_insert (k key : κ) (v : ν) :
    (m.insert k v).find? key = if key = k then some v else m.find? key :=
  lookup_insertEntry m.sorted

@[simp] theorem find?_insert_self (k : κ) (v : ν) :
    (m.insert k v).find? k = some v := by
  rw [find?_insert, if_pos rfl]

theorem find?_insert_ne {k key : κ} (different : key ≠ k) (v : ν) :
    (m.insert k v).find? key = m.find? key := by
  rw [find?_insert, if_neg different]

variable {m}

theorem mem_entries_iff {k : κ} {v : ν} :
    (k, v) ∈ m.entries ↔ m.find? k = some v :=
  mem_iff_lookup m.sorted

theorem insert_self {k : κ} {v : ν} (found : m.find? k = some v) : m.insert k v = m := by
  obtain ⟨entries, sorted⟩ := m
  have same := insertEntry_self sorted ((mem_iff_lookup sorted).mpr found)
  simp only [insert, same]

theorem nodup_keys : (m.entries.map Prod.fst).Nodup :=
  m.sorted.imp ne_of_lt

theorem nodup_entries : m.entries.Nodup :=
  m.nodup_keys.of_map

theorem isSome_find?_iff {k : κ} :
    (m.find? k).isSome ↔ k ∈ m.entries.map Prod.fst := by
  rw [Option.isSome_iff_exists, List.mem_map]
  constructor
  · rintro ⟨v, found⟩
    exact ⟨(k, v), mem_entries_iff.mpr found, rfl⟩
  · rintro ⟨⟨key, v⟩, member, rfl⟩
    exact ⟨v, mem_entries_iff.mp member⟩

theorem keys_eq {n : SortedMap κ ν}
    (same : ∀ k, (m.find? k).isSome ↔ (n.find? k).isSome) :
    m.entries.map Prod.fst = n.entries.map Prod.fst := by
  apply List.Pairwise.eq_of_mem_iff m.sorted n.sorted
  intro k
  rw [← isSome_find?_iff, ← isSome_find?_iff]
  exact same k

theorem find?_mapAccum {τ : Type} {f : σ → ν → σ × ν} {g : ν → τ}
    (kept : ∀ t v, g (f t v).2 = g v) (s : σ) (k : κ) :
    ((m.mapAccum f s).find? k).map g = (m.find? k).map g :=
  lookup_mapAccumEntries kept s k m.entries

theorem sum_values {M : Type} [AddCommMonoid M] (m : SortedMap κ ν) (f : ν → M) :
    (m.values.map f).sum =
      ∑ k ∈ (m.entries.map Prod.fst).toFinset, ((m.find? k).map f).getD 0 := by
  rw [List.sum_toFinset _ m.nodup_keys, values, List.map_map, List.map_map]
  congr 1
  apply List.map_congr_left
  rintro ⟨k, v⟩ member
  simp [mem_entries_iff.mp member]

/-- Sums over two maps are the same when each key contributes the same, or
nothing where it is missing. -/
theorem sum_values_eq {M : Type} [AddCommMonoid M] (m n : SortedMap κ ν) {f : ν → M}
    (same : ∀ k, ((m.find? k).map f).getD 0 = ((n.find? k).map f).getD 0) :
    (m.values.map f).sum = (n.values.map f).sum := by
  have missing (m : SortedMap κ ν) (k : κ)
      (absent : k ∉ (m.entries.map Prod.fst).toFinset) :
      ((m.find? k).map f).getD 0 = 0 := by
    rw [List.mem_toFinset, ← isSome_find?_iff, Option.not_isSome_iff_eq_none] at absent
    rw [absent]
    rfl
  have onUnion (m n : SortedMap κ ν) : (m.values.map f).sum =
      ∑ k ∈ (m.entries.map Prod.fst).toFinset ∪ (n.entries.map Prod.fst).toFinset,
        ((m.find? k).map f).getD 0 := by
    rw [sum_values]
    apply Finset.sum_subset Finset.subset_union_left
    intro k _ absent
    exact missing m k absent
  rw [onUnion m n, onUnion n m, Finset.union_comm]
  exact Finset.sum_congr rfl fun k _ => same k

/-- A sum over the values to which one key alone contributes. -/
theorem sum_values_single {M : Type} [AddCommMonoid M] {k : κ} {v : ν}
    (found : m.find? k = some v) (f : ν → M)
    (others : ∀ key value, m.find? key = some value → key ≠ k → f value = 0) :
    (m.values.map f).sum = f v := by
  rw [sum_values, Finset.sum_eq_single k]
  · rw [found]
    rfl
  · intro key _ different
    cases present : m.find? key with
    | none => rfl
    | some value => exact others key value present different
  · intro absent
    rw [List.mem_toFinset, ← isSome_find?_iff, found] at absent
    exact absurd rfl absent

end SortedMap
