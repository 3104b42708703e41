import RiscvPack.Assembler.Tables
import RiscvPack.Lib.Layout

/-!
# The section layout

`adjust_labels` places the standard sections and the custom ones
consecutively.  The remaining sections, whose names only start with a standard
name, keep the base address zero.  So the layout is disjoint exactly when such
a section is empty or alone.
-/

namespace RiscvPack.Asm

open CString Layout

/-- The sections that are placed by name. -/
def standardNames : List Text := [textName, rodataName, dataName, bssName]

/-- A name such as `.text.startup`: it has a standard type, and nothing places
it. -/
def Prefixed (name : Text) : Prop :=
  name ∉ standardNames ∧ getSectionType name ≠ .custom

instance (name : Text) : Decidable (Prefixed name) :=
  inferInstanceAs (Decidable (_ ∧ _))

section Placement

theorem placeStandard_some {name : Text} (sections : SectionTable)
    {sec : SectionInfo} (found : sections.find? name = some sec)
    (currentBase : Word) :
    placeStandard name (sections, currentBase) =
      (sections.insert name { sec with baseAddr := currentBase },
        currentBase + sec.offset) := by
  simp only [placeStandard, found]

theorem placeCustom_standard {sec : SectionInfo} (standard : sec.type ≠ .custom)
    (currentBase : Word) : placeCustom currentBase sec = (currentBase, sec) :=
  if_neg fun both => standard both.1

theorem placeCustom_custom {sec : SectionInfo} (custom : sec.type = .custom)
    (fresh : sec.baseAddr = 0) (currentBase : Word) :
    placeCustom currentBase sec =
      (currentBase + sec.offset, { sec with baseAddr := currentBase }) :=
  if_pos ⟨custom, fresh⟩

theorem placeCustom_fields (currentBase : Word) (sec : SectionInfo) :
    ∃ base, (placeCustom currentBase sec).2 = { sec with baseAddr := base } := by
  unfold placeCustom
  split
  · exact ⟨_, rfl⟩
  · exact ⟨_, rfl⟩

abbrev entryBase (e : Text × SectionInfo) : Word := e.2.baseAddr
abbrev entrySize (e : Text × SectionInfo) : Word := e.2.offset

theorem consecutive_customs {entries : List (Text × SectionInfo)}
    {currentBase : Word}
    (fresh : ∀ e ∈ entries, e.2.type = .custom → e.2.baseAddr = 0) :
    Consecutive entryBase entrySize currentBase
      ((SortedMap.mapAccumEntries placeCustom currentBase entries).filter
        (·.2.type = .custom)) := by
  induction entries generalizing currentBase with
  | nil => trivial
  | cons entry rest induction =>
      obtain ⟨name, sec⟩ := entry
      have restFresh : ∀ e ∈ rest, e.2.type = .custom → e.2.baseAddr = 0 :=
        fun e member => fresh e (List.mem_cons_of_mem _ member)
      by_cases custom : sec.type = .custom
      · have placed := placeCustom_custom custom
          (fresh (name, sec) List.mem_cons_self custom) currentBase
        simp only [SortedMap.mapAccumEntries, placed]
        rw [List.filter_cons_of_pos (by simpa using custom)]
        exact ⟨rfl, induction restFresh⟩
      · simp only [SortedMap.mapAccumEntries, placeCustom_standard custom]
        rw [List.filter_cons_of_neg (by simpa using custom)]
        exact induction restFresh

end Placement

/-- What `placeSections` achieves: the sections it places are consecutive from
zero, the others keep base zero, and nothing but base addresses changes. -/
structure Placed (sections placed : SectionTable)
    (order : List (Text × SectionInfo)) : Prop where
  nodup : order.Nodup
  mem : ∀ e, e ∈ order ↔ e ∈ placed.entries ∧ ¬ Prefixed e.1
  consecutive : Consecutive entryBase entrySize 0 order
  origin : ∀ name sec, placed.find? name = some sec →
    ∃ old, sections.find? name = some old ∧
      sec = { old with baseAddr := sec.baseAddr }
  image : ∀ name, (sections.find? name).isSome → (placed.find? name).isSome
  unplaced : ∀ name sec, placed.find? name = some sec → Prefixed name →
    sec.baseAddr = 0

/-- The names of the sections in the order in which `adjust_labels` places
them. -/
def placementNames (sections : SectionTable) : List Text :=
  standardNames ++
    (sections.entries.map Prod.fst).filter (getSectionType · = .custom)

/-- The standard sections are placed: `standard` is the table, `first` has the
four entries in order, and `currentBase` is the address behind them. -/
structure StandardPlaced (asm : Assembler) (standard : SectionTable)
    (currentBase : Word) (first : List (Text × SectionInfo)) : Prop where
  placed : placeSections asm.sections = standard.mapAccum placeCustom currentBase
  names : first.map Prod.fst = standardNames
  found : ∀ e ∈ first, standard.find? e.1 = some e.2
  consecutive : Consecutive entryBase entrySize 0 first
  base : currentBase = 0 + (first.map entrySize).sum
  others : ∀ name, name ∉ standardNames →
    standard.find? name = asm.sections.find? name
  origins : ∀ e ∈ first, ∃ old base, asm.sections.find? e.1 = some old ∧
    e.2 = { old with baseAddr := base }

private theorem standard_placed {asm : Assembler} (formed : WellFormed asm) :
    ∃ standard currentBase first, StandardPlaced asm standard currentBase first := by
  obtain ⟨t, foundText⟩ := Option.isSome_iff_exists.mp
    (formed.standard textName (by decide))
  obtain ⟨r, foundRodata⟩ := Option.isSome_iff_exists.mp
    (formed.standard rodataName (by decide))
  obtain ⟨d, foundData⟩ := Option.isSome_iff_exists.mp
    (formed.standard dataName (by decide))
  obtain ⟨b, foundBss⟩ := Option.isSome_iff_exists.mp
    (formed.standard bssName (by decide))
  have distinct : textName ≠ rodataName ∧ textName ≠ dataName ∧
      textName ≠ bssName ∧ rodataName ≠ dataName ∧ rodataName ≠ bssName ∧
      dataName ≠ bssName := by decide
  obtain ⟨tr, td, tb, rd, rb, db⟩ := distinct
  let t' : SectionInfo := { t with baseAddr := 0 }
  let r' : SectionInfo := { r with baseAddr := 0 + t.offset }
  let d' : SectionInfo := { d with baseAddr := 0 + t.offset + r.offset }
  let b' : SectionInfo := { b with baseAddr := 0 + t.offset + r.offset + d.offset }
  refine ⟨(((asm.sections.insert textName t').insert rodataName r').insert
      dataName d').insert bssName b',
    0 + t.offset + r.offset + d.offset + b.offset,
    [(textName, t'), (rodataName, r'), (dataName, d'), (bssName, b')],
    ?_, rfl, ?_, ⟨rfl, rfl, rfl, rfl, trivial⟩, ?_, ?_, ?_⟩
  · have text := placeStandard_some asm.sections foundText 0
    have rodata := placeStandard_some (asm.sections.insert textName t')
      (by rw [SortedMap.find?_insert_ne _ tr.symm]; exact foundRodata)
      (0 + t.offset)
    have data := placeStandard_some
      ((asm.sections.insert textName t').insert rodataName r')
      (by
        rw [SortedMap.find?_insert_ne _ rd.symm,
          SortedMap.find?_insert_ne _ td.symm]
        exact foundData)
      (0 + t.offset + r.offset)
    have bss := placeStandard_some
      (((asm.sections.insert textName t').insert rodataName r').insert
        dataName d')
      (by
        rw [SortedMap.find?_insert_ne _ db.symm,
          SortedMap.find?_insert_ne _ rb.symm,
          SortedMap.find?_insert_ne _ tb.symm]
        exact foundBss)
      (0 + t.offset + r.offset + d.offset)
    unfold placeSections
    rw [text, rodata, data, bss]
  · simp [SortedMap.find?_insert, tr, td, tb, rd, rb, db]
  · simp [entrySize, t', r', d', b', add_assoc]
  · intro name other
    simp only [standardNames, List.mem_cons, List.not_mem_nil, or_false,
      not_or] at other
    rw [SortedMap.find?_insert_ne _ other.2.2.2,
      SortedMap.find?_insert_ne _ other.2.2.1,
      SortedMap.find?_insert_ne _ other.2.1, SortedMap.find?_insert_ne _ other.1]
  · simp only [List.forall_mem_cons, List.not_mem_nil, false_imp_iff,
      implies_true, and_true]
    exact ⟨⟨t, 0, foundText, rfl⟩, ⟨r, _, foundRodata, rfl⟩,
      ⟨d, _, foundData, rfl⟩, ⟨b, _, foundBss, rfl⟩⟩

private theorem find?_customs_placed {sections : SectionTable} {name : Text}
    {sec : SectionInfo} (found : sections.find? name = some sec)
    (standard : sec.type ≠ .custom) (currentBase : Word) :
    (sections.mapAccum placeCustom currentBase).find? name = some sec :=
  SortedMap.mem_entries_iff.mp (SortedMap.mem_mapAccumEntries_of_fixed
    (fun base => by rw [placeCustom_standard standard])
    (SortedMap.mem_entries_iff.mpr found))

private theorem not_custom_of_standard :
    ∀ name ∈ standardNames, getSectionType name ≠ .custom := by
  decide

namespace StandardPlaced

variable {asm : Assembler} {standard : SectionTable} {currentBase : Word}
  {first : List (Text × SectionInfo)} {e : Text × SectionInfo} {name : Text}
  {sec : SectionInfo}

theorem name_mem (layout : StandardPlaced asm standard currentBase first)
    (member : e ∈ first) : e.1 ∈ standardNames := by
  rw [← layout.names]
  exact List.mem_map_of_mem member

theorem exists_first (layout : StandardPlaced asm standard currentBase first)
    (named : name ∈ standardNames) : ∃ e ∈ first, e.1 = name := by
  rw [← layout.names] at named
  exact List.mem_map.mp named

/-- Up to here only the bases of the standard sections have changed. -/
theorem origin (layout : StandardPlaced asm standard currentBase first)
    (here : standard.find? name = some sec) :
    ∃ old base, asm.sections.find? name = some old ∧
      sec = { old with baseAddr := base } := by
  by_cases named : name ∈ standardNames
  · obtain ⟨e, inFirst, rfl⟩ := layout.exists_first named
    rw [layout.found e inFirst] at here
    cases here
    exact layout.origins e inFirst
  · rw [layout.others name named] at here
    exact ⟨sec, sec.baseAddr, here, rfl⟩

theorem type (layout : StandardPlaced asm standard currentBase first)
    (formed : WellFormed asm) (here : standard.find? name = some sec) :
    sec.type = getSectionType name := by
  obtain ⟨old, base, foundOld, rfl⟩ := layout.origin here
  exact (formed.typed _ _ foundOld).1

theorem not_custom (layout : StandardPlaced asm standard currentBase first)
    (formed : WellFormed asm) (member : e ∈ first) : e.2.type ≠ .custom := by
  rw [layout.type formed (layout.found e member)]
  exact not_custom_of_standard _ (layout.name_mem member)

theorem find?_first (layout : StandardPlaced asm standard currentBase first)
    (formed : WellFormed asm) (member : e ∈ first) :
    (placeSections asm.sections).find? e.1 = some e.2 := by
  rw [layout.placed]
  exact find?_customs_placed (layout.found e member) (layout.not_custom formed member)
    currentBase

theorem source (layout : StandardPlaced asm standard currentBase first)
    (here : (placeSections asm.sections).find? name = some sec) :
    ∃ base old, standard.find? name = some old ∧ sec = (placeCustom base old).2 := by
  rw [layout.placed] at here
  obtain ⟨base, old, member, equal⟩ :=
    SortedMap.exists_of_mem_mapAccumEntries (SortedMap.mem_entries_iff.mpr here)
  exact ⟨base, old, SortedMap.mem_entries_iff.mp member, equal⟩

theorem placed_type (layout : StandardPlaced asm standard currentBase first)
    (formed : WellFormed asm) (member : e ∈ (placeSections asm.sections).entries) :
    e.2.type = getSectionType e.1 := by
  obtain ⟨base, old, foundOld, equal⟩ := layout.source (SortedMap.mem_entries_iff.mp member)
  obtain ⟨newBase, fields⟩ := placeCustom_fields base old
  have type := layout.type formed foundOld
  rw [equal, fields]
  exact type

theorem keys (layout : StandardPlaced asm standard currentBase first)
    (formed : WellFormed asm) :
    (placeSections asm.sections).entries.map Prod.fst =
      asm.sections.entries.map Prod.fst := by
  rw [layout.placed, SortedMap.mapAccum, SortedMap.keys_mapAccumEntries]
  apply SortedMap.keys_eq
  intro name
  by_cases named : name ∈ standardNames
  · refine iff_of_true ?_ (formed.standard name (by simpa [standardNames] using named))
    obtain ⟨e, inFirst, rfl⟩ := layout.exists_first named
    rw [layout.found e inFirst]
    rfl
  · rw [layout.others name named]

end StandardPlaced

/-- `.text` is placed at zero and `.data` behind `.text` and `.rodata`. -/
theorem standard_bases {asm : Assembler} (formed : WellFormed asm) :
    ∃ t r d, asm.sections.find? textName = some t ∧
      asm.sections.find? rodataName = some r ∧
      asm.sections.find? dataName = some d ∧
      (placeSections asm.sections).find? textName =
        some { t with baseAddr := 0 } ∧
      (placeSections asm.sections).find? dataName =
        some { d with baseAddr := t.offset + r.offset } := by
  obtain ⟨standard, currentBase, first, layout⟩ := standard_placed formed
  obtain ⟨⟨_, t'⟩, others, rfl, rfl, rest⟩ := List.map_eq_cons_iff.mp layout.names
  obtain ⟨⟨_, r'⟩, others, rfl, rfl, behind⟩ := List.map_eq_cons_iff.mp rest
  obtain ⟨⟨_, d'⟩, others, rfl, rfl, _⟩ := List.map_eq_cons_iff.mp behind
  obtain ⟨t, tBase, foundText, rfl⟩ := layout.origins (textName, t') (by simp)
  obtain ⟨r, rBase, foundRodata, rfl⟩ := layout.origins (rodataName, r') (by simp)
  obtain ⟨d, dBase, foundData, rfl⟩ := layout.origins (dataName, d') (by simp)
  obtain ⟨baseT, baseR, baseD, _⟩ := layout.consecutive
  simp only [entryBase, entrySize] at baseT baseR baseD
  have sum : dBase = t.offset + r.offset := by
    rw [baseD]
    exact congrArg (· + r.offset) (BitVec.zero_add _)
  refine ⟨t, r, d, foundText, foundRodata, foundData, ?_, ?_⟩
  · rw [← baseT]
    exact layout.find?_first formed (e := (textName, _)) (by simp)
  · rw [← sum]
    exact layout.find?_first formed (e := (dataName, _)) (by simp)

/-- The sections of the table that have no standard type. -/
private def customs (sections : SectionTable) : List (Text × SectionInfo) :=
  (placeSections sections).entries.filter (·.2.type = .custom)

namespace StandardPlaced

variable {asm : Assembler} {standard : SectionTable} {currentBase : Word}
  {first : List (Text × SectionInfo)}

private theorem names_customs (layout : StandardPlaced asm standard currentBase first)
    (formed : WellFormed asm) :
    (customs asm.sections).map Prod.fst =
      (asm.sections.entries.map Prod.fst).filter (getSectionType · = .custom) := by
  rw [← layout.keys formed, customs, List.filter_map]
  congr 1
  apply List.filter_congr
  rintro ⟨name, sec⟩ member
  rw [layout.placed_type formed member]
  rfl

private theorem nodup_order (layout : StandardPlaced asm standard currentBase first)
    (formed : WellFormed asm) : (first ++ customs asm.sections).Nodup := by
  refine List.nodup_append.mpr ⟨?_, SortedMap.nodup_entries.filter _, ?_⟩
  · apply List.Nodup.of_map Prod.fst
    rw [layout.names]
    decide
  · rintro e inFirst e' inCustom rfl
    have custom := (List.mem_filter.mp inCustom).2
    exact layout.not_custom formed inFirst (of_decide_eq_true custom)

private theorem mem_order_iff (layout : StandardPlaced asm standard currentBase first)
    (formed : WellFormed asm) (e : Text × SectionInfo) :
    e ∈ first ++ customs asm.sections ↔
      e ∈ (placeSections asm.sections).entries ∧ ¬ Prefixed e.1 := by
  rw [List.mem_append, customs, List.mem_filter, decide_eq_true_eq]
  constructor
  · rintro (inFirst | ⟨member, custom⟩)
    · exact ⟨SortedMap.mem_entries_iff.mpr (layout.find?_first formed inFirst),
        fun unplaced => unplaced.1 (layout.name_mem inFirst)⟩
    · rw [layout.placed_type formed member] at custom
      exact ⟨member, fun unplaced => unplaced.2 custom⟩
  · rintro ⟨member, regular⟩
    by_cases named : e.1 ∈ standardNames
    · obtain ⟨e', inFirst, sameName⟩ := layout.exists_first named
      have here := layout.find?_first formed inFirst
      rw [sameName, SortedMap.mem_entries_iff.mp member] at here
      have same : e = e' := Prod.ext sameName.symm (Option.some.inj here)
      exact Or.inl (same ▸ inFirst)
    · have custom : getSectionType e.1 = .custom := by
        by_contra standardType
        exact regular ⟨named, standardType⟩
      refine Or.inr ⟨member, ?_⟩
      rw [layout.placed_type formed member, custom]

private theorem consecutive_order (layout : StandardPlaced asm standard currentBase first)
    (formed : WellFormed asm) :
    Consecutive entryBase entrySize 0 (first ++ customs asm.sections) := by
  refine layout.consecutive.append ?_
  rw [← layout.base, customs, layout.placed]
  apply consecutive_customs
  intro e member custom
  have here := SortedMap.mem_entries_iff.mp member
  rw [layout.type formed here] at custom
  have other : e.1 ∉ standardNames := fun named =>
    not_custom_of_standard _ named custom
  rw [layout.others _ other] at here
  exact (formed.typed _ _ here).2

end StandardPlaced

theorem placed_placeSections {asm : Assembler} (formed : WellFormed asm) :
    ∃ order, Placed asm.sections (placeSections asm.sections) order ∧
      order.map Prod.fst = placementNames asm.sections := by
  obtain ⟨standard, currentBase, first, layout⟩ := standard_placed formed
  refine ⟨first ++ customs asm.sections, ⟨layout.nodup_order formed,
    layout.mem_order_iff formed, layout.consecutive_order formed, ?_, ?_, ?_⟩, ?_⟩
  · intro name sec here
    obtain ⟨base, middle, foundMiddle, equal⟩ := layout.source here
    obtain ⟨newBase, fields⟩ := placeCustom_fields base middle
    obtain ⟨old, oldBase, foundOld, rfl⟩ := layout.origin foundMiddle
    refine ⟨old, foundOld, ?_⟩
    rw [equal, fields]
  · intro name present
    rw [SortedMap.isSome_find?_iff, layout.keys formed, ← SortedMap.isSome_find?_iff]
    exact present
  · intro name sec here unplaced
    obtain ⟨base, old, foundOld, equal⟩ := layout.source here
    have type : old.type ≠ .custom := by
      rw [layout.type formed foundOld]
      exact unplaced.2
    rw [equal, placeCustom_standard type]
    rw [layout.others name unplaced.1] at foundOld
    exact (formed.typed _ _ foundOld).2
  · rw [List.map_append, layout.names, layout.names_customs formed, placementNames]

/-- The bytes of all sections together. -/
def totalSize (sections : SectionTable) : Nat :=
  (sections.entries.map fun e => (entrySize e).toNat).sum

section Ranges

abbrev entryStart (e : Text × SectionInfo) : Nat := (entryBase e).toNat
abbrev entryLength (e : Text × SectionInfo) : Nat := (entrySize e).toNat

variable {sections placed : SectionTable} {order : List (Text × SectionInfo)}

theorem Placed.old (layout : Placed sections placed order)
    {e : Text × SectionInfo} (member : e ∈ placed.entries) :
    ∃ old, (e.1, old) ∈ sections.entries ∧ old.offset = e.2.offset := by
  obtain ⟨old, found, fields⟩ :=
    layout.origin e.1 e.2 (SortedMap.mem_entries_iff.mp member)
  exact ⟨old, SortedMap.mem_entries_iff.mpr found, by rw [fields]⟩

theorem Placed.new (layout : Placed sections placed order)
    {e : Text × SectionInfo} (member : e ∈ sections.entries) :
    ∃ new, (e.1, new) ∈ placed.entries ∧ new.offset = e.2.offset := by
  have found := SortedMap.mem_entries_iff.mp member
  obtain ⟨new, foundNew⟩ := Option.isSome_iff_exists.mp
    (layout.image e.1 (by rw [found]; rfl))
  obtain ⟨old, foundOld, fields⟩ := layout.origin e.1 new foundNew
  rw [found] at foundOld
  cases foundOld
  exact ⟨new, SortedMap.mem_entries_iff.mpr foundNew, by rw [fields]⟩

theorem Placed.sum_le (layout : Placed sections placed order)
    (part : List (Text × SectionInfo)) (inside : ∀ e ∈ part, e ∈ placed.entries)
    (distinct : part.Nodup) :
    (part.map entryLength).sum ≤ totalSize sections := by
  let weight (name : Text) : Nat :=
    ((sections.find? name).map fun sec => sec.offset.toNat).getD 0
  have weighPart : part.map entryLength = (part.map Prod.fst).map weight := by
    rw [List.map_map]
    apply List.map_congr_left
    intro e member
    obtain ⟨old, oldMember, sameSize⟩ := layout.old (inside e member)
    have found := SortedMap.mem_entries_iff.mp oldMember
    simp [weight, found, entryLength, entrySize, sameSize]
  have weighAll : sections.entries.map entryLength =
      (sections.entries.map Prod.fst).map weight := by
    rw [List.map_map]
    apply List.map_congr_left
    intro e member
    have found := SortedMap.mem_entries_iff.mp member
    simp [weight, found, entryLength, entrySize]
  have distinctNames : (part.map Prod.fst).Nodup := by
    refine List.Nodup.map_on ?_ distinct
    intro e member e' member' sameName
    have found := SortedMap.mem_entries_iff.mp (inside e member)
    have found' := SortedMap.mem_entries_iff.mp (inside e' member')
    rw [sameName, found'] at found
    exact Prod.ext sameName (Option.some.inj found).symm
  have subset : part.map Prod.fst ⊆ sections.entries.map Prod.fst := by
    intro name named
    obtain ⟨e, member, rfl⟩ := List.mem_map.mp named
    obtain ⟨old, oldMember, _⟩ := layout.old (inside e member)
    exact List.mem_map.mpr ⟨_, oldMember, rfl⟩
  have bound := sum_le_of_subset weight distinctNames subset
  rw [← weighPart, ← weighAll] at bound
  exact bound

variable (layout : Placed sections placed order)
  (fits : totalSize sections < 2 ^ 32)

include layout fits

theorem Placed.consecutiveNat :
    Consecutive entryStart entryLength 0 order := by
  apply layout.consecutive.toNat
  have bound := layout.sum_le order (fun e member => ((layout.mem e).mp member).1)
    layout.nodup
  exact (Nat.zero_add _).trans_le bound |>.trans_lt fits

theorem Placed.end_lt {e : Text × SectionInfo} (member : e ∈ placed.entries) :
    entryStart e + entryLength e < 2 ^ 32 := by
  by_cases unplaced : Prefixed e.1
  · have base := layout.unplaced e.1 e.2 (SortedMap.mem_entries_iff.mp member)
      unplaced
    have bound := layout.sum_le [e] (by simpa using member) (by simp)
    simp only [List.map_cons, List.map_nil, List.sum_cons, List.sum_nil] at bound
    have start : entryStart e = 0 := by simp [entryStart, entryBase, base]
    omega
  · have bounds := (layout.consecutiveNat fits).bounds e
      ((layout.mem e).mpr ⟨member, unplaced⟩)
    have total := layout.sum_le order (fun e member => ((layout.mem e).mp member).1)
      layout.nodup
    omega

theorem Placed.exists_first {e : Text × SectionInfo}
    (member : e ∈ placed.entries) (regular : ¬ Prefixed e.1)
    (positive : 0 < entryLength e) :
    ∃ f ∈ placed.entries, ¬ Prefixed f.1 ∧ 0 < entryLength f ∧
      entryStart f = 0 := by
  obtain ⟨f, inOrder, fPositive, start⟩ :=
    (layout.consecutiveNat fits).exists_first
      ⟨e, (layout.mem e).mpr ⟨member, regular⟩, positive⟩
  obtain ⟨fMember, fRegular⟩ := (layout.mem f).mp inOrder
  exact ⟨f, fMember, fRegular, fPositive, start⟩

end Ranges

section Soundness

/-- Non-empty sections occupy disjoint address ranges, and every label lies in
the closed range of its own section. -/
structure LayoutSound (asm : Assembler) : Prop where
  disjoint : ∀ a ∈ asm.sections.entries, ∀ b ∈ asm.sections.entries,
    a.1 ≠ b.1 → 0 < entryLength a → 0 < entryLength b →
      Apart entryStart entryLength a b
  labels : ∀ label ∈ asm.labels, ∃ sec,
    asm.sections.find? label.sectionName = some sec ∧
      sec.baseAddr.toNat ≤ label.addr.toNat ∧
      label.addr.toNat ≤ sec.baseAddr.toNat + sec.offset.toNat

/-- What the tables of the first pass must satisfy: a non-empty section that
is not placed has the memory to itself, and no section has shrunk below one of
its labels. -/
structure Separable (asm : Assembler) : Prop where
  alone : ∀ a ∈ asm.sections.entries, Prefixed a.1 → 0 < entryLength a →
    ∀ b ∈ asm.sections.entries, a.1 ≠ b.1 → entryLength b = 0
  inside : ∀ label ∈ asm.labels, ∀ sec,
    asm.sections.find? label.sectionName = some sec →
      label.addr.toNat ≤ sec.offset.toNat

variable {sections placed : SectionTable} {order : List (Text × SectionInfo)}

theorem Placed.disjoint_iff (layout : Placed sections placed order)
    (fits : totalSize sections < 2 ^ 32) :
    (∀ a ∈ placed.entries, ∀ b ∈ placed.entries, a.1 ≠ b.1 →
        0 < entryLength a → 0 < entryLength b →
        Apart entryStart entryLength a b) ↔
      ∀ a ∈ sections.entries, Prefixed a.1 → 0 < entryLength a →
        ∀ b ∈ sections.entries, a.1 ≠ b.1 → entryLength b = 0 := by
  have zero {e : Text × SectionInfo} (member : e ∈ placed.entries)
      (unplaced : Prefixed e.1) : entryStart e = 0 := by
    have base := layout.unplaced e.1 e.2 (SortedMap.mem_entries_iff.mp member)
      unplaced
    simp [entryStart, entryBase, base]
  constructor
  · intro disjoint a member unplaced positive b memberB different
    by_contra nonempty
    obtain ⟨a', placedA, sizeA⟩ := layout.new member
    obtain ⟨b', placedB, sizeB⟩ := layout.new memberB
    have startA := zero placedA unplaced
    -- Whether `b` is placed or not, a section with bytes starts at zero.
    obtain ⟨f, memberF, differentF, positiveF, startF⟩ :
        ∃ f ∈ placed.entries, a.1 ≠ f.1 ∧ 0 < entryLength f ∧
          entryStart f = 0 := by
      have positiveB : 0 < entryLength (b.1, b') := by
        simp only [entryLength, entrySize, sizeB] at nonempty ⊢
        exact Nat.pos_of_ne_zero nonempty
      by_cases unplacedB : Prefixed b.1
      · exact ⟨_, placedB, different, positiveB, zero placedB unplacedB⟩
      · obtain ⟨f, memberF, regular, positiveF, startF⟩ :=
          layout.exists_first fits placedB unplacedB positiveB
        exact ⟨f, memberF, fun same => regular (same ▸ unplaced), positiveF,
          startF⟩
    have positiveA : 0 < entryLength (a.1, a') := by
      simp only [entryLength, entrySize, sizeA] at positive ⊢
      exact positive
    rcases disjoint _ placedA f memberF differentF positiveA positiveF with
      before | after
    · omega
    · omega
  · intro alone a memberA b memberB different positiveA positiveB
    obtain ⟨oldA, oldMemberA, sizeA⟩ := layout.old memberA
    obtain ⟨oldB, oldMemberB, sizeB⟩ := layout.old memberB
    have regularA : ¬ Prefixed a.1 := by
      intro unplaced
      have empty := alone _ oldMemberA unplaced (by
        simpa [entryLength, entrySize, sizeA] using positiveA) _ oldMemberB
        different
      simp only [entryLength, entrySize, sizeB] at empty positiveB
      omega
    have regularB : ¬ Prefixed b.1 := by
      intro unplaced
      have empty := alone _ oldMemberB unplaced (by
        simpa [entryLength, entrySize, sizeB] using positiveB) _ oldMemberA
        different.symm
      simp only [entryLength, entrySize, sizeA] at empty positiveA
      omega
    exact (layout.consecutiveNat fits).apart
      ((layout.mem a).mpr ⟨memberA, regularA⟩)
      ((layout.mem b).mpr ⟨memberB, regularB⟩) (fun same => different (same ▸ rfl))

/-- Adding the base address keeps a label in the range of its section exactly
when its offset is one. -/
theorem label_inside_iff {addr base offset : Word}
    (fits : base.toNat + offset.toNat < 2 ^ 32) :
    (base.toNat ≤ (addr + base).toNat ∧
      (addr + base).toNat ≤ base.toNat + offset.toNat) ↔
      addr.toNat ≤ offset.toNat := by
  have sum : (addr + base).toNat = (addr.toNat + base.toNat) % 2 ^ 32 :=
    BitVec.toNat_add ..
  have bound := addr.isLt
  omega

/-- After `adjust_labels` the layout is sound exactly when the tables of the
first pass are separable. -/
theorem layoutSound_iff_separable {source : Text} {asm : Assembler}
    (produced : firstPass Assembler.init source = .done asm)
    (fits : totalSize asm.sections < 2 ^ 32) (dataBase : Word) :
    LayoutSound (adjustLabels asm dataBase) ↔ Separable asm := by
  have formed := wellFormed_firstPass produced
  obtain ⟨order, layout, _⟩ := placed_placeSections formed
  have labels (label : Label) (member : label ∈ asm.labels) :
      ∃ old new, asm.sections.find? label.sectionName = some old ∧
        (placeSections asm.sections).find? label.sectionName = some new ∧
        new.offset = old.offset ∧
        adjustLabel (placeSections asm.sections) label =
          { label with addr := label.addr + new.baseAddr } ∧
        new.baseAddr.toNat + new.offset.toNat < 2 ^ 32 := by
    obtain ⟨old, found⟩ :=
      Option.isSome_iff_exists.mp (formed.labels label member)
    obtain ⟨new, newMember, sameSize⟩ :=
      layout.new (SortedMap.mem_entries_iff.mpr found)
    have foundNew := SortedMap.mem_entries_iff.mp newMember
    refine ⟨old, new, found, foundNew, sameSize, ?_, layout.end_lt fits newMember⟩
    simp only [adjustLabel, foundNew]
  constructor
  · intro sound
    refine ⟨(layout.disjoint_iff fits).mp sound.disjoint, ?_⟩
    intro label member sec found
    obtain ⟨old, new, foundOld, foundNew, sameSize, adjusted, bound⟩ :=
      labels label member
    rw [found] at foundOld
    cases foundOld
    obtain ⟨sec', found', range⟩ := sound.labels
      (adjustLabel (placeSections asm.sections) label) (List.mem_map_of_mem member)
    rw [adjusted] at found' range
    have same : new = sec' := Option.some.inj (foundNew.symm.trans found')
    rw [← same] at range
    rw [← sameSize]
    exact (label_inside_iff bound).mp range
  · intro separable
    refine ⟨(layout.disjoint_iff fits).mpr separable.alone, ?_⟩
    intro moved member
    obtain ⟨label, labelMember, rfl⟩ := List.mem_map.mp member
    obtain ⟨old, new, foundOld, foundNew, sameSize, adjusted, bound⟩ :=
      labels label labelMember
    rw [adjusted]
    refine ⟨new, foundNew, (label_inside_iff bound).mpr ?_⟩
    rw [sameSize]
    exact separable.inside label labelMember old foundOld

/-- A program with the four standard sections only. -/
theorem layoutSound_iff_separable_standard :
    let asm : Assembler :=
      { Assembler.init with
        sections :=
          (Assembler.init.sections.insert textName ⟨textName, .text, 4, 0⟩).insert
            dataName ⟨dataName, .data, 1, 0⟩
        currentSectionName := dataName
        pcText := 4
        pcData := 1
        textSize := 4
        dataSize := 1 }
    firstPass Assembler.init ".text\nnop\n.data\n.byte 1\n".toList = .done asm ∧
      totalSize asm.sections < 2 ^ 32 ∧
      (LayoutSound (adjustLabels asm 0) ↔ Separable asm) := by
  intro asm
  have produced :
      firstPass Assembler.init ".text\nnop\n.data\n.byte 1\n".toList =
        .done asm := by
    decide +kernel
  have fits : totalSize asm.sections < 2 ^ 32 := by decide +kernel
  exact ⟨produced, fits, layoutSound_iff_separable produced fits 0⟩

/-- The custom sections of the README: `.text.startup` and `.text` both start
at zero. -/
theorem not_layoutSound_startup :
    let startup : Text := ".text.startup".toList
    let asm : Assembler :=
      { Assembler.init with
        sections :=
          (Assembler.init.sections.insert startup ⟨startup, .text, 4, 0⟩).insert
            textName ⟨textName, .text, 4, 0⟩
        pcText := 4
        textSize := 8 }
    firstPass Assembler.init
        ".section .text.startup\nnop\n.section .text\nnop\n".toList = .done asm ∧
      totalSize asm.sections < 2 ^ 32 ∧
      ¬ LayoutSound (adjustLabels asm 0) := by
  intro startup asm
  refine ⟨by decide +kernel, by decide +kernel, ?_⟩
  intro sound
  have apart := sound.disjoint (startup, ⟨startup, .text, 4, 0⟩)
    (by decide +kernel) (textName, ⟨textName, .text, 4, 0⟩) (by decide +kernel)
    (by decide) (by decide) (by decide)
  rcases apart with before | after
  · revert before
    decide
  · revert after
    decide

end Soundness

end RiscvPack.Asm
