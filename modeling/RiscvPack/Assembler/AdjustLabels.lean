import RiscvPack.Assembler.FirstPass

/-!
# Section placement

`adjust_labels.cpp`: the four standard sections follow one another from
address zero, the custom ones come after them in the order of their names, and
every label moves by the base address of its section.
-/

namespace RiscvPack.Asm

open CString

/-- One of the four standard sections placed at `currentBase`. -/
def placeStandard (name : Text) (placed : SectionTable × Word) :
    SectionTable × Word :=
  let (sections, currentBase) := placed
  match sections.find? name with
  | some sec =>
      (sections.insert name { sec with baseAddr := currentBase },
        currentBase + sec.offset)
  | none => (sections, currentBase)

/-- The loop body for one entry of the section table. -/
def placeCustom (currentBase : Word) (sec : SectionInfo) : Word × SectionInfo :=
  if sec.type = .custom ∧ sec.baseAddr = 0 then
    (currentBase + sec.offset, { sec with baseAddr := currentBase })
  else (currentBase, sec)

def placeSections (sections : SectionTable) : SectionTable :=
  let (standard, currentBase) :=
    placeStandard bssName
      (placeStandard dataName
        (placeStandard rodataName (placeStandard textName (sections, 0))))
  standard.mapAccum placeCustom currentBase

def adjustLabel (sections : SectionTable) (label : Label) : Label :=
  match sections.find? label.sectionName with
  | some sec => { label with addr := label.addr + sec.baseAddr }
  | none => label

/-- `adjust_labels`; its argument is not used. -/
def adjustLabels (asm : Assembler) (_dataBase : Word) : Assembler :=
  let sections := placeSections asm.sections
  { asm with
    sections
    labels := asm.labels.map (adjustLabel sections) }

end RiscvPack.Asm
