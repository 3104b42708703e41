import RiscvPack.Assembler.Lines

/-!
# What a line writes

The bytes of a line depend on its section and on the address it stands at, and
on nothing that was written before.  A data directive does not look at the
address either.
-/

namespace RiscvPack.Asm

open CString Runs Files
open SourceLine (read)

/-- A step that ends writes some bytes, and the same ones from every state
that `R` relates. -/
def Repeats (R : Pass2 → Pass2 → Prop) (step : Pass2 → Outcome Stop Pass2) : Prop :=
  ∀ st t, step st = .done t →
    ∃ bytes, t = st.emit bytes ∧ ∀ st', R st st' → step st' = .done (st'.emit bytes)

/-- The second pass is at the same address. -/
def SamePc (st st' : Pass2) : Prop := st'.pc = st.pc

section Steps

variable {R : Pass2 → Pass2 → Prop} {labels : List Label}

theorem SamePc.emit {st st' : Pass2} (same : SamePc st st') (bytes : List Byte) :
    SamePc (st.emit bytes) (st'.emit bytes) :=
  congrArg (· + BitVec.ofNat 32 bytes.length) same

theorem repeats_still : Repeats R .done := by
  rintro st t finished
  cases finished
  exact ⟨[], st.emit_nil.symm, fun st' _ => by rw [Pass2.emit_nil]⟩

theorem repeats_emit (bytes : List Byte) : Repeats R fun st => .done (st.emit bytes) := by
  rintro st t finished
  cases finished
  exact ⟨bytes, rfl, fun st' _ => rfl⟩

theorem repeats_stopped (reason : Stop) : Repeats R (.stopped reason) := by
  rintro st t finished
  cases finished

theorem repeats_run {α : Type} {step : Pass2 → α → Outcome Stop Pass2} {items : List α}
    (kept : ∀ st st' bytes, R st st' → R (st.emit bytes) (st'.emit bytes))
    (steps : ∀ a ∈ items, Repeats R (step · a)) : Repeats R (run step · items) := by
  induction items with
  | nil => exact repeats_still
  | cons a items induction =>
      intro st t finished
      obtain ⟨middle, stepped, rest⟩ := run_cons_eq_done.mp finished
      obtain ⟨front, rfl, first⟩ := steps a List.mem_cons_self st middle stepped
      obtain ⟨back, rfl, others⟩ := induction
        (fun b member => steps b (List.mem_cons_of_mem _ member)) _ t rest
      refine ⟨front ++ back, (st.emit_append front back).symm, ?_⟩
      intro st' related
      rw [Pass2.emit_append]
      exact run_cons_eq_done.mpr
        ⟨_, first st' related, others _ (kept st st' front related)⟩

theorem repeats_items (item : Text → Except Stop (List Byte × Text)) (fuel : Nat) (s : Text)
    (kept : ∀ st st' bytes, R st st' → R (st.emit bytes) (st'.emit bytes)) :
    Repeats R (emitItems item fuel · s) := by
  induction fuel generalizing s with
  | zero =>
      cases s with
      | nil => exact repeats_still
      | cons c rest => exact repeats_stopped .diverges
  | succ fuel induction =>
      cases s with
      | nil => exact repeats_still
      | cons c rest =>
          intro st t finished
          simp only [emitItems] at finished ⊢
          split at finished
          · rename_i value
            simp only [if_pos value]
            split at finished
            · rename_i front after reads
              obtain ⟨back, rfl, others⟩ := induction _ _ t finished
              refine ⟨front ++ back, (st.emit_append front back).symm, ?_⟩
              intro st' related
              rw [Pass2.emit_append]
              exact others _ (kept st st' front related)
            · cases finished
          · rename_i separator
            simp only [if_neg separator]
            exact induction _ st t finished

theorem repeats_dataDirective (s : Text)
    (kept : ∀ st st' bytes, R st st' → R (st.emit bytes) (st'.emit bytes)) :
    Repeats R (processDataDirective labels · s) := by
  unfold processDataDirective
  simp only
  split
  · cases strchr '"' (trim s) with
    | none => exact repeats_stopped _
    | some found =>
        simp only
        cases parseEscapedString found.2 with
        | error reason => exact repeats_stopped reason
        | ok bytes =>
            simp only [← Pass2.emit_append]
            exact repeats_emit _
  split
  · cases strchr '"' (trim s) with
    | none => exact repeats_stopped _
    | some found =>
        simp only
        cases parseEscapedString found.2 with
        | error reason => exact repeats_stopped reason
        | ok bytes => exact repeats_emit bytes
  split
  · exact repeats_items _ _ _ kept
  split
  · exact repeats_items _ _ _ kept
  split
  · exact repeats_items _ _ _ kept
  split
  · cases scanInt ((trim s).drop 6) with
    | none => exact repeats_still
    | some size => exact repeats_emit _
  · exact repeats_still

theorem repeats_emitInstruction (args : Operands) :
    Repeats SamePc (emitInstruction labels · args) := by
  intro st t finished
  simp only [emitInstruction] at finished ⊢
  cases encodes : encodeInstruction labels st.pc args with
  | error reason =>
      rw [encodes] at finished
      cases finished
  | ok word =>
      rw [encodes] at finished
      cases finished
      refine ⟨Bits.leBytes word, rfl, ?_⟩
      intro st' same
      simp only [show st'.pc = st.pc from same, encodes]

theorem repeats_instruction (s : Text) :
    Repeats SamePc (processInstructionSecondPass labels · s) := by
  unfold processInstructionSecondPass
  cases readOperands s with
  | error reason => exact repeats_stopped reason
  | ok args =>
      simp only
      cases Pseudo.ofText args.op with
      | none => exact repeats_emitInstruction args
      | some op =>
          intro st t finished
          simp only at finished ⊢
          cases expands : expandPseudoinstruction labels op args.a1 args.a2 st.pc with
          | error reason =>
              rw [expands] at finished
              cases finished
          | ok expanded =>
              rw [expands] at finished
              have lines : Repeats SamePc (run (emitExpanded labels) · expanded) := by
                apply repeats_run fun st st' bytes same => same.emit bytes
                intro line _
                unfold emitExpanded
                cases readExpanded line with
                | error reason => exact repeats_stopped reason
                | ok args => exact repeats_emitInstruction args
              obtain ⟨bytes, rfl, others⟩ := lines st t finished
              refine ⟨bytes, rfl, ?_⟩
              intro st' same
              rw [show st'.pc = st.pc from same, expands]
              exact others st' same

end Steps

section Lines

variable {asm : Assembler} {line : Text} {st t : Pass2}

theorem repeats_item {item : Text} (finished : secondPassItem asm st item = .done t) :
    ∃ bytes, t = st.emit bytes ∧ ∀ st' : Pass2,
      st'.currentSectionName = st.currentSectionName → (bytes ≠ [] → st'.pc = st.pc) →
        secondPassItem asm st' item = .done (st'.emit bytes) := by
  have still : ∃ bytes, st = st.emit bytes ∧ ∀ st' : Pass2,
      st'.currentSectionName = st.currentSectionName → (bytes ≠ [] → st'.pc = st.pc) →
        Outcome.done (ε := Stop) st' = .done (st'.emit bytes) :=
    ⟨[], st.emit_nil.symm, fun st' _ _ => by rw [Pass2.emit_nil]⟩
  unfold secondPassItem at finished ⊢
  simp only at finished ⊢
  split at finished
  · rename_i directive
    simp only [if_pos directive]
    split at finished
    · rename_i data
      obtain ⟨bytes, rfl, others⟩ :=
        repeats_dataDirective item (R := fun _ _ => True) (fun _ _ _ _ => trivial) st t
          finished
      refine ⟨bytes, rfl, ?_⟩
      intro st' name _
      rw [name, if_pos data]
      exact others st' trivial
    · rename_i text
      cases finished
      obtain ⟨bytes, same, others⟩ := still
      refine ⟨bytes, same, ?_⟩
      intro st' name pc
      rw [name, if_neg text]
      exact others st' name pc
  · rename_i instruction
    simp only [if_neg instruction]
    split at finished
    · rename_i text
      obtain ⟨bytes, rfl, others⟩ := repeats_instruction item st t finished
      refine ⟨bytes, rfl, ?_⟩
      intro st' name pc
      rw [name, if_pos text]
      apply others st'
      apply pc
      -- The words of the instruction are among the bytes.
      rintro rfl
      have size := (emitted_instruction finished).size_unique (.bytes [])
      have some := instructionWords_pos finished
      rw [List.length_nil] at size
      omega
    · rename_i data
      cases finished
      obtain ⟨bytes, same, others⟩ := still
      refine ⟨bytes, same, ?_⟩
      intro st' name pc
      rw [name, if_neg data]
      exact others st' name pc

/-- A line writes the same bytes wherever it stands in a section, as long as
it stands at the same address if it writes any. -/
theorem repeats_line (stays : (read line).entered = none)
    (finished : secondPassLine asm st line = .done t) :
    ∃ bytes, t = st.emit bytes ∧ ∀ st' : Pass2,
      st'.currentSectionName = st.currentSectionName → (bytes ≠ [] → st'.pc = st.pc) →
        secondPassLine asm st' line = .done (st'.emit bytes) := by
  simp only [secondPassLine_eq] at finished ⊢
  cases content : read line with
  | skipped =>
      rw [content] at finished
      cases finished
      exact ⟨[], st.emit_nil.symm, fun st' _ _ => by rw [Pass2.emit_nil]; rfl⟩
  | content s =>
      rw [content] at finished
      simp only [secondPassRead, secondPassContent_eq] at finished ⊢
      cases item : contentItem s with
      | none =>
          rw [item] at finished
          cases finished
          exact ⟨[], st.emit_nil.symm, fun st' _ _ => by rw [Pass2.emit_nil]⟩
      | some i =>
          rw [item] at finished
          exact repeats_item finished
  | legacyText | legacyData | named =>
      rw [content] at stays
      cases stays

/-- Lines of one section, passed from another state at the same address. -/
theorem repeats_lines {lines : List Text} (stays : ∀ l ∈ lines, (read l).entered = none)
    (finished : run (secondPassLine asm) st lines = .done t) :
    ∃ bytes, t = st.emit bytes ∧ ∀ st' : Pass2,
      st'.currentSectionName = st.currentSectionName → st'.pc = st.pc →
        run (secondPassLine asm) st' lines = .done (st'.emit bytes) := by
  let R (st st' : Pass2) : Prop :=
    st'.currentSectionName = st.currentSectionName ∧ SamePc st st'
  have steps : Repeats R (run (secondPassLine asm) · lines) := by
    apply repeats_run
    · rintro st st' bytes ⟨name, same⟩
      exact ⟨name, same.emit bytes⟩
    · intro line member st t stepped
      obtain ⟨bytes, emitted, others⟩ := repeats_line (stays line member) stepped
      exact ⟨bytes, emitted, fun st' related => others st' related.1 fun _ => related.2⟩
  obtain ⟨bytes, emitted, others⟩ := steps st t finished
  exact ⟨bytes, emitted, fun st' name pc => others st' ⟨name, pc⟩⟩

end Lines

end RiscvPack.Asm
