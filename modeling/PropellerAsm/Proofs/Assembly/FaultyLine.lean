import PropellerAsm.Proofs.Assembly.Reachable

/-!
# Lines with a fault

A fault can arise anywhere on a line: at its label, at its condition, at any operand after others
have been taken, at the check of a directive.  Wherever it does, the line leaves its record, the
uses of names up to that point and the binding of its own label; the image, the program counters and
every symbol with a value are as they were.
-/
namespace PropellerAsm

theorem Effect.outcome_ne_fault (effect : Effect) (f : Fault) : effect.outcome ≠ .fault f := by
  cases effect <;> exact Outcome.noConfusion

theorem Line.outcome_of_fault? {line : Line} {f : Fault} (h : line.fault? = some f) :
    line.outcome = .fault f := by
  unfold fault? at h
  split at h
  · rename_i f' houtcome
    rw [houtcome, Option.some.inj h]
  · cases h

namespace Assembly

/-! ## The record -/

/-- The record found under the number of the next line is the one that the line added. -/
theorem lines_of_record {a : Assembly} (ha : Replayed a) {source : String} {record : Line}
    (hrecord : (a.line source).line? (a.lineNumber + 1) = some record) :
    (a.line source).lines = a.lines.push record := by
  obtain hlines | ⟨added, hnumber, hlines⟩ := a.lines_line source
  · -- No earlier record has this number.
    rw [line?, hlines] at hrecord
    have hle := ha.counted record (Array.mem_toList_iff.mpr (Array.mem_of_find?_eq_some hrecord))
    have heq := Array.find?_some hrecord
    rw [beq_iff_eq] at heq
    omega
  · have hnone : a.lines.find? (·.number == a.lineNumber + 1) = none := by
      rw [Array.find?_eq_none]
      intro earlier hmem heq
      have hle := ha.counted earlier (Array.mem_toList_iff.mpr hmem)
      rw [beq_iff_eq] at heq
      omega
    rw [line?, hlines, Array.find?_push, hnone, hnumber] at hrecord
    simp only [Option.none_or, beq_self_eq_true, if_true, Option.some.injEq] at hrecord
    rw [hlines, hrecord]

/-- The record that a line adds has a fault only if reading its words ended in that fault. -/
theorem line_of_faulty_push {a : Assembly} {source : String} {record : Line} {f : Fault}
    (hlines : (a.line source).lines = a.lines.push record) (hfault : record.outcome = .fault f) :
    ∃ block text b, record.pc = a.nextPc ∧ record.number = a.lineNumber + 1 ∧
      read a.nextPc (Word.code record.words) (a.begun block text) = .error f b ∧
      a.line source = (b.note (.faulty (a.lineNumber + 1) f)).keep record := by
  obtain ⟨-, block, hline⟩ | ⟨block, text, label, effect, b, hread, hline⟩ |
    ⟨block, text, f', b, hread, hline⟩ := a.line_outcomes source
  · -- Without words there is no new record.
    rw [hline] at hlines
    have hsize := congrArg Array.size hlines
    rw [Array.size_push] at hsize
    exact absurd hsize (Nat.ne_of_lt (Nat.lt_succ_self _))
  · -- An effect leaves no fault in the record.
    have hsame : b.lines = a.lines := ((keeps_read _ _).of_ok hread).lines
    rw [hline, keep, lines_commit, hsame] at hlines
    obtain ⟨rfl, -⟩ := Array.push_eq_push.mp hlines
    exact absurd hfault (effect.outcome_ne_fault f)
  · have hsame : b.lines = a.lines := ((keeps_read _ _).of_error hread).lines
    rw [hline, ← hsame] at hlines
    obtain ⟨rfl, -⟩ := Array.push_eq_push.mp hlines
    obtain rfl := Outcome.fault.inj hfault
    exact ⟨block, text, b, rfl, rfl, hread, hline⟩

theorem diagnostics_keep {a : Assembly} {line : Line} {f : Fault} (h : line.fault? = some f) :
    (a.keep line).diagnostics = a.diagnostics ++ [(line.number, f)] := by
  show a.readFaults.map _ ++ (a.lines.push line).toList.filterMap _ = _
  rw [Array.toList_push, List.filterMap_append, ← List.append_assoc]
  simp [diagnostics, h]

/-! ## What a fault leaves -/

/-- A line with a fault adds one diagnosis and stores nothing.  Image and program counters stay,
symbols with a value keep it, and the table gains the uses on the line and, at most, the line's own
label at the program counter. -/
theorem faulty_line_keeps_state {a : Assembly} (ha : Reachable a) {source : String}
    {record : Line} {f : Fault}
    (hrecord : (a.line source).line? (a.lineNumber + 1) = some record)
    (hfault : record.fault? = some f) :
    (record.augments = [] ∧ record.opcode? = none ∧ record.data = [] ∧ record.pc = a.nextPc) ∧
    (a.line source).diagnostics = a.diagnostics ++ [(a.lineNumber + 1, f)] ∧
    ((a.line source).image = a.image ∧ (a.line source).imageEnd = a.imageEnd ∧
      (a.line source).nextPc = a.nextPc ∧ (a.line source).lastPc = a.lastPc) ∧
    (∀ name s, a.symbols.get? name = some s → s.isDefined = true →
      ∃ s', (a.line source).symbols.get? name = some s' ∧ s'.value = s.value ∧
        s'.definition? = s.definition?) ∧
    ∃ label uses, (∀ name, label = some name → OwnLabel a.scope (Word.code record.words) name) ∧
      SymbolTable.Extended (a.lineNumber + 1) (.addr a.nextPc) label uses a.symbols
        (a.line source).symbols := by
  have hsettled := ha.settled
  have houtcome := Line.outcome_of_fault? hfault
  obtain ⟨block, text, b, hpc, hnumber, hread, hline⟩ :=
    line_of_faulty_push (lines_of_record hsettled.replayed hrecord) houtcome
  -- The fault arose while the words were read, and reading keeps the output.
  have hsame := (keeps_read _ _).of_error hread
  obtain ⟨label, uses, hlabel, hextended⟩ :=
    extended_read (a.begun block text) a.nextPc (Word.code record.words)
  rw [hread] at hextended
  rw [hline]
  refine ⟨⟨?_, ?_, ?_, hpc⟩, ?_, ⟨hsame.image, hsame.imageEnd, hsame.nextPc, ?_⟩, ?_, ?_⟩
  · rw [Line.augments, houtcome]
  · rw [Line.opcode?, houtcome]
  · rw [Line.data, houtcome]
  · rw [diagnostics_keep hfault, hnumber]
    show b.readFaults.map _ ++ b.lines.toList.filterMap _ ++ _ = _
    rw [hsame.readFaults, hsame.lines]
    rfl
  · -- The next program counter is not above the highest one, so the latter stays.
    show (if b.lastPc.toNat < b.nextPc.toNat then b.nextPc else b.lastPc) = a.lastPc
    rw [hsame.lastPc, hsame.nextPc]
    exact if_neg (Nat.not_lt.mpr hsettled.nextPc_le)
  · intro name s hget hdefined
    exact hextended.defined hget hdefined (hsettled.mentioned name s hget)
  · exact ⟨label, uses, hlabel, hextended⟩

/-- A division by zero behind a label and a use of an unknown name. -/
theorem faulty_line_division_by_zero :
    ∃ record, (((({} : Assembly).line "a nop").line "b mov c,#1/0").line? 2 = some record ∧
      record.fault? = some .divisionByZero) ∧ record.opcode? = none ∧
      ((({} : Assembly).line "a nop").line "b mov c,#1/0").image =
        (({} : Assembly).line "a nop").image ∧
      ((({} : Assembly).line "a nop").line "b mov c,#1/0").diagnostics =
        (({} : Assembly).line "a nop").diagnostics ++ [(2, .divisionByZero)] := by
  have hfault : (((({} : Assembly).line "a nop").line "b mov c,#1/0").line? 2).bind Line.fault? =
      some .divisionByZero := by decide +kernel
  have hnumber : (({} : Assembly).line "a nop").lineNumber + 1 = 2 := by decide +kernel
  obtain ⟨record, hrecord, hrecordFault⟩ := Option.bind_eq_some_iff.mp hfault
  rw [← hnumber] at hrecord
  obtain ⟨⟨-, hopcode, -, -⟩, hdiagnostics, ⟨himage, -⟩, -⟩ :=
    faulty_line_keeps_state (.line .new "a nop") hrecord hrecordFault
  rw [hnumber] at hrecord hdiagnostics
  exact ⟨record, ⟨hrecord, hrecordFault⟩, hopcode, himage, hdiagnostics⟩

end Assembly

end PropellerAsm
