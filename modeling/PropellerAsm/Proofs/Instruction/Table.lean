import Mathlib.Algebra.Group.Nat.Defs
import PropellerAsm.Keyword
import PropellerAsm.Proofs.Instruction.Pattern
import PropellerAsm.Proofs.Instruction.Shape
import PropellerAsm.Proofs.Text.Ascii

/-!
# Patterns against shapes

Every row of the instruction table writes its pattern by hand and names a shape, and the two have to
fit: a bit that the pattern fixes must not lie in a field that the operands of the shape fill.  Here
this is checked for all rows, those of the second forms included.
-/
namespace PropellerAsm

/-! ## The condition on one form -/

/-- The marks fit the shape: operands reach a fixed bit only to clear or to vary it, a bit that they
clear is not fixed to one, and a field that a test varies has room for the largest variant. -/
def Shape.Admits (shape : Shape) (marks : List Char) : Prop :=
  marks.length ≤ Pattern.capacity ∧
    Pattern.fixedBits marks &&& Field.maskAll shape.fields &&&
      ~~~(bitMask shape.cleared ||| Field.maskAll shape.varied) = 0 ∧
    (∀ i ∈ shape.cleared, (Pattern.ones marks).getLsbD i = false) ∧
    (shape = .nop ∨
      ∀ f ∈ shape.varied, ((Opcode.mk (Pattern.ones marks)).get f).toNat + 6 < 2 ^ f.width)

instance (shape : Shape) (marks : List Char) : Decidable (shape.Admits marks) :=
  inferInstanceAs (Decidable (_ ∧ _ ∧ (∀ i ∈ shape.cleared, _) ∧ (_ ∨ ∀ f ∈ shape.varied, _)))

namespace Shape.Admits

variable {shape : Shape} {marks : List Char}

/-- A fixed bit that operands reach. -/
theorem reached_cases (h : shape.Admits marks) {i : Nat} {b : Bool}
    (hfixed : Pattern.fixedIn? marks i = some b) {f : Field} (hf : f ∈ shape.fields)
    (hi : f.Covers i) : i ∈ shape.cleared ∨ ∃ g ∈ shape.varied, g.Covers i := by
  have hbit : (Pattern.fixedBits marks &&& Field.maskAll shape.fields &&&
      ~~~(bitMask shape.cleared ||| Field.maskAll shape.varied)).getLsbD i = false := by
    rw [h.2.1]
    exact BitVec.getLsbD_zero
  have hlong : i < 32 := Nat.lt_of_le_of_lt hi.2 f.hi_lt
  -- The bit is fixed and in reach, so it is the complement that is clear there.
  rw [BitVec.getLsbD_and, BitVec.getLsbD_and, BitVec.getLsbD_not, BitVec.getLsbD_or,
    Pattern.getLsbD_fixedBits h.1 hfixed, Field.getLsbD_maskAll_iff.mpr ⟨f, hf, hi⟩,
    decide_eq_true hlong, Bool.true_and, Bool.true_and, Bool.true_and, Bool.not_eq_false',
    Bool.or_eq_true] at hbit
  exact hbit.imp mem_of_getLsbD_bitMask Field.getLsbD_maskAll_iff.mp

theorem not_cleared (h : shape.Admits marks) {i : Nat}
    (hfixed : Pattern.fixedIn? marks i = some true) : i ∉ shape.cleared := by
  intro hi
  have hzero := h.2.2.1 i hi
  rw [Pattern.getLsbD_ones h.1 hfixed] at hzero
  cases hzero

theorem room (h : shape.Admits marks) (hshape : shape ≠ .nop) :
    ∀ f ∈ shape.varied, ((Opcode.mk (Pattern.ones marks)).get f).toNat + 6 < 2 ^ f.width :=
  h.2.2.2.resolve_left hshape

end Shape.Admits

/-- The pattern of a form fits its shape. -/
def Form.Sound (f : Form) : Prop := f.shape.Admits (Pattern.marks f.pattern)

/-! ## Marks from bytes -/

namespace Pattern

/-- The marks of a pattern that is written in ASCII. -/
def byteMarks (pattern : String) : List Char :=
  (pattern.toByteArray.data.toList.map fun b => Char.ofNat b.toNat).filter fun c => !Text.isBlank c

/-- All bytes of a pattern are below 128. -/
def Ascii (pattern : String) : Prop :=
  ∀ b ∈ pattern.toByteArray.data.toList, b.toNat < 128

instance (pattern : String) : Decidable (Ascii pattern) :=
  List.decidableBAll _ _

theorem marks_eq_byteMarks {pattern : String} (h : Ascii pattern) :
    marks pattern = byteMarks pattern := by
  rw [marks, Utf8.toList_of_ascii h, byteMarks]

end Pattern

/-! ## The names of the varied shapes -/

/-- The shapes that vary bits of the pattern belong to these mnemonics. -/
def Shape.Named (shape : Shape) (name : String) : Prop :=
  (shape = .nop ↔ name = "NOP") ∧ (shape = .testBit ↔ name = "TESTB" ∨ name = "TESTBN") ∧
    (shape = .testPin ↔ name = "TESTP" ∨ name = "TESTPN")

instance (shape : Shape) (name : String) : Decidable (shape.Named name) :=
  inferInstanceAs (Decidable ((_ ↔ _) ∧ (_ ↔ _ ∨ _) ∧ (_ ↔ _ ∨ _)))

namespace Instruction

/-! ## Rows with written-out patterns -/

/-- The rows of the table whose patterns are written out. -/
def written : List (String × Form) :=
  shifts ++ sums ++ comparisons ++ limits ++ bitUpdates ++ logic ++ moves ++ widths ++ lanes ++
    alterations ++ registerPairs ++ products ++ reads ++ branches ++ writes ++ stack ++
    settings ++ queries ++ pins ++ flow ++ modifiers

theorem written_checked : ∀ row ∈ written, row.2.shape.Named row.1 ∧
    Pattern.Ascii row.2.pattern ∧ row.2.shape.Admits (Pattern.byteMarks row.2.pattern) := by
  decide +kernel

theorem secondForms_checked : ∀ row ∈ secondForms, row.2.shape.varied = [] ∧
    Pattern.Ascii row.2.pattern ∧ row.2.shape.Admits (Pattern.byteMarks row.2.pattern) := by
  decide +kernel

/-! ## Event instructions -/

/-- The digits of a selector. -/
def selectorMarks (n : Nat) : List Char :=
  List.replicate (9 - (Nat.toDigits 2 n).length) '0' ++ Nat.toDigits 2 n

theorem toList_selector (n : Nat) : (selector n).toList = selectorMarks n := by
  rw [selector, Text.digits, Text.padLeft, String.toList_append, String.toList_ofList,
    String.toList_ofList, String.length_ofList, selectorMarks]

theorem marks_selector (n : Nat) :
    Pattern.marks (selector n) = (selectorMarks n).filter fun c => !Text.isBlank c := by
  rw [Pattern.marks, toList_selector]

theorem eventJumps_checked : ∀ i < eventJumps.length,
    Shape.src.Admits (Pattern.byteMarks "1011110 01I " ++
      (selectorMarks i).filter fun c => !Text.isBlank c) := by
  decide +kernel

theorem eventPolls_checked : ∀ i < eventPolls.length,
    (Shape.bare (some .wcz)).Admits (Pattern.byteMarks "1101011 CZ0 " ++
      ((selectorMarks i).filter fun c => !Text.isBlank c) ++ Pattern.byteMarks " 000100100") := by
  decide +kernel

theorem interruptControl_checked : ∀ i < interruptControl.length,
    (Shape.bare none).Admits (Pattern.byteMarks "1101011 000 " ++
      ((selectorMarks (0x20 + i)).filter fun c => !Text.isBlank c) ++
      Pattern.byteMarks " 000100100") := by
  decide +kernel

theorem eventNames_checked : ∀ name ∈ eventJumps ++ eventPolls ++ interruptControl,
    ¬ (name = "NOP" ∨ (name = "TESTB" ∨ name = "TESTBN") ∨ (name = "TESTP" ∨ name = "TESTPN")) := by
  decide

theorem named_of_plain {shape : Shape} (hshape : shape.varied = []) {name : String}
    (hname : ¬ (name = "NOP" ∨ (name = "TESTB" ∨ name = "TESTBN") ∨
      (name = "TESTP" ∨ name = "TESTPN"))) : shape.Named name := by
  simp only [not_or] at hname
  refine ⟨⟨?_, ?_⟩, ⟨?_, ?_⟩, ⟨?_, ?_⟩⟩
  · rintro rfl
    cases hshape
  · intro h
    exact absurd h hname.1
  · rintro rfl
    cases hshape
  · rintro (h | h)
    · exact absurd h hname.2.1.1
    · exact absurd h hname.2.1.2
  · rintro rfl
    cases hshape
  · rintro (h | h)
    · exact absurd h hname.2.2.1
    · exact absurd h hname.2.2.2

/-- A row that is numbered by its place among names. -/
theorem mem_numbered {names : List String} {row : String × Nat → String × Form}
    (pattern : Nat → String) (shape : Shape)
    (hrow : ∀ name i, row (name, i) = (name, ⟨pattern i, shape⟩)) {name : String} {form : Form}
    (h : (name, form) ∈ names.zipIdx.map row) :
    name ∈ names ∧ ∃ i, i < names.length ∧ form = ⟨pattern i, shape⟩ := by
  obtain ⟨⟨n, i⟩, hmem, hsame⟩ := List.mem_map.mp h
  rw [hrow] at hsame
  obtain ⟨rfl, rfl⟩ := Prod.mk.inj hsame
  exact ⟨List.fst_mem_of_mem_zipIdx hmem, i, List.snd_lt_of_mem_zipIdx hmem, rfl⟩

/-- The event instructions fit their shapes, whatever the selector is. -/
theorem eventForms_sound {name : String} {form : Form} (h : (name, form) ∈ eventForms) :
    form.Sound ∧ form.shape.Named name := by
  have hjump : Pattern.Ascii "1011110 01I " := by decide
  have hpoll : Pattern.Ascii "1101011 CZ0 " := by decide
  have hcontrol : Pattern.Ascii "1101011 000 " := by decide
  have hsource : Pattern.Ascii " 000100100" := by decide
  -- The marks of a row are those of its written parts around the digits of the selector.
  rw [eventForms, List.append_assoc] at h
  rcases List.mem_append.mp h with h | h
  · obtain ⟨hname, i, hi, rfl⟩ := mem_numbered _ _ (fun _ _ => rfl) h
    refine ⟨?_, named_of_plain rfl (eventNames_checked name (by simp [hname]))⟩
    rw [Form.Sound, Pattern.marks_append, marks_selector, Pattern.marks_eq_byteMarks hjump]
    exact eventJumps_checked i hi
  rcases List.mem_append.mp h with h | h
  · obtain ⟨hname, i, hi, rfl⟩ := mem_numbered _ _ (fun _ _ => rfl) h
    refine ⟨?_, named_of_plain rfl (eventNames_checked name (by simp [hname]))⟩
    rw [Form.Sound, Pattern.marks_append, Pattern.marks_append, marks_selector,
      Pattern.marks_eq_byteMarks hpoll, Pattern.marks_eq_byteMarks hsource]
    exact eventPolls_checked i hi
  · obtain ⟨hname, i, hi, rfl⟩ := mem_numbered _ _ (fun _ _ => rfl) h
    refine ⟨?_, named_of_plain rfl (eventNames_checked name (by simp [hname]))⟩
    rw [Form.Sound, Pattern.marks_append, Pattern.marks_append, marks_selector,
      Pattern.marks_eq_byteMarks hcontrol, Pattern.marks_eq_byteMarks hsource]
    exact interruptControl_checked i hi

/-! ## All rows -/

theorem table_sound {name : String} {form : Form} (h : (name, form) ∈ table) :
    form.Sound ∧ form.shape.Named name := by
  have hsplit : table = written ++ eventForms := rfl
  rw [hsplit] at h
  rcases List.mem_append.mp h with hwritten | hevent
  · obtain ⟨hnamed, hascii, hadmits⟩ := written_checked (name, form) hwritten
    refine ⟨?_, hnamed⟩
    rw [Form.Sound, Pattern.marks_eq_byteMarks hascii]
    exact hadmits
  · exact eventForms_sound hevent

theorem secondForms_sound {name : String} {form : Form} (h : (name, form) ∈ secondForms) :
    form.Sound ∧ form.shape.varied = [] := by
  obtain ⟨hvaried, hascii, hadmits⟩ := secondForms_checked (name, form) h
  refine ⟨?_, hvaried⟩
  rw [Form.Sound, Pattern.marks_eq_byteMarks hascii]
  exact hadmits

/-- The form that a keyword stands for is that of its row. -/
theorem mem_table_of_find? {mnemonic : String} {form : Form}
    (h : Keyword.find? mnemonic = some (.instruction form)) :
    (Text.upper mnemonic, form) ∈ table := by
  obtain ⟨before, after, htable, -⟩ := List.lookup_eq_some_iff.mp h
  have hmem : (Text.upper mnemonic, Keyword.instruction form) ∈ Keyword.table := by
    rw [htable]
    exact List.mem_append_right _ List.mem_cons_self
  simpa [Keyword.table] using hmem

theorem mem_secondForms {mnemonic : String} {form : Form}
    (h : secondForm? mnemonic = some form) : (Text.upper mnemonic, form) ∈ secondForms := by
  obtain ⟨before, after, hforms, -⟩ := List.lookup_eq_some_iff.mp h
  rw [hforms]
  exact List.mem_append_right _ List.mem_cons_self

end Instruction

end PropellerAsm
