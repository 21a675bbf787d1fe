import PropellerAsm.Instruction.Shape

/-!
# The bits that operands reach

For each shape, the fields that its operands can write.  Most of their bits are filled with the
value of an operand, whatever it is; the flag-setting instructions leave a part of the destination
clear; and three shapes vary bits that the pattern writes out: a test adds its variant to the
operation or to the source, and no operation clears the whole long.
-/
namespace PropellerAsm

/-! ## Fields -/

/-- The bit belongs to the field. -/
def Field.Covers (f : Field) (i : Nat) : Prop := f.lo ≤ i ∧ i ≤ f.hi

instance (f : Field) (i : Nat) : Decidable (f.Covers i) :=
  inferInstanceAs (Decidable (f.lo ≤ i ∧ i ≤ f.hi))

/-- The fields of the first layout, which make up a long. -/
def Field.layout : List Field :=
  [.condition, .operation, .carry, .zero, .immediate, .destination, .source]

theorem Field.exists_covers_of_lt {i : Nat} (hi : i < 32) : ∃ f ∈ layout, f.Covers i := by
  simp only [layout, Covers, condition, operation, carry, zero, immediate, destination, source,
    List.mem_cons, List.not_mem_nil, or_false, exists_eq_or_imp, exists_eq_left]
  omega

/-- Where a shape marks an immediate destination. -/
def ImmediateMark.fields : ImmediateMark → List Field
  | none => []
  | immediate => [.immediate]
  | zero => [.zero]

/-- The flags that a rule can update. -/
def FlagRule.fields : FlagRule → List Field
  | wc => [.carry]
  | wz => [.zero]
  | wcz => [.carry, .zero]

/-- The fields of a source. -/
def Field.sourceFields : List Field := [.immediate, .source]

/-- The fields that the operands of a shape can write. -/
def Shape.fields : Shape → List Field
  | nop => Field.layout
  | bare rule => rule.elim [] FlagRule.fields
  | dst mark rule => .destination :: mark.fields ++ rule.elim [] FlagRule.fields
  | testPin => [.destination, .immediate, .carry, .zero, .source]
  | src => Field.sourceFields
  | dstSrc _ rule => .destination :: Field.sourceFields ++ rule.elim [] FlagRule.fields
  | testBit => .destination :: Field.sourceFields ++ [.carry, .zero, .operation]
  | both _ rule => .destination :: (.zero :: Field.sourceFields) ++ rule.elim [] FlagRule.fields
  | lane l => .destination :: Field.sourceFields ++ [l.field]
  | alter => .destination :: Field.sourceFields
  | jump => [.destination, .carry, .zero]
  | callD => .destination :: Field.sourceFields ++ [.carry, .zero]
  | getRnd => [.destination, .carry, .zero]
  | pointerAddress => [.pointer, .relative, .address]
  | address => [.relative, .address]
  | augment => [.augment]
  | modify _ => [.destination, .carry, .zero]

/-! ## Cleared and varied bits -/

/-- The bits of the destination that a flag-setting instruction leaves clear. -/
def FlagTarget.cleared : FlagTarget → List Nat
  | both => [17]
  | carry => [17, 12, 11, 10, 9]
  | zero => [17, 16, 15, 14, 13]

/-- The bits that are clear whatever the operands are. -/
def Shape.cleared : Shape → List Nat
  | modify target => target.cleared
  | _ => []

/-- The fields of the pattern that the operands vary. -/
def Shape.varied : Shape → List Field
  | nop => Field.layout
  | testPin => [.source]
  | testBit => [.operation]
  | _ => []

/-! ## Masks -/

/-- A union of masks has a one where some of them has. -/
theorem getLsbD_foldr_or {α : Type} (mask : α → Long) (l : List α) (i : Nat) :
    (l.foldr (fun a union => mask a ||| union) 0).getLsbD i =
      l.any fun a => (mask a).getLsbD i := by
  induction l with
  | nil => exact BitVec.getLsbD_zero
  | cons a l ih => rw [List.foldr_cons, BitVec.getLsbD_or, ih, List.any_cons]

/-- The long with ones in some places. -/
def bitMask (bits : List Nat) : Long :=
  bits.foldr (fun i union => BitVec.twoPow 32 i ||| union) 0

theorem mem_of_getLsbD_bitMask {bits : List Nat} {i : Nat}
    (h : (bitMask bits).getLsbD i = true) : i ∈ bits := by
  rw [bitMask, getLsbD_foldr_or, List.any_eq_true] at h
  obtain ⟨j, hj, hbit⟩ := h
  rw [BitVec.getLsbD_twoPow, Bool.and_eq_true, decide_eq_true_eq, decide_eq_true_eq] at hbit
  rw [← hbit.2]
  exact hj

/-- The long with ones in some fields. -/
def Field.maskAll (fields : List Field) : Long :=
  fields.foldr (fun f union => f.mask ||| union) 0

theorem Field.getLsbD_maskAll_iff {fields : List Field} {i : Nat} :
    (Field.maskAll fields).getLsbD i = true ↔ ∃ f ∈ fields, f.Covers i := by
  rw [maskAll, getLsbD_foldr_or, List.any_eq_true]
  simp only [getLsbD_mask, Bool.and_eq_true, decide_eq_true_eq, Covers]

end PropellerAsm
