import Mathlib.Algebra.Group.Nat.Defs
import PropellerAsm.Proofs.Instruction.Shape

/-!
# Fields as registers

What a field holds after an instruction long has been built from fixed bits and a condition, and
after something has been written or added to it.  The fields of a long are registers of their own
widths: one takes the low bits of what is written to it, and writing or adding to it changes no
other bit.
-/
namespace PropellerAsm

/-! ## Fields without a common bit -/

namespace Field

/-- The fields have no bit in common. -/
def Apart (f g : Field) : Prop := f.hi < g.lo ∨ g.hi < f.lo

instance (f g : Field) : Decidable (f.Apart g) :=
  inferInstanceAs (Decidable (f.hi < g.lo ∨ g.hi < f.lo))

namespace Apart

variable {f g : Field}

theorem symm (h : f.Apart g) : g.Apart f := Or.symm h

theorem irrefl (f : Field) : ¬ f.Apart f := by
  have hle := f.lo_le_hi
  unfold Apart
  omega

theorem not_covers (h : f.Apart g) {i : Nat} (hi : f.Covers i) : ¬ g.Covers i := by
  intro hi'
  unfold Apart at h
  unfold Covers at hi hi'
  omega

end Apart

theorem width_le (f : Field) : f.width ≤ 32 := by
  have hhi := f.hi_lt
  unfold width
  omega

theorem covers_add_iff (f : Field) (i : Nat) : f.Covers (f.lo + i) ↔ i < f.width := by
  have hlo := f.lo_le_hi
  unfold Covers width
  omega

/-- The mask is the one long with ones in the field and nowhere else. -/
theorem eq_mask_iff (f : Field) (mask : Long) :
    mask = f.mask ↔ ∀ i, mask.getLsbD i = decide (f.Covers i) := by
  have hbits : ∀ i, f.mask.getLsbD i = decide (f.Covers i) := fun i => by
    rw [getLsbD_mask, ← Bool.decide_and]
    rfl
  constructor
  · rintro rfl
    exact hbits
  · intro h
    apply BitVec.eq_of_getLsbD_eq
    intro i _
    rw [h, hbits]

end Field

namespace Opcode

/-! ## Reading a field -/

/-- The bits of a field, counted from its low end. -/
theorem getLsbD_get (op : Opcode) (f : Field) (i : Nat) :
    (op.get f).getLsbD i = (decide (i < f.width) && op.word.getLsbD (f.lo + i)) := by
  have hcovers := f.covers_add_iff i
  unfold Field.Covers at hcovers
  rw [get, BitVec.getLsbD_ushiftRight, BitVec.getLsbD_and, Field.getLsbD_mask, ← Bool.decide_and,
    Bool.and_comm]
  simp only [hcovers]

theorem toNat_get_lt (op : Opcode) (f : Field) : (op.get f).toNat < 2 ^ f.width := by
  apply Nat.lt_pow_two_of_testBit
  intro i hi
  show (op.get f).getLsbD i = false
  rw [getLsbD_get, decide_eq_false (Nat.not_lt.mpr hi), Bool.false_and]

/-- A field depends on its own bits only. -/
theorem get_congr {op op' : Opcode} {f : Field}
    (h : ∀ i, f.Covers i → op'.word.getLsbD i = op.word.getLsbD i) : op'.get f = op.get f := by
  apply BitVec.eq_of_getLsbD_eq
  intro i _
  rw [getLsbD_get, getLsbD_get]
  by_cases hi : i < f.width
  · rw [h _ ((f.covers_add_iff i).mpr hi)]
  · rw [decide_eq_false hi, Bool.false_and, Bool.false_and]

/-! ## Writing a field -/

/-- A field holds the low bits of the value written to it. -/
theorem toNat_get_set (op : Opcode) (f : Field) (value : Long) :
    ((op.set f value).get f).toNat = value.toNat % 2 ^ f.width := by
  apply Nat.eq_of_testBit_eq
  intro i
  rw [Nat.testBit_mod_two_pow]
  show ((op.set f value).get f).getLsbD i = (decide (i < f.width) && value.getLsbD i)
  rw [getLsbD_get]
  by_cases hi : i < f.width
  · have hcovers : f.lo ≤ f.lo + i ∧ f.lo + i ≤ f.hi := (f.covers_add_iff i).mpr hi
    rw [getLsbD_set, if_pos hcovers, Nat.add_sub_cancel_left]
  · rw [decide_eq_false hi, Bool.false_and, Bool.false_and]

theorem get_set (op : Opcode) {f : Field} {value : Long} (h : value.toNat < 2 ^ f.width) :
    (op.set f value).get f = value := by
  apply BitVec.eq_of_toNat_eq
  rw [toNat_get_set, Nat.mod_eq_of_lt h]

/-- Writing a field changes no bit outside of it. -/
theorem getLsbD_set_of_not_covers (op : Opcode) {f : Field} {i : Nat} (h : ¬ f.Covers i)
    (value : Long) : (op.set f value).word.getLsbD i = op.word.getLsbD i := by
  rw [getLsbD_set]
  exact if_neg h

/-- Writing one field leaves the fields apart from it as they are. -/
theorem get_set_of_apart (op : Opcode) {f g : Field} (h : f.Apart g) (value : Long) :
    (op.set g value).get f = op.get f := by
  apply get_congr
  intro i hi
  exact getLsbD_set_of_not_covers op (h.not_covers hi) value

/-- A long is known by its bits. -/
theorem eq_of_getLsbD_eq {op op' : Opcode} (h : ∀ i, op.word.getLsbD i = op'.word.getLsbD i) :
    op = op' :=
  congrArg Opcode.mk (BitVec.eq_of_getLsbD_eq fun i _ => h i)

/-- Only the low bits of a value reach a field. -/
theorem set_congr (op : Opcode) {f : Field} {x y : Long}
    (h : x.toNat % 2 ^ f.width = y.toNat % 2 ^ f.width) : op.set f x = op.set f y := by
  have hbits : ∀ i < f.width, x.getLsbD i = y.getLsbD i := by
    intro i hi
    have hbit := congrArg (Nat.testBit · i) h
    simpa [Nat.testBit_mod_two_pow, hi, BitVec.getLsbD] using hbit
  apply eq_of_getLsbD_eq
  intro i
  rw [getLsbD_set, getLsbD_set]
  split
  · rename_i hcovers
    refine hbits _ ?_
    unfold Field.width
    omega
  · rfl

/-- Writes to fields without a common bit can be exchanged. -/
theorem set_comm (op : Opcode) {f g : Field} (h : f.Apart g) (x y : Long) :
    (op.set f x).set g y = (op.set g y).set f x := by
  apply eq_of_getLsbD_eq
  intro i
  simp only [getLsbD_set]
  split
  · rename_i hg
    exact (if_neg (h.symm.not_covers hg)).symm
  · rfl

/-- A field keeps nothing of what was written to it before. -/
theorem set_set (op : Opcode) (f : Field) (x y : Long) : (op.set f x).set f y = op.set f y := by
  apply eq_of_getLsbD_eq
  intro i
  simp only [getLsbD_set]
  split
  · rfl
  · rfl

/-! ## Adding to a field -/

/-- Adding to a field with room for the sum. -/
theorem get_add (op : Opcode) {f : Field} {delta : Long}
    (h : (op.get f).toNat + delta.toNat < 2 ^ f.width) :
    (op.add f delta).get f = op.get f + delta := by
  have hlong : 2 ^ f.width ≤ 2 ^ 32 := Nat.pow_le_pow_right (by decide) f.width_le
  apply get_set
  rw [BitVec.toNat_add, Nat.mod_eq_of_lt (Nat.lt_of_lt_of_le h hlong)]
  exact h

/-- Adding to a field writes the sum, less what a carry would take out of the field. -/
theorem add_eq_set (op : Opcode) (f : Field) (delta : Long) :
    op.add f delta =
      op.set f (BitVec.ofNat 32 (((op.get f).toNat + delta.toNat) % 2 ^ f.width)) := by
  have hlong : 2 ^ f.width ∣ 2 ^ 32 := Nat.pow_dvd_pow 2 f.width_le
  apply set_congr
  rw [BitVec.toNat_add, BitVec.toNat_ofNat, Nat.mod_mod_of_dvd _ hlong,
    Nat.mod_mod_of_dvd _ hlong, Nat.mod_mod]

/-- The fields of a long are independent registers.  The mask of a field is the one long with ones
in the field and nowhere else.  A field takes the low bits of what is written to it, whatever was
there before, and no other bit changes; writes to fields without a common bit can be exchanged; and
adding to a field writes the sum modulo the capacity of the field, so that no carry leaves it. -/
theorem fields_independent (op : Opcode) (f : Field) (value : Long) :
    (∀ mask : Long, mask = f.mask ↔ ∀ i, mask.getLsbD i = decide (f.lo ≤ i ∧ i ≤ f.hi)) ∧
    ((op.set f value).get f).toNat = value.toNat % 2 ^ (f.hi - f.lo + 1) ∧
    (∀ i, i < f.lo ∨ f.hi < i → (op.set f value).word.getLsbD i = op.word.getLsbD i) ∧
    (∀ g other, f.hi < g.lo ∨ g.hi < f.lo →
      (op.set f value).set g other = (op.set g other).set f value) ∧
    (∀ earlier, (op.set f earlier).set f value = op.set f value) ∧
    op.add f value =
      op.set f (BitVec.ofNat 32 (((op.get f).toNat + value.toNat) % 2 ^ (f.hi - f.lo + 1))) ∧
    (∀ i, i < f.lo ∨ f.hi < i → (op.add f value).word.getLsbD i = op.word.getLsbD i) := by
  have houtside : ∀ i, i < f.lo ∨ f.hi < i → ¬ f.Covers i := by
    intro i hi hcovers
    unfold Field.Covers at hcovers
    omega
  refine ⟨fun mask => f.eq_mask_iff mask, toNat_get_set op f value, ?_, ?_, ?_, ?_, ?_⟩
  · intro i hi
    exact getLsbD_set_of_not_covers op (houtside i hi) value
  · intro g other hapart
    exact set_comm op hapart value other
  · intro earlier
    exact set_set op f earlier value
  · exact add_eq_set op f value
  · intro i hi
    rw [add_eq_set]
    exact getLsbD_set_of_not_covers op (houtside i hi) _

/-! ## The condition -/

/-- Below the condition stand the fixed bits. -/
theorem getLsbD_ofBits_low (bits : Long) (cond : Condition) {i : Nat} (hi : i < 28) :
    (ofBits bits cond).word.getLsbD i = bits.getLsbD i := by
  have hout : ¬ (Field.condition.lo ≤ i ∧ i ≤ Field.condition.hi) := fun h => by
    have hlo : 28 ≤ i := h.1
    omega
  rw [ofBits, getLsbD_set, if_neg hout]

/-- The condition is in the upper four bits, as long as nothing else writes there. -/
theorem condition_of_kept {bits : Long} {cond : Condition} {word : Long}
    (h : ∀ i, 28 ≤ i → word.getLsbD i = (ofBits bits cond).word.getLsbD i) :
    word.extractLsb' 28 4 = cond := by
  apply BitVec.eq_of_getLsbD_eq
  intro i hi
  have hcovers : Field.condition.lo ≤ 28 + i ∧ 28 + i ≤ Field.condition.hi := by
    have hlo : Field.condition.lo = 28 := rfl
    have hhi : Field.condition.hi = 31 := rfl
    omega
  have hback : 28 + i - Field.condition.lo = i := Nat.add_sub_cancel_left 28 i
  have hlong : i < 32 := by omega
  rw [BitVec.getLsbD_extractLsb', h _ (Nat.le_add_right 28 i), ofBits, getLsbD_set, if_pos hcovers,
    hback, BitVec.getLsbD_setWidth, decide_eq_true hi, decide_eq_true hlong, Bool.true_and,
    Bool.true_and]

end Opcode

end PropellerAsm
