import PropellerAsm.Machine

/-!
# Instruction longs and their fields

An instruction is one long:

```
EEEE IIIIIII CZI DDDDDDDDD SSSSSSSSS
```

with condition, operation, the flags carry, zero and immediate, and the destination and source
fields.  Jumps and augmentations lay out their low bits differently:

```
EEEE IIIIIWW RAA AAAAAAAAA AAAAAAAAA
EEEE IIIIINN NNN NNNNNNNNN NNNNNNNNN
```

A field is a range of bits; reading one and writing one leave every other bit alone.
-/
namespace PropellerAsm

/-- The four bits that decide when an instruction runs. -/
abbrev Condition := BitVec 4

/-- The condition of an instruction that is written without one. -/
def Condition.always : Condition := 0xf

/-- A range of bits of a long, both ends included. -/
structure Field where
  hi : Nat
  lo : Nat
  lo_le_hi : lo ≤ hi := by decide
  hi_lt : hi < 32 := by decide
deriving DecidableEq, Repr

namespace Field

/-- The number of bits. -/
def width (f : Field) : Nat := f.hi - f.lo + 1

/-- The long with ones in the field and zeros elsewhere. -/
def mask (f : Field) : Long :=
  (BitVec.allOnes 32 >>> (31 - f.hi)) &&& (BitVec.allOnes 32 <<< f.lo)

/-- The bits of the mask are those of the field. -/
theorem getLsbD_mask (f : Field) (i : Nat) :
    f.mask.getLsbD i = (decide (f.lo ≤ i) && decide (i ≤ f.hi)) := by
  have lo_le_hi := f.lo_le_hi
  have hi_lt := f.hi_lt
  simp only [mask, BitVec.getLsbD_and, BitVec.getLsbD_ushiftRight, BitVec.getLsbD_shiftLeft,
    BitVec.getLsbD_allOnes]
  by_cases h : f.lo ≤ i <;> by_cases h' : i ≤ f.hi <;> simp [h, h'] <;> omega

/-! ## The fields of the layouts -/

/-- When the instruction runs (`EEEE`). -/
def condition : Field := { hi := 31, lo := 28 }

/-- What the instruction does (`IIIIIII`). -/
def operation : Field := { hi := 27, lo := 21 }

/-- Write the carry flag (`C`). -/
def carry : Field := { hi := 20, lo := 20 }

/-- Write the zero flag (`Z`); some instructions mark an immediate destination here. -/
def zero : Field := { hi := 19, lo := 19 }

/-- The source is an immediate (`I`). -/
def immediate : Field := { hi := 18, lo := 18 }

/-- The destination (`DDDDDDDDD`). -/
def destination : Field := { hi := 17, lo := 9 }

/-- The source (`SSSSSSSSS`). -/
def source : Field := { hi := 8, lo := 0 }

/-- The pointer register of an address instruction (`WW`). -/
def pointer : Field := { hi := 22, lo := 21 }

/-- The address is relative (`R`). -/
def relative : Field := { hi := 20, lo := 20 }

/-- A 20-bit address (`A`). -/
def address : Field := { hi := 19, lo := 0 }

/-- The 23 upper bits of an augmented immediate (`N`). -/
def augment : Field := { hi := 22, lo := 0 }

/-- The index of a nibble, which reaches into the operation. -/
def nibbleIndex : Field := { hi := 21, lo := 19 }

/-- The index of a byte. -/
def byteIndex : Field := { hi := 20, lo := 19 }

/-- The index of a word. -/
def wordIndex : Field := { hi := 19, lo := 19 }

end Field

/-- An instruction long under construction. -/
structure Opcode where
  word : Long := 0
deriving DecidableEq, Repr

namespace Opcode

/-- The value of a field. -/
def get (op : Opcode) (f : Field) : Long :=
  (op.word &&& f.mask) >>> f.lo

/-- Writes a field; bits of the value that do not fit are dropped. -/
def set (op : Opcode) (f : Field) (value : Long) : Opcode :=
  ⟨(op.word &&& ~~~f.mask) ||| ((value <<< f.lo) &&& f.mask)⟩

/-- Adds to a field; a carry out of it is dropped. -/
def add (op : Opcode) (f : Field) (delta : Long) : Opcode :=
  op.set f (op.get f + delta)

/-- Writing a field gives it the low bits of the value and leaves every other bit alone. -/
theorem getLsbD_set (op : Opcode) (f : Field) (value : Long) (i : Nat) :
    (op.set f value).word.getLsbD i =
      if f.lo ≤ i ∧ i ≤ f.hi then value.getLsbD (i - f.lo) else op.word.getLsbD i := by
  have hi_lt := f.hi_lt
  simp only [set, BitVec.getLsbD_or, BitVec.getLsbD_and, BitVec.getLsbD_not,
    BitVec.getLsbD_shiftLeft, Field.getLsbD_mask]
  by_cases h : f.lo ≤ i ∧ i ≤ f.hi
  · -- Inside the field the old bit is masked out.
    have i_lt : i < 32 := by omega
    simp [h, i_lt]
  · have out : (decide (f.lo ≤ i) && decide (i ≤ f.hi)) = false := by simpa using h
    rw [out, if_neg h]
    by_cases i_lt : i < 32
    · simp [i_lt]
    · simp [i_lt, BitVec.getLsbD_of_ge _ _ (Nat.le_of_not_lt i_lt)]

/-- The long of an instruction's fixed bits under a condition. -/
def ofBits (bits : Long) (cond : Condition) : Opcode :=
  Opcode.set ⟨bits⟩ .condition (cond.setWidth 32)

end Opcode

end PropellerAsm
