import PropellerAsm.Instruction.Pattern

/-!
# Operand shapes

The shape of an instruction says which operands it takes, where an immediate destination is
marked, and which flag updates may follow.  An instruction form is a bit pattern with a shape.
-/
namespace PropellerAsm

/-- The flag updates that may follow the operands. -/
inductive FlagRule where
  | wc
  | wz
  /-- Either of them, or both as one word. -/
  | wcz
deriving DecidableEq, Repr

/-- The words for a flag rule in a message. -/
def FlagRule.text : FlagRule → String
  | wc => "WC"
  | wz => "WZ"
  | wcz => "WC, WZ, or WCZ"

/-- Where `#` on the destination is marked. -/
inductive ImmediateMark where
  /-- Nowhere: the destination must be a register. -/
  | none
  /-- In the immediate bit. -/
  | immediate
  /-- In the zero-flag bit. -/
  | zero
deriving DecidableEq, Repr

/-- The parts of a register that an indexed instruction picks from. -/
inductive Lane where
  | nibble
  | byte
  | word
deriving DecidableEq, Repr

/-- The largest index of a lane in a long. -/
def Lane.max : Lane → Nat
  | nibble => 7
  | byte => 3
  | word => 1

/-- Where the index of a lane is stored. -/
def Lane.field : Lane → Field
  | nibble => .nibbleIndex
  | byte => .byteIndex
  | word => .wordIndex

/-- The flags that an instruction gives new values. -/
inductive FlagTarget where
  | carry
  | zero
  | both
deriving DecidableEq, Repr

/-- The operands that an instruction takes. -/
inductive Shape where
  /-- None; the long is zero whatever the condition. -/
  | nop
  /-- None but a flag update. -/
  | bare (flags : Option FlagRule)
  /-- A destination. -/
  | dst (mark : ImmediateMark) (flags : Option FlagRule)
  /-- A pin, and a flag that picks the variant. -/
  | testPin
  /-- A source. -/
  | src
  /-- A register and a source, which is the register itself if left out. -/
  | dstSrc (pointer : Bool) (flags : Option FlagRule)
  /-- As before, and a flag that picks the variant. -/
  | testBit
  /-- Two operands that may both be immediate. -/
  | both (pointer : Bool) (flags : Option FlagRule)
  /-- A register, a source and a lane index. -/
  | lane (l : Lane)
  /-- A register and a source. -/
  | alter
  /-- A register to jump to. -/
  | jump
  /-- A register for the return address and a source to jump to. -/
  | callD
  /-- A register for a random number. -/
  | getRnd
  /-- A pointer register and an address. -/
  | pointerAddress
  /-- An address. -/
  | address
  /-- The upper bits of the next immediate. -/
  | augment
  /-- A new value for each of the flags. -/
  | modify (target : FlagTarget)
deriving DecidableEq, Repr

/-- One way to encode a mnemonic. -/
structure Form where
  pattern : String
  shape : Shape
deriving DecidableEq, Repr

/-- The fixed ones of the form's pattern. -/
def Form.bits (f : Form) : Long :=
  (Pattern.bits? f.pattern).getD 0

end PropellerAsm
