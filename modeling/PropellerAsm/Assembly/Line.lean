import PropellerAsm.Encoding

/-!
# Line records

What the assembler keeps of every source line that has words: where it stands, how it was split,
and what came of it.
-/
namespace PropellerAsm

/-- What came of a line. -/
inductive Outcome where
  /-- Nothing to store. -/
  | nothing
  | code (instruction : Encoded)
  | data (bytes : List UInt8)
  | fault (f : Fault)
deriving DecidableEq, Repr

/-- The record of a source line. -/
structure Line where
  /-- Lines are counted from one. -/
  number : Nat
  pc : Long
  source : String
  words : List Word
  outcome : Outcome
deriving DecidableEq, Repr

namespace Line

/-- The augmentations stored before the instruction. -/
def augments (line : Line) : List Long :=
  match line.outcome with
  | .code e => e.augments
  | _ => []

/-- The instruction. -/
def opcode? (line : Line) : Option Long :=
  match line.outcome with
  | .code e => some e.word
  | _ => none

/-- The data. -/
def data (line : Line) : List UInt8 :=
  match line.outcome with
  | .data bytes => bytes
  | _ => []

/-- The fault, if there is one. -/
def fault? (line : Line) : Option Fault :=
  match line.outcome with
  | .fault f => some f
  | _ => none

end Line

end PropellerAsm
