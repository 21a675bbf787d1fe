import PropellerAsm.Instruction.Table
import PropellerAsm.Text.Upper

/-!
# Keywords

The words with a fixed meaning: mnemonics, conditions, flag updates, registers, parameters of the
flag-setting instructions, directives, and the sign of an assignment.  They are recognised in any
case; `Keyword.find?` looks a word up by its upper case.
-/
namespace PropellerAsm

/-! ## Kinds of keywords -/

/-- A flag update after the operands. -/
inductive Flag where
  | wc
  | wz
  | wcz
  | andC
  | andZ
  | orC
  | orZ
  | xorC
  | xorZ
deriving DecidableEq, Repr

/-- The carry and zero updates that a flag word asks for, as far as the rule allows them. -/
def FlagRule.updates? : FlagRule → Flag → Option (Bool × Bool)
  | .wc, .wc => some (true, false)
  | .wcz, .wc => some (true, false)
  | .wz, .wz => some (false, true)
  | .wcz, .wz => some (false, true)
  | .wcz, .wcz => some (true, true)
  | _, _ => none

/-- The variant of a test that a flag word picks: whether it is the carry flag that is written,
and what to add to the code of the test. -/
def Flag.testVariant? : Flag → Option (Bool × Long)
  | wc => some (true, 0)
  | wz => some (false, 0)
  | andC => some (true, 2)
  | andZ => some (false, 2)
  | orC => some (true, 4)
  | orZ => some (false, 4)
  | xorC => some (true, 6)
  | xorZ => some (false, 6)
  | wcz => none

/-- A directive of the assembler. -/
inductive Directive where
  /-- Data in bytes, words or longs. -/
  | byte
  | word
  | long
  /-- Reserves longs without storing anything. -/
  | res
  /-- Checks that the code so far lies below a limit. -/
  | fit
  /-- Sets the program counter: a register address, or a hub address. -/
  | org
  | orgh
  /-- Fills registers with zeros up to an address. -/
  | orgf
  /-- Fills hub memory up to a multiple of two or four bytes. -/
  | alignw
  | alignl
deriving DecidableEq, Repr

/-- The registers with names, which lie at the top of register memory. -/
inductive Register where
  | ijmp3
  | iret3
  | ijmp2
  | iret2
  | ijmp1
  | iret1
  | pa
  | pb
  | ptra
  | ptrb
  | dira
  | dirb
  | outa
  | outb
  | ina
  | inb
deriving DecidableEq, Repr

/-- The address of a named register. -/
def Register.address : Register → BitVec 9
  | ijmp3 => 0x1f0
  | iret3 => 0x1f1
  | ijmp2 => 0x1f2
  | iret2 => 0x1f3
  | ijmp1 => 0x1f4
  | iret1 => 0x1f5
  | pa => 0x1f6
  | pb => 0x1f7
  | ptra => 0x1f8
  | ptrb => 0x1f9
  | dira => 0x1fa
  | dirb => 0x1fb
  | outa => 0x1fc
  | outb => 0x1fd
  | ina => 0x1fe
  | inb => 0x1ff

/-- The code of a register that an address instruction can load. -/
def Register.pointer? : Register → Option Long
  | pa => some 0
  | pb => some 1
  | ptra => some 2
  | ptrb => some 3
  | _ => none

/-- What a keyword means. -/
inductive Keyword where
  | instruction (form : Form)
  | condition (code : Condition)
  | flag (f : Flag)
  | register (r : Register)
  /-- A new value of a flag, as a function of both flags. -/
  | modcz (code : BitVec 4)
  | directive (d : Directive)
  /-- The equals sign. -/
  | assign
deriving DecidableEq, Repr

/-! ## The table -/

namespace Keyword

/-- The conditions under which an instruction runs. -/
def conditions : List (String × Condition) :=
  [("_RET_", 0x0), ("IF_NC_AND_NZ", 0x1), ("IF_NZ_AND_NC", 0x1), ("IF_A", 0x1), ("IF_GT", 0x1),
   ("IF_00", 0x1), ("IF_NC_AND_Z", 0x2), ("IF_Z_AND_NC", 0x2), ("IF_01", 0x2), ("IF_NC", 0x3),
   ("IF_AE", 0x3), ("IF_GE", 0x3), ("IF_0X", 0x3), ("IF_C_AND_NZ", 0x4), ("IF_NZ_AND_C", 0x4),
   ("IF_10", 0x4), ("IF_NZ", 0x5), ("IF_NE", 0x5), ("IF_X0", 0x5), ("IF_C_NE_Z", 0x6),
   ("IF_Z_NE_C", 0x6), ("IF_DIFF", 0x6), ("IF_NC_OR_NZ", 0x7), ("IF_NZ_OR_NC", 0x7),
   ("IF_NOT_11", 0x7), ("IF_C_AND_Z", 0x8), ("IF_Z_AND_C", 0x8), ("IF_11", 0x8),
   ("IF_C_EQ_Z", 0x9), ("IF_Z_EQ_C", 0x9), ("IF_SAME", 0x9), ("IF_Z", 0xa), ("IF_E", 0xa),
   ("IF_X1", 0xa), ("IF_NC_OR_Z", 0xb), ("IF_Z_OR_NC", 0xb), ("IF_NOT_10", 0xb), ("IF_C", 0xc),
   ("IF_B", 0xc), ("IF_LT", 0xc), ("IF_1X", 0xc), ("IF_C_OR_NZ", 0xd), ("IF_NZ_OR_C", 0xd),
   ("IF_NOT_01", 0xd), ("IF_C_OR_Z", 0xe), ("IF_Z_OR_C", 0xe), ("IF_BE", 0xe), ("IF_LE", 0xe),
   ("IF_NOT_00", 0xe), ("IF_ALWAYS", 0xf)]

/-- The parameters that give a flag a new value. -/
def modczParameters : List (String × BitVec 4) :=
  [("_CLR", 0x0), ("_NC_AND_NZ", 0x1), ("_NZ_AND_NC", 0x1), ("_GT", 0x1), ("_NC_AND_Z", 0x2),
   ("_Z_AND_NC", 0x2), ("_NC", 0x3), ("_GE", 0x3), ("_C_AND_NZ", 0x4), ("_NZ_AND_C", 0x4),
   ("_NZ", 0x5), ("_NE", 0x5), ("_C_NE_Z", 0x6), ("_Z_NE_C", 0x6), ("_NC_OR_NZ", 0x7),
   ("_NZ_OR_NC", 0x7), ("_C_AND_Z", 0x8), ("_Z_AND_C", 0x8), ("_C_EQ_Z", 0x9), ("_Z_EQ_C", 0x9),
   ("_Z", 0xa), ("_E", 0xa), ("_NC_OR_Z", 0xb), ("_Z_OR_NC", 0xb), ("_C", 0xc), ("_LT", 0xc),
   ("_C_OR_NZ", 0xd), ("_NZ_OR_C", 0xd), ("_C_OR_Z", 0xe), ("_Z_OR_C", 0xe), ("_LE", 0xe),
   ("_SET", 0xf)]

/-- The named registers. -/
def registers : List (String × Register) :=
  [("IJMP3", .ijmp3), ("IRET3", .iret3), ("IJMP2", .ijmp2), ("IRET2", .iret2),
   ("IJMP1", .ijmp1), ("IRET1", .iret1), ("PA", .pa), ("PB", .pb), ("PTRA", .ptra),
   ("PTRB", .ptrb), ("DIRA", .dira), ("DIRB", .dirb), ("OUTA", .outa), ("OUTB", .outb),
   ("INA", .ina), ("INB", .inb)]

/-- The flag updates. -/
def flags : List (String × Flag) :=
  [("WC", .wc), ("WZ", .wz), ("WCZ", .wcz), ("ANDC", .andC), ("ANDZ", .andZ), ("ORC", .orC),
   ("ORZ", .orZ), ("XORC", .xorC), ("XORZ", .xorZ)]

/-- The directives. -/
def directives : List (String × Directive) :=
  [("BYTE", .byte), ("WORD", .word), ("LONG", .long), ("RES", .res), ("FIT", .fit),
   ("ORG", .org), ("ORGF", .orgf), ("ORGH", .orgh), ("ALIGNW", .alignw), ("ALIGNL", .alignl)]

/-- Every keyword in capitals with its meaning; no word stands twice. -/
def table : List (String × Keyword) :=
  Instruction.table.map (fun row => (row.1, instruction row.2)) ++
    conditions.map (fun row => (row.1, condition row.2)) ++
    modczParameters.map (fun row => (row.1, modcz row.2)) ++
    registers.map (fun row => (row.1, register row.2)) ++
    flags.map (fun row => (row.1, flag row.2)) ++
    directives.map (fun row => (row.1, directive row.2)) ++
    [("=", assign)]

/-- The meaning of a word in any case, if it is a keyword. -/
def find? (word : String) : Option Keyword :=
  table.lookup (Text.upper word)

/-- The code of the word as a register that an address instruction can load. -/
def pointer? (word : String) : Option Long :=
  match find? word with
  | some (register r) => r.pointer?
  | _ => none

end Keyword

/-- The second form of a mnemonic in any case, if it has one. -/
def Instruction.secondForm? (mnemonic : String) : Option Form :=
  Instruction.secondForms.lookup (Text.upper mnemonic)

end PropellerAsm
