import PropellerAsm.Fault
import PropellerAsm.Symbol.Table

/-!
# Events

The assembler reports what it does as events, each with a level of detail and a wording.
-/
namespace PropellerAsm

/-- How much detail an event is. -/
inductive Level where
  | warn
  | debug
  | trace
deriving DecidableEq, Repr

/-- Something that happened during a pass; `line` is the number of a source line. -/
inductive Event where
  /-- A line is taken up at a program counter. -/
  | started (line : Nat) (pc : Long) (text : String)
  /-- A name is bound to a value. -/
  | bound (line : Nat) (name : String) (value : Value)
  | encoded (line : Nat) (mnemonic : String) (longs : List Long)
  /-- A fault ended the work on a line; line 0 stands for the source as a whole. -/
  | faulty (line : Nat) (f : Fault)
  /-- A write did not fit into the image. -/
  | dropped (line : Nat) (addr : Nat)
  /-- A symbol is undefined at the end. -/
  | unresolved (s : Symbol)
  | finished (lines symbols : Nat) (lastPc : Long) (faults : Nat)

namespace Event

/-- The level of an event. -/
def level : Event → Level
  | started .. => .debug
  | bound .. => .trace
  | encoded .. => .trace
  | faulty .. => .warn
  | dropped .. => .debug
  | unresolved .. => .debug
  | finished .. => .debug

/-- A message about a line. -/
def onLine (line : Nat) (text : String) : String :=
  "line " ++ Text.decimal line ++ ": " ++ text

/-- The wording of an event. -/
def message : Event → String
  | started line pc text => onLine line ("$" ++ Text.hex 5 pc.toNat ++ " " ++ text)
  | bound line name value => onLine line (name ++ " = " ++ value.display)
  | encoded line mnemonic longs =>
    onLine line (mnemonic ++ " => " ++ Text.bracketed (longs.map fun l => Text.hex 8 l.toNat))
  | faulty line f => onLine line f.message
  | dropped line addr => onLine line ("$" ++ Text.hex 5 addr ++ " is outside the image, dropped")
  | unresolved s =>
    "undefined symbol '" ++ s.name ++ "' used in lines " ++
      Text.bracketed (s.references.map Text.decimal)
  | finished lines symbols lastPc faults =>
    Text.decimal lines ++ " lines, " ++ Text.decimal symbols ++ " symbols, last pc $" ++
      Text.hex 5 lastPc.toNat ++ ", " ++ Text.decimal faults ++ " errors"

end Event

end PropellerAsm
