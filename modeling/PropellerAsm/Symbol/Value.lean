import PropellerAsm.Decimal.Shortest
import PropellerAsm.Literal.Quoted
import PropellerAsm.Text.Utf8

/-!
# Symbol values

A symbol is bound to a value of one of eight kinds, or is undefined as long as it has only been
used.  Every value reads as a 64-bit number in an expression; values of one kind are ordered,
values of different kinds are not.
-/
namespace PropellerAsm

/-- What a symbol stands for. -/
inductive Value where
  /-- Used, and not defined so far. -/
  | undefined
  | bool (b : Bool)
  | byte (b : BitVec 8)
  | word (w : BitVec 16)
  /-- A program counter. -/
  | addr (pc : Long)
  | long (l : Long)
  | quad (q : Quad)
  | real (r : Float)
  | text (bytes : List UInt8)
deriving BEq, Inhabited

namespace Value

/-- The value is a definition. -/
def isDefined : Value → Bool
  | undefined => false
  | _ => true

/-- The name of the kind in the symbol list. -/
def kind : Value → String
  | undefined => "invalid"
  | bool _ => "bool"
  | byte _ => "byte"
  | word _ => "word"
  | addr _ => "addr"
  | long _ => "long"
  | quad _ => "quad"
  | real _ => "real"
  | text _ => "string"

/-- The number that the value stands for in an expression.  A real is cut to its whole part and
kept within the range; a text is read as a string literal. -/
def toQuad : Value → Quad
  | undefined => 0
  | bool b => if b then 1 else 0
  | byte b => b.setWidth 64
  | word w => w.setWidth 64
  | addr pc => pc.setWidth 64
  | long l => l.setWidth 64
  | quad q => q
  | real r => r.toUInt64.toBitVec
  | text bytes => Quoted.value bytes

/-- The text of the value in lists and messages. -/
def display : Value → String
  | undefined => "<undefined>"
  | bool b => if b then "true" else "false"
  | byte b => "$" ++ Text.hex 2 b.toNat
  | word w => "$" ++ Text.hex 4 w.toNat
  | addr pc => "$" ++ Text.hex 5 pc.toNat
  | long l => "$" ++ Text.hex 8 l.toNat
  | quad q => "$" ++ Text.hex 0 q.toNat
  | real r => (Decimal.Binary.ofBits r.toBits.toNat).text
  | text bytes => "\"" ++ Utf8.decodeLossy bytes ++ "\""

/-- The order of two members of a linear order. -/
def order {α : Type} [LT α] [DecidableEq α] [DecidableLT α] (a b : α) : Ordering :=
  if a < b then .lt else if a = b then .eq else .gt

/-- The order of two reals; a number that is not one has no place in it. -/
def orderReal? (a b : Float) : Option Ordering :=
  if a < b then some .lt else if a == b then some .eq else if b < a then some .gt else none

/-- The order of two values of one kind. -/
def compare? : Value → Value → Option Ordering
  | undefined, undefined => some .eq
  | bool a, bool b => some (order a b)
  | byte a, byte b => some (order a b)
  | word a, word b => some (order a b)
  | addr a, addr b => some (order a b)
  | long a, long b => some (order a b)
  | quad a, quad b => some (order a b)
  | real a, real b => orderReal? a b
  | text a, text b => some (order a b)
  | _, _ => none

end Value

end PropellerAsm
