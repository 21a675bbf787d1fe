import PropellerAsm.Operand

/-!
# Pointer expressions

Reads from hub memory and writes to it take, in place of a source, one of the registers `PTRA` and
`PTRB` with an optional update before or after the access and an optional index in brackets.  The
source field of such an operand is

```
1SUPNNNNN
```

`S` picks `PTRB`, `U` updates the pointer, `P` updates it after the access, and `N` is the index
as a signed number, which counts down for a decrement.
-/
namespace PropellerAsm

/-- How a pointer moves. -/
inductive PointerMove where
  | stay
  | up (after : Bool)
  | down (after : Bool)
deriving DecidableEq, Repr

namespace PointerMove

/-- The index of a pointer without brackets. -/
def unit : PointerMove → Quad
  | stay => 0
  | up _ => 1
  | down _ => -1

/-- The index that a number in brackets means. -/
def scale : PointerMove → Quad → Quad
  | down _, x => -x
  | _, x => x

/-- The pointer is updated. -/
def updates : PointerMove → Bool
  | stay => false
  | _ => true

/-- The update comes after the access. -/
def isAfter : PointerMove → Bool
  | stay => false
  | up after => after
  | down after => after

end PointerMove

/-- A pointer expression. -/
structure Pointer where
  /-- The pointer is `PTRB`. -/
  ptrb : Bool
  move : PointerMove
  /-- The text between the brackets. -/
  index : Option String
deriving DecidableEq, Repr

namespace Pointer

/-- Splits an operand text into the part before the first opening bracket and the part between it
and the closing bracket at the end; a text without both is all before. -/
def splitIndex (cs : List Char) : List Char × Option (List Char) :=
  if cs.contains '[' && cs.getLast? == some ']' then
    (cs.takeWhile (· != '['), some ((cs.dropWhile (· != '[')).tail.dropLast))
  else (cs, none)

/-- Takes the update off a pointer name: one in front, else one behind it. -/
def splitMove (body : List Char) : List Char × PointerMove :=
  match body with
  | '+' :: '+' :: name => (name, .up false)
  | '-' :: '-' :: name => (name, .down false)
  | _ =>
    match body.reverse with
    | '+' :: '+' :: eman => (eman.reverse, .up true)
    | '-' :: '-' :: eman => (eman.reverse, .down true)
    | _ => (body, .stay)

/-- Reads an operand text as a pointer expression, in any case of the ASCII letters. -/
def parse? (text : String) : Option Pointer :=
  let (body, index) := splitIndex text.toList
  let (name, move) := splitMove (body.map Char.toUpper)
  let index := index.map String.ofList
  if name = "PTRA".toList then some { ptrb := false, move, index }
  else if name = "PTRB".toList then some { ptrb := true, move, index }
  else none

/-- The source field of a pointer with an index. -/
def field (p : Pointer) (index : Quad) : Long :=
  let bit (b : Bool) (place : Nat) : Long := if b then 1 <<< place else 0
  0x100 ||| bit p.ptrb 7 ||| bit (p.move.updates) 6 |||
    bit (p.move.isAfter) 5 ||| (index.setWidth 32 &&& 0x1f)

/-- The index is one of −16 to 15. -/
def inRange (index : Quad) : Bool :=
  -16 ≤ index.toInt && index.toInt ≤ 15

/-- The source field of a pointer expression. -/
def encode (ctx : Context) (p : Pointer) : Evaluator Long :=
  match p.index with
  | none => return p.field (p.move.unit)
  | some text => do
    let operand ← Operand.evaluate ctx text
    let index := p.move.scale operand.value
    if inRange index then return p.field index
    else throw (.pointerIndex (index.setWidth 32))

end Pointer

end PropellerAsm
