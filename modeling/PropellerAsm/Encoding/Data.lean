import PropellerAsm.Bytes
import PropellerAsm.Encoding.Cursor

/-!
# Operands of directives

Data lists, the optional argument of the directives that move the program counter, and the right
side of an assignment.
-/
namespace PropellerAsm.Directive

/-- The content of an operand that is one string literal from start to end. -/
def stringItem? (text : String) : Option (List UInt8) :=
  match Utf8.encode text with
  | [] => none
  | b :: more =>
    if b = Quoted.quote ∧ more ≠ [] then
      let (content, rest) := Quoted.read (b :: more)
      if rest = [] then some content else none
    else none

/-- The bytes of one item: a string gives an item for each of its bytes. -/
def item (ctx : Context) (size : Nat) (text : String) : Encoder (List UInt8) :=
  match stringItem? text with
  | some content => return content.flatMap fun b => Bytes.littleEndian size b.toNat
  | none => do
    let operand ← Encoder.evaluate ctx text
    return Bytes.littleEndian size operand.value.toNat

/-- The bytes of the items up to one without a comma behind it, at most `bound` of them. -/
def items (ctx : Context) (size : Nat) : Nat → Encoder (List UInt8)
  | 0 => return []
  | bound + 1 => do
    let text ← Encoder.operand .data
    let bytes ← item ctx size text.text
    if text.comma then return bytes ++ (← items ctx size bound) else return bytes

/-- A data list of items of `size` bytes. -/
def data (ctx : Context) (size : Nat) (words : List Word) : Evaluator (List UInt8) := do
  let list : Encoder (List UInt8) := do
    let bytes ← items ctx size (words.length + 1)
    Encoder.finish
    return bytes
  return (← list.run words {}).1

/-- The only argument of a directive, if there is one. -/
def argument? (ctx : Context) (words : List Word) : Evaluator (Option Quad) := do
  let single : Encoder (Option Quad) := do
    match ← Encoder.operand? with
    | some text =>
      let operand ← Encoder.evaluate ctx text.text
      Encoder.finish
      return some operand.value
    | none =>
      Encoder.finish
      return none
  return (← single.run words {}).1

/-- The right side of an assignment. -/
def assigned (ctx : Context) (words : List Word) : Evaluator Quad := do
  let single : Encoder Quad := do
    let (operand, _) ← Encoder.value ctx .expression
    Encoder.finish
    return operand.value
  return (← single.run words {}).1

end PropellerAsm.Directive
