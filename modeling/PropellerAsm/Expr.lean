import PropellerAsm.Fault
import PropellerAsm.Keyword
import PropellerAsm.Symbol.Table

/-!
# Expressions

The tree of an operand expression and its evaluation.  Reading a text always gives a tree: where
the text is malformed the tree holds the fault instead.  Evaluation goes from left to right and
stops at the first fault, so a division by zero is reported before a malformed text to its right,
and the names used up to that point are recorded.
-/
namespace PropellerAsm

/-! ## Operators -/

/-- An operator before an operand. -/
inductive UnaryOp where
  | negate
  | complement
deriving DecidableEq, Repr

/-- The value of an operator before an operand. -/
def UnaryOp.apply : UnaryOp → Quad → Quad
  | negate, x => -x
  | complement, x => ~~~x

/-- An operator between two operands. -/
inductive BinaryOp where
  /-- The bits of the left side that the right side does not have. -/
  | without
  | and
  | or
  | xor
  | shiftLeft
  | shiftRight
  | add
  | sub
  | mul
  | div
  | rem
deriving DecidableEq, Repr

/-- The value of an operator between operands: arithmetic wraps, a shift by 64 or more gives
zero, and division by zero is a fault. -/
def BinaryOp.apply : BinaryOp → Quad → Quad → Except Fault Quad
  | without, x, y => .ok (x &&& ~~~y)
  | and, x, y => .ok (x &&& y)
  | or, x, y => .ok (x ||| y)
  | xor, x, y => .ok (x ^^^ y)
  | shiftLeft, x, y => .ok (if y.toNat < 64 then x <<< y.toNat else 0)
  | shiftRight, x, y => .ok (if y.toNat < 64 then x >>> y.toNat else 0)
  | add, x, y => .ok (x + y)
  | sub, x, y => .ok (x - y)
  | mul, x, y => .ok (x * y)
  | div, x, y => if y = 0 then .error .divisionByZero else .ok (x / y)
  | rem, x, y => if y = 0 then .error .divisionByZero else .ok (x % y)

/-! ## Trees -/

/-- An operand expression. -/
inductive Expr where
  | literal (value : Quad)
  /-- The program counter of the line. -/
  | here
  | name (text : String)
  | unary (op : UnaryOp) (e : Expr)
  | binary (op : BinaryOp) (l r : Expr)
  /-- Malformed text. -/
  | fault (f : Fault)
  /-- An expression with malformed text after it. -/
  | followed (e : Expr) (f : Fault)
deriving DecidableEq, Repr

/-! ## Evaluation -/

/-- Where an expression stands. -/
structure Context where
  /-- The last global label, to which local names belong. -/
  scope : String := ""
  line : Nat := 1
  pc : Long := 0
deriving DecidableEq, Repr

/-- Evaluation records uses in the symbol table, also those before a fault. -/
abbrev Evaluator := EStateM Fault SymbolTable

/-- The value of a name.  Registers and flag parameters have their codes, any other keyword is
refused; a symbol is recorded as used on the line, and reads as zero while it is undefined. -/
def Context.resolve (ctx : Context) (name : String) : Evaluator Quad :=
  match Keyword.find? name with
  | some (.register r) => pure (r.address.setWidth 64)
  | some (.modcz code) => pure (code.setWidth 64)
  | some _ => throw (.reservedWord name)
  | none => do
    let full := Symbol.qualify ctx.scope name
    modify fun table => table.addReference ctx.line full
    return ((← get).lookup full).value.toQuad

/-- The value of an expression. -/
def Expr.eval (ctx : Context) : Expr → Evaluator Quad
  | literal value => pure value
  | here => pure (ctx.pc.setWidth 64)
  | name text => ctx.resolve text
  | unary op e => do
    let x ← e.eval ctx
    return op.apply x
  | binary op l r => do
    let x ← l.eval ctx
    let y ← r.eval ctx
    match op.apply x y with
    | .ok z => return z
    | .error f => throw f
  | fault f => throw f
  | followed e f => do
    let _ ← e.eval ctx
    throw f

end PropellerAsm
