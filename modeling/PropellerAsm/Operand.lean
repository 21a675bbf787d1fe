import PropellerAsm.Expr.Parser

/-!
# Operands

An operand is an expression, possibly marked as an immediate: `#` before it, `##` for one that is
always augmented, and a backslash after these for an absolute address.
-/
namespace PropellerAsm

/-- How an operand is marked. -/
structure Sigil where
  /-- Written with `#`. -/
  immediate : Bool := false
  /-- Written with `#\` or `##\`. -/
  absolute : Bool := false
  /-- Written with `##`. -/
  augmented : Bool := false
deriving DecidableEq, Repr

/-- An evaluated operand. -/
structure Operand extends Sigil where
  value : Quad
deriving DecidableEq, Repr

namespace Sigil

/-- Reads the part of a sigil behind `#` or `##`. -/
def absolute? (augmented : Bool) (text : List UInt8) : Sigil × List UInt8 :=
  match text with
  | b :: rest =>
    if b = '\\'.toUInt8 then ({ immediate := true, absolute := true, augmented }, rest)
    else ({ immediate := true, augmented }, text)
  | [] => ({ immediate := true, augmented }, text)

/-- Reads the sigil that a text starts with, and returns the text after it. -/
def read (text : List UInt8) : Sigil × List UInt8 :=
  match text with
  | b :: rest =>
    if b = '#'.toUInt8 then
      match rest with
      | c :: more => if c = '#'.toUInt8 then absolute? true more else absolute? false rest
      | [] => absolute? false rest
    else ({}, text)
  | [] => ({}, text)

end Sigil

namespace Operand

/-- The sigil and the expression of an operand text. -/
def parse (text : String) : Sigil × Expr :=
  let (sigil, rest) := Sigil.read (Expr.skipBlanks (Utf8.encode text))
  match Expr.skipBlanks rest with
  | [] => (sigil, .fault (.missing .expression))
  | b :: more => (sigil, Expr.parse (b :: more))

/-- The value of an operand text. -/
def evaluate (ctx : Context) (text : String) : Evaluator Operand := do
  let (sigil, e) := parse text
  let value ← e.eval ctx
  return { sigil with value }

end Operand

end PropellerAsm
