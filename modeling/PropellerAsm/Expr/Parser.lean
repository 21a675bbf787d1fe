import PropellerAsm.Expr
import PropellerAsm.Text.Utf8

/-!
# Reading expressions

The grammar has three tiers of operators, each grouping to the left, over operands with a chain of
unary operators:

```
bits     := sums (('!' | '&' | '|' | '^' | '<<' | '>>') sums)*
sums     := products (('+' | '-') products)*
products := operand (('*' | '/' | '\') operand)*
operand  := ('-' | '!' | '~')* (literal | name | '(' bits ')')
```

Spaces and tabs may stand before every operator, operand and closing parenthesis.  Readers take
the bytes of a text and return a tree with the bytes that follow; at a malformed place they return
the fault and nothing to follow.  They recurse on a bound for the number of bytes left.
-/
namespace PropellerAsm.Expr

/-! ## Classes of bytes -/

/-- A space or a tab. -/
def isBlank (b : UInt8) : Bool :=
  b == ' '.toUInt8 || b == '\t'.toUInt8

/-- A decimal digit. -/
def isDigit (b : UInt8) : Bool :=
  '0'.toUInt8 ≤ b && b ≤ '9'.toUInt8

/-- A letter, or one of the signs that names are made of. -/
def isNameStart (b : UInt8) : Bool :=
  ('A'.toUInt8 ≤ b && b ≤ 'Z'.toUInt8) || ('a'.toUInt8 ≤ b && b ≤ 'z'.toUInt8) ||
    b == '_'.toUInt8 || b == '.'.toUInt8 || b == ':'.toUInt8

/-- A byte inside a name. -/
def isNameByte (b : UInt8) : Bool :=
  isNameStart b || isDigit b

/-- The characters that end a number. -/
def numberStops : List Char :=
  [' ', '\t', ',', '+', '-', '*', '/', '\\', '&', '|', '^', '!', '~', '<', '>', '(', ')']

/-- A text without the blanks it starts with. -/
def skipBlanks (text : List UInt8) : List UInt8 :=
  text.dropWhile isBlank

/-- The fault of a text that cannot be read on. -/
def unexpected (text : List UInt8) : Fault :=
  .invalidExpression (Utf8.decodeLossy text)

/-! ## Literals and names -/

/-- Reads a number in a base. -/
def number (r : Radix) (text : List UInt8) : Expr × List UInt8 :=
  let (value, rest) := Digits.read r numberStops text
  (.literal value, rest)

/-- Reads an octal number from behind its leading zero; the digits 8 and 9 are faults. -/
def octal (text : List UInt8) : Expr × List UInt8 :=
  let (value, rest) := Digits.read .octal numberStops text
  match rest with
  | b :: _ =>
    if b = '8'.toUInt8 ∨ b = '9'.toUInt8 then
      (.fault (.invalidOctalDigit (Char.ofNat b.toNat)), [])
    else (.literal value, rest)
  | [] => (.literal value, rest)

/-- Reads a name. -/
def nameRun (text : List UInt8) : Expr × List UInt8 :=
  (.name (Utf8.ofAscii (text.takeWhile isNameByte)), text.dropWhile isNameByte)

/-- Reads a literal or a name from its first byte and what follows. -/
def leaf (b : UInt8) (rest : List UInt8) : Expr × List UInt8 :=
  if b = '$'.toUInt8 then
    -- A dollar sign alone is the program counter.
    match rest with
    | c :: _ =>
      if (Radix.hexadecimal.digit? c).isSome then number .hexadecimal rest else (.here, rest)
    | [] => (.here, rest)
  else if b = '%'.toUInt8 then
    match rest with
    | c :: more => if c = '%'.toUInt8 then number .quaternary more else number .binary rest
    | [] => number .binary rest
  else if b = Quoted.quote then
    let (content, after) := Quoted.read (b :: rest)
    (.literal (Quoted.value content), after)
  else if b = '0'.toUInt8 ∧ rest.head?.any isDigit then octal rest
  else if isDigit b then number .decimal (b :: rest)
  else if isNameStart b then nameRun (b :: rest)
  else (.fault (unexpected (b :: rest)), [])

/-! ## Operators -/

/-- The three levels of precedence. -/
inductive Tier where
  | bits
  | sums
  | products
deriving DecidableEq, Repr

/-- The operator of a tier that a text starts with, and the text after it. -/
def Tier.operator? : Tier → List UInt8 → Option (BinaryOp × List UInt8)
  | _, [] => none
  | bits, b :: rest =>
    if b = '!'.toUInt8 then some (.without, rest)
    else if b = '&'.toUInt8 then some (.and, rest)
    else if b = '|'.toUInt8 then some (.or, rest)
    else if b = '^'.toUInt8 then some (.xor, rest)
    else match rest with
      | c :: more =>
        if b = '<'.toUInt8 ∧ c = '<'.toUInt8 then some (.shiftLeft, more)
        else if b = '>'.toUInt8 ∧ c = '>'.toUInt8 then some (.shiftRight, more)
        else none
      | [] => none
  | sums, b :: rest =>
    if b = '+'.toUInt8 then some (.add, rest)
    else if b = '-'.toUInt8 then some (.sub, rest)
    else none
  | products, b :: rest =>
    if b = '*'.toUInt8 then some (.mul, rest)
    else if b = '/'.toUInt8 then some (.div, rest)
    else if b = '\\'.toUInt8 then some (.rem, rest)
    else none

/-- Reads the operators of a tier with their right sides, after a left side. -/
def chain (tier : Tier) (operand : List UInt8 → Expr × List UInt8) :
    Nat → Expr → List UInt8 → Expr × List UInt8
  | 0, l, text => (.followed l (unexpected text), [])
  | bound + 1, l, text =>
    match tier.operator? (skipBlanks text) with
    | none => (l, skipBlanks text)
    | some (op, more) =>
      let (r, rest) := operand more
      chain tier operand bound (.binary op l r) rest

/-- Reads operands joined by the operators of a tier. -/
def level (tier : Tier) (operand : List UInt8 → Expr × List UInt8) (bound : Nat)
    (text : List UInt8) : Expr × List UInt8 :=
  let (l, rest) := operand text
  chain tier operand bound l rest

/-- Reads a whole expression over given operands. -/
def tiers (operand : List UInt8 → Expr × List UInt8) (bound : Nat) :
    List UInt8 → Expr × List UInt8 :=
  level .bits (level .sums (level .products operand bound) bound) bound

/-- Reads the parenthesis that closes an expression. -/
def closing (e : Expr) (text : List UInt8) : Expr × List UInt8 :=
  match skipBlanks text with
  | b :: rest => if b = ')'.toUInt8 then (e, rest) else (.followed e (unexpected (b :: rest)), [])
  | [] => (.followed e (unexpected []), [])

/-- Reads an operand: unary operators before a literal, a name or a parenthesis.  The bound is
one more than the number of bytes that may be left. -/
def operand : Nat → List UInt8 → Expr × List UInt8
  | 0, text => (.fault (unexpected text), [])
  | bound + 1, text =>
    match skipBlanks text with
    | [] => (.fault (.missing .expression), [])
    | b :: rest =>
      if b = '-'.toUInt8 then
        let (e, after) := operand bound rest
        (.unary .negate e, after)
      else if b = '!'.toUInt8 ∨ b = '~'.toUInt8 then
        let (e, after) := operand bound rest
        (.unary .complement e, after)
      else if b = '('.toUInt8 then
        let (e, after) := tiers (operand bound) (bound + 1) rest
        closing e after
      else leaf b rest

/-- Reads an expression, and returns the text after it. -/
def read (text : List UInt8) : Expr × List UInt8 :=
  let bound := text.length + 1
  tiers (operand bound) bound text

/-- The tree of a text that is an expression to its end. -/
def parse (text : List UInt8) : Expr :=
  let (e, rest) := read text
  match skipBlanks rest with
  | [] => e
  | b :: more => .followed e (unexpected (b :: more))

end PropellerAsm.Expr
