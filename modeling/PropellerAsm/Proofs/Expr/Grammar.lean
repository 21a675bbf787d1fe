import Mathlib.Data.Nat.Digits.Defs
import PropellerAsm.Operand
import PropellerAsm.Proofs.Symbol.Table

/-!
# The grammar of operands

The language of operand texts, stated apart from the readers: which bytes spell a literal, a name,
an operator, and how expressions are put together from them.  Every relation is between a tree, a
text that starts with a spelling of the tree, and what the text leaves after that spelling.

```
bits     := sums (('!' | '&' | '|' | '^' | '<<' | '>>') sums)*
sums     := products (('+' | '-') products)*
products := operand (('*' | '/' | '\') operand)*
operand  := ('-' | '!' | '~')* (literal | name | '(' bits ')')
```

Blanks may stand before every operator, operand and closing parenthesis.  The repetitions group to
the left, so the rule for an operator takes a phrase of its own tier on the left and one of the
next tier on the right.

`Expr.meaning?` gives a tree its number, in unsigned arithmetic modulo `2 ^ 64`.
-/
namespace PropellerAsm

namespace Expr

/-! ## Blanks and digit runs -/

/-- Spaces and tabs only. -/
def Blanks (text : List UInt8) : Prop :=
  ∀ b ∈ text, b = ' '.toUInt8 ∨ b = '\t'.toUInt8

/-- Digits of a base and separators only. -/
def Run (r : Radix) (text : List UInt8) : Prop :=
  ∀ b ∈ text, b = '_'.toUInt8 ∨ (r.digit? b).isSome

/-- The text starts with a digit of the base. -/
def DigitLed (r : Radix) (text : List UInt8) : Prop :=
  ∃ b more, text = b :: more ∧ (r.digit? b).isSome

/-- The number that a run stands for: its digits without the separators, first the most
significant one. -/
def numeral (r : Radix) (run : List UInt8) : Nat :=
  Nat.ofDigits r.base (run.filterMap r.digit?).reverse

/-! ## Strings and names -/

/-- The text behind an opening quote spells a byte string: up to the closing quote, or up to the
end of a text without one.  A backslash takes the next byte as it is, and is dropped at the end. -/
inductive Quotation : List UInt8 → List UInt8 → List UInt8 → Prop where
  | closed {rest} : Quotation [] ('"'.toUInt8 :: rest) rest
  | unclosed : Quotation [] [] []
  | dangling : Quotation [] ['\\'.toUInt8] []
  | escaped {content text rest b} (more : Quotation content text rest) :
      Quotation (b :: content) ('\\'.toUInt8 :: b :: text) rest
  | byte {content text rest b} (notQuote : b ≠ '"'.toUInt8) (notEscape : b ≠ '\\'.toUInt8)
      (more : Quotation content text rest) : Quotation (b :: content) (b :: text) rest

/-- The number that a byte string stands for: its bytes as digits in base 256. -/
def stringNumeral (content : List UInt8) : Nat :=
  Nat.ofDigits 256 (content.map UInt8.toNat).reverse

/-- A letter, a digit, an underscore, a period or a colon. -/
def InName (b : UInt8) : Prop :=
  ('A'.toUInt8 ≤ b ∧ b ≤ 'Z'.toUInt8) ∨ ('a'.toUInt8 ≤ b ∧ b ≤ 'z'.toUInt8) ∨
    ('0'.toUInt8 ≤ b ∧ b ≤ '9'.toUInt8) ∨ b = '_'.toUInt8 ∨ b = '.'.toUInt8 ∨ b = ':'.toUInt8

/-! ## Leaves -/

/-- The spellings of literals, of the program counter and of names. -/
inductive Leaf : Expr → List UInt8 → List UInt8 → Prop where
  | here {rest} (alone : ¬ DigitLed .hexadecimal rest) : Leaf .here ('$'.toUInt8 :: rest) rest
  | hexadecimal {run rest} (digits : Run .hexadecimal run) (led : DigitLed .hexadecimal run) :
      Leaf (.literal (.ofNat 64 (numeral .hexadecimal run))) ('$'.toUInt8 :: (run ++ rest)) rest
  | binary {run rest} (digits : Run .binary run) :
      Leaf (.literal (.ofNat 64 (numeral .binary run))) ('%'.toUInt8 :: (run ++ rest)) rest
  | quaternary {run rest} (digits : Run .quaternary run) :
      Leaf (.literal (.ofNat 64 (numeral .quaternary run)))
        ('%'.toUInt8 :: '%'.toUInt8 :: (run ++ rest)) rest
  | octal {run rest} (digits : Run .octal run) (led : DigitLed .octal run) :
      Leaf (.literal (.ofNat 64 (numeral .octal run))) ('0'.toUInt8 :: (run ++ rest)) rest
  /-- A zero with a digit behind it is not decimal. -/
  | decimal {run rest} (digits : Run .decimal run) (led : DigitLed .decimal run)
      (notOctal : ∀ more, run = '0'.toUInt8 :: more → ¬ DigitLed .decimal more) :
      Leaf (.literal (.ofNat 64 (numeral .decimal run))) (run ++ rest) rest
  | string {content text rest} (spelled : Quotation content text rest) :
      Leaf (.literal (.ofNat 64 (stringNumeral content))) ('"'.toUInt8 :: text) rest
  /-- A name is as long as it can be, and does not start with a digit. -/
  | name {run rest} (nonempty : run ≠ []) (bytes : ∀ b ∈ run, InName b)
      (notDigit : ¬ DigitLed .decimal run) (longest : ∀ b ∈ rest.head?, ¬ InName b) :
      Leaf (.name (Utf8.ofAscii run)) (run ++ rest) rest

end Expr

/-! ## Operators -/

/-- The spelling of an operator between operands. -/
def BinaryOp.spelling : BinaryOp → List UInt8
  | without => ['!'.toUInt8]
  | and => ['&'.toUInt8]
  | or => ['|'.toUInt8]
  | xor => ['^'.toUInt8]
  | shiftLeft => ['<'.toUInt8, '<'.toUInt8]
  | shiftRight => ['>'.toUInt8, '>'.toUInt8]
  | add => ['+'.toUInt8]
  | sub => ['-'.toUInt8]
  | mul => ['*'.toUInt8]
  | div => ['/'.toUInt8]
  | rem => ['\\'.toUInt8]

/-- The tier of an operator. -/
def BinaryOp.tier : BinaryOp → Expr.Tier
  | without | and | or | xor | shiftLeft | shiftRight => .bits
  | add | sub => .sums
  | mul | div | rem => .products

/-- The spellings of an operator before an operand. -/
def UnaryOp.Spelled : UnaryOp → UInt8 → Prop
  | negate, b => b = '-'.toUInt8
  | complement, b => b = '!'.toUInt8 ∨ b = '~'.toUInt8

/-! ## Phrases -/

namespace Expr

/-- The parts of speech: the operands joined by a tier's operators, or a single operand. -/
inductive Phrase where
  | tier (t : Tier)
  | operand
deriving DecidableEq

/-- What the operators of a tier join. -/
def Tier.parts : Tier → Phrase
  | bits => .tier .sums
  | sums => .tier .products
  | products => .operand

/-- The spellings of the phrases. -/
inductive Derives : Phrase → Expr → List UInt8 → List UInt8 → Prop where
  | single {t e text rest} (part : Derives t.parts e text rest) : Derives (.tier t) e text rest
  | joined {op l r text blanks after rest} (spaced : Blanks blanks)
      (left : Derives (.tier op.tier) l text (blanks ++ op.spelling ++ after))
      (right : Derives op.tier.parts r after rest) :
      Derives (.tier op.tier) (.binary op l r) text rest
  | unary {op sign e blanks text rest} (spaced : Blanks blanks) (sign_spelled : op.Spelled sign)
      (inner : Derives .operand e text rest) :
      Derives .operand (.unary op e) (blanks ++ sign :: text) rest
  | group {e blanks text before rest} (spaced : Blanks blanks) (closed : Blanks before)
      (inner : Derives (.tier .bits) e text (before ++ ')'.toUInt8 :: rest)) :
      Derives .operand e (blanks ++ '('.toUInt8 :: text) rest
  | leaf {e blanks text rest} (spaced : Blanks blanks) (spelled : Leaf e text rest) :
      Derives .operand e (blanks ++ text) rest

end Expr

/-! ## Operands -/

/-- The spellings of the marks before an expression. -/
inductive Sigil.Spelled : Sigil → List UInt8 → Prop where
  | plain : Spelled {} []
  | immediate : Spelled { immediate := true } ['#'.toUInt8]
  | augmented : Spelled { immediate := true, augmented := true } ['#'.toUInt8, '#'.toUInt8]
  | absolute : Spelled { immediate := true, absolute := true } ['#'.toUInt8, '\\'.toUInt8]
  | augmentedAbsolute : Spelled { immediate := true, absolute := true, augmented := true }
      ['#'.toUInt8, '#'.toUInt8, '\\'.toUInt8]

/-- A whole text spells a mark and an expression. -/
inductive Operand.Spelled : Sigil → Expr → List UInt8 → Prop where
  | mk {sigil mark e blanks body after} (leading : Expr.Blanks blanks)
      (marked : sigil.Spelled mark) (expression : Expr.Derives (.tier .bits) e body after)
      (trailing : Expr.Blanks after) : Spelled sigil e (blanks ++ mark ++ body)

/-! ## Meaning -/

/-- The numbers below which all arithmetic stays. -/
def modulus : Nat := 2 ^ 64

/-- The number of an operator before an operand. -/
def UnaryOp.meaning : UnaryOp → Nat → Nat
  | negate, x => (modulus - x) % modulus
  | complement, x => modulus - 1 - x

/-- The number of an operator between operands; there is none for a division by zero. -/
def BinaryOp.meaning? : BinaryOp → Nat → Nat → Option Nat
  | without, x, y => some (x &&& (modulus - 1 - y))
  | and, x, y => some (x &&& y)
  | or, x, y => some (x ||| y)
  | xor, x, y => some (x ^^^ y)
  | shiftLeft, x, y => some (x * 2 ^ y % modulus)
  | shiftRight, x, y => some (x / 2 ^ y)
  | add, x, y => some ((x + y) % modulus)
  | sub, x, y => some ((x + (modulus - y)) % modulus)
  | mul, x, y => some (x * y % modulus)
  | div, x, y => if y = 0 then none else some (x / y)
  | rem, x, y => if y = 0 then none else some (x % y)

/-- The number of a name: the code of a register or of a flag parameter, none for any other
keyword, and else the value of the symbol, zero if it has none. -/
def Context.meaning? (ctx : Context) (table : SymbolTable) (name : String) : Option Nat :=
  match Keyword.find? name with
  | some (.register r) => some r.address.toNat
  | some (.modcz code) => some code.toNat
  | some _ => none
  | none => some (table.lookup (Symbol.qualify ctx.scope name)).value.toQuad.toNat

/-- The number of a tree. -/
def Expr.meaning? (ctx : Context) (table : SymbolTable) : Expr → Option Nat
  | literal value => some value.toNat
  | here => some ctx.pc.toNat
  | name text => ctx.meaning? table text
  | unary op e => (e.meaning? ctx table).map op.meaning
  | binary op l r =>
    (l.meaning? ctx table).bind fun x => (r.meaning? ctx table).bind fun y => op.meaning? x y
  | fault _ => none
  | followed _ _ => none

/-- The symbols that a tree uses, from left to right. -/
def Expr.symbols (scope : String) : Expr → List String
  | name text => if Keyword.find? text = none then [Symbol.qualify scope text] else []
  | unary _ e => e.symbols scope
  | binary _ l r => l.symbols scope ++ r.symbols scope
  | followed e _ => e.symbols scope
  | _ => []

end PropellerAsm
