import PropellerAsm.Machine

/-!
# Digit runs

A number is written as a run of digits in one of five bases.  An underscore may stand anywhere in
a run and counts for nothing.  The run ends at the first byte that is in a given stop set or is
neither an underscore nor a digit of the base; its value wraps at `2 ^ 64`.

Readers work on the UTF-8 bytes of a text.  A byte of the stop set is compared as the character of
the same code; bytes from `0x80` on are no digits, so a run never ends inside a character.
-/
namespace PropellerAsm

/-- The bases in which numbers are written. -/
inductive Radix where
  | binary
  | quaternary
  | octal
  | decimal
  | hexadecimal
deriving DecidableEq, Repr

namespace Radix

/-- The base as a number. -/
def base : Radix → Nat
  | binary => 2
  | quaternary => 4
  | octal => 8
  | decimal => 10
  | hexadecimal => 16

/-- The value of a digit or letter, in either case. -/
def digitValue? (b : UInt8) : Option Nat :=
  let n := b.toNat
  if 0x30 ≤ n ∧ n ≤ 0x39 then some (n - 0x30)
  else if 0x41 ≤ n ∧ n ≤ 0x5a then some (n - 0x41 + 10)
  else if 0x61 ≤ n ∧ n ≤ 0x7a then some (n - 0x61 + 10)
  else none

/-- The value of a byte as a digit of the base. -/
def digit? (r : Radix) (b : UInt8) : Option Nat :=
  (digitValue? b).filter (· < r.base)

end Radix

namespace Digits

/-- The separator that may stand between digits. -/
def underscore : UInt8 := 0x5f

/-- The byte `b` belongs to a run in base `r` that the characters of `stop` end. -/
def continues (r : Radix) (stop : List Char) (b : UInt8) : Bool :=
  !stop.contains (Char.ofNat b.toNat) && (b == underscore || (r.digit? b).isSome)

/-- The run that a text starts with. -/
def run (r : Radix) (stop : List Char) (text : List UInt8) : List UInt8 :=
  text.takeWhile (continues r stop)

/-- What follows the run that a text starts with. -/
def rest (r : Radix) (stop : List Char) (text : List UInt8) : List UInt8 :=
  text.dropWhile (continues r stop)

/-- The value of a run: its digits, first the most significant one, modulo `2 ^ 64`. -/
def value (r : Radix) (run : List UInt8) : Quad :=
  (run.filterMap r.digit?).foldl (fun acc d => acc * BitVec.ofNat 64 r.base + BitVec.ofNat 64 d) 0

/-- Reads a run: its value, and the text after it.  An empty run has the value zero. -/
def read (r : Radix) (stop : List Char) (text : List UInt8) : Quad × List UInt8 :=
  (value r (run r stop text), rest r stop text)

/-- Reads the run at an offset: its value, and the offset after it.  An offset past the end of the
text stays where it is. -/
def readAt (r : Radix) (stop : List Char) (text : List UInt8) (offset : Nat) : Quad × Nat :=
  let found := run r stop (text.drop offset)
  (value r found, offset + found.length)

/-- A run and the rest are the whole text. -/
theorem run_append_rest (r : Radix) (stop : List Char) (text : List UInt8) :
    run r stop text ++ rest r stop text = text :=
  List.takeWhile_append_dropWhile

end Digits

end PropellerAsm
