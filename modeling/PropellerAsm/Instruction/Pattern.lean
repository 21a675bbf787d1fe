import PropellerAsm.Opcode
import PropellerAsm.Text.Blank

/-!
# Bit patterns

The instruction table gives each instruction as a pattern, one mark for a bit from bit 27 down:
`0` and `1` are fixed bits, a letter is part of a field that an operand fills in.  Blanks group
the marks and mean nothing.  A pattern may stop early; the bits below are fields.
-/
namespace PropellerAsm.Pattern

/-- The bits below the condition, which a pattern can describe. -/
def capacity : Nat := 28

/-- The marks of a pattern: its characters without the blanks. -/
def marks (pattern : String) : List Char :=
  pattern.toList.filter fun c => !Text.isBlank c

/-- The number whose bits, from bit `count - 1` down, are set where a mark satisfies `p`; none if a
mark is left when the bits are used up. -/
def bitsWhere? (p : Char → Bool) : Nat → List Char → Option Nat
  | _, [] => some 0
  | 0, _ :: _ => none
  | count + 1, c :: rest =>
    (bitsWhere? p count rest).map fun bits => (if p c then 1 <<< count else 0) ||| bits

/-- The fixed ones of a pattern; none if there are more marks than bits. -/
def bits? (pattern : String) : Option Long :=
  (bitsWhere? (· == '1') capacity (marks pattern)).map (BitVec.ofNat 32)

end PropellerAsm.Pattern
