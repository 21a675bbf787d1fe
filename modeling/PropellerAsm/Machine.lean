/-!
# Machine numbers

The machine stores longs of 32 bits.  Operands are computed with 64 bits and cut to the width of
the field that takes them.
-/
namespace PropellerAsm

/-- A 32-bit machine word. -/
abbrev Long := BitVec 32

/-- A 64-bit value, the width of all arithmetic on operands. -/
abbrev Quad := BitVec 64

end PropellerAsm
