/-!
# Little-endian bytes

Numbers are stored with the least significant byte first.  `littleEndian` cuts a number into a
given number of bytes, `ofLittleEndian` puts bytes together again.
-/
namespace PropellerAsm.Bytes

/-- The lowest `size` bytes of a number, the least significant one first. -/
def littleEndian : Nat → Nat → List UInt8
  | 0, _ => []
  | size + 1, n => UInt8.ofNat n :: littleEndian size (n / 256)

/-- The number that bytes stand for, the first one least significant. -/
def ofLittleEndian : List UInt8 → Nat
  | [] => 0
  | b :: bytes => b.toNat + 256 * ofLittleEndian bytes

@[simp] theorem length_littleEndian (size n : Nat) : (littleEndian size n).length = size := by
  induction size generalizing n with
  | zero => rfl
  | succ size ih => simp [littleEndian, ih]

end PropellerAsm.Bytes
