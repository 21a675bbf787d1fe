import Std.Data.TreeMap
import PropellerAsm.Address
import PropellerAsm.Bytes

/-!
# The memory image

One MiB of bytes, all zero at the start.  A write that does not fit below the end is refused as a
whole; a read that reaches past the end gives zero.  Only bytes that have been written are kept.
-/
namespace PropellerAsm

/-- The bytes that have been written, by address. -/
structure Image where
  bytes : Std.TreeMap Nat UInt8 := {}

namespace Image

/-- The image without writes. -/
def empty : Image := {}

/-- The number of bytes of the image. -/
def size : Nat := Address.memorySize

/-- Puts bytes at an address and the addresses after it. -/
def store (bytes : Std.TreeMap Nat UInt8) (addr : Nat) : List UInt8 → Std.TreeMap Nat UInt8
  | [] => bytes
  | b :: data => store (bytes.insert addr b) (addr + 1) data

/-- Writes bytes from an address on, if they all fit. -/
def write? (image : Image) (addr : Nat) (data : List UInt8) : Option Image :=
  if addr + data.length ≤ size then some ⟨store image.bytes addr data⟩ else none

/-- Writes a long, if it fits. -/
def writeLong? (image : Image) (addr : Nat) (long : Long) : Option Image :=
  image.write? addr (Bytes.littleEndian 4 long.toNat)

/-- The byte at an address. -/
def read (image : Image) (addr : Nat) : UInt8 :=
  image.bytes.getD addr 0

/-- The bytes from one address on. -/
def slice (image : Image) (addr count : Nat) : List UInt8 :=
  (List.range' addr count).map image.read

/-- The number that the bytes from an address on stand for; zero if they are not all inside. -/
def readNat (image : Image) (addr count : Nat) : Nat :=
  if addr + count ≤ size then Bytes.ofLittleEndian (image.slice addr count) else 0

/-- The two bytes at an address. -/
def readWord (image : Image) (addr : Nat) : BitVec 16 :=
  BitVec.ofNat 16 (image.readNat addr 2)

/-- The four bytes at an address. -/
def readLong (image : Image) (addr : Nat) : Long :=
  BitVec.ofNat 32 (image.readNat addr 4)

/-- The longs at multiples of four that are not zero, in the order of their addresses. -/
def nonzeroLongs (image : Image) : List (Nat × Long) :=
  let written := image.bytes.keys.map (· / 4 * 4)
  let places := written.eraseReps
  (places.map fun addr => (addr, image.readLong addr)).filter (·.2 != 0)

end Image

end PropellerAsm
