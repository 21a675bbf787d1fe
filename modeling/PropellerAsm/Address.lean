import PropellerAsm.Machine

/-!
# Addresses

A program counter below `$400` counts longs of register memory, from `$400` on it counts bytes of
hub memory.  In the image the long at register address `n` lies at byte `4 * n`, the byte at hub
address `n` at byte `n`.
-/
namespace PropellerAsm.Address

/-- The first hub address. -/
def hubStart : Nat := 0x400

/-- The number of bytes of hub memory, and of the image. -/
def memorySize : Nat := 0x100000

/-- The program counter is a hub address. -/
def isHub (pc : Long) : Bool :=
  hubStart ≤ pc.toNat

/-- The program counter after some bytes, which are counted in 32 bits; in register memory they fill
whole longs. -/
def step (pc : Long) (bytes : Nat) : Long :=
  if isHub pc then pc + BitVec.ofNat 32 bytes else pc + (BitVec.ofNat 32 bytes + 3) / 4

/-- The place of a program counter in the image. -/
def toByte (pc : Long) : Nat :=
  if isHub pc then pc.toNat else pc.toNat * 4

end PropellerAsm.Address
