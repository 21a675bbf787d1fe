/-!
# UTF-8

Texts are encoded to bytes for the literal and expression readers, and bytes are decoded to text
for messages.  The decoder is a machine that takes one byte at a time: between characters it waits
for a lead byte, inside one it knows the range that the next byte must lie in.  A byte that cannot
continue a character ends it as malformed and is read again as a lead byte, so one malformed mark
stands for each longest stretch that starts a character and does not finish it.
-/
namespace PropellerAsm.Utf8

/-! ## Encoding -/

/-- The UTF-8 bytes of a sequence of characters. -/
def encodeChars (cs : List Char) : List UInt8 :=
  cs.flatMap String.utf8EncodeChar

/-- The UTF-8 bytes of a text. -/
def encode (s : String) : List UInt8 :=
  encodeChars s.toList

theorem encodeChars_append (cs ds : List Char) :
    encodeChars (cs ++ ds) = encodeChars cs ++ encodeChars ds := by
  simp [encodeChars]

/-! ## Decoding -/

/-- A character that has been started: the range of the next byte, how many bytes follow that
one, and the bits read so far. -/
structure Pending where
  low : UInt8
  high : UInt8
  further : Nat
  bits : Nat
deriving DecidableEq, Repr

/-- What a byte does between characters: it is a character, starts one, or is malformed. -/
def lead (b : UInt8) : List (Option Char) × Option Pending :=
  let n := b.toNat
  if n < 0x80 then ([some (Char.ofNat n)], none)
  else if n < 0xc2 then ([none], none)
  else if n < 0xe0 then ([], some ⟨0x80, 0xbf, 0, n - 0xc0⟩)
  else if n < 0xf0 then
    let low := if n == 0xe0 then 0xa0 else 0x80
    let high := if n == 0xed then 0x9f else 0xbf
    ([], some ⟨low, high, 1, n - 0xe0⟩)
  else if n < 0xf5 then
    let low := if n == 0xf0 then 0x90 else 0x80
    let high := if n == 0xf4 then 0x8f else 0xbf
    ([], some ⟨low, high, 2, n - 0xf0⟩)
  else ([none], none)

/-- One byte: the characters it completes, `none` for a malformed stretch, and what is pending
after it. -/
def step : Option Pending → UInt8 → List (Option Char) × Option Pending
  | none, b => lead b
  | some p, b =>
    if p.low ≤ b ∧ b ≤ p.high then
      let bits := p.bits * 64 + (b.toNat - 0x80)
      match p.further with
      | 0 => ([some (Char.ofNat bits)], none)
      | further + 1 => ([], some ⟨0x80, 0xbf, further, bits⟩)
    else
      let (out, next) := lead b
      (none :: out, next)

/-- The characters of a byte sequence, `none` for each malformed stretch. -/
def scan : Option Pending → List UInt8 → List (Option Char)
  | none, [] => []
  | some _, [] => [none]
  | p, b :: bytes =>
    let (out, next) := step p b
    out ++ scan next bytes

/-- The text of a byte sequence if it is well formed. -/
def decode? (bytes : List UInt8) : Option String :=
  String.fromUTF8? ⟨bytes.toArray⟩

/-- The text of bytes below `0x80`, one character each. -/
def ofAscii (bytes : List UInt8) : String :=
  String.ofList (bytes.map fun b => Char.ofNat b.toNat)

/-- The text of a byte sequence, with U+FFFD for each malformed stretch. -/
def decodeLossy (bytes : List UInt8) : String :=
  String.ofList ((scan none bytes).map fun c => c.getD '\uFFFD')

end PropellerAsm.Utf8
