import PropellerAsm.Literal.Digits

/-!
# Quoted strings

A string literal stands between double quotes; a backslash takes the next byte as it is.  A string
that is not closed runs to the end of the text.  As a number a string is its bytes in base 256,
the first byte most significant, modulo `2 ^ 64`.
-/
namespace PropellerAsm.Quoted

/-- The double quote. -/
def quote : UInt8 := 0x22

/-- The backslash, which takes the byte after it literally. -/
def escape : UInt8 := 0x5c

/-- Reads the content of a string from behind the opening quote: the bytes meant, and the text
behind the closing quote.  A backslash at the very end means nothing. -/
def body : List UInt8 → List UInt8 × List UInt8
  | [] => ([], [])
  | [b] => if b = quote ∨ b = escape then ([], []) else ([b], [])
  | b :: c :: text =>
    if b = quote then ([], c :: text)
    else if b = escape then
      let (content, rest) := body text
      (c :: content, rest)
    else
      let (content, rest) := body (c :: text)
      (b :: content, rest)

/-- Reads a string: its content, and the text after it.  The opening quote may be missing. -/
def read (text : List UInt8) : List UInt8 × List UInt8 :=
  match text with
  | [] => ([], [])
  | b :: more => if b = quote then body more else body text

/-- Reads the string at an offset: its content, and the offset after it. -/
def readAt (text : List UInt8) (offset : Nat) : List UInt8 × Nat :=
  let tail := text.drop offset
  let (content, rest) := read tail
  (content, offset + (tail.length - rest.length))

/-- The number that a byte string stands for. -/
def value (bytes : List UInt8) : Quad :=
  bytes.foldl (fun acc b => acc <<< 8 ||| BitVec.ofNat 64 b.toNat) 0

end PropellerAsm.Quoted
