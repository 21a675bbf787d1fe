import PropellerAsm.Text.Layout

/-!
# Shortest decimals

A real value is shown by the fewest decimal digits that read back as the same binary64 number, and
of those the nearest; a half goes up.  The search is exact: a positive number `m * 2 ^ q` and the
interval of reals that round to it are put over one denominator, and for one digit, two digits and
so on the two neighbours of the value on that decimal grid are tested against the interval.
-/
namespace PropellerAsm

/-- The decimal `digits * 10 ^ exponent`. -/
structure Decimal where
  digits : Nat
  exponent : Int
deriving DecidableEq, Repr

namespace Decimal

/-- A power of ten. -/
def power10 (n : Nat) : Nat := Nat.pow 10 n

/-! ## Binary numbers -/

/-- The bit of a significand that is not stored. -/
def hiddenBit : Nat := 0x10000000000000

/-- The parts of a binary64 number. -/
inductive Binary where
  | nan
  | infinite (negative : Bool)
  /-- The number `m * 2 ^ q`, or its negative. -/
  | finite (negative : Bool) (m : Nat) (q : Int)
deriving DecidableEq, Repr

/-- Reads sign, significand and exponent from the 64 bits of a number. -/
def Binary.ofBits (bits : Nat) : Binary :=
  let negative := (bits >>> 63) % 2 == 1
  let field : Nat := (bits >>> 52) % 2048
  let fraction : Nat := bits % hiddenBit
  if field == 2047 then
    if fraction == 0 then .infinite negative else .nan
  else if field == 0 then .finite negative fraction (-1074)
  else .finite negative (hiddenBit + fraction) ((field : Int) - 1075)

/-! ## The interval that rounds to a number -/

/-- A positive number and the ends of the interval that rounds to it, over one denominator. -/
structure Interval where
  low : Nat
  value : Nat
  high : Nat
  denominator : Nat
  /-- The ends belong to the interval. -/
  closed : Bool
deriving Repr

/-- The interval of `m * 2 ^ q`: half a unit of the last place to either side, a quarter below a
power of two, where the numbers below are twice as dense.  Ends round to the even neighbour. -/
def Interval.ofBinary (m : Nat) (q : Int) : Interval :=
  let scale := 1 <<< (q - 2).toNat
  let below := if m == hiddenBit && q > -1074 then 1 else 2
  { low := (4 * m - below) * scale
    value := 4 * m * scale
    high := (4 * m + 2) * scale
    denominator := 1 <<< (2 - q).toNat
    closed := m % 2 == 0 }

/-- The decimal `c * 10 ^ k` lies in the interval. -/
def Interval.admits (i : Interval) (c : Nat) (k : Int) : Bool :=
  let point := c * power10 k.toNat * i.denominator
  let unit := power10 (-k).toNat
  if i.closed then i.low * unit ≤ point && point ≤ i.high * unit
  else i.low * unit < point && point < i.high * unit

/-! ## The search -/

/-- The power of ten of the leading digit of a positive fraction. -/
def leadingPower (numerator denominator : Nat) : Int :=
  if denominator ≤ numerator then (Nat.toDigits 10 (numerator / denominator)).length - 1
  else
    match (List.range 400).find? fun j => denominator ≤ numerator * power10 j with
    | some j => -j
    | none => 0

/-- The nearest decimal of the interval on the grid of step `10 ^ k`, if it holds one. -/
def Interval.onGrid? (i : Interval) (k : Int) : Option Decimal :=
  let numerator := i.value * power10 (-k).toNat
  let denominator := i.denominator * power10 k.toNat
  let below := numerator / denominator
  let admitsBelow := 0 < below && i.admits below k
  let admitsAbove := i.admits (below + 1) k
  if admitsBelow && admitsAbove then
    if 2 * (numerator % denominator) < denominator then some ⟨below, k⟩ else some ⟨below + 1, k⟩
  else if admitsBelow then some ⟨below, k⟩
  else if admitsAbove then some ⟨below + 1, k⟩
  else none

/-- The shortest decimal that reads back as the positive number `m * 2 ^ q`; seventeen digits
always suffice. -/
def shortest (m : Nat) (q : Int) : Decimal :=
  let i := Interval.ofBinary m q
  let top := leadingPower i.value i.denominator
  ((List.range 17).findSome? fun (n : Nat) => i.onGrid? (top - n)).getD ⟨0, 0⟩

/-! ## Text -/

/-- Moves the zeros at the end of the digits into the exponent, at most `fuel` of them. -/
def strip : Nat → Decimal → Decimal
  | 0, d => d
  | fuel + 1, d =>
    if d.digits != 0 && d.digits % 10 == 0 then strip fuel ⟨d.digits / 10, d.exponent + 1⟩ else d

/-- Positional notation: no exponent, and no point in a whole number. -/
def positional (d : Decimal) : String :=
  let d := d.strip 20
  if 0 ≤ d.exponent then
    Text.decimal d.digits ++ String.ofList (List.replicate d.exponent.toNat '0')
  else
    let places := (-d.exponent).toNat
    let all := (Text.digits 10 (places + 1) d.digits).toList
    let whole := all.take (all.length - places)
    let fraction := all.drop (all.length - places)
    String.ofList whole ++ "." ++ String.ofList fraction

/-- The text of a binary64 number: `NaN`, `inf`, `-inf`, or its shortest decimal in positional
notation; zero keeps its sign. -/
def Binary.text : Binary → String
  | .nan => "NaN"
  | .infinite negative => if negative then "-inf" else "inf"
  | .finite negative m q =>
    let magnitude := if m == 0 then "0" else (shortest m q).positional
    if negative then "-" ++ magnitude else magnitude

end Decimal

end PropellerAsm
