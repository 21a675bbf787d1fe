import PropellerAsm.Text.Blank

/-!
# Layout of text

Cutting a source into lines, expanding tabs, and the columns of the listing and the symbol list.
All widths count characters.
-/
namespace PropellerAsm.Text

/-! ## Lines and tabs -/

/-- A line that has been read backwards, without the carriage return at its end. -/
def dropReturn : List Char → List Char
  | '\r' :: before => before
  | before => before

/-- The lines of a text, of whose first line `before` has been read backwards.  A line feed ends a
line, together with one carriage return before it; text after the last line feed is a line if there
is any. -/
def linesFrom (before : List Char) : List Char → List (List Char)
  | [] => if before.isEmpty then [] else [before.reverse]
  | '\n' :: rest => (dropReturn before).reverse :: linesFrom [] rest
  | c :: rest => linesFrom (c :: before) rest

/-- The lines of a source text. -/
def splitLines (source : String) : List String :=
  (linesFrom [] source.toList).map String.ofList

/-- Distance between tab stops. -/
def tabWidth : Nat := 8

/-- Replaces each tab by the spaces that lead to the next tab stop, from column `column` on. -/
def expandFrom (column : Nat) : List Char → List Char
  | [] => []
  | '\t' :: rest =>
    let pad := tabWidth - column % tabWidth
    List.replicate pad ' ' ++ expandFrom (column + pad) rest
  | c :: rest => c :: expandFrom (column + 1) rest

/-- A line with its tabs expanded. -/
def expandTabs (line : String) : String :=
  String.ofList (expandFrom 0 line.toList)

/-! ## Columns -/

/-- Pads on the left with `fill` to `width` characters; a longer text stays whole. -/
def padLeft (fill : Char) (width : Nat) (s : String) : String :=
  String.ofList (List.replicate (width - s.length) fill) ++ s

/-- Pads on the right with spaces to `width` characters; a longer text stays whole. -/
def padRight (width : Nat) (s : String) : String :=
  s ++ String.ofList (List.replicate (width - s.length) ' ')

/-! ## Numbers -/

/-- A number in base `base` (at most 16, small letters), zero-filled to `width` digits. -/
def digits (base width n : Nat) : String :=
  padLeft '0' width (String.ofList (Nat.toDigits base n))

/-- A number in hexadecimal, zero-filled to `width` digits. -/
def hex (width n : Nat) : String :=
  digits 16 width n

/-- A number in decimal. -/
def decimal (n : Nat) : String :=
  digits 10 0 n

/-- A list of numbers in brackets, separated by a comma and a space. -/
def bracketed (items : List String) : String :=
  "[" ++ ", ".intercalate items ++ "]"

end PropellerAsm.Text
