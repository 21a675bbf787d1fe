import PropellerAsm.Assembly

/-!
# Listings

The printed results of a pass: the listing with one row for each line, and the list of symbols.
-/
namespace PropellerAsm

namespace Line

/-- The start of a row: line number, program counter and code. -/
def row (line : Line) (pc : Long) (code : String) : String :=
  Text.padLeft ' ' 5 (Text.decimal line.number) ++ " " ++ Text.hex 5 pc.toNat ++ " " ++ code

/-- The rows of the augmentations, which have no source text, and the program counter after
them. -/
def augmentRows (line : Line) (pc : Long) : List Long → List String × Long
  | [] => ([], pc)
  | long :: longs =>
    let (rows, last) := line.augmentRows (Address.step pc 4) longs
    (line.row pc (Text.hex 8 long.toNat) :: rows, last)

/-- How many bytes of data a row shows. -/
def shownBytes : Nat := 4

/-- The code of a line: its instruction, or the first bytes of its data and a plus sign if there
are more. -/
def code (line : Line) : String :=
  match line.opcode? with
  | some word => Text.hex 8 word.toNat
  | none =>
    let shown := (line.data.take shownBytes).map fun b => Text.hex 2 b.toNat
    String.join shown ++ (if shownBytes < line.data.length then "+" else "")

/-- The rows of a line. -/
def rows (line : Line) : List String :=
  let (before, pc) := line.augmentRows line.pc line.augments
  before ++ [line.row pc (Text.padRight 9 line.code ++ " " ++ line.source)] ++
    (line.fault?.map fun f => "      *** " ++ f.message).toList

end Line

/-- The row of a symbol: name, kind, value and the lines that mention it. -/
def Symbol.row (s : Symbol) : String :=
  Text.padRight 24 s.name ++ " " ++ Text.padRight 7 s.value.kind ++ " " ++
    Text.padRight 12 s.value.display ++ " " ++ Text.bracketed (s.references.map Text.decimal)

namespace Assembly

/-- A text of rows, each ended by a line feed. -/
def ofRows (rows : List String) : String :=
  String.join (rows.map (· ++ "\n"))

/-- The listing of a pass. -/
def listing (a : Assembly) : String :=
  ofRows (a.lines.toList.flatMap Line.rows)

/-- The list of symbols. -/
def symbolList (a : Assembly) : String :=
  ofRows (a.symbols.toList.map Symbol.row)

end Assembly

end PropellerAsm
