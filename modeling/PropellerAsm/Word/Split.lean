import PropellerAsm.Text.Blank
import PropellerAsm.Word

/-!
# Splitting lines into words

Words are separated by blanks and commas.  A double quote protects everything up to the next one,
and a backslash protects the character after it, inside quotes and outside.  An apostrophe that is
not protected starts a comment, which is the last word of its line.

The scan runs from the right: at each place it knows which characters still belong to the word in
progress, whether a comma follows that word, and the words after it.

A line whose first character is an opening brace is a block comment, up to the first line that
holds a closing brace.
-/
namespace PropellerAsm

namespace Word

/-- The character separates words. -/
def isSeparator (c : Char) : Bool :=
  c == ',' || Text.isBlank c

/-- What a scan finds from some place to the end of the line. -/
structure Tail where
  /-- The characters that belong to the word in progress. -/
  head : List Char := []
  /-- A comma stands between that word and the next. -/
  comma : Bool := false
  /-- The words after it. -/
  words : List Word := []

/-- The words from a place on, with the word in progress starting at it. -/
def Tail.close (t : Tail) (column : Nat) : List Word :=
  if t.head.isEmpty then t.words
  else Word.ofText (String.ofList t.head) column t.comma :: t.words

/-- Puts characters before the word in progress. -/
def Tail.push (t : Tail) (cs : List Char) : Tail :=
  { t with head := cs ++ t.head }

/-- Scans a line from a column to its end, inside quotes or outside. -/
def scan (column : Nat) (quoted : Bool) : List Char → Tail
  | [] => {}
  | '\\' :: c :: rest => (scan (column + 2) quoted rest).push ['\\', c]
  | c :: rest =>
    if c == '"' then (scan (column + 1) (!quoted) rest).push [c]
    else if quoted then (scan (column + 1) true rest).push [c]
    else if c == '\'' then
      { words := [Word.comment (String.ofList (c :: rest)) column] }
    else if isSeparator c then
      let t := scan (column + 1) false rest
      { comma := c == ',' || (t.head.isEmpty && t.comma), words := t.close (column + 1) }
    else (scan (column + 1) false rest).push [c]

/-- The words of a line. -/
def split (line : String) : List Word :=
  (scan 0 false line.toList).close 0

end Word

/-! ## Block comments -/

/-- Whether the lines so far leave a block comment open. -/
inductive Block where
  | closed
  | opened
deriving DecidableEq, Repr

namespace Block

/-- The words of a line, or none if it belongs to a block comment, and the state after it.  The
line that closes a block belongs to it as a whole. -/
def split (b : Block) (line : String) : Option (List Word) × Block :=
  match b with
  | opened => (none, if line.toList.contains '}' then closed else opened)
  | closed =>
    if (Text.trimLeft line.toList).head? = some '{' then
      (none, if line.toList.contains '}' then closed else opened)
    else (some (Word.split line), closed)

end Block

end PropellerAsm
