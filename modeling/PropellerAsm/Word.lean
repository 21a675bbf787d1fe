import PropellerAsm.Keyword

/-!
# Words

A word is a piece of a source line with its place in the line.  It is a comment, a keyword, or
plain: a name, a number or a piece of an expression.
-/
namespace PropellerAsm

/-- What a word is. -/
inductive Token where
  | plain
  | comment
  | keyword (k : Keyword)
deriving DecidableEq, Repr

namespace Token

/-- A word outside comments is a keyword or plain. -/
def ofText (text : String) : Token :=
  match Keyword.find? text with
  | some k => keyword k
  | none => plain

/-- The keyword that a word is. -/
def keyword? : Token → Option Keyword
  | keyword k => some k
  | _ => none

/-- The word is a flag update. -/
def isFlag : Token → Bool
  | keyword (.flag _) => true
  | _ => false

end Token

/-- A piece of a source line. -/
structure Word where
  text : String
  token : Token
  /-- How many characters of the line stand before the word. -/
  column : Nat
  /-- A comma stands between this word and the next, or the end of the line. -/
  comma : Bool
deriving DecidableEq, Repr

/-- The word `text` at a column, classified. -/
def Word.ofText (text : String) (column : Nat) (comma : Bool) : Word :=
  { text, token := .ofText text, column, comma }

/-- A comment at a column. -/
def Word.comment (text : String) (column : Nat) : Word :=
  { text, token := .comment, column, comma := false }

/-- The words of a line without its comment. -/
def Word.code (words : List Word) : List Word :=
  words.filter (·.token != .comment)

end PropellerAsm
