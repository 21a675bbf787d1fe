import Std.Data.TreeMap
import PropellerAsm.Symbol.Value

/-!
# The symbol table

The table keeps every symbol under its name, and beside it, for every source line, the names that
the line touched.  Names are case sensitive and ordered by code points.  A use of an unknown name
leaves an undefined symbol behind; a definition fills it in and moves the defining line to the
front of its references.
-/
namespace PropellerAsm

/-- A named value with the lines that mention it. -/
structure Symbol where
  name : String := ""
  value : Value := .undefined
  /-- The lines of all mentions: first the definition, if there is one, then the uses. -/
  references : List Nat := []

namespace Symbol

/-- The symbol has a value. -/
def isDefined (s : Symbol) : Bool := s.value.isDefined

/-- The line that defines the symbol. -/
def definition? (s : Symbol) : Option Nat :=
  if s.isDefined then s.references.head? else none

/-- A name that starts with a period is local. -/
def isLocal (name : String) : Bool :=
  name.toList.head? == some '.'

/-- The name under which a name written in the source is filed: a local one belongs to the scope,
the last global label. -/
def qualify (scope name : String) : String :=
  if isLocal name then scope ++ name else name

end Symbol

/-- All symbols by name, and the names touched by each line. -/
structure SymbolTable where
  symbols : Std.TreeMap String Symbol := {}
  byLine : Std.TreeMap Nat (List String) := {}

namespace SymbolTable

/-- The table without symbols. -/
def empty : SymbolTable := {}

/-- How many symbols there are. -/
def size (t : SymbolTable) : Nat := t.symbols.size

/-- The table holds a symbol of that name, defined or not. -/
def contains (t : SymbolTable) (name : String) : Bool := t.symbols.contains name

/-- The symbol of that name. -/
def get? (t : SymbolTable) (name : String) : Option Symbol := t.symbols[name]?

/-- The symbol of that name, or the nameless symbol if there is none. -/
def lookup (t : SymbolTable) (name : String) : Symbol := (t.get? name).getD {}

/-- All symbols in the order of their names. -/
def toList (t : SymbolTable) : List Symbol := t.symbols.values

/-- All names in order. -/
def names (t : SymbolTable) : List String := t.symbols.keys

/-- The symbols that have been used and not defined. -/
def undefined (t : SymbolTable) : List Symbol :=
  t.toList.filter fun s => !s.isDefined

/-- The symbols that a line mentions, in the order of their first mention on it. -/
def referencesIn (t : SymbolTable) (line : Nat) : List Symbol :=
  (t.byLine.getD line []).filterMap t.get?

/-- Adds a name to those that a line touches. -/
def index (t : SymbolTable) (line : Nat) (name : String) : SymbolTable :=
  let touched := t.byLine.getD line []
  if touched.contains name then t
  else { t with byLine := t.byLine.insert line (touched ++ [name]) }

/-- Files a symbol under a name. -/
def put (t : SymbolTable) (name : String) (s : Symbol) : SymbolTable :=
  { t with symbols := t.symbols.insert name s }

/-- Adds a symbol without mentions; refused if the name is taken. -/
def insert? (t : SymbolTable) (name : String) (value : Value) : Option SymbolTable :=
  if t.contains name then none else some (t.put name { name, value })

/-- Replaces the value of a symbol; refused if there is none of that name. -/
def setValue? (t : SymbolTable) (name : String) (value : Value) : Option SymbolTable :=
  (t.get? name).map fun s => t.put name { s with value }

/-- Records a use of a name on a line, with an undefined symbol if the name is new. -/
def addReference (t : SymbolTable) (line : Nat) (name : String) : SymbolTable :=
  let s := (t.get? name).getD { name }
  (t.put name { s with references := s.references ++ [line] }).index line name

/-- Binds a name on a line; refused if it has a value.  An undefined symbol takes the value, and
the line goes before the uses recorded so far. -/
def define? (t : SymbolTable) (name : String) (value : Value) (line : Nat) :
    Option SymbolTable :=
  let s := (t.get? name).getD { name }
  if s.isDefined then none
  else some ((t.put name { s with value, references := line :: s.references }).index line name)

end SymbolTable

end PropellerAsm
