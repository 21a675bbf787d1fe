import PropellerAsm.Assembly.Listing

/-!
# The command line

Reading the arguments, and what a run prints and writes.  A run with any fault exits with 1 and
writes no file; wrong arguments exit with 2.
-/
namespace PropellerAsm.CommandLine

/-! ## Arguments -/

/-- What the arguments have said so far. -/
structure Arguments where
  input : Option String := none
  output : Option String := none
  listing : Bool := false
  symbols : Bool := false
  verbosity : Nat := 0
deriving DecidableEq, Repr

/-- Why there is nothing to assemble. -/
inductive Halt where
  /-- The arguments are wrong. -/
  | wrong
  /-- The help text is asked for. -/
  | help
  /-- The version is asked for. -/
  | version
deriving DecidableEq, Repr

namespace Arguments

/-- Sets the source path: once, and not empty. -/
def setInput (a : Arguments) (path : String) : Except Halt Arguments :=
  if a.input.isSome || path.isEmpty then .error .wrong else .ok { a with input := path }

/-- Sets the output path: once, and not empty. -/
def setOutput (a : Arguments) (path : String) : Except Halt Arguments :=
  if a.output.isSome || path.isEmpty then .error .wrong else .ok { a with output := path }

/-- Asks for the listing, once. -/
def setListing (a : Arguments) : Except Halt Arguments :=
  if a.listing then .error .wrong else .ok { a with listing := true }

/-- Asks for the list of symbols, once. -/
def setSymbols (a : Arguments) : Except Halt Arguments :=
  if a.symbols then .error .wrong else .ok { a with symbols := true }

/-- Asks for more detail. -/
def addVerbosity (a : Arguments) : Arguments :=
  { a with verbosity := a.verbosity + 1 }

/-- Reads the letters behind one dash.  The output option takes the letters behind it as its
value, without an equals sign; `true` says that its value is the next argument. -/
def letters (a : Arguments) : List Char → Except Halt (Arguments × Bool)
  | [] => .ok (a, false)
  | 'l' :: rest => do (← a.setListing).letters rest
  | 's' :: rest => do (← a.setSymbols).letters rest
  | 'v' :: rest => a.addVerbosity.letters rest
  | 'h' :: _ => .error .help
  | 'V' :: _ => .error .version
  | ['o'] => .ok (a, true)
  | 'o' :: '=' :: path => return (← a.setOutput (String.ofList path), false)
  | 'o' :: path => return (← a.setOutput (String.ofList path), false)
  | _ => .error .wrong

/-- Reads the name behind two dashes; `true` says that the next argument is the output path. -/
def long (a : Arguments) (name : List Char) : Except Halt (Arguments × Bool) :=
  if name = "listing".toList then return (← a.setListing, false)
  else if name = "symbols".toList then return (← a.setSymbols, false)
  else if name = "verbose".toList then .ok (a.addVerbosity, false)
  else if name = "help".toList then .error .help
  else if name = "version".toList then .error .version
  else if name = "output".toList then .ok (a, true)
  else if "output=".toList <+: name then
    return (← a.setOutput (String.ofList (name.drop 7)), false)
  else .error .wrong

/-- The argument is an option and not a value: a dash with something behind it. -/
def isOption (arg : List Char) : Bool :=
  match arg with
  | '-' :: _ :: _ => true
  | _ => false

/-- Reads arguments behind `--`, which are all paths. -/
def paths (a : Arguments) : List String → Except Halt Arguments
  | [] => .ok a
  | path :: rest => do (← a.setInput path).paths rest

/-- Reads arguments from left to right, up to the first that halts; `pending` says that the output
path is due. -/
def read (a : Arguments) (pending : Bool) : List String → Except Halt Arguments
  | [] => if pending then .error .wrong else .ok a
  | arg :: rest =>
    let text := arg.toList
    if pending then
      if isOption text then .error .wrong else do (← a.setOutput arg).read false rest
    else match text with
      | ['-', '-'] => a.paths rest
      | '-' :: '-' :: name => do
        let (a, pending) ← a.long name
        a.read pending rest
      | '-' :: c :: more => do
        let (a, pending) ← a.letters (c :: more)
        a.read pending rest
      | _ => do (← a.setInput arg).read false rest

end Arguments

/-- Reads the arguments of a run: the source path, which must be there, and the options. -/
def parse (args : List String) : Except Halt (String × Arguments) := do
  let a ← ({} : Arguments).read false args
  match a.input with
  | some input => return (input, a)
  | none => throw .wrong

/-! ## Paths -/

/-- The characters of a file name without its extension; a period in front starts none. -/
def stem (name : List Char) : List Char :=
  match (name.reverse.dropWhile (· != '.')).drop 1 with
  | [] => name
  | c :: cs => (c :: cs).reverse

/-- The path of a source with the extension `.bin`. -/
def defaultOutput (input : String) : String :=
  let cs := input.toList
  let name := (cs.reverse.takeWhile (· != '/')).reverse
  let folder := cs.take (cs.length - name.length)
  if name = [] ∨ name = ['.', '.'] then input
  else String.ofList (folder ++ stem name) ++ ".bin"

/-! ## Runs -/

/-- What a run prints and writes. -/
structure Report where
  exit : Nat
  stdout : String
  /-- The path and the content of the file to write. -/
  file : Option (String × List UInt8)

/-- The image in whole longs up to the highest byte written. -/
def imageFile (a : Assembly) : List UInt8 :=
  (List.range ((a.imageEnd + 3) / 4)).flatMap fun i =>
    Bytes.littleEndian 4 (a.image.readLong (4 * i)).toNat

/-- The report on a pass. -/
def report (input : String) (options : Arguments) (a : Assembly) : Report :=
  let stdout :=
    (if options.listing then a.listing else "") ++ (if options.symbols then a.symbolList else "")
  if 0 < a.faultCount then { exit := 1, stdout, file := none }
  else
    let path := options.output.getD (defaultOutput input)
    { exit := 0, stdout, file := some (path, imageFile a) }

/-- Assembles the content of the source and reports on it. -/
def run (input : String) (options : Arguments)
    (content : Except ReadFailure (List UInt8)) : Report :=
  report input options (({} : Assembly).assembleFile content)

end PropellerAsm.CommandLine
