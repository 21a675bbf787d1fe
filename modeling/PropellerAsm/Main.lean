import PropellerAsm.CommandLine

/-!
# The program

The only module that talks to the world: it reads the source file, prints what was asked for,
writes the image and sets the exit code.
-/
namespace PropellerAsm.CommandLine

/-- The help text. -/
def usage : String :=
  "Propeller 2 assembler, writes a raw binary image\n\n" ++
  "Usage: propasm [OPTIONS] <INPUT>\n\n" ++
  "  -o, --output <OUTPUT>  Binary image, defaults to the input with a .bin extension\n" ++
  "  -l, --listing          Print the listing\n" ++
  "  -s, --symbols          Print the symbol table\n" ++
  "  -v, --verbose...       More logging, repeat for more\n"

/-- Reads a source file. -/
def readSource (path : String) : IO (Except ReadFailure (List UInt8)) := do
  try
    let content ← IO.FS.readBinFile path
    return .ok content.toList
  catch e =>
    match e with
    | .noFileOrDirectory .. => return .error .notFound
    | e => return .error (.other (toString e))

/-- The events of a level are shown at a verbosity. -/
def isShown (verbosity : Nat) : Level → Bool
  | .warn => true
  | .debug => 2 ≤ verbosity
  | .trace => 3 ≤ verbosity

/-- Assembles a file. -/
def assembleFile (input : String) (options : Arguments) : IO UInt32 := do
  let a := ({} : Assembly).assembleFile (← readSource input)
  let result := report input options a
  for e in a.log do
    if isShown options.verbosity e.level then IO.eprintln e.message
  IO.print result.stdout
  for (line, f) in a.diagnostics do
    IO.eprintln (input ++ ":" ++ Text.decimal line ++ ": " ++ f.message)
  match result.file with
  | none => return UInt32.ofNat result.exit
  | some (path, bytes) =>
    try
      IO.FS.writeBinFile path ⟨bytes.toArray⟩
      return UInt32.ofNat result.exit
    catch e =>
      IO.eprintln (toString e)
      return 1

end PropellerAsm.CommandLine

open PropellerAsm.CommandLine in
/-- The entry point. -/
def main (args : List String) : IO UInt32 := do
  match parse args with
  | .error .wrong =>
    IO.eprintln usage
    return 2
  | .error .help =>
    IO.print usage
    return 0
  | .error .version =>
    IO.println "propasm 0.1.0"
    return 0
  | .ok (input, options) => assembleFile input options
