import PropellerAsm.Assembly.Event
import PropellerAsm.Assembly.Statement
import PropellerAsm.Image
import PropellerAsm.Text.Layout
import PropellerAsm.Word.Split

/-!
# The assembly

A single pass over the source, line by line.  A label is bound to the program counter of its line
before the rest of the line is read; a use of a name that is bound later reads as zero and is
never revisited.  A line with a fault leaves its record and the names it mentioned, and nothing
else.
-/
namespace PropellerAsm

/-- The state of a pass. -/
structure Assembly where
  /-- Whether a block comment is open. -/
  block : Block := .closed
  symbols : SymbolTable := {}
  image : Image := {}
  /-- The records of the lines with words, in order. -/
  lines : Array Line := #[]
  /-- Failures to get at the source at all. -/
  readFaults : List Fault := []
  /-- How many lines there have been. -/
  lineNumber : Nat := 0
  nextPc : Long := 0
  /-- The highest program counter after a line. -/
  lastPc : Long := 0
  /-- One more than the highest address that has been written. -/
  imageEnd : Nat := 0
  /-- The last global label, to which local labels belong. -/
  scope : String := ""
  /-- All events, the latest last; it outlives a new pass. -/
  log : Array Event := #[]

/-- Work on a line; what it has done stays in case of a fault. -/
abbrev Assembler := EStateM Fault Assembly

namespace Assembly

/-- Adds an event. -/
def note (a : Assembly) (e : Event) : Assembly :=
  { a with log := a.log.push e }

/-! ## Labels -/

/-- Binds the label of a line to its program counter, and returns the name it is filed under.  A
global label is the scope of what follows even if it is already bound. -/
def bindLabel (pc : Long) (text : String) : Assembler String := fun a =>
  if text.toList.head?.any Statement.startsLabel then
    let name := Symbol.qualify a.scope text
    let a := if Symbol.isLocal text then a else { a with scope := name }
    match a.symbols.define? name (.addr pc) a.lineNumber with
    | some symbols =>
      .ok name (({ a with symbols } : Assembly).note (.bound a.lineNumber name (.addr pc)))
    | none =>
      let s := a.symbols.lookup name
      .error (.redefinition name (s.definition?.getD 0) s.value.toQuad) a
  else .error (.notAnInstruction text) a

/-- Binds the label that words start with, if they start with a plain word, and returns the
words behind it. -/
def takeLabel (pc : Long) : List Word → Assembler (Option String × List Word)
  | [] => return (none, [])
  | word :: rest =>
    if word.token = .plain then do
      let name ← bindLabel pc word.text
      return (some name, rest)
    else return (none, word :: rest)

/-- Gives the label of the line another value. -/
def rebind (a : Assembly) (label : Option String) (value : Value) : Assembly :=
  match label with
  | none => a
  | some name =>
    let a := a.note (.bound a.lineNumber name value)
    { a with symbols := (a.symbols.setValue? name value).getD a.symbols }

/-! ## Statements -/

/-- Evaluates against the symbol table of the pass. -/
def evaluate {α : Type} (m : Evaluator α) : Assembler α := fun a =>
  match m a.symbols with
  | .ok x symbols => .ok x { a with symbols }
  | .error f symbols => .error f { a with symbols }

/-- Reads the words of a line: its label is bound, and the effect of the rest is returned. -/
def read (pc : Long) (words : List Word) : Assembler (Option String × Effect) := do
  let (label, rest) ← takeLabel pc words
  let a ← get
  let ctx : Context := { scope := a.scope, line := a.lineNumber, pc }
  let effect ← evaluate (Statement.effect ctx label.isSome rest)
  return (label, effect)

/-- Stores bytes; a write that does not fit is dropped. -/
def store (a : Assembly) (addr : Nat) (bytes : List UInt8) : Assembly :=
  match a.image.write? addr bytes with
  | some image => { a with image, imageEnd := max a.imageEnd (addr + bytes.length) }
  | none => a.note (.dropped a.lineNumber addr)

/-- Stores longs one after the other from a program counter on, and goes on behind them. -/
def storeLongs (a : Assembly) (pc : Long) : List Long → Assembly
  | [] => { a with nextPc := pc }
  | long :: longs =>
    (a.store (Address.toByte pc) (Bytes.littleEndian 4 long.toNat)).storeLongs
      (Address.step pc 4) longs

/-- Carries out an effect for a line at a program counter. -/
def commit (a : Assembly) (pc : Long) (label : Option String) : Effect → Assembly
  | .nothing => a
  | .code mnemonic e =>
    (a.note (.encoded a.lineNumber mnemonic e.longs)).storeLongs pc e.longs
  | .data bytes =>
    let a := if bytes.isEmpty then a else a.store (Address.toByte pc) bytes
    { a with nextPc := Address.step pc bytes.length }
  | .reserve next => { a with nextPc := next }
  | .origin org => ({ a with nextPc := org }).rebind label (.addr org)
  | .assign value => a.rebind label value

/-! ## Lines -/

/-- Keeps the record of a line. -/
def keep (a : Assembly) (line : Line) : Assembly :=
  { a with
    lines := a.lines.push line
    lastPc := if a.lastPc.toNat < a.nextPc.toNat then a.nextPc else a.lastPc }

/-- Assembles the words of a line. -/
def assembleWords (a : Assembly) (source : String) (words : List Word) : Assembly :=
  let pc := a.nextPc
  let number := a.lineNumber
  match read pc (Word.code words) a with
  | .ok (label, effect) a =>
    (a.commit pc label effect).keep
      { number, pc := effect.linePc pc, source, words, outcome := effect.outcome }
  | .error f a =>
    (a.note (.faulty number f)).keep { number, pc, source, words, outcome := .fault f }

/-- Assembles the next line.  A line without words, or inside a block comment, only counts. -/
def line (a : Assembly) (source : String) : Assembly :=
  let expanded := Text.expandTabs source
  let (words, block) := a.block.split expanded
  let a := { a with lineNumber := a.lineNumber + 1, block }
  match words with
  | none => a
  | some [] => a
  | some (word :: more) =>
    let text := String.ofList (Text.trimRight expanded.toList)
    (a.note (.started a.lineNumber a.nextPc text)).assembleWords source (word :: more)

/-! ## Passes -/

/-- A new pass; the log goes on. -/
def clear (a : Assembly) : Assembly :=
  { log := a.log }

/-- The faults of the pass, with the numbers of their lines; line 0 stands for the source as a
whole. -/
def diagnostics (a : Assembly) : List (Nat × Fault) :=
  a.readFaults.map (fun f => (0, f)) ++
    a.lines.toList.filterMap fun line => line.fault?.map fun f => (line.number, f)

/-- How many faults there are. -/
def faultCount (a : Assembly) : Nat := a.diagnostics.length

/-- Reports the end of a pass. -/
def finish (a : Assembly) : Assembly :=
  let b := a.symbols.undefined.foldl (fun b s => b.note (.unresolved s)) a
  b.note (.finished a.lineNumber a.symbols.size a.lastPc a.faultCount)

/-- Assembles lines in a new pass. -/
def assembleLines (a : Assembly) (sources : List String) : Assembly :=
  (sources.foldl line a.clear).finish

/-- Assembles a source text in a new pass. -/
def assemble (a : Assembly) (source : String) : Assembly :=
  a.assembleLines (Text.splitLines source)

/-- A new pass over a source that could not be read. -/
def refuse (a : Assembly) (failure : ReadFailure) : Assembly :=
  let f := Fault.unreadable failure
  ({ a.clear with readFaults := [f] } : Assembly).note (.faulty 0 f)

/-- Assembles the content of a file, or records why there is none. -/
def assembleFile (a : Assembly) (content : Except ReadFailure (List UInt8)) : Assembly :=
  match content with
  | .error failure => a.refuse failure
  | .ok bytes =>
    match Utf8.decode? bytes with
    | some source => a.assemble source
    | none => a.refuse .notUtf8

/-! ## Results -/

/-- The record of a line. -/
def line? (a : Assembly) (number : Nat) : Option Line :=
  a.lines.find? (·.number == number)

/-- The image up to the highest byte written. -/
def binary (a : Assembly) : List UInt8 :=
  a.image.slice 0 a.imageEnd

end Assembly

end PropellerAsm
