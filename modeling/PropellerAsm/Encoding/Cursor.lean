import PropellerAsm.Operand
import PropellerAsm.Word

/-!
# Reading operand words

A cursor walks over the words behind a mnemonic or directive while the instruction long and its
augmentations are filled in.  An operand may be spread over several words: a word that ends in an
operator goes on in the next plain word, and so does one whose next plain word starts with an
operator.  A comma ends an operand in any case.
-/
namespace PropellerAsm

/-- The state of encoding one line. -/
structure Cursor where
  /-- The words not read so far. -/
  words : List Word
  symbols : SymbolTable
  opcode : Opcode := {}
  /-- The upper bits of an augmented destination. -/
  augd : Option Long := none
  /-- The upper bits of an augmented source. -/
  augs : Option Long := none

/-- Encoding stops at the first fault; uses recorded in the symbol table stay. -/
abbrev Encoder := EStateM Fault Cursor

/-- The text of an operand. -/
structure OperandText where
  text : String
  /-- A comma follows. -/
  comma : Bool
deriving DecidableEq, Repr

namespace OperandText

/-- An operand that ends in one of these goes on in the next word. -/
def joinAfter : List Char :=
  ['+', '-', '*', '/', '\\', '&', '|', '^', '!', '~', '<', '>', '(', '#']

/-- A word that starts with one of these belongs to the operand before it. -/
def joinBefore : List Char :=
  ['+', '-', '*', '/', '\\', '&', '|', '^', '!', '<', '>', ')']

/-- The word goes on with the operand `text`. -/
def joins (text : String) (word : Word) : Bool :=
  word.token == .plain &&
    (text.toList.getLast?.any (joinAfter.contains ·) ||
      word.text.toList.head?.any (joinBefore.contains ·))

/-- Takes the words that go on with an operand, and returns the words after it. -/
def extend (operand : OperandText) : List Word → OperandText × List Word
  | [] => (operand, [])
  | word :: words =>
    if !operand.comma && joins operand.text word then
      extend ⟨operand.text ++ word.text, word.comma⟩ words
    else (operand, word :: words)

/-- Takes the operand that words start with; there is none before a flag update or at the end. -/
def take? : List Word → Option (OperandText × List Word)
  | [] => none
  | word :: words =>
    if word.token.isFlag then none else some (extend ⟨word.text, word.comma⟩ words)

end OperandText

namespace Encoder

/-- Runs an encoder on words, with the symbol table as the state that lasts. -/
def run {α : Type} (m : Encoder α) (words : List Word) (opcode : Opcode) :
    Evaluator (α × Cursor) := fun symbols =>
  match m { words, symbols, opcode } with
  | .ok a cursor => .ok (a, cursor) cursor.symbols
  | .error f cursor => .error f cursor.symbols

/-- Evaluates an operand text. -/
def evaluate (ctx : Context) (text : String) : Encoder Operand := fun cursor =>
  match Operand.evaluate ctx text cursor.symbols with
  | .ok operand symbols => .ok operand { cursor with symbols }
  | .error f symbols => .error f { cursor with symbols }

/-- The next operand text, if there is one. -/
def operand? : Encoder (Option OperandText) := do
  match OperandText.take? (← get).words with
  | some (operand, words) =>
    modify ({ · with words })
    return some operand
  | none => return none

/-- The next operand text; `part` is missing if there is none. -/
def operand (part : Part) : Encoder OperandText := do
  match ← operand? with
  | some text => return text
  | none => throw (.missing part)

/-- The next operand with its text. -/
def value (ctx : Context) (part : Part) : Encoder (Operand × OperandText) := do
  let text ← operand part
  let operand ← evaluate ctx text.text
  return (operand, text)

/-- The next word, if there is one. -/
def peek? : Encoder (Option Word) :=
  return (← get).words.head?

/-- Passes over the next word. -/
def skip : Encoder Unit :=
  modify fun cursor => { cursor with words := cursor.words.tail }

/-- Requires that the operand read last has been followed by a comma. -/
def expectComma (text : OperandText) : Encoder Unit :=
  if text.comma then return
  else do
    match ← peek? with
    | some word => throw (.expectedComma word.text)
    | none => throw (.expectedComma "end of line")

/-- Requires that no words are left. -/
def finish : Encoder Unit := do
  let words := (← get).words
  Fault.raiseIf (words ≠ []) (.extraParameters (" ".intercalate (words.map (·.text))))

/-- Writes a field of the instruction. -/
def setField (f : Field) (value : Long) : Encoder Unit :=
  modify fun cursor => { cursor with opcode := cursor.opcode.set f value }

/-- Sets a field of one bit if `b` says so. -/
def setBit (f : Field) (b : Bool) : Encoder Unit :=
  if b then setField f 1 else return

end Encoder

end PropellerAsm
