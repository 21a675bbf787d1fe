import PropellerAsm.Instruction.Shape
import PropellerAsm.Text.Layout

/-!
# Faults

A fault ends the work on one source line; the pass records it and goes on with the next line.
`Fault.message` is the only place where the wording is fixed.
-/
namespace PropellerAsm

/-- What may be missing from a line. -/
inductive Part where
  | expression
  | data
  | destination
  | source
  | index
  | pointerRegister
  | address
  | augmentValue
  | modczParameter
  | symbolName
  | fillAddress
deriving DecidableEq, Repr

/-- The words for a missing part. -/
def Part.text : Part → String
  | expression => "expression"
  | data => "data"
  | destination => "destination"
  | source => "source"
  | index => "immediate #n"
  | pointerRegister => "pointer register"
  | address => "address"
  | augmentValue => "augment value"
  | modczParameter => "MODCZ parameter"
  | symbolName => "symbol name"
  | fillAddress => "fill address"

/-- The two operand fields of an instruction. -/
inductive Side where
  | dst
  | src
deriving DecidableEq, Repr

/-- The name of an operand field. -/
def Side.text : Side → String
  | dst => "DST"
  | src => "SRC"

/-- Where an operand field lies. -/
def Side.field : Side → Field
  | dst => .destination
  | src => .source

/-- Why a source could not be read at all. -/
inductive ReadFailure where
  | notFound
  | isDirectory
  | notUtf8
  | other (reason : String)
deriving DecidableEq, Repr

/-- The reason in words. -/
def ReadFailure.text : ReadFailure → String
  | notFound => "No such file or directory (os error 2)"
  | isDirectory => "Is a directory (os error 21)"
  | notUtf8 => "stream did not contain valid UTF-8"
  | other reason => reason

/-- What can be wrong with a source line, or with the source as a whole. -/
inductive Fault where
  /-- A label is already bound, on line `line` to `value`. -/
  | redefinition (name : String) (line : Nat) (value : Quad)
  /-- Words are left over. -/
  | extraParameters (words : String)
  | expectedComma (found : String)
  | missing (part : Part)
  | expectedImmediate (found : String)
  | unexpectedImmediate (found : String)
  /-- The index of a lane is too large. -/
  | indexRange (lane : Lane) (value : Quad)
  | invalidPointer (found : String)
  | multipleConditions (found : String)
  | conditionBeforeDirective (condition : String)
  | reservedWord (found : String)
  | unexpectedFlag (found : String) (allowed : FlagRule)
  /-- The word after the operands of a test does not pick a variant. -/
  | unexpectedTestFlag (found : String)
  | missingTestFlag
  | notAnInstruction (found : String)
  /-- A name with a value stands where an instruction is expected. -/
  | constantAsInstruction (name : String)
  | strayModcz (found : String)
  | invalidModcz (found : String)
  | modczRange (value : Quad)
  | divisionByZero
  /-- The text of an expression that could not be read. -/
  | invalidExpression (rest : String)
  | invalidOctalDigit (digit : Char)
  /-- The index of a pointer, as a signed long. -/
  | pointerIndex (index : Long)
  | fieldOverflow (side : Side) (value : Quad)
  | addressRange (value : Quad)
  | fitExceeded (limit org : Quad)
  | originExceeded (origin : Quad)
  | hubExceeded (limit : Quad)
  | unreadable (failure : ReadFailure)
deriving DecidableEq, Repr

/-- The flag updates that pick the variant of a test. -/
def testFlags : String := "WC, WZ, ANDC, ANDZ, ORC, ORZ, XORC, or XORZ"

/-- The wording of a fault. -/
def Fault.message : Fault → String
  | redefinition name line value =>
    "Symbol '" ++ name ++ "' already defined in line #" ++ Text.decimal line ++ " (Value: " ++
      Text.decimal value.toNat ++ ", $" ++ Text.hex 6 value.toNat ++ ", %" ++
      Text.digits 2 32 value.toNat ++ ")."
  | extraParameters words => "Found extra parameters: " ++ words
  | expectedComma found => "Expected , but found " ++ found ++ "."
  | missing part => "Missing " ++ part.text ++ "."
  | expectedImmediate found => "Expected immediate #n but found '" ++ found ++ "'."
  | unexpectedImmediate found => "Immediate not allowed here: '" ++ found ++ "'."
  | indexRange lane value =>
    "Immediate #n not in 0-" ++ Text.decimal lane.max ++ " (" ++ Text.decimal value.toNat ++ ")"
  | invalidPointer found => "Invalid pointer parameter: " ++ found
  | multipleConditions found => "Extraneous conditional '" ++ found ++ "'."
  | conditionBeforeDirective condition =>
    "Conditional '" ++ condition ++ "' not allowed before a directive."
  | reservedWord found => "Reserved word '" ++ found ++ "' used as parameter."
  | unexpectedFlag found allowed =>
    "Unexpected flag update '" ++ found ++ "' not " ++ allowed.text
  | unexpectedTestFlag found => "Unexpected flag update '" ++ found ++ "' not " ++ testFlags
  | missingTestFlag => "Missing flag update, expected " ++ testFlags
  | notAnInstruction found => "Not an instruction token '" ++ found ++ "'."
  | constantAsInstruction name => "Constant '" ++ name ++ "' used as an instruction."
  | strayModcz found => "Extraneous MODCZ parameter '" ++ found ++ "'."
  | invalidModcz found => "Expected MODCZ param or immediate but found '" ++ found ++ "'."
  | modczRange value =>
    "Expected MODCZ immediate in range 0…15 (" ++ Text.decimal value.toNat ++ ")."
  | divisionByZero => "Division by zero."
  | invalidExpression rest => "Unexpected '" ++ rest ++ "' in expression."
  | invalidOctalDigit digit => "Invalid octal digit '" ++ String.singleton digit ++ "'."
  | pointerIndex index => "Pointer index $" ++ Text.hex 8 index.toNat ++ " is invalid."
  | fieldOverflow side value =>
    side.text ++ " value $" ++ Text.hex 0 value.toNat ++ " is > $1ff"
  | addressRange value => "Address $" ++ Text.hex 0 value.toNat ++ " exceeds 20 bits."
  | fitExceeded limit org =>
    "Code does not fit below $" ++ Text.hex 0 limit.toNat ++ " (ORG is $" ++
      Text.hex 0 org.toNat ++ ")"
  | originExceeded origin => "COG origin ($" ++ Text.hex 0 origin.toNat ++ ") exceeds limit"
  | hubExceeded limit => "HUB address exceeds limit $" ++ Text.hex 0 limit.toNat ++ "."
  | unreadable failure => "Could not read source: " ++ failure.text

/-- Ends the work with a fault if a condition holds. -/
def Fault.raiseIf {σ : Type} (c : Prop) [Decidable c] (f : Fault) : EStateM Fault σ Unit :=
  if c then throw f else pure ()

end PropellerAsm
