import PropellerAsm.Assembly.Line
import PropellerAsm.Encoding.Data
import PropellerAsm.Text.Letter

/-!
# Statements

Behind an optional label, a line holds an instruction with an optional condition, a directive, or
an assignment to the label.  A statement is read without touching anything but the uses recorded
in the symbol table; what it asks for is returned as an effect, which the pass carries out only if
there was no fault.
-/
namespace PropellerAsm

/-- What a statement asks for. -/
inductive Effect where
  | nothing
  /-- Store an instruction. -/
  | code (mnemonic : String) (instruction : Encoded)
  /-- Store bytes. -/
  | data (bytes : List UInt8)
  /-- Go on at a program counter. -/
  | reserve (next : Long)
  /-- Move this line and its label to a program counter, and go on there. -/
  | origin (pc : Long)
  /-- Give the label a value. -/
  | assign (value : Value)

/-- What an effect leaves in the record of its line. -/
def Effect.outcome : Effect → Outcome
  | code _ e => .code e
  | data bytes => .data bytes
  | _ => .nothing

/-- The program counter of a line that was taken up at `pc`. -/
def Effect.linePc (pc : Long) : Effect → Long
  | origin org => org
  | _ => pc

namespace Statement

/-- A label may start with this character. -/
def startsLabel (c : Char) : Bool :=
  Text.isLetter c || c == '_' || c == '.'

/-! ## Directives -/

/-- A number as a value of the expression type. -/
def quad (n : Nat) : Quad := BitVec.ofNat 64 n

/-- Reserves longs. -/
def reserve (ctx : Context) (words : List Word) : Evaluator Effect := do
  let count := ((← Directive.argument? ctx words).getD 1).toNat
  let next := ctx.pc.toNat + (if Address.isHub ctx.pc then count * 4 else count)
  Fault.raiseIf (Address.memorySize < next) (.hubExceeded (quad Address.memorySize))
  return .reserve (BitVec.ofNat 32 next)

/-- Checks that the program counter has not passed a limit. -/
def fit (ctx : Context) (words : List Word) : Evaluator Effect := do
  let limit := (← Directive.argument? ctx words).getD (quad Address.hubStart)
  Fault.raiseIf (limit.toNat < ctx.pc.toNat) (.fitExceeded limit (ctx.pc.setWidth 64))
  return .nothing

/-- Moves to a register address. -/
def originCog (ctx : Context) (words : List Word) : Evaluator Effect := do
  let org := (← Directive.argument? ctx words).getD 0
  Fault.raiseIf (Address.hubStart ≤ org.toNat) (.originExceeded org)
  return .origin (org.setWidth 32)

/-- Moves to a hub address. -/
def originHub (ctx : Context) (words : List Word) : Evaluator Effect := do
  let org := (← Directive.argument? ctx words).getD (quad Address.hubStart)
  Fault.raiseIf (Address.memorySize ≤ org.toNat) (.hubExceeded (quad Address.memorySize))
  return .origin (org.setWidth 32)

/-- Fills register memory with zeros up to an address. -/
def fill (ctx : Context) (words : List Word) : Evaluator Effect := do
  match ← Directive.argument? ctx words with
  | none => throw (.missing .fillAddress)
  | some target =>
    Fault.raiseIf (Address.hubStart ≤ target.toNat ∨ Address.isHub ctx.pc)
      (.originExceeded target)
    Fault.raiseIf (target.toNat < ctx.pc.toNat) (.fitExceeded target (ctx.pc.setWidth 64))
    return .data (List.replicate ((target.toNat - ctx.pc.toNat) * 4) 0)

/-- Fills hub memory with zeros up to a multiple of `size`. -/
def align (ctx : Context) (size : Nat) : List Word → Evaluator Effect
  | word :: _ => throw (.extraParameters word.text)
  | [] =>
    if Address.isHub ctx.pc then
      return .data (List.replicate ((size - ctx.pc.toNat % size) % size) 0)
    else return .nothing

/-- Reads the operands of a directive. -/
def directive (ctx : Context) (words : List Word) : Directive → Evaluator Effect
  | .byte => return .data (← Directive.data ctx 1 words)
  | .word => return .data (← Directive.data ctx 2 words)
  | .long => return .data (← Directive.data ctx 4 words)
  | .res => reserve ctx words
  | .fit => fit ctx words
  | .org => originCog ctx words
  | .orgh => originHub ctx words
  | .orgf => fill ctx words
  | .alignw => align ctx 2 words
  | .alignl => align ctx 4 words

/-! ## Assignments and instructions -/

/-- The value of a symbol that is assigned a number: a long if it fits. -/
def numberValue (n : Quad) : Value :=
  if n.toNat ≤ 0xffffffff then .long (n.setWidth 32) else .quad n

/-- Reads an assignment, which needs a label. -/
def assignment (ctx : Context) (labelled : Bool) (words : List Word) : Evaluator Effect := do
  Fault.raiseIf (!labelled) (.missing .symbolName)
  return .assign (numberValue (← Directive.assigned ctx words))

/-- The condition of a statement. -/
structure Guard where
  code : Condition := .always
  /-- The word that gives it. -/
  word : Option Word := none

/-- Takes the condition that words start with; a second one is a fault. -/
def takeCondition : List Word → Except Fault (Guard × List Word)
  | [] => .ok ({}, [])
  | word :: rest =>
    match word.token with
    | .keyword (.condition code) =>
      match rest with
      | [] => .ok ({ code, word }, [])
      | next :: more =>
        match next.token with
        | .keyword (.condition _) => .error (.multipleConditions next.text)
        | _ => .ok ({ code, word }, next :: more)
    | _ => .ok ({}, word :: rest)

/-- Refuses a condition before anything but an instruction. -/
def Guard.refuse (g : Guard) : Evaluator Unit :=
  match g.word with
  | some word => throw (.conditionBeforeDirective word.text)
  | none => return

/-- The name has a value. -/
def isConstant (ctx : Context) (name : String) : Evaluator Bool :=
  return ((← get).get? (Symbol.qualify ctx.scope name)).any (·.isDefined)

/-- Reads the words behind the label. -/
def effect (ctx : Context) (labelled : Bool) (words : List Word) : Evaluator Effect := do
  match takeCondition words with
  | .error f => throw f
  | .ok (_, []) => return .nothing
  | .ok (guard, first :: rest) =>
    match first.token with
    | .keyword (.instruction form) =>
      return .code first.text (← Instruction.encode ctx first.text form guard.code rest)
    | .keyword (.directive d) =>
      guard.refuse
      directive ctx rest d
    | .keyword .assign =>
      guard.refuse
      assignment ctx labelled rest
    | .keyword (.modcz _) => throw (.strayModcz first.text)
    | .plain =>
      Fault.raiseIf (← isConstant ctx first.text) (.constantAsInstruction first.text)
      throw (.notAnInstruction first.text)
    | _ => throw (.notAnInstruction first.text)

end Statement

end PropellerAsm
