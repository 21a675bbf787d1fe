import PropellerAsm.Encoding.Fields

/-!
# Encoding instructions

`encode` turns a mnemonic's form, a condition and the operand words into one instruction long and
the augmentations that its immediates need.  The operands may first select the mnemonic's second
form.
-/
namespace PropellerAsm

/-! ## Encoded instructions -/

/-- An instruction with the augmentations that stand before it. -/
structure Encoded where
  augd : Option Long
  augs : Option Long
  word : Long
deriving DecidableEq, Repr

namespace Encoded

/-- The augmentations in the order of memory. -/
def augments (e : Encoded) : List Long :=
  e.augd.toList ++ e.augs.toList

/-- All longs in the order of memory. -/
def longs (e : Encoded) : List Long :=
  e.augments ++ [e.word]

end Encoded

namespace Instruction

/-! ## The choice of the form -/

/-- The word is written as an immediate. -/
def isImmediate (word : Word) : Bool :=
  word.text.toList.head? == some '#'

/-- The word is a register that an address instruction can load. -/
def isPointerRegister (word : Word) : Bool :=
  match word.token with
  | .keyword (.register r) => r.pointer?.isSome
  | _ => false

/-- The operand words ask for the second form of a mnemonic whose first form has this shape. -/
def wantsSecondForm (words : List Word) : Shape → Bool
  | .lane _ | .alter => !words.any (·.comma)
  | .jump => words.head?.any isImmediate
  | .callD => words.head?.any isPointerRegister && (words[1]?).any isImmediate
  | .getRnd => words.head?.all (·.token.isFlag)
  | _ => false

/-- The form that the operand words select. -/
def selectForm (mnemonic : String) (form : Form) (words : List Word) : Form :=
  if wantsSecondForm words form.shape then (secondForm? mnemonic).getD form else form

/-! ## Operands by shape -/

open Encoder in
/-- Reads the operands of a shape. -/
def operands (ctx : Context) : Shape → Encoder Unit
  | .nop => do
    -- All zero, the condition included.
    modify ({ · with opcode := {} })
    finish
  | .bare rule => flags rule
  | .dst place rule => do
    let _ ← dst ctx place
    flags rule
  | .testPin => do
    let _ ← dst ctx .immediate
    testFlag .source
    finish
  | .src => do
    let _ ← src ctx
    finish
  | .dstSrc pointer rule => do
    dstSrc ctx pointer
    flags rule
  | .testBit => do
    dstSrc ctx false
    testFlag .operation
    finish
  | .both pointer rule => do
    expectComma (← dst ctx .zero)
    let _ ← source ctx pointer
    flags rule
  | .lane l => do
    expectComma (← dst ctx .none)
    expectComma (← src ctx)
    laneIndex ctx l
    finish
  | .alter => do
    expectComma (← dst ctx .none)
    let _ ← src ctx
    finish
  | .jump => do
    let _ ← dst ctx .none
    flags (some .wcz)
  | .callD => do
    dstSrc ctx false
    flags (some .wcz)
  | .getRnd => do
    let _ ← dst ctx .none
    flags (some .wcz)
  | .pointerAddress => do
    expectComma (← pointerRegister)
    address ctx
    finish
  | .address => do
    address ctx
    finish
  | .augment => do
    augment ctx
    finish
  | .modify target => do
    modifyFlags ctx target
    flags (some .wcz)

/-! ## Instructions -/

/-- The fixed bits of an augmentation of the source. -/
def augsBits : Long := 0b11110 <<< 23

/-- The fixed bits of an augmentation of the destination. -/
def augdBits : Long := 0b11111 <<< 23

/-- An augmentation under a condition. -/
def augmentation (bits : Long) (cond : Condition) (upper : Long) : Long :=
  ((Opcode.ofBits bits cond).set .augment upper).word

/-- Encodes an instruction from its mnemonic, the form of the mnemonic, a condition and the words
behind it. -/
def encode (ctx : Context) (mnemonic : String) (form : Form) (cond : Condition)
    (words : List Word) : Evaluator Encoded := do
  let form := selectForm mnemonic form words
  let (_, cursor) ← (operands ctx form.shape).run words (.ofBits form.bits cond)
  return {
    augd := cursor.augd.map (augmentation augdBits cond)
    augs := cursor.augs.map (augmentation augsBits cond)
    word := cursor.opcode.word }

end Instruction

end PropellerAsm
