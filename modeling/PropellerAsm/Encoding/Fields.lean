import PropellerAsm.Address
import PropellerAsm.Encoding.Cursor
import PropellerAsm.Encoding.Pointer

/-!
# Operand fields

One encoder for each kind of operand: it reads the operand, checks it and writes its field.  An
immediate that does not fit into nine bits, or is written with `##`, leaves its upper bits for an
augmentation.
-/
namespace PropellerAsm.Encoder

/-! ## Destination and source -/

/-- The largest value of a nine-bit field. -/
def fieldMax : Nat := 0x1ff

/-- Writes a register operand, which must fit. -/
def register (side : Side) (value : Quad) : Encoder Unit := do
  Fault.raiseIf (fieldMax < value.toNat) (.fieldOverflow side value)
  setField side.field (value.setWidth 32)

/-- Writes the low nine bits of an immediate, and returns the bits above them if the operand needs
an augmentation. -/
def immediate (side : Side) (operand : Operand) : Encoder (Option Long) :=
  if operand.augmented || fieldMax < operand.value.toNat then do
    setField side.field (operand.value.setWidth 32 &&& 0x1ff)
    return some ((operand.value >>> 9).setWidth 32)
  else do
    setField side.field (operand.value.setWidth 32)
    return none

/-- Marks an immediate destination, where the shape allows one. -/
def mark (text : String) : ImmediateMark → Encoder Unit
  | .none => throw (.unexpectedImmediate text)
  | .immediate => setField .immediate 1
  | .zero => setField .zero 1

/-- Writes a destination that has been evaluated from `text`. -/
def putDestination (place : ImmediateMark) (operand : Operand) (text : String) : Encoder Unit :=
  if operand.immediate then do
    mark text place
    let augd ← immediate .dst operand
    modify ({ · with augd })
  else register .dst operand.value

/-- A destination. -/
def dst (ctx : Context) (place : ImmediateMark) : Encoder OperandText := do
  let (operand, text) ← value ctx .destination
  putDestination place operand text.text
  return text

/-- Writes a source that has been evaluated. -/
def putSource (operand : Operand) : Encoder Unit :=
  if operand.immediate then do
    setField .immediate 1
    let augs ← immediate .src operand
    modify ({ · with augs })
  else register .src operand.value

/-- A source. -/
def src (ctx : Context) : Encoder OperandText := do
  let (operand, text) ← value ctx .source
  putSource operand
  return text

/-- The source field of a text that is a pointer expression. -/
def pointerField? (ctx : Context) (text : String) : Encoder (Option Long) := fun cursor =>
  match Pointer.parse? text with
  | none => .ok none cursor
  | some p =>
    match p.encode ctx cursor.symbols with
    | .ok field symbols => .ok (some field) { cursor with symbols }
    | .error f symbols => .error f { cursor with symbols }

/-- Writes the source that a text stands for, if it is not a pointer expression with a field. -/
def putPointerOr (ctx : Context) (text : String) : Option Long → Encoder Unit
  | some field => do
    setField .immediate 1
    setField .source field
  | none => do
    let operand ← evaluate ctx text
    putSource operand

/-- A source or a pointer expression. -/
def srcOrPointer (ctx : Context) : Encoder OperandText := do
  let text ← operand .source
  let field ← pointerField? ctx text.text
  putPointerOr ctx text.text field
  return text

/-- A source, which may be a pointer expression if `pointer` says so. -/
def source (ctx : Context) (pointer : Bool) : Encoder OperandText :=
  if pointer then srcOrPointer ctx else src ctx

/-- The source that follows a register: without a comma it is the register as well, and no plain
word may follow. -/
def sourceAfter (ctx : Context) (pointer : Bool) (value : Quad) (text : OperandText) :
    Encoder Unit :=
  if text.comma then do
    let _ ← source ctx pointer
    return
  else do
    match ← peek? with
    | some word =>
      if word.token = .plain then throw (.expectedComma word.text) else register .src value
    | none => register .src value

/-- A register and a source. -/
def dstSrc (ctx : Context) (pointer : Bool) : Encoder Unit := do
  let (operand, text) ← value ctx .destination
  Fault.raiseIf operand.immediate (.unexpectedImmediate text.text)
  register .dst operand.value
  sourceAfter ctx pointer operand.value text

/-! ## Other operands -/

/-- An immediate operand. -/
def requireImmediate (ctx : Context) (part : Part) : Encoder Operand := do
  let (operand, text) ← value ctx part
  Fault.raiseIf (!operand.immediate) (.expectedImmediate text.text)
  return operand

/-- The index of a lane. -/
def laneIndex (ctx : Context) (lane : Lane) : Encoder Unit := do
  let operand ← requireImmediate ctx .index
  Fault.raiseIf (lane.max < operand.value.toNat) (.indexRange lane operand.value)
  setField lane.field (operand.value.setWidth 32)

/-- The pointer register of an address instruction. -/
def pointerRegister : Encoder OperandText := do
  let text ← operand .pointerRegister
  match Keyword.pointer? text.text with
  | some code =>
    setField .pointer code
    return text
  | none => throw (.invalidPointer text.text)

/-- The largest 20-bit address. -/
def addressMax : Nat := 0xfffff

/-- An address: relative to the next instruction if it lies in the same memory as this one and is
not marked as absolute. -/
def address (ctx : Context) : Encoder Unit := do
  let operand ← requireImmediate ctx .address
  Fault.raiseIf (addressMax < operand.value.toNat) (.addressRange operand.value)
  let target : Long := operand.value.setWidth 32
  if !operand.absolute && Address.isHub target == Address.isHub ctx.pc then do
    setField .relative 1
    setField .address (target - Address.step ctx.pc 4)
  else setField .address target

/-- The upper 23 bits of a value. -/
def augment (ctx : Context) : Encoder Unit := do
  let operand ← requireImmediate ctx .augmentValue
  setField .augment ((operand.value >>> 9).setWidth 32)

/-- A new value of a flag: a parameter name or a number up to 15. -/
def modczParameter (ctx : Context) : Encoder (Long × OperandText) := do
  let text ← operand .modczParameter
  match Keyword.find? text.text with
  | some (.modcz code) => return (code.setWidth 32, text)
  | some _ => throw (.invalidModcz text.text)
  | none =>
    let operand ← evaluate ctx text.text
    Fault.raiseIf (15 < operand.value.toNat) (.modczRange operand.value)
    return (operand.value.setWidth 32, text)

/-- The new values of the flags. -/
def modifyFlags (ctx : Context) : FlagTarget → Encoder Unit
  | .both => do
    let (carry, text) ← modczParameter ctx
    expectComma text
    let (zero, _) ← modczParameter ctx
    setField .destination (carry <<< 4 ||| zero)
  | .carry => do
    let (carry, _) ← modczParameter ctx
    setField .destination (carry <<< 4)
  | .zero => do
    let (zero, _) ← modczParameter ctx
    setField .destination zero

/-! ## Flag updates -/

/-- Marks the flags that are updated. -/
def setFlags (carry zero : Bool) : Encoder Unit := do
  setBit .carry carry
  setBit .zero zero

/-- At most one flag update, then the end of the line. -/
def flags : Option FlagRule → Encoder Unit
  | none => finish
  | some rule => do
    match ← peek? with
    | none => finish
    | some word =>
      match word.token with
      | .keyword (.flag f) =>
        match rule.updates? f with
        | some (carry, zero) =>
          setFlags carry zero
          skip
          finish
        | none => throw (.unexpectedFlag word.text rule)
      | _ => throw (.unexpectedFlag word.text rule)

/-- The flag word that a test requires; what it picks is added to the field `f`. -/
def testFlag (f : Field) : Encoder Unit := do
  match ← peek? with
  | none => throw .missingTestFlag
  | some word =>
    match word.token with
    | .keyword (.flag flag) =>
      match flag.testVariant? with
      | some (carry, variant) =>
        setFlags carry (!carry)
        skip
        modify fun cursor => { cursor with opcode := cursor.opcode.add f variant }
      | none => throw (.unexpectedTestFlag word.text)
    | _ => throw (.unexpectedTestFlag word.text)

end PropellerAsm.Encoder
