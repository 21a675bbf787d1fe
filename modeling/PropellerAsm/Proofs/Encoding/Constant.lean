import PropellerAsm.Proofs.Encoding.Lockstep
import PropellerAsm.Proofs.Encoding.ReadBack
import PropellerAsm.Proofs.Keyword
import PropellerAsm.Proofs.Operand
import PropellerAsm.Proofs.Word.Split

/-!
# Constant operands

An operand without names and without the program counter is a constant: it stands for the same in
every state of a pass.  An instruction with constant operands that fit their slots, and with a flag
word that its shape allows, is encoded without a fault; here its long and its augmentations are
computed.  Operands that depend on the state are brought to their slots in the same way, each read
with the table that the one before it has left.
-/
namespace PropellerAsm

/-! ## Numbers in hexadecimal -/

namespace Expr

theorem encodeChar_digitChar {d : Nat} (h : d < 16) : ∃ b,
    String.utf8EncodeChar (Nat.digitChar d) = [b] ∧ Radix.hexadecimal.digit? b = some d := by
  have hall : ∀ d : Fin 16, ∃ b : UInt8, String.utf8EncodeChar (Nat.digitChar d) = [b] ∧
      Radix.hexadecimal.digit? b = some d.val := by
    intro d
    refine ⟨(String.utf8EncodeChar (Nat.digitChar d)).headD 0, ?_⟩
    revert d
    decide
  exact hall ⟨d, h⟩

/-- The digits that a number is written with, first the most significant one. -/
theorem digits_toDigits (n : Nat) : ∃ ds : List Nat,
    (Utf8.encodeChars (Nat.toDigits 16 n)).map Radix.hexadecimal.digit? = ds.map some ∧
      ds ≠ [] ∧ Nat.ofDigits 16 ds.reverse = n := by
  induction n using Nat.strong_induction_on with
  | _ n ih =>
    rw [Nat.toDigits_eq_if (by decide)]
    split
    · rename_i hn
      obtain ⟨b, hb, hdigit⟩ := encodeChar_digitChar hn
      refine ⟨[n], ?_, List.cons_ne_nil _ _, ?_⟩
      · simp [Utf8.encodeChars, hb, hdigit]
      · simp
    · -- The last digit comes off the end.
      obtain ⟨ds, hds, hne, hvalue⟩ := ih (n / 16) (by omega)
      obtain ⟨b, hb, hdigit⟩ := encodeChar_digitChar (Nat.mod_lt n (by decide : 16 > 0))
      refine ⟨ds ++ [n % 16], ?_, by simp, ?_⟩
      · rw [Utf8.encodeChars_append, List.map_append, List.map_append, hds]
        simp [Utf8.encodeChars, hb, hdigit]
      · rw [List.reverse_append, List.reverse_singleton, List.singleton_append,
          Nat.ofDigits_cons, hvalue]
        omega

/-- A number is read as it is written. -/
theorem run_toDigits (n : Nat) : Run .hexadecimal (Utf8.encodeChars (Nat.toDigits 16 n)) ∧
    DigitLed .hexadecimal (Utf8.encodeChars (Nat.toDigits 16 n)) ∧
    numeral .hexadecimal (Utf8.encodeChars (Nat.toDigits 16 n)) = n := by
  obtain ⟨ds, hds, hne, hvalue⟩ := digits_toDigits n
  generalize Utf8.encodeChars (Nat.toDigits 16 n) = run at hds
  have hdigits : ∀ b ∈ run, (Radix.hexadecimal.digit? b).isSome = true := by
    intro b hb
    have hmem : Radix.hexadecimal.digit? b ∈ ds.map some := by
      rw [← hds]
      exact List.mem_map_of_mem hb
    obtain ⟨d, -, hd⟩ := List.mem_map.mp hmem
    rw [← hd]
    rfl
  refine ⟨fun b hb => .inr (hdigits b hb), ?_, ?_⟩
  · cases run with
    | nil => exact absurd (List.map_eq_nil_iff.mp hds.symm) hne
    | cons b more => exact ⟨b, more, rfl, hdigits b List.mem_cons_self⟩
  · have hrun : run.filterMap Radix.hexadecimal.digit? = ds := by
      have hall := congrArg (List.filterMap id) hds
      rw [List.filterMap_map, List.filterMap_map] at hall
      simpa using hall
    rw [numeral, hrun]
    exact hvalue

end Expr

namespace Operand

/-- The text stands for the operand wherever it is evaluated. -/
def Constant (text : String) (operand : Operand) : Prop :=
  ∀ ctx t, evaluate ctx text t = .ok operand t

theorem constant_of_parse {text : String} {operand : Operand}
    (h : parse text = (operand.toSigil, .literal operand.value)) : Constant text operand := by
  intro ctx t
  rw [evaluate, h]
  rfl

/-- An immediate in hexadecimal, with the second mark of a wide one if `augmented` says so. -/
def hexText (augmented : Bool) (value : Quad) : String :=
  (if augmented then "##$" else "#$") ++ Text.hex 0 value.toNat

theorem toList_hexText (augmented : Bool) (value : Quad) : (hexText augmented value).toList =
    (if augmented then ['#', '#', '$'] else ['#', '$']) ++ Nat.toDigits 16 value.toNat := by
  have hhex : (Text.hex 0 value.toNat).toList = Nat.toDigits 16 value.toNat := by
    unfold Text.hex Text.digits Text.padLeft
    simp
  rw [hexText, String.toList_append, hhex]
  cases augmented with
  | false => rfl
  | true => rfl

theorem head?_hexText (augmented : Bool) (value : Quad) :
    (hexText augmented value).toList.head? = some '#' := by
  rw [toList_hexText]
  cases augmented with
  | false => rfl
  | true => rfl

theorem constant_hexText (augmented : Bool) (value : Quad) :
    Constant (hexText augmented value) { immediate := true, augmented, value } := by
  apply constant_of_parse
  apply parse_of_spelled
  obtain ⟨hrun, hled, hvalue⟩ := Expr.run_toDigits value.toNat
  -- A literal alone is a phrase of every tier.
  have hderives : Expr.Derives (.tier .bits) (.literal value)
      ('$'.toUInt8 :: (Utf8.encodeChars (Nat.toDigits 16 value.toNat) ++ [])) [] := by
    have hleaf := @Expr.Leaf.hexadecimal _ [] hrun hled
    rw [hvalue, BitVec.ofNat_toNat, BitVec.setWidth_eq] at hleaf
    exact .ofLeaf hleaf
  rw [List.append_nil] at hderives
  have hbytes : Utf8.encode (hexText augmented value) =
      [] ++ (if augmented then ['#'.toUInt8, '#'.toUInt8] else ['#'.toUInt8]) ++
        ('$'.toUInt8 :: Utf8.encodeChars (Nat.toDigits 16 value.toNat)) := by
    rw [Utf8.encode, toList_hexText, Utf8.encodeChars_append]
    cases augmented with
    | false => rfl
    | true => rfl
  rw [hbytes]
  cases augmented with
  | false => exact .mk Expr.Blanks.nil .immediate hderives Expr.Blanks.nil
  | true => exact .mk Expr.Blanks.nil .augmented hderives Expr.Blanks.nil

end Operand

/-! ## Marked texts -/

/-- A text with a sign is no keyword, unless it is an equals sign. -/
theorem Keyword.find?_of_sign {text : String} {c : Char} (hascii : c.toNat < 0x80)
    (hname : Expr.isNameByte c.toUInt8 = false) (hne : c ≠ '=') (h : c ∈ text.toList) :
    Keyword.find? text = none := by
  rw [← Option.not_isSome_iff_eq_none]
  intro hkeyword
  exact Keyword.not_mem_of_sign hkeyword hascii hname hne h

/-- No keyword starts with a number sign. -/
theorem Keyword.find?_of_mark {text : String} (h : text.toList.head? = some '#') :
    Keyword.find? text = none :=
  Keyword.find?_of_sign (by decide) (by decide) (by decide) (List.mem_of_head? h)

theorem Token.ofText_of_mark {text : String} (h : text.toList.head? = some '#') :
    Token.ofText text = .plain := by
  rw [Token.ofText, Keyword.find?_of_mark h]

/-- A pointer expression does not start with a number sign. -/
theorem Pointer.parse?_of_mark {text : String} (h : text.toList.head? = some '#') :
    Pointer.parse? text = none := by
  obtain ⟨rest, hrest⟩ := List.head?_eq_some_iff.mp h
  -- Neither the index nor an update takes the mark off.
  have hbody : ∃ more, (splitIndex text.toList).1 = '#' :: more := by
    unfold splitIndex
    split
    · exact ⟨rest.takeWhile (· != '['), by rw [hrest]; rfl⟩
    · exact ⟨rest, hrest⟩
  have hbehind : ∀ {more eman : List Char} {c : Char}, c ≠ '#' →
      ('#' :: more).reverse = c :: c :: eman → ∃ name, eman.reverse = '#' :: name := by
    intro more eman c hc heq
    have hback := congrArg List.reverse heq
    rw [List.reverse_reverse, List.reverse_cons, List.reverse_cons] at hback
    cases hname : eman.reverse with
    | nil =>
      rw [hname] at hback
      exact absurd (List.cons.inj hback).1.symm hc
    | cons d name =>
      rw [hname] at hback
      exact ⟨name, by rw [(List.cons.inj hback).1]⟩
  have hmove : ∀ more, ∃ name, (splitMove ('#' :: more)).1 = '#' :: name := by
    intro more
    unfold splitMove
    split
    · rename_i heq
      exact absurd (List.cons.inj heq).1 (by decide)
    · rename_i heq
      exact absurd (List.cons.inj heq).1 (by decide)
    · split
      · rename_i heq
        exact hbehind (by decide) heq
      · rename_i heq
        exact hbehind (by decide) heq
      · exact ⟨more, rfl⟩
  obtain ⟨more, hmore⟩ := hbody
  obtain ⟨name, hname⟩ := hmove (more.map Char.toUpper)
  have hupper : ('#' :: more).map Char.toUpper = '#' :: more.map Char.toUpper := rfl
  unfold parse?
  dsimp only
  rw [hmore, hupper, hname, if_neg (by simp), if_neg (by simp)]

/-! ## Filled slots -/

/-- Marks an immediate destination in the instruction. -/
def ImmediateMark.write (op : Opcode) : ImmediateMark → Opcode
  | none => op
  | immediate => op.set .immediate 1
  | zero => op.set .zero 1

/-- The immediate that a pointer expression without an index stands for. -/
def Pointer.operand (p : Pointer) : Operand :=
  { immediate := true, value := (p.field p.move.unit).setWidth 64 }

namespace Slot

/-- The instruction with an operand in a slot. -/
def write (operand : Operand) (op : Opcode) : Slot → Opcode
  | dst mark => (if operand.immediate then mark.write op else op).set .destination
      (operand.value.setWidth 32)
  | src _ => (if operand.immediate then op.set .immediate 1 else op).set .source
      (operand.value.setWidth 32)
  | index l => op.set l.field (operand.value.setWidth 32)

/-- The operand may be put into the slot. -/
def Fits (operand : Operand) : Slot → Prop
  | dst mark => operand.Fits mark
  | src _ => operand.Fits .immediate
  | index l => operand.immediate = true ∧ operand.value.toNat ≤ l.max

/-- The text is one word, and a constant that may be put into the slot. -/
structure Accepts (slot : Slot) (text : String) (operand : Operand) : Prop where
  constant : Operand.Constant text operand
  isOperand : (Token.ofText text).isFlag = false
  notPointer : slot = .src true → Pointer.parse? text = none
  fits : slot.Fits operand

/-- Read with the table `t`, the text brings an operand to the slot and leaves the table `t'`.  A
pointer expression without an index is brought as an immediate. -/
inductive Receives (ctx : Context) (t : SymbolTable) :
    Slot → String → Operand → SymbolTable → Prop where
  | value {slot : Slot} {text : String} {operand : Operand} {t' : SymbolTable}
      (evaluated : Operand.evaluate ctx text t = .ok operand t')
      (notPointer : slot = .src true → Pointer.parse? text = none)
      (fits : slot.Fits operand) : Receives ctx t slot text operand t'
  | pointer {text : String} {p : Pointer} (parsed : Pointer.parse? text = some p)
      (bare : p.index = none) : Receives ctx t (.src true) text p.operand t

theorem Accepts.receives {slot : Slot} {text : String} {operand : Operand}
    (h : slot.Accepts text operand) (ctx : Context) (t : SymbolTable) :
    slot.Receives ctx t text operand t :=
  .value (h.constant ctx t) h.notPointer h.fits

/-- Texts bring operands to slots one after the other. -/
inductive ReceiveAll (ctx : Context) : SymbolTable → List Slot → List (String × Operand) →
    SymbolTable → Prop where
  | nil (t : SymbolTable) : ReceiveAll ctx t [] [] t
  | cons {t t₁ t' : SymbolTable} {slot : Slot} {text : String} {operand : Operand}
      {slots : List Slot} {entries : List (String × Operand)}
      (first : slot.Receives ctx t text operand t₁) (more : ReceiveAll ctx t₁ slots entries t') :
      ReceiveAll ctx t (slot :: slots) ((text, operand) :: entries) t'

theorem receiveAll_of_accepted {slots : List Slot} {entries : List (String × Operand)}
    (h : List.Forall₂ (fun slot entry => Slot.Accepts slot entry.1 entry.2) slots entries)
    (ctx : Context) (t : SymbolTable) : ReceiveAll ctx t slots entries t := by
  induction h with
  | nil => exact .nil t
  | cons hfirst _ ih => exact .cons (hfirst.receives ctx t) ih

theorem isOperand_of_accepted {slots : List Slot} {entries : List (String × Operand)}
    (h : List.Forall₂ (fun slot entry => Slot.Accepts slot entry.1 entry.2) slots entries) :
    ∀ entry ∈ entries, (Token.ofText entry.1).isFlag = false := by
  induction h with
  | nil => exact fun _ hentry => nomatch hentry
  | cons hfirst _ ih => exact List.forall_mem_cons.mpr ⟨hfirst.isOperand, ih⟩

end Slot

/-- The cursor with an operand in a slot. -/
def Cursor.put (c : Cursor) (slot : Slot) (operand : Operand) : Cursor :=
  { c with
    opcode := slot.write operand c.opcode
    augd := if operand.immediate ∧ slot.side? = some .dst then operand.upper? else c.augd
    augs := if operand.immediate ∧ slot.side? = some .src then operand.upper? else c.augs }

/-- A pointer expression is put into the source as it is. -/
theorem Cursor.put_pointer {c : Cursor} (p : Pointer) (hc : c.augs = none) :
    c.put (.src true) p.operand =
      { c with opcode := (c.opcode.set .immediate 1).set .source (p.field p.move.unit) } := by
  have himmediate : p.operand.immediate = true := rfl
  have hlow : (p.operand.value.setWidth 32 : Long) = p.field p.move.unit := by
    unfold Pointer.operand
    rw [BitVec.setWidth_setWidth_of_le _ (by decide), BitVec.setWidth_eq]
  have hupper : p.operand.upper? = none := by
    have hlt := p.field_lt p.move.unit
    have hsame : p.operand.value.toNat = (p.field p.move.unit).toNat := by
      unfold Pointer.operand
      rw [BitVec.toNat_setWidth]
      omega
    refine if_neg ?_
    rintro ⟨-, haugmented | hwide⟩
    · cases haugmented
    · omega
  simp [put, Slot.write, Slot.side?, himmediate, hlow, hupper, hc]

/-- The cursor with operands in their slots. -/
def Cursor.fill (c : Cursor) (operands : List (Slot × Operand)) : Cursor :=
  operands.foldl (fun c operand => c.put operand.1 operand.2) c

theorem Cursor.fill_words (c : Cursor) (operands : List (Slot × Operand)) :
    (c.fill operands).words = c.words := by
  induction operands generalizing c with
  | nil => rfl
  | cons operand operands ih => exact ih (c.put operand.1 operand.2)

theorem Cursor.fill_symbols (c : Cursor) (operands : List (Slot × Operand)) :
    (c.fill operands).symbols = c.symbols := by
  induction operands generalizing c with
  | nil => rfl
  | cons operand operands ih => exact ih (c.put operand.1 operand.2)

theorem Cursor.fill_opcode (c : Cursor) (operands : List (Slot × Operand)) :
    (c.fill operands).opcode =
      operands.foldl (fun op operand => operand.1.write operand.2 op) c.opcode := by
  induction operands generalizing c with
  | nil => rfl
  | cons operand operands ih => exact ih (c.put operand.1 operand.2)

namespace Encoder

variable {ctx : Context} {c : Cursor} {operand : Operand}

theorem operand_of_take {part : Part} {text : OperandText} {rest : List Word}
    (h : OperandText.take? c.words = some (text, rest)) :
    Encoder.operand part c = .ok text { c with words := rest } := by
  obtain ⟨text', rest', htake, hoperand⟩ | ⟨htake, -⟩ := operand_cases part c
  · obtain ⟨rfl, rfl⟩ := Prod.mk.inj (Option.some.inj (h.symm.trans htake))
    exact hoperand
  · rw [h] at htake
    cases htake

theorem evaluate_of_ok {text : String} {t : SymbolTable}
    (h : Operand.evaluate ctx text c.symbols = .ok operand t) :
    evaluate ctx text c = .ok operand { c with symbols := t } := by
  unfold evaluate
  rw [h]

theorem value_of_ok {part : Part} {text : OperandText} {rest : List Word} {t : SymbolTable}
    (htake : OperandText.take? c.words = some (text, rest))
    (h : Operand.evaluate ctx text.text c.symbols = .ok operand t) :
    value ctx part c = .ok (operand, text) { c with words := rest, symbols := t } := by
  have hevaluate : evaluate ctx text.text { c with words := rest } =
      .ok operand { c with words := rest, symbols := t } := evaluate_of_ok h
  unfold value
  rw [bind_of_ok (operand_of_take htake), bind_of_ok hevaluate]
  rfl

/-- A register is written if it fits. -/
theorem register_of_fits {side : Side} {value : Quad} (h : value.toNat ≤ 0x1ff) :
    register side value c =
      .ok () { c with opcode := c.opcode.set side.field (value.setWidth 32) } := by
  have hcheck : (Fault.raiseIf (fieldMax < value.toNat) (.fieldOverflow side value) :
      Encoder Unit) c = .ok () c := raiseIf_eq_ok_iff.mpr ⟨Nat.not_lt.mpr h, rfl⟩
  unfold register
  rw [bind_of_ok hcheck]
  rfl

/-- Of an immediate the low bits are written, and the bits above are left. -/
theorem immediate_of_immediate (side : Side) (himmediate : operand.immediate = true) :
    immediate side operand c = .ok operand.upper?
      { c with opcode := c.opcode.set side.field (operand.value.setWidth 32) } := by
  -- The mask takes off only bits that have no room in the field.
  have hlow : c.opcode.set side.field (operand.value.setWidth 32 &&& 0x1ff) =
      c.opcode.set side.field (operand.value.setWidth 32) := by
    apply Opcode.set_congr
    have hwidth : side.field.width = 9 := by cases side <;> rfl
    have hmask : (0x1ff : Long).toNat = 2 ^ 9 - 1 := rfl
    rw [hwidth, BitVec.toNat_and, hmask, Nat.and_two_pow_sub_one_eq_mod, Nat.mod_mod]
  unfold immediate Operand.upper?
  simp only [himmediate, true_and]
  by_cases hwide : operand.augmented = true ∨ 0x1ff < operand.value.toNat
  · have hneeds : (operand.augmented || decide (fieldMax < operand.value.toNat)) = true := by
      rwa [Bool.or_eq_true, decide_eq_true_eq]
    rw [if_pos hneeds, if_pos hwide, ← hlow]
    rfl
  · have hneeds : ¬ (operand.augmented || decide (fieldMax < operand.value.toNat)) = true := by
      rwa [Bool.or_eq_true, decide_eq_true_eq]
    rw [if_neg hneeds, if_neg hwide]
    rfl

theorem mark_of_ne_none {place : ImmediateMark} (h : place ≠ .none) (text : String) :
    mark text place c = .ok () { c with opcode := place.write c.opcode } := by
  cases place with
  | none => exact absurd rfl h
  | immediate => rfl
  | zero => rfl

theorem putDestination_of_fits {place : ImmediateMark} (h : operand.Fits place) (text : String) :
    putDestination place operand text c = .ok () (c.put (.dst place) operand) := by
  unfold Operand.Fits at h
  unfold putDestination Cursor.put Slot.write
  cases himmediate : operand.immediate with
  | true =>
    rw [himmediate, if_pos rfl] at h
    rw [if_pos rfl, bind_of_ok (mark_of_ne_none h text),
      bind_of_ok (immediate_of_immediate .dst himmediate)]
    rfl
  | false =>
    rw [himmediate, if_neg Bool.false_ne_true] at h
    rw [if_neg Bool.false_ne_true, register_of_fits h]
    simp only [Bool.false_eq_true, false_and, if_false]
    rfl

theorem putSource_of_fits (h : operand.Fits .immediate) (pointer : Bool) :
    putSource operand c = .ok () (c.put (.src pointer) operand) := by
  unfold Operand.Fits at h
  unfold putSource Cursor.put Slot.write
  cases himmediate : operand.immediate with
  | true =>
    have hmark : setField .immediate 1 c = .ok () { c with opcode := c.opcode.set .immediate 1 } :=
      rfl
    rw [if_pos rfl, bind_of_ok hmark, bind_of_ok (immediate_of_immediate .src himmediate)]
    rfl
  | false =>
    rw [himmediate, if_neg Bool.false_ne_true] at h
    rw [if_neg Bool.false_ne_true, register_of_fits h]
    simp only [Bool.false_eq_true, false_and, if_false]
    rfl

/-! ## Operands one by one -/

variable {text : OperandText} {rest : List Word} {t : SymbolTable}

theorem dst_of_receives {mark : ImmediateMark}
    (htake : OperandText.take? c.words = some (text, rest))
    (h : (Slot.dst mark).Receives ctx c.symbols text.text operand t) :
    dst ctx mark c =
      .ok text (Cursor.put { c with words := rest, symbols := t } (.dst mark) operand) := by
  cases h with
  | value hevaluated _ hfits =>
    unfold dst
    rw [bind_of_ok (value_of_ok htake hevaluated)]
    dsimp only
    rw [bind_of_ok (putDestination_of_fits hfits text.text)]
    rfl

theorem src_of_receives (htake : OperandText.take? c.words = some (text, rest))
    (h : (Slot.src false).Receives ctx c.symbols text.text operand t) :
    src ctx c =
      .ok text (Cursor.put { c with words := rest, symbols := t } (.src false) operand) := by
  cases h with
  | value hevaluated _ hfits =>
    unfold src
    rw [bind_of_ok (value_of_ok htake hevaluated)]
    dsimp only
    rw [bind_of_ok (putSource_of_fits hfits false)]
    rfl

theorem source_of_receives {pointer : Bool}
    (htake : OperandText.take? c.words = some (text, rest))
    (h : (Slot.src pointer).Receives ctx c.symbols text.text operand t) (hc : c.augs = none) :
    source ctx pointer c =
      .ok text (Cursor.put { c with words := rest, symbols := t } (.src pointer) operand) := by
  cases pointer with
  | false => exact src_of_receives htake h
  | true =>
    show srcOrPointer ctx c = _
    unfold srcOrPointer
    rw [bind_of_ok (operand_of_take htake)]
    cases h with
    | value hevaluated hnone hfits =>
      -- What is no pointer expression is read like any other source.
      have hfield : pointerField? ctx text.text { c with words := rest } =
          .ok none { c with words := rest } := by
        unfold pointerField?
        rw [hnone rfl]
      have hevaluate : evaluate ctx text.text { c with words := rest } =
          .ok operand { c with words := rest, symbols := t } := evaluate_of_ok hevaluated
      have hput : putPointerOr ctx text.text none { c with words := rest } =
          .ok () (Cursor.put { c with words := rest, symbols := t } (.src true) operand) :=
        (bind_of_ok hevaluate).trans (putSource_of_fits hfits true)
      rw [bind_of_ok hfield, bind_of_ok hput]
      rfl
    | @pointer _ p hparsed hbare =>
      have hfield : pointerField? ctx text.text { c with words := rest } =
          .ok (some (p.field p.move.unit)) { c with words := rest } := by
        unfold pointerField? Pointer.encode
        rw [hparsed]
        dsimp only
        rw [hbare]
        rfl
      rw [bind_of_ok hfield, @Cursor.put_pointer { c with words := rest } p hc]
      rfl

theorem requireImmediate_of_ok {part : Part}
    (htake : OperandText.take? c.words = some (text, rest))
    (h : Operand.evaluate ctx text.text c.symbols = .ok operand t)
    (himmediate : operand.immediate = true) :
    requireImmediate ctx part c = .ok operand { c with words := rest, symbols := t } := by
  unfold requireImmediate
  rw [bind_of_ok (value_of_ok htake h)]
  dsimp only
  rw [himmediate]
  rfl

theorem laneIndex_of_receives {l : Lane}
    (htake : OperandText.take? c.words = some (text, rest))
    (h : (Slot.index l).Receives ctx c.symbols text.text operand t) :
    laneIndex ctx l c =
      .ok () (Cursor.put { c with words := rest, symbols := t } (.index l) operand) := by
  cases h with
  | value hevaluated _ hfits =>
    obtain ⟨himmediate, hmax⟩ := hfits
    have hrange : (Fault.raiseIf (l.max < operand.value.toNat) (.indexRange l operand.value) :
        Encoder Unit) { c with words := rest, symbols := t } =
        .ok () { c with words := rest, symbols := t } :=
      raiseIf_eq_ok_iff.mpr ⟨Nat.not_lt.mpr hmax, rfl⟩
    unfold laneIndex
    rw [bind_of_ok (requireImmediate_of_ok htake hevaluated himmediate), bind_of_ok hrange]
    unfold Cursor.put
    rw [if_neg (by simp [Slot.side?]), if_neg (by simp [Slot.side?])]
    rfl

theorem augment_of_constant (htake : OperandText.take? c.words = some (text, rest))
    (h : Operand.Constant text.text operand) (himmediate : operand.immediate = true) :
    augment ctx c = .ok () { c with
      words := rest, opcode := c.opcode.set .augment ((operand.value >>> 9).setWidth 32) } := by
  unfold augment
  rw [bind_of_ok (requireImmediate_of_ok htake (h ctx c.symbols) himmediate)]
  rfl

theorem expectComma_of_comma (h : text.comma = true) : expectComma text c = .ok () c := by
  unfold expectComma
  rw [if_pos h]
  rfl

/-- A register is written, and what follows it is the source. -/
theorem dstSrc_of_register {pointer : Bool}
    (htake : OperandText.take? c.words = some (text, rest))
    (h : (Slot.dst .none).Receives ctx c.symbols text.text operand t) :
    operand.immediate = false ∧ dstSrc ctx pointer c =
      sourceAfter ctx pointer operand.value text
        (Cursor.put { c with words := rest, symbols := t } (.dst .none) operand) := by
  cases h with
  | value hevaluated _ hfits =>
    -- No mark is left for an immediate destination here.
    have hregister : operand.immediate = false := (Operand.Fits.register hfits).1
    have hput := @putDestination_of_fits { c with words := rest, symbols := t } operand .none hfits
      text.text
    rw [putDestination, if_neg (by simp [hregister])] at hput
    have hcheck : (Fault.raiseIf operand.immediate (.unexpectedImmediate text.text) :
        Encoder Unit) { c with words := rest, symbols := t } =
        .ok () { c with words := rest, symbols := t } :=
      raiseIf_eq_ok_iff.mpr ⟨by simp [hregister], rfl⟩
    refine ⟨hregister, ?_⟩
    unfold dstSrc
    rw [bind_of_ok (value_of_ok htake hevaluated)]
    dsimp only
    rw [bind_of_ok hcheck, bind_of_ok hput]

/-- A register and a source with a comma between them. -/
theorem dstSrc_of_receives {pointer : Bool} {text' : OperandText} {rest' : List Word}
    {operand' : Operand} {t' : SymbolTable}
    (htake : OperandText.take? c.words = some (text, rest)) (hcomma : text.comma = true)
    (htake' : OperandText.take? rest = some (text', rest'))
    (h : (Slot.dst .none).Receives ctx c.symbols text.text operand t)
    (h' : (Slot.src pointer).Receives ctx t text'.text operand' t') (hc : c.augs = none) :
    dstSrc ctx pointer c = .ok ()
      (({ c with words := rest', symbols := t' } : Cursor).fill
        [(.dst .none, operand), (.src pointer, operand')]) := by
  obtain ⟨hregister, hdst⟩ := @dstSrc_of_register _ c operand _ rest t pointer htake h
  have haugs : (Cursor.put { c with words := rest, symbols := t } (.dst .none) operand).augs =
      none := by
    unfold Cursor.put
    rw [hregister]
    simpa using hc
  rw [hdst, sourceAfter, if_pos hcomma, bind_of_ok (source_of_receives htake' h' haugs)]
  rfl

end Encoder

/-! ## The word behind the operands -/

namespace Shape

/-- The rule for the flag word that may follow the operands. -/
def rule? : Shape → Option FlagRule
  | dst _ rule => rule
  | dstSrc _ rule => rule
  | both _ rule => rule
  | jump => some .wcz
  | callD => some .wcz
  | getRnd => some .wcz
  | _ => none

/-- The field to which the flag word of a test adds its variant. -/
def tested? : Shape → Option Field
  | testPin => some .source
  | testBit => some .operation
  | _ => none

/-- The flag word, or none, may stand behind the operands. -/
def allows (shape : Shape) (flag : Option Flag) : Bool :=
  if shape.tested?.isSome then flag.any (·.testVariant?.isSome)
  else flag.all fun f => shape.rule?.any fun rule => (rule.updates? f).isSome

end Shape

/-- The flag word at the end of a line. -/
def Word.ofFlag (flag : Option (String × Flag)) : List Word :=
  flag.toList.map fun f => .ofText f.1 0 false

theorem Word.ofFlag_not_plain {flag : Option (String × Flag)}
    (hflag : ∀ f ∈ flag, Keyword.find? f.1 = some (.flag f.2)) :
    ∀ word ∈ (Word.ofFlag flag).head?, word.token ≠ .plain := by
  intro word hword
  cases flag with
  | none => cases hword
  | some f =>
    obtain rfl := Option.some.inj hword
    rw [Word.token_ofText, Token.ofText_of_find? (hflag f rfl)]
    exact Token.noConfusion

namespace Encoder

/-- Reads what stands behind the operands of a shape. -/
def ending (shape : Shape) : Encoder Unit :=
  match shape.tested? with
  | some f => do
    testFlag f
    finish
  | none => flags shape.rule?

theorem setFlags_eq (carry zero : Bool) : ∃ mark : Opcode → Opcode, ∀ c : Cursor,
    setFlags carry zero c = .ok () { c with opcode := mark c.opcode } := by
  cases carry <;> cases zero
  · exact ⟨id, fun c => rfl⟩
  · exact ⟨fun op => op.set .zero 1, fun c => rfl⟩
  · exact ⟨fun op => op.set .carry 1, fun c => rfl⟩
  · exact ⟨fun op => (op.set .carry 1).set .zero 1, fun c => rfl⟩

theorem skip_of_words {c : Cursor} {word : Word} {words : List Word} (h : c.words = word :: words)
    (opcode : Opcode) : skip { c with opcode } = .ok () { c with words, opcode } := by
  unfold skip
  rw [modify_eq_ok_iff, h]
  rfl

theorem finish_of_nil {c : Cursor} (h : c.words = []) : finish c = .ok () c := by
  have hget : (get : Encoder Cursor) c = .ok c c := rfl
  unfold finish
  rw [bind_of_ok hget]
  exact raiseIf_eq_ok_iff.mpr ⟨not_not.mpr h, rfl⟩

theorem flags_of_nil (rule : Option FlagRule) {c : Cursor} (h : c.words = []) :
    flags rule c = .ok () c := by
  cases rule with
  | none => exact finish_of_nil h
  | some rule =>
    have hpeek : peek? c = .ok c.words.head? c := rfl
    refine (bind_of_ok hpeek).trans ?_
    rw [h]
    exact finish_of_nil h

theorem flags_of_allowed {rule : FlagRule} {word : Word} {flag : Flag}
    (htoken : word.token = .keyword (.flag flag)) (h : (rule.updates? flag).isSome = true) :
    ∃ mark : Opcode → Opcode, ∀ c : Cursor, c.words = [word] →
      flags (some rule) c = .ok () { c with words := [], opcode := mark c.opcode } := by
  obtain ⟨⟨carry, zero⟩, hupdates⟩ := Option.isSome_iff_exists.mp h
  obtain ⟨mark, hmark⟩ := setFlags_eq carry zero
  refine ⟨mark, fun c hwords => ?_⟩
  have hpeek : peek? c = .ok c.words.head? c := rfl
  refine (bind_of_ok hpeek).trans ?_
  rw [hwords, List.head?_cons]
  dsimp only
  rw [htoken]
  dsimp only
  rw [hupdates]
  dsimp only
  rw [bind_of_ok (hmark c), bind_of_ok (skip_of_words hwords _)]
  exact finish_of_nil rfl

theorem testFlag_of_allowed (f : Field) {word : Word} {flag : Flag}
    (htoken : word.token = .keyword (.flag flag)) (h : flag.testVariant?.isSome = true) :
    ∃ mark : Opcode → Opcode, ∀ c : Cursor, c.words = [word] →
      (do testFlag f; finish : Encoder Unit) c =
        .ok () { c with words := [], opcode := mark c.opcode } := by
  obtain ⟨⟨carry, variant⟩, hvariant⟩ := Option.isSome_iff_exists.mp h
  obtain ⟨mark, hmark⟩ := setFlags_eq carry (!carry)
  refine ⟨fun op => (mark op).add f variant, fun c hwords => ?_⟩
  have hpeek : peek? c = .ok c.words.head? c := rfl
  have htest : testFlag f c =
      .ok () { c with words := [], opcode := (mark c.opcode).add f variant } := by
    refine (bind_of_ok hpeek).trans ?_
    rw [hwords, List.head?_cons]
    dsimp only
    rw [htoken]
    dsimp only
    rw [hvariant]
    dsimp only
    rw [bind_of_ok (hmark c), bind_of_ok (skip_of_words hwords _)]
    rfl
  rw [bind_of_ok htest]
  exact finish_of_nil rfl

/-- A flag word that is allowed changes the instruction, and nothing else. -/
theorem ending_of_allows {shape : Shape} {flag : Option (String × Flag)}
    (hflag : ∀ f ∈ flag, Keyword.find? f.1 = some (.flag f.2))
    (h : shape.allows (flag.map Prod.snd) = true) :
    ∃ mark : Opcode → Opcode, ∀ c : Cursor, c.words = Word.ofFlag flag →
      ending shape c = .ok () { c with words := [], opcode := mark c.opcode } := by
  have htoken : ∀ f ∈ flag, (Word.ofText f.1 0 false).token = .keyword (.flag f.2) := by
    intro f hf
    rw [Word.token_ofText, Token.ofText_of_find? (hflag f hf)]
  unfold Shape.allows at h
  unfold ending
  -- Tests need a flag word, and other shapes take one that their rule has.
  cases flag with
  | none =>
    cases htested : shape.tested? with
    | some f =>
      rw [htested] at h
      cases h
    | none =>
      refine ⟨id, fun c hwords => ?_⟩
      show flags shape.rule? c = _
      have hend : c.words = [] := hwords
      rw [id_eq, flags_of_nil shape.rule? hend, ← hend]
  | some f =>
    cases htested : shape.tested? with
    | some field =>
      rw [htested] at h
      exact testFlag_of_allowed field (htoken f rfl) h
    | none =>
      rw [htested] at h
      cases hrule : shape.rule? with
      | none =>
        rw [hrule] at h
        cases h
      | some rule =>
        rw [hrule] at h
        exact flags_of_allowed (htoken f rfl) h

end Encoder

/-! ## Instructions -/

/-- The words of operands, with commas between them. -/
def Word.separated : List String → List Word
  | [] => []
  | [text] => [.ofText text 0 false]
  | text :: text' :: texts => .ofText text 0 true :: separated (text' :: texts)

/-- A word in front is an operand of its own, if a comma or no plain word follows. -/
theorem OperandText.take?_of_word {text : String} (htext : (Token.ofText text).isFlag = false)
    {comma : Bool} {rest : List Word}
    (hrest : comma = true ∨ ∀ word ∈ rest.head?, word.token ≠ .plain) :
    take? (.ofText text 0 comma :: rest) = some (⟨text, comma⟩, rest) := by
  -- Only a plain word can go on with an operand, and none can behind a comma.
  have hextend : extend ⟨text, comma⟩ rest = (⟨text, comma⟩, rest) := by
    cases rest with
    | nil => rfl
    | cons word words =>
      rw [extend]
      refine if_neg fun hjoins => ?_
      rw [Bool.and_eq_true, joins, Bool.and_eq_true, beq_iff_eq] at hjoins
      rcases hrest with rfl | hplain
      · simp at hjoins
      · exact hplain word rfl hjoins.2.1
  have hflag : ¬ (Word.ofText text 0 comma).token.isFlag = true := by
    rw [Bool.not_eq_true, Word.token_ofText]
    exact htext
  rw [take?, if_neg hflag]
  exact congrArg some hextend

/-- Operands are taken from words one after the other, with a comma behind each but the last. -/
inductive OperandText.InRow (rest : List Word) : List Word → List String → Prop where
  | last {words : List Word} {text : String}
      (taken : take? words = some (⟨text, false⟩, rest)) : InRow rest words [text]
  | next {words words' : List Word} {text text' : String} {texts : List String}
      (taken : take? words = some (⟨text, true⟩, words'))
      (more : InRow rest words' (text' :: texts)) : InRow rest words (text :: text' :: texts)

theorem OperandText.inRow_separated {texts : List String} (hne : texts ≠ [])
    (h : ∀ text ∈ texts, (Token.ofText text).isFlag = false) {rest : List Word}
    (hrest : ∀ word ∈ rest.head?, word.token ≠ .plain) :
    InRow rest (Word.separated texts ++ rest) texts := by
  induction texts with
  | nil => exact absurd rfl hne
  | cons text texts ih =>
    have htext := h text List.mem_cons_self
    cases texts with
    | nil => exact .last (take?_of_word htext (.inr hrest))
    | cons text' texts =>
      exact .next (take?_of_word htext (.inl rfl))
        (ih (List.cons_ne_nil _ _) fun other hother => h other (List.mem_cons_of_mem _ hother))

namespace Instruction

open Encoder

/-- Operands go to their slots one after the other, and then what stands behind them is read. -/
theorem operands_of_receiveAll {shape : Shape} (hslots : shape.slots ≠ []) {ctx : Context}
    {c : Cursor} {entries : List (String × Operand)} {t : SymbolTable}
    (h : Slot.ReceiveAll ctx c.symbols shape.slots entries t) {rest : List Word}
    (hrow : OperandText.InRow rest c.words (entries.map Prod.fst)) (hc : c.augs = none) :
    operands ctx shape c = ending shape
      (Cursor.fill { c with words := rest, symbols := t }
        (shape.slots.zip (entries.map Prod.snd))) := by
  obtain ⟨words, symbols, opcode, augd, augs⟩ := c
  obtain rfl : augs = none := hc
  -- The slots of a shape are in the order in which its operands are read.
  cases shape with
  | dst mark rule =>
    obtain _ | ⟨h₁, _ | _⟩ := h
    obtain ⟨t₁⟩ | _ := hrow
    exact bind_of_ok (dst_of_receives t₁ h₁)
  | testPin =>
    obtain _ | ⟨h₁, _ | _⟩ := h
    obtain ⟨t₁⟩ | _ := hrow
    exact bind_of_ok (dst_of_receives t₁ h₁)
  | src =>
    obtain _ | ⟨h₁, _ | _⟩ := h
    obtain ⟨t₁⟩ | _ := hrow
    exact bind_of_ok (src_of_receives t₁ h₁)
  | dstSrc pointer rule =>
    obtain _ | ⟨h₁, _ | ⟨h₂, _ | _⟩⟩ := h
    obtain _ | ⟨t₁, ⟨t₂⟩ | _⟩ := hrow
    exact bind_of_ok (dstSrc_of_receives t₁ rfl t₂ h₁ h₂ rfl)
  | testBit =>
    obtain _ | ⟨h₁, _ | ⟨h₂, _ | _⟩⟩ := h
    obtain _ | ⟨t₁, ⟨t₂⟩ | _⟩ := hrow
    exact bind_of_ok (dstSrc_of_receives t₁ rfl t₂ h₁ h₂ rfl)
  | both pointer rule =>
    obtain _ | ⟨h₁, _ | ⟨h₂, _ | _⟩⟩ := h
    obtain _ | ⟨t₁, ⟨t₂⟩ | _⟩ := hrow
    refine (bind_of_ok (dst_of_receives t₁ h₁)).trans ?_
    rw [bind_of_ok (expectComma_of_comma rfl),
      bind_of_ok (source_of_receives t₂ h₂ (by simp [Cursor.put, Slot.side?]))]
    rfl
  | lane l =>
    obtain _ | ⟨h₁, _ | ⟨h₂, _ | ⟨h₃, _ | _⟩⟩⟩ := h
    obtain _ | ⟨t₁, _ | ⟨t₂, ⟨t₃⟩ | _⟩⟩ := hrow
    refine (bind_of_ok (dst_of_receives t₁ h₁)).trans ?_
    rw [bind_of_ok (expectComma_of_comma rfl), bind_of_ok (src_of_receives t₂ h₂),
      bind_of_ok (expectComma_of_comma rfl), bind_of_ok (laneIndex_of_receives t₃ h₃)]
    rfl
  | alter =>
    obtain _ | ⟨h₁, _ | ⟨h₂, _ | _⟩⟩ := h
    obtain _ | ⟨t₁, ⟨t₂⟩ | _⟩ := hrow
    refine (bind_of_ok (dst_of_receives t₁ h₁)).trans ?_
    rw [bind_of_ok (expectComma_of_comma rfl), bind_of_ok (src_of_receives t₂ h₂)]
    rfl
  | jump =>
    obtain _ | ⟨h₁, _ | _⟩ := h
    obtain ⟨t₁⟩ | _ := hrow
    exact bind_of_ok (dst_of_receives t₁ h₁)
  | callD =>
    obtain _ | ⟨h₁, _ | ⟨h₂, _ | _⟩⟩ := h
    obtain _ | ⟨t₁, ⟨t₂⟩ | _⟩ := hrow
    exact bind_of_ok (dstSrc_of_receives t₁ rfl t₂ h₁ h₂ rfl)
  | getRnd =>
    obtain _ | ⟨h₁, _ | _⟩ := h
    obtain ⟨t₁⟩ | _ := hrow
    exact bind_of_ok (dst_of_receives t₁ h₁)
  | _ => exact absurd rfl hslots

/-- The words behind the mnemonic of an instruction. -/
def operandWords (texts : List String) (flag : Option (String × Flag)) : List Word :=
  Word.separated texts ++ Word.ofFlag flag

/-- An instruction is encoded to what its operands leave. -/
theorem encode_of_operands {ctx : Context} {mnemonic : String} {form selected : Form}
    {cond : Condition} {words : List Word} {t : SymbolTable} {c : Cursor}
    (hselected : selectForm mnemonic form words = selected)
    (h : operands ctx selected.shape
      { words, symbols := t, opcode := .ofBits selected.bits cond } = .ok () c) :
    encode ctx mnemonic form cond words t = .ok
      { augd := c.augd.map (augmentation augdBits cond),
        augs := c.augs.map (augmentation augsBits cond), word := c.opcode.word } c.symbols := by
  have hrun : (operands ctx selected.shape).run words (.ofBits selected.bits cond) t =
      .ok ((), c) c.symbols := by
    unfold Encoder.run
    rw [h]
  unfold encode
  rw [hselected]
  dsimp only
  rw [bind_of_ok hrun]
  rfl

/-- An instruction is encoded to what its slots hold, with the flag word, which changes the
instruction alone. -/
theorem encode_of_receiveAll {ctx : Context} {mnemonic : String} {form selected : Form}
    (cond : Condition) {flag : Option (String × Flag)} {mark : Opcode → Opcode}
    (hflag : ∀ f ∈ flag, Keyword.find? f.1 = some (.flag f.2))
    (hmark : ∀ c : Cursor, c.words = Word.ofFlag flag →
      ending selected.shape c = .ok () { c with words := [], opcode := mark c.opcode })
    (hslots : selected.shape.slots ≠ []) {entries : List (String × Operand)} {t t' : SymbolTable}
    (h : Slot.ReceiveAll ctx t selected.shape.slots entries t')
    (hwords : ∀ entry ∈ entries, (Token.ofText entry.1).isFlag = false)
    (hselected : selectForm mnemonic form (operandWords (entries.map Prod.fst) flag) = selected) :
    let c := Cursor.fill
      { words := Word.ofFlag flag, symbols := t', opcode := .ofBits selected.bits cond }
      (selected.shape.slots.zip (entries.map Prod.snd))
    encode ctx mnemonic form cond (operandWords (entries.map Prod.fst) flag) t = .ok
      { augd := c.augd.map (augmentation augdBits cond),
        augs := c.augs.map (augmentation augsBits cond),
        word := (mark c.opcode).word } t' := by
  intro c
  have hrest : ∀ word ∈ (Word.ofFlag flag).head?, word.token ≠ .plain :=
    Word.ofFlag_not_plain hflag
  have hne : entries.map Prod.fst ≠ [] := by
    rw [ne_eq, List.map_eq_nil_iff]
    rintro rfl
    cases hshape : selected.shape.slots with
    | nil => exact hslots hshape
    | cons slot slots =>
      rw [hshape] at h
      cases h
  -- The operands stand in a row, up to the flag word.
  have hrow := OperandText.inRow_separated hne (fun text htext => by
    obtain ⟨entry, hentry, rfl⟩ := List.mem_map.mp htext
    exact hwords entry hentry) hrest
  have hoperands : operands ctx selected.shape
      { words := operandWords (entries.map Prod.fst) flag, symbols := t,
        opcode := .ofBits selected.bits cond } =
      .ok () { c with words := [], opcode := mark c.opcode } := by
    rw [operands_of_receiveAll hslots h hrow rfl]
    exact hmark c (Cursor.fill_words _ _)
  have hsymbols : c.symbols = t' := Cursor.fill_symbols _ _
  rw [encode_of_operands hselected hoperands, hsymbols]

/-- An instruction with constants is encoded to what its slots hold, with the flag word, which
changes the instruction alone. -/
theorem encode_of_accepted {mnemonic : String} {form selected : Form} (cond : Condition)
    {flag : Option (String × Flag)} {mark : Opcode → Opcode}
    (hflag : ∀ f ∈ flag, Keyword.find? f.1 = some (.flag f.2))
    (hmark : ∀ c : Cursor, c.words = Word.ofFlag flag →
      ending selected.shape c = .ok () { c with words := [], opcode := mark c.opcode })
    (hslots : selected.shape.slots ≠ []) {entries : List (String × Operand)}
    (h : List.Forall₂ (fun slot entry => Slot.Accepts slot entry.1 entry.2) selected.shape.slots
      entries)
    (hselected : selectForm mnemonic form (operandWords (entries.map Prod.fst) flag) = selected)
    (ctx : Context) (t : SymbolTable) :
    let c := Cursor.fill
      { words := Word.ofFlag flag, symbols := t, opcode := .ofBits selected.bits cond }
      (selected.shape.slots.zip (entries.map Prod.snd))
    encode ctx mnemonic form cond (operandWords (entries.map Prod.fst) flag) t = .ok
      { augd := c.augd.map (augmentation augdBits cond),
        augs := c.augs.map (augmentation augsBits cond),
        word := (mark c.opcode).word } t :=
  encode_of_receiveAll cond hflag hmark hslots (Slot.receiveAll_of_accepted h ctx t)
    (Slot.isOperand_of_accepted h) hselected

end Instruction

end PropellerAsm
