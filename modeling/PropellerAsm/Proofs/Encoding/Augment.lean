import PropellerAsm.Proofs.Encoding.Constant

/-!
# Wide immediates and augmentations

An immediate that is written with two marks is encoded with an augmentation in front.  The same
augmentation can be written as an instruction of its own, before an instruction that has only the
low nine bits of the immediate.  Here both ways are encoded, and the longs are the same.
-/
namespace PropellerAsm

/-! ## Operands -/

/-- An operand as it is written. -/
inductive WrittenOperand where
  /-- A constant that needs no augmentation. -/
  | short (text : String) (operand : Operand)
  /-- An immediate in hexadecimal with two marks. -/
  | wide (value : Quad)

namespace WrittenOperand

/-- The operand with its whole value. -/
def whole : WrittenOperand → String × Operand
  | short text operand => (text, operand)
  | wide value =>
    (Operand.hexText true value, { immediate := true, augmented := true, value })

/-- The operand behind an augmentation, which leaves it the low nine bits. -/
def low : WrittenOperand → String × Operand
  | short text operand => (text, operand)
  | wide value => (Operand.hexText false (value % 512), { immediate := true, value := value % 512 })

/-- The value that an augmentation goes with. -/
def value? : WrittenOperand → Option Quad
  | short _ _ => none
  | wide value => some value

end WrittenOperand

/-- The bits of a value that its augmentation holds. -/
def Quad.upper (value : Quad) : Long :=
  (value >>> 9).setWidth 32

namespace Slot

/-- The operand may be written for the slot. -/
def Takes (slot : Slot) : WrittenOperand → Prop
  | .short text operand => slot.Accepts text operand ∧ operand.upper? = none
  | .wide value => slot.Fits { immediate := true, augmented := true, value }

example : (dst .none).Takes (.short "$1f0" { value := 0x1f0 }) :=
  ⟨⟨Operand.constant_of_parse (by decide +kernel), by decide +kernel, nofun,
    by simp [Fits, Operand.Fits]⟩, rfl⟩

variable {slot : Slot} {o : WrittenOperand}

/-- A marked text is a constant and nothing else. -/
theorem accepts_hexText {augmented : Bool} {value : Quad}
    (h : slot.Fits { immediate := true, augmented, value }) :
    slot.Accepts (Operand.hexText augmented value) { immediate := true, augmented, value } where
  constant := Operand.constant_hexText augmented value
  isOperand := by
    rw [Token.ofText_of_mark (Operand.head?_hexText augmented value)]
    rfl
  notPointer _ := Pointer.parse?_of_mark (Operand.head?_hexText augmented value)
  fits := h

theorem Takes.whole (h : slot.Takes o) : slot.Accepts o.whole.1 o.whole.2 := by
  cases o with
  | short text operand => exact h.1
  | wide value => exact accepts_hexText h

theorem Takes.low (h : slot.Takes o) : slot.Accepts o.low.1 o.low.2 := by
  cases o with
  | short text operand => exact h.1
  | wide value =>
    refine accepts_hexText ?_
    cases slot with
    | dst mark => exact h
    | src pointer => exact h
    | index l =>
      refine ⟨rfl, ?_⟩
      show (value % 512).toNat ≤ l.max
      rw [BitVec.toNat_umod]
      exact Nat.le_trans (Nat.mod_le _ _) h.2

/-- The low bits are all that the instruction itself holds. -/
theorem write_low (slot : Slot) (o : WrittenOperand) (op : Opcode) :
    slot.write o.low.2 op = slot.write o.whole.2 op := by
  -- No field of a slot is wider than the nine bits that stay.
  have hset : ∀ (op : Opcode) (f : Field) (value : Quad), f.width ≤ 9 →
      op.set f ((value % 512).setWidth 32) = op.set f (value.setWidth 32) := by
    intro op f value hwidth
    apply Opcode.set_congr
    have hlow : 2 ^ f.width ∣ (512 : Quad).toNat := Nat.pow_dvd_pow 2 hwidth
    have hlong : 2 ^ f.width ∣ 2 ^ 32 := Nat.pow_dvd_pow 2 (Nat.le_trans hwidth (by decide))
    rw [BitVec.toNat_setWidth, BitVec.toNat_setWidth, BitVec.toNat_umod,
      Nat.mod_mod_of_dvd _ hlong, Nat.mod_mod_of_dvd _ hlong, Nat.mod_mod_of_dvd _ hlow]
  cases o with
  | short text operand => rfl
  | wide value =>
    cases slot with
    | dst mark => exact hset _ _ value (by decide)
    | src pointer => exact hset _ _ value (by decide)
    | index l => exact hset _ _ value (by cases l <;> decide)

theorem upper?_low (h : slot.Takes o) : o.low.2.upper? = none := by
  cases o with
  | short text operand => exact h.2
  | wide value =>
    have hlt : (value % 512).toNat < 512 := by
      rw [BitVec.toNat_umod]
      exact Nat.mod_lt _ (by decide)
    refine if_neg ?_
    rintro ⟨-, haugmented | hwide⟩
    · cases haugmented
    · exact absurd hlt (Nat.not_lt.mpr hwide)

theorem upper?_whole (h : slot.Takes o) : o.whole.2.upper? = o.value?.map Quad.upper := by
  cases o with
  | short text operand => exact h.2
  | wide value => rfl

end Slot

/-! ## Instructions -/

namespace Side

/-- The mnemonic of the augmentation of a side. -/
def mnemonic : Side → String
  | dst => "augd"
  | src => "augs"

/-- The form of the augmentation of a side. -/
def form : Side → Form
  | dst => ⟨"11111NN NNN", .augment⟩
  | src => ⟨"11110NN NNN", .augment⟩

theorem find?_mnemonic (side : Side) :
    Keyword.find? side.mnemonic = some (.instruction side.form) := by
  cases side with
  | dst => decide +kernel
  | src => decide +kernel

/-- The fixed bits of the augmentation of a side. -/
def augmentBits : Side → Long
  | dst => Instruction.augdBits
  | src => Instruction.augsBits

theorem bits_form (side : Side) : side.form.bits = side.augmentBits := by
  cases side with
  | dst => decide +kernel
  | src => decide +kernel

/-- The augmentation of a side with the upper bits of a value. -/
def augmentation (side : Side) (cond : Condition) (value : Quad) : Long :=
  Instruction.augmentation side.augmentBits cond value.upper

end Side

/-- An instruction as it is written. -/
structure Written where
  /-- The word for the condition, and its code. -/
  condition : Option (String × Condition) := none
  mnemonic : String
  form : Form
  operands : List WrittenOperand
  /-- The word for the flags behind the operands. -/
  flag : Option (String × Flag) := none

namespace Written

open Instruction

/-- The code of the condition. -/
def cond (i : Written) : Condition :=
  i.condition.elim .always Prod.snd

/-- The words behind the mnemonic. -/
def wholeWords (i : Written) : List Word :=
  operandWords (i.operands.map (·.whole.1)) i.flag

/-- The words behind the mnemonic when augmentations stand before the instruction. -/
def lowWords (i : Written) : List Word :=
  operandWords (i.operands.map (·.low.1)) i.flag

/-- The form that the operands select. -/
def selected (i : Written) : Form :=
  selectForm i.mnemonic i.form i.wholeWords

/-- All words are what they should be, there is an operand for each slot, and the flag word is
allowed. -/
structure Valid (i : Written) : Prop where
  condition : ∀ c ∈ i.condition, Keyword.find? c.1 = some (.condition c.2)
  mnemonic : Keyword.find? i.mnemonic = some (.instruction i.form)
  flag : ∀ f ∈ i.flag, Keyword.find? f.1 = some (.flag f.2)
  operands_ne_nil : i.operands ≠ []
  operands : List.Forall₂ Slot.Takes i.selected.shape.slots i.operands
  allowed : i.selected.shape.allows (i.flag.map Prod.snd) = true

/-- Marked texts play the same part in the choice of the form. -/
theorem chosenAlike_of_mark {text text' : String} (h : text.toList.head? = some '#')
    (h' : text'.toList.head? = some '#') (comma : Bool) :
    ChosenAlike (.ofText text 0 comma) (.ofText text' 0 comma) where
  token := by
    rw [Word.token_ofText, Word.token_ofText, Token.ofText_of_mark h, Token.ofText_of_mark h']
  comma := rfl
  immediate := by
    show (text.toList.head? == some '#') = (text'.toList.head? == some '#')
    rw [h, h']

theorem chosenAlike_low (o : WrittenOperand) (comma : Bool) :
    ChosenAlike (.ofText o.low.1 0 comma) (.ofText o.whole.1 0 comma) := by
  cases o with
  | short text operand => exact ⟨rfl, rfl, rfl⟩
  | wide value =>
    exact chosenAlike_of_mark (Operand.head?_hexText false _) (Operand.head?_hexText true _) comma

theorem separated_low (os : List WrittenOperand) : List.Forall₂ ChosenAlike
    (Word.separated (os.map (·.low.1))) (Word.separated (os.map (·.whole.1))) := by
  induction os with
  | nil => exact .nil
  | cons o os ih =>
    cases os with
    | nil => exact .cons (chosenAlike_low o false) .nil
    | cons o' os => exact .cons (chosenAlike_low o true) ih

theorem selectForm_lowWords (i : Written) :
    selectForm i.mnemonic i.form i.lowWords = i.selected := by
  refine selectForm_alike (List.rel_append (separated_low i.operands) ?_) _ _
  exact List.forall₂_same.mpr fun _ _ => ⟨rfl, rfl, rfl⟩

end Written

/-! ## Augmentations -/

theorem Operand.upper?_of_register {operand : Operand} (h : operand.immediate = false) :
    operand.upper? = none := by
  unfold upper?
  rw [h]
  simp

theorem Shape.sides_nodup (shape : Shape) : (shape.slots.filterMap Slot.side?).Nodup := by
  cases shape with
  | lane l => exact (by decide : [Side.dst, Side.src].Nodup)
  | _ => simp [slots, Slot.side?]

/-- The value of the wide operand on a side, if there is one. -/
def wideOn (side : Side) (slots : List Slot) (os : List WrittenOperand) : Option Quad :=
  (slots.zip os).findSome? fun (slot, o) => if slot.side? = some side then o.value? else none

theorem wideOn_cons (side : Side) (slot : Slot) (slots : List Slot) (o : WrittenOperand)
    (os : List WrittenOperand) : wideOn side (slot :: slots) (o :: os) =
      (if slot.side? = some side then o.value? else none).or (wideOn side slots os) := by
  unfold wideOn
  rw [List.zip_cons_cons, List.findSome?_cons]
  dsimp only
  split
  · rename_i heq
    rw [heq]
    rfl
  · rename_i heq
    rw [heq]
    rfl

theorem wideOn_eq_none {side : Side} {slots : List Slot}
    (h : ∀ slot ∈ slots, slot.side? ≠ some side) (os : List WrittenOperand) :
    wideOn side slots os = none := by
  refine List.findSome?_eq_none_iff.mpr fun entry hentry => ?_
  exact if_neg (h entry.1 (List.of_mem_zip hentry).1)

namespace Cursor

variable {c : Cursor} {side : Side}

theorem augment_put (c : Cursor) (side : Side) (slot : Slot) (operand : Operand) :
    (c.put slot operand).augment side =
      if operand.immediate ∧ slot.side? = some side then operand.upper? else c.augment side := by
  cases side with
  | dst => rfl
  | src => rfl

/-- Where nothing has been left so far, an operand leaves its upper bits. -/
theorem augment_put_self {slot : Slot} (h : c.augment side = none)
    (hslot : slot.side? = some side) (operand : Operand) :
    (c.put slot operand).augment side = operand.upper? := by
  rw [augment_put, h, hslot]
  cases himmediate : operand.immediate with
  | true => simp
  | false => simp [Operand.upper?_of_register himmediate]

theorem augment_put_of_ne {slot : Slot} (hslot : slot.side? ≠ some side) (operand : Operand) :
    (c.put slot operand).augment side = c.augment side := by
  rw [augment_put, if_neg fun h => hslot h.2]

theorem augment_fill_of_ne {slots : List Slot} (h : ∀ slot ∈ slots, slot.side? ≠ some side)
    (operands : List Operand) :
    (c.fill (slots.zip operands)).augment side = c.augment side := by
  induction slots generalizing c operands with
  | nil => rfl
  | cons slot slots ih =>
    cases operands with
    | nil => rfl
    | cons operand operands =>
      have hrest := @ih (c.put slot operand) (fun s hs => h s (List.mem_cons_of_mem _ hs)) operands
      exact hrest.trans (augment_put_of_ne (h slot List.mem_cons_self) operand)

variable {slots : List Slot} {os : List WrittenOperand}

/-- Operands behind their augmentations need no others. -/
theorem augment_fill_low (h : List.Forall₂ Slot.Takes slots os) (hc : c.augment side = none) :
    (c.fill (slots.zip (os.map (·.low.2)))).augment side = none := by
  induction h generalizing c with
  | nil => exact hc
  | @cons slot o slots os ho _ ih =>
    refine @ih (c.put slot o.low.2) ?_
    rw [augment_put, hc, Slot.upper?_low ho, ite_self]

/-- The upper bits that are left on a side are those of its wide operand. -/
theorem augment_fill_whole (h : List.Forall₂ Slot.Takes slots os)
    (hnodup : (slots.filterMap Slot.side?).Nodup) (hc : c.augment side = none) :
    (c.fill (slots.zip (os.map (·.whole.2)))).augment side =
      (wideOn side slots os).map Quad.upper := by
  induction h generalizing c with
  | nil => exact hc
  | @cons slot o slots os ho _ ih =>
    show ((c.put slot o.whole.2).fill (slots.zip (os.map (·.whole.2)))).augment side = _
    rw [wideOn_cons]
    by_cases hside : slot.side? = some side
    · -- No other slot is on this side.
      have hothers : ∀ other ∈ slots, other.side? ≠ some side := by
        intro other hother heq
        rw [List.filterMap_cons_some hside] at hnodup
        exact (List.nodup_cons.mp hnodup).1 (List.mem_filterMap.mpr ⟨other, hother, heq⟩)
      rw [augment_fill_of_ne hothers, augment_put_self hc hside, Slot.upper?_whole ho,
        wideOn_eq_none hothers, if_pos hside, Option.or_none]
    · have hrest : (slots.filterMap Slot.side?).Nodup :=
        hnodup.sublist ((List.sublist_cons_self slot slots).filterMap _)
      rw [ih hrest ((augment_put_of_ne hside _).trans hc), if_neg hside, Option.none_or]

end Cursor

/-! ## Longs -/

namespace Written

open Instruction

/-- The sides with wide immediates, and their values, in the order of the longs. -/
def wide (i : Written) : List (Side × Quad) :=
  (wideOn .dst i.selected.shape.slots i.operands).toList.map (Prod.mk .dst) ++
    (wideOn .src i.selected.shape.slots i.operands).toList.map (Prod.mk .src)

theorem Valid.selected_slots_ne_nil {i : Written} (h : i.Valid) :
    i.selected.shape.slots ≠ [] := by
  intro hslots
  have hoperands := h.operands
  rw [hslots] at hoperands
  exact h.operands_ne_nil (List.forall₂_nil_left_iff.mp hoperands)

theorem foldl_write_low (slots : List Slot) (os : List WrittenOperand) (op : Opcode) :
    (slots.zip (os.map (·.low.2))).foldl (fun op o => o.1.write o.2 op) op =
      (slots.zip (os.map (·.whole.2))).foldl (fun op o => o.1.write o.2 op) op := by
  induction slots generalizing os op with
  | nil => rfl
  | cons slot slots ih =>
    cases os with
    | nil => rfl
    | cons o os =>
      rw [List.map_cons, List.map_cons, List.zip_cons_cons, List.zip_cons_cons, List.foldl_cons,
        List.foldl_cons, Slot.write_low, ih]

/-- An instruction is encoded from either reading of its operands. -/
theorem Valid.encode_of_reading {i : Written} (h : i.Valid) {mark : Opcode → Opcode}
    (hmark : ∀ c : Cursor, c.words = Word.ofFlag i.flag → Encoder.ending i.selected.shape c =
      .ok () { c with words := [], opcode := mark c.opcode })
    {f : WrittenOperand → String × Operand}
    (hf : ∀ slot o, Slot.Takes slot o → slot.Accepts (f o).1 (f o).2)
    (hselected : selectForm i.mnemonic i.form
      (operandWords (i.operands.map fun o => (f o).1) i.flag) = i.selected)
    (ctx : Context) (t : SymbolTable) :
    let c := Cursor.fill
      { words := Word.ofFlag i.flag, symbols := t, opcode := .ofBits i.selected.bits i.cond }
      (i.selected.shape.slots.zip (i.operands.map fun o => (f o).2))
    encode ctx i.mnemonic i.form i.cond (operandWords (i.operands.map fun o => (f o).1) i.flag) t =
      .ok { augd := c.augd.map (augmentation augdBits i.cond),
            augs := c.augs.map (augmentation augsBits i.cond),
            word := (mark c.opcode).word } t := by
  have haccepted : List.Forall₂ (fun slot entry => Slot.Accepts slot entry.1 entry.2)
      i.selected.shape.slots (i.operands.map f) :=
    List.forall₂_map_right_iff.mpr (h.operands.imp hf)
  have hresult := @encode_of_accepted i.mnemonic i.form i.selected i.cond i.flag mark h.flag hmark
    h.selected_slots_ne_nil _ haccepted
  rw [List.map_map, List.map_map] at hresult
  exact hresult hselected ctx t

/-- The instruction with its wide immediates has the augmentations before a long that is also the
only long of the instruction with the low bits. -/
theorem Valid.encode {i : Written} (h : i.Valid) : ∃ word,
    (∀ ctx t, ∃ e, encode ctx i.mnemonic i.form i.cond i.wholeWords t = .ok e t ∧
      e.longs = i.wide.map (fun a => a.1.augmentation i.cond a.2) ++ [word]) ∧
    ∀ ctx t, ∃ e, encode ctx i.mnemonic i.form i.cond i.lowWords t = .ok e t ∧
      e.longs = [word] := by
  obtain ⟨mark, hmark⟩ := Encoder.ending_of_allows h.flag h.allowed
  have hnone : ∀ (t : SymbolTable) (side : Side), Cursor.augment
      { words := Word.ofFlag i.flag, symbols := t, opcode := .ofBits i.selected.bits i.cond }
      side = none := by
    intro t side
    cases side with
    | dst => rfl
    | src => rfl
  -- Both readings fill the fields alike, and only the whole one leaves upper bits.
  refine ⟨(mark ((i.selected.shape.slots.zip (i.operands.map (·.whole.2))).foldl
    (fun op o => o.1.write o.2 op) (.ofBits i.selected.bits i.cond))).word, ?_, ?_⟩
  · intro ctx t
    refine ⟨_, h.encode_of_reading hmark (fun _ _ => Slot.Takes.whole) rfl ctx t, ?_⟩
    have haugment := fun side => Cursor.augment_fill_whole h.operands
      (Shape.sides_nodup i.selected.shape) (hnone t side)
    have haugd := haugment .dst
    have haugs := haugment .src
    unfold Cursor.augment at haugd haugs
    dsimp only at haugd haugs
    unfold Encoded.longs Encoded.augments Written.wide
    dsimp only
    rw [haugd, haugs, Cursor.fill_opcode]
    cases wideOn .dst i.selected.shape.slots i.operands <;>
      cases wideOn .src i.selected.shape.slots i.operands <;> rfl
  · intro ctx t
    have hreading := h.encode_of_reading hmark (fun _ _ => Slot.Takes.low) i.selectForm_lowWords
    refine ⟨_, hreading ctx t, ?_⟩
    have haugment := fun side => Cursor.augment_fill_low h.operands (hnone t side)
    have haugd := haugment .dst
    have haugs := haugment .src
    unfold Cursor.augment at haugd haugs
    dsimp only at haugd haugs
    unfold Encoded.longs Encoded.augments
    dsimp only
    rw [haugd, haugs, Cursor.fill_opcode, foldl_write_low]
    rfl

/-- An augmentation is an instruction of its own. -/
theorem encode_augmentation (side : Side) (cond : Condition) (value : Quad) (ctx : Context)
    (t : SymbolTable) : ∃ e, Instruction.encode ctx side.mnemonic side.form cond
        (operandWords [Operand.hexText false value] none) t = .ok e t ∧
      e.longs = [side.augmentation cond value] := by
  have hshape : side.form.shape = .augment := by
    cases side with
    | dst => rfl
    | src => rfl
  have hselected : selectForm side.mnemonic side.form
      (operandWords [Operand.hexText false value] none) = side.form := by
    unfold selectForm
    rw [hshape]
    rfl
  have hflag : (Token.ofText (Operand.hexText false value)).isFlag = false := by
    rw [Token.ofText_of_mark (Operand.head?_hexText false value)]
    rfl
  have htake : OperandText.take? (operandWords [Operand.hexText false value] none) =
      some (⟨Operand.hexText false value, false⟩, []) :=
    OperandText.take?_of_word hflag (.inr fun word hword => nomatch hword)
  have hconstant := Operand.constant_hexText false value
  -- From here on only the value of the text counts.
  generalize operandWords [Operand.hexText false value] none = words at hselected htake ⊢
  generalize Operand.hexText false value = text at htake hconstant
  have hoperands : Instruction.operands ctx side.form.shape
      { words, symbols := t, opcode := .ofBits side.form.bits cond } = .ok ()
      ⟨[], t, (Opcode.ofBits side.form.bits cond).set .augment value.upper, none, none⟩ := by
    have haugment := @Encoder.augment_of_constant ctx
      { words, symbols := t, opcode := .ofBits side.form.bits cond } _ ⟨text, false⟩ [] htake
      hconstant rfl
    rw [hshape]
    exact (bind_of_ok haugment).trans (Encoder.finish_of_nil rfl)
  refine ⟨_, encode_of_operands hselected hoperands, ?_⟩
  rw [Side.bits_form]
  rfl

end Written

end PropellerAsm
