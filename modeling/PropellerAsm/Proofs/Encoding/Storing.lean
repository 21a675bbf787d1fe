import PropellerAsm.Proofs.Encoding.Slot
import PropellerAsm.Proofs.Encoding.Uses

/-!
# Storing operands

What each encoder of an operand leaves in its slot: the low nine bits of the value in the field, the
mark of an immediate, and the upper bits for an augmentation if there is one.  Operands are stored
one after the other; a later one does not reach the slot of an earlier one, so that behind all of
them each slot still holds its own operand.
-/
namespace PropellerAsm

/-! ## Operands -/

namespace Operand

/-- The bits above its field that an operand leaves for an augmentation. -/
def upper? (operand : Operand) : Option Long :=
  if operand.immediate ∧ (operand.augmented ∨ 0x1ff < operand.value.toNat) then
    some ((operand.value >>> 9).setWidth 32)
  else none

theorem isSome_upper?_iff (operand : Operand) : operand.upper?.isSome = true ↔
    operand.immediate = true ∧ (operand.augmented = true ∨ 0x1ff < operand.value.toNat) := by
  unfold upper?
  split
  · rename_i hwide
    exact iff_of_true rfl hwide
  · rename_i hnarrow
    exact iff_of_false Bool.false_ne_true hnarrow

theorem toNat_of_mem_upper? {operand : Operand} {upper : Long} (h : upper ∈ operand.upper?) :
    upper.toNat = operand.value.toNat / 2 ^ 9 % 2 ^ 32 := by
  unfold upper? at h
  split at h
  · obtain rfl := Option.some.inj h
    rw [BitVec.toNat_setWidth, BitVec.toNat_ushiftRight, Nat.shiftRight_eq_div_pow]
  · cases h

/-- The operand may be stored where an immediate has this mark: a register has to fit into the
field, and an immediate needs a mark. -/
def Fits (operand : Operand) (mark : ImmediateMark) : Prop :=
  if operand.immediate then mark ≠ .none else operand.value.toNat ≤ 0x1ff

/-- A register that fits and an immediate without upper bits are the low bits alone. -/
theorem Fits.le_of_upper? {operand : Operand} {mark : ImmediateMark} (h : operand.Fits mark)
    (hupper : operand.upper? = none) : operand.value.toNat ≤ 0x1ff := by
  unfold Fits at h
  by_cases himmediate : operand.immediate = true
  · refine Nat.le_of_not_lt fun hwide => ?_
    have hsome := operand.isSome_upper?_iff.mpr ⟨himmediate, .inr hwide⟩
    rw [hupper] at hsome
    cases hsome
  · rwa [if_neg himmediate] at h

/-- Only an immediate needs a mark. -/
theorem Fits.register {operand : Operand} (h : operand.Fits .none) :
    operand.immediate = false ∧ operand.value.toNat ≤ 0x1ff := by
  unfold Fits at h
  split at h
  · exact absurd rfl h
  · rename_i hregister
    exact ⟨Bool.eq_false_iff.mpr hregister, h⟩

theorem fits_of_register {operand : Operand} (hregister : operand.immediate = false)
    (hvalue : operand.value.toNat ≤ 0x1ff) (mark : ImmediateMark) : operand.Fits mark := by
  unfold Fits
  rwa [if_neg (by simp [hregister])]

/-- A text has the meaning of its tree and the marks of its sigil. -/
theorem evaluate_eq_ok_iff {ctx : Context} {text : String} {t t' : SymbolTable}
    {operand : Operand} : evaluate ctx text t = .ok operand t' ↔
      ∃ value, (parse text).2.meaning? ctx t = some value.toNat ∧
        operand = { (parse text).1 with value } ∧
        t' = t.addReferences ctx.line ((parse text).2.symbols ctx.scope) := by
  constructor
  · intro h
    obtain ⟨value, t₁, heval, hpure⟩ := bind_eq_ok_iff.mp h
    obtain ⟨rfl, rfl⟩ := pure_eq_ok_iff.mp hpure
    obtain ⟨hmeaning, htable⟩ := ((parse text).2.eval_eq_ok_iff ctx t t₁ value).mp heval
    exact ⟨value, hmeaning, rfl, htable⟩
  · rintro ⟨value, hmeaning, rfl, htable⟩
    have heval := ((parse text).2.eval_eq_ok_iff ctx t t' value).mpr ⟨hmeaning, htable⟩
    exact bind_eq_ok_iff.mpr ⟨value, t', heval, pure_eq_ok_iff.mpr ⟨rfl, rfl⟩⟩

/-- Recorded uses do not change what a text stands for. -/
theorem evaluate_recorded_iff {ctx : Context} {text : String} {line : Nat} {t t₁ : SymbolTable}
    {operand : Operand} (hrecorded : SymbolTable.Recorded line t t₁) :
    (∃ t', evaluate ctx text t₁ = .ok operand t') ↔
      ∃ t', evaluate ctx text t = .ok operand t' := by
  obtain ⟨names, rfl⟩ := hrecorded
  simp only [evaluate_eq_ok_iff, Expr.meaning?_addReferences]
  constructor
  · rintro ⟨_, value, hmeaning, hoperand, rfl⟩
    exact ⟨_, value, hmeaning, hoperand, rfl⟩
  · rintro ⟨_, value, hmeaning, hoperand, rfl⟩
    exact ⟨_, value, hmeaning, hoperand, rfl⟩

end Operand

/-! ## What a slot holds -/

namespace Cursor

/-- The upper bits of the operand of a side. -/
def augment (c : Cursor) : Side → Option Long
  | .dst => c.augd
  | .src => c.augs

/-- An operand is stored in the field of a side, where an immediate has this mark. -/
structure Stores (c : Cursor) (side : Side) (mark : ImmediateMark) (operand : Operand) : Prop where
  fits : operand.Fits mark
  field : (c.opcode.get side.field).toNat = operand.value.toNat % 512
  marked : ∀ f ∈ mark.fields, c.opcode.get f = if operand.immediate then 1 else 0
  augment : c.augment side = operand.upper?

/-- An operand is stored in a slot. -/
def Holds (c : Cursor) (operand : Operand) : Slot → Prop
  | .dst mark => c.Stores .dst mark operand
  | .src _ => c.Stores .src .immediate operand
  | .index l => operand.immediate = true ∧ operand.value.toNat ≤ l.max ∧
      (c.opcode.get l.field).toNat = operand.value.toNat

/-- Nothing is stored in a slot so far. -/
structure Clear (c : Cursor) (slot : Slot) : Prop where
  fields : ∀ f ∈ slot.fields, c.opcode.get f = 0
  augment : ∀ side, slot.side? = some side → c.augment side = none

/-- Fields and augmentation of a slot are as they were. -/
structure SameSlot (slot : Slot) (c c' : Cursor) : Prop where
  fields : ∀ f ∈ slot.fields, c'.opcode.get f = c.opcode.get f
  augment : ∀ side, slot.side? = some side → c'.augment side = c.augment side

variable {c c' : Cursor} {slot : Slot}

theorem Stores.same {side : Side} {mark : ImmediateMark} {operand : Operand}
    (h : c.Stores side mark operand)
    (hfields : ∀ f ∈ side.field :: mark.fields, c'.opcode.get f = c.opcode.get f)
    (haugment : c'.augment side = c.augment side) : c'.Stores side mark operand where
  fits := h.fits
  field := by rw [hfields _ List.mem_cons_self, h.field]
  marked f hf := by rw [hfields f (List.mem_cons_of_mem _ hf), h.marked f hf]
  augment := haugment.trans h.augment

theorem Holds.same {operand : Operand} (h : c.Holds operand slot) (hsame : SameSlot slot c c') :
    c'.Holds operand slot := by
  cases slot with
  | dst mark => exact Stores.same h hsame.fields (hsame.augment .dst rfl)
  | src pointer =>
    refine Stores.same h (fun f hf => hsame.fields f ?_) (hsame.augment .src rfl)
    exact (by decide : Side.src.field :: ImmediateMark.immediate.fields ⊆ Field.sourceFields) hf
  | index l =>
    obtain ⟨himmediate, hmax, hindex⟩ := h
    exact ⟨himmediate, hmax, by rw [hsame.fields _ List.mem_cons_self, hindex]⟩

theorem Clear.same (h : c.Clear slot) (hsame : SameSlot slot c c') : c'.Clear slot where
  fields f hf := by rw [hsame.fields f hf, h.fields f hf]
  augment side hside := by rw [hsame.augment side hside, h.augment side hside]

/-- A field apart from all that may have been written. -/
theorem Touched.get {line : Nat} {fields : List Field} (h : Touched line fields c c') {f : Field}
    (hf : ∀ g ∈ fields, f.Apart g) : c'.opcode.get f = c.opcode.get f :=
  Opcode.get_congr fun i hi => h.bits i fun g hg => (hf g hg).not_covers hi

theorem Touched.mono {line : Nat} {fields fields' : List Field} (h : Touched line fields c c')
    (hsub : fields ⊆ fields') : Touched line fields' c c' :=
  ⟨h.words, h.symbols, fun i hi => h.bits i fun f hf => hi f (hsub hf)⟩

end Cursor

/-! ## Fields -/

namespace Encoder

variable {ctx : Context} {c c' : Cursor} {u : Unit}

theorem register_eq_ok {side : Side} {value : Quad} (h : register side value c = .ok u c') :
    value.toNat ≤ 0x1ff ∧
      c' = { c with opcode := c.opcode.set side.field (value.setWidth 32) } := by
  obtain ⟨_, c₁, hcheck, h⟩ := bind_eq_ok_iff.mp h
  obtain ⟨hfits, rfl⟩ := raiseIf_eq_ok_iff.mp hcheck
  exact ⟨Nat.le_of_not_lt hfits, (modify_eq_ok_iff.mp h).symm⟩

theorem immediate_eq_ok {side : Side} {operand : Operand} {upper : Option Long}
    (himmediate : operand.immediate = true) (h : immediate side operand c = .ok upper c') :
    upper = operand.upper? ∧ ∃ low : Long, low.toNat = operand.value.toNat % 512 ∧
      c' = { c with opcode := c.opcode.set side.field low } := by
  unfold immediate at h
  rw [Operand.upper?]
  simp only [himmediate, true_and]
  by_cases hwide : operand.augmented = true ∨ 0x1ff < operand.value.toNat
  · have hneeds : (operand.augmented || decide (fieldMax < operand.value.toNat)) = true := by
      rwa [Bool.or_eq_true, decide_eq_true_eq]
    rw [if_pos hneeds] at h
    obtain ⟨_, c₁, hset, h⟩ := bind_eq_ok_iff.mp h
    obtain ⟨rfl, rfl⟩ := pure_eq_ok_iff.mp h
    refine ⟨by rw [if_pos hwide], _, ?_, (modify_eq_ok_iff.mp hset).symm⟩
    have hmask : (0x1ff : Long).toNat = 2 ^ 9 - 1 := rfl
    rw [BitVec.toNat_and, BitVec.toNat_setWidth, hmask, Nat.and_two_pow_sub_one_eq_mod]
    omega
  · have hneeds : ¬ (operand.augmented || decide (fieldMax < operand.value.toNat)) = true := by
      rwa [Bool.or_eq_true, decide_eq_true_eq]
    rw [if_neg hneeds] at h
    obtain ⟨_, c₁, hset, h⟩ := bind_eq_ok_iff.mp h
    obtain ⟨rfl, rfl⟩ := pure_eq_ok_iff.mp h
    refine ⟨by rw [if_neg hwide], _, ?_, (modify_eq_ok_iff.mp hset).symm⟩
    rw [BitVec.toNat_setWidth]
    omega

/-- The low bits of a value in the field of a side. -/
theorem get_side (op : Opcode) (side : Side) {low : Long} (h : low.toNat < 512) :
    (op.set side.field low).get side.field = low :=
  op.get_set (by cases side <;> exact h)

/-- The marks of immediates stand above the sides. -/
theorem get_mark (op : Opcode) (side : Side) (low : Long) {mark : ImmediateMark} {f : Field}
    (hf : f ∈ mark.fields) : (op.set side.field low).get f = op.get f := by
  have hapart : ∀ f ∈ mark.fields, f.Apart side.field := by
    cases mark <;> cases side <;> decide
  exact op.get_set_of_apart (hapart f hf) low

/-- A register is stored without a mark and without upper bits. -/
theorem register_stores {side : Side} {mark : ImmediateMark} {operand : Operand}
    (hregister : operand.immediate = false)
    (h : register side operand.value c = .ok u c') (hclear : ∀ f ∈ mark.fields, c.opcode.get f = 0)
    (haugment : c.augment side = none) : c'.Stores side mark operand := by
  obtain ⟨hfits, rfl⟩ := register_eq_ok h
  have hlow : (operand.value.setWidth 32).toNat = operand.value.toNat := by
    rw [BitVec.toNat_setWidth]
    omega
  refine ⟨?_, ?_, ?_, ?_⟩
  · exact Operand.fits_of_register hregister hfits mark
  · rw [get_side _ _ (by omega), hlow]
    omega
  · intro f hf
    rw [get_mark _ _ _ hf, hclear f hf, if_neg (by simp [hregister])]
  · unfold Operand.upper?
    rw [if_neg (by simp [hregister])]
    cases side <;> exact haugment

/-- An immediate is stored behind its mark, and its upper bits are left for an augmentation. -/
theorem immediate_stores {side : Side} {mark : ImmediateMark} {operand : Operand}
    {upper : Option Long} {c₁ : Cursor} (himmediate : operand.immediate = true)
    (hmark : mark ≠ .none) (hmarked : ∀ f ∈ mark.fields, c.opcode.get f = 1)
    (h : immediate side operand c = .ok upper c₁) (hopcode : c'.opcode = c₁.opcode)
    (haugment : c'.augment side = upper) : c'.Stores side mark operand := by
  obtain ⟨rfl, low, hlow, rfl⟩ := immediate_eq_ok himmediate h
  refine ⟨?_, ?_, ?_, haugment⟩
  · unfold Operand.Fits
    rwa [if_pos himmediate]
  · rw [hopcode, get_side _ _ (by omega), hlow]
  · intro f hf
    rw [hopcode, get_mark _ _ _ hf, hmarked f hf, if_pos himmediate]

theorem mark_eq_ok {text : String} {place : ImmediateMark} (h : mark text place c = .ok u c') :
    place ≠ .none ∧ (∀ f ∈ place.fields, c'.opcode.get f = 1) ∧
      c' = { c with opcode := c'.opcode } := by
  cases place with
  | none => exact absurd h throw_ne_ok
  | immediate =>
    obtain rfl := modify_eq_ok_iff.mp h
    refine ⟨by decide, fun f hf => ?_, rfl⟩
    obtain rfl := List.mem_singleton.mp hf
    exact Opcode.get_set _ (by decide)
  | zero =>
    obtain rfl := modify_eq_ok_iff.mp h
    refine ⟨by decide, fun f hf => ?_, rfl⟩
    obtain rfl := List.mem_singleton.mp hf
    exact Opcode.get_set _ (by decide)

/-! ## Destination and source -/

theorem putDestination_stores {mark : ImmediateMark} {operand : Operand} {text : String}
    (h : putDestination mark operand text c = .ok u c') :
    c'.augs = c.augs ∧ (c.Clear (.dst mark) → c'.Stores .dst mark operand) := by
  unfold putDestination at h
  split at h
  · rename_i himmediate
    obtain ⟨_, c₁, hmark, h⟩ := bind_eq_ok_iff.mp h
    obtain ⟨upper, c₂, hfield, h⟩ := bind_eq_ok_iff.mp h
    obtain rfl := modify_eq_ok_iff.mp h
    obtain ⟨hplace, hmarked, hc₁⟩ := mark_eq_ok hmark
    obtain ⟨-, low, -, hc₂⟩ := immediate_eq_ok himmediate hfield
    refine ⟨by rw [hc₂, hc₁], fun _ => ?_⟩
    exact immediate_stores himmediate hplace hmarked hfield rfl rfl
  · rename_i hregister
    refine ⟨by rw [(register_eq_ok h).2], fun hclear => ?_⟩
    exact register_stores (Bool.eq_false_iff.mpr hregister) h
      (fun f hf => hclear.fields f (List.mem_cons_of_mem _ hf)) (hclear.augment .dst rfl)

theorem putSource_stores (pointer : Bool) {operand : Operand}
    (h : putSource operand c = .ok u c') :
    c'.augd = c.augd ∧ (c.Clear (.src pointer) → c'.Stores .src .immediate operand) := by
  unfold putSource at h
  split at h
  · rename_i himmediate
    obtain ⟨_, c₁, hmark, h⟩ := bind_eq_ok_iff.mp h
    obtain ⟨upper, c₂, hfield, h⟩ := bind_eq_ok_iff.mp h
    obtain rfl := modify_eq_ok_iff.mp h
    -- The mark of a source is that of an immediate destination.
    obtain ⟨hplace, hmarked, hc₁⟩ := @mark_eq_ok c c₁ _ "" .immediate hmark
    obtain ⟨-, low, -, hc₂⟩ := immediate_eq_ok himmediate hfield
    refine ⟨by rw [hc₂, hc₁], fun _ => ?_⟩
    exact immediate_stores himmediate hplace hmarked hfield rfl rfl
  · rename_i hregister
    refine ⟨by rw [(register_eq_ok h).2], fun hclear => ?_⟩
    refine register_stores (Bool.eq_false_iff.mpr hregister) h (fun f hf => ?_)
      (hclear.augment .src rfl)
    exact hclear.fields f ((by decide : ImmediateMark.immediate.fields ⊆ Field.sourceFields) hf)

theorem operand_eq_ok {part : Part} {text : OperandText} (h : operand part c = .ok text c') :
    OperandText.take? c.words = some (text, c'.words) ∧ c' = { c with words := c'.words } := by
  obtain ⟨text', rest, htake, hoperand⟩ | ⟨-, hoperand⟩ := operand_cases part c
  · rw [hoperand] at h
    obtain ⟨rfl, rfl⟩ := EStateM.Result.ok.inj h
    exact ⟨htake, rfl⟩
  · rw [hoperand] at h
    cases h

theorem value_eq_ok {part : Part} {operand : Operand} {text : OperandText}
    (h : value ctx part c = .ok (operand, text) c') :
    OperandText.take? c.words = some (text, c'.words) ∧
      Operand.evaluate ctx text.text c.symbols = .ok operand c'.symbols ∧
      c' = { c with words := c'.words, symbols := c'.symbols } := by
  obtain ⟨text', c₁, htext, h⟩ := bind_eq_ok_iff.mp h
  obtain ⟨operand', c₂, hevaluate, h⟩ := bind_eq_ok_iff.mp h
  obtain ⟨hresult, rfl⟩ := pure_eq_ok_iff.mp h
  obtain ⟨rfl, rfl⟩ := Prod.mk.inj hresult
  obtain ⟨htake, hc₁⟩ := operand_eq_ok htext
  obtain ⟨heval, hc₂⟩ := evaluate_eq_ok hevaluate
  rw [hc₁] at heval
  rw [hc₂, hc₁]
  exact ⟨htake, heval, rfl⟩

end Encoder

/-! ## Pointer expressions -/

namespace Pointer

/-- A pointer expression fits into the source. -/
theorem field_lt (p : Pointer) (index : Quad) : (p.field index).toNat < 2 ^ 9 := by
  have hbit : ∀ (b : Bool) (place : Fin 9),
      (if b then (1 : Long) <<< place.val else 0).toNat < 2 ^ 9 := by decide
  have hindex : (index.setWidth 32 &&& 0x1f : Long).toNat < 2 ^ 9 := by
    rw [BitVec.toNat_and]
    exact Nat.lt_of_le_of_lt Nat.and_le_right (by decide)
  unfold field
  simp only [BitVec.toNat_or]
  refine Nat.or_lt_two_pow (Nat.or_lt_two_pow (Nat.or_lt_two_pow (Nat.or_lt_two_pow ?_ ?_) ?_) ?_)
    hindex
  · decide
  · exact hbit _ 7
  · exact hbit _ 6
  · exact hbit _ 5

/-- A pointer expression is encoded if its index is in range. -/
theorem encode_eq_ok_iff {ctx : Context} {p : Pointer} {t t' : SymbolTable} {field : Long} :
    p.encode ctx t = .ok field t' ↔
      (p.index = none ∧ p.field p.move.unit = field ∧ t = t') ∨
      ∃ text operand, p.index = some text ∧ Operand.evaluate ctx text t = .ok operand t' ∧
        inRange (p.move.scale operand.value) = true ∧
        p.field (p.move.scale operand.value) = field := by
  unfold encode
  cases p.index with
  | none => simp
  | some text =>
    dsimp only
    rw [bind_eq_ok_iff]
    constructor
    · rintro ⟨operand, t₁, hevaluate, h⟩
      split at h
      · rename_i hrange
        obtain ⟨hfield, rfl⟩ := pure_eq_ok_iff.mp h
        exact .inr ⟨text, operand, rfl, hevaluate, hrange, hfield⟩
      · exact absurd h throw_ne_ok
    · rintro (⟨hnone, -⟩ | ⟨_, operand, hsome, hevaluate, hrange, hfield⟩)
      · cases hnone
      · obtain rfl := Option.some.inj hsome
        refine ⟨operand, t', hevaluate, ?_⟩
        rw [if_pos hrange]
        exact pure_eq_ok_iff.mpr ⟨hfield, rfl⟩

theorem encode_lt {ctx : Context} {p : Pointer} {t t' : SymbolTable} {field : Long}
    (h : p.encode ctx t = .ok field t') : field.toNat < 2 ^ 9 := by
  obtain ⟨-, rfl, -⟩ | ⟨_, _, -, -, -, rfl⟩ := encode_eq_ok_iff.mp h
  · exact p.field_lt _
  · exact p.field_lt _

end Pointer

/-! ## Operands one by one -/

/-- The operand that a text stands for in a slot; what a pointer expression stands for is not said
here. -/
def Slot.Reads (slot : Slot) (ctx : Context) (t : SymbolTable) (text : String)
    (operand : Operand) : Prop :=
  (slot = .src true → Pointer.parse? text = none) →
    ∃ t', Operand.evaluate ctx text t = .ok operand t'

namespace Encoder

open Cursor (Touched)

variable {ctx : Context} {c c' : Cursor} {u : Unit}

/-- The next operand text has been read and stored in a slot, and no other slot has changed. -/
structure Stored (ctx : Context) (slot : Slot) (text : OperandText) (c c' : Cursor) : Prop where
  take : OperandText.take? c.words = some (text, c'.words)
  holds : c.Clear slot →
    ∃ operand, slot.Reads ctx c.symbols text.text operand ∧ c'.Holds operand slot
  touched : Touched ctx.line slot.fields c c'
  augment : ∀ side, slot.side? ≠ some side → c'.augment side = c.augment side

theorem stored_dst {mark : ImmediateMark} {text : OperandText}
    (h : dst ctx mark c = .ok text c') : Stored ctx (.dst mark) text c c' := by
  have htake := (takes_dst mark).words h
  have htouched : Touched ctx.line (Slot.dst mark).fields c c' :=
    (keeps_dst ctx mark List.mem_cons_self (List.subset_cons_self _ _)).of_ok h
  obtain ⟨⟨operand, text'⟩, c₁, hvalue, h⟩ := bind_eq_ok_iff.mp h
  obtain ⟨_, c₂, hput, h⟩ := bind_eq_ok_iff.mp h
  obtain ⟨rfl, rfl⟩ := pure_eq_ok_iff.mp h
  obtain ⟨-, heval, hc₁⟩ := value_eq_ok hvalue
  obtain ⟨haugs, hstores⟩ := putDestination_stores hput
  refine ⟨htake, fun hclear => ⟨operand, fun _ => ⟨_, heval⟩, hstores ?_⟩, htouched, ?_⟩
  · rw [hc₁]
    exact ⟨hclear.fields, hclear.augment⟩
  · intro side hside
    cases side with
    | dst => exact absurd rfl hside
    | src =>
      show c₂.augs = c.augs
      rw [haugs, hc₁]

theorem pointerField?_eq_ok_iff {text : String} {p : Pointer} (h : Pointer.parse? text = some p)
    {field : Option Long} {c' : Cursor} : pointerField? ctx text c = .ok field c' ↔
      ∃ bits t', p.encode ctx c.symbols = .ok bits t' ∧ some bits = field ∧
        { c with symbols := t' } = c' := by
  unfold pointerField?
  rw [h]
  dsimp only
  cases p.encode ctx c.symbols with
  | ok bits t' => simp
  | error f t' => simp

theorem pointerField?_eq_ok {text : String} {field : Option Long}
    (h : pointerField? ctx text c = .ok field c') :
    (Pointer.parse? text = none ∧ field = none ∧ c' = c) ∨
    (Pointer.parse? text ≠ none ∧ (∃ bits : Long, bits.toNat < 2 ^ 9 ∧ field = some bits) ∧
      c' = { c with symbols := c'.symbols }) := by
  cases hparse : Pointer.parse? text with
  | none =>
    rw [pointerField?_none hparse] at h
    obtain ⟨rfl, rfl⟩ := pure_eq_ok_iff.mp h
    exact .inl ⟨rfl, rfl, rfl⟩
  | some p =>
    obtain ⟨bits, t', hbits, rfl, rfl⟩ := (pointerField?_eq_ok_iff hparse).mp h
    exact .inr ⟨Option.some_ne_none p, ⟨bits, Pointer.encode_lt hbits, rfl⟩, rfl⟩

/-- A pointer expression is stored like an immediate that fits. -/
theorem putPointer_stores {text : String} {bits : Long} (hbits : bits.toNat < 2 ^ 9)
    (h : putPointerOr ctx text (some bits) c = .ok u c') :
    c'.augd = c.augd ∧ (c.Clear (.src true) →
      c'.Stores .src .immediate { immediate := true, value := bits.setWidth 64 }) := by
  obtain ⟨_, c₁, hmark, h⟩ := bind_eq_ok_iff.mp h
  obtain ⟨hplace, hmarked, hc₁⟩ := @mark_eq_ok c c₁ _ "" .immediate hmark
  obtain rfl := modify_eq_ok_iff.mp h
  have hvalue : (bits.setWidth 64).toNat = bits.toNat :=
    BitVec.toNat_setWidth_of_le (by decide)
  refine ⟨by rw [hc₁], fun hclear => ⟨?_, ?_, ?_, ?_⟩⟩
  · unfold Operand.Fits
    rwa [if_pos rfl]
  · have hfield : (c₁.opcode.set .source bits).get .source = bits := get_side _ .src hbits
    show ((c₁.opcode.set .source bits).get .source).toNat = (bits.setWidth 64).toNat % 512
    rw [hfield, hvalue]
    omega
  · intro f hf
    have hkept : (c₁.opcode.set .source bits).get f = c₁.opcode.get f := get_mark _ .src _ hf
    show (c₁.opcode.set .source bits).get f = 1
    rw [hkept, hmarked f hf]
  · have haugs : c₁.augs = none := by
      rw [hc₁]
      exact hclear.augment .src rfl
    have hnarrow : ¬ 0x1ff < (bits.setWidth 64).toNat := by omega
    unfold Operand.upper?
    rw [if_neg (by simpa using hnarrow)]
    exact haugs

theorem source_stores {pointer : Bool} {text : OperandText}
    (h : source ctx pointer c = .ok text c') :
    c'.augd = c.augd ∧ (c.Clear (.src pointer) → ∃ operand,
      (Slot.src pointer).Reads ctx c.symbols text.text operand ∧
        c'.Stores .src .immediate operand) := by
  cases pointer with
  | false =>
    obtain ⟨⟨operand, text'⟩, c₁, hvalue, h⟩ := bind_eq_ok_iff.mp h
    obtain ⟨_, c₂, hput, h⟩ := bind_eq_ok_iff.mp h
    obtain ⟨rfl, rfl⟩ := pure_eq_ok_iff.mp h
    obtain ⟨-, heval, hc₁⟩ := value_eq_ok hvalue
    obtain ⟨haugd, hstores⟩ := putSource_stores false hput
    refine ⟨by rw [haugd, hc₁], fun hclear => ⟨operand, fun _ => ⟨_, heval⟩, hstores ?_⟩⟩
    rw [hc₁]
    exact ⟨hclear.fields, hclear.augment⟩
  | true =>
    -- A pointer expression has its own reader, any other text is a source as usual.
    obtain ⟨text', c₁, htext, h⟩ := bind_eq_ok_iff.mp h
    obtain ⟨field, c₂, hfield, h⟩ := bind_eq_ok_iff.mp h
    obtain ⟨_, c₃, hput, h⟩ := bind_eq_ok_iff.mp h
    obtain ⟨rfl, rfl⟩ := pure_eq_ok_iff.mp h
    obtain ⟨-, hc₁⟩ := operand_eq_ok htext
    obtain ⟨hparse, rfl, rfl⟩ | ⟨hparse, ⟨bits, hbits, rfl⟩, hc₂⟩ := pointerField?_eq_ok hfield
    · obtain ⟨operand, c₄, hevaluate, hput⟩ := bind_eq_ok_iff.mp hput
      obtain ⟨heval, hc₄⟩ := evaluate_eq_ok hevaluate
      obtain ⟨haugd, hstores⟩ := putSource_stores true hput
      rw [hc₁] at heval
      refine ⟨by rw [haugd, hc₄, hc₁], fun hclear => ⟨operand, fun _ => ⟨_, heval⟩, hstores ?_⟩⟩
      rw [hc₄, hc₁]
      exact ⟨hclear.fields, hclear.augment⟩
    · obtain ⟨haugd, hstores⟩ := putPointer_stores hbits hput
      refine ⟨by rw [haugd, hc₂, hc₁], fun hclear => ⟨_, fun hplain => ?_, hstores ?_⟩⟩
      · exact absurd (hplain rfl) hparse
      · rw [hc₂, hc₁]
        exact ⟨hclear.fields, hclear.augment⟩

theorem stored_source {pointer : Bool} {text : OperandText}
    (h : source ctx pointer c = .ok text c') : Stored ctx (.src pointer) text c c' := by
  obtain ⟨haugd, hstores⟩ := source_stores h
  refine ⟨(takes_source pointer).words h, hstores,
    (keeps_source ctx pointer (List.Subset.refl _)).of_ok h, fun side hside => ?_⟩
  cases side with
  | dst => exact haugd
  | src => exact absurd rfl hside

theorem stored_index {l : Lane} (h : laneIndex ctx l c = .ok u c') :
    ∃ text, Stored ctx (.index l) text c c' := by
  have htouched : Touched ctx.line (Slot.index l).fields c c' :=
    (keeps_laneIndex ctx l List.mem_cons_self).of_ok h
  obtain ⟨operand, c₁, hrequire, h⟩ := bind_eq_ok_iff.mp h
  obtain ⟨⟨operand', text⟩, c₂, hvalue, hrequire⟩ := bind_eq_ok_iff.mp hrequire
  obtain ⟨_, c₃, hcheck, hrequire⟩ := bind_eq_ok_iff.mp hrequire
  obtain ⟨rfl, rfl⟩ := pure_eq_ok_iff.mp hrequire
  obtain ⟨himmediate, rfl⟩ := raiseIf_eq_ok_iff.mp hcheck
  obtain ⟨_, c₄, hrange, h⟩ := bind_eq_ok_iff.mp h
  obtain ⟨hmax, rfl⟩ := raiseIf_eq_ok_iff.mp hrange
  obtain rfl := modify_eq_ok_iff.mp h
  obtain ⟨htake, heval, hc₂⟩ := value_eq_ok hvalue
  refine ⟨text, htake, fun _ => ⟨operand', fun _ => ⟨_, heval⟩, ?_⟩, htouched, fun side _ => ?_⟩
  · -- The field has room for the largest index.
    have hroom : l.max < 2 ^ l.field.width ∧ l.max < 2 ^ 32 := by cases l <;> decide
    have hlow : (operand'.value.setWidth 32).toNat = operand'.value.toNat := by
      rw [BitVec.toNat_setWidth]
      exact Nat.mod_eq_of_lt (by omega)
    refine ⟨by simpa using himmediate, Nat.le_of_not_lt hmax, ?_⟩
    rw [Opcode.get_set _ (by omega), hlow]
  · rw [hc₂]
    cases side <;> rfl

end Encoder

/-! ## Operands in order -/

namespace OperandText

/-- The operand texts that words start with, at most `count`, read as long as commas stand between
them. -/
def upTo : Nat → List Word → List OperandText
  | 0, _ => []
  | count + 1, words =>
    match take? words with
    | none => []
    | some (text, rest) => text :: if text.comma then upTo count rest else []

theorem any_updates_extend (f : Field) (operand : OperandText) (words : List Word) :
    (operand.extend words).2.any (Word.updates f) = words.any (Word.updates f) := by
  induction words generalizing operand with
  | nil => rfl
  | cons word words ih =>
    rw [extend]
    split
    · rename_i hjoins
      -- Only plain words go on with an operand.
      have hplain : word.updates f = false := by
        have htoken : word.token = .plain := by
          rw [joins] at hjoins
          simp only [Bool.and_eq_true, beq_iff_eq] at hjoins
          exact hjoins.2.1
        rw [Word.updates, htoken]
      rw [ih, List.any_cons, hplain, Bool.false_or]
    · rfl

/-- Flag words are not part of an operand. -/
theorem any_updates_take? (f : Field) {words rest : List Word} {text : OperandText}
    (h : take? words = some (text, rest)) :
    rest.any (Word.updates f) = words.any (Word.updates f) := by
  cases words with
  | nil => cases h
  | cons word words =>
    rw [take?] at h
    split at h
    · cases h
    · rename_i hflag
      have hplain : word.updates f = false :=
        Bool.eq_false_iff.mpr fun hupdates => hflag (Word.isFlag_of_updates hupdates)
      have hextend := any_updates_extend f ⟨word.text, word.comma⟩ words
      rw [Option.some.inj h] at hextend
      rw [hextend, List.any_cons, hplain, Bool.false_or]

end OperandText

/-- The texts of the operands of a line, as many as the shape has slots for. -/
def Shape.texts (shape : Shape) (words : List Word) : List String :=
  (OperandText.upTo shape.slots.length words).map (·.text)

namespace Encoder

open Cursor (Touched SameSlot)

variable {ctx : Context} {c c' : Cursor}

/-- Operand texts have been read one after the other, with commas between them, and stored each in
its slot. -/
inductive StoredAll (ctx : Context) : List (Slot × OperandText) → Cursor → Cursor → Prop
  | nil (c : Cursor) : StoredAll ctx [] c c
  | cons {slot : Slot} {text : OperandText} {operands : List (Slot × OperandText)}
      {c c₁ c' : Cursor} (first : Stored ctx slot text c c₁)
      (comma : operands ≠ [] → text.comma = true) (others : StoredAll ctx operands c₁ c') :
      StoredAll ctx ((slot, text) :: operands) c c'

namespace StoredAll

variable {operands : List (Slot × OperandText)}

theorem touched (h : StoredAll ctx operands c c') :
    Touched ctx.line (operands.flatMap fun operand => operand.1.fields) c c' := by
  induction h with
  | nil c => exact refl_of (Touched ctx.line _) c
  | cons first comma others ih =>
    rw [List.flatMap_cons]
    exact trans_of (Touched ctx.line _) (first.touched.mono (List.subset_append_left _ _))
      (ih.mono (List.subset_append_right _ _))

theorem augment (h : StoredAll ctx operands c c') {side : Side}
    (hside : ∀ operand ∈ operands, operand.1.side? ≠ some side) :
    c'.augment side = c.augment side := by
  induction h with
  | nil c => rfl
  | cons first comma others ih =>
    have hothers := ih fun operand hmem => hside operand (List.mem_cons_of_mem _ hmem)
    rw [hothers, first.augment side (hside _ List.mem_cons_self)]

/-- A slot apart from those that operands are stored in. -/
theorem sameSlot (h : StoredAll ctx operands c c') {slot : Slot}
    (hapart : ∀ f ∈ slot.fields, ∀ operand ∈ operands, ∀ g ∈ operand.1.fields, f.Apart g) :
    SameSlot slot c c' where
  fields f hf := by
    refine h.touched.get fun g hg => ?_
    obtain ⟨operand, hoperand, hg⟩ := List.mem_flatMap.mp hg
    exact hapart f hf operand hoperand g hg
  augment side hside := by
    refine h.augment fun operand hoperand hsame => ?_
    -- Slots with the same side have its field in common.
    exact Field.Apart.irrefl side.field (hapart _ (Slot.field_mem_of_side? hside) operand hoperand _
      (Slot.field_mem_of_side? hsame))

/-- Behind the last operand each slot holds its own one. -/
theorem holds (h : StoredAll ctx operands c c')
    (hapart : (operands.flatMap fun operand => operand.1.fields).Pairwise Field.Apart)
    (hclear : ∀ operand ∈ operands, c.Clear operand.1) {slot : Slot} {text : OperandText}
    (hmem : (slot, text) ∈ operands) :
    ∃ operand, slot.Reads ctx c.symbols text.text operand ∧ c'.Holds operand slot := by
  induction h with
  | nil c => cases hmem
  | @cons slot₁ text₁ operands c c₁ c' first comma others ih =>
    rw [List.flatMap_cons, List.pairwise_append] at hapart
    obtain ⟨-, hothers, hfirst⟩ := hapart
    have happart : ∀ f ∈ slot₁.fields, ∀ operand ∈ operands, ∀ g ∈ operand.1.fields, f.Apart g :=
      fun f hf operand hoperand g hg => hfirst f hf g (List.mem_flatMap.mpr ⟨operand, hoperand, hg⟩)
    rcases List.mem_cons.mp hmem with heq | hmem
    · -- The operands behind the first one leave its slot alone.
      obtain ⟨rfl, rfl⟩ := Prod.mk.inj heq
      obtain ⟨operand, hreads, hholds⟩ := first.holds (hclear _ List.mem_cons_self)
      exact ⟨operand, hreads, hholds.same (others.sameSlot happart)⟩
    · -- The first operand leaves the other slots clear, and what their texts stand for.
      have hclear₁ : ∀ operand ∈ operands, c₁.Clear operand.1 := by
        intro operand hoperand
        have hsingle : StoredAll ctx [(slot₁, text₁)] c c₁ := .cons first (absurd rfl) (.nil c₁)
        refine (hclear operand (List.mem_cons_of_mem _ hoperand)).same (hsingle.sameSlot ?_)
        intro f hf other hother g hg
        obtain rfl := List.mem_singleton.mp hother
        exact (happart g hg operand hoperand f hf).symm
      obtain ⟨operand, hreads, hholds⟩ := ih hothers hclear₁ hmem
      refine ⟨operand, fun hplain => ?_, hholds⟩
      obtain ⟨t', heval⟩ := hreads hplain
      exact (Operand.evaluate_recorded_iff first.touched.symbols).mp ⟨_, heval⟩

theorem texts (h : StoredAll ctx operands c c') :
    OperandText.upTo operands.length c.words = operands.map Prod.snd := by
  induction h with
  | nil c => rfl
  | @cons slot text operands c c₁ c' first comma others ih =>
    rw [List.length_cons, OperandText.upTo, first.take, List.map_cons]
    dsimp only
    cases operands with
    | nil => rw [List.length_nil, OperandText.upTo, ite_self, List.map_nil]
    | cons operand operands => rw [if_pos (comma (List.cons_ne_nil _ _)), ih]

theorem any_updates (h : StoredAll ctx operands c c') (f : Field) :
    c'.words.any (Word.updates f) = c.words.any (Word.updates f) := by
  induction h with
  | nil c => rfl
  | cons first comma others ih => rw [ih, OperandText.any_updates_take? f first.take]

end StoredAll

end Encoder

end PropellerAsm
