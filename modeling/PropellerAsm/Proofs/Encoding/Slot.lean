import PropellerAsm.Proofs.Encoding.FixedBits

/-!
# Slots of operands

An instruction stores each of its operands in a slot: the destination, the source or the index of a
lane, with the bit that marks an immediate.  No two slots of a shape in the table overlap, nor does
a slot overlap the flags that the shape can update, and before any operand is stored they are all
clear.
-/
namespace PropellerAsm

/-! ## Slots -/

/-- Where an operand is stored. -/
inductive Slot where
  /-- In the destination, where an immediate has this mark. -/
  | dst (mark : ImmediateMark)
  /-- In the source, which may be a pointer expression if `pointer` says so. -/
  | src (pointer : Bool)
  /-- As the index of a lane. -/
  | index (l : Lane)
deriving DecidableEq, Repr

namespace Slot

/-- The fields of a slot. -/
def fields : Slot → List Field
  | dst mark => .destination :: mark.fields
  | src _ => Field.sourceFields
  | index l => [l.field]

/-- The side whose augmentation goes with the slot. -/
def side? : Slot → Option Side
  | dst _ => some .dst
  | src _ => some .src
  | index _ => none

theorem field_mem_of_side? {slot : Slot} {side : Side} (h : slot.side? = some side) :
    side.field ∈ slot.fields := by
  cases slot with
  | dst mark =>
    obtain rfl := Option.some.inj h
    exact List.mem_cons_self
  | src pointer =>
    obtain rfl := Option.some.inj h
    exact (by decide : Field.source ∈ Field.sourceFields)
  | index l => cases h

end Slot

namespace Shape

/-- The slots of the operands of a shape, in the order of the line. -/
def slots : Shape → List Slot
  | dst mark _ => [.dst mark]
  | testPin => [.dst .immediate]
  | src => [.src false]
  | dstSrc pointer _ => [.dst .none, .src pointer]
  | testBit => [.dst .none, .src false]
  | both pointer _ => [.dst .zero, .src pointer]
  | lane l => [.dst .none, .src false, .index l]
  | alter => [.dst .none, .src false]
  | jump => [.dst .none]
  | callD => [.dst .none, .src false]
  | getRnd => [.dst .none]
  | _ => []

/-- A register alone stands for both operands of the shape. -/
def abbreviates : Shape → Bool
  | dstSrc _ _ => true
  | testBit => true
  | callD => true
  | _ => false

theorem length_slots_of_abbreviates {shape : Shape} (h : shape.abbreviates = true) :
    shape.slots.length = 2 := by
  cases shape with
  | dstSrc pointer rule => rfl
  | testBit => rfl
  | callD => rfl
  | _ => cases h

/-- The flags that the word behind the stored operands can update. -/
def flagFields : Shape → List Field
  | dst _ rule => rule.elim [] FlagRule.fields
  | testPin => [.carry, .zero]
  | dstSrc _ rule => rule.elim [] FlagRule.fields
  | testBit => [.carry, .zero]
  | both _ rule => rule.elim [] FlagRule.fields
  | jump => [.carry, .zero]
  | callD => [.carry, .zero]
  | getRnd => [.carry, .zero]
  | _ => []

/-- All fields that operands and the flag word behind them fill. -/
def filled (shape : Shape) : List Field :=
  shape.slots.flatMap Slot.fields ++ shape.flagFields

theorem filled_subset_fields (shape : Shape) : shape.filled ⊆ shape.fields := by
  intro f hf
  cases shape with
  | dst mark rule => simpa [filled, slots, flagFields, fields, Slot.fields] using hf
  | dstSrc pointer rule =>
    simpa [filled, slots, flagFields, fields, Slot.fields, ImmediateMark.fields] using hf
  | both pointer rule =>
    simpa [filled, slots, flagFields, fields, Slot.fields, ImmediateMark.fields, or_assoc] using hf
  | lane l => simpa [filled, slots, flagFields, fields, Slot.fields, ImmediateMark.fields] using hf
  | bare rule => cases hf
  | modify target => cases hf
  | _ => revert f; decide

/-- No two of the fields overlap that are filled or varied. -/
def Separate (shape : Shape) : Prop :=
  (shape.filled ++ shape.varied).Pairwise Field.Apart

instance (shape : Shape) : Decidable shape.Separate :=
  inferInstanceAs (Decidable (List.Pairwise _ _))

namespace Separate

variable {shape : Shape}

theorem slots_apart (h : shape.Separate) :
    (shape.slots.flatMap Slot.fields).Pairwise Field.Apart :=
  (List.pairwise_append.mp (List.pairwise_append.mp h).1).1

/-- What follows the operands stays off their slots. -/
theorem slot_apart (h : shape.Separate) {slot : Slot} (hslot : slot ∈ shape.slots) {f g : Field}
    (hf : f ∈ slot.fields) (hg : g ∈ shape.flagFields ++ shape.varied) : f.Apart g := by
  have hsplit : (shape.slots.flatMap Slot.fields ++ (shape.flagFields ++ shape.varied)).Pairwise
      Field.Apart := by
    rw [← List.append_assoc]
    exact h
  exact (List.pairwise_append.mp hsplit).2.2 f (List.mem_flatMap.mpr ⟨slot, hslot, hf⟩) g hg

theorem flag_apart (h : shape.Separate) {f g : Field} (hf : f ∈ shape.flagFields)
    (hg : g ∈ shape.slots.flatMap Slot.fields) : f.Apart g :=
  ((List.pairwise_append.mp (List.pairwise_append.mp h).1).2.2 g hg f hf).symm

theorem varied_apart (h : shape.Separate) {f g : Field} (hf : f ∈ shape.filled)
    (hg : g ∈ shape.varied) : f.Apart g :=
  (List.pairwise_append.mp h).2.2 f hf g hg

end Separate

end Shape

/-! ## Flag words -/

/-- The flags that a flag word names. -/
def Flag.fields : Flag → List Field
  | wc => [.carry]
  | wz => [.zero]
  | wcz => [.carry, .zero]
  | andC => [.carry]
  | andZ => [.zero]
  | orC => [.carry]
  | orZ => [.zero]
  | xorC => [.carry]
  | xorZ => [.zero]

/-- The word is a flag update that names the flag. -/
def Word.updates (f : Field) (word : Word) : Bool :=
  match word.token with
  | .keyword (.flag flag) => flag.fields.contains f
  | _ => false

theorem Word.updates_of_token {f : Field} {word : Word} {flag : Flag}
    (h : word.token = .keyword (.flag flag)) : word.updates f = flag.fields.contains f := by
  rw [updates, h]

theorem Word.isFlag_of_updates {f : Field} {word : Word} (h : word.updates f = true) :
    word.token.isFlag = true := by
  unfold updates at h
  split at h
  · rename_i htoken
    rw [htoken]
    rfl
  · cases h

/-! ## The table -/

namespace Instruction

theorem written_separate : ∀ row ∈ written, row.2.shape.Separate := by
  decide +kernel

theorem secondForms_separate : ∀ row ∈ secondForms, row.2.shape.Separate := by
  decide +kernel

theorem eventForms_separate {name : String} {form : Form} (h : (name, form) ∈ eventForms) :
    form.shape.Separate := by
  rw [eventForms, List.append_assoc] at h
  rcases List.mem_append.mp h with h | h
  · obtain ⟨-, i, -, rfl⟩ := mem_numbered _ _ (fun _ _ => rfl) h
    exact (by decide : Shape.src.Separate)
  rcases List.mem_append.mp h with h | h
  · obtain ⟨-, i, -, rfl⟩ := mem_numbered _ _ (fun _ _ => rfl) h
    exact List.Pairwise.nil
  · obtain ⟨-, i, -, rfl⟩ := mem_numbered _ _ (fun _ _ => rfl) h
    exact List.Pairwise.nil

/-- Whatever form the words select, its slots do not overlap. -/
theorem selectForm_separate {mnemonic : String} {form : Form}
    (h : (Text.upper mnemonic, form) ∈ table) (words : List Word) :
    (selectForm mnemonic form words).shape.Separate := by
  have hfirst : form.shape.Separate := by
    have hsplit : table = written ++ eventForms := rfl
    rw [hsplit] at h
    rcases List.mem_append.mp h with hwritten | hevent
    · exact written_separate (_, form) hwritten
    · exact eventForms_separate hevent
  unfold selectForm
  split
  · cases hsecond : secondForm? mnemonic with
    | none => exact hfirst
    | some second => exact secondForms_separate (_, second) (mem_secondForms hsecond)
  · exact hfirst

end Instruction

/-! ## Clear fields -/

theorem Pattern.fixedIn?_of_ones {marks : List Char} (hlength : marks.length ≤ capacity) {i : Nat}
    (h : (ones marks).getLsbD i = true) : fixedIn? marks i = some true := by
  rw [ones, getLsbD_longWhere _ hlength, Bool.and_eq_true, decide_eq_true_eq,
    Option.any_eq_true] at h
  obtain ⟨hi, mark, hmark, hone⟩ := h
  obtain rfl : mark = '1' := eq_of_beq hone
  rw [fixedIn?, if_pos hi, hmark]
  rfl

/-- A field that operands fill has no ones in the pattern. -/
theorem Form.Sound.get_eq_zero {form : Form} (h : form.Sound) (hshape : form.shape ≠ .nop)
    {f : Field} (hf : f ∈ form.shape.fields) (hvaried : ∀ g ∈ form.shape.varied, f.Apart g)
    (cond : Condition) : (Opcode.ofBits form.bits cond).get f = 0 := by
  have hsame : (Opcode.ofBits form.bits cond).get f = Opcode.get ⟨0⟩ f := by
    apply Opcode.get_congr
    intro i hi
    have hlow : i < 28 := Nat.lt_of_le_of_lt hi.2 (Shape.hi_lt_of_mem_fields hshape f hf)
    rw [Opcode.getLsbD_ofBits_low _ _ hlow, Form.bits, Pattern.bits_eq_ones]
    -- A one would be fixed, and operands reach a fixed bit only to clear or to vary it.
    refine (Bool.eq_false_iff.mpr fun hone => ?_).trans BitVec.getLsbD_zero.symm
    have hfixed := Pattern.fixedIn?_of_ones h.1 hone
    rcases h.reached_cases hfixed hf hi with hcleared | ⟨g, hg, hg'⟩
    · exact h.not_cleared hfixed hcleared
    · exact (hvaried g hg).not_covers hi hg'
  rw [hsame, Opcode.get]
  simp

/-- Before any operand is stored, slots and flags are clear. -/
theorem Form.Sound.get_filled {form : Form} (h : form.Sound) (hseparate : form.shape.Separate)
    (hslots : form.shape.slots ≠ []) {f : Field} (hf : f ∈ form.shape.filled) (cond : Condition) :
    (Opcode.ofBits form.bits cond).get f = 0 := by
  have hnop : form.shape ≠ .nop := by
    intro hshape
    rw [hshape] at hslots
    exact hslots rfl
  exact h.get_eq_zero hnop (form.shape.filled_subset_fields hf)
    (fun _ hg => hseparate.varied_apart hf hg) cond

end PropellerAsm
