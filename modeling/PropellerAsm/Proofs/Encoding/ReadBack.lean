import PropellerAsm.Proofs.Encoding.Storing

/-!
# Reading operands back

The operands of an encoded instruction can be read off its longs: a register and a narrow immediate
from their field, a wide immediate from the field and the augmentation in front, the kind of an
operand from its mark, and the flag updates from the flag bits.
-/
namespace PropellerAsm

/-! ## The word for flags -/

/-- A rule gives leave for the flags that the word names. -/
theorem FlagRule.updates?_eq {rule : FlagRule} {flag : Flag} {carry zero : Bool}
    (h : rule.updates? flag = some (carry, zero)) :
    carry = flag.fields.contains .carry ∧ zero = flag.fields.contains .zero := by
  revert carry zero
  cases rule <;> cases flag <;> decide

theorem Flag.testVariant?_eq {flag : Flag} {carry : Bool} {variant : Long}
    (h : flag.testVariant? = some (carry, variant)) :
    carry = flag.fields.contains .carry ∧ (!carry) = flag.fields.contains .zero := by
  revert carry variant
  cases flag <;> simp [testVariant?, fields] <;> decide

namespace Encoder

open Cursor (Touched)

variable {c c' : Cursor} {u : Unit}

theorem setBit_eq_ok {f : Field} {b : Bool} (h : setBit f b c = .ok u c') :
    c' = { c with opcode := c'.opcode } ∧ c'.opcode.get f = (if b then 1 else c.opcode.get f) ∧
      ∀ g : Field, g.Apart f → c'.opcode.get g = c.opcode.get g := by
  cases b with
  | false =>
    obtain ⟨-, rfl⟩ := pure_eq_ok_iff.mp h
    exact ⟨rfl, rfl, fun _ _ => rfl⟩
  | true =>
    obtain rfl := modify_eq_ok_iff.mp h
    have hwidth : 2 ^ 1 ≤ 2 ^ f.width := Nat.pow_le_pow_right (by decide) (Nat.le_add_left 1 _)
    exact ⟨rfl, Opcode.get_set _ hwidth, fun g hg => Opcode.get_set_of_apart _ hg 1⟩

theorem setFlags_eq_ok {carry zero : Bool} (h : setFlags carry zero c = .ok u c') :
    c' = { c with opcode := c'.opcode } ∧
      c'.opcode.get .carry = (if carry then 1 else c.opcode.get .carry) ∧
      c'.opcode.get .zero = if zero then 1 else c.opcode.get .zero := by
  obtain ⟨_, c₁, hcarry, hzero⟩ := bind_eq_ok_iff.mp h
  obtain ⟨hc₁, hgetCarry, hkept⟩ := setBit_eq_ok hcarry
  obtain ⟨hc', hgetZero, hkept'⟩ := setBit_eq_ok hzero
  refine ⟨?_, ?_, ?_⟩
  · rw [hc', hc₁]
  · rw [hkept' .carry (by decide), hgetCarry]
  · rw [hgetZero, hkept .zero (by decide)]

/-- The flags that a word names are marked, and the others stay clear. -/
theorem setFlags_marks {flag : Flag} {carry zero : Bool}
    (h : setFlags carry zero c = .ok u c') (hcarry : carry = flag.fields.contains .carry)
    (hzero : zero = flag.fields.contains .zero) {f : Field} (hf : f ∈ [Field.carry, Field.zero])
    (hclear : c.opcode.get f = 0) :
    c'.opcode.get f = if flag.fields.contains f then 1 else 0 := by
  obtain ⟨-, hgetCarry, hgetZero⟩ := setFlags_eq_ok h
  simp only [List.mem_cons, List.not_mem_nil, or_false] at hf
  rcases hf with rfl | rfl
  · rw [hgetCarry, hclear, hcarry]
  · rw [hgetZero, hclear, hzero]

/-- Behind the operands at most one flag word has been read, up to the end of the line: the flags
it names are marked, and but for the `varied` fields nothing else has changed. -/
structure Flagged (line : Nat) (allowed varied : List Field) (c c' : Cursor) : Prop where
  flags : ∀ f ∈ allowed, c.opcode.get f = 0 →
    c'.opcode.get f = if c.words.any (Word.updates f) then 1 else 0
  touched : Touched line (allowed ++ varied) c c'
  augment : ∀ side, c'.augment side = c.augment side

/-- The line ends behind the operands, or with one flag word that the rule allows. -/
theorem flags_run {rule : Option FlagRule} (h : flags rule c = .ok u c') :
    (c.words = [] ∧ c' = c) ∨
    ∃ allowed word flag carry zero c₁, rule = some allowed ∧ c.words = [word] ∧
      word.token = .keyword (.flag flag) ∧ allowed.updates? flag = some (carry, zero) ∧
      setFlags carry zero c = .ok () c₁ ∧ c' = { c₁ with words := [] } := by
  cases rule with
  | none => exact .inl (finish_eq_ok h)
  | some allowed =>
    obtain ⟨next, c₁, hpeek, h⟩ := bind_eq_ok_iff.mp h
    obtain ⟨rfl, rfl⟩ := peek?_eq_ok hpeek
    -- Only one word may be left, and it is the flag word.
    cases hwords : c₁.words with
    | nil =>
      rw [hwords] at h
      exact .inl ⟨rfl, (finish_eq_ok h).2⟩
    | cons word words =>
      rw [hwords, List.head?_cons] at h
      obtain ⟨flag, htoken, h⟩ := flag_of_match h
      cases hupdates : allowed.updates? flag with
      | none =>
        rw [hupdates] at h
        exact absurd h throw_ne_ok
      | some choice =>
        obtain ⟨carry, zero⟩ := choice
        rw [hupdates] at h
        obtain ⟨_, c₂, hflags, h⟩ := bind_eq_ok_iff.mp h
        obtain ⟨_, c₃, hskip, h⟩ := bind_eq_ok_iff.mp h
        obtain rfl := modify_eq_ok_iff.mp hskip
        obtain ⟨hend, rfl⟩ := finish_eq_ok h
        have hrest : c₂.words.tail = words := by
          rw [setFlags_words hflags, hwords, List.tail_cons]
        have hlast : words = [] := hrest.symm.trans hend
        rw [hrest, hlast]
        exact .inr ⟨allowed, word, flag, carry, zero, c₂, rfl, rfl, htoken, hupdates, hflags, rfl⟩

theorem flagged_flags {line : Nat} (rule : Option FlagRule) (h : flags rule c = .ok u c') :
    Flagged line (rule.elim [] FlagRule.fields) [] c c' := by
  have htouched : Touched line (rule.elim [] FlagRule.fields ++ []) c c' :=
    (keeps_flags rule (List.subset_append_left _ _)).of_ok h
  obtain ⟨hwords, rfl⟩ | ⟨allowed, word, flag, carry, zero, c₁, rfl, hwords, htoken, hupdates,
    hflags, rfl⟩ := flags_run h
  · -- Without a flag word the flags stay clear.
    refine ⟨fun f _ hclear => ?_, htouched, fun _ => rfl⟩
    rw [hclear, hwords]
    rfl
  · obtain ⟨hcarry, hzero⟩ := FlagRule.updates?_eq hupdates
    have hrule : allowed.fields ⊆ [Field.carry, Field.zero] := by cases allowed <;> decide
    refine ⟨fun f hf hclear => ?_, htouched, fun side => ?_⟩
    · rw [hwords, List.any_cons, Word.updates_of_token htoken, List.any_nil, Bool.or_false]
      exact setFlags_marks hflags hcarry hzero (hrule hf) hclear
    · rw [(setFlags_eq_ok hflags).1]
      cases side <;> rfl

theorem flagged_testFlag {line : Nat} {f : Field}
    (hapart : ∀ g ∈ [Field.carry, Field.zero], g.Apart f)
    (h : (do testFlag f; finish : Encoder Unit) c = .ok u c') :
    Flagged line [.carry, .zero] [f] c c' := by
  have htouched : Touched line ([.carry, .zero] ++ [f]) c c' :=
    (keeps_bind (keeps_testFlag f (by simp) (by simp) (by simp)) fun _ => keeps_finish).of_ok h
  obtain ⟨_, c₁, htest, h⟩ := bind_eq_ok_iff.mp h
  obtain ⟨hend, rfl⟩ := finish_eq_ok h
  obtain ⟨word, words, flag, carry, variant, c₂, hwords, htoken, hvariant, hflags, rfl⟩ :=
    testFlag_run htest
  obtain ⟨hcarry, hzero⟩ := Flag.testVariant?_eq hvariant
  have hlast : words = [] := hend
  refine ⟨fun g hg hclear => ?_, htouched, fun side => ?_⟩
  · -- The variant is added to a field apart from the flags.
    have hkept : (c₂.opcode.add f variant).get g = c₂.opcode.get g :=
      Opcode.get_set_of_apart _ (hapart g hg) _
    rw [hwords, hlast, List.any_cons, Word.updates_of_token htoken, List.any_nil, Bool.or_false]
    exact hkept.trans (setFlags_marks hflags hcarry hzero hg hclear)
  · rw [(setFlags_eq_ok hflags).1]
    cases side <;> rfl

/-! ## The operands of a shape -/

variable {ctx : Context}

theorem expectComma_eq_ok {text : OperandText} (h : expectComma text c = .ok u c') :
    text.comma = true ∧ c' = c := by
  cases hcomma : text.comma with
  | false =>
    obtain ⟨found, herror⟩ := expectComma_error hcomma c
    rw [herror] at h
    cases h
  | true =>
    unfold expectComma at h
    rw [hcomma] at h
    exact ⟨rfl, (pure_eq_ok_iff.mp h).2.symm⟩

/-- The destination is the source as well. -/
def copied (c : Cursor) : Cursor :=
  { c with opcode := c.opcode.set .source (c.opcode.get .destination) }

/-- A register is followed by a source behind a comma, and else it is the source as well. -/
theorem dstSrc_run {pointer : Bool} (h : dstSrc ctx pointer c = .ok u c') :
    ∃ text c₁, Stored ctx (.dst .none) text c c₁ ∧
      ((text.comma = true ∧ ∃ text', Stored ctx (.src pointer) text' c₁ c') ∨
       (text.comma = false ∧ c' = copied c₁)) := by
  obtain ⟨⟨operand, text⟩, c₁, hvalue, h⟩ := bind_eq_ok_iff.mp h
  obtain ⟨_, c₂, hcheck, h⟩ := bind_eq_ok_iff.mp h
  obtain ⟨hregister, rfl⟩ := raiseIf_eq_ok_iff.mp hcheck
  obtain ⟨_, c₂, hput, h⟩ := bind_eq_ok_iff.mp h
  -- The register is read like a destination without a mark.
  have hdst : dst ctx .none c = .ok text c₂ := by
    have hput' : putDestination .none operand text.text c₁ = .ok () c₂ := by
      rw [putDestination, if_neg hregister]
      exact hput
    exact bind_eq_ok_iff.mpr ⟨_, c₁, hvalue, bind_eq_ok_iff.mpr ⟨_, c₂, hput', rfl⟩⟩
  refine ⟨text, c₂, stored_dst hdst, ?_⟩
  unfold sourceAfter at h
  cases hcomma : text.comma with
  | true =>
    rw [hcomma, if_pos rfl] at h
    obtain ⟨text', c₃, hsource, h⟩ := bind_eq_ok_iff.mp h
    obtain ⟨-, rfl⟩ := pure_eq_ok_iff.mp h
    exact .inl ⟨rfl, text', stored_source hsource⟩
  | false =>
    rw [hcomma, if_neg Bool.false_ne_true] at h
    obtain ⟨next, c₃, hpeek, h⟩ := bind_eq_ok_iff.mp h
    obtain ⟨rfl, rfl⟩ := peek?_eq_ok hpeek
    -- A plain word behind the register is a fault, any other ends the operands.
    have hsource : register .src operand.value c₃ = .ok u c' := by
      cases hnext : c₃.words.head? with
      | none =>
        rw [hnext] at h
        exact h
      | some word =>
        rw [hnext] at h
        dsimp only at h
        split at h
        · exact absurd h throw_ne_ok
        · exact h
    obtain ⟨hfits, hc₃⟩ := register_eq_ok hput
    obtain ⟨-, hc'⟩ := register_eq_ok hsource
    have hlow : (operand.value.setWidth 32).toNat < 512 := by
      rw [BitVec.toNat_setWidth]
      omega
    have hfield : c₃.opcode.get .destination = operand.value.setWidth 32 := by
      rw [hc₃]
      exact get_side c₁.opcode .dst hlow
    refine .inr ⟨rfl, ?_⟩
    rw [hc', copied, hfield]
    rfl

/-- All slots of the shape are filled, or a register alone is copied to the source. -/
inductive Completed (shape : Shape) (stored : List (Slot × OperandText)) (c : Cursor) :
    Cursor → Prop
  | all (slots : stored.map Prod.fst = shape.slots) : Completed shape stored c c
  | alone {text : OperandText} {pointer : Bool} (abbreviates : shape.abbreviates = true)
      (slots : shape.slots = [.dst .none, .src pointer])
      (single : stored = [(.dst .none, text)]) (comma : text.comma = false) :
      Completed shape stored c (copied c)

theorem dstSrc_completed (shape : Shape) {pointer : Bool}
    (habbreviates : shape.abbreviates = true)
    (hslots : shape.slots = [.dst .none, .src pointer]) (h : dstSrc ctx pointer c = .ok u c') :
    ∃ operands c₁, StoredAll ctx operands c c₁ ∧ Completed shape operands c₁ c' := by
  obtain ⟨text, c₁, hdst, ⟨hcomma, text', hsrc⟩ | ⟨hcomma, rfl⟩⟩ := dstSrc_run h
  · refine ⟨_, c', .cons hdst (fun _ => hcomma) (.cons hsrc (absurd rfl) (.nil c')), .all ?_⟩
    exact hslots.symm
  · exact ⟨_, c₁, .cons hdst (absurd rfl) (.nil c₁), .alone habbreviates hslots rfl hcomma⟩

/-- A destination and a source with a comma between them. -/
theorem pair_run {mark : ImmediateMark} (pointer : Bool) {tail : Encoder Unit}
    (h : (do
      expectComma (← dst ctx mark)
      let _ ← source ctx pointer
      tail : Encoder Unit) c = .ok u c') :
    ∃ text text' c₁, StoredAll ctx [(.dst mark, text), (.src pointer, text')] c c₁ ∧
      tail c₁ = .ok u c' := by
  obtain ⟨text, c₁, hdst, h₁⟩ := bind_eq_ok_iff.mp h
  obtain ⟨_, c₂, hexpect, h₂⟩ := bind_eq_ok_iff.mp h₁
  obtain ⟨hcomma, rfl⟩ := expectComma_eq_ok hexpect
  obtain ⟨text', c₃, hsrc, htail⟩ := bind_eq_ok_iff.mp h₂
  exact ⟨text, text', c₃, .cons (stored_dst hdst) (fun _ => hcomma)
    (.cons (stored_source hsrc) (absurd rfl) (.nil c₃)), htail⟩

end Encoder

namespace Instruction

open Encoder

variable {ctx : Context} {c c' : Cursor} {u : Unit}

/-- Whatever the shape, its operands are stored in its slots, and then the flag word is read. -/
theorem operands_run {shape : Shape} (hshape : shape.slots ≠ [])
    (h : operands ctx shape c = .ok u c') :
    ∃ stored c₁ c₂, StoredAll ctx stored c c₁ ∧ Completed shape stored c₁ c₂ ∧
      Flagged ctx.line shape.flagFields shape.varied c₂ c' := by
  -- Each shape with slots reads its operands in the order of the slots, then the flag word.
  cases shape with
  | dst mark rule =>
    obtain ⟨text, c₁, hdst, h⟩ := bind_eq_ok_iff.mp h
    exact ⟨_, c₁, c₁, .cons (stored_dst hdst) (absurd rfl) (.nil c₁), .all rfl,
      flagged_flags rule h⟩
  | testPin =>
    obtain ⟨text, c₁, hdst, h⟩ := bind_eq_ok_iff.mp h
    exact ⟨_, c₁, c₁, .cons (stored_dst hdst) (absurd rfl) (.nil c₁), .all rfl,
      flagged_testFlag (by decide) h⟩
  | src =>
    obtain ⟨text, c₁, hsrc, h⟩ := bind_eq_ok_iff.mp h
    have hstored : Stored ctx (.src false) text c c₁ := stored_source hsrc
    exact ⟨_, c₁, c₁, .cons hstored (absurd rfl) (.nil c₁), .all rfl, flagged_flags none h⟩
  | dstSrc pointer rule =>
    obtain ⟨_, c₁, hboth, h⟩ := bind_eq_ok_iff.mp h
    obtain ⟨stored, c₂, hstored, hcompleted⟩ :=
      dstSrc_completed (.dstSrc pointer rule) rfl rfl hboth
    exact ⟨stored, c₂, c₁, hstored, hcompleted, flagged_flags rule h⟩
  | testBit =>
    obtain ⟨_, c₁, hboth, h⟩ := bind_eq_ok_iff.mp h
    obtain ⟨stored, c₂, hstored, hcompleted⟩ := dstSrc_completed .testBit rfl rfl hboth
    exact ⟨stored, c₂, c₁, hstored, hcompleted, flagged_testFlag (by decide) h⟩
  | both pointer rule =>
    obtain ⟨text, text', c₁, hstored, h⟩ := pair_run pointer h
    exact ⟨_, c₁, c₁, hstored, .all rfl, flagged_flags rule h⟩
  | lane l =>
    obtain ⟨text, c₁, hdst, h₁⟩ := bind_eq_ok_iff.mp h
    obtain ⟨_, c₂, hexpect, h₂⟩ := bind_eq_ok_iff.mp h₁
    obtain ⟨hcomma, rfl⟩ := expectComma_eq_ok hexpect
    obtain ⟨text', c₃, hsrc, h₃⟩ := bind_eq_ok_iff.mp h₂
    have hstored : Stored ctx (.src false) text' c₂ c₃ := stored_source hsrc
    obtain ⟨_, c₄, hexpect', h₄⟩ := bind_eq_ok_iff.mp h₃
    obtain ⟨hcomma', rfl⟩ := expectComma_eq_ok hexpect'
    obtain ⟨_, c₅, hlane, h₅⟩ := bind_eq_ok_iff.mp h₄
    obtain ⟨text'', hindex⟩ := stored_index hlane
    exact ⟨_, c₅, c₅, .cons (stored_dst hdst) (fun _ => hcomma) (.cons hstored (fun _ => hcomma')
      (.cons hindex (absurd rfl) (.nil c₅))), .all rfl, flagged_flags none h₅⟩
  | alter =>
    obtain ⟨text, text', c₁, hstored, h⟩ := pair_run false h
    exact ⟨_, c₁, c₁, hstored, .all rfl, flagged_flags none h⟩
  | jump =>
    obtain ⟨text, c₁, hdst, h⟩ := bind_eq_ok_iff.mp h
    exact ⟨_, c₁, c₁, .cons (stored_dst hdst) (absurd rfl) (.nil c₁), .all rfl,
      flagged_flags (some .wcz) h⟩
  | callD =>
    obtain ⟨_, c₁, hboth, h⟩ := bind_eq_ok_iff.mp h
    obtain ⟨stored, c₂, hstored, hcompleted⟩ := dstSrc_completed .callD rfl rfl hboth
    exact ⟨stored, c₂, c₁, hstored, hcompleted, flagged_flags (some .wcz) h⟩
  | getRnd =>
    obtain ⟨text, c₁, hdst, h⟩ := bind_eq_ok_iff.mp h
    exact ⟨_, c₁, c₁, .cons (stored_dst hdst) (absurd rfl) (.nil c₁), .all rfl,
      flagged_flags (some .wcz) h⟩
  | _ => exact absurd rfl hshape

end Instruction

/-! ## Slots behind the last word -/

namespace Encoder

open Cursor (SameSlot)

variable {ctx : Context} {shape : Shape} {stored : List (Slot × OperandText)}
  {c c₁ c₂ c' : Cursor}

theorem Flagged.sameSlot {line : Nat}
    (h : Flagged line shape.flagFields shape.varied c c') (hseparate : shape.Separate)
    {slot : Slot} (hslot : slot ∈ shape.slots) : SameSlot slot c c' where
  fields _ hf := h.touched.get fun _ hg => hseparate.slot_apart hslot hf hg
  augment side _ := h.augment side

theorem copied_augment (c : Cursor) (side : Side) : (copied c).augment side = c.augment side := by
  cases side <;> rfl

theorem get_copied (c : Cursor) {f : Field} (h : f.Apart .source) :
    (copied c).opcode.get f = c.opcode.get f :=
  c.opcode.get_set_of_apart h _

namespace Completed

theorem slots_initial (h : Completed shape stored c c') :
    stored.map Prod.fst <+: shape.slots := by
  cases h with
  | all slots => exact slots ▸ List.prefix_rfl
  | alone abbreviates slots single comma =>
    rw [slots, single]
    exact ⟨_, rfl⟩

theorem words (h : Completed shape stored c c') : c'.words = c.words := by
  cases h <;> rfl

theorem augment (h : Completed shape stored c c') (side : Side) :
    c'.augment side = c.augment side := by
  cases h with
  | all slots => rfl
  | alone abbreviates slots single comma => exact copied_augment c side

/-- The copy goes to the source, where nothing is stored. -/
theorem sameSlot (h : Completed shape stored c c') {slot : Slot}
    (hslot : slot ∈ stored.map Prod.fst) : SameSlot slot c c' := by
  refine ⟨fun f hf => ?_, fun side _ => h.augment side⟩
  cases h with
  | all slots => rfl
  | alone abbreviates slots single comma =>
    rw [single] at hslot
    obtain rfl := List.mem_singleton.mp hslot
    obtain rfl := List.mem_singleton.mp hf
    exact get_copied c (by decide)

/-- The copy stays off the flags. -/
theorem get_flag (h : Completed shape stored c c') (hseparate : shape.Separate) {f : Field}
    (hf : f ∈ shape.flagFields) : c'.opcode.get f = c.opcode.get f := by
  cases h with
  | all slots => rfl
  | alone abbreviates slots single comma =>
    refine get_copied c (hseparate.flag_apart hf ?_)
    rw [slots]
    exact (by decide : Field.source ∈ [Field.destination, .immediate, .source])

theorem upTo_eq (h : Completed shape stored c₁ c₂) (hstored : StoredAll ctx stored c c₁) :
    OperandText.upTo shape.slots.length c.words = stored.map Prod.snd := by
  cases h with
  | all slots => rw [← slots, List.length_map, hstored.texts]
  | @alone text pointer abbreviates slots single comma =>
    -- Without a comma no second text is read.
    subst single
    cases hstored with
    | cons first _ others =>
      rw [slots, List.length_cons, OperandText.upTo, first.take]
      dsimp only
      rw [comma, if_neg Bool.false_ne_true]
      rfl

theorem texts_eq (h : Completed shape stored c₁ c₂) (hstored : StoredAll ctx stored c c₁) :
    shape.texts c.words = stored.map (·.2.text) := by
  rw [Shape.texts, h.upTo_eq hstored, List.map_map]
  rfl

theorem zip_texts (h : Completed shape stored c₁ c₂) (hstored : StoredAll ctx stored c c₁) :
    shape.slots.zip (shape.texts c.words) =
      stored.map fun operand => (operand.1, operand.2.text) := by
  obtain ⟨others, hslots⟩ := h.slots_initial
  have hlength : (stored.map Prod.fst).length = (stored.map (·.2.text)).length := by simp
  have hzip : (stored.map Prod.fst ++ others).zip (stored.map (·.2.text) ++ []) = _ :=
    List.zip_append hlength
  rw [List.append_nil, List.zip_nil_right, List.append_nil, List.zip_map'] at hzip
  rw [h.texts_eq hstored, ← hslots, hzip]

theorem complete (h : Completed shape stored c₁ c₂) (hstored : StoredAll ctx stored c c₁) :
    (shape.texts c.words).length = shape.slots.length ∨
      (shape.abbreviates = true ∧ (shape.texts c.words).length = 1) := by
  rw [h.texts_eq hstored, List.length_map]
  cases h with
  | all slots => exact .inl (by rw [← slots, List.length_map])
  | alone abbreviates slots single comma => exact .inr ⟨abbreviates, by rw [single]; rfl⟩

end Completed

section Behind

variable (hstored : StoredAll ctx stored c c₁) (hcompleted : Completed shape stored c₁ c₂)
  (hflagged : Flagged ctx.line shape.flagFields shape.varied c₂ c')

include hstored hcompleted hflagged

/-- The operands are still in their slots behind the last word. -/
theorem holds_behind (hseparate : shape.Separate) (hclear : ∀ slot ∈ shape.slots, c.Clear slot)
    {slot : Slot} {text : OperandText} (hmem : (slot, text) ∈ stored) :
    ∃ operand, slot.Reads ctx c.symbols text.text operand ∧ c'.Holds operand slot := by
  have hinitial := hcompleted.slots_initial
  -- The slots in use are among those of the shape, which do not overlap.
  have hfields : (stored.flatMap fun operand => operand.1.fields).Pairwise Field.Apart := by
    obtain ⟨others, hslots⟩ := hinitial
    have hapart := hseparate.slots_apart
    rw [← hslots, List.flatMap_append, List.pairwise_append, List.flatMap_map] at hapart
    exact hapart.1
  have hslot : slot ∈ stored.map Prod.fst := List.mem_map.mpr ⟨_, hmem, rfl⟩
  obtain ⟨operand, hreads, hholds⟩ := hstored.holds hfields
    (fun operand hoperand => hclear _ (hinitial.subset (List.mem_map.mpr ⟨_, hoperand, rfl⟩))) hmem
  -- Neither the copy of a register nor the flag word reaches the slot.
  refine ⟨operand, hreads, (hholds.same (hcompleted.sameSlot hslot)).same ?_⟩
  exact hflagged.sameSlot hseparate (hinitial.subset hslot)

/-- A register that stands alone is the source as well, without a mark and without upper bits. -/
theorem alone_behind (hseparate : shape.Separate) (hclear : ∀ slot ∈ shape.slots, c.Clear slot)
    (habbreviates : shape.abbreviates = true) (hlength : (shape.texts c.words).length = 1) :
    c'.opcode.get .source = c'.opcode.get .destination ∧ c'.opcode.get .immediate = 0 ∧
      c'.augs = none := by
  rw [hcompleted.texts_eq hstored, List.length_map] at hlength
  cases hcompleted with
  | all slots =>
    -- Two slots are not filled from one text.
    have htwo := Shape.length_slots_of_abbreviates habbreviates
    rw [← slots, List.length_map] at htwo
    omega
  | @alone text pointer _ hslots single comma =>
    subst single
    have hdst : Slot.dst .none ∈ shape.slots := by simp [hslots]
    have hsrc : Slot.src pointer ∈ shape.slots := by simp [hslots]
    have hsource : Field.source ∈ (Slot.src pointer).fields := (by decide : _ ∈ Field.sourceFields)
    have hmark : Field.immediate ∈ (Slot.src pointer).fields := (by decide : _ ∈ Field.sourceFields)
    -- The register leaves the slot of the source clear.
    have hclear₁ : c₁.Clear (.src pointer) := by
      refine (hclear _ hsrc).same (hstored.sameSlot fun f hf operand hoperand g hg => ?_)
      obtain rfl := List.mem_singleton.mp hoperand
      have hapart := hseparate.slots_apart
      rw [hslots, List.flatMap_cons, List.flatMap_singleton, List.pairwise_append] at hapart
      exact (hapart.2.2 g hg f hf).symm
    have hsame := hflagged.sameSlot hseparate hsrc
    have hsame' := hflagged.sameSlot hseparate hdst
    have hcopy : (copied c₁).opcode.get .source = c₁.opcode.get .destination :=
      Opcode.get_set _ (c₁.opcode.toNat_get_lt .destination)
    have hkept : (copied c₁).opcode.get .destination = c₁.opcode.get .destination :=
      get_copied c₁ (by decide)
    refine ⟨?_, ?_, ?_⟩
    · rw [hsame.fields _ hsource, hsame'.fields _ List.mem_cons_self, hcopy, hkept]
    · rw [hsame.fields _ hmark, get_copied _ (by decide), hclear₁.fields _ hmark]
    · have haugs := hsame.augment .src rfl
      rw [copied_augment, hclear₁.augment .src rfl] at haugs
      exact haugs

/-- Flags that no word names stay clear. -/
theorem flags_behind (hseparate : shape.Separate) {f : Field} (hf : f ∈ shape.flagFields)
    (hclear : c.opcode.get f = 0) :
    c'.opcode.get f = if c.words.any (Word.updates f) then 1 else 0 := by
  have hkept : c₁.opcode.get f = c.opcode.get f := by
    refine hstored.touched.get fun g hg => hseparate.flag_apart hf ?_
    obtain ⟨operand, hoperand, hg⟩ := List.mem_flatMap.mp hg
    refine List.mem_flatMap.mpr ⟨operand.1, hcompleted.slots_initial.subset ?_, hg⟩
    exact List.mem_map.mpr ⟨_, hoperand, rfl⟩
  have hset := hflagged.flags f hf (by rw [hcompleted.get_flag hseparate hf, hkept, hclear])
  rw [hset, hcompleted.words, hstored.any_updates]

/-- A side without a slot has no upper bits. -/
theorem augment_behind {side : Side} (hside : ∀ slot ∈ shape.slots, slot.side? ≠ some side) :
    c'.augment side = c.augment side := by
  rw [hflagged.augment, hcompleted.augment, hstored.augment]
  intro operand hoperand
  exact hside _ (hcompleted.slots_initial.subset (List.mem_map.mpr ⟨_, hoperand, rfl⟩))

end Behind

end Encoder

/-! ## Encoded instructions -/

namespace Encoded

/-- The augmentation of a side. -/
def augment (e : Encoded) : Side → Option Long
  | .dst => e.augd
  | .src => e.augs

/-- An operand can be read back from the field of a side, where an immediate has this mark. -/
structure Stores (e : Encoded) (side : Side) (mark : ImmediateMark) (operand : Operand) :
    Prop where
  /-- A register fits into the field. -/
  register : operand.immediate = false → operand.value.toNat ≤ 0x1ff ∧
    (Opcode.get ⟨e.word⟩ side.field).toNat = operand.value.toNat
  immediate : operand.immediate = true → mark ≠ .none
  marked : ∀ f ∈ mark.fields, Opcode.get ⟨e.word⟩ f = if operand.immediate then 1 else 0
  augmented : (e.augment side).isSome = true ↔
    operand.immediate = true ∧ (operand.augmented = true ∨ 0x1ff < operand.value.toNat)
  /-- A wide value is split between the augmentation and the field. -/
  wide : ∀ long ∈ e.augment side, 512 * (Opcode.get ⟨long⟩ .augment).toNat +
    (Opcode.get ⟨e.word⟩ side.field).toNat = operand.value.toNat % 2 ^ 32
  narrow : e.augment side = none →
    (Opcode.get ⟨e.word⟩ side.field).toNat = operand.value.toNat

/-- An operand can be read back from a slot. -/
def Holds (e : Encoded) (operand : Operand) : Slot → Prop
  | .dst mark => e.Stores .dst mark operand
  | .src _ => e.Stores .src .immediate operand
  | .index l => operand.immediate = true ∧ operand.value.toNat ≤ l.max ∧
      (Opcode.get ⟨e.word⟩ l.field).toNat = operand.value.toNat

/-- The operands and the flag word of a line can be read back from its instruction, which has this
shape. -/
structure ReadsBack (e : Encoded) (ctx : Context) (t : SymbolTable) (shape : Shape)
    (words : List Word) : Prop where
  /-- There is an operand for each slot, or a register alone. -/
  complete : (shape.texts words).length = shape.slots.length ∨
    (shape.abbreviates = true ∧ (shape.texts words).length = 1)
  /-- An operand other than a pointer expression is read back from its slot. -/
  operands : ∀ slot text, (slot, text) ∈ shape.slots.zip (shape.texts words) →
    (slot = .src true → Pointer.parse? text = none) →
      ∃ operand t', Operand.evaluate ctx text t = .ok operand t' ∧ e.Holds operand slot
  /-- A register alone is the source as well. -/
  alone : shape.abbreviates = true → (shape.texts words).length = 1 →
    Opcode.get ⟨e.word⟩ .source = Opcode.get ⟨e.word⟩ .destination ∧
      Opcode.get ⟨e.word⟩ .immediate = 0 ∧ e.augs = none
  /-- Only an operand has an augmentation. -/
  unaugmented : ∀ side, (∀ slot ∈ shape.slots, slot.side? ≠ some side) → e.augment side = none
  flags : ∀ f ∈ shape.flagFields,
    Opcode.get ⟨e.word⟩ f = if words.any (Word.updates f) then 1 else 0

end Encoded

/-- What a cursor holds on one side can be read back from the encoded instruction. -/
theorem Cursor.Stores.encoded {c : Cursor} {side : Side} {mark : ImmediateMark} {operand : Operand}
    (h : c.Stores side mark operand) {e : Encoded} (hword : e.word = c.opcode.word) {bits : Long}
    {cond : Condition}
    (haugment : e.augment side = (c.augment side).map (Instruction.augmentation bits cond)) :
    e.Stores side mark operand := by
  have hget : ∀ f, Opcode.get ⟨e.word⟩ f = c.opcode.get f := fun f => by rw [hword]
  rw [h.augment] at haugment
  have hfits := h.fits
  refine ⟨?_, ?_, ?_, ?_, ?_, ?_⟩
  · intro hregister
    rw [Operand.Fits, if_neg (by simp [hregister])] at hfits
    refine ⟨hfits, ?_⟩
    rw [hget, h.field]
    omega
  · intro himmediate
    rwa [Operand.Fits, if_pos himmediate] at hfits
  · intro f hf
    rw [hget, h.marked f hf]
  · rw [haugment, Option.isSome_map]
    exact operand.isSome_upper?_iff
  · intro long hlong
    rw [haugment] at hlong
    obtain ⟨upper, hupper, rfl⟩ := Option.mem_map.mp hlong
    have hlong : (Opcode.get ⟨Instruction.augmentation bits cond upper⟩ .augment).toNat =
        upper.toNat % 2 ^ 23 := Opcode.toNat_get_set _ .augment _
    -- Nine bits from the field and 23 from the augmentation make up a long.
    rw [hlong, Operand.toNat_of_mem_upper? hupper, hget, h.field]
    omega
  · intro hnone
    have hle := hfits.le_of_upper? (Option.map_eq_none_iff.mp (haugment.symm.trans hnone))
    rw [hget, h.field]
    omega

theorem Cursor.Holds.encoded {c : Cursor} {operand : Operand} {slot : Slot}
    (h : c.Holds operand slot) {cond : Condition} {e : Encoded}
    (he : e = { augd := c.augd.map (Instruction.augmentation Instruction.augdBits cond),
                augs := c.augs.map (Instruction.augmentation Instruction.augsBits cond),
                word := c.opcode.word }) : e.Holds operand slot := by
  subst he
  cases slot with
  | dst mark => exact Stores.encoded h rfl rfl
  | src pointer => exact Stores.encoded h rfl rfl
  | index l => exact h

namespace Instruction

open Encoder

/-- The operands and the flag word of an instruction can be read back from what it is encoded
to. -/
theorem encode_reads_back {ctx : Context} {mnemonic : String} {form : Form} {cond : Condition}
    {words : List Word} {t t' : SymbolTable} {e : Encoded}
    (hrow : (Text.upper mnemonic, form) ∈ table)
    (hslots : (selectForm mnemonic form words).shape.slots ≠ [])
    (h : encode ctx mnemonic form cond words t = .ok e t') :
    e.ReadsBack ctx t (selectForm mnemonic form words).shape words := by
  obtain ⟨hsound, -⟩ := selectForm_sound hrow words
  have hseparate := selectForm_separate hrow words
  obtain ⟨c', hrun, he, -⟩ := encode_eq_ok h
  -- From here on it does not matter which form was selected.
  generalize selectForm mnemonic form words = selected at hslots hsound hseparate hrun ⊢
  obtain ⟨stored, c₁, c₂, hstored, hcompleted, hflagged⟩ := operands_run hslots hrun
  have hzero : ∀ f ∈ selected.shape.filled, (Opcode.ofBits selected.bits cond).get f = 0 :=
    fun f hf => hsound.get_filled hseparate hslots hf cond
  have hclear : ∀ slot ∈ selected.shape.slots, Cursor.Clear
      { words, symbols := t, opcode := .ofBits selected.bits cond } slot := by
    intro slot hslot
    refine ⟨fun f hf => hzero f ?_, fun side _ => by cases side <;> rfl⟩
    exact List.mem_append_left _ (List.mem_flatMap.mpr ⟨slot, hslot, hf⟩)
  have hget : ∀ f, Opcode.get ⟨e.word⟩ f = c'.opcode.get f := fun f => by rw [he]
  refine ⟨hcompleted.complete hstored, ?_, ?_, ?_, ?_⟩
  · intro slot text hmem hplain
    rw [hcompleted.zip_texts hstored] at hmem
    obtain ⟨⟨_, text'⟩, hmem', heq⟩ := List.mem_map.mp hmem
    obtain ⟨rfl, rfl⟩ := Prod.mk.inj heq
    obtain ⟨operand, hreads, hholds⟩ :=
      holds_behind hstored hcompleted hflagged hseparate hclear hmem'
    obtain ⟨t₁, heval⟩ := hreads hplain
    exact ⟨operand, t₁, heval, hholds.encoded he⟩
  · intro habbreviates hlength
    obtain ⟨hsource, hmark, haugs⟩ :=
      alone_behind hstored hcompleted hflagged hseparate hclear habbreviates hlength
    rw [hget, hget, hget]
    exact ⟨hsource, hmark, by rw [he, haugs]; rfl⟩
  · intro side hside
    have hnone := augment_behind hstored hcompleted hflagged hside
    rw [he]
    cases side with
    | dst => exact Option.map_eq_none_iff.mpr hnone
    | src => exact Option.map_eq_none_iff.mpr hnone
  · intro f hf
    rw [hget]
    exact flags_behind hstored hcompleted hflagged hseparate hf
      (hzero f (List.mem_append_right _ hf))

/-- Both operands are augmented here, the destination for its value and the source for its mark, and
the carry flag is updated. -/
theorem encode_reads_back_coginit :
    ∃ e t', encode {} "coginit" ⟨"1100111 CLI", .both false (some .wc)⟩ 0x3
        [.ofText "#$12345" 8 true, .ofText "##5" 17 false, .ofText "wc" 21 false] {} = .ok e t' ∧
      e = ⟨some 0x3f800091, some 0x3f000000, 0x3cfe8a05⟩ ∧
      e.ReadsBack {} {} (.both false (some .wc))
        [.ofText "#$12345" 8 true, .ofText "##5" 17 false, .ofText "wc" 21 false] := by
  have hfind : Keyword.find? "coginit" =
      some (.instruction ⟨"1100111 CLI", .both false (some .wc)⟩) := by decide +kernel
  obtain ⟨t', hrun⟩ := value?_eq_some_iff.mp
    (show value? (encode {} "coginit" ⟨"1100111 CLI", .both false (some .wc)⟩ 0x3
        [.ofText "#$12345" 8 true, .ofText "##5" 17 false, .ofText "wc" 21 false] {}) =
      some ⟨some 0x3f800091, some 0x3f000000, 0x3cfe8a05⟩ by decide +kernel)
  exact ⟨_, t', hrun, rfl, encode_reads_back (mem_table_of_find? hfind) (List.cons_ne_nil _ _) hrun⟩

end Instruction

end PropellerAsm
